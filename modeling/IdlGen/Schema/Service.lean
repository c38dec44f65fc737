import IdlGen.Schema.Ty

/-!
# Services

A service is a list of methods, on top of those of its base if it has one.
-/

namespace IdlGen

structure Method where
  name : String
  args : List Field := []
  returns : Ty
  exceptions : List Field := []
  /-- Whether no reply is expected. -/
  oneway : Bool := false
  doc : Option String := none

namespace Method

def arg (m : Method) (f : Field) : Method := { m with args := m.args ++ [f] }

def throws (m : Method) (f : Field) : Method := { m with exceptions := m.exceptions ++ [f] }

def asOneway (m : Method) : Method := { m with oneway := true }

end Method

structure Service where
  name : String
  /-- The declaring program; a declaration without one is local. -/
  owner : Option ProgramInfo := none
  /-- The service that this one extends. -/
  base : Option Service := none
  methods : List Method := []
  doc : Option String := none

namespace Service

def inProgram (s : Service) (owner : ProgramInfo) : Service := { s with owner := some owner }

def extending (s base : Service) : Service := { s with base := some base }

def method (s : Service) (m : Method) : Service := { s with methods := s.methods ++ [m] }

def withDoc (s : Service) (doc : String) : Service := { s with doc := some doc }

end Service

end IdlGen
