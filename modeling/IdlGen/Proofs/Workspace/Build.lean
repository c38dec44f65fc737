import IdlGen.Proofs.Keyed
import IdlGen.Proofs.Steps
import IdlGen.Proofs.Workspace.FileSystem
import IdlGen.Proofs.Workspace.Spool
import IdlGen.Workspace.Build

/-!
# What a run leaves in files

Once the directory and both files have been made, nothing that a run does can fail but the run itself.
Its two files then hold what the same run leaves in memory, however it ends, and all other files are as
they were.
-/

namespace IdlGen

namespace Build

open FileSystem

variable {σ : Type} [Carrier σ] {b : Backend σ} {p : Program} {root : String} {fs made : FileSystem}

theorem onFile_eq_ok_iff {α : Type} (path : String) {op : FileOp α} {a : α} {fs fs' : FileSystem} :
    onFile path op fs = .ok a fs' ↔ op fs = .ok a fs' := by
  rw [onFile]
  split <;> simp_all

/-! ### Runs in memory -/

/-- What a run asks of the streams is what they hold in the end. -/
theorem recorded_runInMemory [LawfulCarrier σ] (hb : b.ByJobs) (p : Program) :
    (runInMemory b p).2.Recorded := by
  obtain ⟨jobs, hjobs⟩ := hb.generate p (Carrier.ofSink {})
  rw [LawfulCarrier.sink_ofSink] at hjobs
  have hsink : (runInMemory b p).2 = Carrier.sink (finalState (b.generate p (Carrier.ofSink {}))) := by
    rw [runInMemory]
    cases b.generate p (Carrier.ofSink {}) <;> rfl
  rw [hsink, hjobs]
  exact Sink.recorded_empty.performEach jobs

theorem fileContents_apart [LawfulCarrier σ] (hb : b.ByJobs) (p : Program) (stream : Stream) :
    fileContents false (runInMemory b p).2.requests stream = (runInMemory b p).2.contents stream := by
  have hfiltered := SpooledFile.contents_filter stream (runInMemory b p).2.requests
  have hrecorded := (recorded_runInMemory hb p).2 stream
  exact hfiltered.trans hrecorded.symm

/-! ### The two files -/

/-- Streams with extensions that have no slash go to two files. -/
theorem filePaths_apart (hextension : '/' ∉ b.extension.toList) (p : Program) (root : String)
    (fs : FileSystem) :
    fs.sameFile (filePath b p root .types) (filePath b p root .vars) = false := by
  have hpath : ∀ stream, ∃ before, (filePath b p root stream).toList =
      before ++ (stream.name.toList ++ '.' :: b.extension.toList) := by
    intro stream
    obtain ⟨before, hjoin⟩ := join_append (directoryPath b root) (fileName b p stream)
    refine ⟨before ++ (p.name.toList ++ ['-']), ?_⟩
    rw [filePath, hjoin, fileName]
    simp
  obtain ⟨before, htypes⟩ := hpath .types
  obtain ⟨before', hvars⟩ := hpath .vars
  have hslash : ∀ stream : Stream, '/' ∉ stream.name.toList ++ '.' :: b.extension.toList := by
    intro stream
    cases stream <;> simp [Stream.name, hextension]
  refine sameFile_of_ends htypes hvars (hslash _) (hslash _) fun front front' hsame => ?_
  rw [← List.append_assoc, ← List.append_assoc] at hsame
  -- Before the dot one name ends in an e and an s, the other in an r and an s.
  have hreversed := congrArg List.reverse (List.append_cancel_right hsame)
  simp [Stream.name] at hreversed

/-- Both files can be made: their paths lead to two places where no directory is. -/
structure Ready (b : Backend σ) (p : Program) (root : String) (fs : FileSystem)
    (places : Stream → List String) : Prop where
  leads (stream : Stream) : fs.LeadsTo (filePath b p root stream) (places stream)
  apart : places .types ≠ places .vars

/-- Apart from these places, both file systems have the same files. -/
def SameElsewhere (places : Stream → List String) (fs fs' : FileSystem) : Prop :=
  ∀ place, (∀ stream, place ≠ places stream) → fs'.bytes? place = fs.bytes? place

variable {places : Stream → List String}

/-- A file system after both files have been written. -/
def written (places : Stream → List String) (contents : Stream → List UInt8) (fs : FileSystem) :
    FileSystem :=
  (fs.put (places .types) (.file (contents .types))).put (places .vars) (.file (contents .vars))

theorem sameElsewhere_written (places : Stream → List String) (contents : Stream → List UInt8)
    (fs : FileSystem) : SameElsewhere places fs (written places contents fs) := by
  intro place hplace
  rw [written, bytes?_put_of_ne (hplace .vars), bytes?_put_of_ne (hplace .types)]

theorem Ready.write (h : Ready b p root fs places) (contents : Stream → List UInt8) :
    FileSystem.write (filePath b p root .types) (contents .types) fs =
      .ok () (fs.put (places .types) (.file (contents .types))) ∧
    FileSystem.write (filePath b p root .vars) (contents .vars)
      (fs.put (places .types) (.file (contents .types))) = .ok () (written places contents fs) := by
  have hsame := sameDirectories_put (h.leads .types).free (contents .types)
  exact ⟨write_eq_ok_iff.2 ⟨_, h.leads .types, rfl⟩,
    write_eq_ok_iff.2 ⟨_, (h.leads .vars).of_same hsame, rfl⟩⟩

theorem Ready.written (h : Ready b p root fs places) (contents : Stream → List UInt8) :
    Ready b p root (written places contents fs) places ∧
      ∀ stream, (Build.written places contents fs).bytes? (places stream) = some (contents stream) := by
  have hsame := sameDirectories_put (h.leads .types).free (contents .types)
  have hvars := (h.leads .vars).of_same hsame
  have hboth := hsame.trans (sameDirectories_put hvars.free (contents .vars))
  refine ⟨⟨fun stream => (h.leads stream).of_same hboth, h.apart⟩, fun stream => ?_⟩
  cases stream with
  | types =>
    rw [Build.written, bytes?_put_of_ne h.apart, bytes?_put_self (not_above_of_free (h.leads .types).free)]
  | vars => rw [Build.written, bytes?_put_self (not_above_of_free hvars.free)]

/-- A place for each stream. -/
def placesOf (types vars : List String) : Stream → List String
  | .types => types
  | .vars => vars

/-- Once the directory and both files have been made, both can be written, and no other file has changed. -/
theorem ready_of_prepare (hmade : prepare b p root fs = .ok () made)
    (hapart : made.sameFile (filePath b p root .types) (filePath b p root .vars) = false) :
    ∃ places, Ready b p root made places ∧ SameElsewhere places fs made := by
  obtain ⟨fs₁, fs₂, hdirectory, htypesRun, hvarsRun⟩ : ∃ fs₁ fs₂,
      makeDirectories (directoryPath b root) fs = .ok () fs₁ ∧
      FileSystem.write (filePath b p root .types) [] fs₁ = .ok () fs₂ ∧
      FileSystem.write (filePath b p root .vars) [] fs₂ = .ok () made := by
    obtain ⟨_, fs₁, hdirectory, hfiles⟩ := ok_of_bind hmade
    obtain ⟨_, fs₂, htypes, hvars⟩ := ok_of_bind hfiles
    exact ⟨fs₁, fs₂, (onFile_eq_ok_iff _).1 hdirectory, (onFile_eq_ok_iff _).1 htypes,
      (onFile_eq_ok_iff _).1 hvars⟩
  obtain ⟨typesPlace, htypes, rfl⟩ := write_eq_ok_iff.1 htypesRun
  obtain ⟨varsPlace, hvars, rfl⟩ := write_eq_ok_iff.1 hvarsRun
  have hsameTypes := sameDirectories_put htypes.free []
  have hsameVars := sameDirectories_put hvars.free []
  have htypes' := htypes.of_same (hsameTypes.trans hsameVars)
  have hvars' := hvars.of_same hsameVars
  refine ⟨placesOf typesPlace varsPlace, ⟨?_, ?_⟩, fun place hplace => ?_⟩
  · rintro (_ | _)
    · exact htypes'
    · exact hvars'
  · exact htypes'.ne_of_not_sameFile hvars' hapart
  · have hkept := KeepsFiles.makeDirectories (directoryPath b root) fs place
    have htypesPlace : place ≠ typesPlace := hplace .types
    have hvarsPlace : place ≠ varsPlace := hplace .vars
    rw [hdirectory] at hkept
    rw [bytes?_put_of_ne hvarsPlace, bytes?_put_of_ne htypesPlace]
    exact hkept

/-! ### Whole runs -/

/-- The report entry of a stream that leaves these bytes. -/
def entry (b : Backend σ) (p : Program) (root : String) (contents : Stream → List UInt8) (stream : Stream) :
    ReportFile where
  path := filePath b p root stream
  stream := stream
  bytes := UInt64.ofNat (contents stream).length
  sha256 := Sha256.hexDigest (contents stream)

theorem describe_of_bytes {path : String} {place : List String} {bytes : List UInt8} (stream : Stream)
    (h : fs.LeadsTo path place) (hbytes : fs.bytes? place = some bytes) :
    describe path stream fs = .ok (.ofContents path stream bytes) fs := by
  have hread := (onFile_eq_ok_iff path).2 (h.read hbytes)
  exact bind_of_ok hread

/-- Once its directory and files have been made, a run ends as it does in memory, and its files have been
written. -/
theorem generateWith_of_ready [LawfulCarrier σ] (hb : b.ByJobs) (hmade : prepare b p root fs = .ok () made)
    (hready : Ready b p root made places)
    (hapart : made.sameFile (filePath b p root .types) (filePath b p root .vars) = false) :
    generateWith b p root fs =
      match (runInMemory b p).1 with
      | .ok () =>
        let entryOf := entry b p root (runInMemory b p).2.contents
        .ok ⟨b.language, p.name, [entryOf .types, entryOf .vars]⟩
          (written places (runInMemory b p).2.contents made)
      | .error e => .error (.emit e) (written places (runInMemory b p).2.contents made) := by
  have hstreams := fileContents_apart hb p
  generalize (runInMemory b p).2.contents = contents at hstreams ⊢
  obtain ⟨htypes, hvars⟩ := hready.write contents
  obtain ⟨hfinal, hbytes⟩ := hready.written contents
  have hget : (get : Build FileSystem) made = .ok made made := rfl
  rw [generateWith, bind_of_ok hmade, bind_of_ok hget, hapart]
  dsimp only
  rw [hstreams, hstreams, bind_of_ok ((onFile_eq_ok_iff _).2 htypes),
    bind_of_ok ((onFile_eq_ok_iff _).2 hvars)]
  cases (runInMemory b p).1 with
  | error e => rfl
  | ok a =>
    dsimp only
    rw [bind_of_ok (describe_of_bytes .types (hfinal.leads .types) (hbytes .types)),
      bind_of_ok (describe_of_bytes .vars (hfinal.leads .vars) (hbytes .vars))]
    rfl

theorem generate_of_unknown {registry : Registry σ} {config : Config}
    (hid : config.generator ∉ registry.ids) (p : Program) (fs : FileSystem) :
    generate registry p config fs = .error (.unknownGenerator config.generator) fs := by
  have hmissing : registry.backend? config.generator = none := by
    rw [Registry.backend?, Registry.get?, Keyed.get?_eq_none_iff.2 hid]
    rfl
  have hbackend : backend registry config.generator fs =
    .error (.unknownGenerator config.generator) fs := by
    rw [backend, hmissing]
    rfl
  exact bind_of_error hbackend

/-- A run that can make its directory and two files leaves in these, whatever they held before, what it
writes to streams in memory, whether it succeeds or fails. It changes no other file. If it succeeds, it
reports both files with the sizes and digests of these contents, and otherwise it fails as it does in
memory. Without a backend of the id that is asked for, nothing happens at all. -/
theorem files_hold_streams [LawfulCarrier σ] (hb : b.ByJobs) (p : Program) :
    (∀ root fs made, prepare b p root fs = .ok () made →
      ('/' ∈ b.extension.toList →
        made.sameFile (filePath b p root .types) (filePath b p root .vars) = false) →
      ∃ final,
        (generateWith b p root fs =
          match (runInMemory b p).1 with
          | .ok () =>
            let entryOf := entry b p root (runInMemory b p).2.contents
            .ok ⟨b.language, p.name, [entryOf .types, entryOf .vars]⟩ final
          | .error e => .error (.emit e) final) ∧
        (∀ stream, final.contents (filePath b p root stream) = .ok ((runInMemory b p).2.contents stream)) ∧
        ∀ place, (∀ stream, ¬ final.LeadsTo (filePath b p root stream) place) →
          final.bytes? place = fs.bytes? place) ∧
    ∀ (registry : Registry σ) (config : Config) (fs : FileSystem), config.generator ∉ registry.ids →
      generate registry p config fs = .error (.unknownGenerator config.generator) fs := by
  refine ⟨fun root fs made hmade hmeet => ?_, fun registry config fs hid => generate_of_unknown hid p fs⟩
  have hapart : made.sameFile (filePath b p root .types) (filePath b p root .vars) = false := by
    by_cases hextension : '/' ∈ b.extension.toList
    · exact hmeet hextension
    · exact filePaths_apart hextension p root made
  obtain ⟨places, hready, helsewhere⟩ := ready_of_prepare hmade hapart
  obtain ⟨hfinal, hbytes⟩ := hready.written (runInMemory b p).2.contents
  refine ⟨_, generateWith_of_ready hb hmade hready hapart, fun stream => ?_, fun place hplace => ?_⟩
  · exact (hfinal.leads stream).contents (hbytes stream)
  · have hother : ∀ stream, place ≠ places stream := by
      rintro stream rfl
      exact hplace stream (hfinal.leads stream)
    rw [sameElsewhere_written places _ made place hother, helsewhere place hother]

/-- Results of runs on given files can be compared. -/
local instance decidableEqResult {ε σ α : Type} [DecidableEq ε] [DecidableEq σ] [DecidableEq α] :
    DecidableEq (EStateM.Result ε σ α)
  | .ok a s, .ok a' s' => decidable_of_iff (a = a' ∧ s = s') (by rw [EStateM.Result.ok.injEq])
  | .error e s, .error e' s' => decidable_of_iff (e = e' ∧ s = s') (by rw [EStateM.Result.error.injEq])
  | .ok _ _, .error _ _ => isFalse nofun
  | .error _ _, .ok _ _ => isFalse nofun

/-- A program whose constant is refused by a backend that fails at its name. -/
def oven : Program where
  info := { name := "oven" }
  definitions := [.typedef { name := "Heat", target := .base .i32 },
    .constant { name := "Hot", type := .base .i32, value := .integer 300 }]

def ovenBackend : Backend Journal := Journal.backend "log" "txt" (some "Hot")

/-- What is left of an earlier run, and a file of another program. -/
def kitchen : FileSystem where
  nodes := [(["out"], .directory), (["out", "gen-log"], .directory),
    (["out", "gen-log", "oven-types.txt"], .file (Utf8.encode "init oven and everything in it".toList)),
    (["out", "gen-log", "sink-types.txt"], .file (Utf8.encode "init sink".toList))]

/-- The kitchen with two files emptied. -/
def kitchenMade : FileSystem where
  nodes := [(["out", "gen-log", "oven-vars.txt"], .file []),
    (["out", "gen-log", "oven-types.txt"], .file []),
    (["out"], .directory), (["out", "gen-log"], .directory),
    (["out", "gen-log", "sink-types.txt"], .file (Utf8.encode "init sink".toList))]

/-- A run that fails at its last declaration and replaces a longer file. -/
theorem files_hold_streams_oven :
    prepare ovenBackend oven "out" kitchen = .ok () kitchenMade ∧ '/' ∉ ovenBackend.extension.toList ∧
      ∃ final, generateWith ovenBackend oven "out" kitchen = .error (.emit (.unsupportedType "Hot")) final ∧
        final.contents "out/gen-log/oven-types.txt" =
          .ok (Utf8.encode "init oven\n\ntypedef Heat\n\n".toList) ∧
        final.contents "out/gen-log/oven-vars.txt" = .ok (Utf8.encode "const Hot\n\n".toList) := by
  have hmade : prepare ovenBackend oven "out" kitchen = .ok () kitchenMade := by decide +kernel
  have hextension : '/' ∉ ovenBackend.extension.toList := by decide
  have hjobs : ovenBackend.ByJobs := Journal.byJobs _ _ _
  obtain ⟨final, hrun, hcontents, -⟩ := (files_hold_streams hjobs oven).1 "out" kitchen kitchenMade hmade
    fun hslash => absurd hslash hextension
  have hend : (runInMemory ovenBackend oven).1 = .error (.unsupportedType "Hot") := rfl
  have hpath : filePath ovenBackend oven "out" .types = "out/gen-log/oven-types.txt" ∧
      filePath ovenBackend oven "out" .vars = "out/gen-log/oven-vars.txt" := by decide +kernel
  have hstreams : (runInMemory ovenBackend oven).2.contents .types =
        Utf8.encode "init oven\n\ntypedef Heat\n\n".toList ∧
      (runInMemory ovenBackend oven).2.contents .vars =
        Utf8.encode "const Hot\n\n".toList := by decide +kernel
  rw [hend] at hrun
  refine ⟨hmade, hextension, final, hrun, ?_, ?_⟩
  · rw [← hpath.1, ← hstreams.1]
    exact hcontents .types
  · rw [← hpath.2, ← hstreams.2]
    exact hcontents .vars

end Build

end IdlGen
