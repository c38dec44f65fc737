import IdlGen.Journal
import IdlGen.Proofs.Calls
import IdlGen.Proofs.Integers
import IdlGen.Proofs.Json.Blanks
import IdlGen.Proofs.Layout.Indentation
import IdlGen.Proofs.Layout.Regrouping
import IdlGen.Proofs.Layout.Shifting
import IdlGen.Proofs.Layout.Words
import IdlGen.Proofs.Lisp.Columns
import IdlGen.Proofs.Lisp.Indifference
import IdlGen.Proofs.Lisp.LiteralLines
import IdlGen.Proofs.Lisp.Places
import IdlGen.Proofs.Lisp.Qualification
import IdlGen.Proofs.Lisp.Resolution
import IdlGen.Proofs.Lisp.Shapes
import IdlGen.Proofs.Lisp.StreamReading
import IdlGen.Proofs.Lisp.Truncation
import IdlGen.Proofs.Lisp.UseClause
import IdlGen.Proofs.Registry
import IdlGen.Proofs.Reloading
import IdlGen.Proofs.Rephrasing
import IdlGen.Proofs.Saving
import IdlGen.Proofs.Spoiling
import IdlGen.Proofs.Tearing
import IdlGen.Proofs.Workspace.Build
