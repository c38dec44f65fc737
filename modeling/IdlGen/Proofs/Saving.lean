import IdlGen.Proofs.Schema.Documents
import IdlGen.Workspace.Config
import IdlGen.Workspace.Report
import Mathlib.Logic.Function.Iterate

/-!
# Saving and loading

Whatever is saved, as compact or as indented text, is loaded again as it was, if the text nests no
deeper than a reader goes; a deeper text is refused as not being JSON.
-/

namespace IdlGen

open Json

/-! ### Configurations and reports -/

namespace Config

theorem fits (c : Config) : Fits (fun _ => .record slots) (.named ()) c.toValue :=
  .of_slots rfl (by decide) <| .cons (.filled (.text _)) <| .cons (.filled (.text _)) .nil

instance : Faithful Config := ⟨fits, fun _ => rfl⟩

end Config

namespace ReportFile

theorem fits (f : ReportFile) : Fits Report.grammar (.named .file) f.toValue := by
  have hbytes := f.bytes.toNat_lt
  have hstream : Fits Report.grammar (.named .stream) (.string f.stream.name) := by
    cases f.stream <;> exact .bare rfl rfl
  exact .of_slots rfl (by decide) <| .cons (.filled (.text _)) <| .cons (.filled hstream) <|
    .cons (.filled (.integer (by omega) (by omega) (by omega) (by omega))) <|
      .cons (.filled (.text _)) .nil

theorem ofValue_toValue (f : ReportFile) : ofValue f.toValue = some f := by
  change ((streamOf f.stream.name).bind fun stream =>
    some (ReportFile.mk f.path stream (UInt64.ofNat (Int.toNat f.bytes.toNat)) f.sha256)) = some f
  have hstream : streamOf f.stream.name = some f.stream := by cases f.stream <;> rfl
  have hbytes : UInt64.ofNat (Int.toNat f.bytes.toNat) = f.bytes := by
    rw [Int.toNat_natCast, UInt64.ofNat_toNat]
  rw [hstream, hbytes]
  rfl

instance : Faithful ReportFile := ⟨fits, ofValue_toValue⟩

end ReportFile

namespace Report

theorem fits (r : Report) : Fits grammar (.named .report) r.toValue :=
  .of_slots rfl (by decide) <| .cons (.filled (.text _)) <| .cons (.filled (.text _)) <|
    .cons (.filled (.of_list fun f _ => f.fits)) .nil

theorem ofValue_toValue (r : Report) : ofValue r.toValue = some r := by
  change (((r.files.map ReportFile.toValue).mapM ReportFile.ofValue).bind fun files =>
    some (Report.mk r.generator r.program files)) = some r
  rw [mapM_map fun f _ => f.ofValue_toValue]
  rfl

instance : Faithful Report := ⟨fits, ofValue_toValue⟩

end Report

/-! ### All kinds -/

/-- The kinds of things that are saved. -/
inductive SavedKind where
  | program
  | info
  | definition
  | typedef
  | enumDef
  | enumLabel
  | record
  | field
  | service
  | method
  | constant
  | baseType
  | type
  | literal
  | config
  | report
  | reportFile

namespace SavedKind

/-- The things of a kind. -/
abbrev Thing : SavedKind → Type
  | program => Program
  | info => ProgramInfo
  | definition => Definition
  | typedef => Typedef
  | enumDef => EnumDef
  | enumLabel => EnumLabel
  | record => Record
  | field => Field
  | service => Service
  | method => Method
  | constant => Constant
  | baseType => BaseType
  | type => Ty
  | literal => Literal
  | config => Config
  | report => Report
  | reportFile => ReportFile

instance document : (k : SavedKind) → Document k.Thing
  | program => inferInstanceAs (Document Program)
  | info => inferInstanceAs (Document ProgramInfo)
  | definition => inferInstanceAs (Document Definition)
  | typedef => inferInstanceAs (Document Typedef)
  | enumDef => inferInstanceAs (Document EnumDef)
  | enumLabel => inferInstanceAs (Document EnumLabel)
  | record => inferInstanceAs (Document Record)
  | field => inferInstanceAs (Document Field)
  | service => inferInstanceAs (Document Service)
  | method => inferInstanceAs (Document Method)
  | constant => inferInstanceAs (Document Constant)
  | baseType => inferInstanceAs (Document BaseType)
  | type => inferInstanceAs (Document Ty)
  | literal => inferInstanceAs (Document Literal)
  | config => inferInstanceAs (Document Config)
  | report => inferInstanceAs (Document Report)
  | reportFile => inferInstanceAs (Document ReportFile)

instance faithful (k : SavedKind) : Faithful k.Thing := by
  cases k <;> infer_instance

end SavedKind

/-- If all doubles in a thing are read back from the numbers that are written for them, then the thing
is loaded from its compact and from its indented text, unless these nest more than 127 arrays and
objects; if they do, both are refused as malformed. -/
theorem loaded_as_saved (k : SavedKind) (x : k.Thing)
    (hx : ∀ y ∈ (Document.toValue x).doubles, Value.ReadsBack y) :
    nesting (Document.toIndentedText x) = nesting (Document.toText x) ∧
      (nesting (Document.toText x) ≤ 127 →
        Document.ofText (Document.toText x) = .ok x ∧
          Document.ofText (Document.toIndentedText x) = .ok x) ∧
      (127 < nesting (Document.toText x) →
        (Document.ofText (Document.toText x) : Except Fault k.Thing) = .error .malformed ∧
          (Document.ofText (Document.toIndentedText x) : Except Fault k.Thing) =
            .error .malformed) := by
  obtain ⟨hcompact, hindented⟩ := ofText_saved hx
  have hsame : nesting (Document.toIndentedText x) = nesting (Document.toText x) := by
    obtain ⟨hdepth, hdepthIndented⟩ := Value.nesting_texts hx
    exact hdepthIndented.trans hdepth.symm
  rw [hsame] at hindented
  refine ⟨hsame, fun hflat => ?_, fun hdeep => ?_⟩
  · have hloads := limited_of_le (show _ ≤ depthLimit from hflat) x
    exact ⟨hcompact.trans hloads, hindented.trans hloads⟩
  · have hrefused := limited_of_lt (show depthLimit < _ from hdeep) x
    exact ⟨hcompact.trans hrefused, hindented.trans hrefused⟩

/-- A double beside a text that needs every sort of escape, and a literal that is too deep. -/
theorem loaded_as_saved_half :
    let half : Literal := .list [.double ⟨0x3FE0000000000000⟩, .string "\"\\\n\u0007é"]
    let deep : Literal := (fun l => Literal.list [l])^[64] (.integer 0)
    Document.ofText (Document.toText half) = .ok half ∧
      Document.ofText (Document.toIndentedText half) = .ok half ∧
      (Document.ofText (Document.toText deep) : Except Fault Literal) = .error .malformed := by
  intro half deep
  have hhalf : ∀ y ∈ (Document.toValue half).doubles, Value.ReadsBack y := by
    intro y hy
    obtain rfl := List.mem_singleton.1 hy
    exact ⟨by decide +kernel, ⟨false, ['0'], ['5'], none⟩, by decide +kernel, by decide +kernel⟩
  have hdeep : ∀ y ∈ (Document.toValue deep).doubles, Value.ReadsBack y := by
    have hnone : (Document.toValue deep).doubles = [] := by decide +kernel
    rw [hnone]
    exact fun y hy => absurd hy List.not_mem_nil
  have hshallow : nesting (Document.toText half) ≤ 127 := by
    rw [Document.toText, (Value.nesting_texts hhalf).1]
    decide +kernel
  have htooDeep : 127 < nesting (Document.toText deep) := by
    rw [Document.toText, (Value.nesting_texts hdeep).1]
    decide +kernel
  obtain ⟨-, hloads, -⟩ := loaded_as_saved .literal half hhalf
  obtain ⟨-, -, hrefused⟩ := loaded_as_saved .literal deep hdeep
  exact ⟨(hloads hshallow).1, (hloads hshallow).2, (hrefused htooDeep).1⟩

end IdlGen
