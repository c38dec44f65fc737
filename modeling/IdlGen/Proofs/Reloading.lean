import IdlGen.Proofs.Schema.Depth
import Mathlib.Logic.Function.Iterate

/-!
# Loading again what was read

A text may leave out lists and namespaces, and saving writes them out. So a program that has been read
can be saved one level deeper than the text that it was read from. It is loaded again unless the text
went down to the limit already.
-/

namespace IdlGen

open Json

theorem sound_of_no_doubles {v : Value} (h : v.doubles = []) : v.Sound := by
  intro x hx
  rw [h] at hx
  exact absurd hx List.not_mem_nil

/-- A text is read if its outline is. -/
theorem ofText_of_read {v : Value} {p : Program} (hv : v.Sound)
    (hread : read Schema.grammar (.named .program) depthLimit v.outline = .ok p.toValue) :
    Document.ofText v.toText = .ok p := by
  have houtline : Outline.ofText v.compact = (v.outline, []) := (Value.ofText_texts hv).1
  have htext : readText Schema.grammar (.named .program) v.compact = .ok p.toValue := by
    rw [readText, houtline]
    dsimp only
    rw [hread]
    rfl
  have hback : Document.ofValue p.toValue = some p := Program.ofValue_toValue p
  change Document.ofReading (readText Schema.grammar (.named .program) v.toText.toList) = _
  rw [Value.toText, String.toList_ofList, htext]
  simp only [Document.ofReading, hback]

/-! ### Sparse texts -/

/-- Lists of lists, so many deep, of an enum that declares no labels. -/
def listsOfEnum (n : Nat) : Program :=
  let target := Ty.list^[n] (.enum { name := "E" })
  { info := { name := "p" }, definitions := [.typedef { name := "T", target }] }

/-- The same as a text can have it that leaves out whatever is empty. -/
def sparseListsOfEnum (n : Nat) : Value :=
  let target := (fun v => Value.object [("list", some v)])^[n]
    (.object [("enum", some (.object [("name", some (.string "E"))]))])
  let typedef := Value.object [("name", some (.string "T")), ("target", some target)]
  .object
    [("info", some (.object [("name", some (.string "p"))])),
      ("definitions", some (.array [.object [("typedef", some typedef)]]))]

/-! ### Reloading -/

/-- A program that was read is saved at most one level deeper than its text. It is loaded again as it
was if it is not saved too deep, which it never is from a text of fewer than 127 levels. Saved with 128
levels, the most there can be, it is refused as malformed. -/
theorem reload_of_read {text : String} {p : Program} (hread : Document.ofText text = .ok p)
    (hdoubles : ∀ y ∈ (Document.toValue p).doubles, Value.ReadsBack y) :
    nesting (Document.toIndentedText p) ≤ min 127 (nesting text) + 1 ∧
      (nesting (Document.toIndentedText p) ≤ 127 → p.reload = .ok p) ∧
      (nesting text < 127 → p.reload = .ok p) ∧
      (nesting (Document.toIndentedText p) = 128 → p.reload = .error .malformed) := by
  have hdepth : nesting (Document.toIndentedText p) = p.toValue.nesting :=
    (Value.nesting_texts hdoubles).2
  have hbound : p.toValue.nesting ≤ min 127 (nesting text) + 1 := nesting_toValue_of_ofText hread
  have hreload : p.reload = limited 127 p.toValue.nesting p := by
    rw [← hdepth]
    exact (ofText_saved hdoubles).2
  rw [hdepth, hreload]
  refine ⟨hbound, fun hflat => limited_of_le hflat p, fun hflat => ?_, fun hdeep => ?_⟩
  · apply limited_of_le
    omega
  · apply limited_of_lt
    omega

set_option maxRecDepth 10000 in
/-- A program with a double in it, and a sparse text one level above the limit. -/
theorem reload_of_read_half :
    let value : Literal := .double ⟨0x3FE0000000000000⟩
    let half : Program :=
      { info := { name := "p" }
        definitions := [.constant { name := "half", type := .base .double, value }] }
    (Document.ofText (Document.toText half) = .ok half ∧ half.reload = .ok half) ∧
      Document.ofText (sparseListsOfEnum 120).toText = .ok (listsOfEnum 120) ∧
        (listsOfEnum 120).reload = .ok (listsOfEnum 120) := by
  intro value half
  have hhalf : ∀ y ∈ (Document.toValue half).doubles, Value.ReadsBack y := by
    intro y hy
    obtain rfl := List.mem_singleton.1 hy
    exact ⟨by decide +kernel, ⟨false, ['0'], ['5'], none⟩, by decide +kernel, by decide +kernel⟩
  have hshallow : nesting (Document.toText half) < 127 := by
    rw [Document.toText, (Value.nesting_texts hhalf).1]
    decide +kernel
  have hreadHalf : Document.ofText (Document.toText half) = .ok half :=
    (ofText_saved hhalf).1.trans (limited_of_le (Nat.le_of_lt hshallow) half)
  have hsparse : (sparseListsOfEnum 120).Sound := sound_of_no_doubles (by decide +kernel)
  have hlists : (Document.toValue (listsOfEnum 120)).Sound := sound_of_no_doubles (by decide +kernel)
  have hflat : nesting (sparseListsOfEnum 120).toText < 127 := by
    rw [(Value.nesting_texts hsparse).1]
    decide +kernel
  have hread : Document.ofText (sparseListsOfEnum 120).toText = .ok (listsOfEnum 120) :=
    ofText_of_read hsparse rfl
  obtain ⟨-, -, hreloadHalf, -⟩ := reload_of_read hreadHalf hhalf
  obtain ⟨-, -, hreload, -⟩ := reload_of_read hread hlists
  exact ⟨⟨hreadHalf, hreloadHalf hshallow⟩, hread, hreload hflat⟩

set_option maxRecDepth 10000 in
/-- At the limit, a sparse text is read, but what is saved of it is too deep to be loaded. -/
theorem read_but_not_reloaded :
    Document.ofText (sparseListsOfEnum 121).toText = .ok (listsOfEnum 121) ∧
      (Document.toValue (listsOfEnum 121)).doubles = [] ∧
        (listsOfEnum 121).reload = .error .malformed := by
  have hnone : (Document.toValue (listsOfEnum 121)).doubles = [] := by decide +kernel
  have hsparse : (sparseListsOfEnum 121).Sound := sound_of_no_doubles (by decide +kernel)
  have hlists := sound_of_no_doubles hnone
  have hdeep : depthLimit < nesting (Document.toIndentedText (listsOfEnum 121)) := by
    rw [Document.toIndentedText, (Value.nesting_texts hlists).2]
    decide +kernel
  refine ⟨ofText_of_read hsparse rfl, hnone, ?_⟩
  exact (ofText_saved hlists).2.trans (limited_of_lt hdeep _)

end IdlGen
