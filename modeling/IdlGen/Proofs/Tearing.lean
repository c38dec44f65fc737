import IdlGen.Proofs.Json.TornReading
import IdlGen.Proofs.Schema.Documents

/-!
# Torn files

A file that was not written to its end is told from one that is wrong: whatever is missing at the end of a
saved program, what is there of it is refused as cut short, and neither as malformed nor as another thing.
-/

namespace IdlGen

namespace Json

/-! ### Texts of objects -/

/-- Both texts of an object end in its brace. -/
theorem Value.last_object (members : List (String × Option Value)) :
    (object members).compact.getLast? = some '\x7d' ∧
      ((object members).indented 0).getLast? = some '\x7d' := by
  refine ⟨?_, ?_⟩
  · rw [compact]
    exact List.getLast?_concat
  · rw [indented, block]
    split
    · rfl
    · exact List.getLast?_concat

/-- If anything is missing of a text that ends in a brace, then more than blanks are missing. -/
theorem not_blank_of_last {text kept lost : List Char} (hlast : text.getLast? = some '\x7d')
    (hsplit : text = kept ++ lost) (hlost : lost ≠ []) : ¬∀ c ∈ lost, Token.isBlank c := by
  have hbrace : lost.getLast? = some '\x7d' := by
    rw [← hlast, hsplit, List.getLast?_append_of_ne_nil kept hlost]
  intro hblank
  exact absurd (hblank _ (List.mem_of_getLast? hbrace)) (by decide)

variable {κ : Type} {body : κ → Body κ} {f : Format κ}

theorem RefusedTorn.kept_truncated {v : Value} {text kept lost : List Char}
    (h : RefusedTorn body f depthLimit v) (hwrites : Writes text v.outline)
    (hnumber : ∀ n, v.outline ≠ .number n) (hsplit : text = kept ++ lost)
    (hlost : ¬∀ c ∈ lost, Token.isBlank c) : readText body f kept = .error .truncated := by
  have htorn := h.torn (hwrites.torn hsplit hnumber hlost)
  cases houtline : Outline.ofText kept with
  | mk o rest =>
    rw [houtline] at htorn
    dsimp only at htorn
    rw [readText, houtline]
    dsimp only
    rw [htorn]

/-- A text of an object that fits a format is refused as cut short if anything is missing at its end. -/
theorem Fits.readText_torn {members : List (String × Option Value)} (h : Fits body f (.object members))
    (hzero : ∀ name, (body name).AllowsZero) (hf : f.AllowsZero) (hv : (Value.object members).Sound)
    (hdepth : (Value.object members).nesting ≤ depthLimit) {text kept lost : List Char}
    (htext : text = (Value.object members).compact ∨ text = (Value.object members).indented 0)
    (hsplit : text = kept ++ lost) (hlost : lost ≠ []) : readText body f kept = .error .truncated := by
  have htorn := h.refusedTorn hzero hf hv hdepth
  obtain ⟨hcompact, hindented⟩ := Value.writes_texts hv
  obtain ⟨hlast, hlastIndented⟩ := Value.last_object members
  have hnumber : ∀ n, (Value.object members).outline ≠ .number n := by
    intro n
    rw [Value.outline]
    exact Outline.noConfusion
  rcases htext with rfl | rfl
  · exact htorn.kept_truncated hcompact hnumber hsplit (not_blank_of_last hlast hsplit hlost)
  · exact htorn.kept_truncated hindented hnumber hsplit (not_blank_of_last hlastIndented hsplit hlost)

end Json

open Json

/-! ### Programs -/

/-- Zero is a label, a field id and an integer constant like any other. -/
theorem Schema.grammar_allowsZero (name : Part) : (grammar name).AllowsZero := by
  cases name <;> decide

theorem ofText_whole {p : Program} (hdoubles : ∀ x ∈ (Document.toValue p).doubles, Value.ReadsBack x)
    (hnesting : nesting (Document.toText p) ≤ 127) {text : String}
    (htext : text = Document.toText p ∨ text = Document.toIndentedText p) : Document.ofText text = .ok p := by
  obtain ⟨hcompact, hindented⟩ := ofText_saved hdoubles
  obtain ⟨hdepth, hdepthIndented⟩ := Value.nesting_texts hdoubles
  have hsame : nesting (Document.toIndentedText p) = nesting (Document.toText p) :=
    hdepthIndented.trans hdepth.symm
  rcases htext with rfl | rfl
  · exact hcompact.trans (limited_of_le hnesting p)
  · exact hindented.trans (limited_of_le (hsame.trans_le hnesting) p)

theorem ofText_kept {p : Program} (hdoubles : ∀ x ∈ (Document.toValue p).doubles, Value.ReadsBack x)
    (hnesting : nesting (Document.toText p) ≤ 127) {kept lost : String} (hlost : lost ≠ "")
    (hsplit : kept ++ lost = Document.toText p ∨ kept ++ lost = Document.toIndentedText p) :
    (Document.ofText kept : Except Fault Program) = .error .truncated := by
  have hflat : p.toValue.nesting ≤ depthLimit := (Value.nesting_texts hdoubles).1 ▸ hnesting
  have hchars : (kept ++ lost).toList = p.toValue.compact ∨
      (kept ++ lost).toList = p.toValue.indented 0 := by
    rcases hsplit with hcompact | hindented
    · exact .inl ((congrArg String.toList hcompact).trans String.toList_ofList)
    · exact .inr ((congrArg String.toList hindented).trans String.toList_ofList)
  have hmore : lost.toList ≠ [] := by
    intro hnone
    exact hlost (String.toList_eq_nil_iff.1 hnone)
  have hread :=
    p.fits.readText_torn Schema.grammar_allowsZero trivial hdoubles hflat hchars String.toList_append hmore
  change Document.ofReading (readText Schema.grammar (.named .program) kept.toList) = _
  rw [hread]
  rfl

/-- Wherever the compact or the indented text of a program is torn, what is kept of it is refused as cut
short, and only the whole text is read, if the doubles of the program are read back from the numbers that
are written for them and its text is not too deep. -/
theorem ofText_torn {p : Program} (hdoubles : ∀ x ∈ (Document.toValue p).doubles, Value.ReadsBack x)
    (hnesting : nesting (Document.toText p) ≤ 127) {kept lost : String}
    (hsplit : kept ++ lost = Document.toText p ∨ kept ++ lost = Document.toIndentedText p) :
    Document.ofText kept = if lost = "" then .ok p else .error .truncated := by
  split
  · rename_i hwhole
    rw [hwhole, String.append_empty] at hsplit
    exact ofText_whole hdoubles hnesting hsplit
  · rename_i hlost
    exact ofText_kept hdoubles hnesting hlost hsplit

set_option maxRecDepth 10000 in
/-- Torn in a number, in an escaped character and before the last brace, and not torn. -/
theorem ofText_torn_half :
    let value : Literal := .list [.double ⟨0x3FE0000000000000⟩, .string "\u0007"]
    let half : Program :=
      { info := { name := "p" }
        definitions := [.constant { name := "half", type := .base .double, value }] }
    let front :=
      "\x7b\"info\":\x7b\"name\":\"p\",\"namespaces\":\x7b\x7d\x7d,\"includes\":[],\"definitions\":[" ++
        "\x7b\"const\":\x7b\"name\":\"half\",\"type\":\x7b\"base\":\"double\"\x7d," ++
        "\"value\":\x7b\"list\":[\x7b\"double\":0."
    let middle := "5\x7d,\x7b\"str\":\"\\u0"
    let unclosed := String.ofList (Document.toIndentedText half).toList.dropLast
    (Document.ofText front : Except Fault Program) = .error .truncated ∧
      (Document.ofText (front ++ middle) : Except Fault Program) = .error .truncated ∧
      (Document.ofText unclosed : Except Fault Program) = .error .truncated ∧
      Document.ofText (Document.toIndentedText half) = .ok half := by
  intro value half front middle unclosed
  have hhalf : ∀ x ∈ (Document.toValue half).doubles, Value.ReadsBack x := by
    intro x hx
    obtain rfl := List.mem_singleton.1 hx
    exact ⟨by decide +kernel, ⟨false, ['0'], ['5'], none⟩, by decide +kernel, by decide +kernel⟩
  have hshallow : nesting (Document.toText half) ≤ 127 := by
    rw [Document.toText, (Value.nesting_texts hhalf).1]
    decide +kernel
  let back := "007\"\x7d]\x7d\x7d\x7d]\x7d"
  have hmiddle : front ++ middle ++ back = Document.toText half := by decide +kernel
  have hfront : front ++ (middle ++ back) = Document.toText half :=
    (String.append_assoc ..).symm.trans hmiddle
  have hunclosed : unclosed ++ "\x7d" = Document.toIndentedText half := by
    apply String.toList_inj.1
    rw [String.toList_append, String.toList_ofList, Document.toIndentedText, Value.toIndentedText,
      String.toList_ofList]
    exact List.dropLast_append_getLast? _ (Value.last_object _).2
  refine ⟨?_, ?_, ?_, ?_⟩
  · exact (ofText_torn hhalf hshallow (.inl hfront)).trans (if_neg (by decide +kernel))
  · exact (ofText_torn hhalf hshallow (.inl hmiddle)).trans (if_neg (by decide +kernel))
  · exact (ofText_torn hhalf hshallow (.inr hunclosed)).trans (if_neg (by decide +kernel))
  · exact ofText_torn hhalf hshallow (.inr (String.append_empty ..))

end IdlGen
