import IdlGen.Proofs.Json.Lexing
import IdlGen.Proofs.Json.Outlines

/-!
# Texts of outlines

A text writes an outline if it is cut into the tokens of the outline. There are many texts of an outline,
since blanks and the spellings of strings are free, but a text has one outline (`Writes.ofText`).
-/

namespace IdlGen.Json

mutual

theorem Outline.intact_tokens : (o : Outline) → ∀ t ∈ o.tokens, t.Intact
  | .word _ | .number _ | .string _ => by simp [Outline.tokens, Token.Intact]
  | .array items => List.forall_mem_cons.2 ⟨trivial, items.intact_firstTokens⟩
  | .object members => List.forall_mem_cons.2 ⟨trivial, members.intact_firstTokens⟩
  | .broken _ => fun _ h => absurd h List.not_mem_nil

theorem Items.intact_firstTokens : (items : Items) → ∀ t ∈ items.firstTokens, t.Intact
  | .close => List.forall_mem_singleton.2 trivial
  | .item value rest => List.forall_mem_append.2 ⟨value.intact_tokens, rest.intact_tokens⟩
  | .cut _ => fun _ h => absurd h List.not_mem_nil

theorem Items.intact_tokens : (items : Items) → ∀ t ∈ items.tokens, t.Intact
  | .close => List.forall_mem_singleton.2 trivial
  | .item value rest =>
    List.forall_mem_cons.2 ⟨trivial, List.forall_mem_append.2 ⟨value.intact_tokens, rest.intact_tokens⟩⟩
  | .cut _ => fun _ h => absurd h List.not_mem_nil

theorem Members.intact_firstTokens : (members : Members) → ∀ t ∈ members.firstTokens, t.Intact
  | .close => List.forall_mem_singleton.2 trivial
  | .member _ value rest =>
    List.forall_mem_cons.2 ⟨trivial, List.forall_mem_cons.2
      ⟨trivial, List.forall_mem_append.2 ⟨value.intact_tokens, rest.intact_tokens⟩⟩⟩
  | .bare _ _ | .stray _ | .cut _ => fun _ h => absurd h List.not_mem_nil

theorem Members.intact_tokens : (members : Members) → ∀ t ∈ members.tokens, t.Intact
  | .close => List.forall_mem_singleton.2 trivial
  | .member _ value rest =>
    List.forall_mem_cons.2 ⟨trivial, List.forall_mem_cons.2 ⟨trivial, List.forall_mem_cons.2
      ⟨trivial, List.forall_mem_append.2 ⟨value.intact_tokens, rest.intact_tokens⟩⟩⟩⟩
  | .bare _ _ | .stray _ | .cut _ => fun _ h => absurd h List.not_mem_nil

end

/-- The text says this and nothing more, with any blanks and any spellings of strings. -/
def Writes (text : List Char) (o : Outline) : Prop := o.Whole ∧ Token.Cut text o.tokens

theorem writes_of_scan {text : List Char} {o : Outline} (hwhole : o.Whole)
    (h : Token.scan text = o.tokens) : Writes text o := by
  have hcut := Token.cut_of_intact (h.symm ▸ o.intact_tokens)
  exact ⟨hwhole, h ▸ hcut⟩

/-- One outline only is written by a text. -/
theorem Writes.ofText {text : List Char} {o : Outline} (h : Writes text o) :
    Outline.ofText text = (o, []) := by
  rw [Outline.ofText, h.2.scan, Outline.ofTokens_tokens h.1]

/-- Both texts of a value write its outline. -/
theorem Value.writes_texts {v : Value} (hv : v.Sound) :
    Writes v.compact v.outline ∧ Writes (v.indented 0) v.outline := by
  obtain ⟨hcompact, hindented⟩ := scan_texts hv
  rw [v.tokens_outline] at hcompact hindented
  exact ⟨writes_of_scan v.whole_outline hcompact, writes_of_scan v.whole_outline hindented⟩

end IdlGen.Json
