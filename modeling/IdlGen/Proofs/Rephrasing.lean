import IdlGen.Proofs.Json.Restating
import IdlGen.Proofs.Json.Writing
import IdlGen.Schema.Document

/-!
# Rephrased texts

The way in which a text is put down makes no difference to what is read from it. Blanks may stand between
any two tokens, each character of a string may be escaped or not, and at any depth the members of a
record may be in any order and among others that nobody asks for. Whatever is read from a text is read
from all of its rephrasings.
-/

namespace IdlGen.Json

variable {κ : Type} {body : κ → Body κ} {f : Format κ} {text text' : List Char}

theorem readText_eq_ok_iff {v : Value} :
    readText body f text = .ok v ↔ ∃ o, Writes text o ∧ read body f depthLimit o = .ok v := by
  refine ⟨fun h => ?_, ?_⟩
  · cases houtline : Outline.ofText text with
    | mk o rest =>
      rw [readText, houtline] at h
      dsimp only at h
      split at h
      · rename_i v' hread
        split at h
        · rename_i hrest
          obtain rfl := Except.ok.inj h
          have hwhole := o.whole_of_read hread
          have htokens := Outline.tokens_of_ofTokens houtline hwhole
          rw [List.isEmpty_iff.1 hrest, List.append_nil] at htokens
          exact ⟨o, writes_of_scan hwhole htokens, hread⟩
        · cases h
      · cases h
  · rintro ⟨o, hwrites, hread⟩
    rw [readText, hwrites.ofText]
    dsimp only
    rw [hread]
    rfl

/-- From a text that writes an outline is read what is read from the outline. -/
theorem Writes.readText_iff {o : Outline} (h : Writes text o) {v : Value} :
    readText body f text = .ok v ↔ read body f depthLimit o = .ok v := by
  rw [readText_eq_ok_iff]
  constructor
  · rintro ⟨other, hother, hread⟩
    obtain rfl := (Prod.mk.inj (h.ofText.symm.trans hother.ofText)).1
    exact hread
  · exact fun hread => ⟨o, h, hread⟩

/-- The second text says what the first one says, in other words. -/
def Rephrases (body : κ → Body κ) (f : Format κ) (text text' : List Char) : Prop :=
  ∃ o o', Writes text o ∧ Relation.ReflTransGen (Restates body f) o o' ∧ Writes text' o'

theorem read_restated {depth : Nat} {v : Value} {o o' : Outline}
    (h : Relation.ReflTransGen (Restates body f) o o')
    (hread : read body f depth o = .ok v) : read body f depth o' = .ok v := by
  induction h with
  | refl => exact hread
  | tail h step ih => exact step.read depth v ih

theorem readText_rephrased {v : Value} (h : Rephrases body f text text')
    (hread : readText body f text = .ok v) : readText body f text' = .ok v := by
  obtain ⟨o, o', hwrites, hrestates, hwrites'⟩ := h
  exact hwrites'.readText_iff.2 (read_restated hrestates (hwrites.readText_iff.1 hread))

/-- A text from which something is read can be rephrased, and the same is read from all of its
rephrasings. -/
theorem ofText_rephrased {α : Type} [Document α] {text : String} {x : α}
    (h : Document.ofText text = .ok x) :
    Rephrases Document.grammar (Document.format α) text.toList text.toList ∧
      ∀ text' : String, Rephrases Document.grammar (Document.format α) text.toList text'.toList →
        Document.ofText text' = .ok x := by
  rw [Document.ofText] at h
  cases hread : readText Document.grammar (Document.format α) text.toList with
  | error fault => rw [hread] at h; cases h
  | ok v =>
    obtain ⟨o, hwrites, -⟩ := readText_eq_ok_iff.1 hread
    refine ⟨⟨o, o, hwrites, .refl, hwrites⟩, fun text' hrephrases => ?_⟩
    rw [Document.ofText, readText_rephrased hrephrases hread, ← hread]
    exact h

set_option maxRecDepth 10000 in
/-- Namespaces and members in another order, a member that nobody asks for, blanks and an escaped letter. -/
theorem ofText_rephrased_shop :
    let text :=
      "\x7b\"info\":\x7b\"name\":\"p\",\"namespaces\":\x7b\"cl\":\"shop\",\"rs\":\"s\"\x7d\x7d\x7d"
    let text' :=
      " \x7b\"later\": [-0.5, \x7b\x7d],\n \"info\":\x7b\"namespaces\" :\x7b\"rs\":\"\\u0073\"," ++
      "\"cl\":\"shop\"\x7d ,\"name\":\"p\"\x7d \x7d"
    let shop : Program := { info := { name := "p", namespaces := .ofList [("cl", "shop"), ("rs", "s")] } }
    Document.ofText text = .ok shop ∧ Document.ofText text' = .ok shop := by
  intro text text' shop
  let name : Option (List Char) × Outline := (some "name".toList, .string (some ['p']))
  let lisp : Option (List Char) × Outline := (some "cl".toList, .string (some "shop".toList))
  let rust : Option (List Char) × Outline := (some "rs".toList, .string (some ['s']))
  let spaces (entries : List (Option (List Char) × Outline)) : Option (List Char) × Outline :=
    (some "namespaces".toList, .object (.behind entries .close))
  let info (members : List (Option (List Char) × Outline)) : Outline := .object (.behind members .close)
  let program (o : Outline) : Members := .member (some "info".toList) o .close
  let later : Outline := .array (.item (.number ⟨true, ['0'], ['5'], none⟩) (.item (.object .close) .close))
  have hspaces : Restates Schema.grammar (.named .info) (info [name, spaces [lisp, rust]])
      (info [name, spaces [rust, lisp]]) :=
    .member rfl [name] rfl (.permuteTexts (by decide) (.swap rust lisp [])) .close
  have hinfo : Restates Schema.grammar (.named .info) (info [name, spaces [rust, lisp]])
      (info [spaces [rust, lisp], name]) :=
    .permute rfl (.swap _ _ [])
  have hprogram {o o' : Outline} (h : Restates Schema.grammar (.named .info) o o') :
      Restates Schema.grammar (.named .program) (.object (program o)) (.object (program o')) :=
    .member rfl [] rfl h .close
  have hwhole : later.Whole := ⟨trivial, trivial, trivial⟩
  have hlater (o : Outline) : Restates Schema.grammar (.named .program) (.object (program o))
      (.object (.member (some "later".toList) later (program o))) :=
    .insert rfl [] (by decide +kernel) hwhole _
  have hwrites : Writes text.toList (.object (program (info [name, spaces [lisp, rust]]))) :=
    writes_of_scan ⟨⟨trivial, ⟨trivial, trivial, trivial⟩, trivial⟩, trivial⟩ (by decide +kernel)
  have hwrites' : Writes text'.toList
      (.object (.member (some "later".toList) later (program (info [spaces [rust, lisp], name])))) :=
    writes_of_scan ⟨hwhole, ⟨⟨trivial, trivial, trivial⟩, trivial, trivial⟩, trivial⟩
      (by decide +kernel)
  have hvalue : readText Schema.grammar (.named .program) text.toList = .ok shop.toValue :=
    readText_eq_ok_iff.2 ⟨_, hwrites, rfl⟩
  have hread : Document.ofText text = .ok shop := by
    change Document.ofReading (readText Schema.grammar (.named .program) text.toList) = _
    rw [hvalue]
    rfl
  obtain ⟨-, hsame⟩ := ofText_rephrased hread
  have hrestates :=
    (Relation.ReflTransGen.single (hprogram hspaces)).tail (hprogram hinfo) |>.tail (hlater _)
  exact ⟨hread, hsame text' ⟨_, _, hwrites, hrestates, hwrites'⟩⟩

end IdlGen.Json
