import IdlGen.Proofs.Rephrasing
import IdlGen.Proofs.Saving
import IdlGen.Proofs.Schema.Values

/-!
# What is loaded

Of whatever kind a thing is, the value that is read for it is the value that is saved of it. So a text is
loaded as soon as a value is read from it, and what is loaded is that value's thing.
-/

namespace IdlGen

open Json

/-! ### Configurations and reports -/

section Slots

variable {κ : Type} {body : κ → Body κ}

/-- A record that fits holds in each slot what fits the slot. -/
theorem Json.Fits.held {name : κ} {slots : List (Slot κ)} {v : Value} (h : Fits body (.named name) v)
    (hbody : body name = .record slots) :
    ∃ held, List.Forall₂ (FitsSlot body) slots held ∧ v = recordValue slots held := by
  cases h with
  | record hbody' hkeys hlength habsent hheld =>
    obtain rfl := Body.record.inj (hbody.symm.trans hbody')
    exact ⟨_, List.forall₂_iff_zip.2 ⟨hlength, fun hmem => ⟨habsent _ hmem, hheld _ hmem⟩⟩, rfl⟩
  | bare hbody' hcase | case hbody' hcase hv => cases hbody.symm.trans hbody'

theorem Json.FitsSlot.given {slot : Slot κ} {held : Option Value} (h : FitsSlot body slot held)
    (hpresence : slot.presence ≠ .optional) : ∃ v, held = some v ∧ Fits body slot.format v := by
  cases held with
  | none => exact absurd (h.1 rfl) hpresence
  | some v => exact ⟨v, rfl, h.2 v rfl⟩

theorem Json.FitsSlot.text {key : String} {presence : Presence} {held : Option Value}
    (h : FitsSlot body ⟨key, .text, presence⟩ held) (hpresence : presence ≠ .optional) :
    ∃ s, held = some (.string s) := by
  obtain ⟨v, rfl, hv⟩ := h.given hpresence
  cases hv with
  | text s => exact ⟨s, rfl⟩

end Slots

theorem Config.exists_toValue {v : Value} (h : Fits (fun _ => .record slots) (.named ()) v) :
    ∃ c : Config, c.toValue = v := by
  obtain ⟨held, hheld, rfl⟩ := h.held rfl
  rcases hheld with _ | ⟨houtDir, _ | ⟨hgenerator, _ | _⟩⟩
  obtain ⟨outDir, rfl⟩ := houtDir.text Presence.noConfusion
  obtain ⟨generator, rfl⟩ := hgenerator.text Presence.noConfusion
  exact ⟨⟨outDir, generator⟩, rfl⟩

theorem Config.wellFormed : WellFormed fun _ : Unit => .record Config.slots := by
  apply WellFormed.of_slots
  intro name slots hslots
  obtain rfl := Body.record.inj hslots
  decide

theorem Report.wellFormed : WellFormed Report.grammar := by
  apply WellFormed.of_slots
  intro part slots hslots
  cases part with
  | stream => cases hslots
  | report | file =>
    obtain rfl := Body.record.inj hslots
    decide

theorem Stream.exists_name {v : Value} (h : Fits Report.grammar (.named .stream) v) :
    ∃ stream : Stream, v = .string stream.name := by
  cases h with
  | record hbody hkeys hlength habsent hheld => cases hbody
  | bare hbody hcase =>
    obtain rfl := Body.choice.inj hbody
    have hmem := List.mem_of_find?_eq_some hcase
    simp only [List.mem_cons, Prod.mk.injEq, List.not_mem_nil, or_false] at hmem
    rcases hmem with ⟨rfl, -⟩ | ⟨rfl, -⟩
    · exact ⟨.types, rfl⟩
    · exact ⟨.vars, rfl⟩
  | case hbody hcase hv =>
    obtain rfl := Body.choice.inj hbody
    have hmem := List.mem_of_find?_eq_some hcase
    simp at hmem

theorem ReportFile.exists_toValue {v : Value} (h : Fits Report.grammar (.named .file) v) :
    ∃ f : ReportFile, f.toValue = v := by
  obtain ⟨held, hheld, rfl⟩ := h.held rfl
  rcases hheld with _ | ⟨hpath, _ | ⟨hstream, _ | ⟨hbytes, _ | ⟨hsha256, _ | _⟩⟩⟩⟩
  obtain ⟨path, rfl⟩ := hpath.text Presence.noConfusion
  obtain ⟨_, rfl, hname⟩ := hstream.given Presence.noConfusion
  obtain ⟨stream, rfl⟩ := Stream.exists_name hname
  obtain ⟨_, rfl, hinteger⟩ := hbytes.given Presence.noConfusion
  obtain ⟨sha256, rfl⟩ := hsha256.text Presence.noConfusion
  cases hinteger with
  | @integer _ _ n hlow hhigh hsigned hunsigned =>
    refine ⟨⟨path, stream, .ofNat n.toNat, sha256⟩, ?_⟩
    have hbytes : ((UInt64.ofNat n.toNat).toNat : Int) = n := by
      rw [UInt64.toNat_ofNat_of_lt' (by change _ < 18446744073709551616; omega)]
      omega
    rw [toValue]
    simp only [hbytes]

theorem Report.exists_toValue {v : Value} (h : Fits grammar (.named .report) v) :
    ∃ r : Report, r.toValue = v := by
  obtain ⟨held, hheld, rfl⟩ := h.held rfl
  rcases hheld with _ | ⟨hgenerator, _ | ⟨hprogram, _ | ⟨hfiles, _ | _⟩⟩⟩
  obtain ⟨generator, rfl⟩ := hgenerator.text Presence.noConfusion
  obtain ⟨program, rfl⟩ := hprogram.text Presence.noConfusion
  obtain ⟨_, rfl, hlist⟩ := hfiles.given Presence.noConfusion
  cases hlist with
  | @list _ items hitems =>
    obtain ⟨files, rfl⟩ : ∃ files : List ReportFile, files.map ReportFile.toValue = items := by
      rw [← Set.mem_range, Set.range_list_map]
      exact fun item hitem => ReportFile.exists_toValue (hitems item hitem)
    exact ⟨⟨generator, program, files⟩, rfl⟩

/-! ### All kinds -/

namespace SavedKind

theorem wellFormed (k : SavedKind) : WellFormed (Document.grammar (α := k.Thing)) := by
  cases k with
  | config => exact Config.wellFormed
  | report | reportFile => exact Report.wellFormed
  | _ => exact Schema.wellFormed_grammar

theorem exists_toValue (k : SavedKind) {v : Value}
    (h : Fits Document.grammar (Document.format k.Thing) v) : ∃ x : k.Thing, Document.toValue x = v := by
  cases k with
  | config => exact Config.exists_toValue h
  | report => exact Report.exists_toValue h
  | reportFile => exact ReportFile.exists_toValue h
  | _ =>
    obtain ⟨x, rfl⟩ := Schema.saved_of_fits h
    exact ⟨x, rfl⟩

/-- A thing is loaded from a text if its value is read from it. -/
theorem ofText_eq_ok_iff (k : SavedKind) {text : String} {x : k.Thing} :
    Document.ofText text = .ok x ↔
      readText Document.grammar (Document.format k.Thing) text.toList = .ok (Document.toValue x) := by
  rw [Document.ofText]
  constructor
  · intro h
    unfold Document.ofReading at h
    split at h
    · cases h
    · rename_i v hv
      obtain ⟨o, -, hread⟩ := readText_eq_ok_iff.1 hv
      obtain ⟨y, rfl⟩ := k.exists_toValue (o.fits_of_read k.wellFormed hread)
      rw [Faithful.ofValue_toValue] at h
      obtain rfl := Except.ok.inj h
      exact hv
  · intro h
    rw [h, Document.ofReading, Faithful.ofValue_toValue]

theorem exists_ofText_iff (k : SavedKind) {text : String} :
    (∃ x : k.Thing, Document.ofText text = .ok x) ↔
      ∃ v, readText Document.grammar (Document.format k.Thing) text.toList = .ok v := by
  constructor
  · rintro ⟨x, hx⟩
    exact ⟨_, k.ofText_eq_ok_iff.1 hx⟩
  · rintro ⟨v, hv⟩
    obtain ⟨o, -, hread⟩ := readText_eq_ok_iff.1 hv
    obtain ⟨x, rfl⟩ := k.exists_toValue (o.fits_of_read k.wellFormed hread)
    exact ⟨x, k.ofText_eq_ok_iff.2 hv⟩

end SavedKind

end IdlGen
