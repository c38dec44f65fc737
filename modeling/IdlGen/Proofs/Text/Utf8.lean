import IdlGen.Text.Utf8
import Mathlib.Tactic.SplitIfs

/-!
# UTF-8 read back

The bytes of a character are read as that character, whatever stands behind them, so a text survives
being written and read. Texts keep their order, which is by code points, when they are written as bytes.
-/

namespace IdlGen.Utf8

/-! ### Bytes -/

theorem toNat_byte {n : Nat} (hn : n < 256) : (UInt8.ofNat n).toNat = n :=
  UInt8.toNat_ofNat_of_lt' hn

theorem scan_continued {bits n : Nat} {low high : UInt8} {next : UInt8 × UInt8}
    {owed : List (UInt8 × UInt8)} {rest : List UInt8} (hn : n < 256) (hlow : low.toNat ≤ n)
    (hhigh : n ≤ high.toNat) :
    scan (some ⟨bits, (low, high) :: next :: owed⟩) (UInt8.ofNat n :: rest) =
      scan (some ⟨bits * 64 + n % 64, next :: owed⟩) rest := by
  have hrange : low ≤ UInt8.ofNat n ∧ UInt8.ofNat n ≤ high := by
    rw [UInt8.le_iff_toNat_le, UInt8.le_iff_toNat_le, toNat_byte hn]
    exact ⟨hlow, hhigh⟩
  rw [scan]
  simp only [if_pos hrange, toNat_byte hn, List.isEmpty_cons]
  rfl

theorem scan_finished {bits n : Nat} {low high : UInt8} {rest : List UInt8} (hn : n < 256)
    (hlow : low.toNat ≤ n) (hhigh : n ≤ high.toNat) :
    scan (some ⟨bits, [(low, high)]⟩) (UInt8.ofNat n :: rest) =
      some (Char.ofNat (bits * 64 + n % 64)) :: scan none rest := by
  have hrange : low ≤ UInt8.ofNat n ∧ UInt8.ofNat n ≤ high := by
    rw [UInt8.le_iff_toNat_le, UInt8.le_iff_toNat_le, toNat_byte hn]
    exact ⟨hlow, hhigh⟩
  rw [scan]
  simp only [if_pos hrange, toNat_byte hn, List.isEmpty_nil, if_true]

theorem scan_begun {b : UInt8} {bits : Nat} {range : UInt8 × UInt8} {owed : List (UInt8 × UInt8)}
    (hstart : start b = some ⟨bits, range :: owed⟩) (rest : List UInt8) :
    scan none (b :: rest) = scan (some ⟨bits, range :: owed⟩) rest := by
  rw [scan]
  simp only [hstart, List.nil_append]

theorem start_byte {n : Nat} (hn : n < 256) :
    start (UInt8.ofNat n) =
      if n < 0x80 then some ⟨n, []⟩
      else if n < 0xC2 then none
      else if n < 0xE0 then some ⟨n - 0xC0, [tail]⟩
      else if n = 0xE0 then some ⟨0, [(0xA0, 0xBF), tail]⟩
      else if n = 0xED then some ⟨0xD, [(0x80, 0x9F), tail]⟩
      else if n < 0xF0 then some ⟨n - 0xE0, [tail, tail]⟩
      else if n = 0xF0 then some ⟨0, [(0x90, 0xBF), tail, tail]⟩
      else if n < 0xF4 then some ⟨n - 0xF0, [tail, tail, tail]⟩
      else if n = 0xF4 then some ⟨4, [(0x80, 0x8F), tail, tail]⟩
      else none := by
  simp only [start, UInt8.lt_iff_toNat_lt, ← UInt8.toNat_inj, toNat_byte hn]
  rfl

/-! ### Characters -/

theorem continuation_range (v : Nat) :
    (0x80 : UInt8).toNat ≤ v % 64 + 0x80 ∧ v % 64 + 0x80 ≤ (0xBF : UInt8).toNat := by
  change 0x80 ≤ v % 64 + 0x80 ∧ v % 64 + 0x80 ≤ 0xBF
  omega

/-- The first of three bytes narrows the range of the second one, so that neither an overlong form
nor a surrogate is let in. -/
theorem start_three {v : Nat} (hshort : 0x7FF < v) (hlong : v ≤ 0xFFFF)
    (hvalid : v < 0xD800 ∨ 0xDFFF < v) :
    ∃ low high : UInt8, start (UInt8.ofNat (v / 4096 % 16 + 0xE0)) =
        some ⟨v / 4096, [(low, high), tail]⟩ ∧
      low.toNat ≤ v / 64 % 64 + 0x80 ∧ v / 64 % 64 + 0x80 ≤ high.toNat := by
  rw [start_byte (by omega), if_neg (by omega), if_neg (by omega), if_neg (by omega)]
  by_cases hfirst : v / 4096 = 0
  · refine ⟨0xA0, 0xBF, ?_, ?_, ?_⟩
    · rw [if_pos (by omega), hfirst]
    · change 0xA0 ≤ _
      omega
    · change _ ≤ 0xBF
      omega
  · rw [if_neg (by omega)]
    by_cases hsurrogate : v / 4096 = 0xD
    · refine ⟨0x80, 0x9F, ?_, ?_, ?_⟩
      · rw [if_pos (by omega), hsurrogate]
      · change 0x80 ≤ _
        omega
      · change _ ≤ 0x9F
        omega
    · refine ⟨0x80, 0xBF, ?_, continuation_range (v / 64)⟩
      have hbits : v / 4096 % 16 + 0xE0 - 0xE0 = v / 4096 := by omega
      rw [if_neg (by omega), if_pos (by omega), hbits]
      rfl

theorem start_four {v : Nat} (hshort : 0xFFFF < v) (hlong : v < 0x110000) :
    ∃ low high : UInt8, start (UInt8.ofNat (v / 262144 % 8 + 0xF0)) =
        some ⟨v / 262144, [(low, high), tail, tail]⟩ ∧
      low.toNat ≤ v / 4096 % 64 + 0x80 ∧ v / 4096 % 64 + 0x80 ≤ high.toNat := by
  rw [start_byte (by omega), if_neg (by omega), if_neg (by omega), if_neg (by omega),
    if_neg (by omega), if_neg (by omega), if_neg (by omega)]
  by_cases hfirst : v / 262144 = 0
  · refine ⟨0x90, 0xBF, ?_, ?_, ?_⟩
    · rw [if_pos (by omega), hfirst]
    · change 0x90 ≤ _
      omega
    · change _ ≤ 0xBF
      omega
  · rw [if_neg (by omega)]
    by_cases hlast : v / 262144 = 4
    · refine ⟨0x80, 0x8F, ?_, ?_, ?_⟩
      · rw [if_neg (by omega), if_pos (by omega), hlast]
      · change 0x80 ≤ _
        omega
      · change _ ≤ 0x8F
        omega
    · refine ⟨0x80, 0xBF, ?_, continuation_range (v / 4096)⟩
      have hbits : v / 262144 % 8 + 0xF0 - 0xF0 = v / 262144 := by omega
      rw [if_pos (by omega), hbits]
      rfl

theorem scan_encodeChar (c : Char) (rest : List UInt8) :
    scan none (String.utf8EncodeChar c ++ rest) = some c :: scan none rest := by
  have hvalid : c.val.toNat < 0xD800 ∨ 0xDFFF < c.val.toNat ∧ c.val.toNat < 0x110000 := c.valid
  have hchar : Char.ofNat c.val.toNat = c := Char.ofNat_toNat c
  unfold String.utf8EncodeChar
  generalize c.val.toNat = v at hvalid hchar
  have hlast := continuation_range v
  simp only
  split
  · have hstart : start (UInt8.ofNat v) = some ⟨v, []⟩ := by
      rw [start_byte (by omega), if_pos (by omega)]
    rw [List.cons_append, List.nil_append, scan]
    simp only [hstart, hchar, List.nil_append]
  · split
    · have hbits : v / 64 % 32 + 0xC0 - 0xC0 = v / 64 := by omega
      have hstart : start (UInt8.ofNat (v / 64 % 32 + 0xC0)) = some ⟨v / 64, [tail]⟩ := by
        rw [start_byte (by omega), if_neg (by omega), if_neg (by omega), if_pos (by omega), hbits]
      have hwhole : v / 64 * 64 + (v % 64 + 0x80) % 64 = v := by omega
      simp only [List.cons_append, List.nil_append]
      rw [scan_begun hstart, tail, scan_finished (by omega) hlast.1 hlast.2, hwhole, hchar]
    · split
      · obtain ⟨low, high, hstart, hsecond⟩ := start_three (v := v) (by omega) (by omega) (by omega)
        have hwhole : (v / 4096 * 64 + (v / 64 % 64 + 0x80) % 64) * 64 + (v % 64 + 0x80) % 64 = v := by
          omega
        simp only [List.cons_append, List.nil_append]
        rw [scan_begun hstart, scan_continued (by omega) hsecond.1 hsecond.2, tail,
          scan_finished (by omega) hlast.1 hlast.2, hwhole, hchar]
      · obtain ⟨low, high, hstart, hsecond⟩ := start_four (v := v) (by omega) (by omega)
        have hthird := continuation_range (v / 64)
        have hwhole : ((v / 262144 * 64 + (v / 4096 % 64 + 0x80) % 64) * 64 +
            (v / 64 % 64 + 0x80) % 64) * 64 + (v % 64 + 0x80) % 64 = v := by
          omega
        simp only [List.cons_append, List.nil_append]
        rw [scan_begun hstart, scan_continued (by omega) hsecond.1 hsecond.2, tail,
          scan_continued (by omega) hthird.1 hthird.2, scan_finished (by omega) hlast.1 hlast.2,
          hwhole, hchar]

/-! ### Texts -/

theorem scan_encode (text : List Char) : scan none (encode text) = text.map some := by
  induction text with
  | nil => rfl
  | cons c text ih =>
    change scan none (String.utf8EncodeChar c ++ encode text) = _
    rw [scan_encodeChar, ih]
    rfl

theorem decode?_encode (text : List Char) : decode? (encode text) = some text := by
  rw [decode?, scan_encode]
  induction text with
  | nil => rfl
  | cons c text ih =>
    rw [List.map_cons, List.mapM_cons, ih]
    rfl

/-! ### Order -/

/-- Of two characters the lesser one has the lesser bytes, and neither the bytes of the other in front. -/
theorem encodeChar_append_lt {c d : Char} (h : c < d) (s t : List UInt8) :
    String.utf8EncodeChar c ++ s < String.utf8EncodeChar d ++ t := by
  have hvalid : d.val.toNat < 0xD800 ∨ 0xDFFF < d.val.toNat ∧ d.val.toNat < 0x110000 := d.valid
  have hless : c.val.toNat < d.val.toNat := h
  unfold String.utf8EncodeChar
  generalize c.val.toNat = v at hless
  generalize d.val.toNat = w at hless hvalid
  -- The first of the digits to base 64 that are not the same decides.
  have hdigits : v / 262144 < w / 262144 ∨ v / 262144 = w / 262144 ∧
      (v / 4096 % 64 < w / 4096 % 64 ∨ v / 4096 % 64 = w / 4096 % 64 ∧
        (v / 64 % 64 < w / 64 % 64 ∨ v / 64 % 64 = w / 64 % 64 ∧ v % 64 < w % 64)) := by omega
  have hlead : v / 262144 ≤ 4 ∧ w / 262144 ≤ 4 := by omega
  dsimp only
  split_ifs
  all_goals
    simp (disch := omega) only [List.cons_append, List.nil_append, List.cons_lt_cons_iff,
      UInt8.lt_iff_toNat_lt, ← UInt8.toNat_inj, toNat_byte]
    omega

theorem encode_lt {s t : List Char} (h : s < t) : encode s < encode t := by
  induction h with
  | @nil c cs =>
    obtain ⟨byte, bytes, hbytes⟩ := List.exists_cons_of_ne_nil (String.utf8EncodeChar_ne_nil (c := c))
    rw [encode, encode, List.flatMap_nil, List.flatMap_cons, hbytes]
    exact .nil
  | @cons c s t h ih =>
    rw [encode, encode, List.flatMap_cons, List.flatMap_cons]
    exact List.append_left_lt ih
  | rel h => exact encodeChar_append_lt h _ _

end IdlGen.Utf8
