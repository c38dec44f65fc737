import IdlGen.Number.Scaled
import Mathlib.Tactic.NormNum

/-!
# Numbers in range

A quotient up to `2 ^ k` is rounded to a magnitude that is at most a few binades above, whatever way it
is rounded, and so a product of small magnitudes is finite. Scaling by a negative power of ten always
succeeds, and so does scaling 64 bits by a power up to `10 ^ 64`.
-/

namespace IdlGen

namespace Binary64

/-- A magnitude up to some power of two, or not far above. -/
def UpTo (k magnitude : Nat) : Prop := magnitude ≤ (k + 1026) * 2 ^ 52

theorem floorLog2_bounds (num den : Nat) :
    (num.log2 : Int) - den.log2 - 1 ≤ floorLog2 num den ∧
    floorLog2 num den ≤ (num.log2 : Int) - den.log2 := by
  unfold floorLog2
  dsimp only
  generalize (num.log2 : Int) - den.log2 = k
  split <;> omega

theorem divHalfEven_le {num den bound : Nat} (h : num < den * bound) : divHalfEven num den ≤ bound := by
  have hquotient : num / den < bound := Nat.div_lt_of_lt_mul h
  unfold divHalfEven
  dsimp only
  split
  · omega
  · split <;> omega

/-- The difference of the binary logarithms is that of the numbers, give or take one. -/
theorem log2_le_of_le {num den k : Nat} (hnum : num ≠ 0) (h : num ≤ den * 2 ^ k) :
    num.log2 ≤ den.log2 + k := by
  have hpower : 2 ^ num.log2 < 2 ^ (den.log2 + k + 1) :=
    calc 2 ^ num.log2 ≤ num := Nat.log2_self_le hnum
      _ ≤ den * 2 ^ k := h
      _ < 2 ^ (den.log2 + 1) * 2 ^ k := Nat.mul_lt_mul_of_pos_right Nat.lt_log2_self (Nat.two_pow_pos k)
      _ = 2 ^ (den.log2 + k + 1) := by rw [← Nat.pow_add]; congr 1; omega
  exact Nat.le_of_lt_succ ((Nat.pow_lt_pow_iff_right (by decide)).1 hpower)

theorem roundQuotient_upTo {num den k : Nat} (hden : den ≠ 0) (h : num ≤ den * 2 ^ k) :
    UpTo k (roundQuotient num den) := by
  unfold roundQuotient UpTo
  split
  · exact Nat.zero_le _
  · rename_i hnum
    obtain ⟨hlow, hhigh⟩ := floorLog2_bounds num den
    have hlog := log2_le_of_le hnum h
    dsimp only
    have he : max (floorLog2 num den - 52) (-1074) ≤ (k : Int) - 52 := by omega
    have hunit : (num.log2 : Int) - den.log2 - 53 ≤ max (floorLog2 num den - 52) (-1074) := by omega
    generalize max (floorLog2 num den - 52) (-1074) = e at he hunit
    have hnumBelow : num < 2 ^ (num.log2 + 1) := Nat.lt_log2_self
    have hdenAbove : 2 ^ den.log2 ≤ den := Nat.log2_self_le hden
    have hm : (if 0 ≤ e then divHalfEven num (den * twoTo e.toNat)
        else divHalfEven (num * twoTo (-e).toNat) den) ≤ 2 ^ 54 := by
      split
      · apply divHalfEven_le
        calc num < 2 ^ (num.log2 + 1) := hnumBelow
          _ ≤ 2 ^ (den.log2 + e.toNat + 54) := Nat.pow_le_pow_right (by decide) (by omega)
          _ = 2 ^ den.log2 * twoTo e.toNat * 2 ^ 54 := by rw [Nat.pow_add, Nat.pow_add]; rfl
          _ ≤ den * twoTo e.toNat * 2 ^ 54 := by gcongr
      · apply divHalfEven_le
        calc num * twoTo (-e).toNat < 2 ^ (num.log2 + 1) * 2 ^ (-e).toNat :=
              Nat.mul_lt_mul_of_pos_right hnumBelow (Nat.two_pow_pos _)
          _ = 2 ^ (num.log2 + 1 + (-e).toNat) := (Nat.pow_add ..).symm
          _ ≤ 2 ^ (den.log2 + 54) := Nat.pow_le_pow_right (by decide) (by omega)
          _ = 2 ^ den.log2 * 2 ^ 54 := Nat.pow_add ..
          _ ≤ den * 2 ^ 54 := by gcongr
    generalize (if 0 ≤ e then divHalfEven num (den * twoTo e.toNat)
      else divHalfEven (num * twoTo (-e).toNat) den) = m at hm
    have hbinade : (e + 1074).toNat ≤ k + 1022 := by omega
    calc min ((e + 1074).toNat * twoTo 52 + m) infinity
      _ ≤ (e + 1074).toNat * 2 ^ 52 + m := Nat.min_le_left ..
      _ ≤ (k + 1022) * 2 ^ 52 + 2 ^ 54 := Nat.add_le_add (Nat.mul_le_mul_right _ hbinade) hm
      _ = (k + 1026) * 2 ^ 52 := by rw [show 2 ^ 54 = 4 * 2 ^ 52 by rfl, ← Nat.add_mul]

theorem significand_lt (magnitude : Nat) : significand magnitude < 2 ^ 53 := by
  have hmod : magnitude % twoTo 52 < 2 ^ 52 := Nat.mod_lt _ (by decide)
  have htwo : twoTo 52 = 2 ^ 52 := rfl
  unfold significand
  split <;> omega

theorem exponent_le {k magnitude : Nat} (h : UpTo k magnitude) : exponent magnitude ≤ (k : Int) - 49 := by
  have htwo : twoTo 52 = 2 ^ 52 := rfl
  rw [UpTo] at h
  unfold exponent
  split
  · omega
  · rw [htwo]
    omega

theorem mul_lt_infinity {a b j k : Nat} (ha : UpTo j a) (hb : UpTo k b) (hjk : j + k ≤ 1000) :
    mul a b < infinity := by
  have hproduct : significand a * significand b ≤ 2 ^ 106 :=
    calc significand a * significand b ≤ 2 ^ 53 * 2 ^ 53 :=
          Nat.mul_le_mul (Nat.le_of_lt (significand_lt a)) (Nat.le_of_lt (significand_lt b))
      _ = 2 ^ 106 := (Nat.pow_add ..).symm
  have hexponentA := exponent_le ha
  have hexponentB := exponent_le hb
  have hfinite : ∀ {k magnitude : Nat}, k ≤ 1008 → UpTo k magnitude → magnitude < infinity := by
    intro k magnitude hk hmagnitude
    have hinfinity : infinity = 2047 * 2 ^ 52 := rfl
    rw [UpTo] at hmagnitude
    omega
  unfold mul
  dsimp only
  generalize significand a * significand b = m at hproduct
  generalize he : exponent a + exponent b = e
  split
  · refine hfinite (k := 106 + e.toNat) (by omega) (roundQuotient_upTo (by decide) ?_)
    calc m * twoTo e.toNat ≤ 2 ^ 106 * 2 ^ e.toNat := Nat.mul_le_mul_right _ hproduct
      _ = 1 * 2 ^ (106 + e.toNat) := by rw [Nat.pow_add, Nat.one_mul]
  · refine hfinite (k := 106) (by decide) (roundQuotient_upTo (Nat.two_pow_pos _).ne' ?_)
    calc m ≤ 2 ^ 106 := hproduct
      _ ≤ twoTo (-e).toNat * 2 ^ 106 := Nat.le_mul_of_pos_left _ (Nat.two_pow_pos _)

theorem powerOfTen_upTo (n : Nat) : UpTo (4 * n) (powerOfTen n) := by
  apply roundQuotient_upTo (by decide)
  calc tenTo n = 10 ^ n := rfl
    _ ≤ 16 ^ n := Nat.pow_le_pow_left (by decide) n
    _ = 1 * 2 ^ (4 * n) := by rw [Nat.one_mul, Nat.pow_mul]

end Binary64

namespace Scaled

open Binary64

/-- Scaling down always gives a number. -/
theorem scale_isSome_of_neg {magnitude : Nat} {shift : Int} (h : shift < 0) :
    (scale magnitude shift).isSome := by
  fun_induction scale magnitude shift with
  | case1 | case2 => omega
  | case3 | case4 => rfl
  | case5 => omega
  | case6 magnitude shift hlarge hmagnitude hsign ih => exact ih (by omega)

theorem scale_zero_isSome (shift : Int) : (scale 0 shift).isSome := by
  have hmul : ∀ b, mul 0 b = 0 := by
    intro b
    have hsignificand : Binary64.significand 0 = 0 := rfl
    have hround : ∀ den, roundQuotient 0 den = 0 := fun _ => rfl
    rw [mul, hsignificand, Nat.zero_mul]
    split
    · rw [Nat.zero_mul, hround]
    · exact hround _
  rw [scale]
  split
  · split
    · rw [hmul]
      rfl
    · rfl
  · rfl

/-- Scaling up gives a number if the power is not too great. -/
theorem scale_isSome {k magnitude : Nat} {shift : Int} (hmagnitude : UpTo k magnitude) (hk : k ≤ 64)
    (hshift : shift ≤ 64) : (scale magnitude shift).isSome := by
  rcases Int.lt_or_le shift 0 with hsign | hsign
  · exact scale_isSome_of_neg hsign
  · have hproduct : mul magnitude (powerOfTen shift.natAbs) < infinity :=
      mul_lt_infinity hmagnitude (powerOfTen_upTo _) (by omega)
    rw [scale, if_pos (by omega), if_pos hsign]
    simp only [if_pos hproduct]
    rfl

/-- Beyond the greatest power of ten only nothing can be scaled up. -/
theorem le_of_scale {magnitude : Nat} {shift : Int} (h : (scale magnitude shift).isSome)
    (hne : magnitude ≠ 0) : shift ≤ 308 := by
  by_contra hlarge
  rw [scale, if_neg (by omega), if_neg hne, if_pos (by omega)] at h
  cases h

/-- So many digits are in range if the power of ten is not too great. -/
theorem toMagnitude?_isSome {x : Scaled} (hsignificand : x.significand ≤ limit) (hshift : x.shift ≤ 64) :
    x.toMagnitude?.isSome := by
  have hround : UpTo 64 (roundQuotient x.significand 1) := by
    apply roundQuotient_upTo (by decide)
    rw [Nat.one_mul]
    exact Nat.le_trans hsignificand (Nat.sub_le _ _)
  exact scale_isSome hround (by decide) hshift

/-- If a number is in range, then so is one with a tenth of its exponent. -/
theorem toMagnitude?_isSome_of_tenth {significand power tenth : Nat} {base : Int}
    (h : (⟨significand, base + power⟩ : Scaled).toMagnitude?.isSome) (hsignificand : significand ≤ limit)
    (hbase : base ≤ 16) (htenth : 10 * tenth ≤ power) :
    (⟨significand, base + tenth⟩ : Scaled).toMagnitude?.isSome := by
  by_cases hzero : roundQuotient significand 1 = 0
  · simp only [toMagnitude?, hzero]
    exact scale_zero_isSome _
  · have hpower := le_of_scale h hzero
    exact toMagnitude?_isSome hsignificand (by dsimp only at hpower ⊢; omega)

/-! ### Numbers of so many digits -/

theorem whole_bounds {significand : Nat} (h : significand ≤ limit) (digits : List Char) :
    (whole significand digits).significand ≤ limit ∧ (whole significand digits).shift ≤ digits.length := by
  induction digits generalizing significand with
  | nil => exact ⟨h, Int.le_refl 0⟩
  | cons c digits ih =>
    rw [whole]
    split
    · exact ⟨h, Int.le_refl _⟩
    · rename_i hfits
      obtain ⟨hsignificand, hshift⟩ := ih (Nat.le_of_not_lt hfits)
      rw [List.length_cons]
      exact ⟨hsignificand, by omega⟩

theorem fraction_bounds {x : Scaled} (h : x.significand ≤ limit) (digits : List Char) :
    (x.fraction digits).significand ≤ limit ∧ (x.fraction digits).shift ≤ x.shift := by
  induction digits generalizing x with
  | nil => exact ⟨h, Int.le_refl _⟩
  | cons c digits ih =>
    rw [fraction]
    split
    · exact ⟨h, Int.le_refl _⟩
    · rename_i hfits
      obtain ⟨hsignificand, hshift⟩ := ih (x := ⟨x.significand * 10 + digitValue c, x.shift - 1⟩)
        (Nat.le_of_not_lt hfits)
      exact ⟨hsignificand, by dsimp only at hshift; omega⟩

end Scaled

end IdlGen
