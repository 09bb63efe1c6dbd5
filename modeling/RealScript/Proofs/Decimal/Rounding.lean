import Mathlib
import RealScript.Decimal.Nearest

/-! # Rounding to the nearest float

From half a unit above the largest float on a fraction is out of range. Below that it has a nearest
float.
-/

namespace RealScript.Decimal

theorem roundDiv_mul_le (a : Nat) {b : Nat} (hb : 0 < b) : 2 * (b * roundDiv a b) ≤ 2 * a + b := by
  have hdiv := Nat.div_add_mod a b
  have hmod := Nat.mod_lt a hb
  unfold roundDiv
  dsimp only
  generalize a / b = q at *
  split
  · omega
  · split
    · rw [Nat.mul_add]
      omega
    · rw [Nat.mul_add]
      rcases Nat.mod_two_eq_zero_or_one q with hq | hq <;> rw [hq] <;> omega

theorem roundDiv_le {a b k : Nat} (hb : 0 < b) (h : (a : ℚ) / b < k + 1 / 2) :
    roundDiv a b ≤ k := by
  have hbq : (0 : ℚ) < b := by exact_mod_cast hb
  have hround : (2 * (b * roundDiv a b) : ℚ) ≤ 2 * a + b := by exact_mod_cast roundDiv_mul_le a hb
  rw [div_lt_iff₀ hbq] at h
  have hlt : (b : ℚ) * roundDiv a b < b * ((k + 1 : Nat) : ℚ) := by push_cast; linarith
  have hlt : roundDiv a b < k + 1 := by exact_mod_cast lt_of_mul_lt_mul_left hlt hbq.le
  omega

section Binary

variable {num den : Nat}

theorem shiftBinary_pos (hden : 0 < den) (e : Int) : 0 < (shiftBinary num den e).2 := by
  unfold shiftBinary
  split
  · exact Nat.mul_pos hden (Nat.two_pow_pos _)
  · exact hden

theorem shiftBinary_eq (e : Int) :
    ((shiftBinary num den e).1 : ℚ) / (shiftBinary num den e).2 = (num : ℚ) / den / 2 ^ e := by
  simp only [shiftBinary, Nat.pow_eq]
  split
  · rename_i he
    obtain ⟨n, rfl⟩ := Int.eq_ofNat_of_zero_le he
    push_cast
    rw [Int.toNat_natCast, zpow_natCast, div_div]
  · rename_i he
    obtain ⟨n, rfl⟩ : ∃ n : Nat, e = -(n : Int) := ⟨(-e).toNat, by omega⟩
    push_cast
    rw [neg_neg, Int.toNat_natCast, zpow_neg, zpow_natCast]
    field_simp

theorem binaryExponent_spec (hnum : 0 < num) (hden : 0 < den) :
    (2 : ℚ) ^ binaryExponent num den ≤ (num : ℚ) / den ∧
      (num : ℚ) / den < 2 ^ (binaryExponent num den + 1) := by
  have hd : (0 : ℚ) < den := by exact_mod_cast hden
  have hnlow : ((2 : ℚ) ^ num.log2) ≤ num := by exact_mod_cast Nat.log2_self_le hnum.ne'
  have hnhigh : (num : ℚ) < 2 ^ (num.log2 + 1) := by exact_mod_cast Nat.lt_log2_self
  have hdlow : ((2 : ℚ) ^ den.log2) ≤ den := by exact_mod_cast Nat.log2_self_le hden.ne'
  have hdhigh : (den : ℚ) < 2 ^ (den.log2 + 1) := by exact_mod_cast Nat.lt_log2_self
  have hk (i j : Nat) : (2 : ℚ) ^ ((i : Int) - j) = 2 ^ i / 2 ^ j := by
    rw [zpow_sub₀ two_ne_zero, zpow_natCast, zpow_natCast]
  have hupper : (num : ℚ) / den < 2 ^ ((num.log2 : Int) - den.log2 + 1) := by
    rw [show (num.log2 : Int) - den.log2 + 1 = ((num.log2 + 1 : Nat) : Int) - (den.log2 : Nat) by
      push_cast; ring, hk]
    gcongr
  have hlower : (2 : ℚ) ^ ((num.log2 : Int) - den.log2 - 1) ≤ (num : ℚ) / den := by
    rw [show (num.log2 : Int) - den.log2 - 1 = ((num.log2 : Nat) : Int) -
      ((den.log2 + 1 : Nat) : Int) by
      push_cast; ring, hk]
    gcongr
  have hpow : (0 : ℚ) < 2 ^ ((num.log2 : Int) - den.log2) := by positivity
  have hshift := @shiftBinary_eq num den ((num.log2 : Int) - den.log2)
  have hpos := @shiftBinary_pos num den hden ((num.log2 : Int) - den.log2)
  unfold binaryExponent
  dsimp only
  generalize shiftBinary num den ((num.log2 : Int) - den.log2) = s at *
  have hs : (0 : ℚ) < s.2 := by exact_mod_cast hpos
  have hreached : s.2 ≤ s.1 ↔ (2 : ℚ) ^ ((num.log2 : Int) - den.log2) ≤ (num : ℚ) / den := by
    rw [← one_le_div hpow, ← hshift, one_le_div hs]
    exact_mod_cast Iff.rfl
  split
  · exact ⟨hreached.mp ‹_›, hupper⟩
  · refine ⟨hlower, ?_⟩
    rw [sub_add_cancel]
    exact lt_of_not_ge fun h => absurd (hreached.mpr h) ‹_›

theorem binaryExponent_le {e : Int} (hnum : 0 < num) (hden : 0 < den)
    (h : (num : ℚ) / den < 2 ^ (e + 1)) : binaryExponent num den ≤ e := by
  have hlow := (binaryExponent_spec hnum hden).1.trans_lt h
  have := (zpow_lt_zpow_iff_right₀ (one_lt_two (α := ℚ))).mp hlow
  omega

end Binary

theorem nearestBits_of_exponent {num den : Nat} (hnum : 0 < num) :
    nearestBits num den = min infinityBits
      ((max (binaryExponent num den - 52) (-1074) + 1074).toNat * 2 ^ 52 +
        roundDiv (shiftBinary num den (max (binaryExponent num den - 52) (-1074))).1
          (shiftBinary num den (max (binaryExponent num den - 52) (-1074))).2) := by
  simp only [nearestBits, Nat.pow_eq]
  rw [if_neg hnum.ne']

/-- The least fraction that is out of range: half a unit above the largest float. -/
def overflowBound : ℚ := 2 ^ 1024 - 2 ^ 970

theorem nearestBits_lt {num den : Nat} (hden : 0 < den) (h : (num : ℚ) / den < overflowBound) :
    nearestBits num den < infinityBits := by
  rcases Nat.eq_zero_or_pos num with rfl | hnum
  · exact Nat.mul_pos (by norm_num) (Nat.two_pow_pos _)
  rw [nearestBits_of_exponent hnum]
  have hbound : overflowBound < 2 ^ 1024 := sub_lt_self _ (by positivity)
  have hexp : binaryExponent num den ≤ 1023 := by
    apply binaryExponent_le hnum hden
    rw [show (1023 + 1 : Int) = (1024 : Nat) from rfl, zpow_natCast]
    exact h.trans hbound
  generalize he : max (binaryExponent num den - 52) (-1074) = e
  have hround (k : Nat) (hk : (num : ℚ) / den / 2 ^ e < k + 1 / 2) :
      roundDiv (shiftBinary num den e).1 (shiftBinary num den e).2 ≤ k :=
    roundDiv_le (shiftBinary_pos hden e) (by rwa [shiftBinary_eq])
  have hpow : (0 : ℚ) < 2 ^ e := by positivity
  suffices hsum : (e + 1074).toNat * 2 ^ 52 +
      roundDiv (shiftBinary num den e).1 (shiftBinary num den e).2 < infinityBits from
    lt_of_le_of_lt (min_le_right _ _) hsum
  rw [infinityBits, Nat.pow_eq]
  rcases lt_or_eq_of_le (show e ≤ 971 by omega) with hlt | heq
  · have hle := hround (2 ^ 53) ?_
    · have : (e + 1074).toNat ≤ 2044 := by omega
      omega
    · have hhigh := (binaryExponent_spec hnum hden).2
      have hmono : (2 : ℚ) ^ (binaryExponent num den + 1) ≤ 2 ^ (e + 53) :=
        zpow_le_zpow_right₀ one_le_two (by omega)
      rw [div_lt_iff₀ hpow]
      calc (num : ℚ) / den < 2 ^ (e + 53) := hhigh.trans_le hmono
        _ = 2 ^ 53 * 2 ^ e := by rw [add_comm, zpow_add₀ two_ne_zero]; norm_num
        _ ≤ ((2 ^ 53 : Nat) + 1 / 2) * 2 ^ e := by
          apply mul_le_mul_of_nonneg_right _ hpow.le
          push_cast
          linarith
  · subst heq
    have hle := hround (2 ^ 53 - 1) ?_
    · omega
    · rw [div_lt_iff₀ hpow]
      refine h.trans_eq ?_
      have hpowers : (2 : ℚ) ^ 1024 = 2 ^ 54 * 2 ^ 970 ∧ (2 : ℚ) ^ (971 : Int) = 2 * 2 ^ 970 :=
        ⟨by rw [← pow_add], by rw [← pow_succ']; rfl⟩
      rw [overflowBound, hpowers.1, hpowers.2]
      generalize (2 : ℚ) ^ 970 = unit
      push_cast
      ring

end RealScript.Decimal
