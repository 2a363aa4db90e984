import Mathlib.Algebra.Order.Field.Power
import Mathlib.Data.Rat.Cast.Order
import Mathlib.Tactic.FieldSimp
import Mathlib.Tactic.Linarith
import Mathlib.Tactic.NormNum
import Mathlib.Tactic.Ring
import ShaderMerge.Number.Binary32

/-!
# Rounding

A finite number is a significand times a power of two, of which one is canonical (`IsCanonical`).
`ofRatio` gives the number whose neighbourhood the quotient lies in (`ofRatio_of_isNear`): the
rational numbers that are no further from it than half of the last place, or a quarter below a power of
two, the ends counting for an even significand alone.
-/

namespace ShaderMerge.Binary32

/-! ## Rounded quotients -/

/-- A quotient is rounded to the natural number that it is near to, at the same distance to the even
one. -/
theorem roundedQuotient_eq {num den r : Nat} (hden : 0 < den) (hlow : (r : ℚ) - 1 / 2 ≤ num / den)
    (hhigh : (num : ℚ) / den ≤ r + 1 / 2)
    (htie : r % 2 = 0 ∨ (r : ℚ) - 1 / 2 < num / den ∧ (num : ℚ) / den < r + 1 / 2) :
    roundedQuotient num den = r := by
  have hpos : (0 : ℚ) < den := by exact_mod_cast hden
  rw [le_div_iff₀ hpos] at hlow
  rw [div_le_iff₀ hpos] at hhigh
  rw [lt_div_iff₀ hpos, div_lt_iff₀ hpos] at htie
  have hlow' : 2 * (r * den) ≤ 2 * num + den := by
    have : ((2 * (r * den) : ℕ) : ℚ) ≤ (2 * num + den : ℕ) := by push_cast; linarith
    exact_mod_cast this
  have hhigh' : 2 * num ≤ 2 * (r * den) + den := by
    have : ((2 * num : ℕ) : ℚ) ≤ (2 * (r * den) + den : ℕ) := by push_cast; linarith
    exact_mod_cast this
  have htie' : r % 2 = 0 ∨ 2 * (r * den) < 2 * num + den ∧ 2 * num < 2 * (r * den) + den := by
    refine htie.imp_right fun ⟨hl, hh⟩ => ⟨?_, ?_⟩
    · have : ((2 * (r * den) : ℕ) : ℚ) < (2 * num + den : ℕ) := by push_cast; linarith
      exact_mod_cast this
    · have : ((2 * num : ℕ) : ℚ) < (2 * (r * den) + den : ℕ) := by push_cast; linarith
      exact_mod_cast this
  have hdivision := Nat.div_add_mod' num den
  have hrest := Nat.mod_lt num hden
  -- The quotient is the number itself or the one below it.
  have hcases : r = num / den ∨ r = num / den + 1 := by
    have hle : num / den ≤ r := by
      by_contra hlt
      have hmul := Nat.mul_le_mul_right den (Nat.succ_le_of_lt (not_le.1 hlt))
      rw [Nat.succ_mul] at hmul
      omega
    have hge : r ≤ num / den + 1 := by
      by_contra hlt
      have hmul := Nat.mul_le_mul_right den (Nat.succ_le_of_lt (not_le.1 hlt))
      rw [Nat.succ_mul, Nat.succ_mul] at hmul
      omega
    omega
  rw [roundedQuotient]
  rcases hcases with hr | hr
  · rw [← hr] at hdivision ⊢
    split
    · rfl
    · rw [if_neg (by omega)]
      omega
  · rw [hr, Nat.add_mul] at hlow' hhigh' htie'
    rw [hr]
    split
    · omega
    · split
      · rfl
      · omega

/-! ## Binary logarithms -/

/-- A quotient is scaled by a power of two on one side or the other. -/
theorem scaled_le_iff {num den : Nat} (hden : 0 < den) (e : Int) :
    (if 0 ≤ e then den * Nat.pow 2 e.toNat ≤ num else den ≤ num * Nat.pow 2 (-e).toNat) ↔
      (2 : ℚ) ^ e ≤ num / den := by
  have hpos : (0 : ℚ) < den := by exact_mod_cast hden
  rw [le_div_iff₀ hpos]
  split
  · rename_i he
    obtain ⟨k, rfl⟩ := Int.eq_ofNat_of_zero_le he
    rw [Int.toNat_natCast, zpow_natCast, mul_comm]
    norm_cast
  · rename_i he
    obtain ⟨k, hk⟩ := Int.eq_ofNat_of_zero_le (show 0 ≤ -e by omega)
    obtain rfl : e = -k := by omega
    have hpow : (0 : ℚ) < 2 ^ k := by positivity
    rw [neg_neg, Int.toNat_natCast, zpow_neg, zpow_natCast, inv_mul_le_iff₀ hpow, mul_comm]
    norm_cast

/-- **The power of two that a quotient has reached.** -/
theorem floorLog2_spec {num den : Nat} (hnum : 0 < num) (hden : 0 < den) :
    (2 : ℚ) ^ floorLog2 num den ≤ num / den ∧ (num : ℚ) / den < 2 ^ (floorLog2 num den + 1) := by
  have hposN : (0 : ℚ) < num := by exact_mod_cast hnum
  have hpos : (0 : ℚ) < den := by exact_mod_cast hden
  have htwo : (2 : ℚ) ≠ 0 := two_ne_zero
  -- The logarithms of the two numbers leave one power open.
  have hlow : (2 : ℚ) ^ ((num.log2 : Int) - den.log2 - 1) ≤ num / den := by
    have h₁ : ((2 ^ num.log2 : ℕ) : ℚ) ≤ num := by exact_mod_cast Nat.log2_self_le hnum.ne'
    have h₂ : (den : ℚ) ≤ (2 ^ (den.log2 + 1) : ℕ) := by exact_mod_cast Nat.lt_log2_self.le
    have hpower : (2 : ℚ) ^ ((num.log2 : Int) - den.log2 - 1)
        = (2 ^ num.log2 : ℕ) / (2 ^ (den.log2 + 1) : ℕ) := by
      rw [sub_sub, zpow_sub₀ htwo]
      norm_cast
    rw [hpower]
    exact div_le_div₀ hposN.le h₁ hpos h₂
  have hhigh : (num : ℚ) / den < 2 ^ ((num.log2 : Int) - den.log2 + 1) := by
    have h₁ : (num : ℚ) < (2 ^ (num.log2 + 1) : ℕ) := by exact_mod_cast Nat.lt_log2_self
    have h₂ : ((2 ^ den.log2 : ℕ) : ℚ) ≤ den := by exact_mod_cast Nat.log2_self_le hden.ne'
    have hpower : (2 : ℚ) ^ ((num.log2 : Int) - den.log2 + 1)
        = (2 ^ (num.log2 + 1) : ℕ) / (2 ^ den.log2 : ℕ) := by
      rw [sub_add_eq_add_sub, zpow_sub₀ htwo]
      norm_cast
    rw [hpower]
    exact div_lt_div₀ h₁ h₂ (by positivity) (by positivity)
  have hfits := @scaled_le_iff num den hden ((num.log2 : Int) - den.log2)
  rw [floorLog2]
  by_cases hle : (2 : ℚ) ^ ((num.log2 : Int) - den.log2) ≤ num / den
  · rw [if_pos (hfits.2 hle)]
    exact ⟨hle, hhigh⟩
  · rw [if_neg fun h => hle (hfits.1 h), sub_add_cancel]
    exact ⟨hlow, not_le.1 hle⟩

/-! ## Significands -/

/-- Whether a number is written with its significand at full length, or the least exponent. -/
structure IsCanonical (significand : Nat) (e : Int) : Prop where
  least : -149 ≤ e
  bound : significand < 2 * fractionSize
  full : e = -149 ∨ fractionSize ≤ significand

/-- How far below a number its neighbourhood goes, in the last place: below a power of two only half as
far, unless both are subnormal or the least normal ones. -/
def reachBelow (significand : Nat) (e : Int) : ℚ :=
  if significand = fractionSize ∧ -149 < e then 1 / 4 else 1 / 2

/-- Whether a rational number lies in the neighbourhood of a number of the format. -/
structure IsNear (significand : Nat) (e : Int) (q : ℚ) : Prop where
  low : significand - reachBelow significand e ≤ q / 2 ^ e
  high : q / 2 ^ e ≤ significand + 1 / 2
  inside : significand % 2 = 0 ∨
    significand - reachBelow significand e < q / 2 ^ e ∧ q / 2 ^ e < significand + 1 / 2

/-- The magnitude of a significand and an exponent. -/
def magnitudeOf (significand : Nat) (e : Int) : Nat := (e + 149).toNat * fractionSize + significand

/-- A quotient rounded on the grid of an exponent. -/
def gridPoint (num den : Nat) (e : Int) : Nat :=
  if 0 ≤ e then roundedQuotient num (den * Nat.pow 2 e.toNat)
  else roundedQuotient (num * Nat.pow 2 (-e).toNat) den

theorem gridPoint_eq {num den r : Nat} {e : Int} (hden : 0 < den)
    (hlow : (r : ℚ) - 1 / 2 ≤ num / den / 2 ^ e) (hhigh : (num : ℚ) / den / 2 ^ e ≤ r + 1 / 2)
    (htie : r % 2 = 0 ∨ (r : ℚ) - 1 / 2 < num / den / 2 ^ e ∧ (num : ℚ) / den / 2 ^ e < r + 1 / 2) :
    gridPoint num den e = r := by
  rw [gridPoint]
  split
  · rename_i he
    obtain ⟨k, rfl⟩ := Int.eq_ofNat_of_zero_le he
    have hscale : (num : ℚ) / den / 2 ^ (k : Int) = num / (den * Nat.pow 2 k : ℕ) := by
      rw [div_div, zpow_natCast]
      norm_cast
    rw [hscale] at hlow hhigh htie
    exact roundedQuotient_eq (Nat.mul_pos hden (Nat.pow_pos two_pos)) hlow hhigh htie
  · rename_i he
    obtain ⟨k, hk⟩ := Int.eq_ofNat_of_zero_le (show 0 ≤ -e by omega)
    obtain rfl : e = -k := by omega
    have hscale : (num : ℚ) / den / 2 ^ (-(k : Int)) = (num * Nat.pow 2 k : ℕ) / den := by
      rw [zpow_neg, div_inv_eq_mul, zpow_natCast, div_mul_eq_mul_div]
      norm_cast
    rw [neg_neg, Int.toNat_natCast]
    rw [hscale] at hlow hhigh htie
    exact roundedQuotient_eq hden hlow hhigh htie

theorem ofRatio_eq {num den : Nat} (hnum : 0 < num) (negative : Bool) : ofRatio negative num den =
    ofMagnitude negative (min infiniteMagnitude (magnitudeOf
      (gridPoint num den (max (-149) (floorLog2 num den - 23))) (max (-149) (floorLog2 num den - 23)))) := by
  rw [ofRatio, if_neg hnum.ne']
  rfl

theorem floorLog2_eq {num den : Nat} {e : Int} (hnum : 0 < num) (hden : 0 < den)
    (hlow : (2 : ℚ) ^ e ≤ num / den) (hhigh : (num : ℚ) / den < 2 ^ (e + 1)) :
    floorLog2 num den = e := by
  obtain ⟨h₁, h₂⟩ := floorLog2_spec hnum hden
  have hlt : floorLog2 num den < e + 1 := (zpow_lt_zpow_iff_right₀ one_lt_two).1 (h₁.trans_lt hhigh)
  have hgt : e < floorLog2 num den + 1 := (zpow_lt_zpow_iff_right₀ one_lt_two).1 (hlow.trans_lt h₂)
  omega

theorem reachBelow_le (significand : Nat) (e : Int) : reachBelow significand e ≤ 1 / 2 := by
  rw [reachBelow]
  split <;> norm_num

section Grids

variable {num den significand : Nat} {e : Int}

/-- A quotient on the grid of a number, or above it where the number is not the least one there. -/
theorem gridPoint_of_isNear (hden : 0 < den) (hnear : IsNear significand e (num / den)) :
    gridPoint num den e = significand := by
  have hreach := reachBelow_le significand e
  obtain ⟨hlow, hhigh, hinside⟩ := hnear
  exact gridPoint_eq hden (by linarith) hhigh
    (hinside.imp_right fun ⟨h₁, h₂⟩ => ⟨by linarith, h₂⟩)

/-- In the neighbourhood of a number, not below the power of two that it may be, the exponent is found. -/
theorem exponent_of_isNear (hnum : 0 < num) (hden : 0 < den) (hcanonical : IsCanonical significand e)
    (hnear : IsNear significand e (num / den))
    (hlower : e = -149 ∨ (fractionSize : ℚ) ≤ num / den / 2 ^ e) :
    max (-149) (floorLog2 num den - 23) = e := by
  have hpow : (0 : ℚ) < 2 ^ e := zpow_pos two_pos e
  obtain ⟨h₁, h₂⟩ := floorLog2_spec hnum hden
  -- The neighbourhood ends in front of the next power of two.
  have hupper : (num : ℚ) / den < 2 ^ (e + 24) := by
    have hbound : (significand : ℚ) + 1 ≤ 2 * fractionSize := by exact_mod_cast hcanonical.bound
    have hsize : (2 : ℚ) ^ (e + 24) = 2 ^ e * (2 * fractionSize) := by
      rw [zpow_add₀ two_ne_zero]
      norm_num [fractionSize]
    have hhigh := (div_le_iff₀ hpow).1 hnear.high
    rw [hsize]
    nlinarith
  have hlt : floorLog2 num den < e + 24 := (zpow_lt_zpow_iff_right₀ one_lt_two).1 (h₁.trans_lt hupper)
  have hleast := hcanonical.least
  rcases hlower with rfl | hlower
  · omega
  · have hreached : (2 : ℚ) ^ (e + 23) ≤ num / den := by
      have hsize : (2 : ℚ) ^ (e + 23) = fractionSize * 2 ^ e := by
        rw [zpow_add₀ two_ne_zero, mul_comm]
        norm_num [fractionSize]
      rw [hsize]
      exact (le_div_iff₀ hpow).1 hlower
    have hgt : e + 23 < floorLog2 num den + 1 :=
      (zpow_lt_zpow_iff_right₀ one_lt_two).1 (hreached.trans_lt h₂)
    omega

/-- Below a power of two the grid is finer: the power of two is twice as many steps on it. -/
theorem lower_of_isNear (hnum : 0 < num) (hden : 0 < den) (hcanonical : IsCanonical significand e)
    (hnear : IsNear significand e (num / den)) (he : -149 < e)
    (hlower : (num : ℚ) / den / 2 ^ e < fractionSize) : significand = fractionSize ∧
      floorLog2 num den = e + 22 ∧ gridPoint num den (e - 1) = 2 * fractionSize := by
  have hpow : (0 : ℚ) < 2 ^ e := zpow_pos two_pos e
  have hsignificand : significand = fractionSize := by
    by_contra hne
    have hfull := hcanonical.full.resolve_left (by omega)
    have habove : (fractionSize : ℚ) + 1 ≤ significand := by
      exact_mod_cast Nat.lt_of_le_of_ne hfull (Ne.symm hne)
    have hreach := reachBelow_le significand e
    have hlow := hnear.low
    linarith
  have hlow : (fractionSize : ℚ) - 1 / 4 ≤ num / den / 2 ^ e := by
    have hlow := hnear.low
    rwa [reachBelow, if_pos ⟨hsignificand, he⟩, hsignificand] at hlow
  refine ⟨hsignificand, floorLog2_eq hnum hden ?_ ?_, ?_⟩
  · have hsize : (2 : ℚ) ^ (e + 22) = 4194304 * 2 ^ e := by
      rw [zpow_add₀ two_ne_zero, mul_comm]
      norm_num
    have hreached := (le_div_iff₀ hpow).1 hlow
    norm_num [fractionSize] at hreached
    rw [hsize]
    nlinarith
  · have hsize : (2 : ℚ) ^ (e + 22 + 1) = fractionSize * 2 ^ e := by
      rw [add_assoc, zpow_add₀ two_ne_zero, mul_comm]
      norm_num [fractionSize]
    rw [hsize]
    exact (div_lt_iff₀ hpow).1 hlower
  · have hdouble : (num : ℚ) / den / 2 ^ (e - 1) = 2 * (num / den / 2 ^ e) := by
      rw [zpow_sub_one₀ two_ne_zero]
      field_simp
    refine gridPoint_eq hden ?_ ?_ (.inl (Nat.mul_mod_right 2 _))
    · rw [hdouble]
      push_cast
      linarith
    · rw [hdouble]
      push_cast
      linarith

/-- **A quotient is rounded to the number in whose neighbourhood it lies.** -/
theorem ofRatio_of_isNear (hnum : 0 < num) (hden : 0 < den) (hcanonical : IsCanonical significand e)
    (hnear : IsNear significand e (num / den)) (negative : Bool) :
    ofRatio negative num den
      = ofMagnitude negative (min infiniteMagnitude (magnitudeOf significand e)) := by
  rw [ofRatio_eq hnum]
  by_cases hlower : -149 < e ∧ (num : ℚ) / den / 2 ^ e < fractionSize
  · obtain ⟨he, hlower⟩ := hlower
    obtain ⟨hsignificand, hlog, hgrid⟩ := lower_of_isNear hnum hden hcanonical hnear he hlower
    have hexponent : max (-149) (floorLog2 num den - 23) = e - 1 := by omega
    have hmagnitude : magnitudeOf (2 * fractionSize) (e - 1) = magnitudeOf fractionSize e := by
      have hsucc : (e + 149).toNat = (e - 1 + 149).toNat + 1 := by omega
      rw [magnitudeOf, magnitudeOf, hsucc, Nat.add_mul]
      omega
    rw [hexponent, hgrid, hmagnitude, hsignificand]
  · have hleast := hcanonical.least
    have hexponent := exponent_of_isNear hnum hden hcanonical hnear <| by
      rw [not_and_or, not_lt, not_lt] at hlower
      exact hlower.imp_left (le_antisymm · hleast)
    rw [hexponent, gridPoint_of_isNear hden hnear]

end Grids

/-! ## The parts of a number -/

/-- Whether this is neither infinite nor not a number. -/
def isFinite (x : Binary32) : Bool := x.magnitude < infiniteMagnitude

theorem isFinite_iff {x : Binary32} : x.isFinite = true ↔ x.isNaN = false ∧ x.isInfinite = false := by
  rw [isFinite, isNaN, isInfinite, decide_eq_true_eq, decide_eq_false_iff_not, beq_eq_false_iff_ne]
  omega

/-- A number is made of its sign and its magnitude. -/
theorem ofMagnitude_magnitude (x : Binary32) : ofMagnitude x.isNegative x.magnitude = x := by
  obtain ⟨bits⟩ := x
  rw [ofMagnitude, mk.injEq, ← UInt32.toNat_inj, isNegative, magnitude]
  have hlt := bits.toNat_lt
  have hpow : Nat.pow 2 31 = 2147483648 := by norm_num
  simp only [hpow, decide_eq_true_eq, UInt32.toNat_ofNat']
  split <;> omega

/-- **The parts of a finite number are its canonical ones**, and give its magnitude. -/
theorem parts_spec {x : Binary32} (h : x.isFinite = true) :
    IsCanonical x.parts.1 x.parts.2 ∧ x.parts.2 ≤ 104 ∧ magnitudeOf x.parts.1 x.parts.2 = x.magnitude := by
  have hsize : fractionSize = 8388608 := by norm_num [fractionSize]
  have hfinite : x.magnitude < 255 * fractionSize := of_decide_eq_true h
  rw [hsize] at hfinite
  have hdivision := Nat.div_add_mod x.magnitude 8388608
  have hrest := Nat.mod_lt x.magnitude (show 0 < 8388608 by decide)
  simp only [parts, hsize]
  split
  · rename_i hzero
    refine ⟨⟨le_rfl, by rw [hsize]; omega, .inl rfl⟩, by omega, ?_⟩
    rw [magnitudeOf, hsize]
    omega
  · rename_i hne
    refine ⟨⟨by omega, by rw [hsize]; omega, .inr (by rw [hsize]; omega)⟩, by omega, ?_⟩
    rw [magnitudeOf, hsize]
    omega

/-- **A quotient in the neighbourhood of a finite number that is not zero is rounded to it.** -/
theorem ofRatio_eq_self {x : Binary32} (h : x.isFinite = true) {num den : Nat} (hnum : 0 < num)
    (hden : 0 < den) (hnear : IsNear x.parts.1 x.parts.2 (num / den)) :
    ofRatio x.isNegative num den = x := by
  obtain ⟨hcanonical, -, hmagnitude⟩ := parts_spec h
  have hle : x.magnitude ≤ infiniteMagnitude := (of_decide_eq_true h).le
  rw [ofRatio_of_isNear hnum hden hcanonical hnear, hmagnitude, min_eq_right hle,
    ofMagnitude_magnitude]

end ShaderMerge.Binary32
