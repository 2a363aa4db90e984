import ShaderMerge.Proofs.Number.Literals

/-!
# Whole numbers

The integer part of a number is a number of the format again, unless it lies beyond the greatest 32-bit
integer (`isWhole_toInt32`).  So it is converted without loss (`value_ofInt`), and so is the
text of an integer read (`ofText?_toString`).
-/

namespace ShaderMerge.Binary32

variable {x : Binary32} {significand : Nat} {e : Int}

/-- The value of a finite number. -/
def value (x : Binary32) : ℚ := (if x.isNegative then -1 else 1) * (x.parts.1 * 2 ^ x.parts.2)

/-! ## Numbers of given parts -/

/-- The sign and the magnitude of a number made of them. -/
theorem ofMagnitude_spec (negative : Bool) {m : Nat} (hm : m ≤ infiniteMagnitude) :
    (ofMagnitude negative m).isNegative = negative ∧ (ofMagnitude negative m).magnitude = m := by
  have hbound : infiniteMagnitude = 2139095040 := by norm_num [infiniteMagnitude, fractionSize]
  have hpow : Nat.pow 2 31 = 2147483648 := by norm_num
  rw [hbound] at hm
  simp only [isNegative, magnitude, ofMagnitude, hpow, UInt32.toNat_ofNat']
  cases negative
  · simp only [Bool.false_eq_true, if_false, decide_eq_false_iff_not]
    omega
  · simp only [if_true, decide_eq_true_eq]
    omega

theorem magnitudeOf_lt (hcanonical : IsCanonical significand e) (he : e ≤ 104) :
    magnitudeOf significand e < infiniteMagnitude := by
  have hbound := hcanonical.bound
  have hsize : fractionSize = 8388608 := by norm_num [fractionSize]
  rw [hsize] at hbound
  rw [magnitudeOf, infiniteMagnitude, hsize]
  omega

/-- A number that is made of canonical parts has them. -/
theorem parts_of_magnitude (hcanonical : IsCanonical significand e)
    (hx : x.magnitude = magnitudeOf significand e) : x.parts = (significand, e) := by
  have hsize : fractionSize = 8388608 := by norm_num [fractionSize]
  obtain ⟨hleast, hbound, hfull⟩ := hcanonical
  rw [magnitudeOf] at hx
  rw [hsize] at hx hbound hfull
  simp only [parts, hx, hsize]
  split
  · have : e = -149 := by omega
    exact Prod.ext (by omega) (by omega)
  · exact Prod.ext (by dsimp only; omega) (by dsimp only; omega)

/-- **A quotient that is a number of the format is converted without loss.** -/
theorem value_ofRatio {num den : Nat} (hpos : 0 < significand) (hden : 0 < den)
    (hcanonical : IsCanonical significand e) (he : e ≤ 104)
    (heq : (num : ℚ) / den = significand * 2 ^ e) (negative : Bool) :
    (ofRatio negative num den).isFinite = true ∧
      (ofRatio negative num den).value = (if negative then -1 else 1) * (num / den) := by
  have hpow : (0 : ℚ) < 2 ^ e := zpow_pos two_pos e
  have hsig : (0 : ℚ) < significand := by exact_mod_cast hpos
  have hnum : 0 < num := by
    refine Nat.pos_of_ne_zero ?_
    rintro rfl
    rw [Nat.cast_zero, zero_div] at heq
    exact (mul_pos hsig hpow).ne heq
  have hnear : IsNear significand e (num / den) := by
    have hreach : 0 < reachBelow significand e := by
      rw [reachBelow]
      split <;> norm_num
    have hcancel : (num : ℚ) / den / 2 ^ e = significand := by rw [heq, mul_div_cancel_right₀ _ hpow.ne']
    constructor
    · linarith
    · linarith
    · exact .inr ⟨by linarith, by linarith⟩
  have hlt := magnitudeOf_lt hcanonical he
  obtain ⟨hnegative, hmagnitude⟩ := ofMagnitude_spec negative hlt.le
  rw [ofRatio_of_isNear hnum hden hcanonical hnear, min_eq_right hlt.le]
  refine ⟨by rw [isFinite, hmagnitude, decide_eq_true hlt], ?_⟩
  rw [value, hnegative, parts_of_magnitude hcanonical hmagnitude, heq]

/-! ## Integers -/

/-- A natural number that is a number of the format. -/
def IsWhole (n : Nat) : Prop := ∃ significand e, IsCanonical significand e ∧ 0 < significand ∧ e ≤ 104 ∧
  (n : ℚ) = significand * 2 ^ e

/-- A natural number of at most as many bits as a significand has is a number of the format. -/
theorem isWhole_of_lt {n : Nat} (hpos : 0 < n) (hlt : n < 2 * fractionSize) :
    IsWhole n := by
  have hsize : fractionSize = 2 ^ 23 := rfl
  have hlog : n.log2 ≤ 23 := by
    rw [hsize] at hlt
    exact Nat.le_of_lt_succ ((Nat.log2_lt hpos.ne').2 hlt)
  obtain ⟨k, hk⟩ := Nat.exists_eq_add_of_le hlog
  have hscaled : n * 2 ^ k < 2 * fractionSize ∧ fractionSize ≤ n * 2 ^ k := by
    have hlower := Nat.mul_le_mul_right (2 ^ k) (Nat.log2_self_le hpos.ne')
    have hupper := Nat.mul_lt_mul_of_pos_right (Nat.lt_log2_self (n := n)) (Nat.pow_pos (n := k) two_pos)
    rw [← Nat.pow_add, ← hk] at hlower
    rw [pow_succ, Nat.mul_right_comm, ← Nat.pow_add, ← hk] at hupper
    rw [hsize]
    omega
  refine ⟨n * 2 ^ k, -k, ⟨by omega, hscaled.1, .inr hscaled.2⟩,
    Nat.mul_pos hpos (Nat.pow_pos two_pos), by omega, ?_⟩
  rw [zpow_neg, zpow_natCast]
  push_cast
  field_simp

/-- The integer part of a magnitude; infinity has one beyond all 32-bit integers. -/
def wholePart (v : Binary32) : Nat :=
  if v.isInfinite then Nat.pow 2 31
  else if 0 ≤ v.parts.2 then v.parts.1 * Nat.pow 2 v.parts.2.toNat
  else v.parts.1 / Nat.pow 2 (-v.parts.2).toNat

theorem toInt32_eq (v : Binary32) : v.toInt32 =
    if v.isNaN then 0
    else if v.isNegative then Int32.ofInt (max (-(Nat.pow 2 31 : Int)) (-(v.wholePart : Int)))
    else Int32.ofInt (min ((Nat.pow 2 31 : Int) - 1) v.wholePart) := rfl

theorem isWhole_wholePart {v : Binary32} (hnan : v.isNaN = false) :
    v.wholePart = 0 ∨ IsWhole v.wholePart := by
  rw [wholePart]
  split
  · have hsize : fractionSize = 8388608 := by norm_num [fractionSize]
    refine .inr ⟨fractionSize, 8, ⟨by omega, by omega, .inr le_rfl⟩, by omega, by omega, ?_⟩
    rw [hsize]
    norm_num
  · rename_i hinf
    obtain ⟨hcanonical, he, -⟩ := parts_spec (isFinite_iff.2 ⟨hnan, by simpa using hinf⟩)
    split
    · rename_i hle
      have hfull := hcanonical.full.resolve_left (by omega)
      refine .inr ⟨_, _, hcanonical, Nat.lt_of_lt_of_le (Nat.pow_pos two_pos) hfull, he, ?_⟩
      obtain ⟨k, hk⟩ := Int.eq_ofNat_of_zero_le hle
      rw [hk, Int.toNat_natCast, zpow_natCast]
      norm_cast
    · rcases Nat.eq_zero_or_pos (v.parts.1 / Nat.pow 2 (-v.parts.2).toNat) with hzero | hpos
      · exact .inl hzero
      · exact .inr (isWhole_of_lt hpos
          (Nat.lt_of_le_of_lt (Nat.div_le_self _ _) hcanonical.bound))

/-- **The integer part of a number is a number of the format**, if it is not the greatest integer, for
which all larger ones stand. -/
theorem isWhole_toInt32 (v : Binary32) : v.toInt32.toInt = 0 ∨ v.toInt32 = Int32.maxValue ∨
    IsWhole v.toInt32.toInt.natAbs := by
  have hpow : (Nat.pow 2 31 : Int) = 2147483648 := by norm_num
  rw [toInt32_eq, hpow]
  cases hnan : v.isNaN with
  | true => exact .inl rfl
  | false =>
    have hwhole := isWhole_wholePart hnan
    simp only [Bool.false_eq_true, if_false]
    split
    · rw [Int32.toInt_ofInt_of_le (by omega) (by omega)]
      by_cases hlarge : v.wholePart ≤ 2147483648
      · have habs : (max (-2147483648) (-(v.wholePart : Int))).natAbs = v.wholePart := by omega
        rw [habs]
        exact hwhole.imp (fun hzero => by omega) .inr
      · -- Below the least integer that one stands for all.
        have habs : (max (-2147483648) (-(v.wholePart : Int))).natAbs = 2147483648 := by omega
        have hsize : fractionSize = 8388608 := by norm_num [fractionSize]
        rw [habs]
        refine .inr (.inr ⟨fractionSize, 8, ⟨by omega, by omega, .inr le_rfl⟩, by omega, by omega, ?_⟩)
        rw [hsize]
        norm_num
    · by_cases hlarge : v.wholePart < 2147483647
      · rw [Int32.toInt_ofInt_of_le (by omega) (by omega)]
        have habs : (min (2147483648 - 1) (v.wholePart : Int)).natAbs = v.wholePart := by omega
        rw [habs]
        exact hwhole.imp (fun hzero => by omega) .inr
      · have hmax : min (2147483648 - 1) (v.wholePart : Int) = 2147483647 := by omega
        rw [hmax]
        exact .inr (.inl rfl)

/-- **An integer that is no larger than it was before it was held in 32 bits is converted without
loss.** -/
theorem value_ofInt {n : Int} (h : IsWhole n.natAbs) :
    (ofInt n).isFinite = true ∧ (ofInt n).value = n := by
  obtain ⟨significand, e, hcanonical, hpos, he, heq⟩ := h
  have hquotient : (n.natAbs : ℚ) / (1 : ℕ) = significand * 2 ^ e := by
    rw [Nat.cast_one, div_one, heq]
  obtain ⟨hfinite, hvalue⟩ := value_ofRatio hpos one_pos hcanonical he hquotient (n < 0)
  refine ⟨hfinite, ?_⟩
  rw [ofInt, hvalue, Nat.cast_one, div_one]
  have habs : ((n.natAbs : ℕ) : ℚ) = |(n : ℚ)| := by
    rw [Nat.cast_natAbs, Int.cast_abs]
  rw [habs]
  by_cases hn : n < 0
  · have hcast : (n : ℚ) < 0 := by exact_mod_cast hn
    simp [hn, abs_of_neg hcast]
  · have hcast : (0 : ℚ) ≤ n := by exact_mod_cast not_lt.1 hn
    simp [hn, abs_of_nonneg hcast]

/-- The greatest integer is converted to the next one. -/
theorem value_ofInt_maxValue : (ofInt Int32.maxValue.toInt).value = 2147483648 := by
  have hnext : ofInt Int32.maxValue.toInt = ofInt 2147483648 := by decide +kernel
  have hsize : fractionSize = 8388608 := by norm_num [fractionSize]
  have hwhole : IsWhole (2147483648 : Int).natAbs := by
    refine ⟨fractionSize, 8, ⟨by omega, by omega, .inr le_rfl⟩, by omega, by omega, ?_⟩
    rw [hsize]
    norm_num
  rw [hnext, (value_ofInt hwhole).2]
  norm_num

theorem toBinary32_of_lt {negative : Bool} {n : Nat} (hn : n < 10 ^ 60) :
    (Decimal.mk negative n 0).toBinary32 = ofRatio negative n 1 := by
  have hlength := (Nat.length_toDigits_le_iff (b := 10) (by decide) (by decide)).2 hn
  rw [Decimal.toBinary32]
  dsimp only
  by_cases hzero : n = 0
  · rw [if_pos hzero, hzero]
    rfl
  · rw [if_neg hzero, if_neg (by omega), if_neg (by omega), if_pos le_rfl]
    simp

/-- **The text of an integer is read as the number nearest to it.** -/
theorem ofText?_toString (n : Int32) : ofText? (toString n.toInt).toList = some (ofInt n.toInt) := by
  have hlow := n.le_toInt
  have hhigh := n.toInt_lt
  have hsmall : n.toInt.natAbs < 10 ^ 60 := by
    have hlarge : 2147483648 < 10 ^ 60 := by norm_num
    omega
  have hread : ∀ negative m, Decimal.unsigned? negative (Nat.toDigits 10 m) = some ⟨negative, m, 0⟩ := by
    intro negative m
    have hdigits := @Decimal.unsigned?_of_digits negative (Nat.toDigits 10 m) [] 0 Nat.toDigits_ne_nil
      Decimal.isDigit_of_mem_toDigits nofun nofun rfl
    rwa [List.append_nil, Decimal.digitsValue_toDigits] at hdigits
  have hhead : ∀ m, ∃ c rest, Nat.toDigits 10 m = c :: rest ∧ c.isDigit = true := by
    intro m
    have hexists := Decimal.exists_head_of_digits (Nat.toDigits_ne_nil (n := m) (b := 10))
      Decimal.isDigit_of_mem_toDigits []
    rwa [List.append_nil] at hexists
  cases hn : n.toInt with
  | ofNat m =>
    have hm : m < 10 ^ 60 := by rwa [hn] at hsmall
    have htext := ofText?_of_unsigned? (hhead m) (hread false m)
    rw [toBinary32_of_lt hm] at htext
    rw [Decimal.toList_toString_ofNat]
    exact htext
  | negSucc m =>
    have hm : m + 1 < 10 ^ 60 := by rwa [hn] at hsmall
    have htext := ofText?_of_unsigned? (hhead (m + 1)) (hread true (m + 1))
    rw [toBinary32_of_lt hm] at htext
    rw [Decimal.toList_toString_negSucc, ofInt, decide_eq_true (Int.negSucc_lt_zero m)]
    exact htext

end ShaderMerge.Binary32
