import ShaderMerge.Number.Shortest
import ShaderMerge.Proofs.Number.Rounding

/-!
# The shortest decimal lies in the neighbourhood

A neighbourhood holds a decimal exactly if that is near to the number in the sense of rounding
(`holds_iff`).  The search stops at a decimal that the neighbourhood holds, if there is one on a grid
that it gets to (`holds_search`), and the finest grid is finer than every neighbourhood.  So the
shortest decimal of a finite number that is not zero is near to it (`isNear_shortest`).
-/

namespace ShaderMerge.Binary32

/-! ## Decimals of a neighbourhood -/

/-- A decimal as a rational number. -/
def decimal (digits : Nat) (place : Int) : ℚ := digits * 10 ^ place

namespace Neighbourhood

/-- A power of ten on one side of a comparison or the other. -/
theorem scaled_pow_ten (place : Int) :
    (10 : ℚ) ^ place = (Nat.pow 10 place.toNat : ℕ) / (Nat.pow 10 (-place).toNat : ℕ) := by
  rcases Int.le_total 0 place with h | h
  · obtain ⟨k, rfl⟩ := Int.eq_ofNat_of_zero_le h
    have hzero : (-(k : Int)).toNat = 0 := by omega
    rw [hzero, Int.toNat_natCast, zpow_natCast]
    norm_num
  · obtain ⟨k, hk⟩ := Int.eq_ofNat_of_zero_le (show 0 ≤ -place by omega)
    obtain rfl : place = -k := by omega
    have hzero : (-(k : Int)).toNat = 0 := by omega
    rw [neg_neg, hzero, Int.toNat_natCast, zpow_neg, zpow_natCast]
    norm_num

/-- A neighbourhood holds what lies between its ends. -/
theorem holds_iff (n : Neighbourhood) (hden : 0 < n.den) (digits : Nat) (place : Int) :
    n.holds digits place = true ↔
      (n.low : ℚ) / n.den ≤ decimal digits place ∧ decimal digits place ≤ n.high / n.den ∧
        (n.closed = true ∨
          (n.low : ℚ) / n.den < decimal digits place ∧ decimal digits place < n.high / n.den) := by
  have hpos : (0 : ℚ) < n.den := by exact_mod_cast hden
  have hunit : (0 : ℚ) < (Nat.pow 10 (-place).toNat : ℕ) := by
    exact_mod_cast Nat.pow_pos (n := (-place).toNat) (show 0 < 10 by decide)
  have hpoint : decimal digits place * (n.den * (Nat.pow 10 (-place).toNat : ℕ))
      = (digits * Nat.pow 10 place.toNat * n.den : ℕ) := by
    rw [decimal, scaled_pow_ten]
    field_simp
    push_cast
    ring
  have hscale : (0 : ℚ) < n.den * (Nat.pow 10 (-place).toNat : ℕ) := mul_pos hpos hunit
  have hend : ∀ k : Nat, (k : ℚ) / n.den * (n.den * (Nat.pow 10 (-place).toNat : ℕ))
      = (k * Nat.pow 10 (-place).toNat : ℕ) := by
    intro k
    field_simp
    push_cast
    ring
  rw [← mul_le_mul_iff_left₀ hscale, ← mul_le_mul_iff_left₀ (b := decimal digits place) hscale,
    ← mul_lt_mul_iff_left₀ hscale, ← mul_lt_mul_iff_left₀ (b := decimal digits place) hscale, hpoint, hend, hend]
  simp only [Nat.cast_le, Nat.cast_lt]
  rw [holds]
  cases n.closed
  · simp
    omega
  · simp

/-! ## The search -/

/-- The lower of the two points of a grid beside the number. -/
def pointBelow (n : Neighbourhood) (place : Int) : Nat :=
  n.value * Nat.pow 10 (-place).toNat / (n.den * Nat.pow 10 place.toNat)

/-- **The search stops at a decimal that the neighbourhood holds**, if it gets to a grid whose lower
point is held. -/
theorem holds_search (n : Neighbourhood) {fuel : Nat} {place : Int}
    (h : ∃ k < fuel, n.holds (n.pointBelow (place - k)) (place - k) = true) :
    n.holds (n.search fuel place).1 (n.search fuel place).2 = true := by
  induction fuel generalizing place with
  | zero =>
    obtain ⟨k, hk, -⟩ := h
    exact absurd hk (Nat.not_lt_zero k)
  | succ fuel ih =>
    rw [search]
    split
    · rename_i hdown hup
      split
      · exact hup
      · exact hdown
    · rename_i hdown hup
      exact hdown
    · rename_i hdown hup
      exact hup
    · rename_i hdown hup
      obtain ⟨k, hk, hholds⟩ := h
      cases k with
      | zero =>
        rw [Int.ofNat_zero, Int.sub_zero] at hholds
        cases hdown.symm.trans hholds
      | succ k =>
        refine ih ⟨k, Nat.lt_of_succ_lt_succ hk, ?_⟩
        have hplace : place - 1 - (k : Int) = place - ((k + 1 : Nat) : Int) := by
          push_cast
          ring
        rw [hplace]
        exact hholds

end Neighbourhood

/-! ## The neighbourhood of a number -/

variable {x : Binary32}

theorem neighbourhood_den_pos (x : Binary32) : 0 < x.neighbourhood.den := Nat.pow_pos two_pos

/-- The power of two at the last place, in quarters, over the common denominator. -/
theorem quarter_eq (e : Int) :
    (Nat.pow 2 (e - 2).toNat : ℕ) / (Nat.pow 2 (-(e - 2)).toNat : ℕ) = (2 : ℚ) ^ e / 4 := by
  have hsplit : (2 : ℚ) ^ e / 4 = 2 ^ (e - 2) := by
    rw [zpow_sub₀ two_ne_zero]
    norm_num
  rw [hsplit]
  rcases Int.le_total 0 (e - 2) with h | h
  · obtain ⟨k, hk⟩ := Int.eq_ofNat_of_zero_le h
    have hzero : (-(k : Int)).toNat = 0 := by omega
    rw [hk, hzero, Int.toNat_natCast, zpow_natCast]
    norm_num
  · obtain ⟨k, hk⟩ := Int.eq_ofNat_of_zero_le (show 0 ≤ -(e - 2) by omega)
    have hneg : e - 2 = -(k : Int) := by omega
    have hzero : (-(k : Int)).toNat = 0 := by omega
    rw [hneg, neg_neg, hzero, Int.toNat_natCast, zpow_neg, zpow_natCast]
    norm_num

/-- The ends of the neighbourhood of a number that is not zero. -/
theorem ends_neighbourhood (hpos : 0 < x.parts.1) :
    (x.neighbourhood.low : ℚ) / x.neighbourhood.den
        = (x.parts.1 - reachBelow x.parts.1 x.parts.2) * 2 ^ x.parts.2 ∧
      (x.neighbourhood.high : ℚ) / x.neighbourhood.den = (x.parts.1 + 1 / 2) * 2 ^ x.parts.2 := by
  have hquarter := quarter_eq x.parts.2
  rw [neighbourhood]
  dsimp only
  generalize x.parts.1 = s at hpos ⊢
  generalize x.parts.2 = e at hquarter ⊢
  constructor
  · have hreach : reachBelow s e = ((if s = fractionSize && -149 < e then 1 else 2 : ℕ) : ℚ) / 4 := by
      simp only [reachBelow, Bool.and_eq_true, decide_eq_true_eq]
      split <;> norm_num
    have hle : (if s = fractionSize && -149 < e then 1 else 2) ≤ 4 * s := by
      split <;> omega
    rw [hreach, Nat.cast_mul, Nat.cast_sub hle, mul_div_assoc, hquarter]
    push_cast
    ring
  · rw [Nat.cast_mul, mul_div_assoc, hquarter]
    push_cast
    ring

/-- **What the neighbourhood of a number holds is near to it.** -/
theorem isNear_of_holds (hpos : 0 < x.parts.1) {digits : Nat} {place : Int}
    (h : x.neighbourhood.holds digits place = true) :
    IsNear x.parts.1 x.parts.2 (decimal digits place) := by
  obtain ⟨hlow, hhigh⟩ := ends_neighbourhood hpos
  have hpow : (0 : ℚ) < 2 ^ x.parts.2 := zpow_pos two_pos _
  obtain ⟨h₁, h₂, h₃⟩ := (x.neighbourhood.holds_iff (neighbourhood_den_pos x) digits place).1 h
  rw [hlow] at h₁ h₃
  rw [hhigh] at h₂ h₃
  refine ⟨(le_div_iff₀ hpow).2 h₁, (div_le_iff₀ hpow).2 h₂, ?_⟩
  rw [lt_div_iff₀ hpow, div_lt_iff₀ hpow]
  exact h₃.imp_left fun hclosed => by simpa [neighbourhood] using hclosed

/-- The number of a neighbourhood lies inside, and the denominator has its bound. -/
theorem bounds_neighbourhood (hx : x.isFinite = true) (hpos : 0 < x.parts.1) :
    x.neighbourhood.low < x.neighbourhood.value ∧ x.neighbourhood.value < x.neighbourhood.high ∧
      x.neighbourhood.den ≤ Nat.pow 2 151 := by
  have hleast := (parts_spec hx).1.least
  rw [neighbourhood]
  dsimp only
  have hup : 0 < Nat.pow 2 (x.parts.2 - 2).toNat := Nat.pow_pos two_pos
  refine ⟨Nat.mul_lt_mul_of_pos_right ?_ hup, Nat.mul_lt_mul_of_pos_right (by omega) hup, ?_⟩
  · split <;> omega
  · exact Nat.pow_le_pow_right two_pos (by omega)

/-- **The finest grid has a point in every neighbourhood**: it is finer than a quarter of the last
place of the least number. -/
theorem holds_pointBelow (hx : x.isFinite = true) (hpos : 0 < x.parts.1) :
    x.neighbourhood.holds (x.neighbourhood.pointBelow (-100)) (-100) = true := by
  obtain ⟨hlow, hhigh, hden⟩ := bounds_neighbourhood hx hpos
  have hdenPos := neighbourhood_den_pos x
  have hfine : Nat.pow 2 151 < Nat.pow 10 100 := by norm_num
  have hpower : 0 < Nat.pow 10 100 := Nat.pow_pos (by decide)
  have hplace : (-(-100 : Int)).toNat = 100 ∧ (-100 : Int).toNat = 0 := by decide
  simp only [Neighbourhood.holds, Neighbourhood.pointBelow, hplace.1, hplace.2]
  have hone : Nat.pow 10 0 = 1 := rfl
  rw [hone, Nat.mul_one, Nat.mul_one]
  generalize Nat.pow 10 100 = power at hfine hpower ⊢
  generalize x.neighbourhood = n at hlow hhigh hden hdenPos ⊢
  have hbelow := Nat.div_mul_le_self (n.value * power) n.den
  have hdivision := Nat.div_add_mod' (n.value * power) n.den
  have hrest := Nat.mod_lt (n.value * power) hdenPos
  have hlow' : (n.low + 1) * power ≤ n.value * power := Nat.mul_le_mul_right power hlow
  have hhigh' : n.value * power < n.high * power := Nat.mul_lt_mul_of_pos_right hhigh hpower
  rw [Nat.succ_mul] at hlow'
  have hfirst : n.low * power < n.value * power / n.den * n.den := by omega
  have hsecond : n.value * power / n.den * n.den < n.high * power := by omega
  cases n.closed
  · simp [hfirst, hsecond]
  · simp [hfirst.le, hsecond.le]

/-- **The shortest decimal of a finite number that is not zero is near to it.** -/
theorem isNear_shortest (hx : x.isFinite = true) (hpos : 0 < x.parts.1) :
    IsNear x.parts.1 x.parts.2 (decimal x.shortest.1 x.shortest.2) :=
  isNear_of_holds hpos (x.neighbourhood.holds_search ⟨139, by decide, holds_pointBelow hx hpos⟩)

end ShaderMerge.Binary32
