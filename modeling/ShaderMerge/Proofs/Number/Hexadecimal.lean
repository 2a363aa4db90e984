import Mathlib.Tactic.IntervalCases
import ShaderMerge.ContentHash

/-!
# Hexadecimal digits

The number that some hexadecimal digits write is the one whose digits they are
(`numberOf_toDigits`), with zeros in front of them or without.
-/

namespace ShaderMerge

namespace ContentHash

/-- The value of a hexadecimal digit. -/
def digitValue (c : Char) : Nat := if c.isDigit then c.toNat - 48 else c.toNat - 87

/-- The number that some hexadecimal digits write. -/
def numberOf (digits : List Char) : Nat :=
  digits.foldl (fun number c => 16 * number + digitValue c) 0

theorem digitValue_digitChar {d : Nat} (h : d < 16) : digitValue (Nat.digitChar d) = d := by
  interval_cases d <;> rfl

theorem numberOf_concat (digits : List Char) (c : Char) :
    numberOf (digits ++ [c]) = 16 * numberOf digits + digitValue c := by
  rw [numberOf, List.foldl_append]
  rfl

theorem numberOf_toDigits (n : Nat) : numberOf (Nat.toDigits 16 n) = n := by
  -- The digits in front of the last one write the quotient.
  induction n using Nat.strongRecOn with
  | ind n ih =>
    rw [Nat.toDigits_eq_if (by decide)]
    split
    · rename_i hlt
      rw [← List.nil_append [_], numberOf_concat, digitValue_digitChar hlt]
      exact Nat.zero_add n
    · rename_i hge
      rw [numberOf_concat, ih (n / 16) (Nat.div_lt_self (by omega) (by decide)),
        digitValue_digitChar (Nat.mod_lt n (by decide))]
      exact Nat.div_add_mod n 16

theorem exists_digitChar_of_mem_toDigits {n : Nat} {c : Char} (h : c ∈ Nat.toDigits 16 n) :
    ∃ d < 16, c = Nat.digitChar d := by
  induction n using Nat.strongRecOn with
  | ind n ih =>
    rw [Nat.toDigits_eq_if (by decide)] at h
    split at h
    · rename_i hlt
      exact ⟨n, hlt, List.mem_singleton.1 h⟩
    · rw [List.mem_append, List.mem_singleton] at h
      rcases h with h | h
      · exact ih (n / 16) (Nat.div_lt_self (by omega) (by decide)) h
      · exact ⟨n % 16, Nat.mod_lt n (by decide), h⟩

/-- Zeros in front do not count. -/
theorem numberOf_padded (count : Nat) (digits : List Char) :
    numberOf (List.replicate count '0' ++ digits) = numberOf digits := by
  induction count with
  | zero => rfl
  | succ count ih => exact ih

end ContentHash

end ShaderMerge
