import ShaderMerge.Number.Decimal
import ShaderMerge.Number.Shortest
import ShaderMerge.Proofs.Number.Shortest
import ShaderMerge.Proofs.Text.Pieces

/-!
# Literals of numbers

A literal writes the shortest decimal of a number, with a point or an exponent.  It is read as a
decimal of the same value (`denotes_positionalText`, `denotes_exponentText`), and a
decimal near to a number is rounded to it (`toBinary32_eq_self`).  So the literal of a finite number is
read as the number itself (`ofText?_text`).
-/

namespace ShaderMerge

open Binary32 (decimal IsNear)

/-! ## Decimals near to a number -/

namespace Decimal

theorem decimal_pos_iff {digits : Nat} {place : Int} : 0 < decimal digits place ↔ 0 < digits := by
  rw [decimal, mul_pos_iff_of_pos_right (zpow_pos (by norm_num) place)]
  exact Nat.cast_pos

/-- The number of digits says between which powers of ten a decimal lies. -/
theorem decimal_bounds {digits : Nat} (hpos : 0 < digits) (place : Int) :
    (10 : ℚ) ^ ((Nat.toDigits 10 digits).length + place - 1) ≤ decimal digits place ∧
      decimal digits place < 10 ^ ((Nat.toDigits 10 digits).length + place) := by
  obtain ⟨length, hlength⟩ : ∃ length, (Nat.toDigits 10 digits).length = length + 1 :=
    Nat.exists_eq_succ_of_ne_zero fun h => Nat.toDigits_ne_nil (List.length_eq_zero_iff.1 h)
  have hupper : digits < 10 ^ (length + 1) :=
    (Nat.length_toDigits_le_iff (by decide) (Nat.succ_pos _)).1 hlength.le
  have hlower : 10 ^ length ≤ digits := by
    by_contra hlt
    cases length with
    | zero => omega
    | succ length =>
      have hle := (Nat.length_toDigits_le_iff (b := 10) (by decide) (Nat.succ_pos length)).2
        (not_le.1 hlt)
      omega
  have hpow : (0 : ℚ) < 10 ^ place := zpow_pos (by norm_num) place
  have hten : (10 : ℚ) ≠ 0 := by norm_num
  rw [hlength, decimal]
  constructor
  · have hsum : ((length + 1 : ℕ) : Int) + place - 1 = (length : ℕ) + place := by
      push_cast
      ring
    rw [hsum, zpow_add₀ hten, zpow_natCast]
    have hcast : ((10 ^ length : ℕ) : ℚ) ≤ digits := by exact_mod_cast hlower
    push_cast at hcast
    exact mul_le_mul_of_nonneg_right hcast hpow.le
  · rw [zpow_add₀ hten, zpow_natCast]
    have hcast : (digits : ℚ) < (10 ^ (length + 1) : ℕ) := by exact_mod_cast hupper
    push_cast at hcast
    exact mul_lt_mul_of_pos_right hcast hpow

end Decimal

namespace Binary32

variable {x : Binary32} {q : ℚ}

/-- Finite numbers that are not zero keep clear of the powers of ten at which a decimal is decided by
the place of its first digit. -/
theorem bounds_of_isNear (hx : x.isFinite = true) (hpos : 0 < x.parts.1)
    (hnear : IsNear x.parts.1 x.parts.2 q) : (10 : ℚ) ^ (-60 : Int) < q ∧ q < 10 ^ (60 : Int) := by
  obtain ⟨hcanonical, hmost, -⟩ := parts_spec hx
  have hpow : (0 : ℚ) < 2 ^ x.parts.2 := zpow_pos two_pos _
  have hreach := reachBelow_le x.parts.1 x.parts.2
  have hlow := (le_div_iff₀ hpow).1 hnear.low
  have hhigh := (div_le_iff₀ hpow).1 hnear.high
  have hone : (1 : ℚ) ≤ x.parts.1 := by exact_mod_cast hpos
  have hbound : (x.parts.1 : ℚ) + 1 ≤ 2 * fractionSize := by exact_mod_cast hcanonical.bound
  have hleast : (2 : ℚ) ^ (-149 : Int) ≤ 2 ^ x.parts.2 :=
    zpow_le_zpow_right₀ one_le_two hcanonical.least
  have hmost : (2 : ℚ) ^ x.parts.2 ≤ 2 ^ (104 : Int) := zpow_le_zpow_right₀ one_le_two hmost
  constructor
  · calc (10 : ℚ) ^ (-60 : Int)
      _ < 1 / 2 * 2 ^ (-149 : Int) := by norm_num
      _ ≤ 1 / 2 * 2 ^ x.parts.2 := mul_le_mul_of_nonneg_left hleast (by norm_num)
      _ ≤ (x.parts.1 - reachBelow x.parts.1 x.parts.2) * 2 ^ x.parts.2 :=
        mul_le_mul_of_nonneg_right (by linarith) hpow.le
      _ ≤ q := hlow
  · calc q
      _ ≤ (x.parts.1 + 1 / 2) * 2 ^ x.parts.2 := hhigh
      _ ≤ 2 * fractionSize * 2 ^ (104 : Int) :=
        mul_le_mul (by linarith) hmost hpow.le (by positivity)
      _ < 10 ^ (60 : Int) := by norm_num [fractionSize]

/-- **A decimal near to a finite number that is not zero is rounded to it.** -/
theorem toBinary32_eq_self (hx : x.isFinite = true) (hpos : 0 < x.parts.1) {d : Decimal}
    (hnegative : d.negative = x.isNegative)
    (hnear : IsNear x.parts.1 x.parts.2 (decimal d.digits d.exponent)) : d.toBinary32 = x := by
  obtain ⟨hsmall, hlarge⟩ := bounds_of_isNear hx hpos hnear
  have hten : (1 : ℚ) < 10 := by norm_num
  have hdigits : 0 < d.digits :=
    Decimal.decimal_pos_iff.1 ((zpow_pos (by norm_num) _).trans hsmall)
  obtain ⟨hlower, hupper⟩ := Decimal.decimal_bounds hdigits d.exponent
  have hmost := (zpow_lt_zpow_iff_right₀ hten).1 (hlower.trans_lt hlarge)
  have hleast := (zpow_lt_zpow_iff_right₀ hten).1 (hsmall.trans hupper)
  rw [Decimal.toBinary32, if_neg hdigits.ne', if_neg (by omega), if_neg (by omega), hnegative]
  split
  · rename_i he
    obtain ⟨k, hk⟩ := Int.eq_ofNat_of_zero_le he
    refine ofRatio_eq_self hx (Nat.mul_pos hdigits (Nat.pow_pos (by decide))) one_pos ?_
    rw [decimal, hk, zpow_natCast] at hnear
    rw [hk, Int.toNat_natCast]
    simpa using hnear
  · rename_i he
    obtain ⟨k, hk⟩ := Int.eq_ofNat_of_zero_le (show 0 ≤ -d.exponent by omega)
    refine ofRatio_eq_self hx hdigits (Nat.pow_pos (by decide)) ?_
    have hexponent : d.exponent = -(k : Int) := by omega
    rw [decimal, hexponent, zpow_neg, zpow_natCast, ← div_eq_mul_inv] at hnear
    rw [hk, Int.toNat_natCast]
    simpa using hnear

end Binary32

/-! ## Reading digits -/

namespace Decimal

open Text (Stops takeWhile_append_of_stops)

variable {negative : Bool} {whole fraction rest : List Char} {e : Int}

theorem digitsValue_toDigits (n : Nat) : digitsValue (Nat.toDigits 10 n) = n :=
  Nat.ofDigitChars_toDigits (by decide) (by decide)

/-- Zeros in front do not count. -/
theorem digitsValue_replicate_append (count : Nat) (cs : List Char) :
    digitsValue (List.replicate count '0' ++ cs) = digitsValue cs := by
  have happend := Nat.ofDigitChars_append (b := 10) (l := List.replicate count '0') (m := cs) 0
  rwa [Nat.ofDigitChars_replicate_zero, Nat.mul_zero] at happend

theorem digitsValue_append_replicate (cs : List Char) (count : Nat) :
    digitsValue (cs ++ List.replicate count '0') = 10 ^ count * digitsValue cs := by
  have happend := Nat.ofDigitChars_append (b := 10) (l := cs) (m := List.replicate count '0') 0
  rwa [Nat.ofDigitChars_replicate_zero] at happend

theorem isDigit_of_mem_toDigits {n : Nat} : ∀ c ∈ Nat.toDigits 10 n, c.isDigit = true :=
  fun _ => Nat.isDigit_of_mem_toDigits (by decide) (by decide)

/-- Digits without a point, with an exponent behind them or nothing. -/
theorem unsigned?_of_digits (hne : whole ≠ []) (hwhole : ∀ c ∈ whole, c.isDigit = true)
    (hstops : Stops Char.isDigit rest) (hpoint : rest.head? ≠ some '.') (he : exponent? rest = some e) :
    unsigned? negative (whole ++ rest) = some ⟨negative, digitsValue whole, e⟩ := by
  obtain ⟨htake, hdrop⟩ := takeWhile_append_of_stops hwhole hstops
  rw [unsigned?, htake, hdrop]
  split
  · rename_i hfraction
    split at hfraction
    · exact absurd rfl hpoint
    · cases hfraction
      simp [hne, he]

/-- Digits on both sides of a point, with an exponent behind them or nothing. -/
theorem unsigned?_of_point (hne : whole ≠ []) (hwhole : ∀ c ∈ whole, c.isDigit = true)
    (hfraction : ∀ c ∈ fraction, c.isDigit = true) (hstops : Stops Char.isDigit rest)
    (he : exponent? rest = some e) :
    unsigned? negative (whole ++ '.' :: (fraction ++ rest))
      = some ⟨negative, digitsValue (whole ++ fraction), e - fraction.length⟩ := by
  have hpoint : Stops Char.isDigit ('.' :: (fraction ++ rest)) := by
    rintro _ ⟨⟩
    decide
  obtain ⟨htake, hdrop⟩ := takeWhile_append_of_stops hwhole hpoint
  obtain ⟨htake', hdrop'⟩ := takeWhile_append_of_stops hfraction hstops
  rw [unsigned?, htake, hdrop]
  simp [htake', hdrop', hne, he]

/-- Digits have no sign. -/
theorem sign_of_head {cs : List Char} (h : ∀ c ∈ cs.head?, c.isDigit = true) : sign cs = (false, cs) := by
  rw [sign.eq_def]
  split
  · exact absurd (h '-' rfl) (by decide)
  · exact absurd (h '+' rfl) (by decide)
  · rfl

theorem sign_toDigits (n : Nat) : sign (Nat.toDigits 10 n) = (false, Nat.toDigits 10 n) :=
  sign_of_head fun c hc => isDigit_of_mem_toDigits c (List.mem_of_head? hc)

theorem toList_toString_ofNat (n : Nat) : (toString (Int.ofNat n)).toList = Nat.toDigits 10 n :=
  Nat.toList_repr

theorem toList_toString_negSucc (n : Nat) :
    (toString (Int.negSucc n)).toList = '-' :: Nat.toDigits 10 (n + 1) := by
  change ("-" ++ (n + 1).repr).toList = _
  rw [String.toList_append, Nat.toList_repr]
  rfl

/-- The exponent that is written is read. -/
theorem exponent?_toString (e : Int) : exponent? ('e' :: (toString e).toList) = some e := by
  have hall : ∀ n, (Nat.toDigits 10 n).all Char.isDigit = true := fun n =>
    List.all_eq_true.2 isDigit_of_mem_toDigits
  have hempty : ∀ n, (Nat.toDigits 10 n).isEmpty = false := fun n =>
    List.isEmpty_eq_false_iff.2 Nat.toDigits_ne_nil
  cases e with
  | ofNat n =>
    rw [toList_toString_ofNat, exponent?]
    simp [sign_toDigits, hall, hempty, digitsValue_toDigits]
  | negSucc n =>
    rw [toList_toString_negSucc, exponent?]
    simp [sign, hall, hempty, digitsValue_toDigits, Int.negSucc_eq]

/-! ## Reading decimals -/

/-- Whether an unsigned text is read as a decimal of some value, under either sign. -/
structure Denotes (cs : List Char) (digits : Nat) (place : Int) : Prop where
  head : ∃ c rest, cs = c :: rest ∧ c.isDigit = true
  value : ∀ negative, ∃ d, unsigned? negative cs = some d ∧ d.negative = negative ∧
    decimal d.digits d.exponent = decimal digits place

theorem exists_head_of_digits {cs : List Char} (hne : cs ≠ []) (hcs : ∀ c ∈ cs, c.isDigit = true)
    (rest : List Char) : ∃ c more, cs ++ rest = c :: more ∧ c.isDigit = true := by
  obtain ⟨c, cs, rfl⟩ := List.exists_cons_of_ne_nil hne
  exact ⟨c, cs ++ rest, rfl, hcs c List.mem_cons_self⟩

/-- Digits on both sides of a point denote all of them, the last one at its place behind the point. -/
theorem denotes_of_point (hne : whole ≠ []) (hwhole : ∀ c ∈ whole, c.isDigit = true)
    (hfraction : ∀ c ∈ fraction, c.isDigit = true) :
    Denotes (whole ++ '.' :: fraction) (digitsValue (whole ++ fraction)) (-(fraction.length : Int)) where
  head := exists_head_of_digits hne hwhole _
  value negative := by
    have hpoint := @unsigned?_of_point negative whole fraction [] 0 hne hwhole hfraction nofun rfl
    rw [List.append_nil, Int.zero_sub] at hpoint
    exact ⟨_, hpoint, rfl, rfl⟩

theorem Denotes.of_eq {cs : List Char} {digits digits' : Nat} {place place' : Int}
    (h : Denotes cs digits place) (heq : decimal digits place = decimal digits' place') :
    Denotes cs digits' place' where
  head := h.head
  value negative := by
    obtain ⟨d, hread, hnegative, hvalue⟩ := h.value negative
    exact ⟨d, hread, hnegative, hvalue.trans heq⟩

/-- **A decimal that is written positionally is read as itself.** -/
theorem denotes_positionalText (n : Nat) (place : Int) :
    Denotes (NumberLayout.positionalText true (Nat.toDigits 10 n) place) n place := by
  have hdigits : ∀ c ∈ Nat.toDigits 10 n, c.isDigit = true := isDigit_of_mem_toDigits
  have hzeros : ∀ count, ∀ c ∈ List.replicate count '0', c.isDigit = true := by
    intro count c hc
    rw [(List.mem_replicate.1 hc).2]
    decide
  have hone : ['0'] = List.replicate 1 '0' := rfl
  rw [NumberLayout.positionalText]
  split
  · -- A whole number, with a zero behind the point.
    rename_i hplace
    obtain ⟨k, rfl⟩ := Int.eq_ofNat_of_zero_le hplace
    rw [Int.toNat_natCast]
    have hne : Nat.toDigits 10 n ++ List.replicate k '0' ≠ [] := by simp [Nat.toDigits_ne_nil]
    refine (denotes_of_point hne (List.forall_mem_append.2 ⟨hdigits, hzeros k⟩) (hzeros 1)).of_eq ?_
    rw [List.append_assoc, List.replicate_append_replicate, digitsValue_append_replicate,
      digitsValue_toDigits, List.length_replicate, decimal, decimal, zpow_natCast]
    push_cast
    rw [pow_succ, zpow_neg]
    field_simp
  · rename_i hplace
    obtain ⟨k, hk⟩ := Int.eq_ofNat_of_zero_le (show 0 ≤ -place by omega)
    obtain rfl : place = -k := by omega
    dsimp only
    rw [neg_neg, Int.toNat_natCast]
    split
    · -- The point stands among the digits.
      rename_i hbehind
      have hne : (Nat.toDigits 10 n).take ((Nat.toDigits 10 n).length - k) ≠ [] := by
        rw [Ne, List.take_eq_nil_iff]
        simp only [Nat.toDigits_ne_nil, or_false]
        omega
      have hread := denotes_of_point hne (fun c hc => hdigits c (List.mem_of_mem_take hc))
        fun c (hc : c ∈ (Nat.toDigits 10 n).drop ((Nat.toDigits 10 n).length - k)) =>
          hdigits c (List.mem_of_mem_drop hc)
      rwa [List.take_append_drop, digitsValue_toDigits, List.length_drop,
        Nat.sub_sub_self hbehind.le] at hread
    · -- The point stands in front of the digits.
      rename_i hbehind
      have hread := denotes_of_point (List.cons_ne_nil '0' []) (hzeros 1) (List.forall_mem_append.2
        ⟨hzeros (k - (Nat.toDigits 10 n).length), hdigits⟩)
      rwa [hone, digitsValue_replicate_append, digitsValue_replicate_append, digitsValue_toDigits,
        List.length_append, List.length_replicate, Nat.sub_add_cancel (not_lt.1 hbehind)] at hread

/-- **A decimal that is written with an exponent is read as itself.** -/
theorem denotes_exponentText (n : Nat) (place : Int) : Denotes (NumberLayout.exponentText
    (Nat.toDigits 10 n) (place + (Nat.toDigits 10 n).length - 1)) n place := by
  have hdigits : ∀ c ∈ Nat.toDigits 10 n, c.isDigit = true := isDigit_of_mem_toDigits
  have hvalue := digitsValue_toDigits n
  have hne : Nat.toDigits 10 n ≠ [] := Nat.toDigits_ne_nil
  have hstops : ∀ e : Int, Text.Stops Char.isDigit ('e' :: (toString e).toList) := by
    rintro e _ ⟨⟩
    decide
  generalize Nat.toDigits 10 n = digits at hdigits hvalue hne ⊢
  rw [NumberLayout.exponentText.eq_def]
  match digits with
  | [] => exact absurd rfl hne
  | [first] =>
    refine ⟨exists_head_of_digits hne hdigits _, fun negative => ⟨_, unsigned?_of_digits hne hdigits
      (hstops _) (by simp) (exponent?_toString _), rfl, ?_⟩⟩
    rw [hvalue]
    simp
  | first :: second :: others =>
    obtain ⟨hfirst, hothers⟩ := List.forall_mem_cons.1 hdigits
    have htext : ∀ rest, first :: '.' :: second :: others ++ rest
        = [first] ++ '.' :: ((second :: others) ++ rest) := fun rest => rfl
    dsimp only
    rw [htext]
    refine ⟨⟨first, _, rfl, hfirst⟩, fun negative => ⟨_, unsigned?_of_point (List.cons_ne_nil _ _)
      (List.forall_mem_singleton.2 hfirst) hothers (hstops _) (exponent?_toString _), rfl, ?_⟩⟩
    rw [List.singleton_append, hvalue, List.length_cons, List.length_cons]
    push_cast
    congr 1
    ring

end Decimal

/-! ## Reading literals -/

namespace Binary32

open Decimal (Denotes sign)

variable {x : Binary32}

theorem toLower_of_isDigit {c : Char} (h : c.isDigit = true) : c.toLower = c := by
  have hnine := of_decide_eq_true (Bool.and_eq_true_iff.1 h).2
  exact dif_neg fun hletter => absurd (UInt32.le_trans hletter.1 hnine) (by decide)

/-- An unsigned text that starts with a digit is read behind its sign. -/
theorem ofText?_of_unsigned? {cs : List Char} {d : Decimal} {negative : Bool}
    (hhead : ∃ c rest, cs = c :: rest ∧ c.isDigit = true)
    (hread : Decimal.unsigned? negative cs = some d) :
    ofText? ((if negative then ['-'] else []) ++ cs) = some d.toBinary32 := by
  obtain ⟨c, rest, rfl, hc⟩ := hhead
  have hsign : sign ((if negative then ['-'] else []) ++ c :: rest) = (negative, c :: rest) := by
    cases negative with
    | true => rfl
    | false =>
      refine Decimal.sign_of_head ?_
      rintro _ ⟨⟩
      exact hc
  -- The first letter of a word for what is no finite number is no digit.
  have hword : ∀ {letter : Char} {word : List Char}, letter.isDigit = false →
      (c :: rest).map Char.toLower ≠ letter :: word := by
    intro letter word hletter heq
    rw [List.map_cons, toLower_of_isDigit hc] at heq
    rw [← (List.cons.inj heq).1, hc] at hletter
    cases hletter
  have hinf : ¬ ((c :: rest).map Char.toLower = "inf".toList ∨
      (c :: rest).map Char.toLower = "infinity".toList) := by
    rintro (heq | heq)
    · exact hword (by decide) heq
    · exact hword (by decide) heq
  have hnan : (c :: rest).map Char.toLower ≠ "nan".toList := hword (by decide)
  rw [ofText?, hsign]
  dsimp only
  rw [if_neg (by simpa using hinf), if_neg hnan, hread]
  rfl

theorem magnitude_eq_zero_of_parts (hx : x.isFinite = true) (h : x.parts.1 = 0) : x.magnitude = 0 := by
  obtain ⟨hcanonical, -, hmagnitude⟩ := parts_spec hx
  have hleast := hcanonical.full
  rw [h] at hleast hmagnitude
  obtain he | hle := hleast
  · rw [← hmagnitude, he, magnitudeOf]
    rfl
  · exact absurd hle (by decide)

/-- **The literal of a finite number is read as the number.** -/
theorem ofText?_text (hx : x.isFinite = true) :
    ofText? (NumberLayout.literal.text x).toList = some x := by
  obtain ⟨hnan, hinf⟩ := isFinite_iff.1 hx
  rw [NumberLayout.text, hnan, if_neg Bool.false_ne_true, String.toList_ofList,
    NumberLayout.unsignedText, hinf, if_neg Bool.false_ne_true]
  by_cases hzero : x.magnitude = 0
  · have hpoint : NumberLayout.literal.keepsPoint = true := rfl
    rw [if_pos hzero, if_pos hpoint]
    conv_rhs => rw [← ofMagnitude_magnitude x, hzero]
    cases x.isNegative <;> rfl
  · have hpos : 0 < x.parts.1 :=
      Nat.pos_of_ne_zero fun h => hzero (magnitude_eq_zero_of_parts hx h)
    have hnear := isNear_shortest hx hpos
    have hread : ∀ {cs}, Denotes cs x.shortest.1 x.shortest.2 →
        ofText? ((if x.isNegative then ['-'] else []) ++ cs) = some x := by
      intro cs hcs
      obtain ⟨d, hd, hnegative, hvalue⟩ := hcs.value x.isNegative
      rw [ofText?_of_unsigned? hcs.head hd, toBinary32_eq_self hx hpos hnegative (hvalue ▸ hnear)]
    rw [if_neg hzero]
    refine hread ?_
    dsimp only
    split
    · exact Decimal.denotes_positionalText _ _
    · exact Decimal.denotes_exponentText _ _

end Binary32

end ShaderMerge
