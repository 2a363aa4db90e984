import ShaderMerge.Text.Scan
import Mathlib.Data.List.TakeWhile

/-!
# Pieces of a text

What the recognisers of `Text` read, said of the text itself: a name is the longest run of the
characters of names, blanks are skipped up to the first other character, and a fixed word stands at
the start.  What follows a piece must stop it (`Stops`), or the piece would be longer.
-/

namespace ShaderMerge

namespace Text

/-! ## Names and blanks -/

/-- Whether a text is a name. -/
def IsName (cs : List Char) : Prop :=
  ∃ c rest, cs = c :: rest ∧ isNameStart c = true ∧ ∀ d ∈ rest, isNameChar d = true

instance : DecidablePred IsName
  | [] => isFalse nofun
  | c :: rest => decidable_of_iff (isNameStart c = true ∧ rest.all isNameChar = true) <| by
    rw [List.all_eq_true]
    exact ⟨fun h => ⟨c, rest, rfl, h⟩, fun ⟨_, _, heq, h⟩ =>
      (List.cons.inj heq).1 ▸ (List.cons.inj heq).2 ▸ h⟩

/-- Whether a text is made of blanks. -/
def IsBlanks (cs : List Char) : Prop := ∀ c ∈ cs, isBlank c = true

/-- Whether a text does not start with a character of a kind. -/
def Stops (p : Char → Bool) (cs : List Char) : Prop := ∀ c, cs.head? = some c → p c = false

variable {p : Char → Bool} {cs front rest name : List Char}

theorem takeWhile_append_of_stops (hfront : ∀ c ∈ front, p c = true) (hrest : Stops p rest) :
    (front ++ rest).takeWhile p = front ∧ (front ++ rest).dropWhile p = rest := by
  have hnone : rest.takeWhile p = [] ∧ rest.dropWhile p = rest := by
    cases rest with
    | nil => exact ⟨rfl, rfl⟩
    | cons c rest => simp [hrest c rfl]
  rw [List.takeWhile_append_of_pos hfront, List.dropWhile_append_of_pos hfront, hnone.1, hnone.2,
    List.append_nil]
  exact ⟨rfl, rfl⟩

theorem stops_dropWhile (p : Char → Bool) (cs : List Char) : Stops p (cs.dropWhile p) := by
  intro c hc
  have hhead := List.head?_dropWhile_not p cs
  rw [hc] at hhead
  simpa using hhead

theorem prefix_dropEndWhile (p : Char → Bool) (cs : List Char) : dropEndWhile p cs <+: cs := by
  rw [dropEndWhile, ← List.reverse_suffix, List.reverse_reverse]
  exact List.dropWhile_suffix p

/-- A blank is no part of a name. -/
theorem isNameChar_of_isBlank {c : Char} (h : isBlank c = true) : isNameChar c = false := by
  by_contra hname
  rw [Bool.not_eq_false] at hname
  have hcases : (65 ≤ c.toNat ∧ c.toNat ≤ 90) ∨ (97 ≤ c.toNat ∧ c.toNat ≤ 122) ∨
      (48 ≤ c.toNat ∧ c.toNat ≤ 57) ∨ c.toNat = 95 := by
    rw [isNameChar, Char.isAlphanum, Bool.or_eq_true, Bool.or_eq_true, beq_iff_eq] at hname
    rcases hname with (hletter | hdigit) | rfl
    · obtain hupper | hlower := Bool.or_eq_true_iff.1 hletter
      · exact .inl (of_decide_eq_true hupper)
      · exact .inr (.inl ((Bool.and_eq_true_iff.1 hlower).imp of_decide_eq_true of_decide_eq_true))
    · exact .inr (.inr (.inl
        ((Bool.and_eq_true_iff.1 hdigit).imp of_decide_eq_true of_decide_eq_true)))
    · exact .inr (.inr (.inr rfl))
  -- The ranges of letters, digits and the low line have no blank among them.
  simp only [isBlank, Bool.or_eq_true, Bool.and_eq_true, decide_eq_true_eq, beq_iff_eq] at h
  omega

theorem isNameChar_of_isNameStart {c : Char} (h : isNameStart c = true) : isNameChar c = true := by
  rw [isNameStart, Bool.or_eq_true] at h
  rw [isNameChar, Char.isAlphanum, Bool.or_eq_true, Bool.or_eq_true]
  exact h.imp_left .inl

theorem IsName.forall_isNameChar (h : IsName cs) : ∀ c ∈ cs, Text.isNameChar c = true := by
  obtain ⟨c, rest, rfl, hstart, hrest⟩ := h
  exact List.forall_mem_cons.2 ⟨isNameChar_of_isNameStart hstart, hrest⟩

/-- Other signs are no part of a name. -/
theorem IsName.notMem (h : IsName cs) {c : Char} (hc : Text.isNameChar c = false) : c ∉ cs := by
  intro hmem
  rw [h.forall_isNameChar c hmem] at hc
  cases hc

theorem isName_append {back : List Char} (h : IsName front)
    (hback : ∀ c ∈ back, isNameChar c = true) : IsName (front ++ back) := by
  obtain ⟨c, rest, rfl, hstart, hrest⟩ := h
  exact ⟨c, rest ++ back, rfl, hstart, List.forall_mem_append.2 ⟨hrest, hback⟩⟩

/-- A name stops no name, and no blanks. -/
theorem IsName.stops_isBlank (h : IsName name) (rest : List Char) : Stops isBlank (name ++ rest) := by
  obtain ⟨c, more, rfl, hstart, -⟩ := h
  intro d hd
  cases hd
  by_contra hblank
  have hname := isNameChar_of_isBlank (Bool.not_eq_false _ ▸ hblank)
  rw [isNameChar_of_isNameStart hstart] at hname
  cases hname

theorem IsBlanks.stops_isNameChar {gap : List Char} (h : IsBlanks gap) (hne : gap ≠ [])
    (rest : List Char) : Stops isNameChar (gap ++ rest) := by
  cases gap with
  | nil => exact absurd rfl hne
  | cons c gap =>
    intro d hd
    cases hd
    exact isNameChar_of_isBlank (h c List.mem_cons_self)

theorem notMem_intercalate {c : Char} {separator : List Char} {pieces : List (List Char)}
    (hseparator : c ∉ separator) (hpieces : ∀ piece ∈ pieces, c ∉ piece) :
    c ∉ List.intercalate separator pieces := by
  induction pieces with
  | nil => exact List.not_mem_nil
  | cons piece others ih =>
    obtain ⟨hpiece, hothers⟩ := List.forall_mem_cons.1 hpieces
    cases others with
    | nil => rwa [List.intercalate_singleton]
    | cons next others =>
      rw [List.intercalate_cons_cons, List.mem_append, List.mem_append, not_or, not_or]
      exact ⟨⟨hpiece, hseparator⟩, ih hothers⟩

/-! ## Numbers -/

theorem toList_toString (n : Nat) : (toString n).toList = Nat.toDigits 10 n := Nat.toList_repr

theorem isDigit_of_mem_toString {n : Nat} {c : Char} (h : c ∈ (toString n).toList) :
    c.isDigit = true := by
  rw [toList_toString] at h
  exact Nat.isDigit_of_mem_toDigits (by decide) (by decide) h

theorem isNameChar_of_mem_toString {n : Nat} {c : Char} (h : c ∈ (toString n).toList) :
    isNameChar c = true := by
  rw [isNameChar, Char.isAlphanum, isDigit_of_mem_toString h, Bool.or_true, Bool.true_or]

/-! ## What the recognisers read -/

/-- The longest name is read. -/
theorem name?_eq_some_iff :
    name? cs = some (name, rest) ↔ cs = name ++ rest ∧ IsName name ∧ Stops isNameChar rest := by
  constructor
  · intro h
    refine ⟨(append_of_name? h).symm, ?_⟩
    cases cs with
    | nil => cases h
    | cons c cs =>
      rw [name?] at h
      split at h
      · rename_i hstart
        cases h
        exact ⟨⟨c, _, rfl, hstart, fun d hd => List.mem_takeWhile_imp hd⟩,
          stops_dropWhile isNameChar cs⟩
      · cases h
  · rintro ⟨rfl, ⟨c, more, rfl, hstart, hmore⟩, hstops⟩
    obtain ⟨htake, hdrop⟩ := takeWhile_append_of_stops hmore hstops
    rw [List.cons_append, name?, if_pos hstart, htake, hdrop]

theorem skipBlanks_append {gap : List Char} (hgap : IsBlanks gap) (hrest : Stops isBlank rest) :
    skipBlanks (gap ++ rest) = rest :=
  (takeWhile_append_of_stops hgap hrest).2

theorem afterBlanks?_eq_some_iff : afterBlanks? cs = some rest ↔
    ∃ gap, gap ≠ [] ∧ IsBlanks gap ∧ cs = gap ++ rest ∧ Stops isBlank rest := by
  constructor
  · intro h
    cases cs with
    | nil => cases h
    | cons c cs =>
      rw [afterBlanks?] at h
      split at h
      · rename_i hblank
        cases h
        refine ⟨c :: cs.takeWhile isBlank, List.cons_ne_nil c _, ?_, ?_, stops_dropWhile isBlank cs⟩
        · exact List.forall_mem_cons.2 ⟨hblank, fun d hd => List.mem_takeWhile_imp hd⟩
        · rw [List.cons_append, takeWhile_append_skipBlanks]
      · cases h
  · rintro ⟨gap, hne, hgap, rfl, hstops⟩
    cases gap with
    | nil => exact absurd rfl hne
    | cons c gap =>
      obtain ⟨hblank, hgap⟩ := List.forall_mem_cons.1 hgap
      rw [List.cons_append, afterBlanks?, if_pos hblank, skipBlanks_append hgap hstops]

theorem skipBlanks_eq_iff {c : Char} (hc : isBlank c = false) :
    skipBlanks cs = c :: rest ↔ ∃ gap, IsBlanks gap ∧ cs = gap ++ c :: rest := by
  constructor
  · intro h
    refine ⟨cs.takeWhile isBlank, fun d hd => List.mem_takeWhile_imp hd, ?_⟩
    rw [← h, takeWhile_append_skipBlanks]
  · rintro ⟨gap, hgap, rfl⟩
    refine skipBlanks_append hgap fun d hd => ?_
    cases hd
    exact hc

theorem after?_eq_some_iff {word : String} : after? word cs = some rest ↔ cs = word.toList ++ rest := by
  rw [after?]
  constructor
  · intro h
    split at h
    · rename_i hprefix
      cases h
      exact (List.prefix_iff_eq_append.1 (List.isPrefixOf_iff_prefix.1 hprefix)).symm
    · cases h
  · rintro rfl
    rw [if_pos (List.isPrefixOf_iff_prefix.2 (List.prefix_append _ _)), List.drop_left]

/-- A text is read up to the first closing character. -/
theorem notMem_of_until? {close : Char} (h : until? close cs = some (front, rest)) :
    close ∉ front := by
  rw [until?] at h
  split at h
  · cases h
  · cases h
    intro hmem
    have hother := List.mem_takeWhile_imp hmem
    rw [bne_self_eq_false] at hother
    cases hother

theorem until?_append {close : Char} {front : List Char} (hfront : close ∉ front)
    (rest : List Char) : until? close (front ++ close :: rest) = some (front, rest) := by
  have hstops : Stops (· != close) (close :: rest) := by
    rintro c ⟨⟩
    simp
  have hall : ∀ c ∈ front, (c != close) = true := by
    intro c hc
    rw [bne_iff_ne]
    rintro rfl
    exact hfront hc
  obtain ⟨htake, hdrop⟩ := takeWhile_append_of_stops hall hstops
  rw [until?, hdrop, htake]

end Text

end ShaderMerge
