import ShaderMerge.Proofs.Condition.Derivation
import Mathlib.Data.List.Induction
import Mathlib.Data.List.TakeWhile

/-!
# Conditions and the blanks around them

`Expr.read_trim`: a condition that can be read reads the same without the blanks around it.

Not every blank may stand around a condition: the tokens know spaces and tabs only, and any other
blank is the foreign token `other`.  So trimming a text may change its tokens.  It does not where
no token is foreign (`tokens_trimmed`), and a text with a foreign token is no condition, since no phrase
of the grammar has one (`Derives.other_notMem`).
-/

namespace ShaderMerge.Condition

/-! ## Tokens of texts with blanks at their ends -/

/-- A blank has no part in any token. -/
theorem not_isAlphanum_of_isBlank {b : Char} (hb : Text.isBlank b = true) :
    b.isAlphanum = false := by
  rw [Bool.eq_false_iff]
  intro h
  simp only [Text.isBlank, Bool.or_eq_true, Bool.and_eq_true, decide_eq_true_eq, beq_iff_eq] at hb
  have hranges : ((decide (b.val ≥ 'A'.val ∧ b.val ≤ 'Z'.val) ||
      decide (b.val ≥ 'a'.val) && decide (b.val ≤ 'z'.val)) ||
      decide (b.val ≥ '0'.val) && decide (b.val ≤ '9'.val)) = true := h
  simp only [Bool.or_eq_true, Bool.and_eq_true, decide_eq_true_eq, ge_iff_le,
    UInt32.le_iff_toNat_le] at hranges
  have hnat : b.toNat = b.val.toNat := rfl
  rw [hnat] at hb
  simp only [show ('A'.val.toNat) = 65 from rfl, show ('Z'.val.toNat) = 90 from rfl,
    show ('a'.val.toNat) = 97 from rfl, show ('z'.val.toNat) = 122 from rfl,
    show ('0'.val.toNat) = 48 from rfl, show ('9'.val.toNat) = 57 from rfl] at hranges
  omega

theorem ne_of_isBlank {b c : Char} (hb : Text.isBlank b = true) (hc : Text.isBlank c = false) :
    b ≠ c := by
  rintro rfl
  rw [hb] at hc
  cases hc

/-- A blank behind a text makes no doubled character out of the last one. -/
theorem not_doubled_append {c d b : Char} {rest : List Char} (hb : b ≠ d)
    (h : ∀ tail, c = d → rest = d :: tail → False) :
    ∀ tail, c = d → rest ++ [b] = d :: tail → False := by
  intro tail hc happ
  cases rest with
  | nil => exact hb (List.cons.inj happ).1
  | cons x xs => exact h xs hc (by rw [(List.cons.inj happ).1])

/-- A run of characters ends in front of a last character that is none of them. -/
theorem takeWhile_append_stop {p : Char → Bool} {b : Char} (h : p b = false) (rest : List Char) :
    (rest ++ [b]).takeWhile p = rest.takeWhile p := by
  induction rest with
  | nil => simp [h]
  | cons x xs ih => simp only [List.cons_append, List.takeWhile_cons, ih]

theorem dropWhile_append_stop {p : Char → Bool} {b : Char} (h : p b = false) (rest : List Char) :
    (rest ++ [b]).dropWhile p = rest.dropWhile p ++ [b] := by
  induction rest with
  | nil => simp [h]
  | cons x xs ih =>
    simp only [List.cons_append, List.dropWhile_cons, ih]
    split <;> rfl

/-- A blank behind a text adds its own tokens, which are none or a foreign one. -/
theorem tokens_append_blank (cs : List Char) {b : Char} (hb : Text.isBlank b = true) :
    tokens (cs ++ [b]) = tokens cs ++ tokens [b] := by
  have halnum := not_isAlphanum_of_isBlank hb
  have hamp : b ≠ '&' := ne_of_isBlank hb rfl
  have hbar : b ≠ '|' := ne_of_isBlank hb rfl
  have heq : b ≠ '=' := ne_of_isBlank hb rfl
  have hname : Text.isNameChar b = false := by
    simp [Text.isNameChar, halnum, ne_of_isBlank hb (c := '_') rfl]
  fun_induction tokens cs with
  | case1 => rfl
  | case2 rest ih =>
    rw [List.cons_append, List.cons_append, tokens, ih]
    rfl
  | case3 rest ih =>
    rw [List.cons_append, List.cons_append, tokens, ih]
    rfl
  -- From here on no doubled sign starts the text, and a blank behind it does not make one.
  | case4 c rest h₁ h₂ hspace ih =>
    rw [List.cons_append, tokens, if_pos hspace, ih]
    · exact not_doubled_append hamp h₁
    · exact not_doubled_append hbar h₂
  | case5 rest h₁ h₂ hspace ih =>
    rw [List.cons_append, tokens, if_neg hspace, if_pos rfl, ih]
    · rfl
    · exact not_doubled_append hamp h₁
    · exact not_doubled_append hbar h₂
  | case6 rest h₁ h₂ hspace hopen ih =>
    rw [List.cons_append, tokens, if_neg hspace, if_neg hopen, if_pos rfl, ih]
    · rfl
    · exact not_doubled_append hamp h₁
    · exact not_doubled_append hbar h₂
  | case7 c rest h₁ h₂ hspace hopen hclose hnot ih =>
    -- A blank is no equals sign, so whether one follows is unchanged.
    have hnot' : (decide (c = '!') && (rest ++ [b]).head? != some '=') = true := by
      cases rest <;> simp_all
    rw [List.cons_append, tokens, if_neg hspace, if_neg hopen, if_neg hclose, if_pos hnot', ih]
    · rfl
    · exact not_doubled_append hamp h₁
    · exact not_doubled_append hbar h₂
  | case8 c rest h₁ h₂ hspace hopen hclose hnot hstart ih =>
    have hnot' : ¬ (decide (c = '!') && (rest ++ [b]).head? != some '=') = true := by
      cases rest <;> simp_all
    rw [List.cons_append, tokens, if_neg hspace, if_neg hopen, if_neg hclose, if_neg hnot',
      if_pos hstart]
    -- The name ends in front of the blank, whether or not it reaches the end of the text.
    · rw [takeWhile_append_stop hname, dropWhile_append_stop hname, ih]
      rfl
    · exact not_doubled_append hamp h₁
    · exact not_doubled_append hbar h₂
  | case9 c rest h₁ h₂ hspace hopen hclose hnot hstart hdigit ih =>
    have hnot' : ¬ (decide (c = '!') && (rest ++ [b]).head? != some '=') = true := by
      cases rest <;> simp_all
    rw [List.cons_append, tokens, if_neg hspace, if_neg hopen, if_neg hclose, if_neg hnot',
      if_neg hstart, if_pos hdigit]
    · rw [takeWhile_append_stop halnum, dropWhile_append_stop halnum, ih]
      rfl
    · exact not_doubled_append hamp h₁
    · exact not_doubled_append hbar h₂
  | case10 c rest h₁ h₂ hspace hopen hclose hnot hstart hdigit ih =>
    have hnot' : ¬ (decide (c = '!') && (rest ++ [b]).head? != some '=') = true := by
      cases rest <;> simp_all
    rw [List.cons_append, tokens, if_neg hspace, if_neg hopen, if_neg hclose, if_neg hnot',
      if_neg hstart, if_neg hdigit, ih]
    · rfl
    · exact not_doubled_append hamp h₁
    · exact not_doubled_append hbar h₂

/-- A blank in front of a text adds nothing, or a foreign token. -/
theorem tokens_cons_blank {b : Char} (hb : Text.isBlank b = true) (cs : List Char) :
    tokens (b :: cs) = if b = ' ' || b = '\t' then tokens cs else .other :: tokens cs := by
  have halnum := not_isAlphanum_of_isBlank hb
  have hstart : Text.isNameStart b = false := by
    simp_all [Text.isNameStart, Char.isAlphanum, ne_of_isBlank hb (c := '_') rfl]
  have hdigit : b.isDigit = false := by
    simp_all [Char.isAlphanum]
  rw [tokens]
  · simp [ne_of_isBlank hb (c := '(') rfl, ne_of_isBlank hb (c := ')') rfl,
      ne_of_isBlank hb (c := '!') rfl, hstart, hdigit]
  · exact fun _ h => absurd h (ne_of_isBlank hb rfl)
  · exact fun _ h => absurd h (ne_of_isBlank hb rfl)

/-- Blanks in front of a text without foreign tokens add nothing. -/
theorem tokens_blanks_append {blanks : List Char} (cs : List Char)
    (hblanks : ∀ b ∈ blanks, Text.isBlank b = true) (h : Token.other ∉ tokens (blanks ++ cs)) :
    tokens (blanks ++ cs) = tokens cs := by
  induction blanks with
  | nil => rfl
  | cons b rest ih =>
    rw [List.cons_append, tokens_cons_blank (hblanks b (by simp))] at h ⊢
    by_cases hspace : (b = ' ' || b = '\t') = true
    · rw [if_pos hspace] at h ⊢
      exact ih (fun x hx => hblanks x (by simp [hx])) h
    · rw [if_neg hspace] at h
      simp at h

/-- Blanks behind a text without foreign tokens add nothing. -/
theorem tokens_append_blanks {blanks : List Char} (cs : List Char)
    (hblanks : ∀ b ∈ blanks, Text.isBlank b = true) (h : Token.other ∉ tokens (cs ++ blanks)) :
    tokens (cs ++ blanks) = tokens cs := by
  induction blanks using List.reverseRecOn with
  | nil => rw [List.append_nil]
  | append_singleton rest b ih =>
    have hb : Text.isBlank b = true := hblanks b (by simp)
    rw [← List.append_assoc, tokens_append_blank _ hb] at h ⊢
    have hrest : Token.other ∉ tokens (cs ++ rest) := fun hmem => h (by simp [hmem])
    have hone : tokens [b] = [] := by
      have hcons := tokens_cons_blank hb []
      by_cases hspace : (b = ' ' || b = '\t') = true
      · rw [hcons, if_pos hspace, tokens]
      · rw [hcons, if_neg hspace] at h
        simp at h
    rw [hone, List.append_nil]
    exact ih (fun x hx => hblanks x (by simp [hx])) hrest

/-- Trimming a text keeps its tokens, unless one of them is foreign. -/
theorem tokens_trimmed {cs : List Char} (h : Token.other ∉ tokens cs) :
    tokens (Text.trimmed cs) = tokens cs := by
  have hlead := Text.takeWhile_append_skipBlanks cs
  have htrail : Text.skipBlanksEnd (Text.skipBlanks cs)
      ++ ((Text.skipBlanks cs).reverse.takeWhile Text.isBlank).reverse = Text.skipBlanks cs := by
    rw [Text.skipBlanksEnd, Text.dropEndWhile, ← List.reverse_append,
      List.takeWhile_append_dropWhile, List.reverse_reverse]
  have hskip : tokens cs = tokens (Text.skipBlanks cs) := by
    rw [← hlead] at h
    have := tokens_blanks_append (Text.skipBlanks cs) (fun b hb => List.mem_takeWhile_imp hb) h
    rwa [hlead] at this
  rw [hskip] at h ⊢
  rw [← htrail] at h
  have hblanks : ∀ b ∈ ((Text.skipBlanks cs).reverse.takeWhile Text.isBlank).reverse,
      Text.isBlank b = true := by
    intro b hb
    exact List.mem_takeWhile_imp (List.mem_reverse.1 hb)
  have := tokens_append_blanks (Text.trimmed cs) hblanks h
  rw [Text.trimmed] at this ⊢
  rw [← this, htrail]

/-! ## Conditions have no foreign token -/

theorem Derives.other_notMem {truth? : String → Option Bool} {phrase : Phrase} {ts : List Token}
    {e : Expr} (h : Derives truth? phrase ts e) : Token.other ∉ ts := by
  induction h with
  | join joiner _ _ ihChain ihLast => cases joiner <;> simp [ihChain, ihLast, Joiner.token]
  | _ => simp_all

/-- Trimming a text does not change the expression that it reads as. -/
theorem Expr.read_trim {text : String} {e : Expr} (h : Expr.read text = some e) :
    Expr.read (Text.trim text) = some e := by
  rw [Expr.read_eq_some_iff] at h ⊢
  rwa [Text.trim, String.toList_ofList, tokens_trimmed h.other_notMem]

end ShaderMerge.Condition
