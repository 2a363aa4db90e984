import Mathlib.Data.List.Infix
import ShaderMerge.Proofs.Signature.Parentheses
import ShaderMerge.Proofs.Variant.SignatureDirectives

/-!
# What is edited in a line of a body

In the body of a vertex stage the value of a return statement is wrapped where blanks stand between the
keyword and the value and the statement ends with the line (`wrapsReturn_wrapReturnIn`).  In the body of
a geometry stage the argument of the first call on the stream is wrapped where its parenthesis closes on
the line (`wrapsAppend_wrapAppendIn`).  Any other line stays as it is: one with a value directly behind
the keyword, or one on which a statement or a call only starts.
-/

namespace ShaderMerge.Variant.BodyEdit

open Signature (closing? Closes)

/-! ## Return statements -/

/-- A line that ends with a return statement: with its keyword as a word, blanks, a value and a
semicolon.  `before` is the character in front of the line, if there is one. -/
structure Returns (before : Option Char) (line front blanks value : List Char) : Prop where
  text : line = front ++ ("return".toList ++ (blanks ++ (value ++ [';'])))
  word : Text.isBoundary (front.getLast?.or before) (some 'r') = true
  apart : blanks ≠ [] ∧ ∀ c ∈ blanks, Text.isBlank c = true
  valued : value ≠ []
  single : '\n' ∉ front ∧ '\n' ∉ value

/-- What is made of a line of a vertex stage. -/
structure WrapsReturn (line edited : List Char) : Prop where
  /-- The value of the first return statement that ends the line is wrapped, and nothing else
  changes. -/
  wrapped : ∀ front blanks value, Returns none line front blanks value →
    (∀ c, value.head? = some c → Text.isBlank c = false) →
    (∀ front' blanks' value', Returns none line front' blanks' value' →
      front.length ≤ front'.length) →
    edited = front ++ ("return".toList ++ (blanks ++ (BodyEdit.wrapped .vertex value ++ [';'])))
  /-- A line without a return statement that ends it is kept. -/
  kept : (∀ front blanks value, ¬Returns none line front blanks value) → edited = line

section

variable {cs line blanks value front edited : List Char} {before : Option Char}

theorem closedValue?_eq_some_iff : closedValue? cs = some value ↔
    cs = value ++ [';'] ∧ value ≠ [] ∧ '\n' ∉ value := by
  rw [closedValue?]
  constructor
  · intro h
    split at h
    · rename_i reversed heq
      split at h
      · cases h
      · rename_i hvalue
        cases h
        rw [Bool.not_eq_true, Bool.or_eq_false_iff, List.isEmpty_eq_false_iff] at hvalue
        refine ⟨?_, by simpa using hvalue.1, by simpa using hvalue.2⟩
        rw [← List.reverse_reverse cs, heq, List.reverse_cons]
    · cases h
  · rintro ⟨rfl, hvalue, hsingle⟩
    rw [List.reverse_append]
    simp [hvalue, hsingle]

/-- Blanks and a value behind them. -/
theorem blanksAndValue?_eq_none (h : blanksAndValue? cs = none) (hapart : blanks ≠ [])
    (hblank : ∀ c ∈ blanks, Text.isBlank c = true) (hvalued : value ≠ []) (hsingle : '\n' ∉ value) :
    cs ≠ blanks ++ (value ++ [';']) := by
  rintro rfl
  induction blanks with
  | nil => exact hapart rfl
  | cons b blanks ih =>
    obtain ⟨hb, hblanks⟩ := List.forall_mem_cons.1 hblank
    rw [List.cons_append, blanksAndValue?, if_pos hb] at h
    split at h
    · cases h
    · rename_i hrest
      cases blanks with
      | nil =>
        rw [List.nil_append, closedValue?_eq_some_iff.2 ⟨rfl, hvalued, hsingle⟩] at h
        cases h
      | cons b' blanks => exact ih (List.cons_ne_nil _ _) hblanks hrest

theorem blanksAndValue?_append (hapart : blanks ≠ [])
    (hblank : ∀ c ∈ blanks, Text.isBlank c = true) (hvalued : value ≠ []) (hsingle : '\n' ∉ value)
    (hhead : ∀ c, value.head? = some c → Text.isBlank c = false) :
    blanksAndValue? (blanks ++ (value ++ [';'])) = some (blanks, value) := by
  obtain ⟨v, vs, rfl⟩ := List.exists_cons_of_ne_nil hvalued
  have hv := hhead v rfl
  have hstop : blanksAndValue? (v :: vs ++ [';']) = none := by
    rw [List.cons_append, blanksAndValue?, if_neg (by simp [hv])]
  induction blanks with
  | nil => exact absurd rfl hapart
  | cons b blanks ih =>
    obtain ⟨hb, hblanks⟩ := List.forall_mem_cons.1 hblank
    rw [List.cons_append, blanksAndValue?, if_pos hb]
    cases blanks with
    | nil => rw [List.nil_append, hstop, closedValue?_eq_some_iff.2 ⟨rfl, hvalued, hsingle⟩]; rfl
    | cons b' blanks => rw [ih (List.cons_ne_nil _ _) hblanks]

theorem returns_cons {c : Char} : Returns before (c :: cs) (c :: front) blanks value ↔
    c ≠ '\n' ∧ Returns (some c) cs front blanks value := by
  have hlast : (c :: front).getLast?.or before = front.getLast?.or (some c) := by
    cases front with
    | nil => rfl
    | cons d front =>
      rw [List.getLast?_cons_cons, List.getLast?_eq_some_getLast (List.cons_ne_nil d front)]
      rfl
  constructor
  · rintro ⟨htext, hword, hapart, hvalued, hfront, hvalue⟩
    rw [List.mem_cons, not_or] at hfront
    rw [hlast] at hword
    exact ⟨Ne.symm hfront.1, (List.cons.inj htext).2, hword, hapart, hvalued, hfront.2, hvalue⟩
  · rintro ⟨hc, rfl, hword, hapart, hvalued, hfront, hvalue⟩
    refine ⟨rfl, hlast ▸ hword, hapart, hvalued, ?_, hvalue⟩
    rw [List.mem_cons, not_or]
    exact ⟨Ne.symm hc, hfront⟩

/-- A statement at the start of a text. -/
theorem after?_of_returns (h : Returns before cs [] blanks value) :
    Text.after? "return" cs = some (blanks ++ (value ++ [';'])) ∧
      Text.isBoundary before cs.head? = true := by
  obtain ⟨rfl, hword, -, -, -⟩ := h
  exact ⟨Text.after?_eq_some_iff.2 rfl, hword⟩

/-- What is found is a statement. -/
theorem returns_of_blanksAndValue? (hword : Text.isBoundary before cs.head? = true)
    (h : (Text.after? "return" cs).bind blanksAndValue? = some (blanks, value)) :
    Returns before cs [] blanks value := by
  obtain ⟨rest, hrest, hfound⟩ := Option.bind_eq_some_iff.1 h
  obtain rfl := Text.after?_eq_some_iff.1 hrest
  have hparts : rest = blanks ++ (value ++ [';']) ∧ (blanks ≠ [] ∧
      ∀ c ∈ blanks, Text.isBlank c = true) ∧ value ≠ [] ∧ '\n' ∉ value := by
    clear hrest h hword
    induction rest generalizing blanks with
    | nil => cases hfound
    | cons c rest ih =>
      rw [blanksAndValue?] at hfound
      split at hfound
      · rename_i hc
        split at hfound
        · rename_i blanks' value' hrest
          cases hfound
          obtain ⟨rfl, ⟨-, hblanks⟩, hvalued, hsingle⟩ := ih hrest
          exact ⟨rfl, ⟨List.cons_ne_nil _ _, List.forall_mem_cons.2 ⟨hc, hblanks⟩⟩, hvalued, hsingle⟩
        · obtain ⟨value', hclosed, heq⟩ := Option.map_eq_some_iff.1 hfound
          cases heq
          obtain ⟨rfl, hvalued, hsingle⟩ := closedValue?_eq_some_iff.1 hclosed
          exact ⟨rfl, ⟨List.cons_ne_nil _ _, List.forall_mem_singleton.2 hc⟩, hvalued, hsingle⟩
      · cases hfound
  obtain ⟨rfl, hapart, hvalued, hsingle⟩ := hparts
  exact ⟨rfl, hword, hapart, hvalued, List.not_mem_nil, hsingle⟩

/-- The statement that starts a text, if one does. -/
theorem returnedValue?_cons (before : Option Char) (c : Char) (cs : List Char) :
    (∃ blanks value, Returns before (c :: cs) [] blanks value ∧
      returnedValue? before (c :: cs) = some ("return".toList ++ blanks, value)) ∨
    (∀ blanks value, ¬Returns before (c :: cs) [] blanks value) ∧
      returnedValue? before (c :: cs) = if c = '\n' then none
        else (returnedValue? (some c) cs).map fun (front, value) => (c :: front, value) := by
  cases hfound : (if Text.isBoundary before (some c) then
      (Text.after? "return" (c :: cs)).bind blanksAndValue? else none) with
  | some found =>
    obtain ⟨blanks, value⟩ := found
    refine .inl ⟨blanks, value, ?_, by simp only [returnedValue?, hfound]⟩
    split at hfound
    · rename_i hword
      exact returns_of_blanksAndValue? hword hfound
    · cases hfound
  | none =>
    refine .inr ⟨fun blanks value hreturns => ?_, by simp only [returnedValue?, hfound]⟩
    obtain ⟨hafter, hword⟩ := after?_of_returns hreturns
    rw [List.head?_cons] at hword
    rw [if_pos hword, hafter, Option.bind_some] at hfound
    exact blanksAndValue?_eq_none hfound hreturns.apart.1 hreturns.apart.2 hreturns.valued
      hreturns.single.2 rfl

/-- The first statement is found, with all blanks in front of its value. -/
theorem returnedValue?_of_returns (h : Returns before cs front blanks value)
    (hhead : ∀ c, value.head? = some c → Text.isBlank c = false)
    (hfirst : ∀ front' blanks' value', Returns before cs front' blanks' value' →
      front.length ≤ front'.length) :
    returnedValue? before cs = some (front ++ ("return".toList ++ blanks), value) := by
  induction front generalizing before cs with
  | nil =>
    have hall := blanksAndValue?_append h.apart.1 h.apart.2 h.valued h.single.2 hhead
    obtain ⟨hafter, hword⟩ := after?_of_returns h
    cases cs with
    | nil => cases hafter
    | cons c cs =>
      simp only [List.head?_cons] at hword
      simp only [returnedValue?, hword, if_true, hafter, Option.bind_some, hall, List.nil_append]
  | cons c front ih =>
    cases cs with
    | nil =>
      have hlength := congrArg List.length h.text
      simp at hlength
    | cons d cs =>
      obtain rfl : d = c := (List.cons.inj h.text).1
      obtain ⟨hc, hrest⟩ := returns_cons.1 h
      rcases returnedValue?_cons before d cs with ⟨blanks', value', hnil, -⟩ | ⟨-, heq⟩
      · exact absurd (hfirst _ _ _ hnil) (by simp)
      · rw [heq, if_neg hc, ih hrest]
        · rfl
        · intro front' blanks' value' hreturns
          have hle := hfirst _ _ _ (returns_cons.2 ⟨hc, hreturns⟩)
          simpa using hle

/-- What is found is a statement that ends the text. -/
theorem exists_returns {first : List Char} (h : returnedValue? before cs = some (first, value)) :
    ∃ front blanks, Returns before cs front blanks value := by
  induction cs generalizing before first with
  | nil => cases h
  | cons c cs ih =>
    rcases returnedValue?_cons before c cs with ⟨blanks, value', hreturns, hsome⟩ | ⟨-, hrest⟩
    · rw [h] at hsome
      cases hsome
      exact ⟨[], blanks, hreturns⟩
    · rw [h] at hrest
      split at hrest
      · cases hrest
      · rename_i hc
        obtain ⟨⟨first', value'⟩, hfound, heq⟩ := Option.map_eq_some_iff.1 hrest.symm
        cases heq
        obtain ⟨front, blanks, hreturns⟩ := ih hfound
        exact ⟨c :: front, blanks, returns_cons.2 ⟨hc, hreturns⟩⟩

/-- **The value of a return statement is wrapped** where the statement ends with its line and blanks
stand in front of the value. -/
theorem wrapsReturn_wrapReturnIn (line : List Char) : WrapsReturn line (wrapReturnIn line) where
  wrapped front blanks value h hhead hfirst := by
    rw [wrapReturnIn, returnedValue?_of_returns h hhead hfirst]
    simp
  kept hnone := by
    rw [wrapReturnIn]
    split
    · rename_i hfound
      obtain ⟨front, blanks, hreturns⟩ := exists_returns hfound
      exact absurd hreturns (hnone front blanks _)
    · rfl

end

/-! ## Calls on a stream -/

/-- A line that calls a stream to append, with the text behind the opening parenthesis. -/
structure Calls (stream : String) (line front rest : List Char) : Prop where
  text : line = front ++ ((stream ++ ".Append(").toList ++ rest)
  /-- No call stands in front of this one. -/
  first : ∀ front' rest', line = front' ++ ((stream ++ ".Append(").toList ++ rest') →
    front.length ≤ front'.length

/-- What is made of a line of a geometry stage. -/
structure WrapsAppend (stream : String) (line edited : List Char) : Prop where
  /-- The argument of the first call is wrapped if its parenthesis closes on the line, and nothing else
  changes. -/
  wrapped : ∀ front argument after, Calls stream line front (argument ++ ')' :: after) →
    Closes 0 argument →
    edited = front ++ ((stream ++ ".Append(").toList
      ++ (BodyEdit.wrapped .geometry argument ++ ')' :: after))
  /-- A line on which no call closes is kept. -/
  kept : (∀ front argument after, Calls stream line front (argument ++ ')' :: after) →
    ¬Closes 0 argument) → edited = line

section

variable {pattern cs front rest : List Char} {stream : String}

theorem splitAtFirst?_spec (hpattern : pattern ≠ []) (cs : List Char) :
    (∃ front rest, Text.splitAtFirst? pattern cs = some (front, rest) ∧
      cs = front ++ (pattern ++ rest) ∧
      ∀ front' rest', cs = front' ++ (pattern ++ rest') → front.length ≤ front'.length) ∨
    Text.splitAtFirst? pattern cs = none ∧ ∀ front rest, cs ≠ front ++ (pattern ++ rest) := by
  induction cs with
  | nil =>
    refine .inr ⟨?_, fun front rest heq => ?_⟩
    · rw [Text.splitAtFirst?, if_neg (by simpa using hpattern)]
    · have hnil := List.append_eq_nil_iff.1 heq.symm
      exact hpattern (List.append_eq_nil_iff.1 hnil.2).1
  | cons c cs ih =>
    rw [Text.splitAtFirst?]
    split
    · rename_i hprefix
      obtain ⟨rest, hrest⟩ := List.isPrefixOf_iff_prefix.1 hprefix
      refine .inl ⟨[], rest, ?_, hrest.symm, fun _ _ _ => Nat.zero_le _⟩
      rw [← hrest, List.drop_left]
    · rename_i hprefix
      -- Where the pattern does not start the text, it stands in the rest of it.
      have hinner : ∀ front rest, c :: cs = front ++ (pattern ++ rest) →
          ∃ front', front = c :: front' ∧ cs = front' ++ (pattern ++ rest) := by
        intro front rest heq
        cases front with
        | nil => exact absurd (List.isPrefixOf_iff_prefix.2 ⟨rest, heq.symm⟩) hprefix
        | cons d front =>
          obtain ⟨rfl, hcs⟩ := List.cons.inj heq
          exact ⟨front, rfl, hcs⟩
      rcases ih with ⟨front, rest, hsome, heq, hfirst⟩ | ⟨hnone, hno⟩
      · refine .inl ⟨c :: front, rest, by rw [hsome]; rfl, by rw [heq]; rfl, ?_⟩
        intro front' rest' heq'
        obtain ⟨front'', rfl, hcs⟩ := hinner front' rest' heq'
        exact Nat.succ_le_succ (hfirst front'' rest' hcs)
      · refine .inr ⟨by rw [hnone]; rfl, fun front rest heq => ?_⟩
        obtain ⟨front', -, hcs⟩ := hinner front rest heq
        exact hno front' rest hcs

theorem append_ne_nil (stream : String) : (stream ++ ".Append(").toList ≠ [] := by
  rw [String.toList_append]
  exact List.append_ne_nil_of_right_ne_nil _ (by decide)

/-- The first call is the one that is found. -/
theorem calls_iff : Calls stream cs front rest ↔
    Text.splitAtFirst? (stream ++ ".Append(").toList cs = some (front, rest) := by
  rcases splitAtFirst?_spec (append_ne_nil stream) cs with
    ⟨front', rest', hsome, heq, hfirst⟩ | ⟨hnone, hno⟩
  · rw [hsome]
    constructor
    · rintro ⟨htext, hleast⟩
      have hlength := Nat.le_antisymm (hleast _ _ heq) (hfirst _ _ htext)
      rw [heq] at htext
      obtain ⟨rfl, hrest⟩ := List.append_inj htext hlength.symm
      rw [List.append_cancel_left hrest]
    · intro h
      cases h
      exact ⟨heq, hfirst⟩
  · rw [hnone]
    constructor
    · intro h
      exact absurd h.text (hno _ _)
    · intro h
      cases h

/-- **The argument of the first call on the stream is wrapped** where its parenthesis closes on the
line. -/
theorem wrapsAppend_wrapAppendIn (stream : String) (line : List Char) :
    WrapsAppend stream line (wrapAppendIn stream line) where
  wrapped front argument after h hcloses := by
    have hclosing : closing? 0 (argument ++ ')' :: after) = some (argument, after) :=
      Signature.closing?_eq_some_iff.2 ⟨rfl, hcloses⟩
    simp only [wrapAppendIn, calls_iff.1 h, hclosing, List.append_assoc]
  kept hnone := by
    simp only [wrapAppendIn]
    split
    · rfl
    · rename_i front rest hsplit
      split
      · rfl
      · rename_i argument after hclosing
        obtain ⟨rfl, hcloses⟩ := Signature.closing?_eq_some_iff.1 hclosing
        exact absurd hcloses (hnone _ _ _ (calls_iff.2 hsplit))

end

end ShaderMerge.Variant.BodyEdit
