import ShaderMerge.Proofs.Variant.Writer

/-!
# The lines that give a shader its structure

A structural line is a brace of its own or the marker of a block.  All characters of such a line are
braces, semicolons and upper-case letters, so that one other character is enough to tell a line from
them (`isStructural_of_mem`).  With it the edits of single lines are seen to make no structural line
and to destroy none: a command with constants in it, a property that becomes a texture array, and
a statement in the body of an entry point.
-/

namespace ShaderMerge.Variant

open Include (isMarker isProgramStart isBlockEnd)

/-- Whether a line is an opening or closing brace. -/
def isBrace (line : String) : Bool := line = "\x7b" || line = "\x7d" || line = "\x7d;"

/-- Whether a line is a brace or a marker. -/
def isStructural (line : String) : Bool := isBrace line || isMarker line

/-- What a line adds to the number of open braces. -/
def braces (line : String) : Int :=
  if line = "\x7b" then 1 else if line = "\x7d" || line = "\x7d;" then -1 else 0

/-- How many more braces some lines open than they close. -/
def balance : List String → Int
  | [] => 0
  | line :: rest => braces line + balance rest

/-- Whether a character may stand in a structural line. -/
def isStructuralChar (c : Char) : Bool := c == '{' || c == '}' || c == ';' || c.isUpper

/-! ## Telling lines apart -/

theorem isStructuralChar_of_isStructural {line : String} (h : isStructural line = true) :
    ∀ c ∈ line.toList, isStructuralChar c = true := by
  simp only [isStructural, isBrace, isMarker, isProgramStart, isBlockEnd, Bool.or_eq_true,
    decide_eq_true_eq] at h
  rcases h with ((rfl | rfl) | rfl) | ((rfl | rfl) | (rfl | rfl)) <;>
    exact List.all_eq_true.1 (by decide)

/-- A character that no structural line has. -/
theorem isStructural_of_mem {line : String} {c : Char} (hmem : c ∈ line.toList)
    (hc : isStructuralChar c = false) : isStructural line = false := by
  rw [Bool.eq_false_iff]
  intro h
  rw [isStructuralChar_of_isStructural h c hmem] at hc
  cases hc

/-- The same, for a line that is given by its characters. -/
theorem isStructural_ofList {cs : List Char} {c : Char} (hmem : c ∈ cs)
    (hc : isStructuralChar c = false) : isStructural (String.ofList cs) = false :=
  isStructural_of_mem (by rw [String.toList_ofList]; exact hmem) hc

/-- Whether some character of a text is in no structural line. -/
def hasPlainChar (text : String) : Bool := text.toList.any (!isStructuralChar ·)

theorem hasPlainChar_append (first second : String) :
    hasPlainChar (first ++ second) = (hasPlainChar first || hasPlainChar second) := by
  rw [hasPlainChar, String.toList_append, List.any_append]
  rfl

theorem hasPlainChar_append_left {first : String} (second : String)
    (h : hasPlainChar first = true) : hasPlainChar (first ++ second) = true := by
  rw [hasPlainChar_append, h, Bool.true_or]

theorem hasPlainChar_append_right (first : String) {second : String}
    (h : hasPlainChar second = true) : hasPlainChar (first ++ second) = true := by
  rw [hasPlainChar_append, h, Bool.or_true]

/-- The first character of a literal tells enough, or else the second one does. -/
theorem hasPlainChar_of_head {c : Char} {cs : List Char} (h : isStructuralChar c = false) :
    hasPlainChar (String.ofList (c :: cs)) = true := by
  rw [hasPlainChar, String.toList_ofList, List.any_cons, h]
  rfl

theorem hasPlainChar_of_second {c d : Char} {cs : List Char} (h : isStructuralChar d = false) :
    hasPlainChar (String.ofList (c :: d :: cs)) = true := by
  rw [hasPlainChar, String.toList_ofList, List.any_cons, List.any_cons, h]
  exact Bool.or_true _

theorem isStructural_of_hasPlainChar {line : String} (h : hasPlainChar line = true) :
    isStructural line = false := by
  obtain ⟨c, hmem, hc⟩ := List.any_eq_true.1 h
  exact isStructural_of_mem hmem (by simpa using hc)

theorem braces_eq_zero {line : String} (h : isStructural line = false) : braces line = 0 := by
  simp only [isStructural, isBrace, Bool.or_eq_false_iff, decide_eq_false_iff_not] at h
  rw [braces, if_neg h.1.1.1, if_neg (by simp [h.1.1.2, h.1.2])]

theorem isMarker_eq_false {line : String} (h : isStructural line = false) :
    isMarker line = false := by
  rw [isStructural, Bool.or_eq_false_iff] at h
  exact h.2

/-! ## Balance -/

@[simp]
theorem balance_nil : balance [] = 0 := rfl

@[simp]
theorem balance_cons (line : String) (lines : List String) :
    balance (line :: lines) = braces line + balance lines := rfl

@[simp]
theorem balance_append (first second : List String) :
    balance (first ++ second) = balance first + balance second := by
  induction first with
  | nil => exact (Int.zero_add _).symm
  | cons line rest ih => rw [List.cons_append, balance_cons, balance_cons, ih, Int.add_assoc]

/-- Only the structural lines count. -/
theorem balance_filter (lines : List String) :
    balance (lines.filter isStructural) = balance lines := by
  induction lines with
  | nil => rfl
  | cons line rest ih =>
    cases h : isStructural line with
    | true => rw [List.filter_cons_of_pos h, balance_cons, balance_cons, ih]
    | false =>
      rw [List.filter_cons_of_neg (by simp [h]), balance_cons, braces_eq_zero h, ih, Int.zero_add]

/-- Lines that open as many braces as they close, and have no markers. -/
structure Neutral (lines : List String) : Prop where
  balance_eq : balance lines = 0
  plain : ∀ line ∈ lines, isMarker line = false

namespace Neutral

variable {lines first second : List String} {line : String}

theorem nil : Neutral [] := ⟨rfl, by simp⟩

theorem of_plain (h : ∀ line ∈ lines, isStructural line = false) : Neutral lines where
  balance_eq := by
    induction lines with
    | nil => rfl
    | cons line rest ih =>
      rw [balance_cons, braces_eq_zero (h line List.mem_cons_self),
        ih fun l hl => h l (List.mem_cons_of_mem line hl)]
      rfl
  plain line hline := isMarker_eq_false (h line hline)

theorem of_plainChars (h : ∀ line ∈ lines, hasPlainChar line = true) : Neutral lines :=
  of_plain fun line hline => isStructural_of_hasPlainChar (h line hline)

theorem of_map {α : Type} {f : α → String} (l : List α) (h : ∀ a ∈ l, hasPlainChar (f a) = true) :
    Neutral (l.map f) := by
  apply of_plainChars
  intro line hline
  obtain ⟨a, ha, rfl⟩ := List.mem_map.1 hline
  exact h a ha

theorem single (h : hasPlainChar line = true) : Neutral [line] :=
  of_plainChars fun l hl => by rw [List.mem_singleton.1 hl, h]

theorem append (hfirst : Neutral first) (hsecond : Neutral second) : Neutral (first ++ second) where
  balance_eq := by rw [balance_append, hfirst.balance_eq, hsecond.balance_eq]; rfl
  plain line hline := by
    rcases List.mem_append.1 hline with hline | hline
    · exact hfirst.plain line hline
    · exact hsecond.plain line hline

theorem cons (hline : hasPlainChar line = true) (h : Neutral lines) : Neutral (line :: lines) := by
  exact (single hline).append h

/-- Braces around neutral lines. -/
theorem block {close : String} (hclose : close = "\x7d" ∨ close = "\x7d;") (h : Neutral lines) :
    Neutral ("\x7b" :: (lines ++ [close])) where
  balance_eq := by
    rw [balance_cons, balance_append, h.balance_eq]
    rcases hclose with rfl | rfl <;> decide
  plain line hline := by
    rw [List.mem_cons, List.mem_append, List.mem_singleton] at hline
    rcases hline with rfl | hline | rfl
    · decide
    · exact h.plain line hline
    · rcases hclose with rfl | rfl <;> decide

theorem flatMap {α : Type} {f : α → List String} (l : List α) (h : ∀ a ∈ l, Neutral (f a)) :
    Neutral (l.flatMap f) := by
  induction l with
  | nil => exact nil
  | cons a rest ih =>
    rw [List.flatMap_cons]
    exact append (h a List.mem_cons_self) (ih fun b hb => h b (List.mem_cons_of_mem a hb))

end Neutral

/-! ## Numbers -/

theorem isStructuralChar_of_isDigit {c : Char} (h : c.isDigit = true) :
    isStructuralChar c = false := by
  rw [Char.isDigit, Bool.and_eq_true, decide_eq_true_eq, decide_eq_true_eq] at h
  obtain ⟨hlow, hhigh⟩ := h
  have hbraces : c ≠ '{' ∧ c ≠ '}' ∧ c ≠ ';' := by
    refine ⟨?_, ?_, ?_⟩ <;> rintro rfl <;> revert hhigh <;> decide
  have hupper : c.isUpper = false := by
    refine decide_eq_false ?_
    rintro ⟨hle, -⟩
    exact absurd (UInt32.le_trans hle hhigh) (by decide)
  rw [isStructuralChar, hupper]
  simp [hbraces]

/-- Every number is written with a character that is in no structural line. -/
theorem exists_mem_toDigits (n : Nat) : ∃ c ∈ Nat.toDigits 10 n, isStructuralChar c = false := by
  cases hdigits : Nat.toDigits 10 n with
  | nil => exact absurd hdigits Nat.toDigits_ne_nil
  | cons c rest =>
    have hc : c ∈ Nat.toDigits 10 n := by rw [hdigits]; exact List.mem_cons_self
    exact ⟨c, List.mem_cons_self,
      isStructuralChar_of_isDigit (Nat.isDigit_of_mem_toDigits (by decide) (by decide) hc)⟩

theorem exists_mem_toString_int (n : Int) :
    ∃ c ∈ (toString n).toList, isStructuralChar c = false := by
  cases n with
  | ofNat n =>
    obtain ⟨c, hmem, hc⟩ := exists_mem_toDigits n
    refine ⟨c, ?_, hc⟩
    change c ∈ n.repr.toList
    rw [Nat.toList_repr]
    exact hmem
  | negSucc n =>
    refine ⟨'-', ?_, by decide⟩
    change '-' ∈ ("-" ++ (n + 1).repr).toList
    rw [String.toList_append]
    exact List.mem_append_left _ (by decide)

theorem exists_mem_plain_text (x : Binary32) :
    ∃ c ∈ (NumberLayout.plain.text x).toList, isStructuralChar c = false := by
  rw [NumberLayout.text]
  split
  · exact ⟨'a', by decide, by decide⟩
  · rw [String.toList_ofList]
    have hnumber : ∃ c ∈ NumberLayout.plain.unsignedText x, isStructuralChar c = false := by
      rw [NumberLayout.unsignedText]
      split
      · exact ⟨'i', by decide, by decide⟩
      split
      · exact ⟨'0', by decide, by decide⟩
      obtain ⟨c, hmem, hc⟩ := exists_mem_toDigits x.shortest.1
      simp only [NumberLayout.plain, Option.all_none, if_true, NumberLayout.positionalText]
      split
      · exact ⟨c, by simp [hmem], hc⟩
      · split
        · exact ⟨'.', by simp, by decide⟩
        · exact ⟨'.', by simp, by decide⟩
    obtain ⟨c, hmem, hc⟩ := hnumber
    exact ⟨c, List.mem_append_right _ hmem, hc⟩

/-! ## Lines outside of program blocks -/

/-- A command is the same with its properties replaced, or has a character of what replaces
them. -/
theorem substitute_eq_or_mem {value : String → Option String}
    (hvalue : ∀ name word, value name = some word →
      ∃ c ∈ word.toList, isStructuralChar c = false) (cs : List Char) :
    Command.substitute value cs = cs ∨
      ∃ c ∈ Command.substitute value cs, isStructuralChar c = false := by
  fun_induction Command.substitute value cs with
  | case1 => exact .inl rfl
  | case2 c rest name after found whole ih =>
    right
    cases hword : value (String.ofList name) with
    | none => exact ⟨'[', by simp [whole], by decide⟩
    | some word =>
      obtain ⟨c, hmem, hc⟩ := hvalue _ word hword
      exact ⟨c, by simp [hmem], hc⟩
  | case3 c rest found ih =>
    rcases ih with ih | ⟨d, hmem, hd⟩
    · exact .inl (by rw [ih])
    · exact .inr ⟨d, List.mem_cons_of_mem c hmem, hd⟩

theorem isStructural_command {r : Request} {line : String} (h : isStructural line = false) :
    isStructural (r.command line) = false := by
  have hvalue : ∀ name word, r.substitution.inCommand? name = some word →
      ∃ c ∈ word.toList, isStructuralChar c = false := by
    intro name word hword
    obtain ⟨value, -, hvalue⟩ := Option.bind_eq_some_iff.1 hword
    cases value with
    | float v =>
      cases hvalue
      exact exists_mem_plain_text v
    | int v =>
      cases hvalue
      exact exists_mem_toString_int v.toInt
    | vector v => cases hvalue
  rw [Request.command]
  rcases substitute_eq_or_mem hvalue line.toList with heq | ⟨c, hmem, hc⟩
  · rw [heq, String.ofList_toList]
    exact h
  · exact isStructural_ofList hmem hc

theorem isStructural_propertyLine {r : Request} {line : String} (h : isStructural line = false) :
    isStructural (r.propertyLine line).2 = false := by
  simp only [Request.propertyLine]
  split
  · exact h
  · split
    · refine isStructural_ofList (c := '2') ?_ (by decide)
      simp [PropertyLine.text, PropertyLine.toTextureArray, PropertyHead.text]
    · exact h

theorem isStructural_outerText {r : Request} {w : Writer} {line : String}
    (h : isStructural line = false) : isStructural (w.outerText r line) = false := by
  rw [Writer.outerText]
  split
  · exact isStructural_propertyLine h
  · exact isStructural_command h

/-! ## Lines of a body -/

theorem wrapReturnIn_eq_or_mem (cs : List Char) :
    BodyEdit.wrapReturnIn cs = cs ∨ 'o' ∈ BodyEdit.wrapReturnIn cs := by
  rw [BodyEdit.wrapReturnIn]
  split
  · right
    simp [BodyEdit.wrapped, CarrierRole.wrapper]
  · exact .inl rfl

theorem wrapAppendIn_eq_or_mem (stream : String) (cs : List Char) :
    BodyEdit.wrapAppendIn stream cs = cs ∨ 'o' ∈ BodyEdit.wrapAppendIn stream cs := by
  simp only [BodyEdit.wrapAppendIn]
  split
  · exact .inl rfl
  · split
    · exact .inl rfl
    · right
      simp [BodyEdit.wrapped, CarrierRole.wrapper]

/-- A statement of a body is the same behind an edit, or is not structural. -/
theorem apply_eq_or_plain (edit : BodyEdit) (line : String) :
    edit.apply line = line ∨ isStructural (edit.apply line) = false := by
  have hplain : ∀ cs : List Char, (cs = line.toList ∨ 'o' ∈ cs) →
      String.ofList cs = line ∨ isStructural (String.ofList cs) = false := by
    rintro cs (rfl | hmem)
    · exact .inl String.ofList_toList
    · exact .inr (isStructural_ofList hmem (by decide))
  cases edit with
  | keep => exact .inl rfl
  | wrapReturn => exact hplain _ (wrapReturnIn_eq_or_mem line.toList)
  | wrapAppend stream => exact hplain _ (wrapAppendIn_eq_or_mem stream line.toList)

end ShaderMerge.Variant
