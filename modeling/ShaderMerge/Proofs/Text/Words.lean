import ShaderMerge.Proofs.Text.Pieces
import Mathlib.Data.List.Basic

/-!
# The words of a text

The words of a text are its runs of characters that are not blank.  Blanks between two texts part
their words (`words_append_gap`), and a word that is put into a text becomes part of one word of it
(`exists_words_append`).  Blanks at the ends of a text are no part of what is trimmed.
-/

namespace ShaderMerge.Text

variable {p : Char → Bool} {cs front rest gap word : List Char} {c : Char}

/-! ## Cutting at a kind of character -/

theorem splitWhere_append_cons (hc : p c = true) (front rest : List Char) :
    splitWhere p (front ++ c :: rest) = splitWhere p front ++ splitWhere p rest := by
  induction front with
  | nil => rw [List.nil_append, splitWhere, splitWhere, if_pos hc]; rfl
  | cons d front ih =>
    rw [List.cons_append, splitWhere, splitWhere]
    split
    · rw [ih]; rfl
    · rw [ih]
      obtain ⟨piece, pieces, hpieces⟩ := List.exists_cons_of_ne_nil (splitWhere_ne_nil p front)
      rw [hpieces]
      rfl

/-- A text without characters of the kind becomes the start of a piece. -/
theorem splitWhere_append_of_forall (h : ∀ c ∈ front, p c = false) (rest : List Char) :
    splitWhere p (front ++ rest) = (splitWhere p rest).modifyHead (front ++ ·) := by
  obtain ⟨piece, pieces, hpieces⟩ := List.exists_cons_of_ne_nil (splitWhere_ne_nil p rest)
  induction front with
  | nil => rw [List.nil_append, hpieces]; rfl
  | cons c front ih =>
    obtain ⟨hc, hfront⟩ := List.forall_mem_cons.1 h
    rw [List.cons_append, splitWhere, if_neg (by simp [hc]), ih hfront, hpieces]
    rfl

/-- The pieces of a text in front are the first ones, and the last of them goes on behind it. -/
theorem exists_splitWhere_append (p : Char → Bool) (front : List Char) :
    ∃ pieces last, splitWhere p front = pieces ++ [last] ∧
      ∀ rest, splitWhere p (front ++ rest) = pieces ++ (splitWhere p rest).modifyHead (last ++ ·) := by
  induction front with
  | nil =>
    refine ⟨[], [], rfl, fun rest => ?_⟩
    obtain ⟨piece, pieces, hpieces⟩ := List.exists_cons_of_ne_nil (splitWhere_ne_nil p rest)
    rw [List.nil_append, hpieces]
    rfl
  | cons c front ih =>
    obtain ⟨pieces, last, hfront, hrest⟩ := ih
    simp only [List.cons_append, splitWhere, hfront, hrest]
    split
    · exact ⟨[] :: pieces, last, rfl, fun rest => rfl⟩
    · cases pieces with
      | cons piece pieces => exact ⟨(c :: piece) :: pieces, last, rfl, fun rest => rfl⟩
      | nil =>
        refine ⟨[], c :: last, rfl, fun rest => ?_⟩
        obtain ⟨piece, pieces, hpieces⟩ := List.exists_cons_of_ne_nil (splitWhere_ne_nil p rest)
        rw [hpieces]
        rfl

theorem flatten_splitWhere (p : Char → Bool) (cs : List Char) :
    (splitWhere p cs).flatten = cs.filter (!p ·) := by
  induction cs with
  | nil => rfl
  | cons c rest ih =>
    rw [splitWhere]
    split
    · rename_i hc
      rw [List.flatten_cons, ih, List.nil_append, List.filter_cons_of_neg (by simp [hc])]
    · rename_i hc
      obtain ⟨piece, pieces, hpieces⟩ := List.exists_cons_of_ne_nil (splitWhere_ne_nil p rest)
      rw [hpieces] at ih ⊢
      rw [List.filter_cons_of_pos (by simp [hc]), ← ih]
      rfl

/-! ## Words -/

/-- Whether a text is a word: it is not empty, and has no blanks. -/
def IsDense (cs : List Char) : Prop := cs ≠ [] ∧ ∀ c ∈ cs, isBlank c = false

theorem IsName.isDense (h : IsName cs) : IsDense cs := by
  refine ⟨?_, fun c hc => ?_⟩
  · obtain ⟨c, rest, rfl, -⟩ := h
    exact List.cons_ne_nil c rest
  · by_contra hblank
    have hname := isNameChar_of_isBlank (Bool.not_eq_false _ ▸ hblank)
    rw [h.forall_isNameChar c hc] at hname
    cases hname

theorem words_append_cons (hc : isBlank c = true) (front rest : List Char) :
    words (front ++ c :: rest) = words front ++ words rest := by
  rw [words, splitWhere_append_cons hc, List.filter_append]
  rfl

@[simp]
theorem words_nil : words [] = [] := rfl

/-- Blanks at the start of a text are in no word of it. -/
theorem words_gap_append (hgap : IsBlanks gap) (rest : List Char) :
    words (gap ++ rest) = words rest := by
  induction gap with
  | nil => rfl
  | cons b gap ih =>
    obtain ⟨hb, hgap⟩ := List.forall_mem_cons.1 hgap
    have hcons := words_append_cons hb [] (gap ++ rest)
    rw [List.cons_append]
    rw [List.nil_append, words_nil, List.nil_append] at hcons
    rw [hcons, ih hgap]

/-- **Blanks between two texts part their words.** -/
theorem words_append_gap (hne : gap ≠ []) (hgap : IsBlanks gap) (front rest : List Char) :
    words (front ++ (gap ++ rest)) = words front ++ words rest := by
  obtain ⟨b, gap, rfl⟩ := List.exists_cons_of_ne_nil hne
  obtain ⟨hb, hgap⟩ := List.forall_mem_cons.1 hgap
  rw [List.cons_append, words_append_cons hb, words_gap_append hgap]

theorem words_append_blanks (hgap : IsBlanks gap) (front : List Char) :
    words (front ++ gap) = words front := by
  cases gap with
  | nil => rw [List.append_nil]
  | cons b gap =>
    have happend := words_append_gap (List.cons_ne_nil b gap) hgap front []
    rwa [List.append_nil, words_nil, List.append_nil] at happend

theorem flatten_words (cs : List Char) : (words cs).flatten = cs.filter (!isBlank ·) := by
  rw [words, ← flatten_splitWhere]
  exact List.flatten_filter_not_isEmpty

theorem isDense_of_mem_words (h : word ∈ words cs) : IsDense word := by
  obtain ⟨hmem, hne⟩ := List.mem_filter.1 h
  refine ⟨by simpa using hne, fun c hc => ?_⟩
  have hflatten : c ∈ (splitWhere isBlank cs).flatten := List.mem_flatten.2 ⟨word, hmem, hc⟩
  rw [flatten_splitWhere] at hflatten
  simpa using (List.mem_filter.1 hflatten).2

/-- A word in front of a text becomes part of its first word. -/
theorem exists_words_of_isDense_append (rest : List Char) : ∃ y behind,
    ∀ word, IsDense word → words (word ++ rest) = (word ++ y) :: behind := by
  obtain ⟨y, others, hrest⟩ := List.exists_cons_of_ne_nil (splitWhere_ne_nil isBlank rest)
  refine ⟨y, others.filter (!·.isEmpty), fun word hdense => ?_⟩
  rw [words, splitWhere_append_of_forall hdense.2, hrest, List.modifyHead_cons,
    List.filter_cons_of_pos (by simp [hdense.1])]

/-- **A word that is put into a text becomes part of one word of it.** -/
theorem exists_words_append (front rest : List Char) : ∃ before x y behind,
    before.flatten ++ x = front.filter (!isBlank ·) ∧
      ∀ word, IsDense word →
        words (front ++ (word ++ rest)) = before ++ (x ++ (word ++ y)) :: behind := by
  obtain ⟨pieces, last, hfront, happend⟩ := exists_splitWhere_append isBlank front
  obtain ⟨y, others, hrest⟩ := List.exists_cons_of_ne_nil (splitWhere_ne_nil isBlank rest)
  refine ⟨pieces.filter (!·.isEmpty), last, y, others.filter (!·.isEmpty), ?_, fun word hdense => ?_⟩
  · rw [List.flatten_filter_not_isEmpty, ← flatten_splitWhere, hfront, List.flatten_append,
      List.flatten_singleton]
  · rw [words, happend, splitWhere_append_of_forall hdense.2, hrest, List.modifyHead_cons,
      List.modifyHead_cons, List.filter_append,
      List.filter_cons_of_pos (by simp [hdense.1])]

/-- Without a blank between them, the last word of a text goes on with the word behind it. -/
theorem exists_words_concat (hc : isBlank c = false) (front : List Char) : ∃ before last,
    words (front ++ [c]) = before ++ [last] ∧ ∀ word rest, IsDense word → ∃ y behind,
      words (front ++ [c] ++ (word ++ rest)) = before ++ (last ++ (word ++ y)) :: behind := by
  obtain ⟨pieces, last, -, happend⟩ := exists_splitWhere_append isBlank front
  refine ⟨pieces.filter (!·.isEmpty), last ++ [c], ?_, fun word rest hdense => ?_⟩
  · have hsingle : splitWhere isBlank [c] = [[c]] := by simp [splitWhere, hc]
    rw [words, happend, hsingle, List.filter_append]
    simp
  · obtain ⟨y, others, hrest⟩ := List.exists_cons_of_ne_nil (splitWhere_ne_nil isBlank rest)
    have hall : ∀ d ∈ c :: word, isBlank d = false := List.forall_mem_cons.2 ⟨hc, hdense.2⟩
    refine ⟨y, others.filter (!·.isEmpty), ?_⟩
    rw [List.append_assoc, List.singleton_append, ← List.cons_append, words, happend,
      splitWhere_append_of_forall hall, hrest, List.modifyHead_cons, List.modifyHead_cons,
      List.filter_append, List.filter_cons_of_pos (by simp)]
    simp

/-- A word is its own only word. -/
theorem words_of_isDense (h : IsDense word) : words word = [word] := by
  have hsplit := splitWhere_append_of_forall h.2 []
  rw [List.append_nil] at hsplit
  rw [words, hsplit]
  simp [splitWhere, h.1]

/-- Words joined by spaces are the words of what they make. -/
theorem words_intercalate {pieces : List (List Char)} (h : ∀ piece ∈ pieces, IsDense piece) :
    words (List.intercalate [' '] pieces) = pieces := by
  induction pieces with
  | nil => rfl
  | cons piece pieces ih =>
    obtain ⟨hpiece, hpieces⟩ := List.forall_mem_cons.1 h
    cases pieces with
    | nil => rw [List.intercalate_singleton, words_of_isDense hpiece]
    | cons next pieces =>
      rw [List.intercalate_cons_cons, List.append_assoc,
        words_append_gap (List.cons_ne_nil _ _) (List.forall_mem_singleton.2 (by decide)), ih hpieces,
        words_of_isDense hpiece]
      rfl

theorem words_ne_nil (hmem : c ∈ cs) (hc : isBlank c = false) : words cs ≠ [] := by
  intro hnil
  have hflatten := flatten_words cs
  rw [hnil, List.flatten_nil, eq_comm, List.filter_eq_nil_iff] at hflatten
  exact hflatten c hmem (by simp [hc])

/-- A text of one word without blanks at its ends is that word. -/
theorem isDense_of_words (h : words cs = [word]) (hhead : ∀ c ∈ cs.head?, isBlank c = false)
    (hlast : ∀ c ∈ cs.getLast?, isBlank c = false) : IsDense cs := by
  refine ⟨fun hnil => ?_, fun b hb => ?_⟩
  · rw [hnil] at h
    cases h
  by_contra hblank
  rw [Bool.not_eq_false] at hblank
  -- A blank inside of the text parts it into two texts that both have a word.
  obtain ⟨front, back, rfl⟩ := List.append_of_mem hb
  rw [words_append_cons hblank] at h
  have hfront : words front ≠ [] := by
    cases front with
    | nil =>
      rw [hhead b rfl] at hblank
      cases hblank
    | cons c front => exact words_ne_nil List.mem_cons_self (hhead c rfl)
  have hback : words back ≠ [] := by
    obtain rfl | ⟨back, c, rfl⟩ := List.eq_nil_or_concat' back
    · rw [hlast b (by simp)] at hblank
      cases hblank
    · rw [← List.cons_append, ← List.append_assoc] at hlast
      exact words_ne_nil (List.mem_append_right _ List.mem_cons_self) (hlast c List.getLast?_concat)
  have hlength := congrArg List.length h
  rw [List.length_append, List.length_singleton] at hlength
  have := List.length_pos_iff.2 hfront
  have := List.length_pos_iff.2 hback
  omega

/-! ## Trimming -/

theorem trimmed_gap_append (hgap : IsBlanks gap) (rest : List Char) :
    trimmed (gap ++ rest) = trimmed rest := by
  rw [trimmed, trimmed, skipBlanks, List.dropWhile_append_of_pos hgap]
  rfl

theorem skipBlanksEnd_append_blanks (hgap : IsBlanks gap) (front : List Char) :
    skipBlanksEnd (front ++ gap) = skipBlanksEnd front := by
  rw [skipBlanksEnd, skipBlanksEnd, dropEndWhile, dropEndWhile, List.reverse_append,
    List.dropWhile_append_of_pos fun c hc => hgap c (List.mem_reverse.1 hc)]

theorem trimmed_append_blanks (hgap : IsBlanks gap) (front : List Char) :
    trimmed (front ++ gap) = trimmed front := by
  cases h : skipBlanks front with
  | nil =>
    have hfront : IsBlanks front := List.dropWhile_eq_nil_iff.1 h
    rw [trimmed_gap_append hfront, trimmed, trimmed, h, skipBlanks, List.dropWhile_eq_nil_iff.2 hgap]
  | cons c rest =>
    have hskip : skipBlanks (front ++ gap) = skipBlanks front ++ gap := by
      rw [skipBlanks, List.dropWhile_append, if_neg]
      · rfl
      · rw [← skipBlanks, h]
        simp
    rw [trimmed, hskip, skipBlanksEnd_append_blanks hgap]
    rfl

/-- A text that does not end in a character of the kind is kept. -/
theorem dropEndWhile_eq_self_iff : dropEndWhile p cs = cs ↔ ∀ c ∈ cs.getLast?, p c = false := by
  rw [dropEndWhile, List.reverse_eq_iff]
  obtain rfl | ⟨front, c, rfl⟩ := List.eq_nil_or_concat' cs
  · simp
  · rw [List.reverse_concat, List.getLast?_concat, List.dropWhile_eq_self_iff]
    simp

/-- A text without blanks at its ends is trimmed. -/
theorem trimmed_of_ends (hhead : ∀ c ∈ cs.head?, isBlank c = false)
    (hlast : ∀ c ∈ cs.getLast?, isBlank c = false) : trimmed cs = cs := by
  have hskip : skipBlanks cs = cs := by
    cases cs with
    | nil => rfl
    | cons c rest => rw [skipBlanks, List.dropWhile_cons_of_neg (by simp [hhead c rfl])]
  rw [trimmed, hskip, skipBlanksEnd, dropEndWhile_eq_self_iff.2 hlast]

theorem trimmed_of_forall (h : ∀ c ∈ cs, isBlank c = false) : trimmed cs = cs :=
  trimmed_of_ends (fun c hc => h c (List.mem_of_head? hc)) fun c hc => h c (List.mem_of_getLast? hc)

theorem trimmed_of_isDense (h : IsDense word) : trimmed word = word := trimmed_of_forall h.2

/-- What is trimmed away are blanks. -/
theorem exists_trimmed (cs : List Char) : ∃ gap gap', IsBlanks gap ∧ IsBlanks gap' ∧
    gap ++ (trimmed cs ++ gap') = cs := by
  refine ⟨cs.takeWhile isBlank, ((skipBlanks cs).reverse.takeWhile isBlank).reverse,
    fun c hc => List.mem_takeWhile_imp hc,
    fun c hc => List.mem_takeWhile_imp (List.mem_reverse.1 hc), ?_⟩
  rw [trimmed, skipBlanksEnd, dropEndWhile, ← List.reverse_append, List.takeWhile_append_dropWhile,
    List.reverse_reverse, takeWhile_append_skipBlanks]

/-- A trimmed text does not end in a blank. -/
theorem isBlank_getLast_trimmed (hc : c ∈ (trimmed cs).getLast?) : isBlank c = false := by
  rw [trimmed, skipBlanksEnd, dropEndWhile, List.getLast?_reverse] at hc
  exact stops_dropWhile isBlank _ c hc

theorem trimmed_trimmed (cs : List Char) : trimmed (trimmed cs) = trimmed cs := by
  obtain ⟨gap, gap', hgap, hgap', heq⟩ := exists_trimmed cs
  have hcs : trimmed cs = trimmed (gap ++ (trimmed cs ++ gap')) := congrArg trimmed heq.symm
  rw [trimmed_gap_append hgap, trimmed_append_blanks hgap'] at hcs
  exact hcs.symm

end ShaderMerge.Text
