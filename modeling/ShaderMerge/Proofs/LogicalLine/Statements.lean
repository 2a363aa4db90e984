import ShaderMerge.Proofs.Condition.Kept
import ShaderMerge.Proofs.LogicalLine.Places

/-!
# Statements

The splitter cuts a bare line at the top: at every brace, and behind every semicolon, that stands
outside of literals and parentheses (`IsAt.step_cases`).  Between two cuts the text has no place for a
cut (`IsUncut`), so what it writes are logical lines (`IsLogical`): braces, and statements with no place
for a cut but behind a semicolon at the end.  Nothing but blanks gets lost (`visible_text_step`).

`split_of_isLogical` is the converse: a logical line is not cut any further.
-/

namespace ShaderMerge.LogicalLine

open Text

/-! ## Places for a cut -/

/-- Whether a line is cut at a character. -/
def isCut (c : Char) : Bool := c == '{' || c == '}' || c == ';'

/-- Whether a text has no place for a cut. -/
def IsUncut (cs : List Char) : Prop :=
  ∀ front c back, cs = front ++ c :: back → (Place.start.behind front).IsTop → isCut c = false

/-- Whether a text has no place for a cut but behind a semicolon at its end. -/
def IsStatement (cs : List Char) : Prop :=
  ∀ front c back, cs = front ++ c :: back → (Place.start.behind front).IsTop → isCut c = true →
    c = ';' ∧ back = []

/-- What a line of a file may be, once its comments are taken out and it is cut. -/
structure IsLogical (line : List Char) : Prop where
  /-- It is not empty. -/
  nonempty : line ≠ []
  /-- It has no blanks at its ends. -/
  trimmed : Text.trimmed line = line
  /-- It has no comments. -/
  bare : IsBare .code line
  /-- It is a directive, a brace, or a statement. -/
  form : line.head? = some '#' ∨ line ∈ [['{'], ['}'], ['}', ';']] ∨ IsStatement line

variable {c : Char} {cs front back rest : List Char} {s : Splitter} {p : Place} {line : String}

theorem isCut_iff : isCut c = true ↔ (c = '{' ∨ c = '}') ∨ c = ';' := by
  simp [isCut]

/-- A character at which the line is cut leads nowhere. -/
theorem Place.IsTop.step_of_isCut (h : p.IsTop) (hcut : isCut c = true) :
    p.step c = Place.start.shift p.depth := by
  obtain ⟨spot, depth⟩ := p
  obtain rfl : spot = .code := h.1
  have hdepth : Place.start.shift depth = ⟨.code, depth⟩ := Place.ext rfl (Int.zero_add depth)
  rw [hdepth]
  obtain (rfl | rfl) | rfl := isCut_iff.1 hcut
  all_goals exact Place.ext rfl (Int.add_zero depth)

/-- The character of a text with one character more is this one or another one. -/
theorem concat_eq_append_cons {d : Char} (h : cs ++ [d] = front ++ c :: back) :
    (front = cs ∧ c = d ∧ back = []) ∨ ∃ back', cs = front ++ c :: back' := by
  obtain rfl | ⟨back, last, rfl⟩ := back.eq_nil_or_concat'
  · obtain ⟨hfront, hlast⟩ := List.append_inj' h rfl
    exact .inl ⟨hfront.symm, (List.cons.inj hlast).1.symm, rfl⟩
  · rw [← List.cons_append, ← List.append_assoc] at h
    exact .inr ⟨back, (List.append_inj' h rfl).1⟩

theorem isUncut_nil : IsUncut [] := by
  intro front c back h
  simp at h

theorem IsUncut.concat (h : IsUncut cs)
    (hlast : (Place.start.behind cs).IsTop → isCut c = false) : IsUncut (cs ++ [c]) := by
  intro front d back heq htop
  obtain ⟨rfl, rfl, rfl⟩ | ⟨back', hcs⟩ := concat_eq_append_cons heq
  · exact hlast htop
  · exact h front d back' hcs htop

theorem IsUncut.isStatement (h : IsUncut cs) : IsStatement cs := by
  intro front c back heq htop hcut
  rw [h front c back heq htop] at hcut
  cases hcut

theorem IsUncut.isStatement_concat (h : IsUncut cs) : IsStatement (cs ++ [';']) := by
  intro front c back heq htop hcut
  obtain ⟨rfl, rfl, rfl⟩ | ⟨back', hcs⟩ := concat_eq_append_cons heq
  · exact ⟨rfl, rfl⟩
  · rw [h front c back' hcs htop] at hcut
    cases hcut

theorem IsStatement.trimmed (h : IsStatement cs) : IsStatement (trimmed cs) := by
  obtain ⟨gap, gap', hgap, -, hcs⟩ := exists_trimmed cs
  intro front c back heq htop hcut
  rw [heq] at hcs
  have hfront : Place.start.behind (gap ++ front) = Place.start.behind front := by
    rw [Place.behind_append, Place.start_behind_blanks hgap]
  have hsplit : cs = (gap ++ front) ++ c :: (back ++ gap') := by
    rw [← hcs]
    simp
  obtain ⟨hc, hback⟩ := h _ c _ hsplit (hfront ▸ htop) hcut
  exact ⟨hc, (List.append_eq_nil_iff.1 hback).1⟩

theorem visible_blanks {gap : List Char} (hgap : IsBlanks gap) : visible gap = [] :=
  List.filter_eq_nil_iff.2 fun c hc => by simp [hgap c hc]

theorem visible_trimmed (cs : List Char) : visible (trimmed cs) = visible cs := by
  obtain ⟨gap, gap', hgap, hgap', hcs⟩ := exists_trimmed cs
  conv_rhs => rw [← hcs, visible_append, visible_append, visible_blanks hgap, visible_blanks hgap']
  rw [List.nil_append, List.append_nil]

theorem isLogical_trimmed (hne : trimmed cs ≠ []) (hbare : IsBare .code cs) (h : IsStatement cs) :
    IsLogical (trimmed cs) :=
  ⟨hne, trimmed_trimmed cs, hbare.trimmed, .inr (.inr h.trimmed)⟩

theorem isLogical_brace (hbrace : cs ∈ [['{'], ['}'], ['}', ';']]) : IsLogical cs := by
  refine ⟨?_, ?_, ?_, .inr (.inl hbrace)⟩
  all_goals
    simp only [List.mem_cons, List.not_mem_nil, or_false] at hbrace
    obtain rfl | rfl | rfl := hbrace
  all_goals first | decide | exact ⟨fun _ => rfl, rfl⟩ | exact ⟨fun _ => rfl, fun _ => rfl, rfl⟩

/-! ## One step -/

namespace Splitter

/-- A splitter that stands at a place. -/
structure IsAt (s : Splitter) (p : Place) : Prop where
  /-- It knows whether it is in a literal. -/
  quoted : s.quoted = decide (p.spot ≠ .code)
  /-- It knows whether the next character is escaped. -/
  escaped : s.escaped = decide (p.spot = .escape)
  /-- It knows how many parentheses are open. -/
  depth : s.depth = p.depth

theorem IsAt.of_eq (h : s.IsAt p) {t : Splitter} (hquoted : t.quoted = s.quoted)
    (hescaped : t.escaped = s.escaped) (hdepth : t.depth = s.depth) : t.IsAt p :=
  ⟨hquoted.trans h.quoted, hescaped.trans h.escaped, hdepth.trans h.depth⟩

theorem isAt_semicolon (h : s.IsAt p) : s.semicolon.IsAt p := by
  rw [semicolon]
  split
  · exact h.of_eq rfl rfl rfl
  · exact h.of_eq rfl rfl rfl

/-- In a literal every character belongs to the statement. -/
theorem IsAt.step_of_quoted (h : s.IsAt p) (hspot : p.spot ≠ .code) (c : Char) :
    (s.step c).IsAt (p.step c) ∧ (s.step c).current = c :: s.current ∧ (s.step c).done = s.done := by
  obtain ⟨spot, depth⟩ := p
  obtain ⟨hquoted, hescaped, hdepth⟩ := h
  have hplace : Place.step ⟨spot, depth⟩ c = ⟨spot.step c, depth⟩ := by
    refine Place.ext rfl ?_
    show depth + spot.deeper c = depth
    rw [Spot.deeper, if_neg hspot, Int.add_zero]
  rw [hplace, Splitter.step, if_pos (hquoted.trans (decide_eq_true hspot))]
  dsimp only [take]
  cases spot with
  | code => exact absurd rfl hspot
  | escape =>
    have hescaped : s.escaped = true := hescaped
    rw [if_pos hescaped]
    exact ⟨⟨hquoted, rfl, hdepth⟩, rfl, rfl⟩
  | literal =>
    have hescaped : s.escaped = false := hescaped
    rw [if_neg (by simp [hescaped]), Spot.step]
    split
    · exact ⟨⟨hquoted, rfl, hdepth⟩, rfl, rfl⟩
    · split
      · exact ⟨⟨rfl, hescaped, hdepth⟩, rfl, rfl⟩
      · exact ⟨⟨hquoted, hescaped, hdepth⟩, rfl, rfl⟩

/-- **What one step does.**  Outside of literals and parentheses a semicolon ends the statement, and a
brace stands alone; any other character belongs to the statement. -/
theorem IsAt.step_cases (h : s.IsAt p) (c : Char) : (s.step c).IsAt (p.step c) ∧
    ((¬ (p.IsTop ∧ isCut c = true) ∧ (s.step c).current = c :: s.current
        ∧ (s.step c).done = s.done) ∨
      (p.IsTop ∧ c = ';' ∧ s.step c = s.semicolon) ∨
      (p.IsTop ∧ (c = '{' ∨ c = '}') ∧ (s.step c).current = [] ∧
        (s.step c).done = String.ofList [c] :: s.flush.done)) := by
  by_cases hspot : p.spot ≠ .code
  · obtain ⟨hat, htaken⟩ := h.step_of_quoted hspot c
    exact ⟨hat, .inl ⟨fun htop => hspot htop.1.1, htaken⟩⟩
  obtain ⟨spot, depth⟩ := p
  obtain rfl : spot = .code := not_not.1 hspot
  obtain ⟨hquoted, hescaped, hdepth⟩ := id h
  rw [Splitter.step, if_neg (by simp [hquoted])]
  by_cases hquote : c = '"'
  · subst hquote
    exact ⟨⟨rfl, hescaped, hdepth.trans (Int.add_zero depth).symm⟩, .inl ⟨nofun, rfl, rfl⟩⟩
  rw [if_neg hquote]
  by_cases hopen : c = '('
  · subst hopen
    exact ⟨⟨hquoted, hescaped, congrArg (· + 1) hdepth⟩, .inl ⟨nofun, rfl, rfl⟩⟩
  rw [if_neg hopen]
  by_cases hclose : c = ')'
  · subst hclose
    exact ⟨⟨hquoted, hescaped, congrArg (· - 1) hdepth⟩, .inl ⟨nofun, rfl, rfl⟩⟩
  -- Any other character leads to the same place.
  have hplace : Place.step ⟨.code, depth⟩ c = ⟨.code, depth⟩ := by
    refine Place.ext (Spot.step_code hquote) ?_
    show depth + Spot.code.deeper c = depth
    rw [Spot.deeper, if_pos rfl, if_neg hopen, if_neg hclose, Int.add_zero]
  rw [if_neg hclose, hplace]
  have hdepth : s.depth = depth := hdepth
  by_cases hdeep : 0 < s.depth
  · rw [if_pos hdeep]
    refine ⟨h.of_eq rfl rfl rfl, .inl ⟨fun htop => ?_, rfl, rfl⟩⟩
    exact absurd (hdepth ▸ hdeep) (Int.not_lt.2 htop.1.2)
  have htop : Place.IsTop ⟨.code, depth⟩ := ⟨rfl, Int.not_lt.1 (hdepth ▸ hdeep)⟩
  rw [if_neg hdeep]
  by_cases hsemicolon : c = ';'
  · rw [if_pos hsemicolon]
    exact ⟨isAt_semicolon h, .inr (.inl ⟨htop, hsemicolon, rfl⟩)⟩
  rw [if_neg hsemicolon]
  by_cases hbrace : c = '{' ∨ c = '}'
  · rw [if_pos (by simpa using hbrace)]
    exact ⟨h.of_eq rfl rfl rfl, .inr (.inr ⟨htop, hbrace, rfl, rfl⟩)⟩
  · rw [if_neg (by simpa using hbrace)]
    exact ⟨h.of_eq rfl rfl rfl,
      .inl ⟨fun hcut => (isCut_iff.1 hcut.2).elim hbrace hsemicolon, rfl, rfl⟩⟩

/-! ## What is read -/

/-- What has been read up to now, as far as it is kept. -/
def text (s : Splitter) : List Char := s.done.reverse.flatMap String.toList ++ s.current.reverse

theorem visible_text_flush (s : Splitter) : visible s.flush.text = visible s.text := by
  rw [text, text, visible_append, visible_append, ← visible_trimmed s.current.reverse, flush]
  cases htext : trimmed s.current.reverse with
  | nil => rfl
  | cons c cs => simp [visible]

theorem text_flush (s : Splitter) : s.flush.text = s.flush.done.reverse.flatMap String.toList :=
  List.append_nil _

theorem text_take (s : Splitter) (c : Char) : (s.take c).text = s.text ++ [c] := by
  simp [text, take]

/-- The semicolon is kept, also where it joins a brace. -/
theorem visible_text_semicolon (s : Splitter) :
    visible s.semicolon.text = visible (s.text ++ [';']) := by
  rw [semicolon]
  split
  · rename_i hjoins
    obtain ⟨hempty, hbrace⟩ := (Bool.and_eq_true_iff.1 hjoins).imp_right eq_of_beq
    obtain ⟨tail, hdone⟩ := List.head?_eq_some_iff.1 hbrace
    have hblank : visible s.current.reverse = [] := by
      rw [visible, List.filter_reverse, ← visible, ← visible_trimmed, List.isEmpty_iff.1 hempty]
      rfl
    simp only [text, hdone, List.tail_cons, List.reverse_cons, List.flatMap_append, visible_append,
      hblank, List.append_assoc]
    rfl
  · rw [visible_text_flush, text_take]

/-- **Nothing gets lost in a step.** -/
theorem visible_text_step (h : s.IsAt p) (c : Char) :
    visible (s.step c).text = visible (s.text ++ [c]) := by
  obtain ⟨-, ⟨-, hcurrent, hdone⟩ | ⟨-, rfl, hstep⟩ | ⟨-, -, hcurrent, hdone⟩⟩ := h.step_cases c
  · rw [← text_take]
    simp only [text, take, hcurrent, hdone]
  · rw [hstep, visible_text_semicolon]
  · rw [text, hcurrent, hdone, visible_append s.text, ← visible_text_flush, ← visible_append,
      text_flush]
    simp

/-! ## What is written -/

/-- A splitter with a bare text in front of it that it cuts into logical lines. -/
structure Reads (s : Splitter) (rest : List Char) : Prop where
  /-- The statement has started outside of literals and parentheses. -/
  place : ∃ base ≤ 0, s.IsAt ((Place.start.behind s.current.reverse).shift base)
  /-- The statement and the rest of the line have no comments. -/
  bare : IsBare .code (s.current.reverse ++ rest)
  /-- The statement has no place for a cut. -/
  uncut : IsUncut s.current.reverse
  /-- The lines so far are logical lines. -/
  logical : ∀ line ∈ s.done, IsLogical line.toList

theorem isLogical_flush (hdone : ∀ line ∈ s.done, IsLogical line.toList)
    (hbare : IsBare .code s.current.reverse) (h : IsStatement s.current.reverse) :
    ∀ line ∈ s.flush.done, IsLogical line.toList := by
  rw [flush]
  cases htext : trimmed s.current.reverse with
  | nil => exact hdone
  | cons c cs =>
    refine List.forall_mem_cons.2 ⟨?_, hdone⟩
    rw [String.toList_ofList, ← htext]
    exact isLogical_trimmed (by simp [htext]) hbare h

/-- Behind a cut a statement starts. -/
theorem Reads.of_cut {t : Splitter} {base : Int} (h : s.Reads (c :: rest))
    (htop : ((Place.start.behind s.current.reverse).shift base).IsTop) (hcut : isCut c = true)
    (hat : t.IsAt (((Place.start.behind s.current.reverse).shift base).step c))
    (hcurrent : t.current = []) (hdone : ∀ line ∈ t.done, IsLogical line.toList) :
    t.Reads rest := by
  have hstart := htop.step_of_isCut hcut
  refine ⟨⟨_, htop.2, ?_⟩, ?_, ?_, hdone⟩
  · rw [hcurrent]
    exact hstart ▸ hat
  · rw [hcurrent]
    have hspot : Spot.behind .code (s.current.reverse ++ [c]) = .code := by
      have hstep := congrArg Place.spot hstart
      rwa [Place.step_shift, ← Place.behind_concat, Place.shift, Place.spot_behind] at hstep
    have hright : IsBare .code ((s.current.reverse ++ [c]) ++ rest) := by
      simpa using h.bare
    exact hspot ▸ hright.right
  · rw [hcurrent]
    exact isUncut_nil

/-- **Every step writes logical lines.** -/
theorem Reads.step (h : s.Reads (c :: rest)) : (s.step c).Reads rest := by
  obtain ⟨base, hbase, hat⟩ := h.place
  have hspot : ((Place.start.behind s.current.reverse).shift base).IsTop →
      Spot.behind .code s.current.reverse = .code :=
    fun htop => (Place.spot_behind Place.start s.current.reverse).symm.trans htop.1
  have hbare : IsBare .code ((s.current.reverse ++ [c]) ++ rest) := by
    simpa using h.bare
  obtain ⟨hstep, ⟨hcut, hcurrent, hdone⟩ | ⟨htop, rfl, heq⟩ | ⟨htop, hbrace, hcurrent, hdone⟩⟩ :=
    hat.step_cases c
  · -- The character belongs to the statement.
    refine ⟨⟨base, hbase, ?_⟩, ?_, ?_, by rw [hdone]; exact h.logical⟩
    · rw [hcurrent, List.reverse_cons, Place.behind_concat, ← Place.step_shift]
      exact hstep
    · rw [hcurrent, List.reverse_cons]
      exact hbare
    · rw [hcurrent, List.reverse_cons]
      refine h.uncut.concat fun htop => ?_
      rw [Bool.eq_false_iff]
      exact fun hc => hcut ⟨⟨htop.1, Int.add_nonpos htop.2 hbase⟩, hc⟩
  · -- A semicolon joins a brace, or ends the statement.
    refine h.of_cut htop rfl hstep ?_ ?_
    · rw [heq, semicolon]
      split
      · rfl
      · rfl
    · rw [heq, semicolon]
      split
      · exact List.forall_mem_cons.2 ⟨isLogical_brace (by decide),
          fun line hline => h.logical line (List.mem_of_mem_tail hline)⟩
      · refine isLogical_flush h.logical ?_ ?_
        · rw [take, List.reverse_cons]
          refine hbare.left ?_
          rw [Spot.behind_append, hspot htop]
          rfl
        · rw [take, List.reverse_cons]
          exact h.uncut.isStatement_concat
  · -- A brace ends the statement and stands alone.
    refine h.of_cut htop (isCut_iff.2 (.inl hbrace)) hstep hcurrent ?_
    rw [hdone]
    refine List.forall_mem_cons.2 ⟨?_, isLogical_flush h.logical ?_ h.uncut.isStatement⟩
    · rw [String.toList_ofList]
      obtain rfl | rfl := hbrace
      · exact isLogical_brace (by decide)
      · exact isLogical_brace (by decide)
    · exact h.bare.left (hspot htop)

theorem Reads.foldl_step (h : s.Reads cs) : (cs.foldl Splitter.step s).Reads [] := by
  induction cs generalizing s with
  | nil => exact h
  | cons c cs ih => exact ih h.step

theorem Reads.visible_foldl_step (h : s.Reads cs) :
    visible (cs.foldl Splitter.step s).text = visible (s.text ++ cs) := by
  induction cs generalizing s with
  | nil => rw [List.append_nil]; rfl
  | cons c cs ih =>
    obtain ⟨base, -, hat⟩ := h.place
    rw [List.foldl_cons, ih h.step, visible_append, visible_text_step hat, ← visible_append,
      List.append_assoc, List.singleton_append]

theorem reads_start {done : List String} (hdone : ∀ line ∈ done, IsLogical line.toList)
    (hbare : IsBare .code cs) : (start done).Reads cs :=
  ⟨⟨0, Int.le_refl 0, rfl, rfl, rfl⟩, hbare, isUncut_nil, hdone⟩

/-- **A bare line is cut into logical lines**, and nothing but blanks gets lost. -/
theorem split_of_isBare {done : List String} (hdone : ∀ line ∈ done, IsLogical line.toList)
    (hbare : IsBare .code cs) : (∀ line ∈ split done cs, IsLogical line.toList) ∧
      visible ((split done cs).reverse.flatMap String.toList)
        = visible (done.reverse.flatMap String.toList) ++ visible cs := by
  have hreads := reads_start hdone hbare
  have hend := hreads.foldl_step
  constructor
  · refine isLogical_flush hend.logical ?_ hend.uncut.isStatement
    simpa using hend.bare
  · rw [split, ← text_flush, visible_text_flush, hreads.visible_foldl_step, visible_append]
    simp [text, start]

/-! ## Logical lines are not cut again -/

/-- A text without a place for a cut is read into one statement. -/
theorem foldl_step_of_isUncut (h : IsUncut cs) :
    (cs.foldl step (start [])).IsAt (Place.start.behind cs) ∧
      (cs.foldl step (start [])).current = cs.reverse ∧ (cs.foldl step (start [])).done = [] := by
  induction cs using List.reverseRecOn with
  | nil => exact ⟨⟨rfl, rfl, rfl⟩, rfl, rfl⟩
  | append_singleton cs c ih =>
    have hcs : IsUncut cs := fun front d back heq => h front d (back ++ [c]) (by rw [heq]; simp)
    obtain ⟨hat, hcurrent, hdone⟩ := ih hcs
    rw [List.foldl_concat, Place.behind_concat, List.reverse_concat]
    have huncut : ¬ ((Place.start.behind cs).IsTop ∧ isCut c = true) := by
      rintro ⟨htop, hc⟩
      rw [h cs c [] rfl htop] at hc
      cases hc
    obtain ⟨hstep, ⟨-, hcurrent', hdone'⟩ | ⟨htop, rfl, -⟩ | ⟨htop, hbrace, -⟩⟩ := hat.step_cases c
    · exact ⟨hstep, by rw [hcurrent', hcurrent], hdone'.trans hdone⟩
    · exact absurd ⟨htop, rfl⟩ huncut
    · exact absurd ⟨htop, isCut_iff.2 (.inl hbrace)⟩ huncut

/-- A statement has no place for a cut, or just one in front of its last character. -/
theorem isUncut_or_of_isStatement (h : IsStatement cs) : IsUncut cs ∨
    ∃ front, cs = front ++ [';'] ∧ IsUncut front ∧ (Place.start.behind front).IsTop := by
  by_cases huncut : IsUncut cs
  · exact .inl huncut
  · simp only [IsUncut, not_forall, Bool.not_eq_false] at huncut
    obtain ⟨front, c, back, heq, htop, hcut⟩ := huncut
    obtain ⟨rfl, rfl⟩ := h front c back heq htop hcut
    refine .inr ⟨front, heq, fun front' d back' hfront htop' => ?_, htop⟩
    rw [Bool.eq_false_iff]
    intro hd
    have hback := h front' d (back' ++ [';']) (by rw [heq, hfront]; simp) htop' hd
    simp at hback

theorem flush_of_trimmed (hne : cs ≠ []) (htrimmed : trimmed cs = cs)
    (hcurrent : s.current = cs.reverse) : s.flush.done = String.ofList cs :: s.done := by
  have hempty : ¬ cs.isEmpty = true := by simpa using hne
  rw [flush, hcurrent, List.reverse_reverse, htrimmed]
  exact if_neg hempty

/-- **A logical line that is no directive is not cut any further.** -/
theorem split_of_isLogical (h : IsLogical cs) (hmark : cs.head? ≠ some '#') :
    split [] cs = [String.ofList cs] := by
  obtain hdirective | hbrace | hstatement := h.form
  · exact absurd hdirective hmark
  · simp only [List.mem_cons, List.not_mem_nil, or_false] at hbrace
    obtain rfl | rfl | rfl := hbrace
    all_goals rfl
  · obtain huncut | ⟨front, rfl, hfront, htop⟩ := isUncut_or_of_isStatement hstatement
    · obtain ⟨-, hcurrent, hdone⟩ := foldl_step_of_isUncut huncut
      rw [split, flush_of_trimmed h.nonempty h.trimmed hcurrent, hdone]
    · obtain ⟨hat, hcurrent, hdone⟩ := foldl_step_of_isUncut hfront
      rw [split, List.foldl_concat]
      generalize front.foldl step (start []) = s at hat hcurrent hdone ⊢
      obtain ⟨-, ⟨hcut, -⟩ | ⟨-, -, hstep⟩ | ⟨-, hbrace, -⟩⟩ := hat.step_cases ';'
      · exact absurd ⟨htop, rfl⟩ hcut
      · have hsemicolon : s.semicolon = (s.take ';').flush := by
          rw [semicolon, hdone]
          exact if_neg (by simp)
        have hflush : (s.take ';').flush.done = String.ofList (front ++ [';']) :: s.done :=
          flush_of_trimmed h.nonempty h.trimmed (by rw [take, hcurrent, List.reverse_concat])
        rw [hstep, hsemicolon]
        exact hflush.trans (by rw [hdone])
      · simp at hbrace

end Splitter

end ShaderMerge.LogicalLine
