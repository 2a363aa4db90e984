import ShaderMerge.Proofs.Condition.Trim
import ShaderMerge.Proofs.LogicalLine.Comments
import ShaderMerge.Proofs.Text.Words

/-!
# Places in a line

A place in a line is given by what stands in front of it: it is in code or in a literal (`Spot`), and
at some depth of parentheses (`Place`).

In a bare text (`IsBare`) no mark of a comment stands in code, and it ends in code.  A line without its
comments is bare, up to a literal that is left open (`isBare_stripComments`), and there is nothing to
take out of a bare text (`stripComments_of_isBare`).  A bare text may be cut at places in code and
trimmed without a comment coming up.
-/

namespace ShaderMerge.LogicalLine

open Text

/-- Where a text ends, as far as literals go. -/
inductive Spot where
  /-- In code. -/
  | code
  /-- In a literal. -/
  | literal
  /-- In a literal, behind a backslash that escapes the next character. -/
  | escape
deriving DecidableEq

/-- The spot behind one character more. -/
def Spot.step : Spot → Char → Spot
  | .code, c => if c = '"' then .literal else .code
  | .literal, c => if c = '\\' then .escape else if c = '"' then .code else .literal
  | .escape, _ => .literal

/-- The spot behind a text. -/
def Spot.behind (s : Spot) (cs : List Char) : Spot := cs.foldl Spot.step s

/-- How much deeper a character leads. -/
def Spot.deeper (s : Spot) (c : Char) : Int :=
  if s = .code then (if c = '(' then 1 else if c = ')' then -1 else 0) else 0

/-- A place in a text: the spot, and the number of parentheses that are open there, below zero when
more have closed. -/
@[ext]
structure Place where
  /-- The spot. -/
  spot : Spot
  /-- The depth of parentheses. -/
  depth : Int

namespace Place

/-- The place in front of a text. -/
def start : Place := ⟨.code, 0⟩

/-- The place behind one character more. -/
def step (p : Place) (c : Char) : Place := ⟨p.spot.step c, p.depth + p.spot.deeper c⟩

/-- The place behind a text. -/
def behind (p : Place) (cs : List Char) : Place := cs.foldl step p

/-- Whether a place is outside of literals and parentheses. -/
def IsTop (p : Place) : Prop := p.spot = .code ∧ p.depth ≤ 0

instance (p : Place) : Decidable p.IsTop := inferInstanceAs (Decidable (_ ∧ _))

/-- The place, when the text started at a depth. -/
def shift (p : Place) (base : Int) : Place := ⟨p.spot, p.depth + base⟩

end Place

/-- Whether a text that starts at a spot has no mark of a comment in code, and ends in code. -/
def IsBare : Spot → List Char → Prop
  | s, [] => s = .code
  | s, c :: rest => (s = .code → startsComment (c :: rest) = false) ∧ IsBare (s.step c) rest

variable {c : Char} {cs front back gap rest : List Char} {s : Spot} {p : Place} {mode : Mode}

/-! ## Spots and places -/

theorem Spot.behind_append (s : Spot) (front back : List Char) :
    s.behind (front ++ back) = (s.behind front).behind back :=
  List.foldl_append

theorem Spot.step_code (quote : c ≠ '"') : Spot.step .code c = .code := if_neg quote

theorem Spot.step_literal (quote : c ≠ '"') (backslash : c ≠ '\\') :
    Spot.step .literal c = .literal := by
  rw [Spot.step, if_neg backslash, if_neg quote]

/-- Blanks neither start nor end a literal. -/
theorem Spot.behind_blanks (hgap : IsBlanks gap) : s.behind gap = .code ↔ s = .code := by
  induction gap generalizing s with
  | nil => rfl
  | cons b gap ih =>
    obtain ⟨hb, hgap⟩ := List.forall_mem_cons.1 hgap
    have hquote : b ≠ '"' := Condition.ne_of_isBlank hb (by decide)
    have hbackslash : b ≠ '\\' := Condition.ne_of_isBlank hb (by decide)
    refine (ih hgap).trans ?_
    cases s with
    | code => simp [Spot.step_code hquote]
    | literal => simp [Spot.step_literal hquote hbackslash]
    | escape => simp [Spot.step]

namespace Place

theorem behind_append (p : Place) (front back : List Char) :
    p.behind (front ++ back) = (p.behind front).behind back :=
  List.foldl_append

theorem behind_concat (p : Place) (cs : List Char) (c : Char) :
    p.behind (cs ++ [c]) = (p.behind cs).step c :=
  List.foldl_concat step p c cs

theorem spot_behind (p : Place) (cs : List Char) : (p.behind cs).spot = p.spot.behind cs := by
  induction cs generalizing p with
  | nil => rfl
  | cons c cs ih => exact ih (p.step c)

theorem step_shift (p : Place) (base : Int) (c : Char) :
    (p.shift base).step c = (p.step c).shift base :=
  Place.ext rfl (Int.add_right_comm p.depth base (p.spot.deeper c))

/-- Blanks in code lead nowhere. -/
theorem start_behind_blanks (hgap : IsBlanks gap) : start.behind gap = start := by
  induction gap with
  | nil => rfl
  | cons b gap ih =>
    obtain ⟨hb, hgap⟩ := List.forall_mem_cons.1 hgap
    have hdeeper : Spot.deeper .code b = 0 := by
      rw [Spot.deeper, if_pos rfl, if_neg (Condition.ne_of_isBlank hb (by decide)),
        if_neg (Condition.ne_of_isBlank hb (by decide))]
    have hstep : start.step b = start := by
      refine Place.ext (Spot.step_code (Condition.ne_of_isBlank hb (by decide))) ?_
      exact (congrArg (0 + ·) hdeeper).trans (Int.add_zero 0)
    rw [← List.singleton_append, behind_append]
    exact (congrArg (behind · gap) hstep).trans (ih hgap)

end Place

/-! ## Bare texts -/

theorem startsComment_of_append (h : startsComment (front ++ back) = false) :
    startsComment front = false := by
  cases hfront : startsComment front with
  | false => rfl
  | true =>
    obtain ⟨rest, rfl | rfl⟩ := exists_startsComment hfront
    · cases h
    · cases h

theorem IsBare.behind (h : IsBare s cs) : s.behind cs = .code := by
  induction cs generalizing s with
  | nil => exact h
  | cons c cs ih => exact ih h.2

/-- The rest of a bare text is bare. -/
theorem IsBare.right (h : IsBare s (front ++ back)) : IsBare (s.behind front) back := by
  induction front generalizing s with
  | nil => exact h
  | cons c front ih => exact ih h.2

/-- A bare text may be cut in code. -/
theorem IsBare.left (h : IsBare s (front ++ back)) (hfront : s.behind front = .code) :
    IsBare s front := by
  induction front generalizing s with
  | nil => exact hfront
  | cons c front ih => exact ⟨fun hs => startsComment_of_append (h.1 hs), ih h.2 hfront⟩

theorem IsBare.trimmed (h : IsBare .code cs) : IsBare .code (trimmed cs) := by
  obtain ⟨gap, gap', hgap, hgap', hcs⟩ := exists_trimmed cs
  rw [← hcs] at h
  have hright := h.right
  rw [(Spot.behind_blanks hgap).2 rfl] at hright
  refine hright.left ((Spot.behind_blanks hgap').1 ?_)
  rw [← Spot.behind_append]
  exact hright.behind

/-! ## Lines without their comments -/

/-- The spot at which the scanner of comments goes on: what it leaves of a comment is code. -/
def Mode.spot : Mode → Spot
  | .literal => .literal
  | _ => .code

/-- What is left of code starts like the code, if not with the space for a comment. -/
theorem head?_stripComments_code : ∀ cs d, (stripComments .code cs).1.head? = some d →
    d = ' ' ∨ cs.head? = some d := by
  have hcomment : ∀ cs d, (stripComments .comment cs).1.head? = some d → d = ' ' := by
    intro cs d
    obtain ⟨body, rest, rfl, hbody⟩ | hopen := ended_or_unended cs
    · rw [stripComments_endComment hbody]
      exact fun h => (Option.some.inj h).symm
    · rw [stripComments_isUnended hopen]
      exact nofun
  intro cs d h
  cases cs with
  | nil => cases h
  | cons c rest =>
    by_cases hquote : c = '"'
    · subst hquote
      rw [stripComments] at h
      exact .inr h
    · cases hmark : startsComment (c :: rest) with
      | false =>
        rw [stripComments_code_cons hquote hmark] at h
        exact .inr h
      | true =>
        obtain ⟨behind, heq | heq⟩ := exists_startsComment hmark
        · rw [heq, stripComments] at h
          cases h
        · rw [heq, stripComments] at h
          exact .inl (hcomment behind d h)

/-- The sign in front of what is left makes no mark of a comment with it. -/
theorem startsComment_cons_stripComments (h : startsComment (c :: rest) = false) :
    startsComment (c :: (stripComments .code rest).1) = false := by
  cases hmark : startsComment (c :: (stripComments .code rest).1) with
  | false => rfl
  | true =>
    have hhead : ∀ d tail, d ≠ ' ' → (stripComments .code rest).1 = d :: tail →
        ∃ behind, rest = d :: behind := by
      intro d tail hspace heq
      obtain hd | hd := head?_stripComments_code rest d (by rw [heq]; rfl)
      · exact absurd hd hspace
      · exact List.head?_eq_some_iff.1 hd
    obtain ⟨tail, heq | heq⟩ := exists_startsComment hmark
    · obtain ⟨rfl, hleft⟩ := List.cons.inj heq
      obtain ⟨behind, rfl⟩ := hhead '/' tail (by decide) hleft
      cases h
    · obtain ⟨rfl, hleft⟩ := List.cons.inj heq
      obtain ⟨behind, rfl⟩ := hhead '*' tail (by decide) hleft
      cases h

/-- **What the scanner of comments leaves is bare**, unless it ends in a literal. -/
theorem isBare_stripComments (mode : Mode) (cs : List Char) :
    (stripComments mode cs).2 = .literal ∨ IsBare mode.spot (stripComments mode cs).1 := by
  fun_induction stripComments mode cs with
  | case1 mode =>
    cases mode with
    | literal => exact .inl rfl
    | code => exact .inr rfl
    | comment => exact .inr rfl
  | case2 rest left mode heq ih =>
    -- A block comment ends: the space for it stands in code.
    rw [heq] at ih
    exact ih.imp_right fun h => ⟨fun _ => rfl, h⟩
  | case3 _ rest _ ih => exact ih
  | case4 c rest left mode heq ih =>
    -- An escaped character, behind its backslash.
    rw [heq] at ih
    exact ih.imp_right fun h => ⟨nofun, nofun, h⟩
  | case5 rest left mode heq ih =>
    -- A literal ends.
    rw [heq] at ih
    exact ih.imp_right fun h => ⟨nofun, h⟩
  | case6 c rest hescaped hquote left mode heq ih =>
    by_cases hbackslash : c = '\\'
    · -- A backslash that escapes nothing is the last character of an open literal.
      cases rest with
      | nil =>
        rw [stripComments] at heq
        cases heq
        exact .inl rfl
      | cons d rest => exact absurd rfl (hescaped d rest hbackslash)
    · rw [heq] at ih
      refine ih.imp_right fun h => ⟨nofun, ?_⟩
      show IsBare (Spot.literal.step c) left
      rwa [Spot.step_literal hquote hbackslash]
  | case7 tail => exact .inr rfl
  | case8 rest ih => exact ih
  | case9 rest left mode heq ih =>
    -- A literal starts.
    rw [heq] at ih
    exact ih.imp_right fun h => ⟨fun _ => rfl, h⟩
  | case10 c rest hline hblock hquote left mode heq ih =>
    have hmark : startsComment (c :: rest) = false := by
      rw [Bool.eq_false_iff]
      intro hmark
      obtain ⟨tail, heq | heq⟩ := exists_startsComment hmark
      · exact hline tail (List.cons.inj heq).1 (List.cons.inj heq).2
      · exact hblock tail (List.cons.inj heq).1 (List.cons.inj heq).2
    have hleft := startsComment_cons_stripComments hmark
    rw [heq] at ih hleft
    refine ih.imp_right fun h => ⟨fun _ => hleft, ?_⟩
    show IsBare (Spot.code.step c) left
    rwa [Spot.step_code hquote]

/-- **Nothing is taken out of a bare text.** -/
theorem stripComments_of_isBare : ∀ cs, (IsBare .code cs → stripComments .code cs = (cs, .code)) ∧
    (IsBare .literal cs → stripComments .literal cs = (cs, .code))
  | [] => ⟨fun _ => rfl, nofun⟩
  | c :: rest => by
    have ih := stripComments_of_isBare rest
    constructor
    · rintro ⟨hmark, h⟩
      by_cases hquote : c = '"'
      · subst hquote
        rw [stripComments, ih.2 h]
      · rw [Spot.step_code hquote] at h
        rw [stripComments_code_cons hquote (hmark rfl), ih.1 h]
    · rintro ⟨-, h⟩
      by_cases hquote : c = '"'
      · subst hquote
        rw [stripComments, ih.1 h]
      · by_cases hbackslash : c = '\\'
        · subst hbackslash
          cases rest with
          | nil => cases h
          | cons d rest =>
            have hrest := (stripComments_of_isBare rest).2 h.2
            rw [stripComments_literal_escaped, hrest]
        · rw [Spot.step_literal hquote hbackslash] at h
          rw [stripComments_literal_plain hquote hbackslash, ih.2 h]

end ShaderMerge.LogicalLine
