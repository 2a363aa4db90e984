import Mathlib.Algebra.GroupWithZero.Nat
import Mathlib.Logic.Function.Iterate
import ShaderMerge.Proofs.Condition.Nesting

/-!
# Every line is accounted for

A filter drops lines in many places: plain lines, and the directives of groups in dead text, which may
be nested in any way.  It counts each of them in the innermost group that is opened in live text, and
writes the count as a note where the dead arm ends.

Main result: `accounts_of_groups_eq_nil`.  Of lines behind which no group is open, each one is live, or
a directive of a group opened in live text, or stands in a dead arm of such a group; the dead arms are
those of the nest (`Nest.deadArms`), and each that is not empty has one note with its length.  What the
filter writes of the directives is balanced.

Both parts of the proof are inductions on the nest.  In dead text (`Nest.isDropped`) the only change is
the count of one outer group.  In live text (`Nest.isRun`) the groups outside are as they were behind
each text and each group, so that an arm begins with the count zero, and ends with the number of its
lines or still with zero.
-/

namespace ShaderMerge.Condition

open Condition.Group (isSkipNote skipNote)

/-! ## What a filter reports and writes -/

namespace Filter

/-- The number of lines that are reported as live. -/
def lives (f : Filter) : List String → Nat
  | [] => 0
  | line :: rest => (if (f.feed line).feed = .live then 1 else 0) + (f.feed line).filter.lives rest

/-- The lines that the filter writes itself. -/
def writes (f : Filter) : List String → List String
  | [] => []
  | line :: rest => (f.feed line).written ++ (f.feed line).filter.writes rest

theorem lives_append (f : Filter) (first second : List String) :
    f.lives (first ++ second) = f.lives first + (f.after first).lives second := by
  induction first generalizing f with
  | nil => exact (Nat.zero_add _).symm
  | cons line rest ih =>
    rw [List.cons_append, lives, ih, lives, Nat.add_assoc]
    rfl

theorem writes_append (f : Filter) (first second : List String) :
    f.writes (first ++ second) = f.writes first ++ (f.after first).writes second := by
  induction first generalizing f with
  | nil => rfl
  | cons line rest ih =>
    rw [List.cons_append, writes, ih, writes, List.append_assoc]
    rfl

end Filter

/-! ## The directives and the dead arms of a text -/

namespace Nest

/-- The number of directives that belong to groups opened in live text, for a filter that reads the
text. -/
def directives {shape : Shape} : Nest shape → Filter → Nat
  | nil, _ => 0
  | line text _ rest, f => rest.directives (f.feed text).filter
  | group opener _ arms rest, f =>
    (if f.isLive then 1 + arms.directives (f.feed opener).filter else 0)
      + rest.directives ((f.feed opener).filter.after arms.lines)
  | next body directive _ rest, f =>
    body.directives f + 1 + rest.directives ((f.after body.lines).feed directive).filter
  | close body _ _, f => body.directives f + 1

/-- The numbers of lines in the dead arms of groups opened in live text, in order, for a filter that
reads the text.  An arm is dead if the filter is not live behind the directive of the arm. -/
def deadArms {shape : Shape} : Nest shape → Filter → List Nat
  | nil, _ => []
  | line text _ rest, f => rest.deadArms (f.feed text).filter
  | group opener _ arms rest, f =>
    (if f.isLive then arms.deadArms (f.feed opener).filter else [])
      ++ rest.deadArms ((f.feed opener).filter.after arms.lines)
  | next body directive _ rest, f =>
    (if f.isLive then body.deadArms f else [body.lines.length])
      ++ rest.deadArms ((f.after body.lines).feed directive).filter
  | close body _ _, f => if f.isLive then body.deadArms f else [body.lines.length]

end Nest

/-! ## Balanced directives -/

/-- The groups that are open behind a line, innermost first, each with whether its last arm has
begun; nothing if the line has no place there. -/
def openBehind? (groups : List Bool) (line : String) : Option (List Bool) :=
  match Control.ofLine line, groups with
  | .openIf _, _ | .openDefined _, _ | .openUndefined _, _ => some (false :: groups)
  | .elseIf _, false :: _ => some groups
  | .otherwise, false :: outer => some (true :: outer)
  | .close, _ :: outer => some outer
  | .elseIf _, _ | .otherwise, _ | .close, _ => none
  | .define _, _ | .undefine _, _ | .plain, _ => some groups

/-- The groups that are open behind some lines. -/
def openAfter? (groups : List Bool) (lines : List String) : Option (List Bool) :=
  lines.foldlM openBehind? groups

/-- Lines whose directives are balanced: every alternative and every end belongs to a group, no arm
follows a last arm, and all groups end. -/
def IsBalanced (lines : List String) : Prop := openAfter? [] lines = some []

section

variable {groups : List Bool} {first second : List String}

theorem openAfter?_append :
    openAfter? groups (first ++ second) = (openAfter? groups first).bind (openAfter? · second) :=
  List.foldlM_append

theorem openBehind?_of_note {line : String} (h : isSkipNote line = true) :
    openBehind? groups line = some groups := by
  simp only [openBehind?, Group.ofLine_of_isSkipNote h]

theorem openAfter?_notes (counts : List Nat) :
    openAfter? groups (counts.map skipNote) = some groups := by
  induction counts with
  | nil => rfl
  | cons count rest ih =>
    rw [List.map_cons, openAfter?, List.foldlM_cons, openBehind?_of_note (Group.isSkipNote_skipNote _)]
    exact ih

end

namespace Group

/-- The groups that are open in the written text, given those outside of a group and whether its last
arm has been written. -/
def opening (g : Group) (hasLast : Bool) (outer : List Bool) : List Bool :=
  if g.written then hasLast :: outer else outer

theorem openAfter?_else (g : Group) (outer : List Bool) :
    openAfter? (g.opening false outer) (if g.written then ["#else"] else [])
      = some (g.opening true outer) := by
  rw [opening, opening]
  split <;> rfl

theorem openAfter?_condition (g : Group) (outer : List Bool) (text : String) :
    openAfter? (g.opening false outer) [(if g.written then "#elif " else "#if ") ++ text]
      = some (false :: outer) := by
  rw [openAfter?, List.foldlM_cons, opening]
  split
  · simp only [openBehind?, ofLine_elif]
    rfl
  · simp only [openBehind?, ofLine_if]
    rfl

theorem openAfter?_endif (g : Group) (hasLast : Bool) (outer : List Bool) :
    openAfter? (g.opening hasLast outer) (if g.written then ["#endif"] else []) = some outer := by
  rw [opening]
  split <;> rfl

/-- A directive that is written for a group with a written directive is no note. -/
theorem isSkipNote_of_mem (g : Group) {directive : String} (h : isSkipNote directive = false) :
    ∀ d ∈ if g.written then [directive] else [], isSkipNote d = false := by
  intro d hd
  split at hd
  · rw [List.mem_singleton.1 hd, h]
  · cases hd

end Group

/-! ## Text that is dropped -/

namespace Filter

/-- A filter that has dropped more lines. -/
def passed (f : Filter) (count : Nat) : Filter := { f with groups := countSkipped^[count] f.groups }

/-- A filter in a group that stands in dead text. -/
def entered (f : Filter) : Filter := { f with groups := .inDeadText :: f.groups }

theorem passed_passed (f : Filter) (first second : Nat) :
    (f.passed first).passed second = f.passed (first + second) := by
  simp only [passed, Nat.add_comm first, Function.iterate_add_apply]

theorem isLive_passed (f : Filter) (count : Nat) : (f.passed count).isLive = f.isLive := by
  rw [isLive_eq, isLive_eq, passed]
  induction count with
  | zero => rfl
  | succ count ih => rw [Function.iterate_succ_apply', Follows.liveIn_countSkipped, ih]

theorem isLive_entered (f : Filter) : f.entered.isLive = false := rfl

theorem entered_passed (f : Filter) (count : Nat) : f.entered.passed count = (f.passed count).entered := by
  induction count with
  | zero => rfl
  | succ count ih =>
    rw [← passed_passed, ih, ← passed_passed]
    rfl

/-- In a dead arm of a group in live text, the lines are counted in that group. -/
theorem groups_passed {f : Filter} {g : Group} {gs : List Group} (hgroups : f.groups = g :: gs)
    (hin : g.inLive = true) (count : Nat) :
    (f.passed count).groups = { g with skipped := g.skipped + count } :: gs := by
  induction count with
  | zero => exact hgroups
  | succ count ih =>
    rw [← passed_passed]
    change countSkipped (f.passed count).groups = _
    rw [ih, countSkipped, if_pos hin, Nat.add_assoc]

end Filter

/-- A filter drops some lines: it counts them and does nothing else. -/
structure Drops (f : Filter) (lines : List String) (f' : Filter) : Prop where
  after : f.after lines = f'
  lives : f.lives lines = 0
  writes : f.writes lines = []

section

variable {f f' f'' : Filter} {line : String} {lines first second : List String}

theorem Drops.nil (f : Filter) : Drops f [] f := ⟨rfl, rfl, rfl⟩

theorem Drops.append (h : Drops f first f') (h' : Drops f' second f'') :
    Drops f (first ++ second) f'' := by
  obtain ⟨rfl, hlives, hwrites⟩ := h
  refine ⟨(f.after_append first second).trans h'.after, ?_, ?_⟩
  · rw [Filter.lives_append, hlives, h'.lives]
  · rw [Filter.writes_append, hwrites, h'.writes, List.append_nil]

theorem Drops.cons (h : f.feed line = ⟨f', [], .consumed⟩) (h' : Drops f' lines f'') :
    Drops f (line :: lines) f'' := by
  refine ⟨?_, ?_, ?_⟩
  · change (f.feed line).filter.after lines = f''
    rw [h, h'.after]
  · rw [Filter.lives, h, h'.lives, if_neg nofun]
  · rw [Filter.writes, h, h'.writes, List.append_nil]

theorem Filter.feed_of_other_of_dead (hdead : f.isLive = false) (h : Role.ofLine line = .other) :
    f.feed line = ⟨f.passed 1, [], .consumed⟩ := by
  have hpass : f.pass = ⟨f.passed 1, [], .consumed⟩ := pass_of_dead hdead
  rcases f.feed_of_other h with hfeed | ⟨name, isDefined, hfeed⟩
  · rw [hfeed, hpass]
  · rw [hfeed, define, if_neg (by simp [hdead]), hpass]

theorem Filter.feed_of_opener_of_dead (hdead : f.isLive = false) (h : Role.ofLine line = .opener) :
    f.feed line = ⟨(f.passed 1).entered, [], .consumed⟩ := by
  obtain ⟨g, value, hfeed, hsame, -⟩ := f.feed_of_opener h
  rw [hfeed, hsame hdead, openGroup, if_neg (by simp [hdead])]
  rfl

theorem Filter.feed_of_alternative_of_entered (h : Role.ofLine line = .alternative) :
    f.entered.feed line = ⟨(f.passed 1).entered, [], .consumed⟩ := by
  obtain ⟨condition, hfeed⟩ := f.entered.feed_of_alternative h
  rw [hfeed]
  exact nextArm_of_dead rfl rfl condition

theorem Filter.feed_of_closer_of_entered (hdead : f.isLive = false) (h : Role.ofLine line = .closer) :
    f.entered.feed line = ⟨f.passed 1, [], .consumed⟩ := by
  rw [f.entered.feed_of_closer h, closeGroup_of_dead rfl rfl]
  exact pass_of_dead hdead

end

namespace Nest

/-- What a filter does to a text in a dead arm, or to the arms of a group there. -/
def IsDropped : {shape : Shape} → Nest shape → Prop
  | .text isInside, nest => isInside = true → ∀ f : Filter, f.isLive = false →
      Drops f nest.lines (f.passed nest.lines.length) ∧ nest.directives f = 0
  | .arms, nest => ∀ f : Filter, f.isLive = false →
      Drops f.entered nest.lines (f.passed nest.lines.length)

theorem isDropped {shape : Shape} (nest : Nest shape) : nest.IsDropped := by
  induction nest with
  | nil => exact fun _ f _ => ⟨.nil f, rfl⟩
  | line text isText rest ih =>
    intro hinside f hdead
    have hother : Role.ofLine text = .other := by
      rcases isText with hother | ⟨houtside, -⟩
      · exact hother
      · rw [hinside] at houtside
        cases houtside
    have hfeed := Filter.feed_of_other_of_dead hdead hother
    obtain ⟨hrest, hnone⟩ := ih hinside (f.passed 1) (by rw [f.isLive_passed, hdead])
    rw [f.passed_passed, Nat.add_comm] at hrest
    refine ⟨.cons hfeed hrest, ?_⟩
    rw [directives, hfeed, hnone]
  | group opener opens arms rest ihArms ihRest =>
    intro hinside f hdead
    -- The group is opened in dead text; its lines count outside of it.
    have hfeed := Filter.feed_of_opener_of_dead hdead opens
    have harms := ihArms (f.passed 1) (by rw [f.isLive_passed, hdead])
    obtain ⟨hrest, hnone⟩ := ihRest hinside ((f.passed 1).passed arms.lines.length)
      (by rw [Filter.isLive_passed, Filter.isLive_passed, hdead])
    refine ⟨?_, ?_⟩
    · have hall := Drops.cons hfeed (harms.append hrest)
      rw [Filter.passed_passed, Filter.passed_passed] at hall
      have hlength : (group opener opens arms rest).lines.length
          = 1 + (arms.lines.length + rest.lines.length) := by
        rw [lines, List.length_cons, List.length_append, Nat.add_comm]
      rw [hlength]
      exact hall
    · rw [directives, hfeed, if_neg (by simp [hdead]), harms.after, hnone]
  | next body directive alternates rest ihBody ihRest =>
    intro f hdead
    obtain ⟨hbody, -⟩ := ihBody rfl f.entered f.isLive_entered
    rw [f.entered_passed] at hbody
    have hrest := ihRest ((f.passed body.lines.length).passed 1)
      (by rw [Filter.isLive_passed, Filter.isLive_passed, hdead])
    have hall := hbody.append (.cons (Filter.feed_of_alternative_of_entered alternates) hrest)
    rw [Filter.passed_passed, Filter.passed_passed] at hall
    have hlength : (next body directive alternates rest).lines.length
        = body.lines.length + (1 + rest.lines.length) := by
      rw [lines, List.length_append, List.length_cons, Nat.add_comm rest.lines.length]
    rw [hlength]
    exact hall
  | close body closer closes ihBody =>
    intro f hdead
    obtain ⟨hbody, -⟩ := ihBody rfl f.entered f.isLive_entered
    rw [f.entered_passed] at hbody
    have hclose := Filter.feed_of_closer_of_entered
      (f := f.passed body.lines.length) (by rw [f.isLive_passed, hdead]) closes
    have hall := hbody.append (.cons hclose (.nil _))
    rw [Filter.passed_passed] at hall
    have hlength : (close body closer closes).lines.length = body.lines.length + 1 := by
      rw [lines, List.length_append, List.length_singleton]
    rw [hlength]
    exact hall

end Nest

/-! ## Text in live arms -/

/-- An account of some lines that a filter reads: they are live, or directives that belong to groups
opened in live text, or lines of dead arms; the lines of each dead arm are in the count of the filter
and in one note, unless there are none. -/
structure Accounts (f : Filter) (lines : List String) (directives : Nat) (arms : List Nat) : Prop where
  length : lines.length = f.lives lines + directives + arms.sum
  skipped : (f.after lines).skippedLines = f.skippedLines + arms.sum
  notes : (f.writes lines).filter isSkipNote = (arms.filter (0 < ·)).map skipNote

section

variable {f f' : Filter} {g : Group} {gs : List Group} {line : String} {lines first second : List String}
  {kept : List String} {directives directives' : Nat} {arms arms' : List Nat} {isInside : Bool}

theorem Accounts.nil (f : Filter) : Accounts f [] 0 [] := ⟨rfl, rfl, rfl⟩

theorem Accounts.append (h : Accounts f first directives arms)
    (h' : Accounts (f.after first) second directives' arms') :
    Accounts f (first ++ second) (directives + directives') (arms ++ arms') where
  length := by
    rw [List.length_append, h.length, h'.length, Filter.lives_append, List.sum_append]
    omega
  skipped := by
    rw [Filter.after_append, h'.skipped, h.skipped, List.sum_append, Nat.add_assoc]
  notes := by
    rw [Filter.writes_append, List.filter_append, h.notes, h'.notes, List.filter_append,
      List.map_append]

theorem Accounts.of_live (h : f.feed line = ⟨f', [], .live⟩) (hskipped : f'.skippedLines = f.skippedLines) :
    Accounts f [line] 0 [] := by
  refine ⟨?_, ?_, ?_⟩
  · rw [Filter.lives, h]
    rfl
  · change (f.feed line).filter.skippedLines = _
    rw [h]
    exact hskipped
  · rw [Filter.writes, h]
    rfl

/-- A line outside of dropped text that is no directive of a group is live. -/
theorem Filter.feed_of_isText (hlive : f.isLive = true) (houtside : isInside = false → f.groups = [])
    (h : IsText isInside line) : ∃ f', f.feed line = ⟨f', [], .live⟩ ∧ f'.groups = f.groups ∧
      f'.skippedLines = f.skippedLines := by
  cases hrole : Role.ofLine line with
  | other =>
    rcases f.feed_of_other hrole with hfeed | ⟨name, isDefined, hfeed⟩
    · exact ⟨f, hfeed.trans (pass_of_live hlive), rfl, rfl⟩
    · exact ⟨_, hfeed.trans (if_pos hlive), rfl, rfl⟩
  | opener => simp [IsText, hrole] at h
  | alternative =>
    have hgroups := houtside (by simpa [IsText, hrole] using h)
    obtain ⟨condition, hfeed⟩ := f.feed_of_alternative hrole
    exact ⟨f, by rw [hfeed, nextArm, hgroups], rfl, rfl⟩
  | closer =>
    have hgroups := houtside (by simpa [IsText, hrole] using h)
    exact ⟨f, by rw [f.feed_of_closer hrole, closeGroup, hgroups], rfl, rfl⟩

/-- The line that opens a group in live text. -/
theorem Filter.feed_of_opener_of_live (hlive : f.isLive = true) (h : Role.ofLine line = .opener) :
    ∃ value f', f.feed line = ⟨f', if value.isKnown then [] else [line], .consumed⟩ ∧
      f'.groups = .opened value :: f.groups ∧ f'.skippedLines = f.skippedLines := by
  obtain ⟨g, value, hfeed, -, hgroups, hskipped⟩ := f.feed_of_opener h
  have hlive' : g.isLive = true := by rw [isLive_eq, hgroups, ← isLive_eq, hlive]
  rw [hfeed, openGroup, if_pos hlive', ← hgroups]
  exact ⟨value, _, rfl, rfl, hskipped⟩

/-! ### The end of an arm -/

/-- What the line that ends an arm of a group comes to, with the directives that are written for it. -/
structure EndsArm (f : Filter) (g : Group) (fed : Fed Filter) (kept : List String) : Prop where
  consumed : fed.feed = .consumed
  written : fed.written = ([g.skipped].filter (0 < ·)).map skipNote ++ kept
  skipped : fed.filter.skippedLines = f.skippedLines + g.skipped
  directives : ∀ d ∈ kept, isSkipNote d = false

/-- An arm that ends leaves nothing to be counted, if lines are dropped in dead arms only. -/
theorem Group.endArm_eq (h : g.arm ≠ .dead → g.skipped = 0) (changes : Frame) :
    (g.endArm changes).1.skipped = 0 ∧
      (g.endArm changes).2 = (([g.skipped].filter (0 < ·)).map skipNote, g.skipped) := by
  rw [endArm]
  split
  · rename_i harm
    have hzero := h (by simp [harm])
    exact ⟨hzero, by rw [hzero]; rfl⟩
  · rename_i harm
    have hzero := h (by simp [harm])
    exact ⟨hzero, by rw [hzero]; rfl⟩
  · split
    · rename_i hzero
      exact ⟨hzero, by rw [hzero]; rfl⟩
    · rename_i hsome
      rw [List.filter_cons_of_pos (by simpa using Nat.pos_of_ne_zero hsome)]
      exact ⟨rfl, rfl⟩

theorem isSkipNote_of_role (h : Role.ofLine line ≠ .other) : isSkipNote line = false := by
  refine Group.isSkipNote_of_ofLine fun hplain => h ?_
  rw [Role.ofLine, hplain]
  rfl

/-- The line that begins the next arm of a group in live text. -/
theorem Filter.nextArm_ends (hgroups : f.groups = g :: gs) (hin : g.inLive = true)
    (hskipped : g.arm ≠ .dead → g.skipped = 0) (condition : Option String) :
    ∃ g' kept, EndsArm f g (f.nextArm condition) kept ∧
      (f.nextArm condition).filter.groups = g' :: gs ∧ g'.inLive = true ∧ g'.skipped = 0 ∧
      ∀ {hasLast : Bool} (outer : List Bool), (hasLast = true → g.anyTaken = true) →
        ∃ hasLast', (hasLast' = true → g'.anyTaken = true) ∧
          openAfter? (g.opening hasLast outer) kept = some (g'.opening hasLast' outer) := by
  obtain ⟨hzero, hended⟩ := Group.endArm_eq hskipped f.scopes.pop.1
  have hlike := g.like_endArm f.scopes.pop.1
  have hin' := hlike.inLive.trans hin
  have hopening : ∀ hasLast outer,
      (g.endArm f.scopes.pop.1).1.opening hasLast outer = g.opening hasLast outer := by
    intro hasLast outer
    rw [Group.opening, hlike.written, Group.opening]
  -- For a dead arm nothing is written.
  have hdead : ∀ {hasLast : Bool} (outer : List Bool), (hasLast = true → g.anyTaken = true) →
      ∃ hasLast', (hasLast' = true → (g.endArm f.scopes.pop.1).1.anyTaken = true) ∧
        openAfter? (g.opening hasLast outer) []
          = some ((g.endArm f.scopes.pop.1).1.opening hasLast' outer) := fun {hasLast} outer hlast =>
    ⟨hasLast, hlike.anyTaken ▸ hlast, (congrArg some (hopening hasLast outer)).symm⟩
  rw [nextArm_of_inLive hgroups hin condition]
  simp only [hended]
  split
  · exact ⟨_, [], ⟨rfl, (List.append_nil _).symm, rfl, nofun⟩, rfl, hin', hzero, hdead⟩
  · rename_i hany
    -- Before an arm was taken, none was written as the last one.
    have hnone : ∀ {hasLast : Bool}, (hasLast = true → g.anyTaken = true) → hasLast = false :=
      fun hlast => Bool.eq_false_iff.2 fun htrue => hany (hlast htrue)
    split
    · exact ⟨_, [], ⟨rfl, (List.append_nil _).symm, rfl, nofun⟩, rfl, hin', hzero, hdead⟩
    · refine ⟨_, _, ⟨rfl, rfl, rfl, g.isSkipNote_of_mem (by decide)⟩, rfl, hin', hzero, ?_⟩
      intro hasLast outer hlast
      obtain rfl := hnone hlast
      exact ⟨true, fun _ => rfl,
        (g.openAfter?_else outer).trans (congrArg some (hopening true outer).symm)⟩
    · refine ⟨_, _, ⟨rfl, rfl, rfl, ?_⟩, rfl, hin', hzero, ?_⟩
      · intro d hd
        rw [List.mem_singleton.1 hd]
        split
        · exact Group.isSkipNote_of_ofLine (by rw [ofLine_elif]; exact nofun)
        · exact Group.isSkipNote_of_ofLine (by rw [ofLine_if]; exact nofun)
      · intro hasLast outer hlast
        obtain rfl := hnone hlast
        exact ⟨false, nofun, g.openAfter?_condition outer _⟩

/-- The line that ends a group in live text. -/
theorem Filter.closeGroup_ends (hgroups : f.groups = g :: gs) (hin : g.inLive = true)
    (hskipped : g.arm ≠ .dead → g.skipped = 0) :
    ∃ kept, EndsArm f g f.closeGroup kept ∧ f.closeGroup.filter.groups = gs ∧
      ∀ (hasLast : Bool) (outer : List Bool),
        openAfter? (g.opening hasLast outer) kept = some outer := by
  obtain ⟨-, hended⟩ := Group.endArm_eq hskipped f.scopes.pop.1
  rw [closeGroup_of_inLive hgroups hin]
  simp only [hended]
  exact ⟨_, ⟨rfl, rfl, rfl, g.isSkipNote_of_mem (by decide)⟩, trivial, g.openAfter?_endif⟩

/-! ### Texts and arms -/

/-- What a filter does to a text in which it is live. -/
structure RunsText (f : Filter) (text : Nest (.text isInside)) : Prop where
  groups : (f.after text.lines).groups = f.groups
  accounts : Accounts f text.lines (text.directives f) (text.deadArms f)
  balanced : ∀ outer, openAfter? outer (f.writes text.lines) = some outer

/-- What a filter does to the rest of a group that is opened in live text. -/
structure RunsArms (f : Filter) (g : Group) (gs : List Group) (arms : Nest .arms) : Prop where
  groups : (f.after arms.lines).groups = gs
  accounts : Accounts f arms.lines (arms.directives f) (arms.deadArms f)
  balanced : ∀ {hasLast : Bool} (outer : List Bool), (hasLast = true → g.anyTaken = true) →
    openAfter? (g.opening hasLast outer) (f.writes arms.lines) = some outer

/-- What a filter does to a nest that stands in live text. -/
def Nest.IsRun : {shape : Shape} → Nest shape → Prop
  | .text isInside, text => ∀ f : Filter, f.isLive = true → (isInside = false → f.groups = []) →
      RunsText f text
  | .arms, arms => ∀ (f : Filter) (g : Group) (gs : List Group), f.groups = g :: gs →
      g.inLive = true → g.skipped = 0 → RunsArms f g gs arms

theorem EndsArm.lives (h : EndsArm f g (f.feed line) kept) : f.lives [line] = 0 := by
  rw [Filter.lives, h.consumed]
  rfl

theorem EndsArm.notes (h : EndsArm f g (f.feed line) kept) :
    (f.writes [line]).filter isSkipNote = ([g.skipped].filter (0 < ·)).map skipNote := by
  have hkept : kept.filter isSkipNote = [] := by
    rw [List.filter_eq_nil_iff]
    intro d hd
    rw [h.directives d hd]
    exact Bool.false_ne_true
  have hnotes : ∀ counts : List Nat, (counts.map skipNote).filter isSkipNote = counts.map skipNote := by
    intro counts
    rw [List.filter_eq_self]
    intro note hnote
    obtain ⟨count, -, rfl⟩ := List.mem_map.1 hnote
    exact Group.isSkipNote_skipNote count
  rw [Filter.writes, h.written, Filter.writes, List.append_nil, List.filter_append, hkept, hnotes,
    List.append_nil]

theorem EndsArm.openAfter?_eq (h : EndsArm f g (f.feed line) kept) (outer : List Bool) :
    openAfter? outer (f.writes [line]) = openAfter? outer kept := by
  rw [Filter.writes, h.written, Filter.writes, List.append_nil, openAfter?_append, openAfter?_notes,
    Option.bind_some]

/-- The text of an arm, with the line that ends the arm.  The lines of a dead arm are counted in its
group up to there. -/
theorem Nest.exists_count {body : Nest (.text true)} (hbody : body.IsRun) (hgroups : f.groups = g :: gs)
    (hin : g.inLive = true) (hzero : g.skipped = 0) :
    ∃ count, (f.after body.lines).groups = { g with skipped := count } :: gs ∧
      (g.arm ≠ .dead → count = 0) ∧ ∀ {line : String} {kept : List String},
        EndsArm (f.after body.lines) { g with skipped := count } ((f.after body.lines).feed line) kept →
        Accounts f (body.lines ++ [line]) (body.directives f + 1)
            (if f.isLive then body.deadArms f else [body.lines.length]) ∧
          ∀ outer, openAfter? outer (f.writes (body.lines ++ [line])) = openAfter? outer kept := by
  cases hlive : f.isLive with
  | true =>
    obtain ⟨hsame, haccounts, hbalanced⟩ := hbody f hlive nofun
    refine ⟨0, ?_, fun _ => rfl, fun {line kept} hends => ⟨?_, fun outer => ?_⟩⟩
    · rw [hsame, hgroups, ← hzero]
    · have hline : Accounts (f.after body.lines) [line] 1 [] := by
        refine ⟨?_, hends.skipped, hends.notes⟩
        rw [hends.lives]
        rfl
      rw [if_pos rfl, ← List.append_nil (body.deadArms f)]
      exact haccounts.append hline
    · rw [Filter.writes_append, openAfter?_append, hbalanced, Option.bind_some, hends.openAfter?_eq]
  | false =>
    -- The count of the group comes to the number of lines, and the note is written behind them.
    obtain ⟨⟨hafter, hlives, hwrites⟩, hnone⟩ := body.isDropped rfl f hlive
    refine ⟨body.lines.length, ?_, fun hdead => ?_, fun {line kept} hends => ⟨?_, fun outer => ?_⟩⟩
    · rw [hafter, Filter.groups_passed hgroups hin, hzero, Nat.zero_add]
    · rw [Filter.isLive, hgroups] at hlive
      simp [hin, hdead] at hlive
    · refine ⟨?_, ?_, ?_⟩
      · rw [Filter.lives_append, hlives, hends.lives, hnone, List.length_append]
        simp [Nat.add_comm]
      · rw [Filter.after_append]
        refine hends.skipped.trans ?_
        rw [hafter]
        rfl
      · rw [Filter.writes_append, hwrites, List.nil_append]
        exact hends.notes
    · rw [Filter.writes_append, hwrites, List.nil_append, hends.openAfter?_eq]

/-- The line that opens a group in live text belongs to the group. -/
theorem Accounts.of_opener {value : Truth} (h : Role.ofLine line = .opener)
    (hfeed : f.feed line = ⟨f', if value.isKnown then [] else [line], .consumed⟩)
    (hskipped : f'.skippedLines = f.skippedLines) : Accounts f [line] 1 [] := by
  refine ⟨?_, ?_, ?_⟩
  · rw [Filter.lives, hfeed]
    rfl
  · change (f.feed line).filter.skippedLines = _
    rw [hfeed]
    exact hskipped
  · have hnote : isSkipNote line = false := isSkipNote_of_role (by rw [h]; exact nofun)
    rw [Filter.writes, hfeed, Filter.writes, List.append_nil]
    split
    · rfl
    · rw [List.filter_singleton, hnote]
      rfl

/-- A group that is opened in live text is open in the written text if its first condition is kept. -/
theorem openAfter?_opener (h : Role.ofLine line = .opener) (value : Truth) (outer : List Bool) :
    openAfter? outer (if value.isKnown then [] else [line])
      = some ((Group.opened value).opening false outer) := by
  have hline : openBehind? outer line = some (false :: outer) := by
    rw [Role.ofLine] at h
    cases hcontrol : Control.ofLine line with
    | openIf expression => simp only [openBehind?, hcontrol]
    | openDefined name => simp only [openBehind?, hcontrol]
    | openUndefined name => simp only [openBehind?, hcontrol]
    | _ =>
      rw [hcontrol] at h
      cases h
  cases value with
  | yes => rfl
  | no => rfl
  | unknown =>
    change (openBehind? outer line).bind some = _
    rw [hline]
    rfl

/-- **Text and arms.**  A filter accounts for all lines of a nest that stands in live text, and behind
them the groups outside of the nest are as they were. -/
theorem Nest.isRun {shape : Shape} (nest : Nest shape) : nest.IsRun := by
  induction nest with
  | nil => exact fun f _ _ => ⟨rfl, .nil f, fun _ => rfl⟩
  | line text isText rest ih =>
    intro f hlive houtside
    obtain ⟨f', hfeed, hgroups, hskipped⟩ := Filter.feed_of_isText hlive houtside isText
    obtain rfl : (f.feed text).filter = f' := by rw [hfeed]
    obtain ⟨hsame, haccounts, hbalanced⟩ := ih (f.feed text).filter
      (by rw [Filter.isLive_eq, hgroups, ← Filter.isLive_eq, hlive])
      (fun h => hgroups.trans (houtside h))
    refine ⟨hsame.trans hgroups, ?_, fun outer => ?_⟩
    · have hall := (Accounts.of_live hfeed hskipped).append haccounts
      rw [Nat.zero_add] at hall
      exact hall
    · have hwritten : (f.feed text).written = [] := by rw [hfeed]
      rw [lines, Filter.writes, hwritten]
      exact hbalanced outer
  | group opener opens arms rest ihArms ihRest =>
    intro f hlive houtside
    obtain ⟨value, f', hfeed, hgroups, hskipped⟩ := Filter.feed_of_opener_of_live hlive opens
    obtain rfl : (f.feed opener).filter = f' := by rw [hfeed]
    -- A group begins with the count zero and leaves the groups around it alone, so that the rest of
    -- the text is live again.
    have harms := ihArms (f.feed opener).filter _ _ hgroups (by cases value <;> rfl)
      (by cases value <;> rfl)
    have hrest := ihRest ((f.feed opener).filter.after arms.lines)
      (by rw [Filter.isLive_eq, harms.groups, ← Filter.isLive_eq, hlive])
      (fun h => harms.groups.trans (houtside h))
    refine ⟨?_, ?_, fun outer => ?_⟩
    · change ((f.feed opener).filter.after (arms.lines ++ rest.lines)).groups = f.groups
      rw [Filter.after_append, hrest.groups, harms.groups]
    · rw [directives, deadArms, if_pos hlive, if_pos hlive, Nat.add_assoc]
      exact (Accounts.of_opener opens hfeed hskipped).append (harms.accounts.append hrest.accounts)
    · have hwritten : (f.feed opener).written = if value.isKnown then [] else [opener] := by rw [hfeed]
      have hopen : false = true → (Group.opened value).anyTaken = true :=
        fun hfalse => absurd hfalse Bool.false_ne_true
      rw [lines, Filter.writes, hwritten, openAfter?_append, openAfter?_opener opens, Option.bind_some,
        Filter.writes_append, openAfter?_append, harms.balanced outer hopen, Option.bind_some,
        hrest.balanced]
  | next body directive alternates rest ihBody ihRest =>
    intro f g gs hgroups hin hzero
    obtain ⟨count, hbehind, hcount, hends⟩ := exists_count ihBody hgroups hin hzero
    obtain ⟨condition, hfeed⟩ := (f.after body.lines).feed_of_alternative alternates
    obtain ⟨g', kept, hend, hgroups', hin', hzero', hkept⟩ :=
      Filter.nextArm_ends hbehind hin hcount condition
    rw [← hfeed] at hend hgroups'
    obtain ⟨haccounts, hwrites⟩ := hends hend
    -- The next arm begins with the count zero again.
    have hrest := ihRest _ g' gs hgroups' hin' hzero'
    have hafter : f.after (body.lines ++ [directive])
        = ((f.after body.lines).feed directive).filter := Filter.after_append ..
    have hlines : (next body directive alternates rest).lines
        = (body.lines ++ [directive]) ++ rest.lines := List.append_cons ..
    refine ⟨?_, ?_, fun {hasLast} outer hlast => ?_⟩
    · rw [hlines, Filter.after_append, hafter, hrest.groups]
    · rw [hlines]
      exact haccounts.append (hafter ▸ hrest.accounts)
    · obtain ⟨hasLast', hlast', hopen⟩ := hkept outer hlast
      rw [hlines, Filter.writes_append, openAfter?_append, hwrites, hafter]
      change (openAfter? (Group.opening { g with skipped := count } hasLast outer) kept).bind _ = _
      rw [hopen, Option.bind_some, hrest.balanced outer hlast']
  | close body closer closes ihBody =>
    intro f g gs hgroups hin hzero
    obtain ⟨count, hbehind, hcount, hends⟩ := exists_count ihBody hgroups hin hzero
    obtain ⟨kept, hend, hgroups', hkept⟩ := Filter.closeGroup_ends hbehind hin hcount
    rw [← (f.after body.lines).feed_of_closer closes] at hend hgroups'
    obtain ⟨haccounts, hwrites⟩ := hends hend
    refine ⟨?_, haccounts, fun {hasLast} outer _ => ?_⟩
    · rw [lines, Filter.after_append]
      exact hgroups'
    · rw [lines, hwrites]
      exact hkept hasLast outer

end

/-! ## Main result -/

/-- Arms without a line do not count. -/
theorem sum_filter_pos (counts : List Nat) : (counts.filter (0 < ·)).sum = counts.sum := by
  induction counts with
  | nil => rfl
  | cons count rest ih =>
    cases count with
    | zero => simpa using ih
    | succ count => simpa using ih

/-- **Every line is accounted for once.**  Lines behind which a filter has no group open are those of a
nest.  For each such nest, the lines are those that are reported as live, the directives of groups
opened in live text, and those in the count of the filter; the count is the sum of the counts in the
notes; there is a note for each dead arm of such a group, in order, unless the arm has no line; and the
directives that are written are balanced. -/
theorem accounts_of_groups_eq_nil (known : List (String × Bool)) (usage : Table String Bool)
    {lines : List String}
    (h : (((Filter.new known).withUsage usage).after lines).groups = []) :
    (∃ nest : Nest (.text false), nest.lines = lines) ∧
      ∀ nest : Nest (.text false), nest.lines = lines →
        let f := (Filter.new known).withUsage usage
        let counts := (nest.deadArms f).filter (0 < ·)
        lines.length = f.lives lines + nest.directives f + (f.after lines).skippedLines ∧
          (f.after lines).skippedLines = counts.sum ∧
          (f.writes lines).filter isSkipNote = counts.map skipNote ∧
          IsBalanced (f.writes lines) := by
  refine ⟨Nest.exists_lines_eq rfl h, ?_⟩
  rintro nest rfl f counts
  obtain ⟨-, haccounts, hbalanced⟩ := nest.isRun f rfl (fun _ => rfl)
  have hskipped : (f.after nest.lines).skippedLines = (nest.deadArms f).sum := by
    rw [haccounts.skipped]
    exact Nat.zero_add _
  refine ⟨?_, hskipped.trans (sum_filter_pos _).symm, haccounts.notes, hbalanced []⟩
  rw [haccounts.length, hskipped]

/-- A group that cannot be decided, with another group in its dead second arm; a group of which nothing
stays; and an alternative that belongs to no group. -/
def deadSecondArm : Nest (.text false) :=
  .group "#if defined(USER)" (by decide +kernel)
    (.next (.line "a;" (.inl (by decide +kernel)) .nil) "#elif 0" (by decide +kernel)
      (.next
        (.line "b;" (.inl (by decide +kernel))
          (.group "#if defined(OTHER)" (by decide +kernel)
            (.next (.line "c;" (.inl (by decide +kernel)) .nil) "#else" (by decide +kernel)
              (.close (.line "d;" (.inl (by decide +kernel)) .nil) "#endif" (by decide +kernel)))
            .nil))
        "#else" (by decide +kernel)
        (.close (.line "e;" (.inl (by decide +kernel)) .nil) "#endif" (by decide +kernel))))
    (.group "#ifdef OFF" (by decide +kernel) (.close .nil "#endif" (by decide +kernel))
      (.line "#else" (.inr ⟨rfl, by decide +kernel⟩) .nil))

/-- The lines of the inner group are in the note for the dead arm; the arm without a line has no note. -/
theorem accounts_of_deadSecondArm :
    let f := (Filter.new [("OFF", false)]).withUsage ∅
    let lines := deadSecondArm.lines
    (f.after lines).groups = [] ∧ deadSecondArm.deadArms f = [6, 0] ∧
      lines.length = f.lives lines + deadSecondArm.directives f + (f.after lines).skippedLines ∧
      (f.after lines).skippedLines = 6 ∧
      (f.writes lines).filter isSkipNote = ["// 6 lines skipped"] ∧ IsBalanced (f.writes lines) := by
  intro f lines
  have hclosed : (f.after lines).groups = [] := by decide +kernel
  have harms : deadSecondArm.deadArms f = [6, 0] := by decide +kernel
  obtain ⟨hlength, hskipped, hnotes, hbalanced⟩ :=
    (accounts_of_groups_eq_nil [("OFF", false)] ∅ hclosed).2 deadSecondArm rfl
  rw [harms] at hskipped hnotes
  exact ⟨hclosed, harms, hlength, hskipped, hnotes, hbalanced⟩

end ShaderMerge.Condition
