import Mathlib.Data.Finset.Card
import Mathlib.Data.Finset.Dedup
import Mathlib.Logic.Relation
import ShaderMerge.Proofs.Include.Next
import ShaderMerge.Proofs.Table

/-!
# When a walk ends

A walk goes on forever if and only if it gets to feed on itself: a frame that is still to open a
program block is being walked, and a shared block that opens one too has been captured
(`Walk.Feeds`).  Then every program start replays a block that opens the next one.  No include and
no number of program blocks does it alone, because an open file is never descended into again, and
a block that opens no program is replayed only once for each program that another frame opens.

`exists_endsWithin_iff` is this condition, for any sources and any choice of descents between the
events.  `exists_endsWithin_of_closesShared` reads a simple check of the files off it: the walk ends
if no shared block has a program start in front of its own end.

A step of a walk is one event with the descents behind it (`Step`).  That the walk ends is shown
by induction on the files that are not open (`unopened`), then on the open frames, then on
the lines of the innermost one (`endsOn_of_unopened_le`).
-/

namespace ShaderMerge.Include

/-- Whether some lines open a program block, outside the shared blocks that are captured on the
way. -/
def opensProgram : List String → Bool
  | [] => false
  | line :: rest =>
    if isSharedStart line then opensProgram ((rest.dropWhile (!isBlockEnd ·)).drop 1)
    else isProgramStart line || opensProgram rest
termination_by lines => lines.length
decreasing_by
  · have hle := (List.dropWhile_sublist (l := rest) (!isBlockEnd ·)).length_le
    simp only [List.length_cons, List.length_drop]
    omega
  · simp

/-- Whether every shared block is closed in front of the next program start. -/
def closesShared : List String → Bool
  | [] => true
  | line :: rest =>
    (!isSharedStart line || !(rest.takeWhile (!isBlockEnd ·)).any isProgramStart) &&
      closesShared rest

namespace Walk

/-- Ask a number of times to walk the file of the last include directive. -/
def descends (s : Sources) (w : Walk) : Nat → Walk
  | 0 => w
  | n + 1 => descends s (w.descend s).2 n

/-- One event, and any number of requests to descend behind it. -/
def Step (s : Sources) (w w' : Walk) : Prop :=
  ∃ event w₁ n, w.next s = some (event, w₁) ∧ w' = w₁.descends s n

/-- The walk ends after at most a number of events, whatever requests to descend stand between
them. -/
def EndsWithin (s : Sources) : Nat → Walk → Prop
  | 0, w => w.next s = none
  | n + 1, w => ∀ w', Step s w w' → EndsWithin s n w'

/-- Some open frame is still to open a program block, and some captured block opens one too. -/
def Feeds (w : Walk) : Prop :=
  w.stack.any (opensProgram ·.lines) = true ∧ w.shared.any opensProgram = true

/-- A walk that never gets to feed on itself. -/
def IsSafe (s : Sources) (w : Walk) : Prop :=
  ∀ w', Relation.ReflTransGen (Step s) w w' → ¬ w'.Feeds

/-- Every sequence of steps from this walk on ends. -/
def Ends (s : Sources) (w : Walk) : Prop := Acc (flip (Step s)) w

variable {s : Sources} {w w₁ w₂ w' : Walk} {event : Event} {stack outer : List Frame}
  {frame : Frame} {file text : String} {rest lines : List String} {directive : Option String}

/-! ## Steps -/

/-- Only the first request to descend behind an event does anything. -/
theorem descends_eq (s : Sources) (w : Walk) (n : Nat) :
    w.descends s n = w ∨ w.descends s n = (w.descend s).2 := by
  have hidle : ∀ (w : Walk) (n : Nat), w.pending = none → w.descends s n = w := by
    intro w n hnone
    induction n with
    | zero => rfl
    | succ n ih =>
      have hsame : (w.descend s).2 = w := by rw [descend, hnone]
      rw [descends, hsame, ih]
  have hpending : (w.descend s).2.pending = none := by
    rw [descend]
    split
    · assumption
    · dsimp only
      split
      · rfl
      · split <;> rfl
  cases n with
  | zero => exact .inl rfl
  | succ n => exact .inr (hidle _ n hpending)

theorem step_of_next (hnext : w.next s = some (event, w₁)) : Step s w w₁ :=
  ⟨event, w₁, 0, hnext, rfl⟩

theorem step_descend_of_next (hnext : w.next s = some (event, w₁)) : Step s w (w₁.descend s).2 :=
  ⟨event, w₁, 1, hnext, rfl⟩

theorem eq_or_eq_of_step (hnext : w.next s = some (event, w₁)) (h : Step s w w') :
    w' = w₁ ∨ w' = (w₁.descend s).2 := by
  obtain ⟨event', w₁', n, hnext', rfl⟩ := h
  rw [hnext, Option.some.injEq, Prod.mk.injEq] at hnext'
  obtain ⟨-, rfl⟩ := hnext'
  exact descends_eq s w₁ n

theorem not_step_of_next (hnext : w.next s = none) : ¬ Step s w w' := by
  rintro ⟨event, w₁, n, hsome, -⟩
  rw [hnext] at hsome
  cases hsome

/-! ## A walk that feeds on itself goes on -/

theorem opensProgram_cons_of_shared (hshared : isSharedStart text = true) :
    opensProgram (text :: rest) = opensProgram ((rest.dropWhile (!isBlockEnd ·)).drop 1) := by
  rw [opensProgram, if_pos hshared]

theorem opensProgram_cons_of_not_shared (hshared : ¬ isSharedStart text = true) :
    opensProgram (text :: rest) = (isProgramStart text || opensProgram rest) := by
  rw [opensProgram, if_neg hshared]

theorem any_opensProgram_replay (shared : List (List String)) :
    (replay s shared).any (opensProgram ·.lines) = shared.any opensProgram := by
  rw [replay, List.any_map]
  rfl

theorem Feeds.descend (h : w.Feeds) : (w.descend s).2.Feeds := by
  refine ⟨?_, (descend_shared s w).symm ▸ h.2⟩
  obtain hsame | ⟨target, lines, directive, -, -, hpush⟩ := descend_stack s w
  · rw [hsame]
    exact h.1
  · rw [hpush, List.any_cons, h.1, Bool.or_true]

theorem Feeds.lineEvent (hshared : ¬ isSharedStart text = true) (h : w.Feeds)
    (hstack : w.stack = ⟨file, text :: rest, directive⟩ :: outer) :
    (w.lineEvent s ⟨file, rest, directive⟩ text outer).2.Feeds := by
  obtain ⟨hopens, hfed⟩ := h
  rw [hstack, List.any_cons, opensProgram_cons_of_not_shared hshared] at hopens
  rw [Walk.lineEvent]
  split
  · -- The replay opens the next program block, whatever is left of the frame.
    refine ⟨?_, hfed⟩
    dsimp only
    rw [List.any_append, any_opensProgram_replay, hfed, Bool.true_or]
  · rename_i hstart
    rw [Bool.not_eq_true] at hstart
    rw [hstart, Bool.false_or] at hopens
    split
    · exact ⟨hopens, hfed⟩
    · split
      · exact ⟨hopens, hfed⟩
      · split <;> exact ⟨hopens, hfed⟩

theorem Feeds.exists_next (h : w.Feeds) : ∃ event w', w.next s = some (event, w') ∧ w'.Feeds := by
  have hadvance : ∀ w : Walk, w.Feeds → ∃ event w', w.advance s = some (event, w') ∧ w'.Feeds := by
    intro w h
    fun_induction advance s w with
    | case1 w hstack =>
      rw [Feeds, hstack] at h
      cases h.1
    | case2 w file directive outer hstack =>
      refine ⟨_, _, rfl, ?_, h.2⟩
      have hopens := h.1
      rw [hstack, List.any_cons, opensProgram, Bool.false_or] at hopens
      exact hopens
    | case3 w file outer hstack ih =>
      refine ih ⟨?_, h.2⟩
      have hopens := h.1
      rw [hstack, List.any_cons, opensProgram, Bool.false_or] at hopens
      exact hopens
    | case4 w file text rest directive outer hstack hshared ih =>
      refine ih ⟨?_, ?_⟩
      · have hopens := h.1
        rw [hstack, List.any_cons, opensProgram_cons_of_shared hshared] at hopens
        exact hopens
      · rw [List.any_append, h.2, Bool.true_or]
    | case5 w file text rest directive outer hstack hshared =>
      exact ⟨_, _, rfl, h.lineEvent hshared hstack⟩
  exact hadvance { w with pending := none } h

theorem Feeds.exists_step (h : w.Feeds) : ∃ w', Step s w w' ∧ w'.Feeds := by
  obtain ⟨event, w', hnext, hfeeds⟩ := h.exists_next (s := s)
  exact ⟨w', step_of_next hnext, hfeeds⟩

theorem Feeds.not_endsWithin (h : w.Feeds) (n : Nat) : ¬ EndsWithin s n w := by
  induction n generalizing w with
  | zero =>
    intro hend
    obtain ⟨event, w', hnext, -⟩ := h.exists_next (s := s)
    rw [EndsWithin, hnext] at hend
    cases hend
  | succ n ih =>
    intro hend
    obtain ⟨w', hstep, hfeeds⟩ := h.exists_step (s := s)
    exact ih hfeeds (hend w' hstep)

theorem exists_endsWithin_of_reachable {n : Nat} (hend : EndsWithin s n w)
    (hreach : Relation.ReflTransGen (Step s) w w') : ∃ m, EndsWithin s m w' := by
  induction hreach with
  | refl => exact ⟨n, hend⟩
  | tail _ hstep ih =>
    obtain ⟨m, hm⟩ := ih
    cases m with
    | zero => exact absurd hstep (not_step_of_next hm)
    | succ m => exact ⟨m, hm _ hstep⟩

/-! ## A safe walk ends -/

theorem IsSafe.step (h : IsSafe s w) (hstep : Step s w w') : IsSafe s w' :=
  fun _ hreach => h _ (.head hstep hreach)

/-- What a walk does depends on its next event. -/
theorem step_iff_of_next_eq (hsame : w.next s = w'.next s) (w₁ : Walk) :
    Step s w w₁ ↔ Step s w' w₁ := by
  rw [Step, Step, hsame]

theorem IsSafe.of_next_eq (h : IsSafe s w) (hsame : w.next s = w'.next s) : IsSafe s w' := by
  intro w'' hreach hfeeds
  obtain rfl | ⟨w₁, hstep, hrest⟩ := hreach.cases_head
  · obtain ⟨w₁, hstep, hfeeds⟩ := hfeeds.exists_step (s := s)
    exact h w₁ (.single ((step_iff_of_next_eq hsame w₁).2 hstep)) hfeeds
  · exact h w'' (.head ((step_iff_of_next_eq hsame w₁).2 hstep) hrest) hfeeds

theorem Ends.of_next_eq (h : Ends s w') (hsame : w.next s = w'.next s) : Ends s w :=
  .intro w fun w₁ hstep => h.inv ((step_iff_of_next_eq hsame w₁).1 hstep)

/-- Both walks behind an event end. -/
theorem ends_of_next (hnext : w.next s = some (event, w₁)) (hstay : Ends s w₁)
    (hdescend : Ends s (w₁.descend s).2) : Ends s w := by
  refine .intro w fun w' hstep => ?_
  obtain rfl | rfl := eq_or_eq_of_step hnext hstep
  · exact hstay
  · exact hdescend

/-- Every safe walk over these frames ends. -/
def EndsOn (s : Sources) (stack : List Frame) : Prop :=
  ∀ w : Walk, w.stack = stack → IsSafe s w → Ends s w

/-- The files that are not open. -/
def unopened (s : Sources) (stack : List Frame) : Finset String :=
  (s.files.entries.map Prod.fst).toFinset.filter fun file => stack.any (·.file = file) = false

theorem unopened_subset (frames stack : List Frame) :
    unopened s (frames ++ stack) ⊆ unopened s stack := by
  intro file hfile
  rw [unopened, Finset.mem_filter, List.any_append, Bool.or_eq_false_iff] at hfile
  rw [unopened, Finset.mem_filter]
  exact ⟨hfile.1, hfile.2.2⟩

theorem card_unopened_lt (hget : s.files.get? file = some lines)
    (hclosed : stack.any (·.file = file) = false) :
    (unopened s (⟨file, rest, directive⟩ :: stack)).card < (unopened s stack).card := by
  refine Finset.card_lt_card ⟨unopened_subset [_] stack, fun hsubset => ?_⟩
  have hentry : (file, lines) ∈ s.files.entries :=
    (Table.mem_entries_iff String.lt_irrefl _ _ _).2 hget
  have hfile : file ∈ unopened s stack := by
    rw [unopened, Finset.mem_filter, List.mem_toFinset, List.mem_map]
    exact ⟨⟨_, hentry, rfl⟩, hclosed⟩
  have hopen := hsubset hfile
  rw [unopened, Finset.mem_filter, List.any_cons] at hopen
  simp at hopen

/-- A walk ends if it does over the frames behind its next event, and over each file that may be
put on them. -/
theorem ends_of_event (hsafe : IsSafe s w) (hnext : w.next s = some (event, w₁))
    (hon : EndsOn s w₁.stack)
    (hinside : ∀ target lines directive,
      (unopened s (⟨target, lines, directive⟩ :: w₁.stack)).card < (unopened s w₁.stack).card →
      EndsOn s (⟨target, lines, directive⟩ :: w₁.stack)) : Ends s w := by
  refine ends_of_next hnext (hon w₁ rfl (hsafe.step (step_of_next hnext))) ?_
  have hsafe' := hsafe.step (step_descend_of_next hnext)
  obtain hsame | ⟨target, lines, directive, hget, hclosed, hpush⟩ := descend_stack s w₁
  · exact hon _ hsame hsafe'
  · exact hinside target lines _ (card_unopened_lt hget hclosed) _ hpush hsafe'

/-- The walk ends over a frame if it does over the outer ones, over files with fewer files left to
open, and over the replays at the program starts of the frame. -/
theorem endsOn_cons {k : Nat} (hk : (unopened s (⟨file, lines, directive⟩ :: outer)).card ≤ k)
    (hinside : ∀ frame outer, (unopened s (frame :: outer)).card < k → EndsOn s outer →
      EndsOn s (frame :: outer))
    (hreplay : opensProgram lines = false ∨ ∀ rest shared, shared.any opensProgram = false →
      EndsOn s (⟨file, rest, directive⟩ :: outer) →
      EndsOn s (replay s shared ++ ⟨file, rest, directive⟩ :: outer))
    (houter : EndsOn s outer) : EndsOn s (⟨file, lines, directive⟩ :: outer) := by
  induction hlength : lines.length using Nat.strong_induction_on generalizing lines with
  | _ n ih =>
    intro w hstack hsafe
    -- The end of the frame: that of a replay is no event, that of a file is one.
    cases lines with
    | nil =>
      cases directive with
      | none =>
        have hsame := next_of_endReplay (s := s) hstack
        exact (houter _ rfl (hsafe.of_next_eq hsame)).of_next_eq hsame
      | some text =>
        have hnext := next_of_endInclude (s := s) hstack
        have hon := houter _ rfl (hsafe.step (step_of_next hnext))
        exact ends_of_next hnext hon hon
    | cons text rest =>
      rw [List.length_cons] at hlength
      -- A shared block is captured within the same event, and the frame is shorter behind it.
      by_cases hshared : isSharedStart text = true
      · have hsame := next_of_shared (s := s) hstack hshared
        have hle := (List.dropWhile_sublist (l := rest) (!isBlockEnd ·)).length_le
        have hshorter : ((rest.dropWhile (!isBlockEnd ·)).drop 1).length < n := by
          rw [List.length_drop]
          omega
        rw [opensProgram_cons_of_shared hshared] at hreplay
        have hrest : EndsOn s
            (⟨file, (rest.dropWhile (!isBlockEnd ·)).drop 1, directive⟩ :: outer) :=
          ih _ hshorter hk hreplay rfl
        exact (hrest _ rfl (hsafe.of_next_eq hsame)).of_next_eq hsame
      · obtain ⟨event, w₁, hnext, -, -, hbehind⟩ := exists_next_of_line (s := s) hstack hshared
        rw [opensProgram_cons_of_not_shared hshared, Bool.or_eq_false_iff] at hreplay
        have hrest : EndsOn s (⟨file, rest, directive⟩ :: outer) :=
          ih rest.length (by omega) hk (hreplay.imp_left And.right) rfl
        -- The next event stands on the rest of the frame, below the replays if it starts a block.
        have hon : EndsOn s w₁.stack := by
          rw [hbehind]
          split
          · rename_i hstart
            obtain ⟨hplain, -⟩ | hreplay := hreplay
            · rw [hplain] at hstart
              cases hstart
            · -- The frame opens a program block here, so no captured block does.
              refine hreplay rest w.shared (Bool.eq_false_iff.2 fun hfed => ?_) hrest
              refine hsafe w .refl ⟨?_, hfed⟩
              rw [hstack, List.any_cons, opensProgram_cons_of_not_shared hshared, hstart]
              rfl
          · exact hrest
        -- A file that is put on the frames has fewer files left to open.
        refine ends_of_event hsafe hnext hon fun target lines directive' hfewer => ?_
        refine hinside _ _ (Nat.lt_of_lt_of_le hfewer ?_) hon
        rw [hbehind]
        exact Nat.le_trans (Finset.card_le_card (unopened_subset _ _)) hk

theorem endsOn_of_unopened_le {k : Nat} {frame : Frame}
    (hk : (unopened s (frame :: outer)).card ≤ k) (houter : EndsOn s outer) :
    EndsOn s (frame :: outer) := by
  induction k using Nat.strong_induction_on generalizing frame outer with
  | _ k ih =>
    have hinside : ∀ frame outer, (unopened s (frame :: outer)).card < k → EndsOn s outer →
        EndsOn s (frame :: outer) := fun frame outer hlt houter => ih _ hlt le_rfl houter
    refine endsOn_cons hk hinside (.inr fun rest shared hfed hrest => ?_) houter
    -- The replayed blocks open no program, and they open no more files than the frame does.
    induction shared with
    | nil => exact hrest
    | cons block blocks ihblocks =>
      rw [List.any_cons, Bool.or_eq_false_iff] at hfed
      refine endsOn_cons ?_ hinside (.inl hfed.1) (ihblocks hfed.2)
      exact Nat.le_trans (Finset.card_le_card (unopened_subset (replay s (block :: blocks)) _)) hk

theorem endsOn (s : Sources) (stack : List Frame) : EndsOn s stack := by
  induction stack with
  | nil =>
    intro w hstack _
    exact .intro w fun w' hstep => absurd hstep (not_step_of_next (next_of_nil hstack))
  | cons frame outer ih => exact endsOn_of_unopened_le le_rfl ih

/-! ## The number of events -/

theorem EndsWithin.mono {n m : Nat} (h : EndsWithin s n w) (hle : n ≤ m) : EndsWithin s m w := by
  have hsucc : ∀ n w, EndsWithin s n w → EndsWithin s (n + 1) w := by
    intro n
    induction n with
    | zero => exact fun w hend w' hstep => absurd hstep (not_step_of_next hend)
    | succ n ih => exact fun w hend w' hstep => ih w' (hend w' hstep)
  induction hle with
  | refl => exact h
  | step _ ih => exact hsucc _ _ ih

theorem EndsWithin.of_next_eq {n : Nat} (h : EndsWithin s n w) (hsame : w.next s = w'.next s) :
    EndsWithin s n w' := by
  cases n with
  | zero => exact hsame.symm.trans h
  | succ n => exact fun w₁ hstep => h w₁ ((step_iff_of_next_eq hsame w₁).2 hstep)

/-- There are two ways to go on from each event, so that the events of a walk that ends are
bounded. -/
theorem exists_endsWithin_of_ends (h : Ends s w) : ∃ n, EndsWithin s n w := by
  induction h with
  | intro w _ ih =>
    cases hnext : w.next s with
    | none => exact ⟨0, hnext⟩
    | some found =>
      obtain ⟨event, w₁⟩ := found
      obtain ⟨n, hn⟩ := ih _ (step_of_next hnext)
      obtain ⟨m, hm⟩ := ih _ (step_descend_of_next hnext)
      refine ⟨max n m + 1, fun w' hstep => ?_⟩
      obtain rfl | rfl := eq_or_eq_of_step hnext hstep
      · exact hn.mono (Nat.le_max_left n m)
      · exact hm.mono (Nat.le_max_right n m)

/-! ## Main results -/

/-- **When a walk ends.**  Whatever requests to descend are made, the walk comes to its end
within some number of events, if and only if no sequence of events and requests leads to a walk that
feeds on itself. -/
theorem exists_endsWithin_iff (s : Sources) :
    (∃ n, EndsWithin s n (start s)) ↔
      ∀ w, Relation.ReflTransGen (Step s) (start s) w → ¬ w.Feeds := by
  constructor
  · rintro ⟨n, hend⟩ w hreach hfeeds
    obtain ⟨m, hm⟩ := exists_endsWithin_of_reachable hend hreach
    exact hfeeds.not_endsWithin m hm
  · intro hsafe
    exact exists_endsWithin_of_ends (endsOn s _ _ rfl hsafe)

/-! ## Shared blocks that are closed -/

theorem opensProgram_eq_false (h : lines.any isProgramStart = false) :
    opensProgram lines = false := by
  induction hlength : lines.length using Nat.strong_induction_on generalizing lines with
  | _ n ih =>
    cases lines with
    | nil => rw [opensProgram]
    | cons text rest =>
      rw [List.any_cons, Bool.or_eq_false_iff] at h
      rw [List.length_cons] at hlength
      by_cases hshared : isSharedStart text = true
      · have hsub := (List.drop_sublist 1 _).trans
          (List.dropWhile_sublist (l := rest) (!isBlockEnd ·))
        have hlt : ((rest.dropWhile (!isBlockEnd ·)).drop 1).length < n := by
          have hle := hsub.length_le
          omega
        rw [opensProgram_cons_of_shared hshared]
        refine ih _ hlt (List.any_eq_false.2 fun line hline => ?_) rfl
        exact List.any_eq_false.1 h.2 line (hsub.subset hline)
      · rw [opensProgram_cons_of_not_shared hshared, h.1, Bool.false_or]
        exact ih rest.length (by omega) h.2 rfl

theorem closesShared_of_suffix {part : List String} (hpart : part <:+ lines)
    (h : closesShared lines = true) : closesShared part = true := by
  induction lines with
  | nil => rwa [List.suffix_nil.1 hpart]
  | cons line rest ih =>
    obtain rfl | hpart := List.suffix_cons_iff.1 hpart
    · exact h
    · rw [closesShared, Bool.and_eq_true] at h
      exact ih hpart h.2

theorem closesShared_of_any (h : lines.any isProgramStart = false) :
    closesShared lines = true := by
  induction lines with
  | nil => rfl
  | cons line rest ih =>
    rw [List.any_cons, Bool.or_eq_false_iff] at h
    have hnone : (rest.takeWhile (!isBlockEnd ·)).any isProgramStart = false :=
      List.any_eq_false.2 fun line hline =>
        List.any_eq_false.1 h.2 line ((List.takeWhile_sublist _).subset hline)
    rw [closesShared, hnone, ih h.2]
    simp

/-- No captured block opens a program, and no frame is to capture one that does. -/
structure IsClosed (w : Walk) : Prop where
  frames : ∀ frame ∈ w.stack, closesShared frame.lines = true
  shared : ∀ block ∈ w.shared, block.any isProgramStart = false

theorem IsClosed.not_feeds (h : w.IsClosed) : ¬ w.Feeds := by
  rintro ⟨-, hfed⟩
  obtain ⟨block, hblock, hopens⟩ := List.any_eq_true.1 hfed
  rw [opensProgram_eq_false (h.shared block hblock)] at hopens
  cases hopens

theorem IsClosed.of_stack (h : w.IsClosed) (hstack : w.stack = frame :: outer) :
    closesShared frame.lines = true ∧ ∀ frame ∈ outer, closesShared frame.lines = true := by
  have hframes := h.frames
  rwa [hstack, List.forall_mem_cons] at hframes

theorem IsClosed.lineEvent (h : w.IsClosed)
    (hstack : w.stack = ⟨file, text :: rest, directive⟩ :: outer) :
    (w.lineEvent s ⟨file, rest, directive⟩ text outer).2.IsClosed := by
  obtain ⟨hframe, houter⟩ := h.of_stack hstack
  constructor
  · rw [(lineEvent_eq s w _ text outer).2.2, List.forall_mem_append, List.forall_mem_cons]
    refine ⟨fun frame hreplay => ?_, closesShared_of_suffix (List.suffix_cons _ _) hframe, houter⟩
    split at hreplay
    · obtain ⟨block, hblock, rfl⟩ := List.mem_map.1 hreplay
      exact closesShared_of_any (h.shared block hblock)
    · cases hreplay
  · rw [(lineEvent_eq s w _ text outer).2.1]
    exact h.shared

theorem IsClosed.capture (h : w.IsClosed) (hshared : isSharedStart text = true)
    (hstack : w.stack = ⟨file, text :: rest, directive⟩ :: outer) :
    IsClosed { w with
      shared := w.shared ++ [rest.takeWhile (!isBlockEnd ·)]
      stack := ⟨file, (rest.dropWhile (!isBlockEnd ·)).drop 1, directive⟩ :: outer } := by
  obtain ⟨hframe, houter⟩ := h.of_stack hstack
  rw [closesShared, hshared, Bool.and_eq_true, Bool.not_true, Bool.false_or,
    Bool.not_eq_true'] at hframe
  have hsuffix : (rest.dropWhile (!isBlockEnd ·)).drop 1 <:+ rest :=
    (List.drop_suffix 1 _).trans (List.dropWhile_suffix _)
  constructor
  · exact List.forall_mem_cons.2 ⟨closesShared_of_suffix hsuffix hframe.2, houter⟩
  · refine List.forall_mem_append.2 ⟨h.shared, ?_⟩
    exact List.forall_mem_singleton.2 hframe.1

theorem IsClosed.next (h : w.IsClosed) (hnext : w.next s = some (event, w')) : w'.IsClosed := by
  have hadvance : ∀ w : Walk, w.IsClosed → w.advance s = some (event, w') → w'.IsClosed := by
    intro w h hnext
    fun_induction advance s w with
    | case1 => cases hnext
    | case2 w file directive outer hstack =>
      cases hnext
      exact ⟨(h.of_stack hstack).2, h.shared⟩
    | case3 w file outer hstack ih => exact ih ⟨(h.of_stack hstack).2, h.shared⟩ hnext
    | case4 w file text rest directive outer hstack hshared ih =>
      exact ih (h.capture hshared hstack) hnext
    | case5 w file text rest directive outer hstack hshared =>
      have hclosed := h.lineEvent (s := s) hstack
      rwa [Option.some.inj hnext] at hclosed
  exact hadvance { w with pending := none } ⟨h.frames, h.shared⟩ hnext

theorem IsClosed.descend (hfiles : ∀ file lines, s.files.get? file = some lines →
    closesShared lines = true) (h : w.IsClosed) : (w.descend s).2.IsClosed := by
  refine ⟨?_, (descend_shared s w).symm ▸ h.shared⟩
  obtain hsame | ⟨target, lines, directive, hget, -, hpush⟩ := descend_stack s w
  · rw [hsame]
    exact h.frames
  · rw [hpush]
    exact List.forall_mem_cons.2 ⟨hfiles target lines hget, h.frames⟩

/-- A walk ends if every shared block of every file is closed in front of the next program
start. -/
theorem exists_endsWithin_of_closesShared (hfiles : ∀ file lines, s.files.get? file = some lines →
    closesShared lines = true) : ∃ n, EndsWithin s n (start s) := by
  refine (exists_endsWithin_iff s).2 fun w hreach => IsClosed.not_feeds ?_
  induction hreach with
  | refl =>
    refine ⟨List.forall_mem_singleton.2 ?_, fun block hblock => absurd hblock List.not_mem_nil⟩
    rw [Sources.mainLines]
    cases hget : s.files.get? s.main with
    | none => rfl
    | some lines => exact hfiles s.main lines hget
  | tail _ hstep ih =>
    obtain ⟨event, w₁, n, hnext, rfl⟩ := hstep
    obtain hsame | hsame := descends_eq s w₁ n
    · rw [hsame]
      exact ih.next hnext
    · rw [hsame]
      exact (ih.next hnext).descend hfiles

/-- A walk does not end if the file of the shader starts with a shared block that takes in a
program start, and opens a program block after it. -/
theorem not_endsWithin_of_unclosed {opener closer : String} {block : List String}
    (hmain : s.mainLines = opener :: (block ++ closer :: rest))
    (hopener : isSharedStart opener = true) (hcloser : isBlockEnd closer = true)
    (hunclosed : block.any isBlockEnd = false) (hblock : opensProgram block = true)
    (hrest : opensProgram rest = true) (n : Nat) : ¬ EndsWithin s n (start s) := by
  have hsame :=
    next_of_block (s := s) (w := start s) (by rw [start, hmain]) hopener hunclosed hcloser
  refine fun hend => Feeds.not_endsWithin ⟨?_, ?_⟩ n (hend.of_next_eq hsame)
  · exact List.any_eq_true.2 ⟨_, List.mem_singleton_self _, hrest⟩
  · exact List.any_eq_true.2 ⟨block, List.mem_singleton_self _, hblock⟩

end Walk

end ShaderMerge.Include
