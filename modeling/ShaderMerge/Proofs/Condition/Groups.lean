import ShaderMerge.Proofs.Condition.Preprocessor

/-!
# Open groups of a filter and of two preprocessors

`Follows groups kept all` relates the open groups of a filter to the levels of two classical
preprocessors: one that has read the lines which the filter kept, and one that has read all of
them.  The first one has a level for each group with a written directive, the second one for each
group.  Where the filter is live the two are live together (`Follows.liveIn_eq`), and where the
filter has dropped the text it is dead for the second one (`Follows.not_live`).

There is one lemma for each way in which a line changes the open groups.
-/

namespace ShaderMerge.Condition

namespace Group

/-- Whether the text inside some open groups is live to a filter. -/
def liveIn : List Group → Bool
  | [] => true
  | g :: _ => g.inLive && g.arm != .dead

theorem liveIn_cons (g : Group) (groups : List Group) :
    liveIn (g :: groups) = (g.inLive && g.arm != .dead) := rfl

/-- The level of a group without a written directive, in live or in dead text. -/
def level (g : Group) (outer : Bool) : Level :=
  if outer then
    if g.arm = .taken then .live else if g.anyTaken then .done else .waiting
  else .done

theorem level_eq_live_iff {g : Group} {outer : Bool} :
    g.level outer = .live ↔ outer = true ∧ g.arm = .taken := by
  cases outer <;> cases h : g.arm <;> cases ht : g.anyTaken <;> simp [level, h, ht]

/-- Groups that differ at most in their counts and in the names they have noted. -/
structure Like (g g' : Group) : Prop where
  inLive : g'.inLive = g.inLive
  arm : g'.arm = g.arm
  anyTaken : g'.anyTaken = g.anyTaken
  written : g'.written = g.written

theorem Like.level {g g' : Group} (h : g.Like g') (outer : Bool) :
    g'.level outer = g.level outer := by
  rw [Group.level, Group.level, h.arm, h.anyTaken]

theorem like_endArm (g : Group) (changes : Frame) : g.Like (g.endArm changes).1 := by
  rw [endArm]
  split
  · exact ⟨rfl, rfl, rfl, rfl⟩
  · exact ⟨rfl, rfl, rfl, rfl⟩
  · split
    · exact ⟨rfl, rfl, rfl, rfl⟩
    · exact ⟨rfl, rfl, rfl, rfl⟩

theorem like_skip (g : Group) (count : Nat) : g.Like { g with skipped := count } :=
  ⟨rfl, rfl, rfl, rfl⟩

end Group

theorem Filter.isLive_eq (f : Filter) : f.isLive = Group.liveIn f.groups := by
  rw [Filter.isLive]
  cases f.groups <;> rfl

/-- The open groups of a filter, next to the levels of a preprocessor on the kept lines and of one
on all lines. -/
inductive Follows : List Group → List Level → List Level → Prop where
  | nil : Follows [] [] []
  | dead {g : Group} {gs : List Group} {kept all : List Level} (inLive : g.inLive = false)
      (outer : Group.liveIn gs = false) (rest : Follows gs kept all) :
      Follows (g :: gs) kept (.done :: all)
  | unwritten {g : Group} {gs : List Group} {kept all : List Level} (inLive : g.inLive = true)
      (outer : Group.liveIn gs = true) (written : g.written = false)
      (arm : g.arm ≠ .uncertain) (taken : g.arm = .taken → g.anyTaken = true)
      (rest : Follows gs kept all) :
      Follows (g :: gs) kept (g.level (Level.liveIn all) :: all)
  | written {g : Group} {gs : List Group} {k a : Level} {kept all : List Level}
      (inLive : g.inLive = true) (outer : Group.liveIn gs = true) (written : g.written = true)
      (nested : a ≠ .done → Level.liveIn all = true) (dead : g.arm = .dead → a ≠ .live)
      (taken : g.arm = .taken → g.anyTaken = true) (anyTaken : g.anyTaken = true → a ≠ .waiting)
      (same : g.arm ≠ .dead → k = a) (waiting : k = .waiting ↔ a = .waiting)
      (rest : Follows gs kept all) :
      Follows (g :: gs) (k :: kept) (a :: all)

namespace Follows

variable {g g' : Group} {gs : List Group} {kept all : List Level}

/-! ## Live and dead text -/

/-- Text that the filter drops is dead. -/
theorem not_live (h : Follows gs kept all) (hdead : Group.liveIn gs = false) :
    Level.liveIn all = false := by
  cases h with
  | nil => cases hdead
  | dead => rfl
  | @unwritten g gs kept all inLive outer written arm taken rest =>
    have harm : g.arm = .dead := by simpa [Group.liveIn_cons, inLive] using hdead
    rw [Level.liveIn_cons, beq_eq_false_iff_ne]
    intro hlevel
    rw [(Group.level_eq_live_iff.1 hlevel).2] at harm
    cases harm
  | @written g gs k a kept all inLive outer written nested dead taken anyTaken same waiting rest =>
    have harm : g.arm = .dead := by simpa [Group.liveIn_cons, inLive] using hdead
    simpa [Level.liveIn_cons] using dead harm

/-- Text that the filter hands on is live in the kept lines where it is among all lines. -/
theorem liveIn_eq (h : Follows gs kept all) (hlive : Group.liveIn gs = true) :
    Level.liveIn kept = Level.liveIn all := by
  induction h with
  | nil => rfl
  | dead inLive => simp [Group.liveIn_cons, inLive] at hlive
  | @unwritten g gs kept all inLive outer written arm taken rest ih =>
    have harm : g.arm = .taken := by
      cases hcase : g.arm with
      | taken => rfl
      | uncertain => exact absurd hcase arm
      | dead => simp [Group.liveIn_cons, hcase] at hlive
    rw [ih outer, Level.liveIn_cons, Bool.eq_iff_iff, beq_iff_eq, Group.level_eq_live_iff]
    exact ⟨fun hall => ⟨hall, harm⟩, fun hboth => hboth.1⟩
  | @written g gs k a kept all inLive outer written nested dead taken anyTaken same waiting rest =>
    have harm : g.arm ≠ .dead := by
      intro hcase
      simp [Group.liveIn_cons, hcase] at hlive
    rw [Level.liveIn_cons, Level.liveIn_cons, same harm]

/-- Around live text every group is live. -/
theorem eq_live (h : Follows gs kept all) (hlive : Level.liveIn all = true) :
    ∀ l ∈ all, l = .live := by
  induction h with
  | nil => simp
  | dead => cases hlive
  | @unwritten g gs kept all inLive outer written arm taken rest ih =>
    have hlevel : g.level (Level.liveIn all) = .live := by simpa [Level.liveIn_cons] using hlive
    intro l hl
    rcases List.mem_cons.1 hl with rfl | hl
    · exact hlevel
    · exact ih (Group.level_eq_live_iff.1 hlevel).1 l hl
  | @written g gs k a kept all inLive outer written nested dead taken anyTaken same waiting rest ih =>
    have ha : a = .live := by simpa [Level.liveIn_cons] using hlive
    intro l hl
    rcases List.mem_cons.1 hl with rfl | hl
    · exact ha
    · exact ih (nested (by simp [ha])) l hl

/-- Around text that the filter hands on no arm is dead. -/
theorem arm_ne_dead (h : Follows gs kept all) (hlive : Group.liveIn gs = true) :
    ∀ g ∈ gs, g.arm ≠ .dead := by
  induction h with
  | nil => simp
  | dead inLive => simp [Group.liveIn_cons, inLive] at hlive
  | unwritten inLive outer written arm taken rest ih =>
    intro g hg
    rcases List.mem_cons.1 hg with rfl | hg
    · simpa [Group.liveIn_cons, inLive] using hlive
    · exact ih outer g hg
  | written inLive outer written nested dead taken anyTaken same waiting rest ih =>
    intro g hg
    rcases List.mem_cons.1 hg with rfl | hg
    · simpa [Group.liveIn_cons, inLive] using hlive
    · exact ih outer g hg

/-! ## Bookkeeping -/

/-- Only what a group is like matters. -/
theorem congr (h : Follows (g :: gs) kept all) (hlike : g.Like g') :
    Follows (g' :: gs) kept all := by
  cases h with
  | dead inLive outer rest => exact .dead (hlike.inLive.trans inLive) outer rest
  | unwritten inLive outer written arm taken rest =>
    rw [← hlike.level]
    refine .unwritten (hlike.inLive.trans inLive) outer (hlike.written.trans written) ?_ ?_ rest
    · rw [hlike.arm]
      exact arm
    · rw [hlike.arm, hlike.anyTaken]
      exact taken
  | written inLive outer written nested dead taken anyTaken same waiting rest =>
    refine .written (hlike.inLive.trans inLive) outer (hlike.written.trans written) nested
      ?_ ?_ ?_ ?_ waiting rest
    · rw [hlike.arm]
      exact dead
    · rw [hlike.arm, hlike.anyTaken]
      exact taken
    · rw [hlike.anyTaken]
      exact anyTaken
    · rw [hlike.arm]
      exact same

theorem liveIn_countSkipped (gs : List Group) :
    Group.liveIn (Filter.countSkipped gs) = Group.liveIn gs := by
  cases gs with
  | nil => rfl
  | cons g gs =>
    rw [Filter.countSkipped]
    split
    · rfl
    · rfl

theorem countSkipped (h : Follows gs kept all) : Follows (Filter.countSkipped gs) kept all := by
  induction h with
  | nil => exact .nil
  | dead inLive outer rest ih =>
    rw [Filter.countSkipped, if_neg (by simp [inLive])]
    exact .dead inLive ((liveIn_countSkipped _).trans outer) ih
  | unwritten inLive outer written arm taken rest =>
    rw [Filter.countSkipped, if_pos inLive]
    exact congr (.unwritten inLive outer written arm taken rest) (Group.like_skip _ _)
  | written inLive outer written nested dead taken anyTaken same waiting rest =>
    rw [Filter.countSkipped, if_pos inLive]
    exact congr (.written inLive outer written nested dead taken anyTaken same waiting rest)
      (Group.like_skip _ _)

/-! ## Opening a group -/

/-- A group whose first condition has a known value opens without a written directive. -/
theorem open_known (h : Follows gs kept all) (hlive : Group.liveIn gs = true) {known value : Bool}
    (hvalue : Level.liveIn all = true → value = known) :
    Follows (.opened (.ofBool known) :: gs) kept
      (.opened (Level.liveIn all) value :: all) := by
  have hlevel : (Group.opened (.ofBool known)).level (Level.liveIn all)
      = .opened (Level.liveIn all) value := by
    cases hall : Level.liveIn all with
    | false => rfl
    | true =>
      rw [hvalue hall]
      cases known <;> rfl
  rw [← hlevel]
  cases known with
  | true => exact .unwritten rfl hlive rfl (by simp [Group.opened, Truth.ofBool]) (fun _ => rfl) h
  | false =>
    refine .unwritten rfl hlive rfl ?_ ?_ h
    · simp [Group.opened, Truth.ofBool, Group.inDeadText]
    · simp [Group.opened, Truth.ofBool, Group.inDeadText]

/-- A group whose first condition is undecided opens in both texts. -/
theorem open_unknown (h : Follows gs kept all) (hlive : Group.liveIn gs = true) (value : Bool) :
    Follows (.opened .unknown :: gs) (.opened (Level.liveIn kept) value :: kept)
      (.opened (Level.liveIn all) value :: all) := by
  rw [h.liveIn_eq hlive]
  refine .written rfl hlive rfl ?_ ?_ ?_ ?_ (fun _ => rfl) Iff.rfl h
  · intro hdone
    cases hall : Level.liveIn all with
    | true => rfl
    | false =>
      rw [hall] at hdone
      exact absurd rfl hdone
  · simp [Group.opened]
  · simp [Group.opened]
  · simp [Group.opened, Group.inDeadText]

/-- A group in text that the filter drops stands in dead text. -/
theorem open_dead (h : Follows gs kept all) (hdead : Group.liveIn gs = false) (value : Bool) :
    Follows (.inDeadText :: Filter.countSkipped gs) kept
      (.opened (Level.liveIn all) value :: all) := by
  rw [h.not_live hdead]
  exact .dead rfl ((liveIn_countSkipped gs).trans hdead) h.countSkipped

/-! ## The next arm -/

theorem levels_of_nil (h : Follows [] kept all) : kept = [] ∧ all = [] := by
  cases h
  exact ⟨rfl, rfl⟩

/-- A preprocessor on all lines has a level for each group. -/
theorem exists_cons (h : Follows (g :: gs) kept all) : ∃ a outer, all = a :: outer := by
  cases h with
  | dead => exact ⟨_, _, rfl⟩
  | unwritten => exact ⟨_, _, rfl⟩
  | written => exact ⟨_, _, rfl⟩

/-- A preprocessor on the kept lines has a level for each group with a written directive. -/
theorem exists_cons_of_written (h : Follows (g :: gs) kept all) (hin : g.inLive = true)
    (hwritten : g.written = true) : ∃ k outer, kept = k :: outer := by
  cases h with
  | dead inLive => rw [hin] at inLive; cases inLive
  | unwritten inLive outer written => rw [hwritten] at written; cases written
  | written => exact ⟨_, _, rfl⟩

variable {a k : Level} {value : Bool}

/-- An arm that cannot be live: one behind a taken arm, or one whose condition fails. -/
theorem next_dead (h : Follows (g :: gs) kept (a :: all)) (hin : g.inLive = true)
    (hvalue : g.anyTaken = true ∨ (a = .waiting → value = false)) :
    Follows ({ g with arm := .dead } :: gs) kept (a.next value :: all) := by
  cases h with
  | dead inLive => rw [hin] at inLive; cases inLive
  | unwritten inLive outer written arm taken rest =>
    have hlevel : (g.level (Level.liveIn all)).next value
        = { g with arm := .dead }.level (Level.liveIn all) := by
      cases hall : Level.liveIn all with
      | false => rfl
      | true =>
        rw [hall] at hvalue
        cases harm : g.arm <;> cases hany : g.anyTaken <;>
          simp_all [Group.level, Level.next]
    rw [hlevel]
    exact .unwritten inLive outer written nofun nofun rest
  | written inLive outer written nested dead taken anyTaken same waiting rest =>
    refine .written inLive outer written ?_ ?_ nofun ?_ nofun ?_ rest
    · cases a <;> cases value <;> simp_all [Level.next]
    · cases a <;> cases value <;> simp_all [Level.next]
    · cases a <;> cases value <;> simp_all [Level.next]
    · cases a <;> cases value <;> simp_all [Level.next]

/-- The arm behind failed ones, of a group without a written directive. -/
theorem next_taken_of_unwritten (h : Follows (g :: gs) kept (a :: all)) (hin : g.inLive = true)
    (hwritten : g.written = false) (hany : g.anyTaken = false)
    (hvalue : a = .waiting → value = true) :
    Follows ({ g with arm := .taken, anyTaken := true } :: gs) kept (a.next value :: all) := by
  cases h with
  | dead inLive => rw [hin] at inLive; cases inLive
  | unwritten inLive outer written arm taken rest =>
    have hlevel : (g.level (Level.liveIn all)).next value
        = { g with arm := .taken, anyTaken := true }.level (Level.liveIn all) := by
      cases hall : Level.liveIn all with
      | false => rfl
      | true =>
        rw [hall] at hvalue
        cases harm : g.arm <;> simp_all [Group.level, Level.next]
    rw [hlevel]
    exact .unwritten inLive outer written nofun (fun _ => rfl) rest
  | written inLive outer written => rw [hwritten] at written; cases written

/-- The arm behind undecided ones that is the last one to be reached: it is written as `#else`. -/
theorem next_taken_of_written (h : Follows (g :: gs) (k :: kept) (a :: all))
    (hin : g.inLive = true) (hwritten : g.written = true) (hvalue : a = .waiting → value = true) :
    Follows ({ g with arm := .taken, anyTaken := true } :: gs) (k.next true :: kept)
      (a.next value :: all) := by
  cases h with
  | dead inLive => rw [hin] at inLive; cases inLive
  | unwritten inLive outer written => rw [hwritten] at written; cases written
  | written inLive outer written nested dead taken anyTaken same waiting rest =>
    refine .written inLive outer written ?_ nofun (fun _ => rfl) ?_ ?_ ?_ rest
    · cases a <;> cases value <;> simp_all [Level.next]
    · cases a <;> cases value <;> simp_all [Level.next]
    · cases a <;> cases k <;> simp_all [Level.next]
    · cases a <;> cases k <;> simp_all [Level.next]

/-- The first undecided arm, behind failed ones: it is written as `#if`. -/
theorem next_uncertain_of_unwritten (h : Follows (g :: gs) kept (a :: all))
    (hin : g.inLive = true) (hwritten : g.written = false) (hany : g.anyTaken = false) :
    Follows ({ g with arm := .uncertain, written := true } :: gs)
      (.opened (Level.liveIn kept) value :: kept) (a.next value :: all) := by
  cases h with
  | dead inLive => rw [hin] at inLive; cases inLive
  | unwritten inLive outer written arm taken rest =>
    rw [rest.liveIn_eq outer]
    have hlevel : (g.level (Level.liveIn all)).next value
        = .opened (Level.liveIn all) value := by
      cases hall : Level.liveIn all with
      | false => rfl
      | true => cases harm : g.arm <;> cases value <;> simp_all [Group.level, Level.next, Level.opened]
    rw [hlevel]
    refine .written inLive outer rfl ?_ nofun nofun ?_ (fun _ => rfl) Iff.rfl rest
    · cases hall : Level.liveIn all <;> simp [Level.opened]
    · simp [hany]
  | written inLive outer written => rw [hwritten] at written; cases written

/-- Another undecided arm: it is written as `#elif`. -/
theorem next_uncertain_of_written (h : Follows (g :: gs) (k :: kept) (a :: all))
    (hin : g.inLive = true) (hwritten : g.written = true) (hany : g.anyTaken = false) :
    Follows ({ g with arm := .uncertain, written := true } :: gs) (k.next value :: kept)
      (a.next value :: all) := by
  cases h with
  | dead inLive => rw [hin] at inLive; cases inLive
  | unwritten inLive outer written => rw [hwritten] at written; cases written
  | written inLive outer written nested dead taken anyTaken same waiting rest =>
    have hnext : k.next value = a.next value := by
      cases a <;> cases k <;> simp_all [Level.next]
    rw [hnext]
    refine .written inLive outer rfl ?_ nofun nofun ?_ (fun _ => rfl) Iff.rfl rest
    · cases a <;> simp_all [Level.next]
    · simp [hany]

/-- In dead text no arm is live. -/
theorem next_of_dead (h : Follows (g :: gs) kept (a :: all)) (hin : g.inLive = false) :
    a.next value = a := by
  cases h with
  | dead => rfl
  | unwritten inLive => rw [hin] at inLive; cases inLive
  | written inLive => rw [hin] at inLive; cases inLive

/-- A group without a written directive has decided each of its arms. -/
theorem level_of_unwritten (h : Follows (g :: gs) kept (a :: all)) (hin : g.inLive = true)
    (hwritten : g.written = false) :
    g.arm ≠ .uncertain ∧ a = g.level (Level.liveIn all) := by
  cases h with
  | dead inLive => rw [hin] at inLive; cases inLive
  | unwritten inLive outer written arm => exact ⟨arm, rfl⟩
  | written inLive outer written => rw [hwritten] at written; cases written

theorem anyTaken_of_taken (h : Follows (g :: gs) kept (a :: all)) (hin : g.inLive = true)
    (harm : g.arm = .taken) : g.anyTaken = true := by
  cases h with
  | dead inLive => rw [hin] at inLive; cases inLive
  | unwritten inLive outer written arm taken => exact taken harm
  | written inLive outer written nested dead taken => exact taken harm

/-! ## The end of a group -/

theorem close_of_dead (h : Follows (g :: gs) kept (a :: all)) (hin : g.inLive = false) :
    Group.liveIn gs = false ∧ Follows gs kept all := by
  cases h with
  | dead inLive outer rest => exact ⟨outer, rest⟩
  | unwritten inLive => rw [hin] at inLive; cases inLive
  | written inLive => rw [hin] at inLive; cases inLive

theorem close_of_unwritten (h : Follows (g :: gs) kept (a :: all)) (hin : g.inLive = true)
    (hwritten : g.written = false) : Group.liveIn gs = true ∧ Follows gs kept all := by
  cases h with
  | dead inLive => rw [hin] at inLive; cases inLive
  | unwritten inLive outer written arm taken rest => exact ⟨outer, rest⟩
  | written inLive outer written => rw [hwritten] at written; cases written

theorem close_of_written (h : Follows (g :: gs) (k :: kept) (a :: all)) (hin : g.inLive = true)
    (hwritten : g.written = true) : Group.liveIn gs = true ∧ Follows gs kept all := by
  cases h with
  | dead inLive => rw [hin] at inLive; cases inLive
  | unwritten inLive outer written => rw [hwritten] at written; cases written
  | written inLive outer written nested dead taken anyTaken same waiting rest =>
    exact ⟨outer, rest⟩

end Follows

end ShaderMerge.Condition
