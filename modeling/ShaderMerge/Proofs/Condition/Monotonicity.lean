import ShaderMerge.Proofs.Condition.Preservation
import ShaderMerge.Proofs.Condition.Scopes

/-!
# A filter that knows more

Two filters read the same lines, and the second one starts with everything that the first one
knows.  Main result: a line that is live to the second filter is live to the first one as well,
and wherever the second one is in live text, it still knows everything that the first one knows
(`Filter.live_of_extends`).

The open groups of the two filters correspond one by one, but the first filter may be undecided
about a group that the second one has decided, and may stand in a group that is dead text for the
second one (`Refines.hidden`).  `Filter.Trails` is the invariant that one line preserves
(`Filter.Trails.feed`).  It says nothing of what the first filter learns where the text is dead for
the second one.  That does no harm: what a group of the first filter sets behind it covers what the
same group of the second one sets (`Group.Refines.covers`).
-/

namespace ShaderMerge

/-! ## Values -/

namespace Truth

/-- A value that says no more than another one. -/
def Below (s t : Truth) : Prop := s = unknown ∨ t = s

theorem below_iff {s t : Truth} :
    s.Below t ↔ ∀ value, s = ofBool value → t = ofBool value := by
  cases s <;> cases t <;> simp [Below, ofBool]

theorem Below.refl (s : Truth) : s.Below s := .inr rfl

theorem Below.not {s t : Truth} (h : s.Below t) : s.not.Below t.not := by
  rcases h with rfl | rfl
  · exact .inl rfl
  · exact .refl _

theorem Below.and {s t s' t' : Truth} (h : s.Below t) (h' : s'.Below t') :
    (s.and s').Below (t.and t') := by
  cases s <;> cases t <;> cases s' <;> cases t' <;> simp_all [Below, Truth.and]

theorem Below.or {s t s' t' : Truth} (h : s.Below t) (h' : s'.Below t') :
    (s.or s').Below (t.or t') := by
  cases s <;> cases t <;> cases s' <;> cases t' <;> simp_all [Below, Truth.or]

end Truth

namespace Condition

/-- The more is known of names, the more is known of an expression. -/
theorem Expr.truth_below {known more : String → Truth}
    (h : ∀ name, (known name).Below (more name)) (e : Expr) :
    (e.truth known).Below (e.truth more) := by
  induction e with
  | literal value => exact .refl _
  | defined name => exact h name
  | not term ih => exact ih.not
  | group inner ih => exact ih
  | join joiner chain last ihChain ihLast =>
    simp only [Expr.truth]
    split
    · cases joiner with
      | and => exact ihChain.and ihLast
      | or => exact ihChain.or ihLast
    · exact .refl _

/-! ## Scopes -/

namespace Scopes

/-- Scopes that know no more of any name than others. -/
def Below (s t : Scopes) : Prop := ∀ name, (s.get name).Below (t.get name)

/-- What is set over some scopes, next to what is set over scopes that know less: the latter names
every name of the former, and what it says the former says too. -/
structure Covers (values values' : List (String × Truth)) (outer : Scopes) : Prop where
  names : ∀ name ∈ values'.map (·.1), name ∈ values.map (·.1)
  right : ∀ name value, (name, Truth.ofBool value) ∈ values →
    (outer.setAll values').get name = Truth.ofBool value

variable {s t : Scopes} {values values' : List (String × Truth)}

theorem Below.setAll (h : s.Below t) (hcovers : Covers values values' t) :
    (s.setAll values).Below (t.setAll values') := by
  intro name
  rw [Truth.below_iff]
  intro value hget
  rcases s.get_setAll values name with hmem | ⟨hnot, heq⟩
  · rw [hget] at hmem
    exact hcovers.right name value hmem
  · rcases t.get_setAll values' name with hmem | ⟨_, heq'⟩
    · exact absurd (hcovers.names name (List.mem_map_of_mem hmem)) hnot
    · rw [heq']
      exact Truth.below_iff.1 (h name) value (heq ▸ hget)

/-- A definition sets one name to the same value on both sides. -/
theorem covers_define (t : Scopes) (name : String) (isDefined : Bool) :
    Covers [(name, Truth.ofBool isDefined)] [(name, Truth.ofBool isDefined)] t where
  names _ hmem := hmem
  right n value hmem := by
    rw [List.mem_singleton, Prod.mk.injEq] at hmem
    rw [hmem.1, hmem.2]
    exact (t.get_set name name _).trans (if_pos rfl)

theorem get_setAll_entries (s : Scopes) (frame : Frame) (name : String) :
    (s.setAll frame.entries).get name = (frame.get? name).getD (s.get name) := by
  obtain ⟨root, arms⟩ := s
  rw [setAll_eq]
  cases arms <;> cases hframe : frame.get? name <;>
    simp [get, frames, List.findSome?_cons, Table.get?_insertAll, hframe]

/-- Two frames that are set around the arms that they belong to. -/
theorem covers_entries {root root' frame frame' : Frame} {outer outer' : List Frame}
    (hbelow : Below ⟨root, frame :: outer⟩ ⟨root', frame' :: outer'⟩)
    (hnames : ∀ name, frame'.contains name = true → frame.contains name = true) :
    Covers frame.entries frame'.entries ⟨root', outer'⟩ where
  names name hmem := (Table.mem_keys_iff frame name).2
    (hnames name ((Table.mem_keys_iff frame' name).1 hmem))
  right name value hmem := by
    have hframe : frame.get? name = some (Truth.ofBool value) :=
      (Table.mem_entries_iff String.lt_irrefl frame name _).1 hmem
    rw [get_setAll_entries, ← get_cons]
    exact Truth.below_iff.1 (hbelow name) value (get_of_get? hframe)

end Scopes

/-! ## One group -/

namespace Group

/-- A group in live text, as a filter has decided it that knows more, next to the same group of
one that knows less; `outer` is what the former knows around the group. -/
structure Refines (g g' : Group) (outer : Scopes) : Prop where
  anyTaken : g.anyTaken = true → g'.anyTaken = true
  arm : g'.arm ≠ .dead → g.arm ≠ .dead
  written : g'.written = true → g.written = true
  touched : ∀ name, Table.contains g'.touched name = true → Table.contains g.touched name = true
  settled : ∀ name ∈ g'.settled.map (·.1), Table.contains g'.touched name = true
  same : g.written = false → g.arm = g'.arm ∧ g.anyTaken = g'.anyTaken
  kept : g.written = false → Scopes.Covers g.settled g'.settled outer

theorem names_settled_of_written {g : Group} (h : g.written = true) (name : String) :
    name ∈ g.settled.map (·.1) ↔ Table.contains g.touched name = true := by
  rw [settled_of_written h]
  simp [List.map_map, Function.comp_def, Table.mem_keys_iff]

namespace Refines

variable {g g' : Group} {outer : Scopes}

theorem unwritten (h : g.Refines g' outer) (hwritten : g.written = false) :
    g'.written = false := by
  cases hcase : g'.written with
  | false => rfl
  | true => rw [h.written hcase] at hwritten; cases hwritten

/-- What a group settles covers what it settles for a filter that knows more. -/
theorem covers (h : g.Refines g' outer) : Scopes.Covers g.settled g'.settled outer := by
  cases hwritten : g.written with
  | false => exact h.kept hwritten
  | true =>
    constructor
    · intro name hname
      exact (names_settled_of_written hwritten name).2 (h.touched name (h.settled name hname))
    · intro name value hmem
      rw [settled_of_written hwritten, List.mem_map] at hmem
      obtain ⟨_, _, heq⟩ := hmem
      exact absurd (Prod.mk.inj heq).2.symm (Truth.ofBool_ne_unknown value)

/-- Only what is known of a group matters, not the lines it has dropped. -/
theorem skip (h : g.Refines g' outer) (count count' : Nat) :
    Refines { g with skipped := count } { g' with skipped := count' } outer :=
  ⟨h.anyTaken, h.arm, h.written, h.touched, h.settled, h.same, h.kept⟩

/-- A group opens in text that is live to both filters. -/
theorem opened {value value' : Truth} (h : value.Below value') (outer : Scopes) :
    (Group.opened value).Refines (.opened value') outer := by
  have hsettled : ∀ value : Truth, (Group.opened value).settled = [] := by
    intro value
    cases value <;> rfl
  have htouched : ∀ value : Truth, (Group.opened value).touched = ∅ := by
    intro value
    cases value <;> rfl
  refine ⟨?_, ?_, ?_, ?_, ?_, ?_, ?_⟩
  · rcases h with rfl | rfl
    · nofun
    · exact id
  · rcases h with rfl | rfl
    · exact fun _ => nofun
    · exact id
  · rcases h with rfl | rfl
    · exact fun _ => rfl
    · exact id
  · rw [htouched, htouched]
    exact fun _ => id
  · rw [hsettled]
    exact nofun
  · rcases h with rfl | rfl
    · nofun
    · exact fun _ => ⟨rfl, rfl⟩
  · intro _
    rw [hsettled, hsettled]
    exact ⟨fun _ => id, fun _ _ => nofun⟩

/-- The names that a group settles when its arm ends are those it has noted. -/
theorem names_settled_endArm (hsettled : ∀ name ∈ g.settled.map (·.1),
    Table.contains g.touched name = true) (frame : Frame) :
    ∀ name ∈ (g.endArm frame).1.settled.map (·.1),
      Table.contains (g.endArm frame).1.touched name = true := by
  intro name hname
  have hlike := (g.like_endArm frame).written
  cases hwritten : g.written with
  | true => exact (names_settled_of_written (hlike.trans hwritten) name).1 hname
  | false =>
    rw [settled_of_unwritten (hlike.trans hwritten), kept_endArm] at hname
    rw [contains_touched_endArm]
    split at hname
    · next harm => exact .inr ⟨by simp [harm.1], (Table.mem_keys_iff frame name).1 hname⟩
    · rw [← settled_of_unwritten hwritten] at hname
      exact .inl (hsettled name hname)

/-- The arm that is read ends for both filters, with the frames it has filled. -/
theorem endArm {root root' frame frame' : Frame} {arms arms' : List Frame}
    (h : g.Refines g' ⟨root', arms'⟩)
    (hframes : g'.arm ≠ .dead → Scopes.Below ⟨root, frame :: arms⟩ ⟨root', frame' :: arms'⟩ ∧
      ∀ name, frame'.contains name = true → frame.contains name = true) :
    (g.endArm frame).1.Refines (g'.endArm frame').1 ⟨root', arms'⟩ := by
  have hlike := g.like_endArm frame
  have hlike' := g'.like_endArm frame'
  refine ⟨?_, ?_, ?_, ?_, names_settled_endArm h.settled frame', ?_, ?_⟩
  · rw [hlike.anyTaken, hlike'.anyTaken]
    exact h.anyTaken
  · rw [hlike.arm, hlike'.arm]
    exact h.arm
  · rw [hlike.written, hlike'.written]
    exact h.written
  · intro name hname
    rw [contains_touched_endArm] at hname ⊢
    rcases hname with htouched | ⟨harm, hframe⟩
    · exact .inl (h.touched name htouched)
    · exact .inr ⟨h.arm harm, (hframes harm).2 name hframe⟩
  · rw [hlike.written, hlike.arm, hlike'.arm, hlike.anyTaken, hlike'.anyTaken]
    exact h.same
  · rw [hlike.written]
    intro hwritten
    have hwritten' := h.unwritten hwritten
    have hkept := h.kept hwritten
    rw [settled_of_unwritten hwritten, settled_of_unwritten hwritten'] at hkept
    rw [settled_of_unwritten (hlike.written.trans hwritten),
      settled_of_unwritten (hlike'.written.trans hwritten'), kept_endArm, kept_endArm]
    -- Neither filter is undecided here, so both keep what the arm changed or neither does.
    cases harm : g'.arm with
    | taken =>
      have hboth := hframes (by simp [harm])
      simp only [(h.same hwritten).1, harm, hwritten, hwritten', and_self, if_true]
      exact Scopes.covers_entries hboth.1 hboth.2
    | uncertain => simpa [(h.same hwritten).1, harm] using hkept
    | dead => simpa [(h.same hwritten).1, harm] using hkept

end Refines

/-- The group with its next arm, given the value of the condition of that arm. -/
def nextArm (g : Group) (value : Truth) : Group :=
  if g.anyTaken then { g with arm := .dead }
  else
    match value with
    | .yes => { g with arm := .taken, anyTaken := true }
    | .no => { g with arm := .dead }
    | .unknown => { g with arm := .uncertain, written := true }

theorem nextArm_of_anyTaken {g : Group} (h : g.anyTaken = true) (value : Truth) :
    g.nextArm value = { g with arm := .dead } := if_pos h

theorem touched_nextArm (g : Group) (value : Truth) : (g.nextArm value).touched = g.touched := by
  cases hany : g.anyTaken <;> cases value <;> simp [nextArm, hany]

theorem names_settled_nextArm {g : Group} (h : ∀ name ∈ g.settled.map (·.1),
    Table.contains g.touched name = true) (value : Truth) :
    ∀ name ∈ (g.nextArm value).settled.map (·.1),
      Table.contains (g.nextArm value).touched name = true := by
  cases hany : g.anyTaken with
  | true =>
    rw [nextArm_of_anyTaken hany]
    exact h
  | false =>
    cases value with
    | yes =>
      simp only [nextArm, hany]
      exact h
    | no =>
      simp only [nextArm, hany]
      exact h
    | unknown =>
      simp only [nextArm, hany]
      exact fun name => (names_settled_of_written rfl name).1

theorem inLive_nextArm (g : Group) (value : Truth) : (g.nextArm value).inLive = g.inLive := by
  cases hany : g.anyTaken <;> cases value <;> simp [nextArm, hany]

namespace Refines

variable {g g' : Group} {outer : Scopes}

/-- Of a group with a written directive little has to be known. -/
theorem of_written (h : g.Refines g' outer) {value value' : Truth}
    (hwritten : (g.nextArm value).written = true)
    (hany : (g.nextArm value).anyTaken = true → (g'.nextArm value').anyTaken = true)
    (harm : (g'.nextArm value').arm ≠ .dead → (g.nextArm value).arm ≠ .dead) :
    (g.nextArm value).Refines (g'.nextArm value') outer where
  anyTaken := hany
  arm := harm
  written _ := hwritten
  touched := by
    rw [touched_nextArm, touched_nextArm]
    exact h.touched
  settled := names_settled_nextArm h.settled value'
  same hfalse := by rw [hwritten] at hfalse; cases hfalse
  kept hfalse := by rw [hwritten] at hfalse; cases hfalse

/-- The next arm begins, under a condition of which the second filter knows no less. -/
theorem nextArm (h : g.Refines g' outer) {value value' : Truth} (hvalue : value.Below value') :
    (g.nextArm value).Refines (g'.nextArm value') outer := by
  cases hany : g.anyTaken with
  | true =>
    rw [nextArm_of_anyTaken hany, nextArm_of_anyTaken (h.anyTaken hany)]
    exact ⟨h.anyTaken, id, h.written, h.touched, h.settled,
      fun hwritten => ⟨rfl, (h.same hwritten).2⟩, h.kept⟩
  | false =>
    cases hany' : g'.anyTaken with
    | true =>
      -- The filters have decided this group differently, so the first one has written of it.
      have hwritten : g.written = true := by
        cases hcase : g.written with
        | true => rfl
        | false =>
          have hsame := (h.same hcase).2
          rw [hany, hany'] at hsame
          cases hsame
      refine h.of_written ?_ ?_ ?_
      · cases value <;> simp [Group.nextArm, hany, hwritten]
      · simp [Group.nextArm, hany']
      · simp [Group.nextArm, hany']
    | false =>
      rcases hvalue with rfl | rfl
      · refine h.of_written ?_ ?_ ?_
        · simp [Group.nextArm, hany]
        · simp [Group.nextArm, hany]
        · simp [Group.nextArm, hany]
      · cases value' with
        | yes =>
          simp only [Group.nextArm, hany, hany', Bool.false_eq_true, if_false]
          exact ⟨id, id, h.written, h.touched, h.settled, fun _ => ⟨rfl, rfl⟩, h.kept⟩
        | no =>
          simp only [Group.nextArm, hany, hany', Bool.false_eq_true, if_false]
          exact ⟨id, id, h.written, h.touched, h.settled, fun _ => ⟨rfl, rfl⟩, h.kept⟩
        | unknown =>
          refine h.of_written ?_ ?_ ?_
          · simp [Group.nextArm, hany]
          · simp [Group.nextArm, hany]
          · simp [Group.nextArm, hany]

end Refines

end Group

/-! ## All groups -/

/-- The open groups and the scopes of a filter, next to those of one that knows more. -/
inductive Refines : List Group → Scopes → List Group → Scopes → Prop where
  | nil {root root' : Frame} (below : Scopes.Below ⟨root, []⟩ ⟨root', []⟩) :
      Refines [] ⟨root, []⟩ [] ⟨root', []⟩
  /-- The group stands in dead text. -/
  | dead {g g' : Group} {gs gs' : List Group} {s s' : Scopes} (inLive : g.inLive = false)
      (inLive' : g'.inLive = false) (outer : Group.liveIn gs' = false)
      (rest : Refines gs s gs' s') : Refines (g :: gs) s (g' :: gs') s'
  /-- Only for the second filter the group stands in dead text. -/
  | hidden {g g' : Group} {gs gs' : List Group} {root frame : Frame} {arms : List Frame}
      {s' : Scopes} (inLive : g.inLive = true) (inLive' : g'.inLive = false)
      (outer : Group.liveIn gs' = false) (rest : Refines gs ⟨root, arms⟩ gs' s') :
      Refines (g :: gs) ⟨root, frame :: arms⟩ (g' :: gs') s'
  /-- The group stands in live text. -/
  | live {g g' : Group} {gs gs' : List Group} {root root' frame frame' : Frame}
      {arms arms' : List Frame} (inLive : g.inLive = true) (inLive' : g'.inLive = true)
      (outer : Group.liveIn gs' = true) (group : g.Refines g' ⟨root', arms'⟩)
      (frames : g'.arm ≠ .dead → Scopes.Below ⟨root, frame :: arms⟩ ⟨root', frame' :: arms'⟩ ∧
        ∀ name, frame'.contains name = true → frame.contains name = true)
      (rest : Refines gs ⟨root, arms⟩ gs' ⟨root', arms'⟩) :
      Refines (g :: gs) ⟨root, frame :: arms⟩ (g' :: gs') ⟨root', frame' :: arms'⟩

namespace Refines

variable {g g' : Group} {gs gs' : List Group} {s s' : Scopes}

/-- What is live to the second filter is live to the first one. -/
theorem liveIn (h : Refines gs s gs' s') (hlive : Group.liveIn gs' = true) :
    Group.liveIn gs = true := by
  cases h with
  | nil => rfl
  | dead inLive inLive' => simp [Group.liveIn_cons, inLive'] at hlive
  | hidden inLive inLive' => simp [Group.liveIn_cons, inLive'] at hlive
  | live inLive inLive' outer group =>
    simp only [Group.liveIn_cons, inLive, inLive', Bool.true_and, bne_iff_ne] at hlive ⊢
    exact group.arm hlive

/-- In text that is live to the second filter, it knows what the first one knows. -/
theorem scopes_below (h : Refines gs s gs' s') (hlive : Group.liveIn gs' = true) : s.Below s' := by
  cases h with
  | nil below => exact below
  | dead inLive inLive' => simp [Group.liveIn_cons, inLive'] at hlive
  | hidden inLive inLive' => simp [Group.liveIn_cons, inLive'] at hlive
  | live inLive inLive' outer group frames =>
    simp only [Group.liveIn_cons, inLive', Bool.true_and, bne_iff_ne] at hlive
    exact (frames hlive).1

/-! ### Dropped lines do not matter -/

theorem countSkipped_left (h : Refines gs s gs' s') :
    Refines (Filter.countSkipped gs) s gs' s' := by
  induction h with
  | nil below => exact .nil below
  | dead inLive inLive' outer rest ih =>
    rw [Filter.countSkipped, if_neg (by simp [inLive])]
    exact .dead inLive inLive' outer ih
  | hidden inLive inLive' outer rest ih =>
    rw [Filter.countSkipped, if_pos inLive]
    exact .hidden inLive inLive' outer rest
  | live inLive inLive' outer group frames rest ih =>
    rw [Filter.countSkipped, if_pos inLive]
    exact .live inLive inLive' outer (group.skip _ _) frames rest

theorem countSkipped_right (h : Refines gs s gs' s') :
    Refines gs s (Filter.countSkipped gs') s' := by
  induction h with
  | nil below => exact .nil below
  | dead inLive inLive' outer rest ih =>
    rw [Filter.countSkipped, if_neg (by simp [inLive'])]
    exact .dead inLive inLive' ((Follows.liveIn_countSkipped _).trans outer) ih
  | hidden inLive inLive' outer rest ih =>
    rw [Filter.countSkipped, if_neg (by simp [inLive'])]
    exact .hidden inLive inLive' ((Follows.liveIn_countSkipped _).trans outer) ih
  | live inLive inLive' outer group frames rest ih =>
    rw [Filter.countSkipped, if_pos inLive']
    exact .live inLive inLive' outer (group.skip _ _) frames rest

/-! ### Setting names -/

/-- Names are set in text that is live to both filters. -/
theorem setAll (h : Refines gs s gs' s') (hlive : Group.liveIn gs' = true)
    {values values' : List (String × Truth)} (hcovers : Scopes.Covers values values' s') :
    Refines gs (s.setAll values) gs' (s'.setAll values') := by
  have hset := (h.scopes_below hlive).setAll hcovers
  cases h with
  | nil below =>
    rw [Scopes.setAll_eq, Scopes.setAll_eq] at hset ⊢
    exact .nil hset
  | dead inLive inLive' => simp [Group.liveIn_cons, inLive'] at hlive
  | hidden inLive inLive' => simp [Group.liveIn_cons, inLive'] at hlive
  | live inLive inLive' outer group frames rest =>
    rw [Scopes.setAll_eq, Scopes.setAll_eq] at hset ⊢
    refine .live inLive inLive' outer group (fun harm => ⟨hset, fun name hname => ?_⟩) rest
    rw [Table.contains_insertAll] at hname ⊢
    exact hname.imp ((frames harm).2 name) (hcovers.names name)

/-- Names are set in text that is dead for the second filter. -/
theorem setAll_left (h : Refines gs s gs' s') (hdead : Group.liveIn gs' = false)
    (values : List (String × Truth)) : Refines gs (s.setAll values) gs' s' := by
  induction h with
  | nil => cases hdead
  | dead inLive inLive' outer rest ih => exact .dead inLive inLive' outer (ih outer)
  | hidden inLive inLive' outer rest =>
    rw [Scopes.setAll_eq]
    exact .hidden inLive inLive' outer rest
  | live inLive inLive' outer group frames rest =>
    rw [Scopes.setAll_eq]
    refine .live inLive inLive' outer group (fun harm => ?_) rest
    simp [Group.liveIn_cons, inLive', harm] at hdead

/-! ### Opening a group -/

theorem open_live (h : Refines gs s gs' s') (hlive : Group.liveIn gs' = true)
    {value value' : Truth} (hvalue : value.Below value') :
    Refines (.opened value :: gs) s.push (.opened value' :: gs') s'.push := by
  have hin : ∀ value : Truth, (Group.opened value).inLive = true := by
    intro value
    cases value <;> rfl
  exact .live (hin value) (hin value') hlive (.opened hvalue s')
    (fun _ => ⟨h.scopes_below hlive, fun _ => id⟩) h

theorem open_hidden (h : Refines gs s gs' s') (hdead : Group.liveIn gs' = false)
    (value : Truth) :
    Refines (.opened value :: gs) s.push (.inDeadText :: Filter.countSkipped gs') s' :=
  .hidden (by cases value <;> rfl) rfl ((Follows.liveIn_countSkipped gs').trans hdead)
    h.countSkipped_right

theorem open_dead (h : Refines gs s gs' s') (hdead : Group.liveIn gs' = false) :
    Refines (.inDeadText :: Filter.countSkipped gs) s
      (.inDeadText :: Filter.countSkipped gs') s' :=
  .dead rfl rfl ((Follows.liveIn_countSkipped gs').trans hdead)
    h.countSkipped_left.countSkipped_right

/-! ### The groups of both filters -/

theorem inLive_of_inLive (h : Refines (g :: gs) s (g' :: gs') s') (hin : g'.inLive = true) :
    g.inLive = true ∧ Group.liveIn gs' = true := by
  cases h with
  | dead inLive inLive' => rw [hin] at inLive'; cases inLive'
  | hidden inLive inLive' => rw [hin] at inLive'; cases inLive'
  | live inLive inLive' outer => exact ⟨inLive, outer⟩

/-- Both filters end an arm of a group in live text. -/
theorem endArm (h : Refines (g :: gs) s (g' :: gs') s') (hin : g'.inLive = true) :
    (g.endArm s.pop.1).1.Refines (g'.endArm s'.pop.1).1 s'.pop.2 ∧
      Refines gs s.pop.2 gs' s'.pop.2 := by
  cases h with
  | dead inLive inLive' => rw [hin] at inLive'; cases inLive'
  | hidden inLive inLive' => rw [hin] at inLive'; cases inLive'
  | live inLive inLive' outer group frames rest => exact ⟨group.endArm frames, rest⟩

/-- A group that is dead text for the second filter, whatever the first one does with it. -/
theorem change_hidden (h : Refines (g :: gs) s (g' :: gs') s') (hin : g.inLive = true)
    (hin' : g'.inLive = false) {ended : Group} (hended : ended.inLive = true) :
    Refines (ended :: gs) s.pop.2.push (g' :: gs') s' := by
  cases h with
  | dead inLive => rw [hin] at inLive; cases inLive
  | hidden inLive inLive' outer rest => exact .hidden hended hin' outer rest
  | live inLive inLive' => rw [hin'] at inLive'; cases inLive'

theorem close_hidden (h : Refines (g :: gs) s (g' :: gs') s') (hin : g.inLive = true)
    (hin' : g'.inLive = false) (values : List (String × Truth)) :
    Refines gs (s.pop.2.setAll values) gs' s' := by
  cases h with
  | dead inLive => rw [hin] at inLive; cases inLive
  | hidden inLive inLive' outer rest => exact rest.setAll_left outer values
  | live inLive inLive' => rw [hin'] at inLive'; cases inLive'

theorem close_dead (h : Refines (g :: gs) s (g' :: gs') s') (hin : g.inLive = false) :
    Refines gs s gs' s' := by
  cases h with
  | dead inLive inLive' outer rest => exact rest
  | hidden inLive => rw [hin] at inLive; cases inLive
  | live inLive => rw [hin] at inLive; cases inLive

/-- Around a group in dead text the text is dead. -/
theorem outer_dead (h : Refines (g :: gs) s (g' :: gs') s') (hin' : g'.inLive = false) :
    Group.liveIn gs' = false := by
  cases h with
  | dead inLive inLive' outer => exact outer
  | hidden inLive inLive' outer => exact outer
  | live inLive inLive' => rw [hin'] at inLive'; cases inLive'

end Refines

/-! ## Both filters read a line -/

/-- A filter that is in the same place as another one and knows no more. -/
structure Filter.Trails (f f' : Filter) : Prop where
  refines : Refines f.groups f.scopes f'.groups f'.scopes
  usage : f.usage = f'.usage

/-- What becomes of one line for two filters: one still trails the other, and a line that is live
to the other one is live to it. -/
structure Fed.Trails (fed fed' : Fed Filter) : Prop where
  filter : fed.filter.Trails fed'.filter
  live : fed'.feed = .live → fed.feed = .live

theorem Fed.Trails.of_consumed {fed fed' : Fed Filter} (h : fed.filter.Trails fed'.filter)
    (hconsumed : fed'.feed = .consumed) : fed.Trails fed' := by
  refine ⟨h, fun hlive => ?_⟩
  rw [hconsumed] at hlive
  cases hlive

namespace Filter

/-- The value of the condition of the next arm, which is read outside of the group; the last arm
has no condition and holds. -/
def nextValue (f : Filter) (condition : Option String) : Truth :=
  (condition.map ({ f with scopes := f.scopes.pop.2 } : Filter).evaluate).getD .yes

/-- What the next arm of a group in live text does to the groups and the scopes. -/
theorem nextArm_eq {f : Filter} {g : Group} {gs : List Group} (hgroups : f.groups = g :: gs)
    (hin : g.inLive = true) (condition : Option String) :
    (f.nextArm condition).filter.groups
        = (g.endArm f.scopes.pop.1).1.nextArm (f.nextValue condition) :: gs ∧
      (f.nextArm condition).filter.scopes = f.scopes.pop.2.push ∧
      (f.nextArm condition).feed = .consumed := by
  have hany := (g.like_endArm f.scopes.pop.1).anyTaken
  rw [nextArm_of_inLive hgroups hin condition]
  dsimp only
  have hvalue : (condition.map ({ f with
      scopes := f.scopes.pop.2.push
      groups := (g.endArm f.scopes.pop.1).1 :: gs
      skippedLines := f.skippedLines + (g.endArm f.scopes.pop.1).2.2 } : Filter).evaluate).getD .yes
        = f.nextValue condition := rfl
  unfold Group.nextArm
  rw [hvalue, hany]
  split
  · exact ⟨rfl, rfl, rfl⟩
  · cases f.nextValue condition
    · exact ⟨rfl, rfl, rfl⟩
    · exact ⟨rfl, rfl, rfl⟩
    · exact ⟨rfl, rfl, rfl⟩

namespace Trails

variable {f f' : Filter}

theorem isLive (h : f.Trails f') (hlive : f'.isLive = true) : f.isLive = true := by
  rw [isLive_eq] at hlive ⊢
  exact h.refines.liveIn hlive

/-- In live text the second filter knows what the first one knows. -/
theorem defined (h : f.Trails f') (hlive : f'.isLive = true) (name : String) :
    (f.defined name).Below (f'.defined name) :=
  h.refines.scopes_below (f'.isLive_eq ▸ hlive) name

theorem countSkipped (h : f.Trails f') :
    f.Trails { f' with groups := Filter.countSkipped f'.groups } :=
  ⟨h.refines.countSkipped_right, h.usage⟩

/-- A condition is decided no differently by a filter that knows more. -/
theorem evaluate_below (f f' : Filter) (husage : f.usage = f'.usage)
    (h : f.scopes.Below f'.scopes) (expression : String) :
    (f.evaluate expression).Below (f'.evaluate expression) := by
  rw [evaluate, evaluate, husage]
  split
  · exact .refl _
  · rw [Condition.evaluate, Condition.evaluate]
    split
    · exact Expr.truth_below h _
    · exact .refl _

theorem pass_left (h : f.Trails f') : f.pass.filter.Trails f' := by
  rw [pass]
  split
  · exact h
  · exact ⟨h.refines.countSkipped_left, h.usage⟩

theorem pass (h : f.Trails f') : f.pass.Trails f'.pass := by
  cases hlive : f'.isLive with
  | true =>
    rw [pass_of_live hlive, pass_of_live (h.isLive hlive)]
    exact ⟨h, id⟩
  | false =>
    rw [pass_of_dead hlive]
    exact .of_consumed h.pass_left.countSkipped rfl

theorem define (h : f.Trails f') (name : String) (isDefined : Bool) :
    (f.define name isDefined).Trails (f'.define name isDefined) := by
  cases hlive' : f'.isLive with
  | true =>
    rw [Filter.define, Filter.define, if_pos hlive', if_pos (h.isLive hlive')]
    refine ⟨⟨?_, h.usage⟩, id⟩
    exact h.refines.setAll (f'.isLive_eq ▸ hlive') (Scopes.covers_define f'.scopes name isDefined)
  | false =>
    have hdefine : f'.define name isDefined = f'.pass := by
      rw [Filter.define, if_neg (by simp [hlive'])]
    rw [hdefine, pass_of_dead hlive']
    refine .of_consumed (countSkipped ?_) rfl
    rw [Filter.define]
    split
    · exact ⟨h.refines.setAll_left (f'.isLive_eq ▸ hlive') [(name, .ofBool isDefined)], h.usage⟩
    · exact h.pass_left

theorem report_left (h : f.Trails f') (expression : String) (value : Truth) :
    (f.report expression value).Trails f' := by
  rw [Filter.report]
  split
  · exact h
  · exact ⟨h.refines, h.usage⟩

theorem report_right (h : f.Trails f') (expression : String) (value : Truth) :
    f.Trails (f'.report expression value) := by
  rw [Filter.report]
  split
  · exact h
  · exact ⟨h.refines, h.usage⟩

theorem openGroup (h : f.Trails f') {value value' : Truth} (line : String)
    (hvalue : f'.isLive = true → value.Below value') :
    (f.openGroup value line).Trails (f'.openGroup value' line) := by
  cases hlive' : f'.isLive with
  | true =>
    rw [Filter.openGroup, Filter.openGroup, if_pos hlive', if_pos (h.isLive hlive')]
    exact .of_consumed
      ⟨h.refines.open_live (f'.isLive_eq ▸ hlive') (hvalue hlive'), h.usage⟩ rfl
  | false =>
    have hdead : Group.liveIn f'.groups = false := f'.isLive_eq ▸ hlive'
    rw [Filter.openGroup, Filter.openGroup, if_neg (by simp [hlive'] : ¬ f'.isLive = true)]
    split
    · exact .of_consumed ⟨h.refines.open_hidden hdead value, h.usage⟩ rfl
    · exact .of_consumed ⟨h.refines.open_dead hdead, h.usage⟩ rfl

/-- The two filters have the same number of open groups. -/
theorem groups_cases (h : f.Trails f') :
    f.groups = [] ∧ f'.groups = [] ∨
      ∃ g gs g' gs', f.groups = g :: gs ∧ f'.groups = g' :: gs' := by
  obtain ⟨hrefines, -⟩ := h
  generalize f.groups = groups, f.scopes = scopes, f'.groups = groups',
    f'.scopes = scopes' at hrefines
  cases hrefines with
  | nil => exact .inl ⟨rfl, rfl⟩
  | dead => exact .inr ⟨_, _, _, _, rfl, rfl⟩
  | hidden => exact .inr ⟨_, _, _, _, rfl, rfl⟩
  | live => exact .inr ⟨_, _, _, _, rfl, rfl⟩

theorem nextArm (h : f.Trails f') (condition : Option String) :
    (f.nextArm condition).Trails (f'.nextArm condition) := by
  have husage : (f.nextArm condition).filter.usage = (f'.nextArm condition).filter.usage := by
    rw [usage_nextArm, usage_nextArm]
    exact h.usage
  rcases h.groups_cases with ⟨hnil, hnil'⟩ | ⟨g, gs, g', gs', hgroups, hgroups'⟩
  · rw [Filter.nextArm, Filter.nextArm, hnil, hnil']
    exact ⟨h, id⟩
  have hrefines := h.refines
  rw [hgroups, hgroups'] at hrefines
  cases hin' : g'.inLive with
  | true =>
    obtain ⟨hin, houter⟩ := hrefines.inLive_of_inLive hin'
    obtain ⟨hended, hrest⟩ := hrefines.endArm hin'
    obtain ⟨hnext, hscopes, -⟩ := nextArm_eq hgroups hin condition
    obtain ⟨hnext', hscopes', hfeed'⟩ := nextArm_eq hgroups' hin' condition
    have hbelow := hrest.scopes_below houter
    -- The condition is read outside of the group, where the second filter knows no less.
    have hvalue : (f.nextValue condition).Below (f'.nextValue condition) := by
      cases condition with
      | none => exact .refl _
      | some expression =>
        exact evaluate_below { f with scopes := f.scopes.pop.2 }
          { f' with scopes := f'.scopes.pop.2 } h.usage hbelow expression
    refine .of_consumed ⟨?_, husage⟩ hfeed'
    rw [hnext, hscopes, hnext', hscopes']
    refine .live ?_ ?_ houter (hended.nextArm hvalue) (fun _ => ⟨hbelow, fun _ => id⟩) hrest
    · rw [Group.inLive_nextArm, (g.like_endArm _).inLive, hin]
    · rw [Group.inLive_nextArm, (g'.like_endArm _).inLive, hin']
  | false =>
    -- The second filter stands in dead text, whatever the first one makes of the arm.
    rw [nextArm_of_dead hgroups' hin'] at husage ⊢
    refine .of_consumed ⟨?_, husage⟩ rfl
    rw [hgroups']
    refine Refines.countSkipped_right ?_
    cases hin : g.inLive with
    | true =>
      obtain ⟨hnext, hscopes, -⟩ := nextArm_eq hgroups hin condition
      rw [hnext, hscopes]
      refine hrefines.change_hidden hin hin' ?_
      rw [Group.inLive_nextArm, (g.like_endArm _).inLive, hin]
    | false =>
      rw [nextArm_of_dead hgroups hin, hgroups]
      exact hrefines.countSkipped_left

theorem closeGroup (h : f.Trails f') : f.closeGroup.Trails f'.closeGroup := by
  rcases h.groups_cases with ⟨hnil, hnil'⟩ | ⟨g, gs, g', gs', hgroups, hgroups'⟩
  · rw [Filter.closeGroup, Filter.closeGroup, hnil, hnil']
    exact ⟨h, id⟩
  have hrefines := h.refines
  rw [hgroups, hgroups'] at hrefines
  cases hin' : g'.inLive with
  | true =>
    obtain ⟨hin, houter⟩ := hrefines.inLive_of_inLive hin'
    obtain ⟨hended, hrest⟩ := hrefines.endArm hin'
    rw [closeGroup_of_inLive hgroups hin, closeGroup_of_inLive hgroups' hin']
    exact .of_consumed ⟨hrest.setAll houter hended.covers, h.usage⟩ rfl
  | false =>
    have hdead : ({ f' with groups := gs' } : Filter).isLive = false := by
      rw [isLive_eq]
      exact hrefines.outer_dead hin'
    rw [closeGroup_of_dead hgroups' hin', pass_of_dead hdead]
    have hclosed : f.closeGroup.filter.Trails { f' with groups := gs' } := by
      cases hin : g.inLive with
      | true =>
        rw [closeGroup_of_inLive hgroups hin]
        exact ⟨hrefines.close_hidden hin hin' _, h.usage⟩
      | false =>
        rw [closeGroup_of_dead hgroups hin]
        have hrest : ({ f with groups := gs } : Filter).Trails { f' with groups := gs' } :=
          ⟨hrefines.close_dead hin, h.usage⟩
        exact hrest.pass_left
    exact .of_consumed hclosed.countSkipped rfl

/-- One line preserves the invariant. -/
theorem feed (h : f.Trails f') (line : String) : (f.feed line).Trails (f'.feed line) := by
  have hbelow : f'.isLive = true → f.scopes.Below f'.scopes := h.defined
  rw [Filter.feed, Filter.feed]
  cases Control.ofLine line with
  | openIf expression =>
    dsimp only
    cases hlive' : f'.isLive with
    | true =>
      rw [if_pos (h.isLive hlive'), if_pos rfl]
      refine ((h.report_left _ _).report_right _ _).openGroup line fun _ => ?_
      exact evaluate_below f f' h.usage (hbelow hlive') expression
    | false =>
      have hnever : ∀ {value : Truth}, f'.isLive = true → value.Below .unknown := by
        intro value hlive
        rw [hlive'] at hlive
        cases hlive
      rw [if_neg Bool.false_ne_true]
      split
      · exact (h.report_left _ _).openGroup line hnever
      · exact h.openGroup line hnever
  | openDefined name => exact h.openGroup line fun hlive => hbelow hlive name
  | openUndefined name => exact h.openGroup line fun hlive => (hbelow hlive name).not
  | elseIf expression => exact h.nextArm (some expression)
  | otherwise => exact h.nextArm none
  | close => exact h.closeGroup
  | define name => exact h.define name true
  | undefine name => exact h.define name false
  | plain => exact h.pass

/-- Any number of lines preserves the invariant. -/
theorem after (h : f.Trails f') (lines : List String) :
    (f.after lines).Trails (f'.after lines) := by
  induction lines generalizing f f' with
  | nil => exact h
  | cons line lines ih => exact ih (h.feed line).filter

end Trails

/-! ## Main result -/

/-- **A filter that knows more keeps no more.**  Of two filters that read the same lines with the
same usage of textures, let the second one start with all that the first one knows.  Then every
line that is live to the second one is live to the first one, and at every point that is live to
the second one it gives each name that the first one knows the same value. -/
theorem live_of_extends {known more : List (String × Bool)}
    (hmore : ∀ name value, (Filter.new known).defined name = Truth.ofBool value →
      (Filter.new more).defined name = Truth.ofBool value)
    (usage : Table String Bool) (lines : List String) :
    let small := (Filter.new known).withUsage usage
    let large := (Filter.new more).withUsage usage
    (∀ read line rest, lines = read ++ line :: rest →
      ((large.after read).feed line).feed = .live →
        ((small.after read).feed line).feed = .live) ∧
    ∀ read rest, lines = read ++ rest → (large.after read).isLive = true → ∀ name value,
      (small.after read).defined name = Truth.ofBool value →
        (large.after read).defined name = Truth.ofBool value := by
  intro small large
  have hstart : small.Trails large := ⟨.nil fun name => Truth.below_iff.2 (hmore name), rfl⟩
  constructor
  · intro read line rest _
    exact ((hstart.after read).feed line).live
  · intro read rest _ hlive name
    exact Truth.below_iff.1 ((hstart.after read).defined hlive name)

/-- A group that only the second filter has decided: the text of its last arm is live to the first
one alone, and what stands behind the group is live to both. -/
theorem live_of_extends_of_undecided :
    let small := (Filter.new [("A", true)]).withUsage ∅
    let large := (Filter.new [("B", true), ("A", true)]).withUsage ∅
    let group := ["#ifdef B", "#define C", "#else", "int a;", "#endif"]
    ((large.after (group.take 3)).feed "int a;").feed = .consumed ∧
      ((small.after (group.take 3)).feed "int a;").feed = .live ∧
      ((small.after group).feed "int b;").feed = .live ∧
      (small.after group).defined "C" = .unknown ∧ (large.after group).defined "C" = .yes ∧
      (large.after group).defined "A" = .yes := by
  intro small large group
  have hmore : ∀ name value, (Filter.new [("A", true)]).defined name = Truth.ofBool value →
      (Filter.new [("B", true), ("A", true)]).defined name = Truth.ofBool value := by
    intro name value hknown
    have hmem := Filter.mem_of_defined_new hknown
    rw [List.mem_singleton, Prod.mk.injEq] at hmem
    rw [hmem.1, hmem.2]
    decide +kernel
  obtain ⟨hlive, hnames⟩ := live_of_extends hmore ∅ (group ++ ["int b;"])
  refine ⟨by decide +kernel, by decide +kernel, ?_, by decide +kernel, by decide +kernel, ?_⟩
  · exact hlive group "int b;" [] rfl (by decide +kernel)
  · exact hnames group ["int b;"] rfl (by decide +kernel) "A" true (by decide +kernel)

end Filter
end Condition
end ShaderMerge
