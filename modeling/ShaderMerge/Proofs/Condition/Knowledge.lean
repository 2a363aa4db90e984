import ShaderMerge.Proofs.Condition.Groups
import ShaderMerge.Proofs.Condition.Soundness
import ShaderMerge.Proofs.Table
import Mathlib.Tactic.ByContra

/-!
# What a filter knows inside open groups

A filter that is inside some groups may know things that hold only there.  `Knows σ` says how far
its frames are right about the symbols `σ` of a classical preprocessor on the same lines:

- in a live arm, all frames together are right;
- while a group waits for a live arm, the frames outside of it are right, since no arm of it has
  changed a symbol;
- otherwise the frames outside are right up to the names that the group has changed, in the open
  arm or in an earlier one.  These are the names that the group settles when it ends.

There is one lemma for each way in which a line changes the scopes.
-/

namespace ShaderMerge

namespace Condition

/-! ## Scopes -/

namespace Scopes

/-- Scopes that are right about symbols, except perhaps of some names. -/
def RightOff (s : Scopes) (σ : Symbols) (changed : String → Prop) : Prop :=
  ∀ name value, ¬ changed name → s.get name = Truth.ofBool value → σ name = value

theorem setAll_eq (s : Scopes) (values : List (String × Truth)) :
    s.setAll values =
      match s.arms with
      | [] => { s with root := s.root.insertAll values }
      | frame :: outer => { s with arms := frame.insertAll values :: outer } := by
  induction values generalizing s with
  | nil =>
    obtain ⟨root, arms⟩ := s
    cases arms <;> rfl
  | cons e rest ih =>
    have hstep : s.setAll (e :: rest) = (s.set e.1 e.2).setAll rest := rfl
    rw [hstep, ih]
    obtain ⟨root, arms⟩ := s
    cases arms <;> rfl

/-- A look-up answers something that was set for its name, or what it answered before. -/
theorem get_setAll (s : Scopes) (values : List (String × Truth)) (name : String) :
    (name, (s.setAll values).get name) ∈ values
      ∨ name ∉ values.map (·.1) ∧ (s.setAll values).get name = s.get name := by
  induction values generalizing s with
  | nil => exact .inr ⟨List.not_mem_nil, rfl⟩
  | cons e rest ih =>
    have hstep : s.setAll (e :: rest) = (s.set e.1 e.2).setAll rest := rfl
    rw [hstep]
    rcases ih (s.set e.1 e.2) with hmem | ⟨hnot, heq⟩
    · exact .inl (List.mem_cons_of_mem _ hmem)
    · rw [heq, get_set]
      by_cases hname : name = e.1
      · rw [if_pos hname, hname]
        exact .inl List.mem_cons_self
      · rw [if_neg hname]
        refine .inr ⟨?_, rfl⟩
        rw [List.map_cons, List.mem_cons, not_or]
        exact ⟨hname, hnot⟩

/-- What the innermost frame says is what a look-up answers. -/
theorem get_of_get? {frame : Frame} {root : Frame} {outer : List Frame} {name : String}
    {value : Truth} (h : frame.get? name = some value) :
    (⟨root, frame :: outer⟩ : Scopes).get name = value := by
  simp [get, frames, h]

end Scopes

/-- A new filter knows of a name only what it is given. -/
theorem Filter.mem_of_defined_new {known : List (String × Bool)} {name : String} {value : Bool}
    (h : (Filter.new known).defined name = Truth.ofBool value) : (name, value) ∈ known := by
  have hnew : (Filter.new known).scopes
      = (⟨∅, []⟩ : Scopes).setAll (known.map fun e => (e.1, Truth.ofBool e.2)) := by
    rw [Scopes.setAll_eq]
    rfl
  rw [Filter.defined, hnew] at h
  rcases Scopes.get_setAll ⟨∅, []⟩ (known.map fun e => (e.1, Truth.ofBool e.2)) name with
    hmem | ⟨-, hget⟩
  · rw [h, List.mem_map] at hmem
    obtain ⟨⟨n, v⟩, hknown, heq⟩ := hmem
    rw [Prod.mk.injEq, Truth.ofBool_inj] at heq
    rw [← heq.1, ← heq.2]
    exact hknown
  · rw [hget] at h
    exact absurd h.symm (Truth.ofBool_ne_unknown value)

/-! ## One group -/

namespace Group

/-- The names whose symbols an open group may have changed, added to others. -/
def changed (g : Group) (frame : Frame) (others : String → Prop) : String → Prop :=
  fun name => others name ∨ frame.contains name = true ∨ Table.contains g.touched name = true

/-- What a group has noted about its arms is right, in live or in dead text. -/
structure Notes (g : Group) (σ : Symbols) (frame : Frame) (outer : Bool) : Prop where
  kept_right : ∀ changes, g.kept = some changes → outer = true → ∀ name value,
    changes.get? name = some (Truth.ofBool value) → σ name = value
  touched_kept : g.written = false → ∀ name, Table.contains g.touched name = true →
    ∃ changes, g.kept = some changes ∧ changes.contains name = true
  kept_dead : g.kept.isSome = true → g.arm = .dead ∧ g.anyTaken = true
  dead_empty : g.arm = .dead → frame = ∅

/-- A group whose arm is not dead has kept nothing that could be wrong. -/
theorem Notes.change {g : Group} {σ σ' : Symbols} {frame frame' : Frame} {outer : Bool}
    (h : g.Notes σ frame outer) (harm : g.arm ≠ .dead) : g.Notes σ' frame' outer where
  kept_right changes hkept := by
    have hsome : g.kept.isSome = true := by rw [hkept]; rfl
    exact absurd (h.kept_dead hsome).1 harm
  touched_kept := h.touched_kept
  kept_dead := h.kept_dead
  dead_empty hdead := absurd hdead harm

theorem contains_touched_endArm (g : Group) (frame : Frame) (name : String) :
    Table.contains (g.endArm frame).1.touched name = true
      ↔ Table.contains g.touched name = true
        ∨ g.arm ≠ .dead ∧ frame.contains name = true := by
  cases harm : g.arm with
  | taken => simp [endArm, harm, NameSet.contains_addAll, Table.mem_keys_iff]
  | uncertain => simp [endArm, harm, NameSet.contains_addAll, Table.mem_keys_iff]
  | dead =>
    simp only [endArm, harm]
    split <;> simp

theorem kept_endArm (g : Group) (frame : Frame) :
    (g.endArm frame).1.kept
      = if g.arm = .taken ∧ g.written = false then some frame else g.kept := by
  cases harm : g.arm with
  | taken => cases hwritten : g.written <;> simp [endArm, harm, hwritten]
  | uncertain => simp [endArm, harm]
  | dead =>
    simp only [endArm, harm]
    split <;> simp

/-- The names that a group may have changed are those it has noted when its arm ends. -/
theorem Notes.contains_touched {g : Group} {σ : Symbols} {frame : Frame} {outer : Bool}
    (h : g.Notes σ frame outer) {name : String} (hname : g.changed frame (fun _ => False) name) :
    Table.contains (g.endArm frame).1.touched name = true := by
  rw [contains_touched_endArm]
  rcases hname with hfalse | hframe | htouched
  · exact hfalse.elim
  · refine .inr ⟨?_, hframe⟩
    intro hdead
    rw [h.dead_empty hdead] at hframe
    cases hframe
  · exact .inl htouched

/-- Without a written directive, what a group has noted when its arm ends is what it keeps. -/
theorem Notes.kept_of_touched {g : Group} {σ : Symbols} {frame : Frame} {outer : Bool}
    (h : g.Notes σ frame outer) (hwritten : g.written = false) (harm : g.arm ≠ .uncertain)
    {name : String} (hname : Table.contains (g.endArm frame).1.touched name = true) :
    ∃ changes, (g.endArm frame).1.kept = some changes ∧ changes.contains name = true := by
  rw [kept_endArm]
  rcases (contains_touched_endArm g frame name).1 hname with htouched | ⟨hdead, hframe⟩
  · obtain ⟨changes, hkept, hchanges⟩ := h.touched_kept hwritten name htouched
    have hdead : g.arm = .dead := (h.kept_dead (by rw [hkept]; rfl)).1
    exact ⟨changes, by simp [hdead, hkept], hchanges⟩
  · have htaken : g.arm = .taken := by
      cases hcase : g.arm with
      | taken => rfl
      | uncertain => exact absurd hcase harm
      | dead => exact absurd hcase hdead
    exact ⟨frame, by simp [htaken, hwritten], hframe⟩

/-- What a group keeps when its arm ends is right. -/
theorem Notes.kept_right_endArm {g : Group} {σ : Symbols} {frame : Frame} {outer : Bool}
    (h : g.Notes σ frame outer)
    (hframe : g.arm = .taken → g.written = false → outer = true → ∀ name value,
      frame.get? name = some (Truth.ofBool value) → σ name = value)
    {changes : Frame} (hkept : (g.endArm frame).1.kept = some changes) (houter : outer = true)
    {name : String} {value : Bool} (hget : changes.get? name = some (Truth.ofBool value)) :
    σ name = value := by
  rw [kept_endArm] at hkept
  split at hkept
  · rename_i hcase
    cases hkept
    exact hframe hcase.1 hcase.2 houter name value hget
  · exact h.kept_right changes hkept houter name value hget

/-- What is known behind a group whose last arm has ended. -/
def settled (g : Group) : List (String × Truth) :=
  if g.written then g.touched.keys.map fun name => (name, Truth.unknown)
  else (g.kept.map (·.entries)).getD []

theorem settled_of_written {g : Group} (h : g.written = true) :
    g.settled = g.touched.keys.map fun name => (name, Truth.unknown) := by
  rw [settled, if_pos h]

theorem settled_of_unwritten {g : Group} (h : g.written = false) :
    g.settled = (g.kept.map (·.entries)).getD [] := by
  rw [settled, if_neg (by simp [h])]

end Group

/-! ## All groups -/

/-- How far the scopes of a filter inside open groups are right about the symbols of a classical
preprocessor, next to its levels; up to the names that may have changed. -/
inductive Knows (σ : Symbols) :
    (String → Prop) → List Group → Scopes → List Level → Prop where
  | nil {changed : String → Prop} {root : Frame} (right : Scopes.RightOff ⟨root, []⟩ σ changed) :
      Knows σ changed [] ⟨root, []⟩ []
  | dead {changed : String → Prop} {g : Group} {gs : List Group} {s : Scopes} {l : Level}
      {ls : List Level} (inLive : g.inLive = false) (rest : Knows σ changed gs s ls) :
      Knows σ changed (g :: gs) s (l :: ls)
  | live {changed : String → Prop} {g : Group} {gs : List Group} {root frame : Frame}
      {outer : List Frame} {l : Level} {ls : List Level} (inLive : g.inLive = true)
      (live : l = .live → Scopes.RightOff ⟨root, frame :: outer⟩ σ changed)
      (waiting : l = .waiting → Scopes.RightOff ⟨root, outer⟩ σ fun _ => False)
      (notes : g.Notes σ frame (Level.liveIn ls))
      (rest : Knows σ (g.changed frame changed) gs ⟨root, outer⟩ ls) :
      Knows σ changed (g :: gs) ⟨root, frame :: outer⟩ (l :: ls)

namespace Knows

variable {σ σ' : Symbols} {changed changed' : String → Prop} {g g' : Group} {gs : List Group}
  {s : Scopes} {l : Level} {ls : List Level}

/-- In live text a filter is right about every name. -/
theorem right (h : Knows σ changed gs s ls) (hfilter : Group.liveIn gs = true)
    (hlive : Level.liveIn ls = true) : s.RightOff σ changed := by
  cases h with
  | nil right => exact right
  | dead inLive => simp [Group.liveIn_cons, inLive] at hfilter
  | live inLive live => exact live (by simpa [Level.liveIn_cons] using hlive)

/-- While a group waits for a live arm, what is known around it is right. -/
theorem right_outside (h : Knows σ changed (g :: gs) s (l :: ls)) (hin : g.inLive = true)
    (hl : l = .waiting) : s.pop.2.RightOff σ fun _ => False := by
  cases h with
  | dead inLive => rw [hin] at inLive; cases inLive
  | live inLive live waiting => exact waiting hl

/-- More names may have changed. -/
theorem mono (h : Knows σ changed gs s ls) (hsub : ∀ name, changed name → changed' name) :
    Knows σ changed' gs s ls := by
  induction h generalizing changed' with
  | nil right => exact .nil fun name value hnot => right name value fun hc => hnot (hsub name hc)
  | dead inLive rest ih => exact .dead inLive (ih hsub)
  | live inLive live waiting notes rest ih =>
    refine .live inLive ?_ waiting notes (ih ?_)
    · intro hl name value hnot
      exact live hl name value fun hc => hnot (hsub name hc)
    · rintro name (hc | hc)
      · exact .inl (hsub name hc)
      · exact .inr hc

/-- The symbols of the names that may have changed do change, inside live arms only. -/
theorem change (h : Knows σ changed gs s ls) (hdiff : ∀ name, σ' name ≠ σ name → changed name)
    (hlevels : σ' ≠ σ → ∀ l ∈ ls, l = .live) (harms : ∀ g ∈ gs, g.arm ≠ .dead) :
    Knows σ' changed gs s ls := by
  by_cases hσ : σ' = σ
  · rw [hσ]
    exact h
  have hright : ∀ {s : Scopes} {changed : String → Prop}, s.RightOff σ changed →
      (∀ name, σ' name ≠ σ name → changed name) → s.RightOff σ' changed := by
    intro s changed hs hdiff name value hnot hget
    have heq : σ' name = σ name := Classical.byContradiction fun hne => hnot (hdiff name hne)
    rw [heq]
    exact hs name value hnot hget
  have hall := hlevels hσ
  clear hlevels
  induction h with
  | nil right => exact .nil (hright right hdiff)
  | dead inLive rest ih =>
    refine .dead inLive (ih hdiff ?_ ?_)
    · exact fun g hg => harms g (List.mem_cons_of_mem _ hg)
    · exact fun l hl => hall l (List.mem_cons_of_mem _ hl)
  | live inLive live waiting notes rest ih =>
    refine .live inLive (fun hl => hright (live hl) hdiff) ?_ ?_ (ih ?_ ?_ ?_)
    · intro hl
      rw [hall _ List.mem_cons_self] at hl
      cases hl
    · exact notes.change (harms _ List.mem_cons_self)
    · exact fun name hne => .inl (hdiff name hne)
    · exact fun g hg => harms g (List.mem_cons_of_mem _ hg)
    · exact fun l hl => hall l (List.mem_cons_of_mem _ hl)

/-! ## Bookkeeping -/

theorem countSkipped (h : Knows σ changed gs s ls) :
    Knows σ changed (Filter.countSkipped gs) s ls := by
  induction h with
  | nil right => exact .nil right
  | dead inLive rest ih =>
    rw [Filter.countSkipped, if_neg (by simp [inLive])]
    exact .dead inLive ih
  | live inLive live waiting notes rest =>
    rw [Filter.countSkipped, if_pos inLive]
    exact .live inLive live waiting
      ⟨notes.kept_right, notes.touched_kept, notes.kept_dead, notes.dead_empty⟩ rest

/-! ## Setting names -/

/-- Names are set in the innermost frame, to what their symbols are. -/
theorem setAll (h : Knows σ changed gs s ls) (values : List (String × Truth))
    (hfilter : Group.liveIn gs = true) (harms : ∀ g ∈ gs, g.arm ≠ .dead)
    (hlevels : σ' ≠ σ → ∀ l ∈ ls, l = .live)
    (hdiff : ∀ name, σ' name ≠ σ name → name ∈ values.map (·.1))
    (hchanged : ∀ name, changed name → name ∈ values.map (·.1))
    (hvalues : Level.liveIn ls = true → ∀ name value, (name, Truth.ofBool value) ∈ values →
      σ' name = value) :
    Knows σ' (fun _ => False) gs (s.setAll values) ls := by
  -- What is not set has not changed, so that it is right if it was.
  have hright : ∀ {s : Scopes}, Level.liveIn ls = true → s.RightOff σ changed →
      (s.setAll values).RightOff σ' fun _ => False := by
    intro s hlive hs name value _ hget
    rcases s.get_setAll values name with hmem | ⟨hnot, heq⟩
    · rw [hget] at hmem
      exact hvalues hlive name value hmem
    · have hsame : σ' name = σ name := Classical.byContradiction fun hne => hnot (hdiff name hne)
      rw [hsame]
      exact hs name value (fun hc => hnot (hchanged name hc)) (heq ▸ hget)
  cases h with
  | nil right =>
    have hset := hright rfl right
    rw [Scopes.setAll_eq] at hset ⊢
    exact .nil hset
  | dead inLive => simp [Group.liveIn_cons, inLive] at hfilter
  | @live _ g gs root frame outer l ls inLive live waiting notes rest =>
    have hset : l = .live → _ := fun hl => hright (by simp [Level.liveIn_cons, hl]) (live hl)
    rw [Scopes.setAll_eq] at hset ⊢
    refine .live inLive hset ?_ (notes.change (harms g List.mem_cons_self)) ?_
    · intro hl
      have hσ : σ' = σ := by
        by_cases hσ : σ' = σ
        · exact hσ
        · rw [hlevels hσ l List.mem_cons_self] at hl
          cases hl
      rw [hσ]
      exact waiting hl
    -- The outer groups see the names that are set as changed by the innermost one.
    · have hframe : ∀ name, name ∈ values.map (·.1) →
          g.changed (frame.insertAll values) (fun _ => False) name := fun name hname =>
        .inr (.inl ((Table.contains_insertAll frame values name).2 (.inr hname)))
      refine (rest.mono ?_).change (fun name hne => hframe name (hdiff name hne)) ?_ ?_
      · rintro name (hc | hc | hc)
        · exact hframe name (hchanged name hc)
        · exact .inr (.inl ((Table.contains_insertAll frame values name).2 (.inl hc)))
        · exact .inr (.inr hc)
      · exact fun hσ l hl => hlevels hσ l (List.mem_cons_of_mem _ hl)
      · exact fun g hg => harms g (List.mem_cons_of_mem _ hg)

/-- A definition sets a name in the filter, and in live text in the symbols. -/
theorem set (h : Knows σ (fun _ => False) gs s ls) (hfilter : Group.liveIn gs = true)
    (harms : ∀ g ∈ gs, g.arm ≠ .dead) (hlevels : Level.liveIn ls = true → ∀ l ∈ ls, l = .live)
    (name : String) (isDefined : Bool) :
    Knows (if Level.liveIn ls then σ.set name isDefined else σ) (fun _ => False) gs
      (s.set name (Truth.ofBool isDefined)) ls := by
  refine h.setAll [(name, Truth.ofBool isDefined)] hfilter harms ?_ ?_ ?_ ?_
  · intro hne
    cases hlive : Level.liveIn ls with
    | true => exact hlevels hlive
    | false =>
      rw [hlive, if_neg Bool.false_ne_true] at hne
      exact absurd rfl hne
  · intro n hne
    by_contra hmem
    have hn : n ≠ name := by simpa using hmem
    split at hne
    · exact hne (σ.set_of_ne isDefined hn)
    · exact hne rfl
  · exact fun _ hfalse => hfalse.elim
  · intro hlive n value hmem
    rw [List.mem_singleton, Prod.mk.injEq, Truth.ofBool_inj] at hmem
    rw [hmem.1, hmem.2, if_pos hlive, Symbols.set_self]

/-! ## The ends of an arm and of a group -/

/-- A group opens in text that the filter hands on. -/
theorem openGroup (h : Knows σ (fun _ => False) gs s ls) (hfilter : Group.liveIn gs = true)
    (hnested : l ≠ .done → Level.liveIn ls = true) (value : Truth) :
    Knows σ (fun _ => False) (.opened value :: gs) s.push (l :: ls) := by
  have hkept : (Group.opened value).kept = none := by cases value <;> rfl
  have htouched : (Group.opened value).touched = ∅ := by cases value <;> rfl
  refine .live (by cases value <;> rfl) ?_ ?_ ⟨?_, ?_, ?_, fun _ => rfl⟩ (h.mono fun _ hf => hf.elim)
  · intro hl
    exact h.right hfilter (hnested (by simp [hl]))
  · intro hl
    exact h.right hfilter (hnested (by simp [hl]))
  · simp [hkept]
  · intro _ name hname
    rw [htouched] at hname
    cases hname
  · simp [hkept]

/-- What a taken arm without a written directive says is right, if it is live. -/
theorem frame_right {root frame : Frame} {outer : List Frame}
    (hlive : l = .live → Scopes.RightOff ⟨root, frame :: outer⟩ σ fun _ => False)
    (hlevel : g.written = false → g.arm ≠ .uncertain ∧ l = g.level (Level.liveIn ls))
    (htaken : g.arm = .taken) (hwritten : g.written = false) (houter : Level.liveIn ls = true)
    (name : String) (value : Bool) (hget : frame.get? name = some (Truth.ofBool value)) :
    σ name = value := by
  have hl : l = .live := by
    rw [(hlevel hwritten).2]
    exact Group.level_eq_live_iff.2 ⟨houter, htaken⟩
  exact hlive hl name value not_false (Scopes.get_of_get? hget)

/-- Another arm begins.  Behind a taken arm it is a dead one. -/
theorem nextArm (h : Knows σ (fun _ => False) (g :: gs) s (l :: ls)) (hin : g.inLive = true)
    (hlevel : g.written = false → g.arm ≠ .uncertain ∧ l = g.level (Level.liveIn ls))
    (htaken : g.arm = .taken → g.anyTaken = true) {arm : Arm} {anyTaken written : Bool}
    (harm : arm ≠ .dead → g.anyTaken = false) (hany : g.anyTaken = true → anyTaken = true)
    (hwritten : written = false → g.written = false) (value : Bool) :
    Knows σ (fun _ => False)
      ({ (g.endArm s.pop.1).1 with arm := arm, anyTaken := anyTaken, written := written } :: gs)
      s.pop.2.push (l.next value :: ls) := by
  cases h with
  | dead inLive => rw [hin] at inLive; cases inLive
  | @live _ g gs root frame outer l ls inLive live waiting notes rest =>
    have hright : l = .waiting → Scopes.RightOff ⟨root, ∅ :: outer⟩ σ fun _ => False := waiting
    refine .live ((g.like_endArm frame).inLive.trans hin) ?_ ?_ ⟨?_, ?_, ?_, fun _ => rfl⟩ ?_
    · intro hl
      refine hright ?_
      cases l <;> cases value <;> simp_all [Level.next]
    · intro hl
      refine waiting ?_
      cases l <;> cases value <;> simp_all [Level.next]
    · intro changes hkept houter name value hget
      exact notes.kept_right_endArm (frame_right live hlevel) hkept houter hget
    · intro hw name hname
      exact notes.kept_of_touched (hwritten hw) (hlevel (hwritten hw)).1 hname
    -- An arm that was kept as the last word was taken, so the next one is dead.
    · intro hsome
      have hgany : g.anyTaken = true := by
        simp only [Group.kept_endArm] at hsome
        split at hsome
        · rename_i hcase
          exact htaken hcase.1
        · exact (notes.kept_dead hsome).2
      refine ⟨?_, hany hgany⟩
      by_cases hdead : arm = .dead
      · exact hdead
      · have hnone := harm hdead
        rw [hgany] at hnone
        cases hnone
    · exact rest.mono fun name hname => .inr (.inr (notes.contains_touched hname))

/-- The end of a group in dead text changes nothing. -/
theorem close_of_dead (h : Knows σ changed (g :: gs) s (l :: ls)) (hin : g.inLive = false) :
    Knows σ changed gs s ls := by
  cases h with
  | dead inLive rest => exact rest
  | live inLive => rw [hin] at inLive; cases inLive

/-- A group ends, and what it settles is set around it. -/
theorem closeGroup (h : Knows σ (fun _ => False) (g :: gs) s (l :: ls)) (hin : g.inLive = true)
    (hlevel : g.written = false → g.arm ≠ .uncertain ∧ l = g.level (Level.liveIn ls))
    (hfilter : Group.liveIn gs = true) (harms : ∀ g ∈ gs, g.arm ≠ .dead) :
    Knows σ (fun _ => False) gs (s.pop.2.setAll (g.endArm s.pop.1).1.settled) ls := by
  cases h with
  | dead inLive => rw [hin] at inLive; cases inLive
  | @live _ g gs root frame outer l ls inLive live waiting notes rest =>
    have hlike := (g.like_endArm frame).written
    refine rest.setAll _ hfilter harms (fun hne => absurd rfl hne) (fun _ hne => absurd rfl hne) ?_ ?_
    · intro name hname
      show name ∈ (g.endArm frame).1.settled.map (·.1)
      have htouched := notes.contains_touched hname
      cases hwritten : g.written with
      | true =>
        rw [Group.settled_of_written (hlike.trans hwritten)]
        simpa [List.map_map, Function.comp_def, Table.mem_keys_iff] using htouched
      | false =>
        obtain ⟨changes, hkept, hmem⟩ :=
          notes.kept_of_touched hwritten (hlevel hwritten).1 htouched
        rw [Group.settled_of_unwritten (hlike.trans hwritten), hkept]
        exact (Table.mem_keys_iff changes name).2 hmem
    · intro houter name value hmem
      change (name, Truth.ofBool value) ∈ (g.endArm frame).1.settled at hmem
      cases hwritten : g.written with
      | true =>
        rw [Group.settled_of_written (hlike.trans hwritten), List.mem_map] at hmem
        obtain ⟨_, _, heq⟩ := hmem
        exact absurd (Prod.mk.inj heq).2.symm (Truth.ofBool_ne_unknown value)
      | false =>
        rw [Group.settled_of_unwritten (hlike.trans hwritten)] at hmem
        cases hkept : (g.endArm frame).1.kept with
        | none => rw [hkept] at hmem; cases hmem
        | some changes =>
          rw [hkept] at hmem
          have hget := (Table.mem_entries_iff String.lt_irrefl changes name _).1 hmem
          exact notes.kept_right_endArm (frame_right live hlevel) hkept houter hget

end Knows

end Condition

end ShaderMerge
