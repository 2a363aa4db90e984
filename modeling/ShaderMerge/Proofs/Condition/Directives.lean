import ShaderMerge.Proofs.Condition.Notes

/-!
# The directives of a text

Where a preprocessor is live, and which symbols it knows, depends on the directives it has read and
on nothing else (`sameState_run_directives`).  So two texts with the same directives leave it in the
same state, whatever other lines they have.
-/

namespace ShaderMerge.Condition

/-! ## The directives among some lines -/

/-- The lines that a preprocessor does not just hand on. -/
def directives (lines : List String) : List String :=
  lines.filter fun line => Control.ofLine line != .plain

section

variable {lines first second : List String} {line : String}

@[simp]
theorem directives_nil : directives [] = [] := rfl

@[simp]
theorem directives_append : directives (first ++ second) = directives first ++ directives second :=
  List.filter_append ..

theorem directives_cons (line : String) (lines : List String) :
    directives (line :: lines) = directives [line] ++ directives lines := by
  rw [← directives_append, List.singleton_append]

theorem directives_of_plain (h : ∀ line ∈ lines, Control.ofLine line = .plain) :
    directives lines = [] := by
  rw [directives, List.filter_eq_nil_iff]
  intro line hline
  simp [h line hline]

theorem directives_singleton (h : Control.ofLine line = .plain) : directives [line] = [] :=
  directives_of_plain (List.forall_mem_singleton.2 h)

/-- The notes of a filter are no directives. -/
theorem directives_withoutNotes (lines : List String) :
    directives (Group.withoutNotes lines) = directives lines := by
  rw [directives, directives, Group.withoutNotes, List.filter_filter]
  refine List.filter_congr fun line _ => ?_
  cases hnote : Group.isSkipNote line with
  | false => simp
  | true =>
    simp [Group.ofLine_of_isSkipNote hnote]

end

namespace Preprocessor

/-- Two preprocessors that differ in what they have handed on, if in anything. -/
structure SameState (c d : Preprocessor) : Prop where
  symbols : c.symbols = d.symbols
  levels : c.levels = d.levels

section

variable {oracle : Oracle} {c d e : Preprocessor} {line : String} {lines first second : List String}

theorem SameState.refl (c : Preprocessor) : SameState c c := ⟨rfl, rfl⟩

theorem SameState.symm (h : SameState c d) : SameState d c := ⟨h.symbols.symm, h.levels.symm⟩

theorem SameState.trans (h : SameState c d) (h' : SameState d e) : SameState c e :=
  ⟨h.symbols.trans h'.symbols, h.levels.trans h'.levels⟩

theorem SameState.isLive_eq (h : SameState c d) : c.isLive = d.isLive := by
  rw [isLive, isLive, h.levels]

/-- A run depends on the state that it starts in, and not on what has been handed on. -/
theorem SameState.run (h : SameState c d) (oracle : Oracle) (lines : List String) :
    SameState (c.run oracle lines) (d.run oracle lines) := by
  -- Whatever has been handed on before stands in front of what the run hands on.
  have hbehind : ∀ c : Preprocessor, SameState (c.run oracle lines)
      (({ c with output := [] } : Preprocessor).run oracle lines) := by
    intro c
    have hsplit : c = ({ c with output := [] } : Preprocessor).behind c.output := by
      rw [behind, List.append_nil]
    have hrun := run_behind oracle c.output { c with output := [] } lines
    rw [← hsplit] at hrun
    rw [hrun]
    exact ⟨rfl, rfl⟩
  have hsame : ({ c with output := [] } : Preprocessor) = { d with output := [] } := by
    rw [h.symbols, h.levels]
  have hfirst := hbehind c
  rw [hsame] at hfirst
  exact hfirst.trans (hbehind d).symm

theorem sameState_step_of_plain (h : Control.ofLine line = .plain) (oracle : Oracle)
    (c : Preprocessor) : SameState (c.step oracle line) c := by
  rw [step, h]
  change SameState (c.pass line) c
  rw [pass]
  split
  · exact ⟨rfl, rfl⟩
  · exact .refl c

/-- **The directives of a text decide the state behind it.** -/
theorem sameState_run_directives (oracle : Oracle) (c : Preprocessor) (lines : List String) :
    SameState (c.run oracle lines) (c.run oracle (directives lines)) := by
  induction lines generalizing c with
  | nil => exact .refl c
  | cons line rest ih =>
    rw [directives_cons, run_cons, run_append]
    by_cases hline : Control.ofLine line = .plain
    · rw [directives_singleton hline]
      exact (ih _).trans ((sameState_step_of_plain hline oracle c).run oracle _)
    · have hkept : directives [line] = [line] := by
        rw [directives, List.filter_cons_of_pos (by simpa using hline), List.filter_nil]
      rw [hkept]
      exact ih _

theorem SameState.run_of_directives (h : SameState c d) (oracle : Oracle)
    (hdirectives : directives first = directives second) :
    SameState (c.run oracle first) (d.run oracle second) := by
  have hsecond := (sameState_run_directives oracle d second).symm
  rw [← hdirectives] at hsecond
  exact ((sameState_run_directives oracle c first).trans (h.run oracle _)).trans hsecond

end

end Preprocessor

/-! ## What a filter keeps -/

/-- What a filter makes of a line: either it lets the line through and writes nothing, or it takes
the line. -/
def Fed.IsPlain {σ : Type} (fed : Fed σ) : Prop := fed.feed = .live → fed.written = []

theorem Fed.isPlain_of_consumed {σ : Type} {fed : Fed σ} (h : fed.feed = .consumed) :
    fed.IsPlain := by
  intro hlive
  rw [h] at hlive
  cases hlive

namespace Filter

variable {f : Filter}

theorem isPlain_pass (f : Filter) : f.pass.IsPlain := by
  rw [pass]
  split
  · exact fun _ => rfl
  · exact Fed.isPlain_of_consumed rfl

theorem isPlain_openGroup (f : Filter) (value : Truth) (line : String) :
    (f.openGroup value line).IsPlain := by
  rw [openGroup]
  split
  · exact Fed.isPlain_of_consumed rfl
  · exact Fed.isPlain_of_consumed rfl

theorem isPlain_nextArm (f : Filter) (condition : Option String) :
    (f.nextArm condition).IsPlain := by
  rw [nextArm]
  split
  · exact fun _ => rfl
  · split
    · exact isPlain_pass f
    · dsimp only
      split
      · exact Fed.isPlain_of_consumed rfl
      · split
        · exact Fed.isPlain_of_consumed rfl
        · split
          · exact Fed.isPlain_of_consumed rfl
          · exact Fed.isPlain_of_consumed rfl
          · exact Fed.isPlain_of_consumed rfl

theorem isPlain_closeGroup (f : Filter) : f.closeGroup.IsPlain := by
  rw [closeGroup]
  split
  · exact fun _ => rfl
  · split
    · exact isPlain_pass _
    · exact Fed.isPlain_of_consumed rfl

theorem isPlain_define (f : Filter) (name : String) (isDefined : Bool) :
    (f.define name isDefined).IsPlain := by
  rw [define]
  split
  · exact fun _ => rfl
  · exact isPlain_pass f

/-- A line that a filter lets through comes without others. -/
theorem isPlain_feed (f : Filter) (line : String) : (f.feed line).IsPlain := by
  rw [feed]
  split
  · split
    · exact isPlain_openGroup _ _ line
    · exact isPlain_openGroup f _ line
  · exact isPlain_openGroup f _ line
  · exact isPlain_openGroup f _ line
  · exact isPlain_nextArm f _
  · exact isPlain_nextArm f _
  · exact isPlain_closeGroup f
  · exact isPlain_define f _ _
  · exact isPlain_define f _ _
  · exact isPlain_pass f

/-- A line of code is let through where a filter is live. -/
theorem feed_eq_live_iff {line : String} (h : Control.ofLine line = .plain) :
    (f.feed line).feed = .live ↔ f.isLive = true := by
  rw [feed, h]
  change f.pass.feed = .live ↔ f.isLive = true
  rw [pass]
  cases f.isLive with
  | true => exact iff_of_true rfl rfl
  | false => exact iff_of_false (by simp) (by decide)

end Filter

/-- What is kept of a line has the directives of what is written for it. -/
theorem Fed.directives_kept {σ : Type} (fed : Fed σ) (line : String) :
    directives (fed.kept line)
      = directives (fed.written ++ if fed.feed = .live then [line] else []) := by
  rw [Fed.kept, directives_append, directives_append, directives_withoutNotes]

end ShaderMerge.Condition
