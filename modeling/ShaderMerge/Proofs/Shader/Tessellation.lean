import ShaderMerge.Proofs.Shader.Programs

/-!
# Shaders without tessellation

A pragma for a stage of the tessellation, with or without a name, marks the shader.  So in a shader
that is not marked no pass has a function for such a stage.  A builder keeps to this from event to event
(`IsHonest.event`).
-/

namespace ShaderMerge.Builder

open Include (Sources Walk Event isProgramStart isBlockEnd)

variable {b b' : Builder} {p p' : Program} {line : String} {stage : Stage}

/-! ## Pragmas -/

/-- Behind a pragma that leaves no mark, a stage of the tessellation is bound as before. -/
theorem bindings_pragma_of_unmarked (hstage : stage.isTessellation = true) {words : List String}
    (h : (b.pragma p words).1.hasTessellation = false) :
    b.hasTessellation = false ∧ (b.pragma p words).2.bindings.get stage = p.bindings.get stage := by
  rw [bindings_pragma]
  cases words with
  | nil => exact ⟨h, rfl⟩
  | cons first others =>
    rw [pragma.eq_def] at h
    dsimp only at h
    cases hfirst : Stage.ofName? first with
    | some bound =>
      rw [hfirst, Bool.or_eq_false_iff] at h
      obtain ⟨hunmarked, hbound⟩ := h
      have hne : bound ≠ stage := by
        rintro rfl
        rw [hstage] at hbound
        cases hbound
      refine ⟨hunmarked, ?_⟩
      rw [nameFor?_cons, hfirst, if_neg fun heq => hne (Option.some.inj heq), Option.none_or]
    | none =>
      rw [hfirst] at h
      refine ⟨?_, by rw [nameFor?_cons, hfirst, if_neg (Option.some_ne_none stage).symm, Option.none_or]⟩
      dsimp only at h
      split at h <;> exact h

theorem bindings_directiveLine_of_unmarked (hstage : stage.isTessellation = true)
    (h : (b.directiveLine p line).1.hasTessellation = false) :
    b.hasTessellation = false ∧
      (b.directiveLine p line).2.bindings.get stage = p.bindings.get stage := by
  rw [directiveLine] at h ⊢
  split
  · rename_i rest hdirective
    rw [hdirective] at h
    exact bindings_pragma_of_unmarked hstage h
  · rename_i rest hdirective
    rw [hdirective] at h
    exact ⟨h, rfl⟩
  · rename_i hpragma hdefine
    refine ⟨?_, rfl⟩
    split at h
    · rename_i rest hdirective
      exact absurd hdirective (hpragma rest)
    · rename_i rest hdirective
      exact absurd hdirective (hdefine rest)
    · exact h

theorem hasTessellation_liveLine (h : b.liveLine p line = .ok (b', p')) :
    b'.hasTessellation = b.hasTessellation := by
  rw [liveLine] at h
  split at h
  · cases h
    rfl
  · cases h
    rfl
  · split at h
    · split at h <;> cases h
      rfl
    · split at h <;> cases h <;> rfl

/-! ## Stages that are never bound -/

/-- Whether no pass has a function for a stage, nor gets one from what has been read of its block. -/
structure Avoids (b : Builder) (stage : Stage) : Prop where
  passes : ∀ pass ∈ b.passes, pass.entryPoints.get stage = none
  program : ∀ p, b.program = some p → p.bindings.get stage = none

theorem hasTessellation_endProgram (h : b.endProgram p = .ok b') :
    b'.hasTessellation = b.hasTessellation := by
  rw [Builder.endProgram] at h
  obtain ⟨found, -, h⟩ := exists_ok_of_bind h
  split at h
  · cases h
  · split at h <;> cases h
    rfl

theorem Avoids.endProgram (h : b.Avoids stage) (hprogram : b.program = some p)
    (hread : b.endProgram p = .ok b') : b'.Avoids stage := by
  rw [Builder.endProgram] at hread
  obtain ⟨found, hfound, hread⟩ := exists_ok_of_bind hread
  split at hread
  · cases hread
  · split at hread
    · cases hread
    · cases hread
      refine ⟨fun pass hpass => ?_, fun q hq => ?_⟩
      · rcases List.mem_append.1 hpass with hpass | hpass
        · exact h.passes pass hpass
        · rw [List.mem_singleton.1 hpass]
          rw [(isBoundTo_of_entryPoints hfound stage).1, h.program p hprogram]
          rfl
      · cases hq

/-- What no mark means for what has been read. -/
def IsHonest (b : Builder) : Prop :=
  b.hasTessellation = false → ∀ stage, stage.isTessellation = true → b.Avoids stage

theorem IsHonest.programLine (h : b.IsHonest) (hprogram : b.program = some p)
    (hread : b.programLine p line = .ok b') : b'.IsHonest := by
  intro hunmarked stage hstage
  rw [Builder.programLine] at hread
  split at hread
  · rw [hasTessellation_endProgram hread] at hunmarked
    exact (h hunmarked stage hstage).endProgram hprogram hread
  · split at hread
    · cases hread
      exact h hunmarked stage hstage
    · dsimp only at hread
      split at hread
      · cases hread
        have havoids := h hunmarked stage hstage
        refine ⟨havoids.passes, fun q hq => ?_⟩
        cases hq
        exact havoids.program p hprogram
      · cases hread
        have havoids := h hunmarked stage hstage
        refine ⟨havoids.passes, fun q hq => ?_⟩
        cases hq
        exact havoids.program p hprogram
      · cases hread
        obtain ⟨hbefore, hsame⟩ := bindings_directiveLine_of_unmarked hstage hunmarked
        have havoids := h hbefore stage hstage
        refine ⟨fun pass hpass => ?_, fun q hq => ?_⟩
        · exact havoids.passes pass (passes_directiveLine b _ line ▸ hpass)
        · cases hq
          exact hsame.trans (havoids.program p hprogram)
      · obtain ⟨⟨b₁, p₁⟩, hlive, heq⟩ := exists_ok_of_map hread
        cases heq
        have hbefore : b.hasTessellation = false := (hasTessellation_liveLine hlive).symm.trans hunmarked
        have havoids := h hbefore stage hstage
        refine ⟨fun pass hpass => ?_, fun q hq => ?_⟩
        · exact havoids.passes pass (passes_liveLine hlive ▸ hpass)
        · cases hq
          rw [(keepsNames_liveLine hlive).bindings]
          exact havoids.program p hprogram

theorem IsHonest.outerLine (h : b.IsHonest) (hprogram : b.program = none)
    (hread : b.outerLine line = .ok b') : b'.IsHonest := by
  intro hunmarked stage hstage
  rw [show b'.hasTessellation = b.hasTessellation from congrArg Prod.snd (code_outerLine hread)]
    at hunmarked
  have havoids := h hunmarked stage hstage
  cases hstart : isProgramStart line with
  | true =>
    rw [Builder.outerLine, if_pos hstart] at hread
    cases hread
    refine ⟨havoids.passes, fun q hq => ?_⟩
    cases hq
    cases stage <;> rfl
  | false =>
    have hkeeps := keeps_outerLine hstart hread
    refine ⟨hkeeps.passes ▸ havoids.passes, fun q hq => ?_⟩
    have hsome := hkeeps.program
    rw [hq, hprogram] at hsome
    cases hsome

theorem IsHonest.event {s : Sources} {w w' : Walk} {e : Event} (h : b.IsHonest)
    (hread : Builder.event s b w e = .ok (b', w')) : b'.IsHonest := by
  cases e with
  | line file text =>
    obtain ⟨b₁, hline, heq⟩ := exists_ok_of_map hread
    cases heq
    cases hprogram : b.program with
    | some p =>
      rw [hprogram] at hline
      exact h.programLine hprogram hline
    | none =>
      rw [hprogram] at hline
      exact h.outerLine hprogram hline
  | include_ file directive target =>
    rw [Builder.event] at hread
    split at hread
    · cases hread
      exact h
    · rename_i p hprogram
      -- Only the filter of the block changes.
      have hafter : IsHonest
          { b with program := some { p with filter := (p.filter.feed directive).filter } } := by
        intro hunmarked stage hstage
        have havoids := h hunmarked stage hstage
        refine ⟨havoids.passes, fun q hq => ?_⟩
        cases hq
        exact havoids.program p hprogram
      dsimp only at hread
      split at hread <;> cases hread <;> exact hafter
  | endInclude directive target =>
    cases hread
    exact h

end ShaderMerge.Builder
