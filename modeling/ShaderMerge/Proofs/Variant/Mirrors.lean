import ShaderMerge.Proofs.Variant.Readings

/-!
# The text of a block and the lines that it reads

A preprocessor that reads what is written for a program block and one that reads the lines of the
source for it go through the same groups: what the filter leaves out of the source is dead, and what
the block adds or changes is no directive.  The lines that a signature holds back are missing in the
text for a while.  So the two are compared behind them (`Mirrors`), which every stroke of a block
keeps (`Mirrors.step`).
-/

namespace ShaderMerge

/-! ## Lines that open no group -/

namespace Condition

/-- A line that neither opens a group nor ends one nor starts another arm. -/
inductive IsFlat (line : String) : Prop
  | plain (h : Control.ofLine line = .plain)
  | define (name : String) (h : Control.ofLine line = .define name)

namespace Preprocessor

variable {oracle : Oracle} {line : String} {lines : List String}

theorem levels_step_of_isFlat (h : IsFlat line) (oracle : Oracle) (c : Preprocessor) :
    (c.step oracle line).levels = c.levels := by
  cases h with
  | plain h => exact (sameState_step_of_plain h oracle c).levels
  | define name h =>
    rw [step, h]
    change (c.define line name true).levels = c.levels
    rw [define]
    split
    · rfl
    · rfl

theorem levels_run_of_isFlat (h : ∀ line ∈ lines, IsFlat line) (oracle : Oracle)
    (c : Preprocessor) : (c.run oracle lines).levels = c.levels := by
  induction lines generalizing c with
  | nil => rfl
  | cons line rest ih =>
    obtain ⟨hline, hrest⟩ := List.forall_mem_cons.1 h
    rw [run_cons, ih hrest, levels_step_of_isFlat hline]

end Preprocessor

end Condition

namespace Variant

open Condition (Control IsFlat Oracle Preprocessor Symbols directives)
open Include (Moment)

/-! ## The start of a block -/

/-- Whether a line has a first character, which is not that of a directive. -/
def HasCode (line : String) : Prop := line.toList.head?.any (· != '#') = true

section

variable {line first second : String}

/-- The first character of a literal tells. -/
theorem hasCode_of_head {c : Char} {cs : List Char} (h : c ≠ '#') :
    HasCode (String.ofList (c :: cs)) := by
  rw [HasCode, String.toList_ofList]
  exact bne_iff_ne.2 h

theorem HasCode.append (h : HasCode first) (second : String) : HasCode (first ++ second) := by
  rw [HasCode] at h ⊢
  rw [String.toList_append, List.head?_append]
  cases hhead : first.toList.head? with
  | none =>
    rw [hhead] at h
    cases h
  | some c =>
    rw [hhead] at h
    exact h

theorem HasCode.isMarked (h : HasCode line) : Directive.isMarked line = false := by
  rw [isMarked_eq_false_iff]
  intro hhead
  rw [HasCode, hhead] at h
  exact absurd h (by decide)

theorem HasCode.isFlat (h : HasCode line) : IsFlat line :=
  .plain (ofLine_of_not_isMarked h.isMarked)

/-- A definition opens no group, whatever it defines. -/
theorem isFlat_of_prefix (h : "#define ".toList <+: line.toList) : IsFlat line := by
  obtain ⟨rest, hrest⟩ := h
  have hdirective : ∃ rest', Directive.ofLine? line = some ⟨"define", rest'⟩ := by
    rw [Directive.ofLine?, ← hrest]
    exact ⟨_, rfl⟩
  obtain ⟨rest', hdirective⟩ := hdirective
  have hcontrol : Control.ofLine line = if Control.definedName rest' = "" then .plain
      else .define (Control.definedName rest') := by
    rw [Control.ofLine, hdirective]
    rfl
  split at hcontrol
  · exact .plain hcontrol
  · exact .define _ hcontrol

theorem isFlat_declarations (texture : SlicedTexture) :
    ∀ line ∈ texture.declarations, IsFlat line := by
  simp only [SlicedTexture.declarations, List.forall_mem_cons, List.not_mem_nil, false_imp_iff,
    implies_true, and_true]
  and_intros
  all_goals
    first
    | refine HasCode.isFlat ?_
      repeat with_reducible apply HasCode.append
      exact hasCode_of_head (by decide)
    | refine isFlat_of_prefix ?_
      simp only [String.toList_append, List.append_assoc]
      exact ⟨_, rfl⟩

theorem HasCode.of_declaration? {s : Selection} {property : String}
    (h : s.declaration? property = some line) : HasCode line := by
  rw [Selection.declaration?.eq_def] at h
  split at h
  · cases h
    iterate 8 refine HasCode.append ?_ _
    exact hasCode_of_head (by decide)
  · cases h

theorem hasCode_usageFunction (textures : List SlicedTexture) :
    ∀ line ∈ SlicedTexture.usageFunction textures, HasCode line := by
  intro line hline
  simp only [SlicedTexture.usageFunction, List.mem_append, List.mem_map, List.mem_cons,
    List.not_mem_nil, or_false] at hline
  rcases hline with ((rfl | rfl | rfl) | ⟨texture, -, rfl⟩) | rfl | rfl
  · exact hasCode_of_head (by decide)
  · exact hasCode_of_head (by decide)
  · exact hasCode_of_head (by decide)
  · iterate 4 refine HasCode.append ?_ _
    exact hasCode_of_head (by decide)
  · exact hasCode_of_head (by decide)
  · exact hasCode_of_head (by decide)

theorem isFlat_texturePrelude (t : Substitution) (pass : Pass) :
    ∀ line ∈ Program.texturePrelude t pass, IsFlat line := by
  intro line hline
  rw [Program.texturePrelude] at hline
  split at hline
  · cases hline
  · simp only [List.mem_append, List.mem_singleton, List.mem_flatMap, Option.mem_toList] at hline
    rcases hline with (rfl | ⟨texture, -, hline | hline⟩) | hline
    · exact (hasCode_of_head (by decide)).isFlat
    · exact isFlat_declarations texture line hline
    · exact (HasCode.of_declaration? hline).isFlat
    · split at hline
      · exact (hasCode_usageFunction t.textures line hline).isFlat
      · cases hline

/-- The lines at the start of a block open no group. -/
theorem isFlat_prelude (t : Substitution) (plan : Plan) (pass : Pass) :
    ∀ line ∈ Program.prelude t plan pass, IsFlat line := by
  have hdecoded : ∀ line ∈ ["static uint optimizerPackedID;", "static uint materialID;",
      "static uint meshID;"], HasCode line := by
    simp only [List.forall_mem_cons, List.not_mem_nil, false_imp_iff, implies_true, and_true]
    exact ⟨hasCode_of_head (by decide), hasCode_of_head (by decide), hasCode_of_head (by decide)⟩
  intro line hline
  simp only [Program.prelude, List.mem_append, List.mem_singleton, List.mem_map,
    List.mem_filterMap, Registers.uniforms] at hline
  rcases hline with ((((rfl | hline) | ⟨mesh, -, rfl⟩) | ⟨name, -, rfl⟩) | hline) | ⟨e, -, hline⟩
  · exact isFlat_of_prefix ⟨variantSymbol.toList, by decide⟩
  · split at hline
    · exact (hdecoded line hline).isFlat
    · cases hline
  · refine HasCode.isFlat (.append (.append ?_ _) _)
    exact hasCode_of_head (by decide)
  · refine HasCode.isFlat (.append (.append ?_ _) _)
    exact hasCode_of_head (by decide)
  · exact isFlat_texturePrelude t pass line hline
  · exact (HasCode.of_declaration? hline).isFlat

end

/-- A program start is a line that the preprocessor hands on. -/
theorem isFlat_programStart {line : String} (h : Include.isProgramStart line = true) :
    IsFlat line := by
  rw [Include.isProgramStart, Bool.or_eq_true, decide_eq_true_eq, decide_eq_true_eq] at h
  rcases h with rfl | rfl
  · exact .plain (by decide)
  · exact .plain (by decide)

/-- A preprocessor behind the start of a block. -/
def behindStart (oracle : Oracle) (σ : Symbols) (start : Stroke) : Preprocessor :=
  (Preprocessor.start σ).run oracle start.lines

/-- **The start of a block opens no group.** -/
theorem levels_behindStart {r : Request} {start : Stroke} {p : Program} (h : start.Starts r p)
    (oracle : Oracle) (σ : Symbols) : (behindStart oracle σ start).levels = [] := by
  obtain ⟨-, index, line, plan, hline, -, -, hlines⟩ := h
  rw [behindStart, hlines]
  refine Preprocessor.levels_run_of_isFlat ?_ oracle (.start σ)
  exact List.forall_mem_cons.2 ⟨isFlat_programStart hline, isFlat_prelude _ _ _⟩

/-! ## The two preprocessors -/

/-- Two preprocessors on both sides of a program block: of what has been written for it, and of the
lines that it has read.  Behind the lines that are held back, the first one goes through the same
groups as one that reads what the filter keeps of the source. -/
structure Mirrors (oracle : Oracle) (p : Program) (c d : Preprocessor) : Prop where
  clean : p.IsClean
  sound : oracle.IsSound p.filter.usage
  kept : ∃ kept, Condition.Simulates p.filter kept d ∧ (c.run oracle p.held).SameState kept

section

variable {oracle : Oracle} {t : Substitution} {p q : Program} {c d : Preprocessor} {stroke : Stroke}

/-- Outside of signatures, where the filter is live both preprocessors are or none is. -/
theorem Mirrors.isLive_eq (h : Mirrors oracle p c d) (hpending : p.pending = none)
    (hlive : p.filter.isLive = true) : c.isLive = d.isLive := by
  obtain ⟨kept, hsimulates, hsame⟩ := h.kept
  have hheld := Program.held_of_none hpending
  rw [hheld, Preprocessor.run_nil] at hsame
  rw [hsame.isLive_eq, hsimulates.isLive_eq hlive]

/-- What the filter leaves out is dead in the source. -/
theorem Mirrors.isLive_filter (h : Mirrors oracle p c d) (hlive : d.isLive = true) :
    p.filter.isLive = true := by
  -- Both read the same groups, and an arm that the filter drops is false under all symbols.
  obtain ⟨kept, hsimulates, -⟩ := h.kept
  by_contra hdead
  rw [hsimulates.not_live (Bool.eq_false_iff.2 hdead)] at hlive
  cases hlive

/-- **A stroke of a block keeps the two preprocessors together.** -/
theorem Mirrors.step (h : Mirrors oracle p c d) (hadvances : stroke.Advances t p q)
    (hopens : stroke.OpensPlain) :
    Mirrors oracle q (c.run oracle stroke.lines) (d.run oracle stroke.text?.toList) := by
  obtain ⟨hclean, hdirectives⟩ := hadvances.relays h.clean hopens
  obtain ⟨kept, hsimulates, hsame⟩ := h.kept
  -- The lines that are written may differ from those that are kept, their directives do not.
  have hrun : ((c.run oracle stroke.lines).run oracle q.held).SameState
      (kept.run oracle (stroke.kept p)) := by
    rw [← Preprocessor.run_append]
    have hboth := (Preprocessor.SameState.refl c).run_of_directives oracle hdirectives
    rw [Preprocessor.run_append oracle c p.held] at hboth
    exact hboth.trans (hsame.run oracle _)
  have hfilter : q.filter = ((stroke.fed? p).map (·.filter)).getD p.filter :=
    hadvances.remembers.filter
  cases htext : stroke.text? with
  | none =>
    have hsameFilter : q.filter = p.filter := by rw [hfilter, Stroke.fed?, htext]; rfl
    have hnone : stroke.kept p = [] := by rw [Stroke.kept, htext]; rfl
    rw [hnone] at hrun
    refine ⟨hclean, hsameFilter ▸ h.sound, kept, ?_, hrun⟩
    rw [hsameFilter]
    exact hsimulates
  | some text =>
    have hfed : q.filter = (p.filter.feed text).filter := by rw [hfilter, Stroke.fed?, htext]; rfl
    have hkept : stroke.kept p = (p.filter.feed text).kept text := by
      rw [Stroke.kept, htext]
      rfl
    rw [hkept] at hrun
    refine ⟨hclean, ?_, kept.run oracle ((p.filter.feed text).kept text), ?_, hrun⟩
    · rw [hfed, Condition.Filter.usage_feed]
      exact h.sound
    · rw [hfed]
      exact hsimulates.feed h.sound text

/-- The lines that some strokes read. -/
def textsOf (strokes : List Stroke) : List String := strokes.filterMap Stroke.text?

/-- The strokes of a block keep the two preprocessors together. -/
theorem Mirrors.run {strokes : List Stroke} (h : Mirrors oracle p c d)
    (hpasses : Passes t p strokes q) (hopens : ∀ stroke ∈ strokes, stroke.OpensPlain) :
    Mirrors oracle q (c.run oracle (scriptText strokes)) (d.run oracle (textsOf strokes)) := by
  induction strokes generalizing p c d with
  | nil =>
    cases hpasses
    exact h
  | cons stroke rest ih =>
    obtain ⟨p', hadvances, hrest⟩ := hpasses
    obtain ⟨hfirst, hopens⟩ := List.forall_mem_cons.1 hopens
    have htexts : textsOf (stroke :: rest) = stroke.text?.toList ++ textsOf rest := by
      cases htext : stroke.text? with
      | none => exact List.filterMap_cons_none htext
      | some text => exact List.filterMap_cons_some htext
    rw [scriptText_cons, Preprocessor.run_append, htexts, Preprocessor.run_append]
    exact ih (h.step hadvances hfirst) hrest hopens

/-- In front of the first line of a block, both preprocessors are behind its start. -/
theorem mirrors_of_starts {r : Request} (hpasses : r.ReturnsCode) (hstarts : stroke.Starts r p)
    (horacle : oracle.IsSound p.filter.usage) {σ : Symbols}
    (hσ : (behindStart oracle σ stroke).symbols.Extends p.filter.defined) :
    Mirrors oracle p (behindStart oracle σ stroke) (behindStart oracle σ stroke) := by
  have hlevels := levels_behindStart hstarts oracle σ
  obtain ⟨-, index, line, plan, -, hplan, rfl, -⟩ := hstarts
  -- Without groups, the preprocessor behind the prelude is one at its start with other symbols.
  have hnew : Condition.Simulates _ _ _ := (Condition.Simulates.start hσ).congr rfl rfl
  refine ⟨Program.isClean_new _ _ _ (Plan.isTyped_new (hpasses index) hplan), horacle,
    behindStart oracle σ stroke, ⟨?_, ?_, rfl, rfl⟩, .refl _⟩
  · rw [hlevels]
    exact hnew.follows
  · rw [hlevels]
    exact hnew.knows

/-- Where no prologue has a directive, the strokes of a script open none. -/
theorem IsScript.opensPlain {g : GeneratedShader} {moments : List (Moment Writer)}
    {script : List Stroke} (hscript : IsScript g moments script)
    (hplain : ∀ m ∈ moments, ∀ mark ∈ m.before.marks m.event, mark.IsPlain) (h : stroke ∈ script) :
    stroke.OpensPlain := by
  intro m hmoment
  refine hplain m ?_
  rw [← hscript.moments]
  exact List.mem_filterMap.2 ⟨stroke, h, hmoment⟩

/-- So do those of a program block. -/
theorem IsScript.opensPlain_of_openBlock {g : GeneratedShader} {moments : List (Moment Writer)}
    {above below inner : List Stroke} (hscript : IsScript g moments (above ++ below))
    (hplain : ∀ m ∈ moments, ∀ mark ∈ m.before.marks m.event, mark.IsPlain)
    (habove : openBlock above = stroke :: inner) : ∀ s ∈ inner, s.OpensPlain := by
  intro s hs
  have hsuffix := openBlock_suffix above
  rw [habove] at hsuffix
  exact hscript.opensPlain hplain
    (List.mem_append_left below (hsuffix.subset (List.mem_cons_of_mem stroke hs)))

end

end Variant

end ShaderMerge
