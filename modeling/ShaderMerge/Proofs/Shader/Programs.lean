import Mathlib.Data.List.Forall2
import ShaderMerge.Proofs.Shader.EntryPoints

/-!
# Passes and program blocks

A walk through a shader reads its program blocks one after the other (`blocks`), and each of them gives a
pass.  What a block says of its pass are the pragmas in live text: a stage is bound to the name that the
last of its pragmas gives (`Progress.name?`).

Main result: the passes of a builder are those of the blocks, in order, and each stage has the function
that its block names (`Follows.passes_of_run`).  A builder in a block has read as much of it as its events
say (`Program.IsAt`); an event keeps that (`Follows.event`), and the end of the block makes the pass.
-/

namespace ShaderMerge.Builder

open Include (Event Run Sources Walk Moment isProgramStart isBlockEnd)

/-! ## Blocks -/

/-- The events of the block that is open behind an event, given that of the block in front of it. -/
def openBehind (isOpen : Option (List Event)) : Event → Option (List Event)
  | .line file text =>
    match isOpen with
    | none => if isProgramStart text then some [] else none
    | some block => if isBlockEnd text then none else some (block ++ [.line file text])
  | event => isOpen.map (· ++ [event])

/-- The block that an event ends. -/
def endedAt (isOpen : Option (List Event)) : Event → Option (List Event)
  | .line _ text => isOpen.filter fun _ => isBlockEnd text
  | _ => none

/-- The program blocks among some events, each as the events between its markers; a block that does not
end goes up to the last event. -/
def blocksFrom (isOpen : Option (List Event)) : List Event → List (List Event)
  | [] => isOpen.toList
  | event :: rest => (endedAt isOpen event).toList ++ blocksFrom (openBehind isOpen event) rest

/-- The program blocks among the events of a walk from its start. -/
def blocks (events : List Event) : List (List Event) := blocksFrom none events

/-! ## Pragmas -/

/-- The words of a pragma. -/
def pragmaWords? (line : String) : Option (List String) :=
  match Directive.ofLine? line with
  | some ⟨"pragma", rest⟩ => some (Text.wordStrings rest)
  | _ => none

/-- The name that a pragma gives a stage. -/
def nameFor? (stage : Stage) : List String → Option String
  | first :: name :: _ => if Stage.ofName? first = some stage then some name else none
  | _ => none

/-- How far a program block has been read: what decides its conditional groups, and the pragmas in live
text so far. -/
structure Progress where
  /-- What decides the groups. -/
  filter : Condition.Filter
  /-- The words of the pragmas. -/
  pragmas : List (List String)

namespace Progress

/-- Go on with an event.  The directives of regions have no effect while a shader is read. -/
def event (r : Progress) : Event → Progress
  | .line _ text =>
    if Region.Control.ofLine text != .plain then r
    else
      let fed := r.filter.feed text
      { filter := fed.filter
        pragmas := r.pragmas ++ (if fed.feed = .live then pragmaWords? text else none).toList }
  | .include_ _ directive _ => { r with filter := (r.filter.feed directive).filter }
  | .endInclude .. => r

/-- The block of a pass with a light mode, read from its start. -/
def ofBlock (lightMode : Option String) (block : List Event) : Progress :=
  block.foldl event ⟨.new (LightMode.defines lightMode), []⟩

/-- The name that the last pragma for a stage gives, of those that give one. -/
def name? (r : Progress) (stage : Stage) : Option String :=
  (r.pragmas.filterMap (nameFor? stage)).getLast?

theorem ofBlock_concat (lightMode : Option String) (block : List Event) (last : Event) :
    ofBlock lightMode (block ++ [last]) = (ofBlock lightMode block).event last := by
  rw [ofBlock, List.foldl_append]
  rfl

end Progress

/-- Whether a pass is that of a program block: it has a vertex and a fragment function, and each stage
has the function that the block names for it, and none if the block names none. -/
structure IsPassOf (block : List Event) (pass : Pass) : Prop where
  vertex : pass.entryPoints.vertex.isSome = true
  fragment : pass.entryPoints.fragment.isSome = true
  named : ∀ stage, (pass.entryPoints.get stage).map (·.name)
    = (Progress.ofBlock pass.lightMode block).name? stage

variable {b b' : Builder} {p p' : Program} {line : String} {stage : Stage}

/-! ## What a line does to the names -/

theorem nameFor?_cons (first : String) (others : List String) :
    nameFor? stage (first :: others)
      = if Stage.ofName? first = some stage then others.head? else none := by
  cases others with
  | nil =>
    rw [List.head?_nil, ite_self]
    rfl
  | cons name rest => rfl

/-- A pragma changes the name of its own stage, if it gives one. -/
theorem bindings_pragma (b : Builder) (p : Program) (words : List String) :
    (b.pragma p words).2.bindings.get stage = (nameFor? stage words).or (p.bindings.get stage) := by
  cases words with
  | nil => rfl
  | cons first others =>
    rw [pragma.eq_def, nameFor?_cons]
    dsimp only
    split
    · rename_i bound hbound
      rw [hbound]
      cases others with
      | nil => rw [List.head?_nil, ite_self, Option.none_or]
      | cons name rest =>
        dsimp only
        rw [PerStage.get_set, List.head?_cons]
        by_cases hstage : stage = bound
        · rw [if_pos hstage, if_pos (congrArg some hstage.symm), Option.some_or]
        · rw [if_neg hstage, if_neg fun heq => hstage (Option.some.inj heq).symm, Option.none_or]
    · rename_i hnone
      rw [hnone, if_neg (Option.some_ne_none stage).symm, Option.none_or]
      split <;> rfl

/-- What a line of code does to nothing but what is collected. -/
structure KeepsNames (p p' : Program) : Prop where
  filter : p'.filter = p.filter
  bindings : p'.bindings = p.bindings
  lightMode : p'.lightMode = p.lightMode

theorem keepsNames_pragma (b : Builder) (p : Program) (words : List String) :
    (b.pragma p words).2.filter = p.filter ∧ (b.pragma p words).2.lightMode = p.lightMode := by
  rw [pragma.eq_def]
  split
  · exact ⟨rfl, rfl⟩
  · split
    · split <;> exact ⟨rfl, rfl⟩
    · split <;> exact ⟨rfl, rfl⟩

theorem keepsNames_directiveLine (b : Builder) (p : Program) (line : String) :
    (b.directiveLine p line).2.filter = p.filter ∧
      (b.directiveLine p line).2.lightMode = p.lightMode := by
  rw [directiveLine]
  split
  · exact keepsNames_pragma b p _
  · exact ⟨rfl, rfl⟩
  · exact ⟨rfl, rfl⟩

theorem bindings_directiveLine (b : Builder) (p : Program) (line : String) :
    (b.directiveLine p line).2.bindings.get stage
      = ((pragmaWords? line).bind (nameFor? stage)).or (p.bindings.get stage) := by
  rw [directiveLine, pragmaWords?]
  cases Directive.ofLine? line with
  | none => rfl
  | some directive =>
    obtain ⟨keyword, rest⟩ := directive
    split
    · rename_i heq
      cases heq
      exact bindings_pragma b p _
    · rename_i heq
      cases heq
      rfl
    · rename_i hpragma _
      split
      · rename_i heq
        cases heq
        exact absurd rfl (hpragma _)
      · rfl

theorem keepsNames_codeLine (p : Program) (line : String) : KeepsNames p (codeLine p line) := by
  rw [codeLine]
  split
  · exact ⟨rfl, rfl, rfl⟩
  · split
    · exact ⟨rfl, rfl, rfl⟩
    · split <;> exact ⟨rfl, rfl, rfl⟩

theorem keepsNames_liveLine (h : b.liveLine p line = .ok (b', p')) : KeepsNames p p' := by
  rw [liveLine] at h
  split at h
  · cases h
    exact keepsNames_codeLine p line
  · cases h
    exact ⟨rfl, rfl, rfl⟩
  · split at h
    · split at h
      · cases h
      · cases h
        exact ⟨rfl, rfl, rfl⟩
    · split at h
      · cases h
        exact ⟨rfl, rfl, rfl⟩
      · cases h
        have hkeeps := keepsNames_codeLine { p with capture := .idle } line
        exact ⟨hkeeps.filter, hkeeps.bindings, hkeeps.lightMode⟩

/-! ## A builder in a block -/

/-- Whether a program has come as far as a reading of its block: it decides groups alike and has bound
the names that the pragmas give. -/
structure Program.IsAt (p : Program) (r : Progress) : Prop where
  filter : p.filter = r.filter
  bound : ∀ stage, p.bindings.get stage = r.name? stage

/-- Behind a line that is no directive of a region, the names are those of the pragmas so far, and that
of the line if it is a live one. -/
theorem Progress.name?_event {r : Progress} {file : String}
    (hplain : Region.Control.ofLine line = .plain) (stage : Stage) :
    (r.event (.line file line)).name? stage
      = ((if (r.filter.feed line).feed = .live then pragmaWords? line else none).bind
          (nameFor? stage)).or (r.name? stage) := by
  rw [event, hplain, if_neg (by decide)]
  dsimp only
  generalize (if (r.filter.feed line).feed = .live then pragmaWords? line else none) = words
  rw [name?, name?, List.filterMap_append, List.getLast?_append]
  cases words with
  | none => rfl
  | some words =>
    rw [Option.bind_some, Option.toList_some, List.filterMap_cons, List.filterMap_nil]
    cases nameFor? stage words <;> rfl

theorem Progress.filter_event {r : Progress} {file : String}
    (hplain : Region.Control.ofLine line = .plain) :
    (r.event (.line file line)).filter = (r.filter.feed line).filter := by
  rw [event, hplain, if_neg (by decide)]

theorem isMarked_of_pragmaWords? {words : List String} (h : pragmaWords? line = some words) :
    Directive.isMarked line = true := by
  rw [pragmaWords?, Directive.ofLine?] at h
  rw [Directive.isMarked]
  cases hline : line.toList with
  | nil =>
    rw [hline] at h
    cases h
  | cons c rest =>
    by_cases hc : c = '#'
    · rw [hc]
      rfl
    · rw [hline] at h
      split at h
      · rename_i heq
        split at heq
        · rename_i heq'
          exact absurd (List.cons.inj heq').1 hc
        · cases heq
      · cases h

/-- A line in a block goes on with its reading. -/
theorem isAt_programLine {r : Progress} (file : String) (hprogram : b.program = some p)
    (hline : isBlockEnd line = false) (h : b.programLine p line = .ok b') (hat : p.IsAt r) :
    ∃ p', b'.program = some p' ∧ p'.lightMode = p.lightMode ∧ p'.IsAt (r.event (.line file line)) := by
  rw [programLine, if_neg (by simp [hline])] at h
  split at h
  · rename_i hregion
    cases h
    rw [Progress.event, if_pos hregion]
    exact ⟨p, hprogram, rfl, hat⟩
  · rename_i hregion
    have hplain : Region.Control.ofLine line = .plain := by simpa using hregion
    have hname := @Progress.name?_event line r file hplain
    have hfilter := @Progress.filter_event line r file hplain
    rw [← hat.filter] at hname hfilter
    dsimp only at h
    split at h
    · rename_i hfeed _
      cases h
      rw [hfeed] at hname
      exact ⟨_, rfl, rfl, hfilter.symm, fun stage => (hat.bound stage).trans (hname stage).symm⟩
    · rename_i hfeed _
      cases h
      rw [hfeed] at hname
      exact ⟨_, rfl, rfl, hfilter.symm, fun stage => (hat.bound stage).trans (hname stage).symm⟩
    · rename_i hfeed _
      cases h
      rw [hfeed] at hname
      obtain ⟨hkept, hmode⟩ := keepsNames_directiveLine b
        { p with filter := (p.filter.feed line).filter, capture := p.capture.addLiveDirective line } line
      refine ⟨_, rfl, hmode, hkept.trans hfilter.symm, fun stage => ?_⟩
      rw [bindings_directiveLine, hname, if_pos rfl, ← hat.bound]
    · rename_i hfeed hmarked
      obtain ⟨⟨b₁, p₁⟩, hlive, heq⟩ := exists_ok_of_map h
      cases heq
      have hkeeps := keepsNames_liveLine hlive
      -- A pragma is marked, so this line is none.
      have hnone : pragmaWords? line = none := by
        rw [Option.eq_none_iff_forall_ne_some]
        intro words hwords
        rw [isMarked_of_pragmaWords? hwords] at hmarked
        cases hmarked
      rw [hnone, ite_self] at hname
      refine ⟨p₁, rfl, hkeeps.lightMode, hkeeps.filter.trans hfilter.symm, fun stage => ?_⟩
      rw [hkeeps.bindings, hname]
      exact hat.bound stage

/-! ## The functions of a pass -/

/-- Whether functions are known by their names. -/
def AreNamed (functions : Table String Signature) : Prop :=
  ∀ name s, functions.get? name = some s → s.name = name

/-- A function that is bound has the name that binds it. -/
theorem IsBoundTo.map_name {functions : Table String Signature} {name : Option String}
    {found : Option Signature} (hnamed : AreNamed functions) (h : IsBoundTo functions name found) :
    found.map (·.name) = name := by
  obtain ⟨hfound, hsome⟩ := h
  cases name with
  | none =>
    rw [hfound]
    rfl
  | some name =>
    obtain ⟨signature, hsignature⟩ := Option.isSome_iff_exists.1 hsome
    rw [hsignature] at hfound ⊢
    rw [Option.map_some, hnamed name signature hfound.symm]

/-- The end of a block appends its pass. -/
theorem isPassOf_of_endProgram {r : List Event} (hnamed : AreNamed b.functions)
    (hat : p.IsAt (.ofBlock p.lightMode r)) (h : b.endProgram p = .ok b') :
    b'.program = none ∧ b'.functions = b.functions ∧
      ∃ pass, b'.passes = b.passes ++ [pass] ∧ IsPassOf r pass := by
  rw [endProgram] at h
  obtain ⟨found, hfound, h⟩ := exists_ok_of_bind h
  split at h
  · cases h
  · rename_i hvertex
    split at h
    · cases h
    · rename_i hfragment
      cases h
      refine ⟨rfl, rfl, _, rfl, ?_, ?_, fun stage => ?_⟩
      · simpa [Option.isSome_iff_ne_none] using hvertex
      · simpa [Option.isSome_iff_ne_none] using hfragment
      · rw [← hat.bound]
        exact (isBoundTo_of_entryPoints hfound stage).map_name hnamed

/-! ## Runs -/

/-- What a builder knows of the program blocks that it reads, if one is open or none. -/
structure Follows (b : Builder) (isOpen : Option (List Event)) : Prop where
  named : AreNamed b.functions
  outside : isOpen = none → b.program = none
  inside : ∀ block, isOpen = some block →
    ∃ p, b.program = some p ∧ p.IsAt (.ofBlock p.lightMode block)

theorem areNamed_liveLine (hnamed : AreNamed b.functions) (h : b.liveLine p line = .ok (b', p')) :
    AreNamed b'.functions := by
  rcases functions_liveLine h with hsame | ⟨s, -, hinsert⟩
  · rwa [hsame]
  · intro name found hfound
    rw [hinsert, Table.get?_insert] at hfound
    split at hfound
    · rename_i hname
      rw [hname, ← Option.some.inj hfound]
    · exact hnamed name found hfound

theorem areNamed_programLine (hnamed : AreNamed b.functions) (hline : isBlockEnd line = false)
    (h : b.programLine p line = .ok b') : AreNamed b'.functions := by
  rw [programLine, if_neg (by simp [hline])] at h
  split at h
  · cases h
    exact hnamed
  · dsimp only at h
    split at h
    · cases h
      exact hnamed
    · cases h
      exact hnamed
    · cases h
      have hsame := functions_directiveLine b
        { p with filter := (p.filter.feed line).filter, capture := p.capture.addLiveDirective line } line
      exact fun name s hs => hnamed name s (hsame ▸ hs)
    · obtain ⟨⟨b₁, p₁⟩, hlive, heq⟩ := exists_ok_of_map h
      cases heq
      have hafter : AreNamed b₁.functions := areNamed_liveLine hnamed hlive
      exact hafter

theorem Follows.of_none (hnamed : AreNamed b.functions) (hprogram : b.program = none) :
    Follows b none where
  named := hnamed
  outside _ := hprogram
  inside := nofun

/-- An open block is the only one. -/
theorem Follows.of_some {block : List Event} (hnamed : AreNamed b.functions)
    (hprogram : b.program = some p) (hat : p.IsAt (.ofBlock p.lightMode block)) :
    Follows b (some block) := by
  refine ⟨hnamed, nofun, fun other hother => ?_⟩
  cases hother
  exact ⟨p, hprogram, hat⟩

variable {s : Sources} {w w' : Walk} {moments : List (Moment Builder)} {e : Event}
  {isOpen : Option (List Event)} {block : List Event}

/-- A line outside of blocks may start one. -/
theorem Follows.outerLine (h : Follows b none) (hread : b.outerLine line = .ok b') :
    Follows b' (if isProgramStart line then some [] else none) ∧ b'.passes = b.passes := by
  have hnamed : AreNamed b'.functions := by
    have hsame : b'.functions = b.functions := congrArg Prod.fst (code_outerLine hread)
    rw [hsame]
    exact h.named
  cases hstart : isProgramStart line with
  | true =>
    rw [Builder.outerLine, if_pos hstart] at hread
    cases hread
    exact ⟨.of_some hnamed rfl ⟨rfl, fun stage => by cases stage <;> rfl⟩, rfl⟩
  | false =>
    have hkeeps := keeps_outerLine hstart hread
    refine ⟨.of_none hnamed ?_, hkeeps.passes⟩
    rw [← Option.isNone_iff_eq_none, ← Option.not_isSome, hkeeps.program, h.outside rfl]
    decide

/-- A line in a block goes on with it or ends it. -/
theorem Follows.programLine (h : Follows b (some block)) {file : String} (hprogram : b.program = some p)
    (hread : b.programLine p line = .ok b') :
    Follows b' (openBehind (some block) (.line file line)) ∧
      ∃ passes, b'.passes = b.passes ++ passes ∧
        List.Forall₂ IsPassOf (endedAt (some block) (.line file line)).toList passes := by
  obtain ⟨q, hq, hat⟩ := h.inside block rfl
  rw [hprogram] at hq
  cases hq
  rw [openBehind, endedAt]
  cases hline : isBlockEnd line with
  | true =>
    rw [Builder.programLine, if_pos hline] at hread
    obtain ⟨hnone, hfunctions, pass, hpasses, hpass⟩ := isPassOf_of_endProgram h.named hat hread
    refine ⟨.of_none (hfunctions ▸ h.named) hnone, [pass], hpasses, ?_⟩
    exact .cons hpass .nil
  | false =>
    obtain ⟨p', hprogram', hmode, hat'⟩ := isAt_programLine file hprogram hline hread hat
    refine ⟨.of_some (areNamed_programLine h.named hline hread) hprogram' ?_, [], ?_, .nil⟩
    · rwa [hmode, Progress.ofBlock_concat]
    · rw [(keeps_programLine hprogram hline hread).passes, List.append_nil]

/-- An event goes on with the block that is open, and appends the pass of the block that it ends. -/
theorem Follows.event (h : Follows b isOpen) (hstep : Builder.event s b w e = .ok (b', w')) :
    Follows b' (openBehind isOpen e) ∧
      ∃ passes, b'.passes = b.passes ++ passes ∧
        List.Forall₂ IsPassOf (endedAt isOpen e).toList passes := by
  have hsame : ∀ b' : Builder, b'.passes = b.passes → ∃ passes, b'.passes = b.passes ++ passes ∧
      List.Forall₂ IsPassOf [] passes :=
    fun b' hpasses => ⟨[], by rw [hpasses, List.append_nil], .nil⟩
  cases e with
  | line file text =>
    obtain ⟨b₁, hread, heq⟩ := exists_ok_of_map hstep
    cases heq
    cases isOpen with
    | none =>
      rw [h.outside rfl] at hread
      obtain ⟨hfollows, hpasses⟩ := h.outerLine hread
      exact ⟨hfollows, hsame b' hpasses⟩
    | some block =>
      obtain ⟨p, hprogram, -⟩ := h.inside block rfl
      rw [hprogram] at hread
      exact h.programLine hprogram hread
  | include_ file directive target =>
    cases isOpen with
    | none =>
      rw [Builder.event, h.outside rfl] at hstep
      cases hstep
      exact ⟨h, hsame b rfl⟩
    | some block =>
      obtain ⟨p, hprogram, hat⟩ := h.inside block rfl
      -- The directive is fed to the filter, whether or not its file is read.
      have hafter : Follows
          { b with program := some { p with filter := (p.filter.feed directive).filter } }
          (some (block ++ [.include_ file directive target])) := by
        refine .of_some h.named rfl ⟨?_, ?_⟩
        · rw [Progress.ofBlock_concat, Progress.event, ← hat.filter]
        · rw [Progress.ofBlock_concat, Progress.event]
          exact hat.bound
      rw [Builder.event, hprogram] at hstep
      dsimp only at hstep
      split at hstep <;> cases hstep <;> exact ⟨hafter, hsame _ rfl⟩
  | endInclude directive target =>
    cases hstep
    cases isOpen with
    | none => exact ⟨h, hsame b rfl⟩
    | some block =>
      obtain ⟨p, hprogram, hat⟩ := h.inside block rfl
      refine ⟨.of_some h.named hprogram ?_, hsame b rfl⟩
      rwa [Progress.ofBlock_concat]

/-- The passes that a run appends are those of its blocks.  A block that is still open at its end gets
its pass there. -/
theorem Follows.passes_of_run {last : Builder} (h : Follows b isOpen)
    (hrun : Run s (Builder.event s) b w moments b' w')
    (hlast : b'.closed = .ok last) :
    ∃ passes, last.passes = b.passes ++ passes ∧
      List.Forall₂ IsPassOf (blocksFrom isOpen (moments.map (·.event))) passes := by
  induction hrun generalizing isOpen with
  | nil =>
    rw [closed] at hlast
    cases isOpen with
    | none =>
      rw [h.outside rfl] at hlast
      cases hlast
      exact ⟨[], (List.append_nil _).symm, .nil⟩
    | some block =>
      obtain ⟨p, hprogram, hat⟩ := h.inside block rfl
      rw [hprogram] at hlast
      obtain ⟨-, -, pass, hpasses, hpass⟩ := isPassOf_of_endProgram h.named hat hlast
      exact ⟨[pass], hpasses, .cons hpass .nil⟩
  | cons next step_eq rest ih =>
    obtain ⟨hfollows, front, hfront, hended⟩ := h.event step_eq
    obtain ⟨back, hback, hothers⟩ := ih hfollows hlast
    refine ⟨front ++ back, by rw [hback, hfront, List.append_assoc], ?_⟩
    rw [List.map_cons, blocksFrom]
    exact List.rel_append hended hothers

end ShaderMerge.Builder
