import ShaderMerge.Proofs.Shader.Blocks
import ShaderMerge.Proofs.Signature.Pieces

/-!
# The entry points of a shader are read from its text

A builder notes the functions whose signatures it has read, and a pass binds its stages to some of
them.  So each entry point of a shader that has been read is a signature of its text
(`isRead_of_read`), and what it returns starts with a name.
-/

namespace ShaderMerge

open Include (Run Sources Walk Event isProgramStart isBlockEnd)

/-! ## Names -/

/-- A text that starts with a name is no directive. -/
theorem Directive.isMarked_of_name? {cs name rest : List Char}
    (h : Text.name? cs = some (name, rest)) (more : List Char) :
    Directive.isMarked (String.ofList (name ++ more)) = false := by
  cases cs with
  | nil => cases h
  | cons c cs =>
    rw [Text.name?] at h
    split at h
    · rename_i hstart
      cases h
      have hne : c ≠ '#' := by
        rintro rfl
        exact absurd hstart (by decide)
      simpa [Directive.isMarked] using hne
    · cases h

namespace Signature

/-- Whether a signature has been read from some text. -/
def IsRead (s : Signature) : Prop := ∃ text lines, ofText? text lines = some s

theorem isMarked_of_bareHeader? {lead cs : List Char} {header : Header}
    (h : bareHeader? lead cs = some header) :
    Directive.isMarked (String.ofList header.returnType) = false := by
  simp only [bareHeader?, Option.bind_eq_bind, Option.bind_eq_some_iff] at h
  obtain ⟨⟨word, rest⟩, hword, h⟩ := h
  dsimp only at h
  split at h
  · cases h
  · simp only [Option.bind_eq_some_iff] at h
    obtain ⟨_, -, _, -, heq⟩ := h
    cases heq
    exact Directive.isMarked_of_name? hword _

theorem isMarked_of_modifiedHeader? {lead cs : List Char} {header : Header}
    (h : modifiedHeader? lead cs = some header) :
    Directive.isMarked (String.ofList header.returnType) = false := by
  fun_induction modifiedHeader? lead cs with
  | case1 lead cs rest found after heq ih =>
    cases h
    exact ih heq
  | case2 lead cs rest found heq ih => exact isMarked_of_bareHeader? h
  | case3 lead cs found => exact isMarked_of_bareHeader? h

/-- What a function returns is no directive. -/
theorem IsRead.isMarked_returnType {s : Signature} (h : s.IsRead) :
    Directive.isMarked s.returnType = false := by
  obtain ⟨text, lines, h⟩ := h
  simp only [ofText?, Option.bind_eq_bind, Option.bind_eq_some_iff] at h
  obtain ⟨header, hheader, _, -, _, -, heq⟩ := h
  cases heq
  rw [Header.ofText?] at hheader
  exact isMarked_of_modifiedHeader? (Option.filter_eq_some_iff.1 hheader).1

end Signature

namespace Builder

variable {b b' : Builder} {p p' : Program} {line : String}

/-! ## Functions -/

/-- What program blocks leave in a builder, besides their passes. -/
def code (b : Builder) : Table String Signature × Bool := (b.functions, b.hasTessellation)

theorem code_tagsLine (b : Builder) (line : String) : (b.tagsLine line).code = b.code := by
  rw [tagsLine]
  generalize Command.tagPairs line.toList = pairs
  induction pairs generalizing b with
  | nil => rfl
  | cons pair rest ih =>
    obtain ⟨key, value⟩ := pair
    rw [List.foldl_cons, ih]
    dsimp only
    split
    · rfl
    · split <;> rfl

theorem code_propertyLine (h : b.propertyLine line = .ok b') : b'.code = b.code := by
  simp only [propertyLine] at h
  split at h
  · cases h
    rfl
  · split at h
    · cases h
    · cases h
      rfl

theorem code_commandLine (h : b.commandLine line = .ok b') : b'.code = b.code := by
  rw [commandLine.eq_def] at h
  dsimp only at h
  split at h
  · split at h <;> cases h <;> rfl
  · exact @code_propertyLine { b with announced := none } b' line h
  · cases h
    exact code_tagsLine { b with announced := none } line
  · split at h <;> cases h <;> rfl

/-- Lines outside of program blocks leave nothing there. -/
theorem code_outerLine (h : b.outerLine line = .ok b') : b'.code = b.code := by
  rw [outerLine] at h
  split at h
  · cases h
    rfl
  · split at h
    · cases h
      rfl
    · split at h
      · cases h
        rw [openBrace]
        split <;> rfl
      · split at h
        · cases h
          rfl
        · exact code_commandLine h

theorem functions_directiveLine (b : Builder) (p : Program) (line : String) :
    (b.directiveLine p line).1.functions = b.functions := by
  have hpragma : ∀ words, (b.pragma p words).1.functions = b.functions := by
    intro words
    rw [pragma.eq_def]
    split
    · rfl
    · split
      · rfl
      · split <;> rfl
  rw [directiveLine]
  split
  · exact hpragma _
  · rfl
  · rfl

/-- A line of code notes at most one more function, which it completes. -/
theorem functions_liveLine (h : b.liveLine p line = .ok (b', p')) :
    b'.functions = b.functions ∨
      ∃ s, s.IsRead ∧ b'.functions = b.functions.insert s.name s := by
  rw [liveLine] at h
  split at h
  · cases h
    exact .inl rfl
  · cases h
    exact .inl rfl
  · split at h
    · split at h
      · cases h
      · rename_i s hs
        cases h
        exact .inr ⟨s, ⟨_, _, hs⟩, rfl⟩
    · split at h <;> cases h <;> exact .inl rfl

/-! ## Entry points -/

/-- What a builder knows has been read: its functions, and the entry points of its passes. -/
structure Reading (b : Builder) : Prop where
  functions : ∀ name s, b.functions.get? name = some s → s.IsRead
  passes : ∀ pass ∈ b.passes, ∀ stage s, pass.entryPoints.get stage = some s → s.IsRead

theorem Reading.congr (h : b.Reading) (hfunctions : b'.functions = b.functions)
    (hpasses : b'.passes = b.passes) : b'.Reading where
  functions := hfunctions ▸ h.functions
  passes := hpasses ▸ h.passes

/-- Whether a stage has the function of the name that it binds, and none if it binds none. -/
def IsBoundTo (functions : Table String Signature) (name : Option String)
    (found : Option Signature) : Prop :=
  found = name.bind functions.get? ∧ found.isSome = name.isSome

/-- The entry points of a pass are the functions of the names that it binds. -/
theorem isBoundTo_of_entryPoints {functions : Table String Signature} {number : Nat}
    {bindings : PerStage (Option String)} {found : PerStage (Option Signature)}
    (h : entryPoints functions number bindings = .ok found) (stage : Stage) :
    IsBoundTo functions (bindings.get stage) (found.get stage) := by
  rw [entryPoints] at h
  generalize hstart : PerStage.const (none : Option Signature) = start at h
  generalize hstages : Stage.all = stages at h
  -- What has been found so far is right, and nothing is missing but for the stages still to come.
  have hright : start.get stage = none ∨
      IsBoundTo functions (bindings.get stage) (start.get stage) := by
    rw [← hstart]
    left
    cases stage <;> rfl
  have hmissing : stage ∉ stages → IsBoundTo functions (bindings.get stage) (start.get stage) := by
    rw [← hstages]
    intro hnot
    cases stage <;> exact absurd (by decide) hnot
  clear hstart hstages
  induction stages generalizing start with
  | nil =>
    cases h
    exact hmissing List.not_mem_nil
  | cons first rest ih =>
    rw [List.foldlM_cons] at h
    obtain ⟨next, hnext, h⟩ := exists_ok_of_bind h
    have hothers : stage ≠ first → stage ∉ rest →
        IsBoundTo functions (bindings.get stage) (start.get stage) :=
      fun hne hnot => hmissing fun hmem => (List.mem_cons.1 hmem).elim hne hnot
    split at hnext
    · rename_i hnone
      cases hnext
      refine ih start h hright fun hnot => ?_
      by_cases hfirst : stage = first
      · rw [hfirst, hnone] at hright ⊢
        rcases hright with hempty | hbound
        · rw [hempty]
          exact ⟨rfl, rfl⟩
        · exact hbound
      · exact hothers hfirst hnot
    · rename_i name hname
      split at hnext
      · rename_i signature hsignature
        cases hnext
        by_cases hfirst : stage = first
        · have hset : IsBoundTo functions (bindings.get stage)
              ((start.set first (some signature)).get stage) := by
            rw [PerStage.get_set, if_pos hfirst, hfirst, hname]
            exact ⟨hsignature.symm, rfl⟩
          exact ih _ h (.inr hset) fun _ => hset
        · have hset : (start.set first (some signature)).get stage = start.get stage := by
            rw [PerStage.get_set, if_neg hfirst]
          exact ih _ h (hset ▸ hright) fun hnot => hset ▸ hothers hfirst hnot
      · cases hnext

theorem Reading.endProgram (h : b.Reading) (hread : b.endProgram p = .ok b') : b'.Reading := by
  rw [Builder.endProgram] at hread
  obtain ⟨found, hfound, hread⟩ := exists_ok_of_bind hread
  split at hread
  · cases hread
  · split at hread
    · cases hread
    · cases hread
      refine ⟨h.functions, fun pass hpass stage s hs => ?_⟩
      rcases List.mem_append.1 hpass with hpass | hpass
      · exact h.passes pass hpass stage s hs
      · rw [List.mem_singleton.1 hpass] at hs
        rw [(isBoundTo_of_entryPoints hfound stage).1, Option.bind_eq_some_iff] at hs
        obtain ⟨name, -, hname⟩ := hs
        exact h.functions name s hname

theorem Reading.liveLine (h : b.Reading) (hread : b.liveLine p line = .ok (b', p')) :
    b'.Reading := by
  have hpasses := passes_liveLine hread
  rcases functions_liveLine hread with hsame | ⟨s, hs, hinsert⟩
  · exact h.congr hsame hpasses
  · refine ⟨fun name found hfound => ?_, hpasses ▸ h.passes⟩
    rw [hinsert, Table.get?_insert] at hfound
    split at hfound
    · cases hfound
      exact hs
    · exact h.functions name found hfound

theorem Reading.programLine (h : b.Reading) (hread : b.programLine p line = .ok b') :
    b'.Reading := by
  rw [Builder.programLine] at hread
  split at hread
  · exact h.endProgram hread
  · split at hread
    · cases hread
      exact h
    · dsimp only at hread
      split at hread
      · cases hread
        exact h.congr rfl rfl
      · cases hread
        exact h.congr rfl rfl
      · cases hread
        exact h.congr (functions_directiveLine b _ line) (passes_directiveLine b _ line)
      · obtain ⟨⟨b₁, p₁⟩, hlive, heq⟩ := exists_ok_of_map hread
        cases heq
        exact (h.liveLine hlive).congr rfl rfl

theorem Reading.event {s : Sources} {w w' : Walk} {event : Event} (h : b.Reading)
    (hread : Builder.event s b w event = .ok (b', w')) : b'.Reading := by
  cases event with
  | line file text =>
    obtain ⟨b₁, hline, heq⟩ := exists_ok_of_map hread
    cases heq
    cases hprogram : b.program with
    | some p =>
      rw [hprogram] at hline
      exact h.programLine hline
    | none =>
      rw [hprogram] at hline
      have hpasses : b'.passes = b.passes := by
        cases hstart : isProgramStart text with
        | true =>
          dsimp only at hline
          rw [outerLine, if_pos hstart] at hline
          cases hline
          rfl
        | false => exact (keeps_outerLine hstart hline).passes
      exact h.congr (congrArg Prod.fst (code_outerLine hline)) hpasses
  | include_ file directive target =>
    rw [Builder.event] at hread
    split at hread
    · cases hread
      exact h
    · dsimp only at hread
      split at hread <;> cases hread <;> exact h.congr rfl rfl
  | endInclude directive target =>
    cases hread
    exact h

theorem Reading.finish {path : String} {s : Sources} {repeats : Nat} {shader : Shader}
    (h : b.Reading) (hread : b.finish path s repeats = .ok shader) :
    ∀ pass ∈ shader.passes, ∀ stage s, pass.entryPoints.get stage = some s → s.IsRead := by
  obtain ⟨last, hlast, hpasses⟩ := passes_of_finish hread
  rw [hpasses]
  rw [closed] at hlast
  split at hlast
  · exact (h.endProgram hlast).passes
  · cases hlast
    exact h.passes

/-- **Entry points are signatures of the text** of a shader that has been read. -/
theorem isRead_of_read {project : Project} {path : String} {shader : Shader}
    (h : Shader.read? project path = .ok shader) {pass : Pass} (hpass : pass ∈ shader.passes)
    {stage : Stage} {s : Signature} (hs : pass.entryPoints.get stage = some s) : s.IsRead := by
  obtain ⟨moments, b, w, hrun, -, hfinish⟩ := exists_reads h
  have hnew : Builder.new.Reading := by
    refine ⟨fun name s hs => ?_, fun pass hpass => by cases hpass⟩
    rw [show Builder.new.functions.get? name = none from rfl] at hs
    cases hs
  have hreading := hrun.invariant hnew fun _ _ _ _ _ hb hstep => hb.event hstep
  exact hreading.finish hfinish pass hpass stage s hs

end Builder

/-- Whether what the vertex stage of a pass returns is no directive. -/
def Pass.ReturnsCode (pass : Pass) : Prop :=
  ∀ vertex, pass.entryPoints.vertex = some vertex → Directive.isMarked vertex.returnType = false

/-- Each pass of a shader that has been read returns code, and so does the empty one. -/
theorem returnsCode_of_read {project : Project} {path : String} {shader : Shader}
    (h : Shader.read? project path = .ok shader) (number : Nat) :
    ((shader.passes[number]?).getD .empty).ReturnsCode := by
  intro vertex hvertex
  cases hpass : shader.passes[number]? with
  | none =>
    rw [hpass] at hvertex
    cases hvertex
  | some pass =>
    rw [hpass] at hvertex
    have hget : pass.entryPoints.get .vertex = some vertex := hvertex
    exact (Builder.isRead_of_read h (List.mem_of_getElem? hpass) hget).isMarked_returnType

end ShaderMerge
