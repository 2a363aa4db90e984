import ShaderMerge.Proofs.Include.Markers
import ShaderMerge.Shader.Builder
import Mathlib.Tactic.ByContra

/-!
# The blocks that the builder reads

What the builder does with its passes: a line outside of program blocks that starts one opens a
block, the end of a block appends its pass, and nothing else touches either (`keeps_event`).
So where the markers of a shader pair up, the pass of a block is numbered by the starts in front of
it (`Reads.builds`).
-/

namespace ShaderMerge.Builder

open Include (Moment Run Sources Walk isMarker isProgramStart isBlockEnd markerTexts starts
  markerTexts_cons_of_none markerTexts_cons_of_some)

variable {b b' : Builder} {p p' : Program} {line : String}

/-- The passes are those from before, and a program block is open if one was. -/
structure Keeps (b b' : Builder) : Prop where
  passes : b'.passes = b.passes
  program : b'.program.isSome = b.program.isSome

/-! ## Outside of program blocks -/

theorem keeps_tagsLine (b : Builder) (line : String) : Keeps b (b.tagsLine line) := by
  rw [tagsLine]
  generalize Command.tagPairs line.toList = pairs
  induction pairs generalizing b with
  | nil => exact ⟨rfl, rfl⟩
  | cons pair rest ih =>
    obtain ⟨key, value⟩ := pair
    rw [List.foldl_cons]
    refine ⟨(ih _).passes.trans ?_, (ih _).program.trans ?_⟩
    · dsimp only
      split
      · rfl
      · split <;> rfl
    · dsimp only
      split
      · rfl
      · split <;> rfl

theorem keeps_propertyLine (h : b.propertyLine line = .ok b') : Keeps b b' := by
  simp only [propertyLine] at h
  split at h
  · cases h
    exact ⟨rfl, rfl⟩
  · split at h
    · cases h
    · cases h
      exact ⟨rfl, rfl⟩

theorem keeps_commandLine (h : b.commandLine line = .ok b') : Keeps b b' := by
  rw [commandLine.eq_def] at h
  dsimp only at h
  split at h
  · split at h
    · cases h
      exact ⟨rfl, rfl⟩
    · cases h
      exact ⟨rfl, rfl⟩
  · have hkeeps := keeps_propertyLine h
    exact ⟨hkeeps.passes, hkeeps.program⟩
  · cases h
    have hkeeps := keeps_tagsLine { b with announced := none } line
    exact ⟨hkeeps.passes, hkeeps.program⟩
  · split at h
    all_goals
      cases h
      exact ⟨rfl, rfl⟩

theorem keeps_openBrace (b : Builder) : Keeps b b.openBrace := by
  rw [openBrace]
  split <;> exact ⟨rfl, rfl⟩

theorem keeps_outerLine (hline : isProgramStart line = false) (h : b.outerLine line = .ok b') :
    Keeps b b' := by
  rw [outerLine, if_neg (by simp [hline])] at h
  split at h
  · cases h
    exact ⟨rfl, rfl⟩
  · split at h
    · cases h
      exact b.keeps_openBrace
    · split at h
      · cases h
        exact ⟨rfl, rfl⟩
      · exact keeps_commandLine h

/-! ## Inside a program block -/

theorem passes_pragma (b : Builder) (p : Program) (words : List String) :
    (b.pragma p words).1.passes = b.passes := by
  rw [pragma.eq_def]
  split
  · rfl
  · split
    · rfl
    · split <;> rfl

theorem passes_directiveLine (b : Builder) (p : Program) (line : String) :
    (b.directiveLine p line).1.passes = b.passes := by
  rw [directiveLine]
  split
  · exact b.passes_pragma p _
  · rfl
  · rfl

theorem passes_liveLine (h : b.liveLine p line = .ok (b', p')) : b'.passes = b.passes := by
  rw [liveLine] at h
  split at h
  · cases h
    rfl
  · cases h
    rfl
  · split at h
    · split at h
      · cases h
      · cases h
        rfl
    · split at h
      · cases h
        rfl
      · cases h
        rfl

theorem keeps_programLine (hprogram : b.program = some p) (hline : isBlockEnd line = false)
    (h : b.programLine p line = .ok b') : Keeps b b' := by
  have hsome : b.program.isSome = true := by rw [hprogram]; rfl
  rw [programLine, if_neg (by simp [hline])] at h
  split at h
  · cases h
    exact ⟨rfl, rfl⟩
  · dsimp only at h
    split at h
    · cases h
      exact ⟨rfl, hsome.symm⟩
    · cases h
      exact ⟨rfl, hsome.symm⟩
    · cases h
      exact ⟨b.passes_directiveLine _ line, hsome.symm⟩
    · obtain ⟨⟨b₁, p₁⟩, hlive, rfl⟩ := exists_ok_of_map h
      have hpasses := passes_liveLine hlive
      exact ⟨hpasses, hsome.symm⟩

/-! ## Events -/

variable {s : Sources} {w w' : Walk} {event : Include.Event}

theorem stepsOver_event (s : Sources) : Include.StepsOver s (Builder.event s) := by
  intro b w event b' w' h
  cases event with
  | line file text =>
    obtain ⟨b₁, -, heq⟩ := exists_ok_of_map h
    cases heq
    exact .inl rfl
  | include_ file directive target =>
    simp only [Builder.event] at h
    split at h
    · cases h
      exact .inl rfl
    · split at h
      · cases h
        exact .inr rfl
      · cases h
        exact .inl rfl
  | endInclude directive target =>
    cases h
    exact .inl rfl

/-- An event that is no marker keeps the passes. -/
theorem keeps_event (hmarker : event.marker? = none)
    (h : Builder.event s b w event = .ok (b', w')) : Keeps b b' := by
  cases event with
  | line file text =>
    have hplain : isMarker text = false := by
      rw [Include.Event.marker?] at hmarker
      by_contra hm
      rw [Bool.not_eq_false] at hm
      rw [if_pos hm] at hmarker
      cases hmarker
    rw [isMarker, Bool.or_eq_false_iff] at hplain
    obtain ⟨b₁, hread, heq⟩ := exists_ok_of_map h
    cases heq
    split at hread
    · rename_i p hprogram
      exact keeps_programLine hprogram hplain.2 hread
    · exact keeps_outerLine hplain.1 hread
  | include_ file directive target =>
    simp only [Builder.event] at h
    split at h
    · cases h
      exact ⟨rfl, rfl⟩
    · rename_i p hprogram
      have hsome : b.program.isSome = true := by rw [hprogram]; rfl
      split at h
      · cases h
        exact ⟨rfl, hsome.symm⟩
      · cases h
        exact ⟨rfl, hsome.symm⟩
  | endInclude directive target =>
    cases h
    exact ⟨rfl, rfl⟩

/-- A program block starts. -/
theorem event_start {file text : String} (hstart : isProgramStart text = true)
    (hprogram : b.program = none)
    (h : Builder.event s b w (.line file text) = .ok (b', w')) :
    b' = { b with program := some (.new b.lightMode) } := by
  obtain ⟨b₁, hread, heq⟩ := exists_ok_of_map h
  cases heq
  rw [hprogram] at hread
  dsimp only at hread
  rw [outerLine, if_pos hstart] at hread
  cases hread
  rfl

theorem endProgram_eq (h : b.endProgram p = .ok b') :
    b'.program = none ∧ ∃ pass, b'.passes = b.passes ++ [pass] := by
  rw [endProgram] at h
  obtain ⟨found, -, h⟩ := exists_ok_of_bind h
  split at h
  · cases h
  · split at h
    · cases h
    · cases h
      exact ⟨rfl, _, rfl⟩

/-- A program block ends, and its pass comes behind those from before. -/
theorem event_end {file text : String} (hend : isBlockEnd text = true)
    (hprogram : b.program.isSome = true)
    (h : Builder.event s b w (.line file text) = .ok (b', w')) :
    b'.program = none ∧ ∃ pass, b'.passes = b.passes ++ [pass] := by
  obtain ⟨p, hp⟩ := Option.isSome_iff_exists.1 hprogram
  obtain ⟨b₁, hread, heq⟩ := exists_ok_of_map h
  cases heq
  rw [hp] at hread
  dsimp only at hread
  rw [programLine, if_pos hend] at hread
  exact endProgram_eq hread

/-! ## Runs -/

variable {moments : List (Moment Builder)}

/-- Without markers a run keeps the passes. -/
theorem keeps_run (h : Run s (Builder.event s) b w moments b' w')
    (hnone : moments.filterMap Moment.marker? = []) : Keeps b b' := by
  induction h with
  | nil => exact ⟨rfl, rfl⟩
  | cons next step_eq rest ih =>
    rw [List.filterMap_eq_nil_iff] at hnone
    have hmarker := hnone _ List.mem_cons_self
    rw [Moment.marker?, Option.map_eq_none_iff] at hmarker
    have hfirst := keeps_event hmarker step_eq
    have hrest := ih (List.filterMap_eq_nil_iff.2 fun m hm => hnone m (List.mem_cons_of_mem _ hm))
    exact ⟨hrest.passes.trans hfirst.passes, hrest.program.trans hfirst.program⟩

/-- A run over markers by turns: every block that starts has its pass, once it has ended. -/
theorem passes_of_run (isOpen : Bool) (h : Run s (Builder.event s) b w moments b' w')
    (halternates : Include.alternates isOpen (markerTexts moments) = true)
    (hprogram : b.program.isSome = isOpen) :
    b'.program.isSome = Include.opensAfter isOpen (markerTexts moments) ∧
      b'.passes.length + b'.program.isSome.toNat
        = b.passes.length + isOpen.toNat + starts (markerTexts moments) ∧
      b.passes <+: b'.passes := by
  induction h generalizing isOpen with
  | nil =>
    refine ⟨hprogram, ?_, List.prefix_rfl⟩
    rw [hprogram]
    rfl
  | @cons b b₁ b' w w₁ w₂ w' event moments next step_eq rest ih =>
    cases hmarker : event.marker? with
    | none =>
      rw [markerTexts_cons_of_none moments hmarker] at halternates ⊢
      have hkeeps := keeps_event hmarker step_eq
      rw [← hkeeps.passes]
      exact ih _ halternates (hkeeps.program.trans hprogram)
    | some text =>
      obtain ⟨hm, file, rfl⟩ := Include.eq_line_of_marker? hmarker
      rw [markerTexts_cons_of_some moments hmarker, Include.alternates, Bool.and_eq_true,
        Bool.and_eq_true, beq_iff_eq] at halternates
      obtain ⟨⟨-, hturn⟩, halternates⟩ := halternates
      rw [markerTexts_cons_of_some moments hmarker, Include.opensAfter, starts, List.countP_cons,
        ← starts]
      -- The marker starts a block if none is open, and ends it otherwise, as the markers alternate.
      cases isOpen with
      | false =>
        have hnone : b.program = none := by simpa using hprogram
        have hstep := event_start hturn hnone step_eq
        obtain ⟨hopen, hlength, hprefix⟩ := ih _ halternates (by rw [hstep]; rfl)
        refine ⟨hopen, ?_, ?_⟩
        · rw [Bool.not_false] at hturn
          rw [hlength, hstep, hturn, if_pos rfl]
          simp only [Bool.toNat_true, Bool.toNat_false, Bool.not_false]
          omega
        · rw [hstep] at hprefix
          exact hprefix
      | true =>
        have hend : isBlockEnd text = true := by
          rw [isMarker, hturn] at hm
          exact hm
        obtain ⟨hnone, pass, hpasses⟩ := event_end hend hprogram step_eq
        obtain ⟨hopen, hlength, hprefix⟩ := ih _ halternates (by rw [hnone]; rfl)
        refine ⟨hopen, ?_, ?_⟩
        · rw [hlength, hpasses, hturn, List.length_append]
          simp only [Bool.toNat_true, Bool.toNat_false, Bool.not_true, List.length_singleton,
            Bool.false_eq_true, if_false]
          omega
        · rw [hpasses] at hprefix
          exact (List.prefix_append _ _).trans hprefix

/-- A moment at which a block starts, among those of a run from the start to the end of the sources:
its number is that of the starts in front of it, and its pass is the one that its end appends. -/
structure Builds (moments : List (Moment Builder)) (m : Moment Builder) (number : Nat)
    (pass : Pass) : Prop where
  mem : m ∈ moments
  outside : m.before.program = none
  inside : m.after.program = some (.new m.before.lightMode)
  number_eq : m.before.passes.length = number
  ended : ∃ last ∈ moments, last.before.passes = m.before.passes ∧
    last.after.passes = m.before.passes ++ [pass]

/-- The block that is open when a run starts gets its pass at the next marker. -/
theorem exists_ended (h : Run s (Builder.event s) b w moments b' w')
    (halternates : Include.alternates true (markerTexts moments) = true)
    (hclosed : Include.opensAfter true (markerTexts moments) = false)
    (hprogram : b.program.isSome = true) :
    ∃ last ∈ moments, ∃ pass, last.before.passes = b.passes ∧
      last.after.passes = b.passes ++ [pass] ∧ b.passes ++ [pass] <+: b'.passes := by
  cases hmarkers : moments.filterMap Moment.marker? with
  | nil =>
    rw [markerTexts, hmarkers] at hclosed
    cases hclosed
  | cons marker back =>
    obtain ⟨text, rest⟩ := marker
    obtain ⟨quiet, last, third, rfl, hquiet, hlast, hback⟩ := List.filterMap_eq_cons_iff.1 hmarkers
    obtain ⟨w₀, w₂, hfirst, -, hstep, hthird⟩ := h.split
    have hkeeps := keeps_run hfirst (List.filterMap_eq_nil_iff.2 hquiet)
    rw [markerTexts, hmarkers, List.map_cons, Include.alternates, Bool.and_eq_true,
      Bool.and_eq_true, beq_iff_eq] at halternates
    obtain ⟨⟨hm, hturn⟩, halternates⟩ := halternates
    have hend : isBlockEnd text = true := by
      rw [isMarker, hturn] at hm
      exact hm
    have hevent : last.event.marker? = some text := by
      rw [Moment.marker?, Option.map_eq_some_iff] at hlast
      obtain ⟨t, ht, heq⟩ := hlast
      rw [ht, (Prod.mk.inj heq).1]
    obtain ⟨-, file, hline⟩ := Include.eq_line_of_marker? hevent
    rw [hline] at hstep
    obtain ⟨hnone, pass, hpasses⟩ := event_end hend (hkeeps.program.trans hprogram) hstep
    have hrest := passes_of_run false hthird ?_ (by rw [hnone]; rfl)
    · rw [hkeeps.passes] at hpasses
      refine ⟨last, by simp, pass, hkeeps.passes, hpasses, ?_⟩
      rw [← hpasses]
      exact hrest.2.2
    · rw [markerTexts, hback]
      exact halternates

/-- Every start among the markers of a run builds a block. -/
theorem exists_builds (h : Run s (Builder.event s) b w moments b' w')
    (halternates : Include.alternates false (markerTexts moments) = true)
    (hclosed : Include.opensAfter false (markerTexts moments) = false)
    (hprogram : b.program = none) (hnew : b.passes = [])
    {front back : List (String × List String)} {text : String} {rest : List String}
    (hmarkers : moments.filterMap Moment.marker? = front ++ (text, rest) :: back)
    (hstart : isProgramStart text = true) :
    ∃ m pass, m.marker? = some (text, rest) ∧
      Builds moments m (starts (front.map (·.1))) pass ∧
      b'.passes[starts (front.map (·.1))]? = some pass := by
  obtain ⟨first, tail, rfl, hfront, htail⟩ := List.filterMap_eq_append_iff.1 hmarkers
  obtain ⟨quiet, m, second, rfl, hquiet, hm, hback⟩ := List.filterMap_eq_cons_iff.1 htail
  have hfirst : (first ++ quiet).filterMap Moment.marker? = front := by
    rw [List.filterMap_append, hfront, List.filterMap_eq_nil_iff.2 hquiet, List.append_nil]
  rw [markerTexts, hmarkers, List.map_append, Include.alternates_append, Bool.and_eq_true,
    List.map_cons, Include.alternates, Bool.and_eq_true, Bool.and_eq_true, beq_iff_eq] at halternates
  obtain ⟨hfrontTurns, ⟨-, hturn⟩, hbackTurns⟩ := halternates
  rw [markerTexts, hmarkers, List.map_append, Include.opensAfter_append, List.map_cons,
    Include.opensAfter] at hclosed
  have houtside : Include.opensAfter false (front.map (·.1)) = false := by
    rw [hstart] at hturn
    simpa using hturn.symm
  rw [houtside] at hbackTurns hclosed
  rw [← List.append_assoc] at h
  obtain ⟨w₀, w₂, hrun, -, hstep, hrest⟩ := h.split
  -- In front of the block every start has been followed by its end.
  obtain ⟨hopen, hlength, -⟩ := passes_of_run false hrun
    (by rw [markerTexts, hfirst]; exact hfrontTurns) (by rw [hprogram]; rfl)
  rw [markerTexts, hfirst, houtside] at hopen
  have hnone : m.before.program = none := by simpa using hopen
  rw [hnone, hnew, markerTexts, hfirst] at hlength
  have hnumber : m.before.passes.length = starts (front.map (·.1)) := by
    simpa using hlength
  have hevent : m.event.marker? = some text := by
    rw [Moment.marker?, Option.map_eq_some_iff] at hm
    obtain ⟨t, ht, heq⟩ := hm
    rw [ht, (Prod.mk.inj heq).1]
  obtain ⟨-, file, hline⟩ := Include.eq_line_of_marker? hevent
  rw [hline] at hstep
  have hafter := event_start hstart hnone hstep
  have hbackTexts : markerTexts second = back.map (·.1) := by rw [markerTexts, hback]
  -- Behind it the end of the block comes next, and appends its pass.
  obtain ⟨last, hlast, pass, hbefore, hended, hprefix⟩ := exists_ended hrest
    (by rw [hbackTexts]; exact hbackTurns) (by rw [hbackTexts]; exact hclosed)
    (by rw [hafter]; rfl)
  rw [hafter] at hbefore hended hprefix
  refine ⟨m, pass, hm, ⟨by simp, hnone, by rw [hafter], hnumber, last, by simp [hlast], hbefore,
    hended⟩, ?_⟩
  obtain ⟨later, hpasses⟩ := hprefix
  rw [← hnumber, ← hpasses]
  simp

/-! ## Models -/

/-- What a model has from its walk besides its properties. -/
def walked (shader : Shader) : Sources × List Pass × Bool :=
  (shader.sources, shader.passes, shader.hasTessellation)

theorem walked_insertProperties (properties : List Property) (shader : Shader) :
    walked (properties.foldl Shader.insertProperty shader) = walked shader := by
  induction properties generalizing shader with
  | nil => rfl
  | cons p rest ih => exact ih (shader.insertProperty p)

theorem walked_addSites (sites : List (String × String)) (shader : Shader) :
    walked (sites.foldl (fun shader (name, site) => shader.addSite name site) shader)
      = walked shader := by
  induction sites generalizing shader with
  | nil => rfl
  | cons entry rest ih =>
    obtain ⟨name, site⟩ := entry
    refine (ih (shader.addSite name site)).trans ?_
    rw [Shader.addSite]
    split <;> rfl

/-- The builder behind its walk, where a program block that is still open ends. -/
def closed (b : Builder) : Except ShaderError Builder :=
  match b.program with
  | some p => b.endProgram p
  | none => .ok b

/-- A model is given its properties and their uses at the end of the walk. -/
theorem exists_of_finish {path : String} {repeats : Nat} {shader : Shader}
    (h : b.finish path s repeats = .ok shader) : ∃ last start, b.closed = .ok last ∧
      start.properties = [] ∧ start.places = ∅ ∧
      walked start = (s, last.passes, last.hasTessellation) ∧
      shader = last.sites.foldl (fun shader (name, site) => shader.addSite name site)
        (last.properties.foldl Shader.insertProperty start) := by
  rw [finish] at h
  rw [closed]
  cases hprogram : b.program with
  | none =>
    rw [hprogram] at h
    obtain ⟨last, hlast, h⟩ := exists_ok_of_bind h
    dsimp only at h
    split at h <;> cases h
    exact ⟨last, _, hlast, rfl, rfl, rfl, rfl⟩
  | some p =>
    rw [hprogram] at h
    obtain ⟨last, hlast, h⟩ := exists_ok_of_bind h
    dsimp only at h
    split at h <;> cases h
    exact ⟨last, _, hlast, rfl, rfl, rfl, rfl⟩

theorem walked_of_finish {path : String} {repeats : Nat} {shader : Shader}
    (h : b.finish path s repeats = .ok shader) : ∃ last, b.closed = .ok last ∧
      walked shader = (s, last.passes, last.hasTessellation) := by
  obtain ⟨last, start, hlast, -, -, hstart, rfl⟩ := exists_of_finish h
  exact ⟨last, hlast, by rw [walked_addSites, walked_insertProperties, hstart]⟩

/-- The model has the sources that have been read. -/
theorem sources_of_finish {path : String} {repeats : Nat} {shader : Shader}
    (h : b.finish path s repeats = .ok shader) : shader.sources = s := by
  obtain ⟨last, -, hwalked⟩ := walked_of_finish h
  exact congrArg Prod.fst hwalked

theorem passes_of_finish {path : String} {repeats : Nat} {shader : Shader}
    (h : b.finish path s repeats = .ok shader) :
    ∃ last, b.closed = .ok last ∧ shader.passes = last.passes := by
  obtain ⟨last, hlast, hwalked⟩ := walked_of_finish h
  exact ⟨last, hlast, congrArg (fun parts => parts.2.1) hwalked⟩

/-- The moments in which a builder reads the shader of a path. -/
def Reads (path : String) (shader : Shader) (moments : List (Moment Builder)) : Prop :=
  ∃ b w, Run shader.sources (Builder.event shader.sources) .new (.start shader.sources) moments b w ∧
    w.next shader.sources = none ∧ b.finish path shader.sources w.repeats = .ok shader

theorem exists_reads {project : Project} {path : String} {shader : Shader}
    (h : Shader.read? project path = .ok shader) : ∃ moments, Reads path shader moments := by
  rw [Shader.read?] at h
  obtain ⟨s, -, h⟩ := exists_ok_of_bind h
  obtain ⟨⟨b, w⟩, hfold, hfinish⟩ := exists_ok_of_bind h
  obtain ⟨hrun, hend⟩ := Walk.run_of_fold hfold
  have hsources := sources_of_finish hfinish
  rw [← hsources] at hrun hend hfinish
  exact ⟨_, b, w, hrun, hend, hfinish⟩

/-- Where the markers of the sources pair up, each start among them builds the pass whose number
is that of the starts in front of it. -/
theorem Reads.builds {path : String} {shader : Shader} (h : Reads path shader moments)
    (hblocked : shader.sources.IsBlocked) {front back : List (String × List String)} {text : String}
    {rest : List String} (hstart : isProgramStart text = true)
    (hmarkers : Include.markersFrom false shader.sources.mainLines
      = front ++ (text, rest) :: back) :
    ∃ m pass, m.marker? = some (text, rest) ∧ Builds moments m (starts (front.map (·.1))) pass ∧
      shader.passes[starts (front.map (·.1))]? = some pass := by
  obtain ⟨b, w, hrun, hend, hfinish⟩ := h
  have hall := Include.markers_of_run hblocked (stepsOver_event shader.sources) hrun hend
    (Walk.atMain_start shader.sources) hblocked.closes
  have hturns := @Include.alternates_of_closesFrom shader.sources.mainLines false false
    hblocked.closes rfl
  have htexts : markerTexts moments
      = (Include.markersFrom false shader.sources.mainLines).map (·.1) := by
    rw [markerTexts, hall]
  rw [← htexts] at hturns
  obtain ⟨m, pass, hm, hbuilds, hpass⟩ := exists_builds hrun hturns.1 hturns.2 rfl rfl
    (hall.trans hmarkers) hstart
  have hclosed := (passes_of_run false hrun hturns.1 rfl).1
  rw [hturns.2, Option.isSome_eq_false_iff, Option.isNone_iff_eq_none] at hclosed
  obtain ⟨last, hlast, hpasses⟩ := passes_of_finish hfinish
  rw [closed, hclosed] at hlast
  cases hlast
  rw [hpasses]
  exact ⟨m, pass, hm, hbuilds, hpass⟩

end ShaderMerge.Builder
