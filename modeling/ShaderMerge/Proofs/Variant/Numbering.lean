import ShaderMerge.Proofs.Include.Project
import ShaderMerge.Proofs.Shader.Blocks
import ShaderMerge.Proofs.Variant.Writer

/-!
# The passes that a variant takes for its program blocks

The builder and the writer count the program blocks of a shader each for itself, and the writer
does not see those that a dropped region swallows.  Where the markers of a shader pair up, a block
of a variant gets the pass of that very block exactly if no marker in front of it has been dropped,
and the pass of an earlier block otherwise.

`Numbered` relates the count of the writer to the number of blocks that have started in the
sources.  One marker preserves it (`numbered_marker`), and so does a run (`numbered_run`).
-/

namespace ShaderMerge.Variant

open Include (Walk Event Moment Run Sources isMarker isProgramStart isBlockEnd markerTexts starts
  markerTexts_cons_of_none markerTexts_cons_of_some)

/-- Whether a marker is met inside a dropped region. -/
def dropsMarker (m : Moment Writer) : Bool :=
  m.event.marker?.isSome && m.before.regions.isDropping

namespace Writer

variable {r : Request} {w w' : Writer} {walk walk' : Walk} {file text : String}

/-! ## Markers -/

/-- A marker that starts a program block. -/
theorem start_of_line (hstart : isProgramStart text = true)
    (hdropping : w.regions.isDropping = false) (hprogram : w.program = none)
    (h : w.line r text = .ok w') : w.startProgram r text = .ok w' := by
  have hmarker : isMarker text = true := by rw [isMarker, hstart]; rfl
  rcases line_of_plain hdropping (ofLine_marker hmarker) h with ⟨p, hsome, -⟩ | ⟨-, hread⟩
  · rw [hprogram] at hsome
    cases hsome
  · rw [outerLine, if_pos hstart] at hread
    exact hread

/-- Inside a program block a marker that starts one is a line of code. -/
theorem keeps_start (hstart : isProgramStart text = true) (hprogram : w.program.isSome = true)
    (h : w.line r text = .ok w') : Keeps w w' := by
  cases hfeed : (w.regions.feed text).feed with
  | consumed => exact keeps_line_of_consumed hfeed h
  | live =>
    rcases line_of_live hfeed h with ⟨p, hsome, hread⟩ | ⟨hnone, -⟩
    · obtain ⟨p', written, -, rfl⟩ :=
        programLine_eq (Include.not_isBlockEnd_of_isProgramStart hstart) hread
      refine ⟨put_programs, (congrArg _ put_program).trans ?_⟩
      rw [hsome]
      rfl
    · rw [hnone] at hprogram
      cases hprogram

/-- A marker that ends a block leaves no program block open. -/
theorem end_of_line (hend : isBlockEnd text = true) (hdropping : w.regions.isDropping = false)
    (h : w.line r text = .ok w') : w'.programs = w.programs ∧ w'.program = none := by
  have hmarker : isMarker text = true := by rw [isMarker, hend, Bool.or_true]
  have hstart : isProgramStart text = false := by
    by_contra hstart
    rw [Bool.not_eq_false] at hstart
    rw [Include.not_isBlockEnd_of_isProgramStart hstart] at hend
    cases hend
  rcases line_of_plain hdropping (ofLine_marker hmarker) h with ⟨p, -, hread⟩ | ⟨hnone, hread⟩
  · rw [programLine, if_pos hend] at hread
    obtain ⟨held, report, -, rfl⟩ := endProgram_eq hread
    exact ⟨put_programs, put_program⟩
  · have hkeeps := keeps_outerLine hstart hread
    refine ⟨hkeeps.programs, ?_⟩
    rw [← Option.isNone_iff_eq_none, ← Option.isSome_eq_false_iff, hkeeps.program, hnone]
    rfl

/-! ## Counting -/

/-- A writer behind some markers by turns, of which a number are starts.  As long as no marker has
been dropped the writer has counted all starts.  Afterwards it has not, unless what has been
dropped is the end of the block that it still writes. -/
inductive Numbered (w : Writer) (number : Nat) (isOpen : Bool) : Bool → Prop
  | inStep (programs : w.programs = number) (program : w.program.isSome = isOpen) :
      Numbered w number isOpen false
  | unended (programs : w.programs = number) (program : w.program.isSome = true)
      (ended : isOpen = false) : Numbered w number isOpen true
  | behind (programs : w.programs < number) : Numbered w number isOpen true

theorem Numbered.of_keeps {number : Nat} {isOpen dropped : Bool}
    (h : Numbered w number isOpen dropped) (hkeeps : Keeps w w') :
    Numbered w' number isOpen dropped := by
  cases h with
  | inStep programs program =>
    exact .inStep (hkeeps.programs.trans programs) (hkeeps.program.trans program)
  | unended programs program ended =>
    exact .unended (hkeeps.programs.trans programs) (hkeeps.program.trans program) ended
  | behind programs =>
    rw [← hkeeps.programs] at programs
    exact .behind programs

/-- A marker in its turn. -/
theorem numbered_marker {number : Nat} {isOpen dropped : Bool}
    (h : Numbered w number isOpen dropped) (hmarker : isMarker text = true)
    (hturn : isProgramStart text = !isOpen) (hline : w.line r text = .ok w') :
    Numbered w' (number + (!isOpen).toNat) (!isOpen) (dropped || w.regions.isDropping) := by
  cases hdropping : w.regions.isDropping with
  | true =>
    -- A dropped region hides the marker: the count falls behind, or the open block is not ended.
    have hkeeps := keeps_line_of_consumed (consumed_of_isDropping hdropping text) hline
    rw [Bool.or_true]
    refine Numbered.of_keeps ?_ hkeeps
    cases h with
    | inStep programs program =>
      cases isOpen with
      | false => exact .behind (by rw [programs]; exact Nat.lt_succ_self number)
      | true => exact .unended programs program rfl
    | unended programs program ended =>
      rw [ended]
      exact .behind (by rw [programs]; exact Nat.lt_succ_self number)
    | behind programs => exact .behind (Nat.lt_add_right _ programs)
  | false =>
    rw [Bool.or_false]
    cases isOpen with
    | false =>
      cases hprogram : w.program with
      | none =>
        obtain ⟨plan, -, rfl⟩ := startProgram_eq (start_of_line hturn hdropping hprogram hline)
        cases h with
        | inStep programs program => exact .inStep (congrArg (· + 1) programs) rfl
        | unended programs program ended =>
          rw [hprogram] at program
          cases program
        | behind programs => exact .behind (Nat.succ_lt_succ programs)
      | some p =>
        -- A block whose end was dropped is still open, and takes the start in as a line.
        have hsome : w.program.isSome = true := by rw [hprogram]; rfl
        have hkeeps := keeps_start hturn hsome hline
        cases h with
        | inStep programs program =>
          rw [hprogram] at program
          cases program
        | unended programs program ended =>
          refine .behind ?_
          rw [hkeeps.programs, programs]
          exact Nat.lt_succ_self number
        | behind programs =>
          refine .behind ?_
          rw [hkeeps.programs]
          exact Nat.lt_add_right _ programs
    | true =>
      have hend : isBlockEnd text = true := by
        rw [isMarker, hturn] at hmarker
        exact hmarker
      obtain ⟨hprograms, hnone⟩ := end_of_line hend hdropping hline
      cases h with
      | inStep programs program =>
        exact .inStep (hprograms.trans programs) (by rw [hnone]; rfl)
      | unended programs program ended => cases ended
      | behind programs =>
        refine .behind ?_
        rw [hprograms]
        exact programs

/-- A run over markers by turns. -/
theorem numbered_run {moments : List (Moment Writer)} {number : Nat} {isOpen dropped : Bool}
    (hrun : Run r.shader.sources (Writer.event r) w walk moments w' walk')
    (h : Numbered w number isOpen dropped)
    (halternates : Include.alternates isOpen (markerTexts moments) = true) :
    Numbered w' (number + starts (markerTexts moments))
      (Include.opensAfter isOpen (markerTexts moments)) (dropped || moments.any dropsMarker) := by
  induction hrun generalizing number isOpen dropped with
  | nil => simpa [markerTexts, starts, Include.opensAfter] using h
  | @cons w w₁ w' walk walk₁ walk₂ walk' event moments hnext hstep _ ih =>
    rw [List.any_cons, dropsMarker]
    cases hmarker : event.marker? with
    | none =>
      rw [markerTexts_cons_of_none moments hmarker] at halternates ⊢
      exact ih (h.of_keeps (keeps_event hmarker hstep)) halternates
    | some text =>
      obtain ⟨hm, file, rfl⟩ := Include.eq_line_of_marker? hmarker
      obtain ⟨w₂, hline, heq⟩ := exists_ok_of_map hstep
      cases heq
      rw [markerTexts_cons_of_some moments hmarker, Include.alternates, Bool.and_eq_true,
        Bool.and_eq_true, beq_iff_eq] at halternates
      obtain ⟨⟨-, hturn⟩, halternates⟩ := halternates
      have hrest := ih (numbered_marker h hm hturn hline) halternates
      rw [markerTexts_cons_of_some moments hmarker, Include.opensAfter, starts, List.countP_cons,
        ← starts, hturn]
      have hnumber : number + (!isOpen).toNat + starts (markerTexts moments)
          = number + (starts (markerTexts moments) + if (!isOpen) = true then 1 else 0) := by
        cases isOpen with
        | false => simp; omega
        | true => simp
      rw [← hnumber, Option.isSome_some, Bool.true_and, ← Bool.or_assoc]
      exact hrest

/-- The moments in which a writer writes the variant of a shader. -/
def Writes (shader : Shader) (o : Options) (g : GeneratedShader)
    (moments : List (Moment Writer)) : Prop :=
  ∃ substitution w walk, Substitution.new shader o = .ok substitution ∧
    Run shader.sources (Writer.event ⟨shader, o, substitution⟩) (.new ⟨shader, o, substitution⟩)
      (.start shader.sources) moments w walk ∧
    walk.next shader.sources = none ∧ w.finish ⟨shader, o, substitution⟩ = .ok g

/-- The moments in which the variant of a shader is written, if there is one. -/
def moments (shader : Shader) (o : Options) : List (Moment Writer) :=
  match Substitution.new shader o with
  | .error _ => []
  | .ok substitution =>
    let r : Request := ⟨shader, o, substitution⟩
    Walk.moments shader.sources (Writer.event r) shader.sources.walkLimit (.new r)
      (.start shader.sources)

theorem writes_moments {shader : Shader} {o : Options} {g : GeneratedShader}
    (h : shader.variant o = .ok g) : Writes shader o g (moments shader o) := by
  rw [Shader.variant] at h
  obtain ⟨substitution, hsubstitution, h⟩ := exists_ok_of_bind h
  obtain ⟨⟨w, walk⟩, hfold, hfinish⟩ := exists_ok_of_bind h
  obtain ⟨hrun, hend⟩ := Walk.run_of_fold hfold
  refine ⟨substitution, w, walk, hsubstitution, ?_, hend, hfinish⟩
  rw [moments, hsubstitution]
  exact hrun

/-- A writer starts a program block only at a marker that starts one. -/
theorem exists_start {m : Moment Writer} {walk' : Walk}
    (h : Writer.event r m.before m.walk m.event = .ok (m.after, walk'))
    (hbefore : m.before.program = none) (hafter : m.after.program.isSome = true) :
    ∃ text, m.event.marker? = some text ∧ isProgramStart text = true ∧
      m.before.regions.isDropping = false ∧ m.before.startProgram r text = .ok m.after := by
  have hchanged : ¬ Keeps m.before m.after := by
    intro hkeeps
    have hsame := hkeeps.program
    rw [hbefore, hafter] at hsame
    cases hsame
  cases hmarker : m.event.marker? with
  | none => exact absurd (keeps_event hmarker h) hchanged
  | some text =>
    obtain ⟨hm, file, hevent⟩ := Include.eq_line_of_marker? hmarker
    rw [hevent] at h
    obtain ⟨w₁, hline, heq⟩ := exists_ok_of_map h
    cases heq
    cases hdropping : m.before.regions.isDropping with
    | true =>
      have hkeeps := keeps_line_of_consumed (consumed_of_isDropping hdropping text) hline
      exact absurd hkeeps hchanged
    | false =>
      cases hstart : isProgramStart text with
      | true => exact ⟨text, rfl, hstart, rfl, start_of_line hstart hdropping hbefore hline⟩
      | false =>
        have hend : isBlockEnd text = true := by
          rw [isMarker, hstart] at hm
          exact hm
        rw [(end_of_line hend hdropping hline).2] at hafter
        cases hafter

end Writer

/-! ## The passes of the blocks -/

/-- A program block that a writer starts, behind some moments, gets its stage plan, the names of
its entry points, the symbols of its light mode and the keywords of its pass from the pass `used`,
while the builder has made the pass `own` from this very block.  They are the same one if no marker
in front of the block has been dropped; else the pass used is that of an earlier block. -/
def TakesPass (shader : Shader) (o : Options) (reads : List (Moment Builder))
    (front : List (Moment Writer)) (m : Moment Writer) : Prop :=
  ∃ start own used plan, start.marker? = m.marker? ∧
    Builder.Builds reads start (starts (markerTexts front)) own ∧
    shader.passes[starts (markerTexts front)]? = some own ∧
    shader.passes[m.before.programs]? = some used ∧
    Plan.new shader.name used o = .ok plan ∧
    m.after.program = some (.new o m.before.programs used plan) ∧
    if front.any dropsMarker then m.before.programs < starts (markerTexts front)
    else m.before.programs = starts (markerTexts front)

/-- Every program block of a variant takes a pass of the shader, and exactly if no marker in front
of it has been dropped it is its own. -/
theorem takesPass_of_variant {project : Project} {path : String} {shader : Shader} {o : Options}
    {g : GeneratedShader} (hread : Shader.read? project path = .ok shader)
    (hblocked : shader.sources.IsBlocked) (hvariant : shader.variant o = .ok g) :
    ∃ reads writes, Builder.Reads path shader reads ∧ Writer.Writes shader o g writes ∧
      ∀ front m back, writes = front ++ m :: back →
        m.before.program = none → m.after.program.isSome = true →
        TakesPass shader o reads front m := by
  obtain ⟨reads, hreads⟩ := Builder.exists_reads hread
  have hwrites := Writer.writes_moments hvariant
  refine ⟨reads, _, hreads, hwrites, ?_⟩
  intro front m back hsplit hbefore hafter
  rw [hsplit] at hwrites
  obtain ⟨substitution, w, walk, -, hrun, hend, -⟩ := hwrites
  -- The markers of the writer are those of the file, and so are those of the builder.
  have hmarkers := Include.markers_of_run hblocked (Writer.stepsOver_event _) hrun hend
    (Walk.atMain_start shader.sources) hblocked.closes
  have hturns := @Include.alternates_of_closesFrom shader.sources.mainLines false false
    hblocked.closes rfl
  rw [← hmarkers, List.filterMap_append, List.map_append, Include.alternates_append,
    Bool.and_eq_true] at hturns
  obtain ⟨w₀, w₂, hfront, -, hstep, -⟩ := hrun.split
  obtain ⟨text, hmarker, hstart, -, hprogram⟩ := Writer.exists_start hstep hbefore hafter
  have hplace : m.marker? = some (text, m.walk.mainRest) := by
    rw [Moment.marker?, hmarker]
    rfl
  rw [List.filterMap_append, List.filterMap_cons_some hplace] at hmarkers
  obtain ⟨start, own, hsame, hbuilds, hown⟩ := hreads.builds hblocked hstart hmarkers.symm
  have hnumbered := @Writer.numbered_run ⟨shader, o, substitution⟩ _ _ _ _ front 0 false false
    hfront (.inStep rfl rfl) hturns.1.1
  rw [Bool.false_or, Nat.zero_add] at hnumbered
  have hcount : if front.any dropsMarker then m.before.programs < starts (markerTexts front)
      else m.before.programs = starts (markerTexts front) := by
    cases hdropped : front.any dropsMarker with
    | false =>
      rw [hdropped] at hnumbered
      cases hnumbered with
      | inStep programs program => exact programs
    | true =>
      rw [hdropped] at hnumbered
      cases hnumbered with
      | unended programs program ended =>
        rw [hbefore] at program
        cases program
      | behind programs => exact programs
  have hle : m.before.programs < shader.passes.length := by
    have hlt := (List.getElem?_eq_some_iff.1 hown).1
    have hle : m.before.programs ≤ starts (markerTexts front) := by
      split at hcount
      · exact Nat.le_of_lt hcount
      · exact Nat.le_of_eq hcount
    exact Nat.lt_of_le_of_lt hle hlt
  obtain ⟨plan, hplan, hafterEq⟩ := Writer.startProgram_eq hprogram
  have hused := List.getElem?_eq_getElem hle
  rw [hused, Option.getD_some] at hplan hafterEq
  refine ⟨start, own, _, plan, hsame.trans hplace.symm, hbuilds, hown, hused, hplan, ?_, hcount⟩
  rw [hafterEq]

/-- A shader with two passes, the program block of the first of which stands in a region. -/
def twoPasses : List String :=
  ["Shader \"S\"", "\x7b", "Properties \x7b _A (\"A\", Float) = 0", "\x7d",
    "Pass \x7b Tags \x7b \"LightMode\" = \"ForwardBase\" \x7d", "#ifex _A == 1",
    "CGPROGRAM", "#pragma vertex vert", "#pragma fragment frag",
    "float4 vert() : SV_Position \x7b return 0; \x7d",
    "float4 frag() : SV_Target \x7b return 1; \x7d", "ENDCG", "#endex", "\x7d",
    "Pass \x7b Tags \x7b \"LightMode\" = \"ForwardAdd\" \x7d",
    "CGPROGRAM", "#pragma vertex vert", "#pragma fragment frag",
    "#ifdef UNITY_PASS_FORWARDADD", "float added;", "#endif",
    "float4 vert() : SV_Position \x7b return 0; \x7d",
    "float4 frag() : SV_Target \x7b return 1; \x7d", "ENDCG", "\x7d", "\x7d"]

/-- Options for which the region of the first pass is dropped. -/
def firstDropped : Options := { Options.new with statics := Table.ofList [("_A", .float .zero)] }

/-- The block of the second pass takes the first one, whose block has been dropped: the line that it
has for its own light mode is left out. -/
theorem takesPass_of_first_dropped :
    ∃ shader g, Shader.read? (.ofFiles [("a.shader", twoPasses)]) "a.shader" = .ok shader ∧
      shader.sources.IsBlocked ∧ shader.variant firstDropped = .ok g ∧
      shader.passes.map (·.lightMode) = [some "ForwardBase", some "ForwardAdd"] ∧
      "float added;" ∉ g.main.lines ∧
      ∃ reads writes, Builder.Reads "a.shader" shader reads ∧
        Writer.Writes shader firstDropped g writes ∧
        ∀ front m back, writes = front ++ m :: back →
          m.before.program = none → m.after.program.isSome = true →
          TakesPass shader firstDropped reads front m := by
  have hlines : (Project.ofFiles [("a.shader", twoPasses)]).readLines? "a.shader"
      = some twoPasses :=
    Project.readLines?_ofFiles (by decide +kernel) (by decide +kernel)
  have hcheck : (Shader.read? (.ofFiles [("a.shader", twoPasses)]) "a.shader").toOption.any
      (fun shader => decide shader.sources.IsBlocked &&
      (decide (shader.passes.map (·.lightMode) = [some "ForwardBase", some "ForwardAdd"]) &&
        (shader.variant firstDropped).toOption.any fun g : GeneratedShader =>
          decide ("float added;" ∉ g.main.lines))) = true := by
    rw [Shader.read?, Sources.load, hlines]
    decide +kernel
  obtain ⟨shader, hread, hshader⟩ := exists_ok_of_any hcheck
  rw [Bool.and_eq_true, Bool.and_eq_true, decide_eq_true_eq, decide_eq_true_eq] at hshader
  obtain ⟨hblocked, hpasses, hany⟩ := hshader
  obtain ⟨g, hvariant, hlines⟩ := exists_ok_of_any hany
  exact ⟨shader, g, hread, hblocked, hvariant, hpasses, of_decide_eq_true hlines,
    takesPass_of_variant hread hblocked hvariant⟩

end ShaderMerge.Variant
