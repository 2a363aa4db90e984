import Mathlib.Data.List.Induction
import ShaderMerge.Proofs.Condition.Notes
import ShaderMerge.Proofs.Variant.Mentions
import ShaderMerge.Proofs.Variant.Segments

/-!
# Where the definition of a carrier is handed on

A block defines a carrier once, right in front of the first entry point that refers to it
(`Carries.placed`).  A preprocessor hands the definition on if that place is live, and nothing of it
otherwise.  So the entry points that mention the structure find one definition in front of them
exactly under the symbols under which that place is live (`definitions_of_variant`): if the first of
them stands in one arm of a conditional group and another one in the next, the other one finds none.
-/

namespace ShaderMerge

/-! ## What a preprocessor hands on -/

namespace Condition.Preprocessor

/-- What a preprocessor hands on of some lines. -/
def handed (oracle : Oracle) (c : Preprocessor) (lines : List String) : List String :=
  ({ c with output := [] }.run oracle lines).output

variable {oracle : Oracle} {c : Preprocessor} {lines : List String}

theorem output_run (oracle : Oracle) (c : Preprocessor) (lines : List String) :
    (c.run oracle lines).output = c.output ++ c.handed oracle lines := by
  have hbehind : c = ({ c with output := [] } : Preprocessor).behind c.output := by
    rw [behind, List.append_nil]
  rw [handed]
  conv_lhs => rw [hbehind, run_behind]
  rfl

theorem handed_append (oracle : Oracle) (c : Preprocessor) (first second : List String) :
    c.handed oracle (first ++ second)
      = c.handed oracle first ++ (c.run oracle first).handed oracle second := by
  have hfirst := c.output_run oracle first
  have hboth := c.output_run oracle (first ++ second)
  rw [run_append, output_run, hfirst, List.append_assoc] at hboth
  exact (List.append_cancel_left hboth).symm

theorem run_of_plain (hplain : ∀ line ∈ lines, Control.ofLine line = .plain) :
    c.run oracle lines = { c with output := c.output ++ if c.isLive then lines else [] } := by
  induction lines generalizing c with
  | nil => simp
  | cons line rest ih =>
    obtain ⟨hline, hrest⟩ := List.forall_mem_cons.1 hplain
    have hstep : c.step oracle line
        = { c with output := c.output ++ if c.isLive then [line] else [] } := by
      rw [step, hline]
      change c.pass line = _
      rw [pass]
      split
      · rfl
      · rw [List.append_nil]
    have hlive : ({ c with output := c.output ++ if c.isLive then [line] else [] } :
        Preprocessor).isLive = c.isLive := rfl
    rw [run_cons, hstep, ih hrest, hlive]
    cases c.isLive with
    | true => simp
    | false => simp

/-- Lines of code are handed on together or not at all. -/
theorem handed_of_plain (hplain : ∀ line ∈ lines, Control.ofLine line = .plain)
    (oracle : Oracle) (c : Preprocessor) :
    c.handed oracle lines = if c.isLive then lines else [] := by
  rw [handed, run_of_plain hplain]
  rfl

end Condition.Preprocessor

namespace Variant

open Condition (Oracle Preprocessor Symbols)
open Include (Walk Event Moment Run)

/-! ## The last block of some segments -/

/-- A program block with one more segment, which may start another one. -/
def Segment.extend (block : List Segment) : Segment → List Segment
  | start index lines => [.start index lines]
  | segment => block ++ [segment]

/-- The program block that some segments end in, from its start on. -/
def lastBlock (segments : List Segment) : List Segment := segments.foldl Segment.extend []

theorem lastBlock_concat (segments : List Segment) (segment : Segment) :
    lastBlock (segments ++ [segment]) = segment.extend (lastBlock segments) := by
  rw [lastBlock, List.foldl_append]
  rfl

/-- Whether the definition of a carrier has its place in a block: it is the only one of its role,
and it stands right in front of the first entry point that refers to the carrier. -/
structure Placed (carrier : Carrier) (above below rest : List Segment) : Prop where
  code : carrier.IsCode
  only : ∀ other, .definition other ∈ above ++ below → other.role ≠ carrier.role
  first : ∀ stage source entry assignments, .entry stage source entry assignments ∈ above →
    carrier ∉ entry.carriers
  introduces : Introduces carrier (below ++ rest)

section

variable {carrier : Carrier} {front rest above below : List Segment}

theorem mem_definedAfter {other : Carrier} (h : .definition other ∈ lastBlock front) :
    other ∈ definedAfter [] front := by
  induction front using List.reverseRecOn with
  | nil => cases h
  | append_singleton front segment ih =>
    rw [lastBlock_concat] at h
    rw [definedAfter_append]
    cases segment with
    | start index lines => simp [Segment.extend] at h
    | code lines => exact ih (by simpa [Segment.extend] using h)
    | definition c =>
      simp only [Segment.extend, List.mem_append, List.mem_singleton, Segment.definition.injEq] at h
      rcases h with h | rfl
      · exact List.mem_cons_of_mem c (ih h)
      · exact List.mem_cons_self
    | entry => exact ih (by simpa [Segment.extend] using h)

/-- An entry point of the last block refers to carriers that are defined. -/
theorem Carries.subset (h : Carries [] (front ++ rest)) {stage : Stage} {source : List String}
    {entry : EntryPoint} {assignments : List String}
    (hentry : .entry stage source entry assignments ∈ lastBlock front) :
    ∀ c ∈ entry.carriers, c ∈ definedAfter [] front := by
  induction front using List.reverseRecOn generalizing rest with
  | nil => cases hentry
  | append_singleton front segment ih =>
    rw [List.append_assoc] at h
    rw [lastBlock_concat] at hentry
    rw [definedAfter_append]
    cases segment with
    | start index lines => simp [Segment.extend] at hentry
    | code lines => exact ih h (by simpa [Segment.extend] using hentry)
    | definition c =>
      exact fun other hother => List.mem_cons_of_mem c
        (ih h (by simpa [Segment.extend] using hentry) other hother)
    | entry stage' source' entry' assignments' =>
      simp only [Segment.extend, List.mem_append, List.mem_singleton, Segment.entry.injEq] at hentry
      rcases hentry with hentry | ⟨rfl, rfl, rfl, rfl⟩
      · exact ih h hentry
      · exact h.of_append.1.2

/-- **Each carrier that is defined has one definition**, in its place. -/
theorem Carries.exists_placed (h : Carries [] (front ++ rest))
    (hcarrier : carrier ∈ definedAfter [] front) :
    ∃ above below, lastBlock front = above ++ .definition carrier :: below ∧
      Placed carrier above below rest := by
  induction front using List.reverseRecOn generalizing rest with
  | nil => cases hcarrier
  | append_singleton front segment ih =>
    rw [List.append_assoc] at h
    rw [definedAfter_append] at hcarrier
    rw [lastBlock_concat]
    have hrespects := h.of_append.1
    -- A segment behind the definition changes nothing, unless it defines a carrier of its role.
    have hbehind : ∀ {above below : List Segment},
        (∀ other, segment = .definition other → other.role ≠ carrier.role) →
        Placed carrier above below ([segment] ++ rest) →
        Placed carrier above (below ++ [segment]) rest := by
      intro above below hrole hplaced
      refine ⟨hplaced.code, fun other hother => ?_, hplaced.first, ?_⟩
      · rw [← List.append_assoc, List.mem_append, List.mem_singleton] at hother
        rcases hother with hother | heq
        · exact hplaced.only other hother
        · exact hrole other heq.symm
      · rw [List.append_assoc]
        exact hplaced.introduces
    cases segment with
    | start index lines => cases hcarrier
    | code lines =>
      obtain ⟨above, below, heq, hplaced⟩ := ih h hcarrier
      exact ⟨above, below ++ [.code lines], by simp [Segment.extend, heq],
        hbehind (by rintro other ⟨⟩) hplaced⟩
    | definition c =>
      obtain ⟨hcode, hnew, hintroduces⟩ := hrespects
      rcases List.mem_cons.1 hcarrier with rfl | hcarrier
      · refine ⟨lastBlock front, [], rfl, hcode, fun other hother => ?_, ?_, hintroduces⟩
        · rw [List.append_nil] at hother
          exact hnew other (mem_definedAfter hother)
        · intro stage source entry assignments hentry hmem
          exact hnew carrier (h.subset hentry carrier hmem) rfl
      · obtain ⟨above, below, heq, hplaced⟩ := ih h hcarrier
        refine ⟨above, below ++ [.definition c], by simp [Segment.extend, heq], hbehind ?_ hplaced⟩
        rintro other ⟨⟩
        exact (hnew carrier hcarrier).symm
    | entry stage source entry assignments =>
      obtain ⟨above, below, heq, hplaced⟩ := ih h hcarrier
      exact ⟨above, below ++ [.entry stage source entry assignments],
        by simp [Segment.extend, heq], hbehind (by rintro other ⟨⟩) hplaced⟩

end

/-! ## Definitions behind a preprocessor -/

/-- What a preprocessor hands on of each of some segments. -/
def handedOn (oracle : Oracle) (c : Preprocessor) : List Segment → List (Segment × List String)
  | [] => []
  | segment :: rest =>
    (segment, c.handed oracle segment.lines) :: handedOn oracle (c.run oracle segment.lines) rest

/-- What has been handed on of a definition for a role, if it is anything. -/
def definition? (role : CarrierRole) : Segment × List String → Option (List String)
  | (.definition carrier, lines) =>
    if carrier.role = role ∧ lines ≠ [] then some lines else none
  | _ => none

/-- What has been handed on of the definitions for a role. -/
def definitionsOf (role : CarrierRole) (handed : List (Segment × List String)) :
    List (List String) :=
  handed.filterMap (definition? role)

section

variable {carrier : Carrier} {role : CarrierRole} {segments above below rest : List Segment}

/-- Together the segments give what the preprocessor hands on. -/
theorem flatMap_handedOn (oracle : Oracle) (c : Preprocessor) (segments : List Segment) :
    (handedOn oracle c segments).flatMap Prod.snd = c.handed oracle (linesOf segments) := by
  induction segments generalizing c with
  | nil => rfl
  | cons segment rest ih =>
    rw [handedOn, List.flatMap_cons, ih, linesOf_cons, Preprocessor.handed_append]

theorem handedOn_append (oracle : Oracle) (c : Preprocessor) (first second : List Segment) :
    handedOn oracle c (first ++ second)
      = handedOn oracle c first ++ handedOn oracle (c.run oracle (linesOf first)) second := by
  induction first generalizing c with
  | nil => rfl
  | cons segment rest ih =>
    rw [List.cons_append, handedOn, handedOn, ih, linesOf_cons, Preprocessor.run_append]
    rfl

theorem definitionsOf_eq_nil (h : ∀ other, .definition other ∈ segments → other.role ≠ role)
    (oracle : Oracle) (c : Preprocessor) :
    definitionsOf role (handedOn oracle c segments) = [] := by
  induction segments generalizing c with
  | nil => rfl
  | cons segment rest ih =>
    have hrest := ih (fun other hother => h other (List.mem_cons_of_mem segment hother))
      (c.run oracle segment.lines)
    have hnone : definition? role (segment, c.handed oracle segment.lines) = none := by
      cases segment with
      | definition other => exact if_neg fun hboth => h other List.mem_cons_self hboth.1
      | start => rfl
      | code => rfl
      | entry => rfl
    rw [definitionsOf] at hrest ⊢
    rw [handedOn, List.filterMap_cons_none hnone, hrest]

theorem isMarked_append {first second : String} (hfirst : Directive.isMarked first = false)
    (hsecond : first.toList = [] → Directive.isMarked second = false) :
    Directive.isMarked (first ++ second) = false := by
  rw [Directive.isMarked, String.toList_append]
  cases hempty : first.toList with
  | nil => exact hsecond hempty
  | cons c rest =>
    rw [Directive.isMarked, hempty] at hfirst
    exact hfirst

/-- The lines of a definition are code. -/
theorem ofLine_definition (h : carrier.IsCode) :
    ∀ line ∈ carrier.definition, Condition.Control.ofLine line = .plain := by
  have hname : Directive.isMarked carrier.name = false := by
    rw [Carrier.name]
    cases carrier.role <;> decide
  have hwrapper : Directive.isMarked carrier.role.wrapper = false := by
    cases carrier.role <;> decide
  have hsemantic : Directive.isMarked ((carrier.semantic.map (" : " ++ ·)).getD "") = false := by
    cases carrier.semantic with
    | none => decide
    | some semantic => exact isMarked_append (by decide) fun hempty => absurd hempty (by decide)
  intro line hline
  apply ofLine_of_not_isMarked
  simp only [Carrier.definition, List.mem_cons, List.not_mem_nil, or_false] at hline
  rcases hline with rfl | rfl | rfl | rfl | rfl | rfl
  · exact isMarked_append (by decide) fun _ => hname
  · decide
  · refine isMarked_append (isMarked_append (isMarked_append h ?_) fun _ => hsemantic) ?_
    · exact fun _ => by decide
    · exact fun _ => by decide
  · decide
  · decide
  · iterate 7 refine isMarked_append ?_ fun _ => ?_
    all_goals first | exact hname | exact hwrapper | exact h | decide

/-- The one definition of a block is handed on where its place is live. -/
theorem Placed.definitionsOf_eq (h : Placed carrier above below rest) (oracle : Oracle)
    (c : Preprocessor) :
    definitionsOf carrier.role (handedOn oracle c (above ++ .definition carrier :: below))
      = if (c.run oracle (linesOf above)).isLive then [carrier.definition] else [] := by
  have habove := definitionsOf_eq_nil
    (fun other hother => h.only other (List.mem_append_left below hother)) oracle c
  have hbelow := definitionsOf_eq_nil
    (fun other hother => h.only other (List.mem_append_right above hother)) oracle
    ((c.run oracle (linesOf above)).run oracle carrier.definition)
  have hhanded := Preprocessor.handed_of_plain (ofLine_definition h.code) oracle
    (c.run oracle (linesOf above))
  rw [definitionsOf] at habove hbelow ⊢
  rw [handedOn_append, handedOn, Segment.lines, hhanded, List.filterMap_append, habove,
    List.nil_append]
  split
  · have hwhole : definition? carrier.role (.definition carrier, carrier.definition)
        = some carrier.definition := if_pos ⟨rfl, List.cons_ne_nil _ _⟩
    rw [List.filterMap_cons_some hwhole, hbelow]
  · have hnone : definition? carrier.role (.definition carrier, []) = none :=
      if_neg fun hboth => hboth.2 rfl
    rw [List.filterMap_cons_none hnone, hbelow]

end

/-! ## Entry points stand in program blocks -/

section

variable {r : Request} {w w' : Writer} {walk walk' : Walk} {event : Event}

theorem Writer.isSome_of_entry {stage : Stage} {source : List String} {entry : EntryPoint}
    (h : .entry stage source entry ∈ w.marks event) : w.program.isSome = true := by
  cases event with
  | line file text =>
    cases hprogram : w.program with
    | some p => rfl
    | none =>
      simp only [marks, hprogram] at h
      split at h
      · cases h
      · split at h
        · cases List.mem_singleton.1 h
        · cases h
      · rename_i heq
        cases heq
  | include_ => cases h
  | endInclude => cases h

/-- A program block is open behind an event if it was in front of it, or if one starts there. -/
theorem Writer.exists_block_of_isSome (h : Writer.event r w walk event = .ok (w', walk'))
    (hafter : w'.program.isSome = true) :
    w.program.isSome = true ∨ ∃ index, .block index ∈ w.marks event := by
  cases hbefore : w.program with
  | some p => exact .inl rfl
  | none =>
    obtain ⟨text, hmarker, hstart, hdropping, -⟩ :=
      exists_start (m := ⟨w, event, walk, w'⟩) h hbefore hafter
    obtain ⟨hm, file, rfl⟩ := Include.eq_line_of_marker? hmarker
    refine .inr ⟨w.programs, ?_⟩
    rw [marks, feed_of_plain hdropping (ofLine_marker hm), hbefore]
    exact List.mem_of_mem_head? (by rw [if_pos hstart]; rfl)

/-- An entry point is met in a program block, which is open at first or starts in front of it. -/
theorem exists_block_of_entry {moments : List (Moment Writer)}
    (hrun : Run r.shader.sources (Writer.event r) w walk moments w' walk') {front back : List Mark}
    {stage : Stage} {source : List String} {entry : EntryPoint}
    (h : marksOfRun moments = front ++ .entry stage source entry :: back) :
    w.program.isSome = true ∨ ∃ index, .block index ∈ front := by
  induction hrun generalizing front with
  | nil => simp [marksOfRun] at h
  | @cons w w₁ w' walk walk₁ walk₂ walk' event moments hnext hstep hrest ih =>
    -- Behind the event a block is open, or it starts later but in front of the entry point.
    have hlater : ∀ later, marksOfRun moments = later ++ .entry stage source entry :: back →
        front = w.marks event ++ later →
        w.program.isSome = true ∨ ∃ index, .block index ∈ front := by
      rintro later hmarks rfl
      rcases ih hmarks with hsome | ⟨index, hindex⟩
      · refine (Writer.exists_block_of_isSome hstep hsome).imp_right ?_
        rintro ⟨index, hindex⟩
        exact ⟨index, List.mem_append_left later hindex⟩
      · exact .inr ⟨index, List.mem_append_right _ hindex⟩
    rw [marksOfRun, List.flatMap_cons] at h
    rcases List.append_eq_append_iff.1 h with ⟨later, hfront, hmarks⟩ | ⟨between, hmarks, hback⟩
    · exact hlater later hmarks hfront
    · cases between with
      | nil => exact hlater [] hback.symm (by rw [hmarks]; simp)
      | cons mark between =>
        cases hback
        have hmem : .entry stage source entry ∈ w.marks event := by
          rw [show w.marks event = _ from hmarks]
          exact List.mem_append_right front List.mem_cons_self
        exact .inl (Writer.isSome_of_entry hmem)

/-- The last block starts with its start, if one is among the segments. -/
theorem exists_start_of_block {front : List Segment} {index : Nat}
    (h : .block index ∈ marksOf front) :
    ∃ number lines rest, lastBlock front = .start number lines :: rest := by
  induction front using List.reverseRecOn with
  | nil => cases h
  | append_singleton front segment ih =>
    rw [lastBlock_concat]
    rw [marksOf_append, List.mem_append] at h
    have hkeep : .block index ∈ marksOf front →
        ∃ number lines rest, lastBlock front ++ [segment] = .start number lines :: rest := by
      intro hfront
      obtain ⟨number, lines, rest, heq⟩ := ih hfront
      exact ⟨number, lines, rest ++ [segment], by rw [heq]; rfl⟩
    cases segment with
    | start number lines => exact ⟨number, lines, [], rfl⟩
    | code lines => exact hkeep (h.resolve_right List.not_mem_nil)
    | definition carrier =>
      exact hkeep (h.resolve_right fun hmem => by cases List.mem_singleton.1 hmem)
    | entry => exact hkeep (h.resolve_right fun hmem => by cases List.mem_singleton.1 hmem)

end

/-! ## The definitions of a variant -/

/-- What an entry point finds of a carrier in front of it: its block has one definition of the
carrier, in its place, and in what a preprocessor hands on of the block up to here, all that comes of
definitions for the role is that one, if its place is live, and nothing otherwise. -/
def Finds (carrier : Carrier) (front rest : List Segment) : Prop :=
  ∃ index lines above below, lastBlock front
      = (.start index lines :: above) ++ .definition carrier :: below ∧
    Placed carrier (.start index lines :: above) below rest ∧
    ∀ (oracle : Oracle) (σ : Symbols),
      (handedOn oracle (.start σ) (lastBlock front)).flatMap Prod.snd
        = (Preprocessor.start σ).handed oracle (linesOf (lastBlock front)) ∧
      definitionsOf carrier.role (handedOn oracle (.start σ) (lastBlock front))
        = if ((Preprocessor.start σ).run oracle (lines ++ linesOf above)).isLive
          then [carrier.definition] else []

/-- Whether each entry point among some segments finds the carriers whose structures it mentions,
unless the lines that it is made from mention them. -/
def FindsCarriers (segments : List Segment) : Prop :=
  ∀ front stage source entry assignments back,
    segments = front ++ .entry stage source entry assignments :: back →
    ∀ role : CarrierRole, MentionedIn role.typeName (entry.signature ++ entry.prologue) →
      ¬MentionedIn role.typeName source →
      ∃ carrier ∈ entry.carriers, carrier.role = role ∧
        Finds carrier front (.entry stage source entry assignments :: back)

/-- **Carriers are defined once, in front of the first entry point that refers to them.**  The text of
a variant, its chunks in the place of their includes, is made of segments, whose program blocks,
definitions and entry points are those that the walk comes upon.  An entry point that mentions the
structure of a carrier, while the lines that it is made from do not, finds the definition of the
structure and of its wrapper in front of it exactly under the symbols under which the place in front
of the first entry point that refers to the carrier is live.  This holds as long as no included file
ends while the signature of an entry point is held back. -/
theorem definitions_of_variant {project : Project} {path : String} {shader : Shader} {o : Options}
    {g : GeneratedShader} (hread : Shader.read? project path = .ok shader)
    (hvariant : shader.variant o = .ok g) (horderly : Orderly g (Writer.moments shader o))
    (hreleases : ∀ m ∈ Writer.moments shader o, Releases m.before m.event) :
    ∃ segments, linesOf segments = g.inlined ∧
      marksOf segments = marksOfRun (Writer.moments shader o) ∧ FindsCarriers segments := by
  obtain ⟨segments, hlines, hcarries, hmarks⟩ :=
    exists_segments_of_variant hread hvariant horderly hreleases
  obtain ⟨substitution, w, walk, -, hrun, -⟩ := exists_run_of_orderly hvariant horderly
  refine ⟨segments, hlines, hmarks, ?_⟩
  rintro front stage source entry assignments back rfl role hmentions hsource
  obtain ⟨⟨plan, htyped, hadapt⟩, hdefined⟩ := hcarries.of_append.1
  obtain ⟨carrier, hcarrier, rfl⟩ :=
    (EntryPoint.mentionedIn_adapt htyped hadapt hmentions).resolve_left hsource
  refine ⟨carrier, hcarrier, rfl, ?_⟩
  obtain ⟨above, below, hblock, hplaced⟩ := hcarries.exists_placed (hdefined carrier hcarrier)
  -- At first no block is open, so that one starts in front of the entry point.
  have hstarts : ∃ index lines rest, lastBlock front = .start index lines :: rest := by
    rw [marksOf_append] at hmarks
    rcases exists_block_of_entry (r := ⟨shader, o, substitution⟩) hrun hmarks.symm with
      hopen | ⟨index, hindex⟩
    · cases hopen
    · exact exists_start_of_block hindex
  obtain ⟨index, lines, rest, hstart⟩ := hstarts
  cases above with
  | nil =>
    rw [hblock] at hstart
    cases hstart
  | cons first above =>
    have hfirst := hblock
    rw [hstart] at hfirst
    cases hfirst
    refine ⟨index, lines, above, below, hblock, hplaced, fun oracle σ => ?_⟩
    refine ⟨flatMap_handedOn oracle (.start σ) _, ?_⟩
    rw [hblock]
    exact hplaced.definitionsOf_eq oracle (.start σ)

/-- A shader with the function of its vertex stage in both arms of a group. -/
def vertexInBothArms : List String :=
  ["Shader \"S\"", "\x7b", "Properties", "\x7b", "_A (\"A\", Float) = 1", "\x7d", "CGPROGRAM",
    "#pragma vertex vert", "#pragma fragment frag",
    "#ifdef USER", "float4 vert() : SV_Position", "\x7b", "return 0;", "\x7d",
    "#else", "float4 vert() : SV_Position", "\x7b", "return 1;", "\x7d", "#endif",
    "float4 frag() : SV_Target", "\x7b", "return _A;", "\x7d", "ENDCG", "\x7d"]

/-- Options for two materials that differ in a property. -/
def twoMaterials : Options :=
  { Options.new with arrays := Table.ofList [("_A", [.float .zero, .float .one])] }

/-- The vertex stage of the second arm mentions a structure that only the first arm defines. -/
theorem definitions_of_vertexInBothArms :
    ∃ shader g, Shader.read? (.ofFiles [("a.shader", vertexInBothArms)]) "a.shader" = .ok shader ∧
      shader.variant twoMaterials = .ok g ∧
      (marksOfRun (Writer.moments shader twoMaterials)).length = 5 ∧
      ["#ifdef USER", "struct OptimizerVertexOutput"] <:+: g.inlined ∧
      ["#else", "OptimizerVertexOutput vert(float4 optimizerPackedUV : TEXCOORD7)"]
        <:+: g.inlined ∧
      g.inlined.count "struct OptimizerVertexOutput" = 1 ∧
      ∃ segments, linesOf segments = g.inlined ∧
        marksOf segments = marksOfRun (Writer.moments shader twoMaterials) ∧
        FindsCarriers segments := by
  have hlines : (Project.ofFiles [("a.shader", vertexInBothArms)]).readLines? "a.shader"
      = some vertexInBothArms :=
    Project.readLines?_ofFiles (by decide +kernel) (by decide +kernel)
  have hcheck : (Shader.read? (.ofFiles [("a.shader", vertexInBothArms)]) "a.shader").toOption.any
      (fun shader => (shader.variant twoMaterials).toOption.any fun g : GeneratedShader =>
        decide ((marksOfRun (Writer.moments shader twoMaterials)).length = 5 ∧
          ["#ifdef USER", "struct OptimizerVertexOutput"] <:+: g.inlined ∧
          ["#else", "OptimizerVertexOutput vert(float4 optimizerPackedUV : TEXCOORD7)"]
            <:+: g.inlined ∧
          g.inlined.count "struct OptimizerVertexOutput" = 1) &&
          (decide (Orderly g (Writer.moments shader twoMaterials)) &&
            decide (∀ m ∈ Writer.moments shader twoMaterials, Releases m.before m.event)))
        = true := by
    rw [Shader.read?, Include.Sources.load, hlines]
    decide +kernel
  obtain ⟨shader, hread, hany⟩ := exists_ok_of_any hcheck
  obtain ⟨g, hvariant, hg⟩ := exists_ok_of_any hany
  rw [Bool.and_eq_true, Bool.and_eq_true, decide_eq_true_eq, decide_eq_true_eq, decide_eq_true_eq]
    at hg
  obtain ⟨⟨hmarks, hfirst, hsecond, honce⟩, horderly, hreleases⟩ := hg
  exact ⟨shader, g, hread, hvariant, hmarks, hfirst, hsecond, honce,
    definitions_of_variant hread hvariant horderly hreleases⟩

end Variant

end ShaderMerge
