import ShaderMerge.Proofs.Include.Next
import ShaderMerge.Proofs.Region.Nesting
import ShaderMerge.Proofs.Variant.Numbering

/-!
# What a dropped region leaves behind

From the directive that opens a region whose condition fails to the one that ends it, the writer
writes nothing, and then at most a note: `exists_end_of_region` follows the walk from the one to the
other.  The walk itself does not know of regions.  It still captures the shared blocks that stand in
the region, and so it replays them at the program starts behind it, where the filter lets
their lines through.

A `Place` is how far a run has come inside a dropped region, and `Skips` leads from one place to the
next through moments that write nothing.  Each way in which a walk goes on gives such a passage
(`skips_line` and the lemmas behind it); they compose to one through a whole region (`skips_parts`).
-/

namespace ShaderMerge.Include

/-- A part of a file: a line, or a shared block with the lines around it. -/
inductive Part where
  /-- A line that opens no shared block. -/
  | line (text : String) (plain : isSharedStart text = false)
  /-- A shared block. -/
  | shared (opener : String) (block : List String) (closer : String)
      (opens : isSharedStart opener = true) (inside : block.any isBlockEnd = false)
      (closes : isBlockEnd closer = true)

namespace Part

/-- The lines of a part. -/
def lines : Part → List String
  | line text _ => [text]
  | shared opener block closer _ _ _ => opener :: (block ++ [closer])

/-- The lines of a part that a walk meets where they stand. -/
def met : Part → List String
  | line text _ => [text]
  | shared .. => []

/-- The shared block that a part is. -/
def blocks : Part → List (List String)
  | line .. => []
  | shared _ block _ _ _ _ => [block]

section

variable {text opener closer : String} {block : List String} {plain : isSharedStart text = false}
  {opens : isSharedStart opener = true} {inside : block.any isBlockEnd = false}
  {closes : isBlockEnd closer = true}

@[simp]
theorem met_line : (line text plain).met = [text] := rfl

@[simp]
theorem met_shared : (shared opener block closer opens inside closes).met = [] := rfl

@[simp]
theorem blocks_line : (line text plain).blocks = [] := rfl

@[simp]
theorem blocks_shared : (shared opener block closer opens inside closes).blocks = [block] := rfl

end

end Part

end ShaderMerge.Include

namespace ShaderMerge.Variant

open Include (Walk Event Moment Frame Part RunsOut isSharedStart isProgramStart isMarker)
open Region (Control depthBehind? depthAfter? Nests dropNote)

/-- A moment that writes nothing. -/
def IsSilent (m : Moment Writer) : Prop :=
  m.after = { m.before with regions := m.after.regions }

/-- A shared block that opens no other block, and whose regions pair up. -/
structure IsTame (block : List String) : Prop where
  plain : ∀ line ∈ block, isSharedStart line = false ∧ isProgramStart line = false
  nests : Nests block

namespace Writer

variable {r : Request} {w w' : Writer} {walk walk' : Walk} {event : Event} {text : String}

/-- The same writer inside a dropped region. -/
def droppingAt (w : Writer) (depth count : Nat) : Writer :=
  { w with regions := w.regions.droppingAt depth count }

/-- What a line becomes that the filter of the regions consumes. -/
theorem event_of_consumed {filter : Region.Filter} {notes : List String}
    (htext : event.text? = some text) (hfeed : w.regions.feed text = ⟨filter, notes, .consumed⟩)
    (h : Writer.event r w walk event = .ok (w', walk')) :
    w' = ({ w with regions := filter } : Writer).write notes ∧ walk' = walk := by
  have hfed : w.feedRegions text
      = (({ w with regions := filter } : Writer).write notes, .consumed) := by
    rw [feedRegions, hfeed]
  cases event with
  | line file line =>
    cases htext
    rw [Writer.event, Writer.line, hfed] at h
    cases h
    exact ⟨rfl, rfl⟩
  | include_ file directive target =>
    cases htext
    simp only [Writer.event, hfed] at h
    cases h
    exact ⟨rfl, rfl⟩
  | endInclude => cases htext

end Writer

/-! ## What the filter of the regions reads -/

namespace Writer

variable {r : Request} {w w' : Writer} {walk walk' : Walk} {event : Event} {line : String}

theorem regions_outerLine (h : w.outerLine r line = .ok w') : w'.regions = w.regions := by
  rw [outerLine] at h
  split at h
  · obtain ⟨plan, -, rfl⟩ := startProgram_eq h
    exact put_regions
  · split at h
    · cases h
      simp only [openBrace]
      split
      · split <;> exact put_regions
      · split <;> exact put_regions
    · split at h
      · cases h
        simp only [closeBrace]
        split
        · exact put_regions.trans put_regions
        · exact put_regions
      · cases h
        obtain ⟨outline, properties, heq, -⟩ := w.outerStatement_eq r line
        rw [heq]
        exact put_regions

theorem regions_programLine {p : Program} (h : w.programLine r p line = .ok w') :
    w'.regions = w.regions := by
  cases hend : Include.isBlockEnd line with
  | true =>
    rw [programLine, if_pos hend] at h
    obtain ⟨held, report, -, rfl⟩ := endProgram_eq h
    exact put_regions
  | false =>
    obtain ⟨p', written, -, rfl⟩ := programLine_eq hend h
    exact put_regions

theorem regions_liveInclude (w : Writer) (directive : String) (target : Option String) :
    (w.liveInclude directive target).1.regions = w.regions := by
  rw [liveInclude]
  split
  · exact put_regions
  · dsimp only
    split
    · exact put_regions
    · exact put_regions
    · exact write_regions.trans put_regions

/-- The filter of the regions reads the lines of the events, one after the other. -/
theorem regions_event (h : Writer.event r w walk event = .ok (w', walk')) :
    w'.regions = (event.text?.map fun text => (w.regions.feed text).filter).getD w.regions := by
  cases event with
  | line file text =>
    obtain ⟨w₁, hline, heq⟩ := exists_ok_of_map h
    cases heq
    change w'.regions = (w.regions.feed text).filter
    cases hfeed : (w.regions.feed text).feed with
    | consumed =>
      rw [line_of_consumed hfeed hline]
      exact w.feedRegions_regions text
    | live =>
      rw [feed_of_live hfeed]
      rcases line_of_live hfeed hline with ⟨p, -, hread⟩ | ⟨-, hread⟩
      · exact regions_programLine hread
      · exact regions_outerLine hread
  | include_ file directive target =>
    have hlive : (w.regions.feed directive).feed = .live →
        (w.liveInclude directive target).1.regions = (w.regions.feed directive).filter := by
      intro hfeed
      rw [feed_of_live hfeed]
      exact w.regions_liveInclude directive target
    cases includes_of_event h with
    | consumed => exact w.feedRegions_regions directive
    | kept feed => exact hlive feed
    | repeated feed => exact hlive feed
    | opened feed => exact hlive feed
  | endInclude directive target =>
    cases h
    rw [endInclude]
    split
    · rfl
    · exact write_regions

/-- All along a run the filter of the regions knows the same values. -/
theorem values_run {moments : List (Moment Writer)}
    (hrun : Include.Run r.shader.sources (Writer.event r) w walk moments w' walk') :
    w'.regions.values = w.regions.values := by
  refine hrun.invariant (P := fun state => state.regions.values = w.regions.values) rfl ?_
  intro state walk event state' walk' hsame hstep
  rw [regions_event hstep]
  cases event.text? with
  | none => exact hsame
  | some text => exact (Region.Filter.values_feed _ text).trans hsame

end Writer

/-! ## Passages through a dropped region -/

/-- How far a run has come inside a dropped region. -/
structure Place where
  /-- The number of regions open in the dropped one. -/
  depth : Nat
  /-- What is being walked. -/
  stack : List Frame
  /-- The shared blocks captured so far. -/
  shared : List (List String)

/-- Every run that has come to the first place comes to the second one, and writes nothing on the
way. -/
def Skips (r : Request) (p q : Place) : Prop :=
  ∀ ⦃w last : Writer⦄ ⦃walk : Walk⦄ ⦃moments : List (Moment Writer)⦄ ⦃count : Nat⦄,
    walk.stack = p.stack → walk.shared = p.shared →
    RunsOut r.shader.sources (Writer.event r) (w.droppingAt p.depth count) walk moments last →
    ∃ within more walk' count', moments = within ++ more ∧ (∀ m ∈ within, IsSilent m) ∧
      walk'.stack = q.stack ∧ walk'.shared = q.shared ∧
      RunsOut r.shader.sources (Writer.event r) (w.droppingAt q.depth count') walk' more last

section

variable {r : Request} {p q : Place} {depth after : Nat} {outer : List Frame}
  {shared blocks : List (List String)} {file text : String} {rest block : List String}
  {directive : Option String}

theorem Skips.refl (r : Request) (p : Place) : Skips r p p :=
  fun _ _ walk moments count hstack hshared hrun =>
    ⟨[], moments, walk, count, rfl, by simp, hstack, hshared, hrun⟩

theorem Skips.trans {p₁ : Place} (h : Skips r p p₁) (h₁ : Skips r p₁ q) : Skips r p q := by
  intro w last walk moments count hstack hshared hrun
  obtain ⟨within, more, walk₁, count₁, rfl, hsilent, hstack₁, hshared₁, hrun₁⟩ :=
    h hstack hshared hrun
  obtain ⟨within₁, more₁, walk₂, count₂, rfl, hsilent₁, hstack₂, hshared₂, hrun₂⟩ :=
    h₁ hstack₁ hshared₁ hrun₁
  refine ⟨within ++ within₁, more₁, walk₂, count₂, (List.append_assoc ..).symm, ?_, hstack₂,
    hshared₂, hrun₂⟩
  intro m hm
  exact (List.mem_append.1 hm).elim (hsilent m) (hsilent₁ m)

/-- A passage without an event. -/
theorem skips_of_next_eq (hnext : ∀ walk : Walk, walk.stack = p.stack → walk.shared = p.shared →
      ∃ walk' : Walk, walk.next r.shader.sources = walk'.next r.shader.sources ∧
        walk'.stack = q.stack ∧ walk'.shared = q.shared)
    (hdepth : q.depth = p.depth) : Skips r p q := by
  intro w last walk moments count hstack hshared hrun
  obtain ⟨walk', hsame, hstack', hshared'⟩ := hnext walk hstack hshared
  refine ⟨[], moments, walk', count, rfl, by simp, hstack', hshared', ?_⟩
  rw [hdepth]
  exact hrun.of_next_eq hsame

theorem skips_line (hplain : isSharedStart text = false)
    (hdepth : depthBehind? depth text = some after) :
    Skips r ⟨depth, ⟨file, text :: rest, directive⟩ :: outer, shared⟩
      ⟨after, (if isProgramStart text then Walk.replay r.shader.sources shared else []) ++
        ⟨file, rest, directive⟩ :: outer, shared⟩ := by
  intro w last walk moments count hstack hshared hrun
  obtain ⟨event, walk₁, hnext, htext, hshared₁, hstack₁⟩ :=
    Walk.exists_next_of_line (s := r.shader.sources) hstack (by simp [hplain])
  obtain ⟨w₁, walk₂, more, rfl, hstep, hmore⟩ := hrun.of_next hnext
  have hdropped := @Region.Filter.drop_of_depth _ _ _ w.regions count hdepth
  obtain ⟨rfl, rfl⟩ := Writer.event_of_consumed htext hdropped hstep
  rw [Writer.write_nil] at hmore ⊢
  refine ⟨[_], more, walk₂, count + 1, rfl, ?_, ?_, hshared₁.trans hshared, hmore⟩
  · intro m hm
    rw [List.mem_singleton.1 hm, IsSilent]
  · rw [hstack₁, hshared]

theorem skips_endReplay :
    Skips r ⟨depth, ⟨file, [], none⟩ :: outer, shared⟩ ⟨depth, outer, shared⟩ :=
  skips_of_next_eq (fun _ hstack hshared => ⟨_, Walk.next_of_endReplay hstack, rfl, hshared⟩) rfl

theorem skips_shared {opener closer : String} (hopener : isSharedStart opener = true)
    (hblock : block.any Include.isBlockEnd = false) (hcloser : Include.isBlockEnd closer = true) :
    Skips r ⟨depth, ⟨file, opener :: (block ++ closer :: rest), directive⟩ :: outer, shared⟩
      ⟨depth, ⟨file, rest, directive⟩ :: outer, shared ++ [block]⟩ := by
  refine skips_of_next_eq (fun walk hstack hshared => ?_) rfl
  refine ⟨_, Walk.next_of_block hstack hopener hblock hcloser, rfl, ?_⟩
  rw [hshared]

/-- A replayed block is skipped, from its first line to its end. -/
theorem skips_block (hplain : ∀ line ∈ block, isSharedStart line = false ∧ isProgramStart line = false)
    (hdepth : depthAfter? depth block = some after) :
    Skips r ⟨depth, ⟨file, block, none⟩ :: outer, shared⟩ ⟨after, outer, shared⟩ := by
  induction block generalizing depth with
  | nil =>
    cases hdepth
    exact skips_endReplay
  | cons text rest ih =>
    rw [depthAfter?, List.foldlM_cons, Option.bind_eq_bind, Option.bind_eq_some_iff] at hdepth
    obtain ⟨behind, hline, hrest⟩ := hdepth
    obtain ⟨htext, hplain⟩ := List.forall_mem_cons.1 hplain
    have hfirst := @skips_line r _ _ outer shared file text rest none htext.1 hline
    rw [if_neg (by simp [htext.2])] at hfirst
    exact hfirst.trans (ih hplain hrest)

theorem skips_replay (htame : ∀ block ∈ blocks, IsTame block) :
    Skips r ⟨depth, Walk.replay r.shader.sources blocks ++ outer, shared⟩
      ⟨depth, outer, shared⟩ := by
  induction blocks with
  | nil => exact .refl r _
  | cons block blocks ih =>
    obtain ⟨hblock, hblocks⟩ := List.forall_mem_cons.1 htame
    exact (skips_block hblock.plain (Region.depthAfter?_of_nests hblock.nests depth)).trans
      (ih hblocks)

/-- The parts of a region are skipped, but their shared blocks are captured. -/
theorem skips_parts {parts : List Part}
    (htame : ∀ block ∈ shared ++ parts.flatMap Part.blocks, IsTame block)
    (hdepth : depthAfter? depth (parts.flatMap Part.met) = some after) :
    Skips r ⟨depth, ⟨file, parts.flatMap Part.lines ++ rest, directive⟩ :: outer, shared⟩
      ⟨after, ⟨file, rest, directive⟩ :: outer, shared ++ parts.flatMap Part.blocks⟩ := by
  induction parts generalizing depth shared with
  | nil =>
    cases hdepth
    simp only [List.flatMap_nil, List.nil_append, List.append_nil]
    exact .refl r _
  | cons part parts ih =>
    rw [List.flatMap_cons] at htame hdepth
    rw [List.flatMap_cons, List.flatMap_cons]
    cases part with
    | line text plain =>
      rw [Part.met_line, List.singleton_append, depthAfter?, List.foldlM_cons, Option.bind_eq_bind,
        Option.bind_eq_some_iff] at hdepth
      obtain ⟨behind, hline, hrest⟩ := hdepth
      rw [Part.blocks_line, List.nil_append] at htame ⊢
      have hfirst := @skips_line r _ _ outer shared file text
        (parts.flatMap Part.lines ++ rest) directive plain hline
      refine hfirst.trans (Skips.trans ?_ (ih htame hrest))
      -- A program start in the region replays the blocks captured so far, which are skipped too.
      split
      · exact skips_replay fun block hblock => htame block (List.mem_append_left _ hblock)
      · exact .refl r _
    | shared opener block closer opens inside closes =>
      rw [Part.met_shared, List.nil_append] at hdepth
      rw [Part.blocks_shared, ← List.append_assoc] at htame ⊢
      have hlines : (Part.shared opener block closer opens inside closes).lines
          ++ parts.flatMap Part.lines ++ rest
          = opener :: (block ++ closer :: (parts.flatMap Part.lines ++ rest)) := by
        simp [Part.lines]
      rw [hlines]
      exact (skips_shared opens inside closes).trans (ih htame hdepth)

end

/-! ## Regions -/

/-- **What a dropped region leaves behind.**  From the directive that opens a region whose
condition fails to the one that ends it nothing is written, and then at most a note: behind the
region the writer is the one in front of it, with the note and another state of the filter.  The
walk has captured the shared blocks of the region. -/
theorem exists_end_of_region {shader : Shader} {o : Options} {g : GeneratedShader}
    {t : Substitution} {front back : List (Moment Writer)} {m : Moment Writer}
    {file opener condition closer : String} {inside : List Part} {behind : List String}
    {directive : Option String} {outer : List Frame}
    (hvariant : shader.variant o = .ok g) (hsubstitution : Substitution.new shader o = .ok t)
    (hmoments : Writer.moments shader o = front ++ m :: back)
    (hopener : m.event.text? = some opener)
    (hcondition : Control.ofLine opener = .openRegion condition)
    (hfails : Region.decide condition t.regionValues = .drop)
    (hplace : m.walk.stack
      = ⟨file, inside.flatMap Part.lines ++ closer :: behind, directive⟩ :: outer)
    (hinside : Nests (inside.flatMap Part.met)) (hcloser : Control.ofLine closer = .closeRegion)
    (htame : ∀ block ∈ m.walk.shared ++ inside.flatMap Part.blocks, IsTame block) :
    ∃ within last rest notes, back = within ++ last :: rest ∧ last.event.text? = some closer ∧
      last.walk.stack = ⟨file, behind, directive⟩ :: outer ∧
      last.walk.shared = m.walk.shared ++ inside.flatMap Part.blocks ∧
      (∀ x ∈ m :: within, IsSilent x) ∧ (∀ note ∈ notes, ∃ count, note = dropNote count) ∧
      last.after = ({ m.before with regions := last.after.regions } : Writer).write notes := by
  obtain ⟨t', w, walk, ht', hrun, hend, -⟩ := Writer.writes_moments hvariant
  rw [hsubstitution] at ht'
  cases ht'
  rw [hmoments] at hrun
  obtain ⟨walk₀, walk₁, hfront, -, hstep, hback⟩ := hrun.split
  -- The opener is consumed, and from there on a region is dropped.
  have hvalues : m.before.regions.values = t.regionValues :=
    Writer.values_run (r := ⟨shader, o, t⟩) hfront
  rw [← hvalues] at hfails
  obtain ⟨depth, count, hfeed⟩ := Region.Filter.feed_of_fails hcondition hfails
  obtain ⟨hafter, rfl⟩ := Writer.event_of_consumed hopener hfeed hstep
  rw [Writer.write_nil] at hafter
  have hsilent : IsSilent m := by rw [IsSilent, hafter]
  have hdropping : RunsOut shader.sources (Writer.event ⟨shader, o, t⟩)
      (m.before.droppingAt depth count) m.walk back w := by
    rw [hafter] at hback
    exact ⟨walk, hback, hend⟩
  obtain ⟨within, more, walk₂, count₂, rfl, hwithin, hstack₂, hshared₂, hmore⟩ :=
    skips_parts (r := ⟨shader, o, t⟩) htame (Region.depthAfter?_of_nests hinside depth)
      hplace rfl hdropping
  -- Then comes the closer, which stands in no shared block.
  have hplain : ¬ isSharedStart closer = true := by
    intro hshared
    rw [Region.control_of_isSharedStart hshared] at hcloser
    cases hcloser
  obtain ⟨event, walk₃, hnext, htext, hshared₃, hstack₃⟩ :=
    Walk.exists_next_of_line (s := shader.sources) hstack₂ hplain
  obtain ⟨w₃, walk₄, rest, rfl, hlast, -⟩ := hmore.of_next hnext
  obtain ⟨filter, notes, hclose, hnotes⟩ :=
    @Region.Filter.feed_of_close depth closer m.before.regions count₂ hcloser
  obtain ⟨rfl, rfl⟩ := Writer.event_of_consumed htext hclose hlast
  have hstart : isProgramStart closer = false := by
    rw [Bool.eq_false_iff]
    intro hstart
    rw [ofLine_marker (by rw [isMarker, hstart]; rfl)] at hcloser
    cases hcloser
  rw [hstart, if_neg Bool.false_ne_true] at hstack₃
  refine ⟨within, _, rest, notes, rfl, htext, hstack₃, hshared₃.trans hshared₂, ?_, hnotes, ?_⟩
  · exact List.forall_mem_cons.2 ⟨hsilent, hwithin⟩
  · rw [Writer.write_regions]
    rfl

/-- The parts of a region with a command and a shared block. -/
def leakingParts : List Part :=
  [.line "Cull Off" (by decide),
    .shared "CGINCLUDE" ["float leaked;"] "ENDCG" (by decide) (by decide) (by decide)]

/-- The lines behind that region: a pass that does not mention it. -/
def behindLeakingRegion : List String :=
  ["Pass", "\x7b", "CGPROGRAM", "#pragma vertex vert", "#pragma fragment frag",
    "float4 vert() : SV_Position", "\x7b", "return 0;", "\x7d",
    "float4 frag() : SV_Target", "\x7b", "return 1;", "\x7d", "ENDCG", "\x7d", "\x7d"]

/-- A shader with a shared block in a region. -/
def sharedInRegion : List String :=
  ["Shader \"S\"", "\x7b", "Properties \x7b _A (\"A\", Float) = 0", "\x7d", "#ifex _A == 1"]
    ++ leakingParts.flatMap Part.lines ++ "#endex" :: behindLeakingRegion

/-- The command of the region is gone, but its shared block is in the program block behind it. -/
theorem exists_end_of_region_of_sharedInRegion :
    ∃ shader g, Shader.read? (.ofFiles [("a.shader", sharedInRegion)]) "a.shader" = .ok shader ∧
      shader.variant firstDropped = .ok g ∧
      "Cull Off" ∉ g.main.lines ∧ "float leaked;" ∈ g.main.lines ∧
      ∃ front m within last rest notes,
        Writer.moments shader firstDropped = front ++ m :: (within ++ last :: rest) ∧
        m.event.text? = some "#ifex _A == 1" ∧ last.event.text? = some "#endex" ∧
        last.walk.shared = [["float leaked;"]] ∧ (∀ x ∈ m :: within, IsSilent x) ∧
        (∀ note ∈ notes, ∃ count, note = dropNote count) ∧
        last.after = ({ m.before with regions := last.after.regions } : Writer).write notes := by
  have hlines : (Project.ofFiles [("a.shader", sharedInRegion)]).readLines? "a.shader"
      = some sharedInRegion :=
    Project.readLines?_ofFiles (by decide +kernel) (by decide +kernel)
  have hcheck : (Shader.read? (.ofFiles [("a.shader", sharedInRegion)]) "a.shader").toOption.any
      (fun shader =>
        ((Substitution.new shader firstDropped).toOption.any fun t =>
          decide (Region.decide " _A == 1" t.regionValues = .drop)) &&
        ((shader.variant firstDropped).toOption.any fun g : GeneratedShader =>
          decide ("Cull Off" ∉ g.main.lines ∧ "float leaked;" ∈ g.main.lines)) &&
        (Writer.moments shader firstDropped)[6]?.any fun m =>
          decide (m.event.text? = some "#ifex _A == 1" ∧ m.walk.shared = [] ∧
            m.walk.stack = [⟨"a.shader",
              leakingParts.flatMap Part.lines ++ "#endex" :: behindLeakingRegion, none⟩])) = true := by
    rw [Shader.read?, Include.Sources.load, hlines]
    decide +kernel
  obtain ⟨shader, hread, hshader⟩ := exists_ok_of_any hcheck
  rw [Bool.and_eq_true, Bool.and_eq_true] at hshader
  obtain ⟨⟨hfails, hfiles⟩, hplace⟩ := hshader
  obtain ⟨t, ht, hfails⟩ := exists_ok_of_any hfails
  obtain ⟨g, hvariant, hfiles⟩ := exists_ok_of_any hfiles
  obtain ⟨m, hm, hplace⟩ := (Option.any_eq_true _ _).1 hplace
  obtain ⟨hopener, hshared, hstack⟩ := of_decide_eq_true hplace
  obtain ⟨hindex, hm⟩ := List.getElem?_eq_some_iff.1 hm
  have hmoments : Writer.moments shader firstDropped
      = (Writer.moments shader firstDropped).take 6 ++
        m :: (Writer.moments shader firstDropped).drop 7 := by
    rw [← hm, ← List.drop_eq_getElem_cons hindex, List.take_append_drop]
  have htame : ∀ block ∈ m.walk.shared ++ leakingParts.flatMap Part.blocks, IsTame block := by
    rw [hshared]
    exact List.forall_mem_singleton.2 ⟨by decide, by decide⟩
  obtain ⟨within, last, rest, notes, hback, hcloser, -, hcaptured, hsilent, hnotes, hafter⟩ :=
    exists_end_of_region hvariant ht hmoments hopener (by decide) (of_decide_eq_true hfails) hstack
      (by decide) (by decide) htame
  rw [hback] at hmoments
  rw [hshared] at hcaptured
  obtain ⟨hgone, hleft⟩ := of_decide_eq_true hfiles
  exact ⟨shader, g, hread, hvariant, hgone, hleft, _, m, within, last, rest, notes, hmoments,
    hopener, hcloser, hcaptured, hsilent, hnotes, hafter⟩

end ShaderMerge.Variant
