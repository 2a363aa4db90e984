import ShaderMerge.Proofs.Include.Closure
import ShaderMerge.Proofs.Region.Comparisons
import ShaderMerge.Proofs.Shader.Declarations
import ShaderMerge.Proofs.Shader.Tessellation

/-!
# What a model says of its shader

`Shader.IsModel` collects what holds of the model of a shader that has been read: its passes are those
of the program blocks, its properties are the ones that the lines declare, the names on which materials
must agree have all textures, all names that conditions of regions compare and all names that commands
use, and a shader that may be merged has no tessellation.

Main result: the model of every shader that can be read is like that (`isModel_of_read`).  The conditions
are those of lines that start with `#ifex`, and materials that agree keep and drop the same of these
regions.  A region whose line has blanks behind the sign is read as a region, but its names are not among
those on which materials must agree.
-/

namespace ShaderMerge

open Include (Event Run Sources Walk Moment)

variable {project : Project} {path : String} {shader : Shader}

/-- What holds of the model of a shader, in terms of the files that are read and of the events of a walk
through their lines. -/
structure Shader.IsModel (project : Project) (path : String) (events : List Event) (shader : Shader) :
    Prop where
  /-- There is one pass for each program block, in order. -/
  passes : List.Forall₂ Builder.IsPassOf (Builder.blocks events) shader.passes
  /-- The functions of the passes are signatures of some text. -/
  functions : ∀ pass ∈ shader.passes, ∀ stage s, pass.entryPoints.get stage = some s → s.IsRead
  /-- The properties are those that the lines of the blocks of properties declare, in order. -/
  names : shader.names = (Layout.linesIn .properties .start events).flatMap declaredNames
  /-- The table has exactly their names, each with the place of its last declaration. -/
  places : shader.IsIndexed
  /-- Each texture has its companion behind it. -/
  companions : AreAccompanied shader.properties
  /-- Materials must agree on textures. -/
  textures : ∀ p ∈ shader.properties, p.type.isTexture = true →
    shader.namesToAgree.contains p.name = true
  /-- They must agree on what the condition of a region compares, in any file that is read. -/
  compared : ∀ file raw, Include.Reachable project path file → project.readLines? file = some raw →
    ∀ condition ∈ LogicalLine.regionConditions raw, ∀ name ∈ Region.comparedNames condition,
      name ∈ shader.names → shader.namesToAgree.contains name = true
  /-- So materials that agree keep and drop the same of these regions. -/
  decided : ∀ file raw, Include.Reachable project path file → project.readLines? file = some raw →
    ∀ condition ∈ LogicalLine.regionConditions raw, ∀ values values' : Table String Binary32,
      (∀ name, name ∉ shader.names ∨ shader.namesToAgree.contains name = true →
        values.get? name = values'.get? name) →
      Region.decide (String.ofList condition) values = Region.decide (String.ofList condition) values'
  /-- They must agree on what stands in square brackets on a line of commands. -/
  used : ∀ line ∈ Layout.linesIn .commands .start events, ∀ name ∈ shader.names, ∀ front back,
    line.toList = front ++ '[' :: (name.toList ++ ']' :: back) →
      shader.namesToAgree.contains name = true
  /-- A shader that may be merged has no tessellation. -/
  untessellated : shader.canMerge = true → ∀ pass ∈ shader.passes,
    pass.entryPoints.hull = none ∧ pass.entryPoints.domain = none

/-! ## From the builder to the model -/

namespace Builder

variable {b b' : Builder} {s : Sources} {repeats : Nat}

theorem notes_closed (h : b.closed = .ok b') : b'.notes = b.notes := by
  rw [closed] at h
  split at h
  · exact notes_endProgram h
  · cases h
    rfl

theorem IsHonest.closed (hhonest : b.IsHonest) (h : b.closed = .ok b') : b'.IsHonest := by
  rw [Builder.closed] at h
  split at h
  · rename_i p hprogram
    intro hunmarked stage hstage
    rw [hasTessellation_endProgram h] at hunmarked
    exact (hhonest hunmarked stage hstage).endProgram hprogram h
  · cases h
    exact hhonest

/-- A model has the properties of its builder, and the uses of them by commands. -/
theorem marks_of_finish (h : b.finish path s repeats = .ok shader) : ∃ declared : Shader,
    declared.IsIndexed ∧ declared.properties = b.properties ∧ Shader.Marks declared shader b.sites := by
  obtain ⟨last, start, hlast, hproperties, hplaces, -, rfl⟩ := exists_of_finish h
  have hstart : start.IsIndexed := by
    intro name i
    rw [hplaces, Shader.names, hproperties]
    constructor
    · intro hi
      cases hi
    · rintro ⟨hi, -⟩
      cases hi
  obtain ⟨hindexed, hdeclared⟩ := Shader.isIndexed_insertAll hstart last.properties
  have hnotes := notes_closed hlast
  simp only [notes, Prod.mk.injEq] at hnotes
  obtain ⟨-, -, -, -, hsame, hsites⟩ := hnotes
  rw [hproperties, List.nil_append] at hdeclared
  rw [← hsites, ← hsame]
  exact ⟨_, hindexed, hdeclared, Shader.marks_addSites _ _⟩

theorem follows_new : Follows .new none where
  named := fun name s hs => by
    rw [show Builder.new.functions.get? name = none from rfl] at hs
    cases hs
  outside := fun _ => rfl
  inside := nofun

theorem isHonest_new : Builder.new.IsHonest := by
  intro _ stage _
  refine ⟨fun pass hpass => ?_, fun p hp => ?_⟩
  · cases hpass
  · cases hp

end Builder

/-- The names compared in a file that is read are known. -/
theorem Shader.contains_regionNames (h : Shader.read? project path = .ok shader) {file : String}
    (hfile : Include.Reachable project path file) {raw : List String}
    (hraw : project.readLines? file = some raw) {condition : List Char}
    (hcondition : condition ∈ LogicalLine.regionConditions raw) {name : String}
    (hname : name ∈ Region.comparedNames condition) :
    shader.sources.regionNames.contains name = true := by
  rw [Shader.read?] at h
  obtain ⟨s, hload, h⟩ := exists_ok_of_bind h
  obtain ⟨⟨b, w⟩, -, hfinish⟩ := exists_ok_of_bind h
  rw [Builder.sources_of_finish hfinish]
  have hloads := Include.loads_load project path
  rw [hload] at hloads
  obtain ⟨read, hsound, hpending, rfl⟩ := Include.exists_isSound_of_loads hloads
  have hcontains := (hsound.contains_iff hpending file).2 hfile
  obtain ⟨lines, hlines⟩ := Option.isSome_iff_exists.1 hcontains
  obtain ⟨n, hreads, -⟩ := hsound.files file lines hlines
  obtain ⟨raw', hraw', hn⟩ := hreads
  rw [hraw, Option.some.injEq] at hraw'
  cases hraw'
  refine (hsound.regionNames name).2 ⟨file, n, hcontains, ⟨raw, hraw, hn⟩, ?_⟩
  rw [LogicalLine.regionNames_ofRaw hn]
  exact List.mem_flatMap.2 ⟨condition, hcondition, hname⟩

/-- Materials must agree on the properties that are compared there. -/
theorem Shader.contains_namesToAgree_of_compared (h : Shader.read? project path = .ok shader)
    {file : String} (hfile : Include.Reachable project path file) {raw : List String}
    (hraw : project.readLines? file = some raw) {condition : List Char}
    (hcondition : condition ∈ LogicalLine.regionConditions raw) {name : String}
    (hname : name ∈ Region.comparedNames condition) (hdeclared : name ∈ shader.names) :
    shader.namesToAgree.contains name = true := by
  obtain ⟨p, hp, hpname⟩ := List.mem_map.1 hdeclared
  apply Shader.contains_namesToAgree_iff.2
  refine ⟨p, hp, ?_, hpname⟩
  rw [Shader.mustAgree, hpname, Shader.contains_regionNames h hfile hraw hcondition hname,
    Bool.or_true]

/-- Values that agree there, and on what is no property of the shader, decide the regions alike. -/
theorem Shader.decide_eq_of_agree (h : Shader.read? project path = .ok shader) {file : String}
    (hfile : Include.Reachable project path file) {raw : List String}
    (hraw : project.readLines? file = some raw) {condition : List Char}
    (hcondition : condition ∈ LogicalLine.regionConditions raw)
    {values values' : Table String Binary32}
    (hagree : ∀ name, name ∉ shader.names ∨ shader.namesToAgree.contains name = true →
      values.get? name = values'.get? name) :
    Region.decide (String.ofList condition) values
      = Region.decide (String.ofList condition) values' := by
  apply Region.decide_congr
  rw [String.toList_ofList]
  intro name hname
  apply hagree
  by_cases hdeclared : name ∈ shader.names
  · exact .inr (Shader.contains_namesToAgree_of_compared h hfile hraw hcondition hname hdeclared)
  · exact .inl hdeclared

/-! ## Main result -/

/-- **The model of a shader that can be read.** -/
theorem Shader.isModel_of_read (h : Shader.read? project path = .ok shader) :
    ∃ moments, Builder.Reads path shader moments ∧
      shader.IsModel project path (moments.map (·.event)) := by
  obtain ⟨moments, hreads⟩ := Builder.exists_reads h
  refine ⟨moments, hreads, ?_⟩
  obtain ⟨b, w, hrun, -, hfinish⟩ := hreads
  obtain ⟨last, hlast, hwalked⟩ := Builder.walked_of_finish hfinish
  have hpasses : shader.passes = last.passes := congrArg (fun parts => parts.2.1) hwalked
  obtain ⟨declared, hindexed, hproperties, hmarks⟩ := Builder.marks_of_finish hfinish
  obtain ⟨⟨more, hmore, hmoreNames, haccompanied⟩, hused⟩ := Builder.collects_of_run hrun
  have hnew : Builder.new.properties = [] ∧ Builder.new.sites = [] := ⟨rfl, rfl⟩
  rw [hnew.1, List.nil_append] at hmore
  rw [hnew.2, List.map_nil, List.nil_append] at hused
  have hnames : shader.names = (Layout.linesIn .properties .start
      (moments.map (·.event))).flatMap declaredNames := by
    rw [hmarks.names, Shader.names, hproperties, hmore]
    exact hmoreNames
  refine
    { passes := ?_
      functions := fun pass hpass stage s hs => Builder.isRead_of_read h hpass hs
      names := hnames
      places := ?_
      companions := ?_
      textures := ?_
      compared := fun _ _ hfile hraw _ hcondition _ =>
        Shader.contains_namesToAgree_of_compared h hfile hraw hcondition
      decided := fun _ _ hfile hraw _ hcondition _ _ =>
        Shader.decide_eq_of_agree h hfile hraw hcondition
      used := ?_
      untessellated := ?_ }
  · obtain ⟨passes, happended, hblocks⟩ := Builder.follows_new.passes_of_run hrun hlast
    rw [hpasses, happended]
    exact hblocks
  · intro name i
    rw [hmarks.places, hmarks.names]
    exact hindexed name i
  · refine AreAccompanied.of_shape ?_ hmarks.shapes
    rw [hproperties, hmore]
    exact haccompanied
  · intro p hp htexture
    refine Shader.contains_namesToAgree_iff.2 ⟨p, hp, ?_, rfl⟩
    rw [Shader.mustAgree, htexture, Bool.true_or, Bool.true_or]
  · intro line hline name hname front back htext
    have hisName : Text.IsName name.toList := by
      rw [hnames] at hname
      obtain ⟨declaring, -, hname⟩ := List.mem_flatMap.1 hname
      exact isName_of_mem_declaredNames hname
    have hmem : name ∈ b.sites.map (·.1) := by
      rw [hused]
      exact List.mem_flatMap.2 ⟨line, hline, mem_bracketedNames hisName htext⟩
    obtain ⟨⟨_, site⟩, hsite, rfl⟩ := List.mem_map.1 hmem
    exact hmarks.contains_namesToAgree hindexed hsite hname
  · intro hmerge pass hpass
    have hhonest := (hrun.invariant Builder.isHonest_new fun _ _ _ _ _ hb hstep => hb.event hstep).closed
      hlast
    simp only [Shader.canMerge, Bool.and_eq_true, Bool.not_eq_true'] at hmerge
    have hunmarked : last.hasTessellation = false :=
      (congrArg (fun parts => parts.2.2) hwalked).symm.trans hmerge.1.1.2
    rw [hpasses] at hpass
    exact ⟨(hhonest hunmarked .hull rfl).passes pass hpass,
      (hhonest hunmarked .domain rfl).passes pass hpass⟩

/-- A shader with a texture, a property that a command uses, and two that conditions of regions compare,
the second one on a line with a blank behind the sign. -/
def namedProperties : List String :=
  ["Shader \"S\"", "\x7b", "Properties", "\x7b", "_Main (\"Main\", 2D) = \"white\" \x7b\x7d",
    "_Cull (\"Cull\", Float) = 2", "_Glow (\"Glow\", Float) = 0", "_Mist (\"Mist\", Float) = 0", "\x7d",
    "Pass", "\x7b", "Cull [_Cull]", "#ifex _Glow == 1", "#endex", "# ifex _Mist == 1", "#endex",
    "CGPROGRAM", "#pragma vertex vert", "#pragma fragment frag",
    "float4 vert() : SV_Position \x7b return 0; \x7d",
    "float4 frag() : SV_Target \x7b return 1; \x7d", "ENDCG", "\x7d", "\x7d"]

/-- Materials need not agree on the property that is compared behind a blank, though the line opens a
region. -/
theorem isModel_of_namedProperties :
    ∃ shader moments,
      Shader.read? (.ofFiles [("a.shader", namedProperties)]) "a.shader" = .ok shader ∧
      Region.Control.ofLine "# ifex _Mist == 1" = .openRegion " _Mist == 1" ∧ shader.canMerge = true ∧
      shader.names = ["_Main", "_Main_ST", "_Cull", "_Glow", "_Mist"] ∧
      shader.namesToAgree.keys = ["_Cull", "_Glow", "_Main"] ∧
      Builder.Reads "a.shader" shader moments ∧
      shader.IsModel (.ofFiles [("a.shader", namedProperties)]) "a.shader" (moments.map (·.event)) := by
  have hlines : (Project.ofFiles [("a.shader", namedProperties)]).readLines? "a.shader"
      = some namedProperties :=
    Project.readLines?_ofFiles (by decide +kernel) (by decide +kernel)
  have hcheck : (Shader.read? (.ofFiles [("a.shader", namedProperties)]) "a.shader").toOption.any
      (fun shader => shader.canMerge
        && decide (shader.names = ["_Main", "_Main_ST", "_Cull", "_Glow", "_Mist"])
        && decide (shader.namesToAgree.keys = ["_Cull", "_Glow", "_Main"])) = true := by
    rw [Shader.read?, Include.Sources.load, hlines]
    decide +kernel
  obtain ⟨shader, hread, hshader⟩ := exists_ok_of_any hcheck
  rw [Bool.and_eq_true, Bool.and_eq_true, decide_eq_true_eq, decide_eq_true_eq] at hshader
  obtain ⟨⟨hmerge, hnames⟩, hkeys⟩ := hshader
  obtain ⟨moments, hreads, hmodel⟩ := Shader.isModel_of_read hread
  exact ⟨shader, moments, hread, by decide +kernel, hmerge, hnames, hkeys, hreads, hmodel⟩

end ShaderMerge
