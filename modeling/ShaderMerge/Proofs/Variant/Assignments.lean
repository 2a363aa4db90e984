import ShaderMerge.Proofs.Variant.Readings

/-!
# What an entry point assigns

Each entry point that is written anew starts with statements that set properties: all that its block
has declared in front of it, in arms of conditional groups and in constant buffers too, and the slices
of all textures (`assignments_of_variant`).  What the block declares behind an entry point, the entry
point does not set, though functions that it calls may stand behind the declaration.
-/

namespace ShaderMerge.Variant

open Include (Moment)

/-! ## What a block has declared -/

/-- Whether a stroke declares a property, in its place or behind the constant buffer. -/
def Stroke.Declares (t : Substitution) (stroke : Stroke) (name : String) : Prop :=
  ∃ line, (stroke.deed t).declaration? = some (name, line)

/-- The properties that some strokes of a block declare and that entry points have to set. -/
def declaredIn (t : Substitution) (strokes : List Stroke) : List String :=
  strokes.flatMap fun stroke => (stroke.deed t).assigned t

section

variable {t : Substitution} {p q : Program} {strokes : List Stroke} {stroke : Stroke}
  {name line : String}

theorem mem_assigned {deed : Deed} : name ∈ deed.assigned t ↔
    t.statics.contains name = false ∧ ∃ line, deed.declaration? = some (name, line) := by
  have hcase : ∀ declared declaration : String,
      name ∈ (if t.statics.contains declared then [] else [declared]) ↔
        t.statics.contains name = false ∧
          ∃ line, some (declared, declaration) = some (name, line) := by
    intro declared declaration
    split
    · rename_i hstatic
      constructor
      · intro hmem
        cases hmem
      · rintro ⟨hnone, line, hsome⟩
        cases hsome
        rw [hstatic] at hnone
        cases hnone
    · rename_i hstatic
      rw [List.mem_singleton]
      constructor
      · rintro rfl
        exact ⟨Bool.not_eq_true _ ▸ hstatic, declaration, rfl⟩
      · rintro ⟨-, line, ⟨⟩⟩
        rfl
  cases deed with
  | redeclares declared line => exact hcase declared line
  | holdsBack declared line => exact hcase declared line
  | _ => simp [Deed.assigned, Deed.declaration?]

/-- What is to be set is what has been declared and is no constant. -/
theorem mem_declaredIn : name ∈ declaredIn t strokes ↔
    t.statics.contains name = false ∧ ∃ stroke ∈ strokes, stroke.Declares t name := by
  simp only [declaredIn, List.mem_flatMap, mem_assigned, Stroke.Declares]
  constructor
  · rintro ⟨stroke, hmem, hstatic, hdeclares⟩
    exact ⟨hstatic, stroke, hmem, hdeclares⟩
  · rintro ⟨hstatic, stroke, hmem, hdeclares⟩
    exact ⟨stroke, hmem, hstatic, hdeclares⟩

/-- A block knows what its strokes have declared. -/
theorem Passes.declared_eq (h : Passes t p strokes q) :
    q.declared = p.declared ++ declaredIn t strokes := by
  induction strokes generalizing p with
  | nil =>
    cases h
    exact (List.append_nil _).symm
  | cons stroke rest ih =>
    obtain ⟨p', hadvances, hrest⟩ := h
    rw [ih hrest, hadvances.remembers.declared, declaredIn, declaredIn, List.flatMap_cons,
      List.append_assoc]

/-- A property that is declared has a substitute. -/
theorem Stroke.Declares.exists_declare? (h : stroke.Declares t name) :
    ∃ type line, t.declare? type name = some line := by
  obtain ⟨line, h⟩ := h
  obtain ⟨text, htext⟩ := exists_redeclare? h
  obtain ⟨type, -, hdeclare⟩ := Substitution.redeclare?_eq_some_iff.1 htext
  exact ⟨type, line, hdeclare⟩

/-- A property with a substitute that is no constant has a value by mesh or by material. -/
theorem exists_assignment {type : String} (h : t.declare? type name = some line)
    (hstatic : t.statics.contains name = false) :
    ∃ expression, t.assignment? name = some (name ++ " = " ++ expression ++ ";") := by
  rw [Table.contains, Option.isSome_eq_false_iff, Option.isNone_iff_eq_none] at hstatic
  rw [Substitution.declare?, hstatic] at h
  dsimp only at h
  split at h
  · rename_i hassigned
    have hsome : ((t.registers.valueExpression? name).or
        ((t.arrays.get? name).map fun selection =>
          selection.expression name "materialID")).isSome = true := by
      rw [Substitution.isAssigned, Table.contains, Table.contains, Bool.or_eq_true] at hassigned
      rw [Option.isSome_or, Bool.or_eq_true, Registers.valueExpression?, Option.isSome_map,
        Option.isSome_map]
      exact hassigned.symm
    obtain ⟨expression, hexpression⟩ := Option.isSome_iff_exists.1 hsome
    exact ⟨expression, by rw [Substitution.assignment?, hexpression]; rfl⟩
  · cases h

/-- A stroke that starts a block declares nothing. -/
theorem declaredIn_of_starts {r : Request} (h : stroke.Starts r p) (strokes : List Stroke) :
    declaredIn t (stroke :: strokes) = declaredIn t strokes := by
  rw [declaredIn, List.flatMap_cons, Stroke.deed, h.1]
  rfl

end

/-! ## Entry points -/

/-- What a line has to be that opens the body of an entry point. -/
theorem Program.exists_pending_of_mem_opened {p : Program} {line : String} {stage : Stage}
    {source : List String} {entry : EntryPoint} (h : .entry stage source entry ∈ p.opened line) :
    ∃ pending, p.pending = some pending ∧ ¬0 < pending.depth ∧ line = "\x7b" ∧
      EntryPoint.adapt pending.stage p.plan pending.lines = .ok entry := by
  rw [opened.eq_def] at h
  split at h
  · cases h
  · rename_i pending hpending
    split at h
    · rename_i hopens
      split at h
      · cases h
      · rename_i adapted hadapt
        rw [List.mem_append, List.mem_singleton, List.mem_map] at h
        rcases h with ⟨carrier, -, h⟩ | h
        · cases h
        · cases h
          exact ⟨pending, hpending, hopens.2, hopens.1, hadapt⟩
    · cases h

section

variable {t : Substitution} {p : Program} {stroke : Stroke} {m : Moment Writer} {stage : Stage}
  {source : List String} {entry : EntryPoint} {line : String} {lines : List String}

theorem Program.deed_of_mem_opened (h : .entry stage source entry ∈ p.opened line) :
    p.deed t line = .opensBody := by
  obtain ⟨pending, hpending, hdepth, rfl, -⟩ := exists_pending_of_mem_opened h
  rw [deed_of_pending hpending, if_pos ⟨hdepth, rfl⟩]

/-- What is written for an entry point ends with its prologue and the statements that set
properties. -/
theorem Program.Writes.exists_eq (h : Writes t p line (p.deed t line) lines)
    (hentry : .entry stage source entry ∈ p.opened line) :
    ∃ front, lines = front ++ entry.prologue ++ t.assignments p.declared := by
  rw [deed_of_mem_opened hentry] at h
  obtain ⟨pending, hpending, -, -, hadapt⟩ := exists_pending_of_mem_opened hentry
  cases h with
  | opensBody entry_mem front =>
    obtain ⟨pending', hpending', -, -, hadapt'⟩ := exists_pending_of_mem_opened entry_mem
    rw [hpending] at hpending'
    cases hpending'
    rw [hadapt] at hadapt'
    cases hadapt'
    exact ⟨front, rfl⟩

/-- An entry point is read by a program block. -/
theorem Stroke.exists_read_of_entry (hmoment : stroke.moment = some m)
    (h : .entry stage source entry ∈ m.before.marks m.event) :
    ∃ p line, stroke.read? = some (p, line) ∧ (p.filter.feed line).feed = .live ∧
      .entry stage source entry ∈ p.opened line := by
  rw [read?, hmoment, Option.bind_some]
  cases hevent : m.event with
  | line file line =>
    rw [hevent, Writer.marks] at h
    split at h
    · cases h
    · split at h
      · cases List.mem_singleton.1 h
      · cases h
    · rename_i p hfeed hprogram
      rw [Program.entered.eq_def] at h
      cases hlive : (p.filter.feed line).feed with
      | consumed =>
        -- A line that the filter takes is no brace that opens a body.
        rw [Program.feed_of_consumed hlive] at h
        cases h
      | live =>
        rw [Program.feed_of_live hlive] at h
        have hopened : .entry stage source entry ∈ p.opened line := h
        obtain ⟨pending, -, -, rfl, -⟩ := Program.exists_pending_of_mem_opened hopened
        refine ⟨p, _, ?_, hlive, hopened⟩
        rw [Writer.blockLine?, if_pos ⟨hfeed, by decide⟩, hprogram]
        rfl
  | include_ => rw [hevent] at h; cases h
  | endInclude => rw [hevent] at h; cases h

/-- An entry point sets what its block has declared in front of it. -/
theorem HasBlocks.exists_entry {r : Request} {above below : List Stroke}
    (h : HasBlocks r (above ++ stroke :: below)) (hmoment : stroke.moment = some m)
    (hentry : .entry stage source entry ∈ m.before.marks m.event) :
    ∃ start inner p₀ p q front, openBlock above = start :: inner ∧ start.Starts r p₀ ∧
      Passes r.substitution p₀ inner p ∧ stroke.Advances r.substitution p q ∧
      stroke.lines = front ++ entry.prologue
        ++ r.substitution.assignments (declaredIn r.substitution (openBlock above)) := by
  obtain ⟨p, line, hread, hlive, hopened⟩ := Stroke.exists_read_of_entry hmoment hentry
  obtain ⟨start, inner, p₀, q, habove, hstarts, hpasses, hadvances⟩ := h.exists_advances hread
  have hwrites := hadvances.writes line (by rw [Stroke.text?, hread]; rfl)
  rw [Stroke.deed, hread] at hwrites
  dsimp only at hwrites
  rw [if_pos hlive] at hwrites
  obtain ⟨front, hlines⟩ := hwrites.exists_eq hopened
  have hdeclared := hpasses.declared_eq
  rw [declared_of_starts hstarts, List.nil_append] at hdeclared
  rw [hdeclared] at hlines
  refine ⟨start, inner, p₀, p, q, front, habove, hstarts, hpasses, hadvances, ?_⟩
  rw [habove, declaredIn_of_starts hstarts]
  exact hlines

end

/-! ## The entry points of a variant -/

/-- Whether an entry point sets properties: its lines end with its prologue and a statement for each
of them, and one for the slice of each texture. -/
structure Assigns (t : Substitution) (names : List String) (entry : EntryPoint)
    (lines : List String) : Prop where
  lines : ∃ front, lines = front ++ entry.prologue ++ t.assignments names
  properties : ∀ name ∈ names, ∃ expression,
    t.assignment? name = some (name ++ " = " ++ expression ++ ";") ∧
      name ++ " = " ++ expression ++ ";" ∈ t.assignments names
  slices : ∀ texture ∈ t.textures, texture.sliceAssignment "materialID" ∈ t.assignments names

/-- Whether each entry point that is written anew sets what its block declares in front of it, apart from
constants, and nothing else. -/
def AssignsDeclared (t : Substitution) (script : List Stroke) : Prop :=
  ∀ above stroke below, script = above ++ stroke :: below → ∀ m, stroke.moment = some m →
    ∀ stage source entry, .entry stage source entry ∈ m.before.marks m.event →
      ∃ names, Assigns t names entry stroke.lines ∧ ∀ name, name ∈ names ↔
        t.statics.contains name = false ∧ ∃ s ∈ openBlock above, s.Declares t name

/-- **An entry point sets what is declared in front of it.**  Each entry point that is written anew
ends its opening with statements that set the slices of all textures and those properties, other than
constants, that its program block declares somewhere in front of it: in any arm of a conditional group
and in any constant buffer, whether it has ended or not.  It does not set what the block declares behind
it.  This holds as long as no included file ends while the signature of an entry point is held back. -/
theorem assignments_of_variant {shader : Shader} {o : Options} {g : GeneratedShader}
    (hvariant : shader.variant o = .ok g) (horderly : Orderly g (Writer.moments shader o))
    (hreleases : ∀ m ∈ Writer.moments shader o, Releases m.before m.event) :
    ∃ t script, Substitution.new shader o = .ok t ∧ IsScript g (Writer.moments shader o) script ∧
      AssignsDeclared t script := by
  obtain ⟨t, script, ht, hscript, hblocks⟩ := exists_blocks_of_variant hvariant horderly hreleases
  refine ⟨t, script, ht, hscript, ?_⟩
  rintro above stroke below rfl m hmoment stage source entry hentry
  obtain ⟨start, inner, p₀, p, q, front, -, -, -, -, hlines⟩ := hblocks.exists_entry hmoment hentry
  refine ⟨declaredIn t (openBlock above), ⟨⟨front, hlines⟩, ?_, ?_⟩, fun name => mem_declaredIn⟩
  · intro name hname
    obtain ⟨hstatic, s, -, hdeclares⟩ := mem_declaredIn.1 hname
    obtain ⟨type, line, hdeclare⟩ := hdeclares.exists_declare?
    obtain ⟨expression, hassignment⟩ := exists_assignment hdeclare hstatic
    refine ⟨expression, hassignment, ?_⟩
    rw [Substitution.assignments, List.mem_append, List.mem_append]
    exact .inl (.inr (List.mem_filterMap.2 ⟨name, hname, hassignment⟩))
  · intro texture htexture
    rw [Substitution.assignments, List.mem_append]
    exact .inr (List.mem_map.2 ⟨texture, htexture, rfl⟩)

/-- A shader with a function that is called in front of its body and of a declaration it uses. -/
def declaredBehindVertex : List String :=
  ["Shader \"S\"", "\x7b", "Properties", "\x7b", "_A (\"A\", Float) = 1", "\x7d", "CGPROGRAM",
    "#pragma vertex vert", "#pragma fragment frag", "float4 helper();",
    "float4 vert() : SV_Position", "\x7b", "return helper();", "\x7d", "float _A;",
    "float4 helper()", "\x7b", "return _A;", "\x7d",
    "float4 frag() : SV_Target", "\x7b", "return _A;", "\x7d", "ENDCG", "\x7d"]

/-- The vertex stage does not set the property that it reads through the function. -/
theorem assignments_of_declaredBehindVertex :
    ∃ shader g, Shader.read? (.ofFiles [("a.shader", declaredBehindVertex)]) "a.shader" = .ok shader ∧
      shader.variant twoMaterials = .ok g ∧ "static float _A;" ∈ g.inlined ∧
      g.inlined.count "_A = materialID == 1 ? 1.0 : 0.0;" = 1 ∧
      ["meshID = optimizerPackedID >> 12;",
        "return optimizerWrapVertexOutput(helper(), optimizerPackedID);"] <:+: g.inlined ∧
      ∃ t script, Substitution.new shader twoMaterials = .ok t ∧
        IsScript g (Writer.moments shader twoMaterials) script ∧
        AssignsDeclared t script := by
  have hlines : (Project.ofFiles [("a.shader", declaredBehindVertex)]).readLines? "a.shader"
      = some declaredBehindVertex :=
    Project.readLines?_ofFiles (by decide +kernel) (by decide +kernel)
  have hcheck : (Shader.read? (.ofFiles [("a.shader", declaredBehindVertex)]) "a.shader").toOption.any
      (fun shader => (shader.variant twoMaterials).toOption.any fun g : GeneratedShader =>
        decide ("static float _A;" ∈ g.inlined ∧
          g.inlined.count "_A = materialID == 1 ? 1.0 : 0.0;" = 1 ∧
          ["meshID = optimizerPackedID >> 12;",
            "return optimizerWrapVertexOutput(helper(), optimizerPackedID);"] <:+: g.inlined) &&
          (decide (Orderly g (Writer.moments shader twoMaterials)) &&
            decide (∀ m ∈ Writer.moments shader twoMaterials, Releases m.before m.event)))
        = true := by
    rw [Shader.read?, Include.Sources.load, hlines]
    decide +kernel
  obtain ⟨shader, hread, hany⟩ := exists_ok_of_any hcheck
  obtain ⟨g, hvariant, hg⟩ := exists_ok_of_any hany
  rw [Bool.and_eq_true, Bool.and_eq_true, decide_eq_true_eq, decide_eq_true_eq, decide_eq_true_eq]
    at hg
  obtain ⟨⟨hdeclared, honce, hvertex⟩, horderly, hreleases⟩ := hg
  exact ⟨shader, g, hread, hvariant, hdeclared, honce, hvertex,
    assignments_of_variant hvariant horderly hreleases⟩

end ShaderMerge.Variant
