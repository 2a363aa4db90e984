import ShaderMerge.Proofs.Variant.Assignments
import ShaderMerge.Proofs.Variant.Fates

/-!
# Declarations in front of an entry point

An entry point sets all properties that its block declares in front of it, whatever the groups that the
declarations stand in.  A preprocessor hands on the statements that set them if the entry point is
live.  The declaration of such a property it has handed on in front of them exactly if one of the
declarations arrives (`prologues_of_variant`): if all of them stand in dead arms of conditional groups,
or in a constant buffer that has not ended, the property is set without a declaration.
-/

namespace ShaderMerge

/-! ## Names in front of other text -/

namespace Text

variable {first second rest tail : List Char}

/-- A text has one name in front. -/
theorem IsName.append_inj (hfirst : IsName first) (hsecond : IsName second)
    (hrest : Stops isNameChar rest) (htail : Stops isNameChar tail)
    (h : first ++ rest = second ++ tail) : first = second ∧ rest = tail := by
  have hread : name? (first ++ rest) = some (first, rest) :=
    name?_eq_some_iff.2 ⟨rfl, hfirst, hrest⟩
  have hother : name? (first ++ rest) = some (second, tail) :=
    name?_eq_some_iff.2 ⟨h, hsecond, htail⟩
  rw [hread] at hother
  exact ⟨congrArg Prod.fst (Option.some.inj hother), congrArg Prod.snd (Option.some.inj hother)⟩

end Text

namespace Variant

open Condition (Control Oracle Preprocessor Symbols)
open Include (Moment)
open Text (IsName Stops)

/-! ## The name of a declaration -/

section

variable {t : Substitution} {type name type' name' line text text' : String}

/-- The declaration of a property that is no constant declares no other one. -/
theorem declare?_inj (htype : IsName type.toList) (hname : IsName name.toList)
    (htype' : IsName type'.toList) (hname' : IsName name'.toList)
    (hstatic : t.statics.contains name = false) (h : t.declare? type name = some line)
    (h' : t.declare? type' name' = some line) : name' = name := by
  have hblank : ∀ rest, Stops Text.isNameChar (' ' :: rest) := by
    rintro rest c ⟨⟩
    decide
  have hend : Stops Text.isNameChar [';'] := by
    rintro c ⟨⟩
    decide
  have hnone : t.statics.get? name = none := by
    rwa [Table.contains, Option.isSome_eq_false_iff, Option.isNone_iff_eq_none] at hstatic
  rw [Substitution.declare?, hnone] at h
  dsimp only at h
  split at h
  · cases h
    rw [Substitution.declare?] at h'
    split at h'
    · -- Behind `const` a constant has its type and not the end of the statement.
      have htext := congrArg String.toList (Option.some.inj h')
      have hconst : "static const ".toList = "static ".toList ++ ("const".toList ++ [' ']) := by
        decide
      simp only [String.toList_append, hconst, List.append_assoc, List.append_cancel_left_eq] at htext
      have hisName : IsName "const".toList :=
        ⟨'c', "onst".toList, rfl, by decide, List.all_eq_true.1 (by decide)⟩
      obtain ⟨-, hbehind⟩ := hisName.append_inj htype (hblank _) (hblank _) htext
      have hnames := List.cons.inj hbehind
      obtain ⟨-, hlast⟩ := htype'.append_inj hname (hblank _) hend hnames.2
      cases hlast
    · split at h'
      · have htext := congrArg String.toList (Option.some.inj h')
        simp only [String.toList_append, List.append_assoc, List.append_cancel_left_eq] at htext
        obtain ⟨-, hbehind⟩ := htype'.append_inj htype (hblank _) (hblank _) htext
        obtain ⟨hsame, -⟩ := hname'.append_inj hname hend hend (List.cons.inj hbehind).2
        exact String.toList_inj.1 hsame
      · cases h'
  · cases h

/-- So it takes the place of declarations of one property. -/
theorem redeclare?_inj (h : t.redeclare? text = some (name, line))
    (h' : t.redeclare? text' = some (name', line)) (hstatic : t.statics.contains name = false) :
    name' = name := by
  obtain ⟨type, hform, hdeclare⟩ := Substitution.redeclare?_eq_some_iff.1 h
  obtain ⟨type', hform', hdeclare'⟩ := Substitution.redeclare?_eq_some_iff.1 h'
  exact declare?_inj hform.isName.1 hform.isName.2 hform'.isName.1 hform'.isName.2 hstatic hdeclare
    hdeclare'

end

/-! ## What an entry point finds -/

/-- The property of a declaration, with the line that is written for it. -/
def Fate.declaration (fate : Fate) : String × String := (fate.name, fate.line)

section

variable {oracle : Oracle} {t : Substitution} {p q : Program} {c d : Preprocessor}
  {strokes : List Stroke} {fate : Fate} {name : String}

theorem map_declaration_readFates (oracle : Oracle) (t : Substitution) (d : Preprocessor)
    (strokes : List Stroke) : (readFates oracle t d strokes).map Fate.declaration
      = strokes.filterMap fun stroke => (stroke.deed t).declaration? := by
  induction strokes generalizing d with
  | nil => rfl
  | cons stroke rest ih =>
    rw [readFates, List.map_append, ih, Deed.reads, List.filterMap_cons]
    cases (stroke.deed t).declaration? with
    | none => rfl
    | some found => rfl

/-- The fates of some strokes are those of the declarations that they read. -/
theorem map_declaration_fates (oracle : Oracle) (t : Substitution) (d : Preprocessor)
    (strokes : List Stroke) : ((fates oracle t d [] strokes).map Fate.declaration).Perm
      (strokes.filterMap fun stroke => (stroke.deed t).declaration?) := by
  have hnone : ∀ fate ∈ ([] : List Fate), fate.arrives = false := fun _ h => by cases h
  have hperm := (fates_perm hnone oracle t d strokes).map Fate.declaration
  rw [List.map_map, List.nil_append, map_declaration_readFates] at hperm
  exact hperm

theorem exists_fate_iff : (∃ fate ∈ fates oracle t d [] strokes, fate.name = name) ↔
    ∃ stroke ∈ strokes, stroke.Declares t name := by
  constructor
  · rintro ⟨fate, hfate, rfl⟩
    have hmem := (map_declaration_fates oracle t d strokes).subset (List.mem_map_of_mem hfate)
    obtain ⟨stroke, hstroke, hdeed⟩ := List.mem_filterMap.1 hmem
    exact ⟨stroke, hstroke, fate.line, hdeed⟩
  · rintro ⟨stroke, hstroke, line, hdeed⟩
    have hmem := (map_declaration_fates oracle t d strokes).symm.subset
      (List.mem_filterMap.2 ⟨stroke, hstroke, hdeed⟩)
    obtain ⟨fate, hfate, hsame⟩ := List.mem_map.1 hmem
    exact ⟨fate, hfate, congrArg Prod.fst hsame⟩

theorem exists_redeclare?_of_mem_fates (h : fate ∈ fates oracle t d [] strokes) :
    ∃ text, t.redeclare? text = some (fate.name, fate.line) := by
  have hmem := (map_declaration_fates oracle t d strokes).subset (List.mem_map_of_mem h)
  obtain ⟨stroke, -, hdeed⟩ := List.mem_filterMap.1 hmem
  exact Stroke.exists_redeclare? hdeed

/-- Whether a preprocessor has handed on a declaration of a property behind some strokes of a block. -/
def IsDeclared (oracle : Oracle) (t : Substitution) (c : Preprocessor) (strokes : List Stroke)
    (name : String) : Prop :=
  ∃ line ∈ arrivals oracle t c strokes, ∃ text, t.redeclare? text = some (name, line)

/-- A property is declared if one of its declarations has arrived. -/
theorem Settles.isDeclared_iff (h : Settles oracle t c strokes)
    (hstatic : t.statics.contains name = false) : IsDeclared oracle t c strokes name ↔
      ∃ fate ∈ fates oracle t c [] strokes, fate.name = name ∧ fate.arrives = true := by
  -- A line tells the property that it declares, so the fates of other properties do not count.
  rw [IsDeclared, h.arrive]
  constructor
  · rintro ⟨line, hline, text, htext⟩
    obtain ⟨fate, hfate, rfl⟩ := List.mem_map.1 hline
    obtain ⟨hfate, harrives⟩ := List.mem_filter.1 hfate
    obtain ⟨text', htext'⟩ := exists_redeclare?_of_mem_fates hfate
    exact ⟨fate, hfate, redeclare?_inj htext htext' hstatic, harrives⟩
  · rintro ⟨fate, hfate, rfl, harrives⟩
    exact ⟨fate.line, List.mem_map_of_mem (List.mem_filter.2 ⟨hfate, harrives⟩),
      exists_redeclare?_of_mem_fates hfate⟩

/-- What an entry point finds in front of the statements that set properties: the lines that its block
has written and its own lines. -/
structure Meets (oracle : Oracle) (t : Substitution) (c : Preprocessor) (strokes : List Stroke)
    (front names : List String) : Prop where
  /-- All statements are handed on, or none of them. -/
  statements : (c.run oracle (scriptText strokes ++ front)).handed oracle (t.assignments names)
    = if (c.run oracle (scriptText strokes ++ front)).isLive then t.assignments names else []
  read : ∀ name ∈ names, ∃ fate ∈ fates oracle t c [] strokes, fate.name = name
  declared : ∀ name ∈ names, IsDeclared oracle t c strokes name ↔
    ∃ fate ∈ fates oracle t c [] strokes, fate.name = name ∧ fate.arrives = true

theorem Mirrors.meets (h : Mirrors oracle p c c) (hpasses : Passes t p strokes q)
    (hopens : ∀ stroke ∈ strokes, stroke.OpensPlain) (hdeferred : p.deferred = [])
    (hdeclared : p.declared = []) (front : List String) :
    Meets oracle t c strokes front (declaredIn t strokes) := by
  have hnames := (h.run hpasses hopens).clean.declared
  rw [hpasses.declared_eq, hdeclared, List.nil_append] at hnames
  refine ⟨?_, fun name hname => ?_, fun name hname => ?_⟩
  · exact Preprocessor.handed_of_plain (fun line hline =>
      ofLine_of_not_isMarked (Program.isMarked_assignments t hnames line hline)) oracle _
  · exact exists_fate_iff.2 (mem_declaredIn.1 hname).2
  · exact (h.settles hpasses hopens hdeferred).isDeclared_iff (mem_declaredIn.1 hname).1

end

/-! ## The entry points of a variant -/

/-- Whether each entry point that is written anew sets what its block declares in front of it, and finds
the declarations that arrive, under all symbols that agree with what is known at the start of the
block. -/
def MeetsDeclarations (r : Request) (script : List Stroke) : Prop :=
  ∀ above stroke below, script = above ++ stroke :: below → ∀ m, stroke.moment = some m →
    ∀ stage source entry, .entry stage source entry ∈ m.before.marks m.event →
      ∃ start inner p front names, openBlock above = start :: inner ∧ start.Starts r p ∧
        stroke.lines = front ++ entry.prologue ++ r.substitution.assignments names ∧
        (∀ name, name ∈ names ↔ r.substitution.statics.contains name = false ∧
          ∃ s ∈ inner, s.Declares r.substitution name) ∧
        ∀ oracle : Oracle, oracle.IsSound p.filter.usage → ∀ σ : Symbols,
          (behindStart oracle σ start).symbols.Extends p.filter.defined →
            Meets oracle r.substitution (behindStart oracle σ start) inner (front ++ entry.prologue)
              names

/-- **A property is set where one of its declarations need not have arrived.**  Each entry point that is
written anew sets the properties, other than constants, that its program block declares in front of it.
A preprocessor that agrees with what the block knows of symbols hands on these statements together or
not at all, and it has handed on a declaration of such a property in front of them exactly if one of
its declarations arrives: one that stands in live text outside of constant buffers, or in a buffer that
ends in live text in front of the entry point.  This holds as long as no included file ends while the
signature of an entry point is held back, and no prologue of an entry point has a directive. -/
theorem prologues_of_variant {project : Project} {path : String} {shader : Shader} {o : Options}
    {g : GeneratedShader} (hread : Shader.read? project path = .ok shader)
    (hvariant : shader.variant o = .ok g) (horderly : Orderly g (Writer.moments shader o))
    (hreleases : ∀ m ∈ Writer.moments shader o, Releases m.before m.event)
    (hplain : ∀ m ∈ Writer.moments shader o, ∀ mark ∈ m.before.marks m.event, mark.IsPlain) :
    ∃ t script, Substitution.new shader o = .ok t ∧ IsScript g (Writer.moments shader o) script ∧
      MeetsDeclarations ⟨shader, o, t⟩ script := by
  obtain ⟨t, script, ht, hscript, hblocks⟩ := exists_blocks_of_variant hvariant horderly hreleases
  refine ⟨t, script, ht, hscript, ?_⟩
  rintro above stroke below rfl m hmoment stage source entry hentry
  obtain ⟨start, inner, p₀, p, q, front, habove, hstarts, hpasses, -, hlines⟩ :=
    hblocks.exists_entry hmoment hentry
  rw [habove, declaredIn_of_starts hstarts] at hlines
  refine ⟨start, inner, p₀, front, declaredIn t inner, habove, hstarts, hlines,
    fun name => mem_declaredIn, fun oracle horacle σ hσ => ?_⟩
  exact (mirrors_of_starts (returnsCode_of_read hread) hstarts horacle hσ).meets hpasses
    (hscript.opensPlain_of_openBlock hplain habove) (deferred_of_starts hstarts)
    (declared_of_starts hstarts) _

/-- A shader that declares a property for some symbols only. -/
def declaredInOneArm : List String :=
  ["Shader \"S\"", "\x7b", "Properties", "\x7b", "_A (\"A\", Float) = 1", "\x7d", "CGPROGRAM",
    "#pragma vertex vert", "#pragma fragment frag", "#ifdef USER", "float _A;", "#endif",
    "float4 vert() : SV_Position", "\x7b", "return 0;", "\x7d",
    "float4 frag() : SV_Target", "\x7b", "#ifdef USER", "return _A;", "#else", "return 1;", "#endif",
    "\x7d", "ENDCG", "\x7d"]

/-- Both entry points set the property, with or without a declaration in front of them. -/
theorem prologues_of_declaredInOneArm :
    ∃ shader g, Shader.read? (.ofFiles [("a.shader", declaredInOneArm)]) "a.shader" = .ok shader ∧
      shader.variant twoMaterials = .ok g ∧
      ["#ifdef USER", "static float _A;", "#endif"] <:+: g.inlined ∧
      g.inlined.count "static float _A;" = 1 ∧
      g.inlined.count "_A = materialID == 1 ? 1.0 : 0.0;" = 2 ∧
      ∃ t script, Substitution.new shader twoMaterials = .ok t ∧
        IsScript g (Writer.moments shader twoMaterials) script ∧
        MeetsDeclarations ⟨shader, twoMaterials, t⟩ script := by
  have hlines : (Project.ofFiles [("a.shader", declaredInOneArm)]).readLines? "a.shader"
      = some declaredInOneArm :=
    Project.readLines?_ofFiles (by decide +kernel) (by decide +kernel)
  have hcheck : (Shader.read? (.ofFiles [("a.shader", declaredInOneArm)]) "a.shader").toOption.any
      (fun shader => (shader.variant twoMaterials).toOption.any fun g : GeneratedShader =>
        decide (["#ifdef USER", "static float _A;", "#endif"] <:+: g.inlined ∧
          g.inlined.count "static float _A;" = 1 ∧
          g.inlined.count "_A = materialID == 1 ? 1.0 : 0.0;" = 2) &&
          (decide (Orderly g (Writer.moments shader twoMaterials)) &&
            (decide (∀ m ∈ Writer.moments shader twoMaterials, Releases m.before m.event) &&
              decide (∀ m ∈ Writer.moments shader twoMaterials,
                ∀ mark ∈ m.before.marks m.event, mark.IsPlain))))
        = true := by
    rw [Shader.read?, Include.Sources.load, hlines]
    decide +kernel
  obtain ⟨shader, hread, hany⟩ := exists_ok_of_any hcheck
  obtain ⟨g, hvariant, hg⟩ := exists_ok_of_any hany
  rw [Bool.and_eq_true, Bool.and_eq_true, Bool.and_eq_true, decide_eq_true_eq, decide_eq_true_eq,
    decide_eq_true_eq, decide_eq_true_eq] at hg
  obtain ⟨⟨hone, honce, htwice⟩, horderly, hreleases, hplain⟩ := hg
  exact ⟨shader, g, hread, hvariant, hone, honce, htwice,
    prologues_of_variant hread hvariant horderly hreleases hplain⟩

end Variant

end ShaderMerge
