import ShaderMerge.Proofs.Condition.Notes
import ShaderMerge.Proofs.Variant.Growth

/-!
# Variants that nothing is asked of

Options that ask for no constants, no selection, no texture arrays, no animated properties and one
mesh at most leave nothing to substitute (`isEmpty_of_new`).  Then commands and properties stay as
they are, a program block starts with one definition, and a line of it becomes what the filter of
the conditional groups writes for it (`line_of_isIdle`).
-/

namespace ShaderMerge

theorem Table.eq_empty_of_isEmpty {κ α : Type} [LT κ] {t : Table κ α} (h : t.isEmpty = true) :
    t = ∅ := by
  obtain ⟨entries, ascending⟩ := t
  rw [Table.isEmpty, List.isEmpty_iff] at h
  subst h
  rfl

namespace Region

/-- Without known values no region is dropped. -/
structure Filter.IsBlank (f : Filter) : Prop where
  values : f.values = ∅
  dropping : f.dropping = none

/-- A condition on unknown values does not fail. -/
theorem decide_ne_drop (condition : String) : Region.decide condition ∅ ≠ .drop := by
  have hunknown : ∀ cs, conjunctValue ∅ cs = none := by
    intro cs
    rw [conjunctValue]
    cases Comparison.read? cs with
    | none => rfl
    | some comparison => rfl
  have hnone : ((conjuncts condition.toList).map (conjunctValue ∅)).contains
      (some false) = false := by
    rw [List.contains_eq_any_beq, List.any_eq_false]
    intro value hvalue
    obtain ⟨cs, -, rfl⟩ := List.mem_map.1 hvalue
    rw [hunknown]
    decide
  simp only [Region.decide, hnone]
  split
  · nofun
  · rw [if_neg Bool.false_ne_true]
    split <;> nofun

/-- The filter of the regions takes their directives away and lets all other lines through. -/
theorem Filter.IsBlank.feed {f : Filter} (h : Filter.IsBlank f) (line : String) :
    Filter.IsBlank (f.feed line).filter ∧ (f.feed line).written = [] ∧
      ((f.feed line).feed = .live ↔ Control.ofLine line = .plain) := by
  cases hcontrol : Control.ofLine line with
  | plain =>
    simp only [Filter.feed, h.dropping, hcontrol]
    exact ⟨h, trivial, by simp⟩
  | closeRegion =>
    simp only [Filter.feed, h.dropping, hcontrol]
    exact ⟨h, trivial, by simp⟩
  | openRegion condition =>
    have hdecide := decide_ne_drop condition
    simp only [Filter.feed, h.dropping, hcontrol, h.values]
    split
    · exact ⟨h, rfl, by simp⟩
    · rename_i heq
      exact absurd heq hdecide
    · exact ⟨⟨rfl, rfl⟩, rfl, by simp⟩

end Region

namespace Variant

/-- Options that ask for no substitute of a property and for one mesh at most. -/
structure Options.RequestsNothing (o : Options) : Prop where
  statics : o.statics.isEmpty = true
  arrays : o.arrays.isEmpty = true
  textures : o.textures.isEmpty = true
  animated : o.hasAnimated = false
  meshes : o.meshCount ≤ 1

instance (o : Options) : Decidable o.RequestsNothing :=
  decidable_of_iff (o.statics.isEmpty = true ∧ o.arrays.isEmpty = true ∧
      o.textures.isEmpty = true ∧ o.hasAnimated = false ∧ o.meshCount ≤ 1)
    ⟨fun h => ⟨h.1, h.2.1, h.2.2.1, h.2.2.2.1, h.2.2.2.2⟩,
      fun h => ⟨h.statics, h.arrays, h.textures, h.animated, h.meshes⟩⟩

/-- A substitution that has a substitute for no property. -/
structure Substitution.IsEmpty (t : Substitution) : Prop where
  statics : t.statics = ∅
  arrays : t.arrays = ∅
  textures : t.textures = []
  slots : t.registers.slots = ∅
  perMesh : t.registers.perMesh = 0

variable {o : Options} {t : Substitution}

/-- Nothing comes of options that ask for nothing. -/
theorem Substitution.isEmpty_of_new {s : Shader} (ho : o.RequestsNothing)
    (h : Substitution.new s o = .ok t) : t.IsEmpty := by
  have hstatics := Table.eq_empty_of_isEmpty ho.statics
  have harrays := Table.eq_empty_of_isEmpty ho.arrays
  have htextures := Table.eq_empty_of_isEmpty ho.textures
  have hanimated : o.animated.values.flatMap (·.keys) = [] := by
    rw [List.flatMap_eq_nil_iff]
    intro names hnames
    have hnone := ho.animated
    rw [Options.hasAnimated, List.any_eq_false] at hnone
    have hempty : Table.isEmpty names = true := by simpa using hnone names hnames
    rw [Table.eq_empty_of_isEmpty hempty]
    rfl
  rw [Substitution.new] at h
  split at h
  · cases h
  · obtain ⟨_, -, h⟩ := exists_ok_of_bind h
    obtain ⟨_, -, h⟩ := exists_ok_of_bind h
    obtain ⟨_, -, h⟩ := exists_ok_of_bind h
    obtain ⟨_, -, h⟩ := exists_ok_of_bind h
    rw [Registers.allocate, hanimated] at h
    obtain ⟨registers, hregisters, h⟩ := exists_ok_of_bind h
    cases hregisters
    rw [hstatics, harrays, htextures] at h
    cases h
    exact ⟨rfl, rfl, rfl, rfl, rfl⟩

/-! ## Outside of program blocks -/

/-- Reading a bracketed name loses nothing. -/
theorem append_of_bracketedName? {cs name after : List Char}
    (h : Command.bracketedName? cs = some (name, after)) : '[' :: name ++ [']'] ++ after = cs := by
  rw [Command.bracketedName?.eq_def] at h
  split at h
  · rename_i rest
    cases hname : Text.name? rest with
    | none =>
      rw [hname] at h
      cases h
    | some found =>
      have happend := Text.append_of_name? hname
      rw [hname] at h
      split at h
      · rename_i heq
        cases heq
        cases h
        rw [← happend, List.cons_append, List.cons_append, List.append_assoc]
        rfl
      · cases h
  · cases h

/-- If no property has a substitute in commands, a command stays as it is. -/
theorem substitute_none (cs : List Char) : Command.substitute (fun _ => none) cs = cs := by
  fun_induction Command.substitute (fun _ => none) cs with
  | case1 => rfl
  | case2 c rest name after hname whole ih =>
    rw [ih]
    exact append_of_bracketedName? hname
  | case3 c rest hname ih => rw [ih]

/-- A request whose options ask for nothing. -/
structure Request.IsIdle (r : Request) : Prop where
  options : r.options.RequestsNothing
  substitution : r.substitution.IsEmpty

namespace Request.IsIdle

variable {r : Request}

theorem command_eq (h : r.IsIdle) (line : String) : r.command line = line := by
  have hnone : r.substitution.inCommand? = fun _ => none := by
    funext name
    rw [Substitution.inCommand?, h.substitution.statics]
    rfl
  rw [Request.command, hnone, substitute_none, String.ofList_toList]

theorem propertyLine_eq (h : r.IsIdle) (line : String) : (r.propertyLine line).2 = line := by
  rw [Request.propertyLine]
  split
  · rfl
  · rename_i declaration _
    have hnone : r.substitution.texture? (String.ofList declaration.head.name) = none := by
      rw [Substitution.texture?, h.substitution.textures]
      rfl
    dsimp only
    rw [hnone]

/-- A variant without registers adds no lines for them. -/
theorem places_eq (h : r.IsIdle) : r.substitution.registers.places = [] := by
  rw [Registers.places, h.substitution.perMesh]
  simp

theorem addedProperties_eq (h : r.IsIdle) : r.addedProperties = [] := by
  have hmeshes : ¬ 1 < r.options.meshCount := Nat.not_lt.2 h.options.meshes
  have hlines : r.substitution.registers.propertyLines = [] := by
    rw [Registers.propertyLines, h.places_eq]
    rfl
  simp only [Request.addedProperties, if_neg hmeshes, h.substitution.textures, hlines]
  rfl

theorem addProperties_eq (h : r.IsIdle) (w : Writer) : w.addProperties r = w := by
  simp only [Writer.addProperties, h.addedProperties_eq, List.isEmpty_nil, Bool.or_true]
  split
  · rfl
  · rfl

/-- No condition of a region is known to fail. -/
theorem regionValues_eq (h : r.IsIdle) : r.substitution.regionValues = ∅ := by
  rw [Substitution.regionValues, h.substitution.statics, h.substitution.arrays]
  rfl

/-- What the stages of any pass do with the packed number: nothing. -/
theorem changes_eq (h : r.IsIdle) {pass : Pass} {plan : Plan}
    (hplan : Plan.new r.shader.name pass r.options = .ok plan) :
    plan.decodes = false ∧ plan.toggled = none ∧ ∀ stage, plan.changes stage = false := by
  have hcarrying : r.options.needsCarrying = false := by
    rw [Options.needsCarrying, h.options.arrays, h.options.textures, h.options.animated]
    rfl
  have hmeshes : ¬ 1 < r.options.meshCount := Nat.not_lt.2 h.options.meshes
  have hdecoding : r.options.needsDecoding = false := by
    rw [Options.needsDecoding, hcarrying, decide_eq_false hmeshes]
    rfl
  simp only [Plan.new, hcarrying, hdecoding, if_neg hmeshes] at hplan
  cases hplan
  refine ⟨rfl, rfl, ?_⟩
  intro stage
  cases stage <;> rfl

/-- A program block starts with the definition of one symbol. -/
theorem prelude_eq (h : r.IsIdle) {pass : Pass} {plan : Plan}
    (hplan : Plan.new r.shader.name pass r.options = .ok plan) :
    Program.prelude r.substitution plan pass = ["#define " ++ variantSymbol] := by
  obtain ⟨hdecodes, htoggled, -⟩ := h.changes_eq hplan
  have huniforms : r.substitution.registers.uniforms = [] := by
    rw [Registers.uniforms, Registers.names, h.places_eq]
    rfl
  rw [Program.prelude, hdecodes, htoggled, huniforms, Program.texturePrelude,
    h.substitution.textures, h.substitution.arrays]
  rfl

end Request.IsIdle

/-! ## The directives of includes -/

/-- The keyword of an include directive. -/
theorem keyword_of_target? {line : String} (h : (Include.target? line).isSome = true) :
    ∃ keyword rest, Directive.ofLine? line = some ⟨keyword, rest⟩ ∧
      "include".toList <+: keyword.toList := by
  obtain ⟨target, htarget⟩ := Option.isSome_iff_exists.1 h
  simp only [Include.target?, Option.bind_eq_bind, Option.bind_eq_some_iff] at htarget
  obtain ⟨cs, hmark, rest, hinclude, -⟩ := htarget
  have hline : line.toList = '#' :: cs := by
    cases hcs : line.toList with
    | nil =>
      rw [hcs] at hmark
      cases hmark
    | cons c ds =>
      rw [hcs, Text.afterChar?] at hmark
      split at hmark
      · rename_i heq
        cases hmark
        rw [heq]
      · cases hmark
  have hprefix : "include".toList <+: Text.skipBlanks cs := by
    rw [Text.after?] at hinclude
    split at hinclude
    · rename_i hp
      exact List.isPrefixOf_iff_prefix.1 hp
    · cases hinclude
  refine ⟨String.ofList ((Text.skipBlanks cs).takeWhile Text.isNameChar),
    String.ofList ((Text.skipBlanks cs).dropWhile Text.isNameChar), ?_, ?_⟩
  · simp only [Directive.ofLine?, hline]
  · obtain ⟨tail, htail⟩ := hprefix
    have hname : ∀ c ∈ "include".toList, Text.isNameChar c = true :=
      List.all_eq_true.1 (by decide)
    rw [← htail, List.takeWhile_append_of_pos hname]
    exact ⟨tail.takeWhile Text.isNameChar, String.toList_ofList.symm⟩

theorem regionControl_of_target? {line : String} (h : (Include.target? line).isSome = true) :
    Region.Control.ofLine line = .plain := by
  obtain ⟨keyword, rest, hparts, hkeyword⟩ := keyword_of_target? h
  rw [Region.Control.ofLine, hparts]
  split
  · rename_i heq
    cases heq
    exact absurd hkeyword (by decide)
  · rename_i heq
    cases heq
    exact absurd hkeyword (by decide)
  · rfl

theorem control_of_target? {line : String} (h : (Include.target? line).isSome = true) :
    Condition.Control.ofLine line = .plain := by
  obtain ⟨keyword, rest, hparts, hkeyword⟩ := keyword_of_target? h
  have hother : ∀ word : String, ¬ "include".toList <+: word.toList → keyword ≠ word := by
    rintro word hword rfl
    exact hword hkeyword
  rw [Condition.Control.ofLine, hparts]
  dsimp only
  split
  · exact absurd rfl (hother _ (by decide))
  · exact absurd rfl (hother _ (by decide))
  · exact absurd rfl (hother _ (by decide))
  · exact absurd rfl (hother _ (by decide))
  · exact absurd rfl (hother _ (by decide))
  · exact absurd rfl (hother _ (by decide))
  · exact absurd rfl (hother _ (by decide))
  · exact absurd rfl (hother _ (by decide))
  · rfl

/-! ## Inside a program block -/

namespace Program

/-- A program block in which nothing is held back and nothing is written anew. -/
structure IsIdle (p : Program) : Prop where
  entries : p.entries = ∅
  pending : p.pending = none
  body : p.body = none
  deferred : p.deferred = []

variable {p p' : Program} {line : String} {lines : List String}

theorem IsIdle.of_new {r : Request} (h : r.IsIdle) (index : Nat) {pass : Pass} {plan : Plan}
    (hplan : Plan.new r.shader.name pass r.options = .ok plan) :
    (Program.new r.options index pass plan).IsIdle := by
  obtain ⟨-, -, hchanges⟩ := h.changes_eq hplan
  have hnone : Stage.all.filter plan.changes = [] := by
    rw [List.filter_eq_nil_iff]
    intro stage _
    rw [hchanges stage]
    exact Bool.false_ne_true
  refine ⟨?_, rfl, rfl, rfl⟩
  rw [Program.new, entriesOf, hnone]
  rfl

theorem IsIdle.write_eq (h : p.IsIdle) (lines : List String) : p.write lines = (p, lines) := by
  rw [Program.write, h.pending]

/-- A step of an idle block that writes some lines. -/
structure Idles (p : Program) (out : Program × List String) (lines : List String) : Prop where
  idle : out.1.IsIdle
  filter : out.1.filter = p.filter
  lines : out.2 = lines

theorem idles_statement (ht : t.IsEmpty) (h : p.IsIdle) (line : String) :
    Idles p (p.statement t line) [line] := by
  have hentry : p.entryStart? line = none := by
    simp only [entryStart?, h.entries]
    split
    · cases Signature.Header.ofText? line.toList <;> rfl
    · rfl
  -- A substitution that is empty declares nothing in the place of a line.
  have hdeclaration : ∀ p : Program, p.declaration? t line = none := by
    intro p
    rw [declaration?]
    cases Substitution.declaration? line with
    | none => rfl
    | some found =>
      have hnone : t.declare? found.1 found.2 = none := by
        simp only [Substitution.declare?, Substitution.isAssigned, ht.statics, ht.arrays, ht.slots]
        rfl
      change (t.declare? found.1 found.2).bind _ = none
      rw [hnone]
      rfl
  have htexture : t.declaresTexture line = false := by
    rw [Substitution.declaresTexture, ht.textures]
    rfl
  have hglobal : ∀ p : Program, p.IsIdle → Idles p (p.globalLine t line) [line] := by
    intro p h
    have hsame : ∀ announced, Idles p ({ p with bufferAnnounced := announced }, [line]) [line] :=
      fun announced => ⟨⟨h.entries, h.pending, h.body, h.deferred⟩, rfl, rfl⟩
    simp only [globalLine, htexture, hdeclaration, Option.getD_none, if_neg Bool.false_ne_true,
      ite_self]
    split
    · exact hsame true
    · exact hsame p.bufferAnnounced
  rw [statement, h.body]
  dsimp only
  rw [hentry]
  dsimp only
  split
  · exact ⟨⟨h.entries, h.pending, rfl, h.deferred⟩, rfl, rfl⟩
  · split
    · refine ⟨⟨h.entries, h.pending, h.body, rfl⟩, rfl, ?_⟩
      rw [closeBuffer, h.deferred]
    · exact hglobal p h

/-- A live line is written as it is. -/
theorem idles_liveLine (ht : t.IsEmpty) (h : p.IsIdle) {out : Program × List String}
    (hread : p.liveLine t line = .ok out) : Idles p out [line] := by
  rw [liveLine] at hread
  split at hread
  · cases hread
    rw [h.write_eq]
    exact ⟨h, rfl, rfl⟩
  · rw [h.pending] at hread
    dsimp only at hread
    split at hread
    · cases hread
      simp only [openBrace]
      split
      · exact ⟨⟨h.entries, h.pending, h.body, h.deferred⟩, rfl, rfl⟩
      · exact ⟨⟨h.entries, h.pending, h.body, h.deferred⟩, rfl, rfl⟩
    · split at hread
      · cases hread
        simp only [closeBrace, h.body, Option.filter_none]
        split
        · refine ⟨⟨h.entries, h.pending, rfl, rfl⟩, rfl, ?_⟩
          simp only [closeBuffer, h.deferred]
        · exact ⟨⟨h.entries, h.pending, rfl, h.deferred⟩, rfl, rfl⟩
      · cases hread
        exact idles_statement ht h line

/-- **A line of an idle block becomes what its filter writes for it.** -/
theorem line_of_isIdle (ht : t.IsEmpty) (h : p.IsIdle) (hread : p.line t line = .ok (p', lines)) :
    p'.IsIdle ∧ p'.filter = (p.filter.feed line).filter ∧
      lines = (p.filter.feed line).text line := by
  have hfed : ({ p with filter := (p.filter.feed line).filter } : Program).IsIdle :=
    ⟨h.entries, h.pending, h.body, h.deferred⟩
  have hfeed : p.feed line = ({ p with filter := (p.filter.feed line).filter },
      (p.filter.feed line).written, (p.filter.feed line).feed) := by
    rw [feed, hfed.write_eq]
  rw [Program.line, hfeed] at hread
  rw [Condition.Fed.text]
  cases hlive : (p.filter.feed line).feed with
  | consumed =>
    rw [hlive] at hread
    cases hread
    have hdead : Feed.consumed ≠ .live := by decide
    rw [if_neg hdead, List.append_nil]
    exact ⟨hfed, rfl, rfl⟩
  | live =>
    rw [hlive] at hread
    obtain ⟨out, hout, heq⟩ := exists_ok_of_map hread
    cases heq
    obtain ⟨hidle, hfilter, hlines⟩ := idles_liveLine ht hfed hout
    rw [if_pos rfl, hlines]
    exact ⟨hidle, hfilter, rfl⟩

end Program

end Variant

end ShaderMerge
