import ShaderMerge.Proofs.Condition.Knowledge
import ShaderMerge.Proofs.Include.Project
import ShaderMerge.Proofs.Include.Run
import ShaderMerge.Proofs.Region.Knowledge
import ShaderMerge.Proofs.Variant.RegisterLayout
import ShaderMerge.Proofs.Variant.Selection
import ShaderMerge.Shader.Builder
import ShaderMerge.Variant.Substitution

/-!
# Regions of a variant and the materials and meshes it stands for

A variant decides the conditions of regions once, with the numbers that `Substitution.regionValues`
finds to be the same for all materials and meshes.  `Options.IsValuation` says which values
the properties may have for one material while any mesh is drawn.  Every such valuation has the
numbers that the variant uses (`extends_of_isValuation`), so that a region that the variant keeps or
drops is kept or dropped for each of them (`decide_of_isValuation`).
-/

namespace ShaderMerge.Variant

open Substitution (sharedNumber?)

/-! ## What the options say of one material -/

namespace Options

/-- Whether a property is animated on some mesh. -/
def isAnimated (o : Options) (name : String) : Bool := o.animated.values.any (·.contains name)

/-- Whether a property is selected by material: it has values by material and is not animated. -/
def isSelected (o : Options) (name : String) : Bool :=
  !o.isAnimated name && (o.arrays.get? name).any (!·.isEmpty)

/-- Values that the properties may have for a material.  A selected property has the number that is
given for the material and any other constant its own; an animated property, or one that the options
say nothing of, may have any. -/
structure IsValuation (o : Options) (material : Nat) (values : Table String Binary32) : Prop where
  selected : ∀ name given, o.isSelected name = true → o.arrays.get? name = some given →
    ∃ value, given[material]? = some value ∧ values.get? name = value.scalar?
  constant : ∀ name value, o.isAnimated name = false → o.isSelected name = false →
    o.statics.get? name = some value → values.get? name = value.scalar?

instance (o : Options) (material : Nat) (values : Table String Binary32) :
    Decidable (o.IsValuation material values) :=
  decidable_of_iff
    ((∀ e ∈ o.arrays.entries, o.isSelected e.1 = true →
        e.2[material]?.any (fun value => values.get? e.1 = value.scalar?) = true) ∧
      ∀ e ∈ o.statics.entries, o.isAnimated e.1 = false → o.isSelected e.1 = false →
        values.get? e.1 = e.2.scalar?)
    ⟨fun h => {
        selected := fun name given hselected hgiven => by
          have hany := h.1 (name, given) ((Table.mem_entries_iff String.lt_irrefl _ _ _).2 hgiven)
            hselected
          obtain ⟨value, hvalue, hget⟩ := (Option.any_eq_true _ _).1 hany
          exact ⟨value, hvalue, of_decide_eq_true hget⟩
        constant := fun name value hfree hfixed hvalue =>
          h.2 (name, value) ((Table.mem_entries_iff String.lt_irrefl _ _ _).2 hvalue) hfree
            hfixed },
      fun h => ⟨fun e he hselected => by
          obtain ⟨value, hvalue, hget⟩ := h.selected e.1 e.2 hselected
            ((Table.mem_entries_iff String.lt_irrefl _ _ _).1 he)
          exact (Option.any_eq_true _ _).2 ⟨value, hvalue, decide_eq_true hget⟩,
        fun e he hfree hfixed => h.constant e.1 e.2 hfree hfixed
          ((Table.mem_entries_iff String.lt_irrefl _ _ _).1 he)⟩⟩

end Options

/-! ## Values of one type -/

/-- A value that has a number after the values have been brought to one type had this number
before. -/
theorem scalar?_of_unify {given : List Value} {value unified : Value} {place : Nat} {x : Binary32}
    (hvalue : given[place]? = some value) (hunified : (Value.unify given)[place]? = some unified)
    (hx : unified.scalar? = some x) : value.scalar? = some x := by
  rw [Value.unify] at hunified
  split at hunified
  · rw [List.getElem?_map, hvalue, Option.map_some, Option.some.injEq] at hunified
    subst hunified
    cases value <;> cases hx
  · split at hunified
    · rw [List.getElem?_map, hvalue, Option.map_some, Option.some.injEq] at hunified
      subst hunified
      cases value <;> exact hx
    · rw [hvalue, Option.some.injEq] at hunified
      rw [hunified]
      exact hx

/-- A number that all materials share is the number of each of them. -/
theorem scalar?_of_sharedNumber? {given : List Value} {selection : Selection} {value : Value}
    {material : Nat} {x : Binary32} (hselection : Selection.ofValues? given = some selection)
    (hshared : sharedNumber? selection = some x) (hvalue : given[material]? = some value) :
    value.scalar? = some x := by
  obtain ⟨first, hfirst, rfl⟩ := Option.map_eq_some_iff.1 hselection
  have hlt : material < (Value.unify given).length := by
    rw [length_unify]
    exact (List.getElem?_eq_some_iff.1 hvalue).1
  have hselect := (Selection.isFor_ofUnified hfirst).select_eq (List.getElem?_eq_getElem hlt)
  cases huniform : Selection.ofUnified first (Value.unify given) with
  | uniform common =>
    rw [huniform] at hshared hselect
    refine scalar?_of_unify hvalue (List.getElem?_eq_getElem hlt) ?_
    rw [← Option.some.inj hselect]
    exact hshared
  | singular => rw [huniform] at hshared; cases hshared
  | masked => rw [huniform] at hshared; cases hshared
  | indexed => rw [huniform] at hshared; cases hshared

/-! ## The registers hold the animated properties -/

namespace Registers

/-- Exactly the properties that are animated on some mesh have a place in the registers. -/
theorem contains_allocate {s : Shader} {o : Options} {registers : Registers}
    (h : allocate s o.animated o.meshes = .ok registers) (name : String) :
    registers.slots.contains name = o.isAnimated name := by
  obtain ⟨-, hpacks, -⟩ := packs_allocate h
  rw [Bool.eq_iff_iff, hpacks.named, Options.isAnimated, List.mem_flatMap, List.any_eq_true]
  exact exists_congr fun names => and_congr_right fun _ => Table.mem_keys_iff names name

end Registers

/-! ## The numbers that a variant uses -/

/-- What a successful substitution takes from the options. -/
structure Substitution.Takes (t : Substitution) (o : Options) : Prop where
  slots : ∀ name, t.registers.slots.contains name = o.isAnimated name
  arrays : t.arrays = (o.arrays.filter fun name _ => !t.registers.slots.contains name).filterMap
    fun _ values => Selection.ofValues? values
  statics : t.statics = o.statics.filter fun name _ =>
    !t.registers.slots.contains name && !t.arrays.contains name

variable {s : Shader} {o : Options} {t : Substitution} {material : Nat}
  {values : Table String Binary32} {condition : String}

theorem Substitution.takes_of_new (h : Substitution.new s o = .ok t) : t.Takes o := by
  rw [Substitution.new] at h
  split at h
  · cases h
  · obtain ⟨_, -, h⟩ := exists_ok_of_bind h
    obtain ⟨_, -, h⟩ := exists_ok_of_bind h
    obtain ⟨_, -, h⟩ := exists_ok_of_bind h
    obtain ⟨_, -, h⟩ := exists_ok_of_bind h
    obtain ⟨registers, hregisters, h⟩ := exists_ok_of_bind h
    obtain ⟨textures, -, h⟩ := exists_ok_of_bind h
    cases h
    exact ⟨Registers.contains_allocate hregisters, rfl, rfl⟩

namespace Substitution.Takes

/-- A property is selected if it has values by material and is not animated. -/
theorem contains_arrays (h : t.Takes o) (name : String) :
    t.arrays.contains name = o.isSelected name := by
  rw [Table.contains, h.arrays, Table.get?_filterMap, Table.get?_filter, Options.isSelected,
    ← h.slots]
  cases o.arrays.get? name with
  | none => cases t.registers.slots.contains name <;> rfl
  | some given =>
    cases hslot : t.registers.slots.contains name with
    | true => simp [Option.filter]
    | false => simp [Option.filter, isSome_ofValues?]

/-- Every valuation of a material has the numbers that a variant uses. -/
theorem extends_of_isValuation (h : t.Takes o) (hvalues : o.IsValuation material values) :
    t.regionValues.Extends values := by
  intro name x hx
  rw [Substitution.regionValues, Table.get?_insertAll, Table.get?_filterMap, Table.get?_filterMap,
    Option.or_eq_some_iff] at hx
  rcases hx with hshared | ⟨-, hconstant⟩
  · obtain ⟨selection, hselection, hnumber⟩ := Option.bind_eq_some_iff.1 hshared
    have hselected : o.isSelected name = true := by
      rw [← h.contains_arrays, Table.contains, hselection]
      rfl
    rw [h.arrays, Table.get?_filterMap, Table.get?_filter, Option.bind_eq_some_iff] at hselection
    obtain ⟨given, hgiven, hselection⟩ := hselection
    have hgiven := (Option.filter_eq_some_iff.1 hgiven).1
    obtain ⟨value, hvalue, hget⟩ := hvalues.selected name given hselected hgiven
    rw [hget]
    exact scalar?_of_sharedNumber? hselection hnumber hvalue
  · obtain ⟨value, hvalue, hscalar⟩ := Option.bind_eq_some_iff.1 hconstant
    rw [h.statics, Table.get?_filter, Option.filter_eq_some_iff] at hvalue
    obtain ⟨hvalue, hfree⟩ := hvalue
    rw [h.slots, h.contains_arrays, Bool.and_eq_true, Bool.not_eq_true', Bool.not_eq_true'] at hfree
    rw [hvalues.constant name value hfree.1 hfree.2 hvalue]
    exact hscalar

end Substitution.Takes

/-- **A region that a variant keeps or drops is kept or dropped for every material and mesh.** -/
theorem decide_of_isValuation (hnew : Substitution.new s o = .ok t)
    (hvalues : o.IsValuation material values)
    (hdecided : Region.decide condition t.regionValues ≠ .undecided) :
    Region.decide condition values = Region.decide condition t.regionValues :=
  Region.decide_of_extends ((Substitution.takes_of_new hnew).extends_of_isValuation hvalues)
    hdecided

/-- A shader with three properties. -/
def threeNumbers : List String :=
  ["Shader \"S\"", "\x7b", "Properties \x7b", "_A (\"A\", Float) = 0", "_B (\"B\", Float) = 0",
    "_C (\"C\", Float) = 0", "\x7d", "\x7d"]

/-- Two is given once as an integer and once as a float, a constant is hidden by it, and another one
by an animated property. -/
def mixedNumbers : Options :=
  { Options.new with
    arrays := Table.ofList
      [("_A", [.int 2, .float (Binary32.ofInt 2)]), ("_C", [.int 0, .int 0])]
    statics := Table.ofList [("_A", .int 5), ("_B", .int 1), ("_C", .int 0)]
    animated := Table.ofList [(1, NameSet.ofNames ["_C"])] }

/-- The numbers of the second material while the animated property is seven. -/
def secondNumbers : Table String Binary32 :=
  Table.ofList [("_A", Binary32.ofInt 2), ("_B", Binary32.one), ("_C", Binary32.ofInt 7)]

/-- A constant decides the condition, whatever is unknown beside it. -/
theorem decide_of_isValuation_of_mixed :
    ∃ shader t, Shader.read? (.ofFiles [("a.shader", threeNumbers)]) "a.shader" = .ok shader ∧
      Substitution.new shader mixedNumbers = .ok t ∧ mixedNumbers.IsValuation 1 secondNumbers ∧
      Region.decide " _A == 2 && _C == 0 && _B > 1" t.regionValues = .drop ∧
      Region.decide " _A == 2 && _C == 0 && _B > 1" secondNumbers
        = Region.decide " _A == 2 && _C == 0 && _B > 1" t.regionValues := by
  have hlines : (Project.ofFiles [("a.shader", threeNumbers)]).readLines? "a.shader"
      = some threeNumbers :=
    Project.readLines?_ofFiles (by decide +kernel) (by decide +kernel)
  have hcheck : (Shader.read? (.ofFiles [("a.shader", threeNumbers)]) "a.shader").toOption.any
      (fun shader => (Substitution.new shader mixedNumbers).toOption.any fun t =>
        decide (Region.decide " _A == 2 && _C == 0 && _B > 1" t.regionValues = .drop)) = true := by
    rw [Shader.read?, Include.Sources.load, hlines]
    decide +kernel
  obtain ⟨shader, hread, hany⟩ := exists_ok_of_any hcheck
  obtain ⟨t, hnew, hdrop⟩ := exists_ok_of_any hany
  rw [decide_eq_true_eq] at hdrop
  have hvalues : mixedNumbers.IsValuation 1 secondNumbers := by decide +kernel
  exact ⟨shader, t, hread, hnew, hvalues, hdrop,
    decide_of_isValuation hnew hvalues (by rw [hdrop]; exact nofun)⟩

end ShaderMerge.Variant
