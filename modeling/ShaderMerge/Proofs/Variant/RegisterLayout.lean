import Mathlib.Data.List.Nodup
import Mathlib.Data.Fintype.Basic
import Mathlib.Tactic.FinCases
import ShaderMerge.Proofs.Include.Run
import ShaderMerge.Proofs.Table
import ShaderMerge.Variant.Registers

/-!
# Registers do not overlap

`Registers.allocate` goes from property to property.  What holds behind each of them is that the slots
given so far pack the registers (`Allocation.Packs`): no component of a register is taken twice, each
holds the default of the property that takes it, and only the components behind the last number are
free.

A property claims a new register or not, and then gets its slot.  `Packs.claim` and `Packs.place` say
what either does; `exists_packs_add` is the step for a property, and `packs_allocate` what follows for
all of them.
-/

namespace ShaderMerge

/-! ## Components -/

namespace Vector4

variable {v : Vector4} {c : Binary32}

@[simp] theorem get_set_self (v : Vector4) (place : Fin 4) (c : Binary32) :
    (v.set place c).get place = c := by
  fin_cases place <;> rfl

theorem get_set_of_ne {place other : Fin 4} (h : other ≠ place) (v : Vector4) (c : Binary32) :
    (v.set place c).get other = v.get other := by
  revert h
  fin_cases place <;> fin_cases other <;> simp [set, get]

@[simp] theorem get_zero (place : Fin 4) : zero.get place = .zero := by
  fin_cases place <;> rfl

end Vector4

/-- What a component of a register holds for a property: a number is the first component of its
default, and a vector has them all. -/
def Property.defaultAt (p : Property) (component : Fin 4) : Binary32 :=
  if p.type.isScalar then (PropertyDefault.components p.default).x
  else (PropertyDefault.components p.default).get component

namespace Shader

/-- Whether a property of the shader is a number. -/
def isNumber (s : Shader) (name : String) : Bool := (s.property? name).any (·.type.isScalar)

/-- Whether a property of the shader is a vector. -/
def isVector (s : Shader) (name : String) : Bool := (s.property? name).any (·.type.isVector)

end Shader

theorem PropertyType.isScalar_of_isVector {t : PropertyType} (h : t.isVector = true) :
    t.isScalar = false := by
  cases t <;> first | rfl | cases h

namespace Variant

/-- Whether a slot takes a component of a register: a vector takes them all. -/
def Slot.Takes (slot : Slot) (register : Nat) (component : Fin 4) : Prop :=
  slot.register = register ∧ ∀ c, slot.component = some c → c = component

/-- Whether a slot fits a property: a number has one component and a vector all of them. -/
def Slot.Fits (slot : Slot) (p : Property) : Prop :=
  if p.type.isScalar then slot.component.isSome = true
  else p.type.isVector = true ∧ slot.component = none

/-! ## What the slots given so far pack -/

/-- What holds of registers whose slots are given to some properties of a shader. -/
structure Registers.Packs (s : Shader) (names : List String) (r : Registers) : Prop where
  /-- The properties have the slots, and no others do. -/
  named : ∀ name, r.slots.contains name = true ↔ name ∈ names
  /-- A slot is in a register, and fits its property. -/
  placed : ∀ name slot, r.slots.get? name = some slot →
    slot.register < r.perMesh ∧ ∃ p, s.property? name = some p ∧ slot.Fits p
  /-- No component is taken twice. -/
  apart : ∀ name slot name' slot' register component, r.slots.get? name = some slot →
    r.slots.get? name' = some slot' → slot.Takes register component →
    slot'.Takes register component → name = name'
  /-- Each register of a mesh has a default. -/
  defaults : r.defaults.length = r.perMesh
  /-- A component that is taken holds the default of the property. -/
  held : ∀ name slot p register component, r.slots.get? name = some slot →
    s.property? name = some p → slot.Takes register component →
    (r.defaults[register]?).map (·.get component) = some (p.defaultAt component)
  /-- Any other component is zero. -/
  blank : ∀ register component v, r.defaults[register]? = some v →
    (∀ name slot, r.slots.get? name = some slot → ¬slot.Takes register component) →
    v.get component = .zero

/-- How many components of the last register that numbers share are free. -/
def Registers.Allocation.room (a : Registers.Allocation) : Nat :=
  (a.free.map fun place => 4 - place.2.val).getD 0

/-- What holds of an allocation behind some properties of a shader. -/
structure Registers.Allocation.Packs (s : Shader) (names : List String)
    (a : Registers.Allocation) : Prop where
  nodup : names.Nodup
  registers : a.registers.Packs s names
  /-- The free components stand behind the taken ones of their register. -/
  free : ∀ register component, a.free = some (register, component) →
    register < a.registers.perMesh ∧ component ≠ 0 ∧
      ∀ name slot c, a.registers.slots.get? name = some slot → slot.Takes register c → c < component
  /-- All other components are taken: by a vector each time four, and one by a number. -/
  full : 4 * a.registers.perMesh = 4 * names.countP s.isVector + names.countP s.isNumber + a.room

namespace Registers

variable {s : Shader} {names : List String} {a a' : Allocation} {r : Registers} {name : String}
  {p : Property}

theorem Packs.register_lt {slot : Slot} {register : Nat} {component : Fin 4}
    (h : r.Packs s names) (hsome : r.slots.get? name = some slot)
    (htakes : slot.Takes register component) : register < r.perMesh :=
  htakes.1 ▸ (h.placed name slot hsome).1

/-! ## One more register -/

/-- A new register is not taken by any slot, and zero. -/
theorem Packs.claim (h : r.Packs s names) : r.claim.Packs s names := by
  constructor
  case named => exact h.named
  case placed =>
    intro other slot hsome
    obtain ⟨hregister, hfits⟩ := h.placed other slot hsome
    exact ⟨Nat.lt_succ_of_lt hregister, hfits⟩
  case apart => exact h.apart
  case defaults =>
    show (r.defaults ++ [Vector4.zero]).length = r.perMesh + 1
    rw [List.length_append, h.defaults, List.length_singleton]
  case held =>
    intro other slot q register component hsome hq htakes
    have hlt : register < r.defaults.length := h.defaults ▸ h.register_lt hsome htakes
    show ((r.defaults ++ [Vector4.zero])[register]?).map _ = _
    rw [List.getElem?_append_left hlt]
    exact h.held other slot q register component hsome hq htakes
  case blank =>
    intro register component v hv hnone
    change (r.defaults ++ [Vector4.zero])[register]? = some v at hv
    by_cases hlt : register < r.defaults.length
    · rw [List.getElem?_append_left hlt] at hv
      exact h.blank register component v hv hnone
    · -- There is one more entry, that of the new register.
      rw [List.getElem?_append_right (Nat.le_of_not_lt hlt)] at hv
      rw [List.mem_singleton.1 (List.mem_of_getElem? hv)]
      exact Vector4.get_zero component

/-! ## One more slot -/

/-- One more slot, in a register that is there.  It fits its property and takes components that are
not taken; the change of the default gives these the default of the property and leaves the others. -/
theorem Packs.place {slot : Slot} {change : Vector4 → Vector4} (h : r.Packs s names)
    (hp : s.property? name = some p) (hname : name ∉ names) (hfits : slot.Fits p)
    (hslot : slot.register < r.perMesh)
    (hfree : ∀ other slot' component, r.slots.get? other = some slot' →
      slot'.Takes slot.register component → ¬slot.Takes slot.register component)
    (htaken : ∀ v component, slot.Takes slot.register component →
      (change v).get component = p.defaultAt component)
    (hkept : ∀ v component, ¬slot.Takes slot.register component →
      (change v).get component = v.get component) :
    (r.place name slot change).Packs s (names ++ [name]) := by
  have hget : ∀ other, (r.slots.insert name slot).get? other
      = if other = name then some slot else r.slots.get? other :=
    fun other => r.slots.get?_insert name other slot
  have hsplit : ∀ other slot', (r.slots.insert name slot).get? other = some slot' →
      other = name ∧ slot' = slot ∨ r.slots.get? other = some slot' := by
    intro other slot' hsome
    rw [hget] at hsome
    split at hsome
    · rename_i heq
      cases hsome
      exact .inl ⟨heq, rfl⟩
    · exact .inr hsome
  -- A slot of another property takes none of the components, in whatever register.
  have hapart : ∀ other slot' register component, r.slots.get? other = some slot' →
      slot'.Takes register component → ¬slot.Takes register component := by
    rintro other slot' register component hsome htakes ⟨rfl, hcomponent⟩
    exact hfree other slot' component hsome htakes ⟨rfl, hcomponent⟩
  have hrest : ∀ register component, ¬slot.Takes register component →
      ((r.defaults.modify slot.register change)[register]?).map (·.get component)
        = (r.defaults[register]?).map (·.get component) := by
    intro register component hnot
    rw [List.getElem?_modify]
    cases r.defaults[register]? with
    | none => rfl
    | some v =>
      by_cases heq : slot.register = register
      · subst heq
        simp [hkept v component hnot]
      · simp [heq]
  constructor
  case named =>
    intro other
    show (r.slots.insert name slot).contains other = true ↔ _
    rw [Table.contains_insert, Bool.or_eq_true, decide_eq_true_iff, h.named, List.mem_append,
      List.mem_singleton, or_comm]
  case placed =>
    intro other slot' hsome
    rcases hsplit other slot' hsome with ⟨rfl, rfl⟩ | hsome
    · exact ⟨hslot, p, hp, hfits⟩
    · exact h.placed other slot' hsome
  case apart =>
    intro first slot₁ second slot₂ register component hfirst hsecond htakes₁ htakes₂
    rcases hsplit _ _ hfirst with ⟨hsame₁, hslot₁⟩ | hfirst
    · rcases hsplit _ _ hsecond with ⟨hsame₂, -⟩ | hsecond
      · rw [hsame₁, hsame₂]
      · exact absurd (hslot₁ ▸ htakes₁) (hapart _ _ _ _ hsecond htakes₂)
    · rcases hsplit _ _ hsecond with ⟨-, hslot₂⟩ | hsecond
      · exact absurd (hslot₂ ▸ htakes₂) (hapart _ _ _ _ hfirst htakes₁)
      · exact h.apart _ _ _ _ _ _ hfirst hsecond htakes₁ htakes₂
  case defaults =>
    show (r.defaults.modify slot.register change).length = r.perMesh
    rw [List.length_modify, h.defaults]
  case held =>
    intro other slot' q register component hsome hq htakes
    show ((r.defaults.modify slot.register change)[register]?).map _ = _
    rcases hsplit other slot' hsome with ⟨rfl, rfl⟩ | hsome
    · rw [hp] at hq
      cases hq
      obtain rfl := htakes.1
      have hlt : slot'.register < r.defaults.length := h.defaults ▸ hslot
      rw [List.getElem?_modify_eq, List.getElem?_eq_getElem hlt]
      exact congrArg some (htaken _ component htakes)
    · rw [hrest register component (hapart _ _ _ _ hsome htakes)]
      exact h.held other slot' q register component hsome hq htakes
  case blank =>
    intro register component v hv hnone
    have hself : ¬slot.Takes register component :=
      hnone name slot ((hget name).trans (if_pos rfl))
    have hsame := hrest register component hself
    rw [show (r.defaults.modify slot.register change)[register]? = some v from hv] at hsame
    obtain ⟨w, hw, hvalue⟩ := Option.map_eq_some_iff.1 hsame.symm
    refine hvalue.symm.trans ?_
    refine h.blank register component w hw fun other slot' hsome => hnone other slot' ?_
    -- No name has two slots.
    have hother : other ≠ name := by
      rintro rfl
      exact hname ((h.named other).1 (Option.isSome_iff_exists.2 ⟨slot', hsome⟩))
    exact ((hget other).trans (if_neg hother)).trans hsome

theorem nodup_concat (hnodup : names.Nodup) (hname : name ∉ names) : (names ++ [name]).Nodup := by
  refine List.nodup_append.2 ⟨hnodup, List.nodup_singleton name, fun other hother last hlast => ?_⟩
  rintro rfl
  exact hname (List.mem_singleton.1 hlast ▸ hother)

/-- A vector takes a register of its own. -/
theorem packs_addVector (h : a.Packs s names) (hp : s.property? name = some p)
    (hname : name ∉ names) (hscalar : p.type.isScalar = false) (hvector : p.type.isVector = true) :
    (a.addVector name (PropertyDefault.components p.default)).Packs s (names ++ [name]) := by
  have hnumber : s.isNumber name = false := by rw [Shader.isNumber, hp]; exact hscalar
  have hcounted : s.isVector name = true := by rw [Shader.isVector, hp]; exact hvector
  constructor
  case nodup => exact nodup_concat h.nodup hname
  case registers =>
    refine h.registers.claim.place hp hname ?_ (Nat.lt_succ_self _) ?_ (fun v c _ => ?_) ?_
    · rw [Slot.Fits, hscalar]
      exact ⟨hvector, rfl⟩
    · intro other slot c hsome htakes
      exact absurd (h.registers.register_lt hsome htakes) (Nat.lt_irrefl _)
    · rw [Property.defaultAt, hscalar]
      rfl
    · intro v c htaken
      exact absurd ⟨rfl, nofun⟩ htaken
  case free =>
    intro register component hfree
    obtain ⟨hregister, hcomponent, hbelow⟩ := h.free register component hfree
    refine ⟨Nat.lt_succ_of_lt hregister, hcomponent, fun other slot c hsome htakes => ?_⟩
    change (a.registers.slots.insert name _).get? other = some slot at hsome
    rw [Table.get?_insert] at hsome
    split at hsome
    · cases hsome
      exact absurd htakes.1.symm (Nat.ne_of_lt hregister)
    · exact hbelow other slot c hsome htakes
  case full =>
    have hfull := h.full
    show 4 * (a.registers.perMesh + 1) = _ + _ + a.room
    simp only [List.countP_append, List.countP_singleton, hnumber, hcounted, if_true,
      Bool.false_eq_true, if_false]
    omega

/-- The next component for a number is in a register that is there, and nothing is taken from it on. -/
theorem Allocation.Packs.next (h : a.Packs s names) {register : Nat} {component : Fin 4}
    (hnext : a.next = (r, register, component)) :
    r.Packs s names ∧ register < r.perMesh ∧
      (∀ other slot c, r.slots.get? other = some slot → slot.Takes register c → c < component) ∧
      4 * r.perMesh
        = 4 * names.countP s.isVector + names.countP s.isNumber + (4 - component.val) := by
  have hfull := h.full
  rw [Allocation.room] at hfull
  rw [Allocation.next] at hnext
  split at hnext
  · rename_i hfree
    cases hnext
    obtain ⟨hregister, -, hbelow⟩ := h.free register component hfree
    rw [hfree] at hfull
    exact ⟨h.registers, hregister, hbelow, hfull⟩
  · rename_i hfree
    cases hnext
    refine ⟨h.registers.claim, Nat.lt_succ_self _, fun other slot c hsome htakes => ?_, ?_⟩
    · exact absurd (h.registers.register_lt hsome htakes) (Nat.lt_irrefl _)
    · rw [hfree] at hfull
      show 4 * (a.registers.perMesh + 1) = _ + 4
      rw [Nat.mul_succ, hfull]
      rfl

/-- A number takes the next component. -/
theorem packs_addNumber (h : a.Packs s names) (hp : s.property? name = some p)
    (hname : name ∉ names) (hscalar : p.type.isScalar = true) :
    (a.addNumber name (PropertyDefault.components p.default).x).Packs s (names ++ [name]) := by
  have hnumber : s.isNumber name = true := by rw [Shader.isNumber, hp]; exact hscalar
  have hcounted : s.isVector name = false := by
    rw [Shader.isVector, hp]
    cases hvector : p.type.isVector with
    | false => exact hvector
    | true =>
      rw [PropertyType.isScalar_of_isVector hvector] at hscalar
      cases hscalar
  obtain ⟨⟨r, register, component⟩, hnext⟩ : ∃ place, a.next = place := ⟨_, rfl⟩
  obtain ⟨hpacks, hregister, hbelow, hfull⟩ := h.next hnext
  rw [Allocation.addNumber, hnext]
  dsimp only
  constructor
  case nodup => exact nodup_concat h.nodup hname
  case registers =>
    refine hpacks.place hp hname ?_ hregister ?_ (fun v c htaken => ?_) fun v c htaken => ?_
    · rw [Slot.Fits, hscalar]
      rfl
    · rintro other slot c hsome htakes ⟨-, htaken⟩
      have hlt := hbelow other slot c hsome htakes
      rw [htaken component rfl] at hlt
      exact Fin.lt_irrefl _ hlt
    · obtain rfl := htaken.2 component rfl
      rw [Vector4.get_set_self, Property.defaultAt, if_pos hscalar]
    · refine Vector4.get_set_of_ne ?_ v _
      rintro rfl
      exact htaken ⟨rfl, by rintro _ ⟨⟩; rfl⟩
  case free =>
    intro register' component' hsome
    dsimp only at hsome
    split at hsome
    · cases hsome
    · rename_i hlast
      cases hsome
      have hlt : component < component + 1 := by
        revert hlast
        fin_cases component <;> decide
      refine ⟨hregister, ?_, fun other slot c hother htakes => ?_⟩
      · exact Fin.ne_of_gt (Fin.lt_of_le_of_lt (Fin.zero_le component) hlt)
      · change (r.slots.insert name _).get? other = some slot at hother
        rw [Table.get?_insert] at hother
        split at hother
        · cases hother
          rw [← htakes.2 component rfl]
          exact hlt
        · exact Fin.lt_trans (hbelow other slot c hother htakes) hlt
  case full =>
    show 4 * r.perMesh = _
    -- The component is taken, so that one less is free.
    have hless : 4 - component.val = 1 + ((if component = 3 then none
        else some (register, component + 1)).map fun place => 4 - place.2.val).getD 0 := by
      fin_cases component <;> rfl
    rw [hfull, hless, Allocation.room]
    simp only [List.countP_append, List.countP_singleton, hnumber, hcounted, if_true,
      Bool.false_eq_true, if_false]
    omega

/-! ## All slots -/

theorem meshes_addNumber (a : Allocation) (name : String) (default : Binary32) :
    (a.addNumber name default).registers.meshes = a.registers.meshes := by
  rw [Allocation.addNumber, Allocation.next]
  cases a.free <;> rfl

/-- **The step of the allocation**: a property that has a slot keeps it, and any other one gets one. -/
theorem exists_packs_add (h : a.Packs s names) (hadd : Allocation.add s a name = .ok a') :
    a'.registers.meshes = a.registers.meshes ∧
      ∃ names', a'.Packs s names' ∧ ∀ other, other ∈ names' ↔ other ∈ names ∨ other = name := by
  rw [Allocation.add] at hadd
  split at hadd
  · rename_i hcontains
    cases hadd
    refine ⟨rfl, names, h, fun other => ⟨.inl, ?_⟩⟩
    rintro (hother | rfl)
    · exact hother
    · exact (h.registers.named other).1 hcontains
  · rename_i hcontains
    have hname : name ∉ names := fun hmem => hcontains ((h.registers.named name).2 hmem)
    suffices hstep : a'.registers.meshes = a.registers.meshes ∧ a'.Packs s (names ++ [name]) from
      ⟨hstep.1, names ++ [name], hstep.2, fun other => by simp⟩
    cases hp : s.property? name with
    | none =>
      rw [hp] at hadd
      cases hadd
    | some p =>
      rw [hp] at hadd
      dsimp only at hadd
      split at hadd
      · rename_i hscalar
        cases hadd
        exact ⟨meshes_addNumber a name _, packs_addNumber h hp hname hscalar⟩
      · rename_i hscalar
        split at hadd
        · rename_i hvector
          cases hadd
          exact ⟨rfl, packs_addVector h hp hname (Bool.eq_false_iff.2 hscalar) hvector⟩
        · cases hadd

theorem exists_packs_foldlM (more : List String) (h : a.Packs s names)
    (hfold : more.foldlM (Allocation.add s) a = .ok a') :
    a'.registers.meshes = a.registers.meshes ∧
      ∃ names', a'.Packs s names' ∧ ∀ other, other ∈ names' ↔ other ∈ names ∨ other ∈ more := by
  induction more generalizing a names with
  | nil =>
    cases hfold
    exact ⟨rfl, names, h, by simp⟩
  | cons name more ih =>
    rw [List.foldlM_cons] at hfold
    obtain ⟨a₁, hadd, hrest⟩ := exists_ok_of_bind hfold
    obtain ⟨hmeshes, names₁, hpacks, hmem⟩ := exists_packs_add h hadd
    obtain ⟨hmeshes', names₂, hpacks, hmem'⟩ := ih hpacks hrest
    refine ⟨hmeshes'.trans hmeshes, names₂, hpacks, fun other => ?_⟩
    rw [hmem', hmem, List.mem_cons, or_assoc]

/-- The properties that are animated on some mesh. -/
theorem mem_flatMap_keys {animated : Table Nat NameSet} :
    name ∈ animated.values.flatMap (·.keys) ↔
      ∃ mesh names, animated.get? mesh = some names ∧ names.contains name = true := by
  rw [List.mem_flatMap]
  constructor
  · rintro ⟨names, hnames, hname⟩
    obtain ⟨⟨mesh, _⟩, hentry, rfl⟩ := List.mem_map.1 hnames
    exact ⟨mesh, _, (Table.mem_entries_iff Nat.lt_irrefl animated mesh _).1 hentry,
      (Table.mem_keys_iff _ name).1 hname⟩
  · rintro ⟨mesh, names, hget, hname⟩
    exact ⟨names, List.mem_map.2 ⟨(mesh, names),
      (Table.mem_entries_iff Nat.lt_irrefl animated mesh names).2 hget, rfl⟩,
      (Table.mem_keys_iff names name).2 hname⟩

/-- No component is taken before the first property. -/
theorem packs_start (s : Shader) (meshes : Range) : (⟨.start meshes, none⟩ : Allocation).Packs s [] := by
  have hnone : ∀ name, (Registers.start meshes).slots.get? name = none := fun _ => rfl
  refine ⟨List.nodup_nil, ⟨?_, ?_, ?_, rfl, ?_, ?_⟩, ?_, rfl⟩
  · intro name
    simp [Table.contains, hnone]
  · intro name slot h
    cases h
  · intro name slot name' slot' register component h
    cases h
  · intro name slot p register component h
    cases h
  · intro register component v h
    cases h
  · intro register component h
    cases h

/-- **The registers of the animated properties are packed.**  As many registers are there as the
vectors and, four to a register, the numbers need. -/
theorem packs_allocate {animated : Table Nat NameSet} {meshes : Range}
    (hallocate : allocate s animated meshes = .ok r) :
    r.meshes = meshes ∧ r.Packs s (animated.values.flatMap (·.keys)) ∧
      r.perMesh = r.slots.keys.countP s.isVector + (r.slots.keys.countP s.isNumber + 3) / 4 := by
  obtain ⟨a, hfold, rfl⟩ := exists_ok_of_map hallocate
  obtain ⟨hmeshes, names, hpacks, hmem⟩ := exists_packs_foldlM _ (packs_start s meshes) hfold
  have hnames : ∀ name, name ∈ names ↔ name ∈ animated.values.flatMap (·.keys) := by
    intro name
    rw [hmem]
    simp
  refine ⟨hmeshes, ?_, ?_⟩
  · have hregisters := hpacks.registers
    exact ⟨fun name => (hregisters.named name).trans (hnames name), hregisters.placed,
      hregisters.apart, hregisters.defaults, hregisters.held, hregisters.blank⟩
  · have hnodup : a.registers.slots.keys.Nodup := by
      refine List.Nodup.map_on ?_ (a.registers.slots.ascending.imp ?_)
      · rintro ⟨key, value⟩ hfirst ⟨key', value'⟩ hsecond heq
        cases heq
        rw [Table.mem_entries_iff String.lt_irrefl] at hfirst hsecond
        rw [hfirst] at hsecond
        cases hsecond
        rfl
      · rintro first second hlt rfl
        exact String.lt_irrefl _ hlt
    have hperm : a.registers.slots.keys.Perm names := by
      rw [List.perm_ext_iff_of_nodup hnodup hpacks.nodup]
      intro name
      rw [Table.mem_keys_iff, hpacks.registers.named]
    have hfull := hpacks.full
    rw [hperm.countP_eq, hperm.countP_eq]
    have hroom : a.room < 4 := by
      rw [Allocation.room]
      cases hfree : a.free with
      | none => decide
      | some place =>
        have hne : place.2.val ≠ 0 := fun heq => (hpacks.free _ _ hfree).2.1 (Fin.ext heq)
        change 4 - place.2.val < 4
        omega
    omega

end Registers

end Variant

end ShaderMerge
