import ShaderMerge.Proofs.Variant.PropertyBlock
import ShaderMerge.Proofs.Variant.RegisterLayout

/-!
# What the code that reads registers finds

The code of an animated property puts the registers of all meshes into an array, finds the first one of
the mesh being drawn, and takes an element from there on.  `access?` reads this code, knowing only the
forms that it has, and computes with unsigned integers as shader code does.  `serves_of_allocate` says
that it finds the register that the property has on the mesh, and how `Registers.allocate` lays the
registers out.
-/

namespace ShaderMerge.Variant

namespace Registers

/-! ## Reading the code -/

/-- The value of a variable behind its declaration as `(mesh - first) * count`, for the mesh with a
number. -/
def baseValue? (mesh : List Char) (m : UInt32) (cs : List Char) : Option (List Char × UInt32) := do
  let cs ← Text.after? "uint " cs
  let (name, cs) ← Text.splitAtFirst? [' ', '=', ' ', '('] cs
  let (operand, cs) ← Text.splitAtFirst? [' ', '-', ' '] cs
  let (first, cs) ← Text.splitAtFirst? [')', ' ', '*', ' '] cs
  let (count, cs) ← Text.until? ';' cs
  if operand = mesh ∧ first.all Char.isDigit ∧ count.all Char.isDigit ∧ cs = [] then
    some (name, (m - .ofNat (Decimal.digitsValue first)) * .ofNat (Decimal.digitsValue count))
  else none

/-- An element of an array that an expression takes. -/
structure Access where
  /-- The place of the element. -/
  index : UInt32
  /-- The element, if the array has the place. -/
  element : Option (List Char)
  /-- What is selected of the element. -/
  swizzle : List Char

/-- What the expression `array[base + offset]` takes for the mesh with a number, behind the
declarations of the array and of the base.  The array has no qualifiers; those of a constant one make
it one that is read already. -/
def access? (declarations : List String) (mesh : List Char) (m : UInt32) (cs : List Char) :
    Option Access := do
  let line ← declarations[0]?
  let array ← Selection.constantArray? ("static const ".toList ++ line.toList)
  let line ← declarations[1]?
  let (base, value) ← baseValue? mesh m line.toList
  let (arrayName, cs) ← Text.until? '[' cs
  let (baseName, cs) ← Text.splitAtFirst? [' ', '+', ' '] cs
  let (offset, swizzle) ← Text.until? ']' cs
  if arrayName = array.name ∧ baseName = base ∧ offset.all Char.isDigit then
    let index := value + .ofNat (Decimal.digitsValue offset)
    some ⟨index, array.elements[index.toNat]?, swizzle⟩
  else none

/-! ## The array -/

variable {r : Registers} {name : String} {slot : Slot} {m : Nat}

theorem mem_toList_meshes {range : Range} : m ∈ range.toList ↔ range.first ≤ m ∧ m < range.stop := by
  rw [Range.toList, List.mem_map]
  constructor
  · rintro ⟨i, hi, rfl⟩
    rw [List.mem_range, Range.size] at hi
    omega
  · intro h
    refine ⟨m - range.first, ?_, by omega⟩
    rw [List.mem_range, Range.size]
    omega

theorem getElem?_flatMap_range {α : Type} (f : Nat → Nat → α) (l : List Nat) (count i j : Nat)
    (hj : j < count) :
    (l.flatMap fun x => (List.range count).map (f x))[i * count + j]? = l[i]?.map (f · j) := by
  induction l generalizing i with
  | nil => simp
  | cons x l ih =>
    rw [List.flatMap_cons]
    cases i with
    | zero =>
      rw [Nat.zero_mul, Nat.zero_add, List.getElem?_append_left (by simpa using hj)]
      simp [hj]
    | succ i =>
      rw [List.getElem?_append_right (by simp [Nat.succ_mul]; omega), List.getElem?_cons_succ, ← ih i]
      congr 1
      rw [List.length_map, List.length_range, Nat.succ_mul]
      omega

/-- The registers of a mesh stand together, behind those of the meshes in front of it. -/
theorem getElem?_names (hm : m ∈ r.meshes.toList) {register : Nat} (hregister : register < r.perMesh) :
    r.names[(m - r.meshes.first) * r.perMesh + register]? = some (registerName m register) := by
  rw [mem_toList_meshes] at hm
  rw [names, List.getElem?_map, places, getElem?_flatMap_range Prod.mk _ _ _ _ hregister, Range.toList,
    List.getElem?_map, List.getElem?_range (by rw [Range.size]; omega)]
  simp only [Option.map_some]
  rw [Nat.add_sub_cancel' hm.1]

theorem length_names (r : Registers) : r.names.length = r.meshes.size * r.perMesh := by
  rw [names, List.length_map, places, List.length_flatMap]
  simp [Range.toList, Function.comp_def]

/-- A name can stand between the commas of an array. -/
theorem isElement_of_isName {cs : List Char} (h : Text.IsName cs) : Selection.IsElement cs := by
  have hno : ∀ d, Text.isNameChar d = false → d ∉ cs := fun d => Text.IsName.notMem h
  refine ⟨?_, hno '\x7d' (by decide), fun hhead => hno ' ' (by decide) (List.mem_of_mem_head? hhead)⟩
  exact Signature.openBehind?_of_forall h.forall_isNameChar (by decide) (by decide)

/-! ## The code of a property -/

theorem baseValue?_text {mesh name : List Char} (hmesh : Text.IsName mesh) (hname : Text.IsName name)
    (n : UInt32) (first count : Nat) :
    baseValue? mesh n ("uint ".toList ++ (name ++ ([' ', '=', ' ', '('] ++ (mesh ++ ([' ', '-', ' '] ++
      ((toString first).toList ++ ([')', ' ', '*', ' '] ++ ((toString count).toList ++ [';']))))))))
      = some (name, (n - .ofNat first) * .ofNat count) := by
  have hequals := Text.splitAtFirst?_append (Text.IsName.notMem hname (by decide) : '=' ∉ name)
    (by decide : '=' ∉ [' ']) [' ', '('] (mesh ++ ([' ', '-', ' '] ++ ((toString first).toList ++
      ([')', ' ', '*', ' '] ++ ((toString count).toList ++ [';'])))))
  have hminus := Text.splitAtFirst?_append (Text.IsName.notMem hmesh (by decide) : '-' ∉ mesh)
    (by decide : '-' ∉ [' ']) [' '] ((toString first).toList ++ ([')', ' ', '*', ' '] ++
      ((toString count).toList ++ [';'])))
  have htimes := Text.splitAtFirst?_append
    (Selection.notMem_toString (by decide) : ')' ∉ (toString first).toList)
    (List.not_mem_nil) [' ', '*', ' '] ((toString count).toList ++ [';'])
  have hend : Text.until? ';' ((toString count).toList ++ [';']) = some ((toString count).toList, []) :=
    Text.until?_append (Selection.notMem_toString (by decide)) []
  have hdigits : ∀ n : Nat, (toString n).toList.all Char.isDigit = true :=
    fun n => List.all_eq_true.2 fun c => Text.isDigit_of_mem_toString
  rw [baseValue?]
  simp only [Text.after?_eq_some_iff.2 rfl, Option.bind_eq_bind, Option.bind_some]
  simp only [List.cons_append, List.nil_append] at hequals hminus htimes ⊢
  simp only [hequals, hminus, htimes, hend, Option.bind_some, hdigits, Selection.digitsValue_toString,
    and_self, if_true]

/-- The text of an access is read back. -/
theorem access?_text {mesh array base type : List Char} {elements : List (List Char)}
    {line : String} (hmesh : Text.IsName mesh) (hbase : Text.IsName base) (harray : '[' ∉ array)
    (hline : Selection.constantArray? ("static const ".toList ++ line.toList)
      = some ⟨type, array, elements⟩) (n : UInt32) (first count offset : Nat)
    (swizzle : List Char) :
    access? [line, String.ofList ("uint ".toList ++ (base ++ ([' ', '=', ' ', '('] ++ (mesh ++
        ([' ', '-', ' '] ++ ((toString first).toList ++ ([')', ' ', '*', ' '] ++
          ((toString count).toList ++ [';']))))))))] mesh n
      (array ++ '[' :: (base ++ ([' ', '+', ' '] ++ ((toString offset).toList ++ ']' :: swizzle))))
      = some (let index := (n - .ofNat first) * .ofNat count + .ofNat offset
          ⟨index, elements[index.toNat]?, swizzle⟩) := by
  have hvalue := baseValue?_text hmesh hbase n first count
  have hplus := Text.splitAtFirst?_append (Text.IsName.notMem hbase (by decide) : '+' ∉ base)
    (by decide : '+' ∉ [' ']) [' '] ((toString offset).toList ++ ']' :: swizzle)
  have hdigits : (toString offset).toList.all Char.isDigit = true :=
    List.all_eq_true.2 fun c => Text.isDigit_of_mem_toString
  have hoffset : ']' ∉ (toString offset).toList := Selection.notMem_toString (by decide)
  rw [access?]
  simp only [List.getElem?_cons_zero, List.getElem?_cons_succ, Option.bind_eq_bind, Option.bind_some,
    String.toList_ofList, hline, hvalue, Text.until?_append harray]
  simp only [List.cons_append, List.nil_append] at hplus ⊢
  simp only [hplus, Option.bind_some, Text.until?_append hoffset, hdigits,
    Selection.digitsValue_toString, and_self, if_true]

/-- The prologue declares the array of the registers of all meshes, and the place of the first one of
the mesh being drawn. -/
theorem prologue_eq (hnonempty : r.isEmpty = false) (mesh : String) : r.prologue mesh = [
    String.ofList ("float4".toList ++ ' ' :: ("optimizerAnimatedRegisters".toList ++ '[' ::
      ((toString (r.names.map String.toList).length).toList ++ ']' :: (" = \x7b ".toList ++
        (List.intercalate [',', ' '] (r.names.map String.toList) ++ [' ', '\x7d', ';']))))),
    String.ofList ("uint ".toList ++ ("optimizerAnimatedBase".toList ++ ([' ', '=', ' ', '('] ++
      (mesh.toList ++ ([' ', '-', ' '] ++ ((toString r.meshes.first).toList ++
        ([')', ' ', '*', ' '] ++ ((toString r.perMesh).toList ++ [';']))))))))] := by
  rw [prologue, hnonempty, List.length_map, length_names]
  simp only [Bool.false_eq_true, if_false, List.cons.injEq, and_true, ← String.toList_inj,
    String.toList_append, String.toList_ofList, String.toList_intercalate, List.append_assoc]
  exact ⟨rfl, rfl⟩

theorem valueExpression?_eq (hslot : r.slots.get? name = some slot) :
    (r.valueExpression? name).map String.toList = some
      ("optimizerAnimatedRegisters".toList ++ '[' :: ("optimizerAnimatedBase".toList ++
        ([' ', '+', ' '] ++ ((toString slot.register).toList ++ ']' :: slot.swizzle.toList)))) := by
  rw [valueExpression?, hslot]
  simp only [Option.map_some, String.toList_append, List.append_assoc]
  rfl

/-- **The code of an animated property takes its register**: the place is that of the register of the
mesh among those of all meshes, reduced as unsigned integers are. -/
theorem access?_valueExpression (hslot : r.slots.get? name = some slot) (hm : m ∈ r.meshes.toList)
    (hregister : slot.register < r.perMesh) {mesh : String} (hmesh : Text.IsName mesh.toList) :
    (r.valueExpression? name).bind
        (fun expression => access? (r.prologue mesh) mesh.toList (.ofNat m) expression.toList)
      = some (let index := UInt32.ofNat ((m - r.meshes.first) * r.perMesh + slot.register)
          ⟨index, (r.names.map String.toList)[index.toNat]?, slot.swizzle.toList⟩) := by
  have hnonempty : r.isEmpty = false := by
    cases hempty : r.isEmpty with
    | false => rfl
    | true =>
      have hentries : r.slots.entries = [] := List.isEmpty_iff.1 hempty
      rw [Table.get?, hentries] at hslot
      cases hslot
  have hpieces : ∀ piece ∈ r.names.map String.toList, Selection.IsElement piece := by
    rw [names, List.map_map]
    exact List.forall_mem_map.2 fun place _ => isElement_of_isName (isName_registerName ..)
  have hne : r.names.map String.toList ≠ [] := by
    intro hnil
    have hsome := getElem?_names hm hregister
    rw [List.map_eq_nil_iff.1 hnil] at hsome
    cases hsome
  have hspace : ' ' ∉ "float4".toList := by decide
  have hbracket : '[' ∉ "optimizerAnimatedRegisters".toList := by decide
  have hbase : Text.IsName "optimizerAnimatedBase".toList :=
    ⟨'o', "ptimizerAnimatedBase".toList, rfl, by decide, List.all_eq_true.1 (by decide)⟩
  have harray := Selection.constantArray?_text hspace hbracket hpieces hne
  rw [← String.toList_ofList (l := "float4".toList ++ _)] at harray
  have hindex : (UInt32.ofNat m - UInt32.ofNat r.meshes.first) * UInt32.ofNat r.perMesh
      + UInt32.ofNat slot.register
      = UInt32.ofNat ((m - r.meshes.first) * r.perMesh + slot.register) := by
    rw [← UInt32.ofNat_sub (mem_toList_meshes.1 hm).1, ← UInt32.ofNat_mul, ← UInt32.ofNat_add]
  have haccess := access?_text hmesh hbase hbracket harray (.ofNat m) r.meshes.first r.perMesh
    slot.register slot.swizzle.toList
  obtain ⟨expression, hsome, hchars⟩ := Option.map_eq_some_iff.1 (valueExpression?_eq hslot)
  rw [hindex] at haccess
  rw [hsome, Option.bind_some, hchars, prologue_eq hnonempty]
  exact haccess

/-! ## The registers of a shader -/

/-- Whether registers give each of some properties of a shader a place of its own, and the code of each
finds it on every mesh. -/
structure Serves (s : Shader) (names : List String) (r : Registers) : Prop extends r.Packs s names where
  /-- A register for each vector, and one for up to four numbers. -/
  count : r.perMesh = r.slots.keys.countP s.isVector + (r.slots.keys.countP s.isNumber + 3) / 4
  /-- The register of a property on a mesh stands in its place among those of all meshes. -/
  register : ∀ m ∈ r.meshes.toList, ∀ name slot, r.slots.get? name = some slot →
    r.names[(m - r.meshes.first) * r.perMesh + slot.register]? = some (registerName m slot.register)
  /-- The code computes this place, and takes from there what the slot selects. -/
  code : ∀ m ∈ r.meshes.toList, ∀ name slot, r.slots.get? name = some slot →
    ∀ mesh : String, Text.IsName mesh.toList → ∃ expression access,
      r.valueExpression? name = some expression ∧
      access? (r.prologue mesh) mesh.toList (.ofNat m) expression.toList = some access ∧
      access.index = .ofNat ((m - r.meshes.first) * r.perMesh + slot.register) ∧
      access.swizzle = slot.swizzle.toList ∧
      -- A larger array has no places for unsigned integers.
      (r.names.length ≤ UInt32.size →
        access.element = some (registerName m slot.register).toList)

/-- **Registers are laid out without overlap, and the code finds them.**  Exactly the properties that
are animated on some mesh have slots; no component is taken twice, and each holds the default of the
property that takes it or zero; and for each mesh the code of a property takes the register that the
property has on that mesh. -/
theorem serves_of_allocate {s : Shader} {animated : Table Nat NameSet} {meshes : Range}
    (hallocate : allocate s animated meshes = .ok r) :
    r.meshes = meshes ∧ r.Serves s (animated.values.flatMap (·.keys)) ∧
      ∀ name, r.slots.contains name = true ↔
        ∃ mesh names, animated.get? mesh = some names ∧ names.contains name = true := by
  obtain ⟨hmeshes, hpacks, hcount⟩ := packs_allocate hallocate
  refine ⟨hmeshes, ⟨hpacks, hcount, ?_, ?_⟩, fun name =>
    (hpacks.named name).trans mem_flatMap_keys⟩
  · intro m hm name slot hslot
    exact getElem?_names hm (hpacks.placed name slot hslot).1
  · intro m hm name slot hslot mesh hmesh
    have hregister := (hpacks.placed name slot hslot).1
    have haccess := access?_valueExpression hslot hm hregister hmesh
    obtain ⟨expression, hexpression, hsome⟩ := Option.bind_eq_some_iff.1 haccess
    refine ⟨expression, _, hexpression, hsome, rfl, rfl, fun hsize => ?_⟩
    have hget := getElem?_names hm hregister
    obtain ⟨hlt, -⟩ := List.getElem?_eq_some_iff.1 hget
    have hindex : (UInt32.ofNat ((m - r.meshes.first) * r.perMesh + slot.register)).toNat
        = (m - r.meshes.first) * r.perMesh + slot.register :=
      UInt32.toNat_ofNat_of_lt' (Nat.lt_of_lt_of_le hlt hsize)
    dsimp only
    rw [hindex, List.getElem?_map, hget]
    rfl

/-- Two numbers and a color. -/
def numbersAroundColor : Shader :=
  [Property.plain "_A" .float "0.5", Property.plain "_B" .float "2.0",
    Property.plain "_C" .color "float4(1.0, 0.0, 0.0, 1.0)"].foldl Shader.insertProperty Shader.empty

/-- One number and the color are animated on the first mesh, and the other number on the second. -/
def animatedAroundColor : Table Nat NameSet :=
  (Table.insert ∅ 0 (.ofNames ["_A", "_C"])).insert 1 (.ofNames ["_B"])

/-- The second number shares the register of the first one, with the register of the color in between
them in the order of the allocation. -/
theorem serves_of_numbersAroundColor : ∃ r,
    allocate numbersAroundColor animatedAroundColor ⟨0, 2⟩ = .ok r ∧ r.perMesh = 2 ∧
    r.slots.get? "_B" = some ⟨0, some 1⟩ ∧
    r.Serves numbersAroundColor (animatedAroundColor.values.flatMap (·.keys)) := by
  have hcheck : (allocate numbersAroundColor animatedAroundColor ⟨0, 2⟩).toOption.any (fun r =>
      decide (r.perMesh = 2 ∧ r.slots.get? "_B" = some ⟨0, some 1⟩)) = true := by
    decide +kernel
  obtain ⟨r, hallocate, hr⟩ := exists_ok_of_any hcheck
  obtain ⟨hcount, hslot⟩ := of_decide_eq_true hr
  exact ⟨r, hallocate, hcount, hslot, (serves_of_allocate hallocate).2.1⟩

end Registers

end ShaderMerge.Variant
