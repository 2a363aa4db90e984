import ShaderMerge.Property.Default
import ShaderMerge.Shader.Model
import ShaderMerge.Variant.Options

/-!
# Registers of animated properties

Animated properties are packed into registers of four floats, the same ones for every mesh.  A
vector takes a register, and four numbers share one.  `Registers.allocate` goes through the
animated properties by mesh and by name, and `Registers.prologue` with
`Registers.valueExpression?` gives the code that reads the registers of the mesh being drawn.
-/

namespace ShaderMerge.Variant

/-- The place of an animated property. -/
structure Slot where
  /-- The register. -/
  register : Nat
  /-- The component of a number; a vector takes them all. -/
  component : Option (Fin 4)
deriving DecidableEq, Repr

/-- The text that selects the component of a slot. -/
def Slot.swizzle (s : Slot) : String :=
  match s.component with
  | none => ""
  | some 0 => ".x"
  | some 1 => ".y"
  | some 2 => ".z"
  | some 3 => ".w"

/-- The registers of the animated properties. -/
structure Registers where
  /-- The meshes that have the registers. -/
  meshes : Range
  /-- The number of registers of one mesh. -/
  perMesh : Nat
  /-- The places of the properties. -/
  slots : Table String Slot
  /-- The content of the registers of a mesh by default. -/
  defaults : List Vector4
deriving DecidableEq

namespace Registers

/-- Whether no property is animated. -/
def isEmpty (r : Registers) : Bool := r.slots.isEmpty

/-! ## Allocation -/

/-- The registers in front of the first property: there are none. -/
def start (meshes : Range) : Registers := ⟨meshes, 0, ∅, []⟩

/-- One more register on each mesh, zero by default. -/
def claim (r : Registers) : Registers :=
  { r with perMesh := r.perMesh + 1, defaults := r.defaults ++ [.zero] }

/-- Give a property a slot, and change the default of its register. -/
def place (r : Registers) (name : String) (slot : Slot) (change : Vector4 → Vector4) : Registers :=
  { r with
    slots := r.slots.insert name slot
    defaults := r.defaults.modify slot.register change }

/-- An allocation under way: the registers so far, and the next free component of the register
that numbers share, if it has one. -/
structure Allocation where
  /-- The registers so far. -/
  registers : Registers
  /-- The register of the last number, and the component behind it. -/
  free : Option (Nat × Fin 4)

/-- Take a register of its own for a vector. -/
def Allocation.addVector (a : Allocation) (name : String) (default : Vector4) : Allocation :=
  let register := a.registers.perMesh
  { a with registers := a.registers.claim.place name ⟨register, none⟩ fun _ => default }

/-- The registers with the next component for a number: the free one, or the first one of a new
register if there is none. -/
def Allocation.next (a : Allocation) : Registers × Nat × Fin 4 :=
  match a.free with
  | some (register, component) => (a.registers, register, component)
  | none => (a.registers.claim, a.registers.perMesh, 0)

/-- Take the next component for a number. -/
def Allocation.addNumber (a : Allocation) (name : String) (default : Binary32) : Allocation :=
  let (r, register, component) := a.next
  { registers := r.place name ⟨register, some component⟩ (·.set component default)
    free := if component = 3 then none else some (register, component + 1) }

/-- Take the place of one property, unless it has one. -/
def Allocation.add (s : Shader) (a : Allocation) (name : String) :
    Except VariantError Allocation :=
  if a.registers.slots.contains name then .ok a
  else
    match s.property? name with
    | none => .error (.unknownProperty name)
    | some p =>
      let default := PropertyDefault.components p.default
      if p.type.isScalar then .ok (a.addNumber name default.x)
      else if p.type.isVector then .ok (a.addVector name default)
      else .error (.notAnimatable name p.type)

/-- The registers for the animated properties of the meshes. -/
def allocate (s : Shader) (animated : Table Nat NameSet) (meshes : Range) :
    Except VariantError Registers :=
  ((animated.values.flatMap (·.keys)).foldlM (Allocation.add s) ⟨.start meshes, none⟩).map
    (·.registers)

/-! ## Code -/

/-- The name of a register of a mesh. -/
def registerName (mesh register : Nat) : String :=
  "_OptimizerAnimated" ++ toString mesh ++ "_" ++ toString register

/-- The registers of all meshes, those of one mesh together. -/
def places (r : Registers) : List (Nat × Nat) :=
  r.meshes.toList.flatMap fun mesh => (List.range r.perMesh).map (mesh, ·)

/-- The names of the registers of all meshes. -/
def names (r : Registers) : List String := r.places.map fun p => registerName p.1 p.2

/-- The declarations of the registers in code. -/
def uniforms (r : Registers) : List String := r.names.map fun name => "float4 " ++ name ++ ";"

/-- The declaration of a register as a property. -/
def propertyLine (r : Registers) (mesh register : Nat) : String :=
  let default := r.defaults[register]?.getD .zero
  "[HideInInspector] " ++ registerName mesh register ++ " (\"Optimizer Animated "
    ++ toString mesh ++ " " ++ toString register ++ "\", Vector) = ("
    ++ String.intercalate ", " (default.components.map NumberLayout.plain.text) ++ ")"

/-- The names of the registers with their declarations as properties. -/
def propertyLines (r : Registers) : List (String × String) :=
  r.places.map fun p => (registerName p.1 p.2, r.propertyLine p.1 p.2)

/-- The code that finds the registers of the mesh being drawn, given the expression for the
number of the mesh. -/
def prologue (r : Registers) (mesh : String) : List String :=
  if r.isEmpty then []
  else
    ["float4 optimizerAnimatedRegisters[" ++ toString (r.meshes.size * r.perMesh) ++ "] = \x7b "
        ++ String.intercalate ", " r.names ++ " \x7d;",
      "uint optimizerAnimatedBase = (" ++ mesh ++ " - " ++ toString r.meshes.first ++ ") * "
        ++ toString r.perMesh ++ ";"]

/-- The expression for an animated property of the mesh being drawn. -/
def valueExpression? (r : Registers) (name : String) : Option String :=
  (r.slots.get? name).map fun slot =>
    "optimizerAnimatedRegisters[optimizerAnimatedBase + " ++ toString slot.register ++ "]"
      ++ slot.swizzle

end Registers

end ShaderMerge.Variant
