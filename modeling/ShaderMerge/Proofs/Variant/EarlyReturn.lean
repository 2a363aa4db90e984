import ShaderMerge.Proofs.Variant.VertexHeader

/-!
# Leaving a vertex stage early

Where meshes may be switched off, a vertex stage tests the flag of its mesh first and leaves
without doing its work if it is off.  What it gives back then must be defined: a value if the
function returns one, and the outputs among its parameters if it does not
(`EntryPoint.leavesEarly_of_adapt`).
-/

namespace ShaderMerge.Variant

open SignatureEdit
open Signature (Header)

namespace EntryPoint

variable {p : Plan} {s : Signature} {lines : List String} {e : EntryPoint} {header : Header}

/-! ## The prologue -/

/-- The line that sets a parameter to zero. -/
def zeroing (q : Parameter) : String := q.name ++ " = (" ++ q.type ++ ")0;"

/-- The lines that leave a stage if the flag of its mesh is off: the flags of the meshes from a
first one on, the test, and what is done before a value or nothing is returned. -/
def leaving (flags : List String) (first : Nat) (zeros : List String) (value : Option String) :
    List String :=
  ["float optimizerMeshActive[" ++ toString flags.length ++ "] = \x7b "
      ++ String.intercalate ", " flags ++ " \x7d;",
    "if (optimizerMeshActive[meshID - " ++ toString first ++ "] < 0.5)", "\x7b"]
    ++ zeros ++ [(value.map fun type => "return (" ++ type ++ ")0;").getD "return;", "\x7d"]

/-- The flags of meshes in order. -/
def flagsOf (meshes : Range) : List String :=
  meshes.toList.map fun mesh => "_IsActiveMesh" ++ toString mesh

theorem length_flagsOf (meshes : Range) : (flagsOf meshes).length = meshes.size := by
  rw [flagsOf, Range.toList, List.length_map, List.length_map, List.length_range]

theorem getElem?_flagsOf {meshes : Range} {mesh : Nat} (hfirst : meshes.first ≤ mesh)
    (hstop : mesh < meshes.stop) :
    (flagsOf meshes)[mesh - meshes.first]? = some ("_IsActiveMesh" ++ toString mesh) := by
  have hlt : mesh - meshes.first < meshes.size := by
    rw [Range.size]
    omega
  rw [flagsOf, Range.toList, List.getElem?_map, List.getElem?_map, List.getElem?_range hlt,
    Option.map_some, Option.map_some, Nat.add_sub_cancel' hfirst]

/-- The outputs among the parameters, without arrays, are set to zero. -/
def zeros (s : Signature) : List String :=
  (s.parameters.filter fun q => q.modifiers.contains "out" && q.arraySize.isNone).map zeroing

theorem toggleLines_eq (s : Signature) (returnType : String) (meshes : Range) :
    toggleLines s returnType meshes = if returnType = "void"
      then leaving (flagsOf meshes) meshes.first (zeros s) none
      else leaving (flagsOf meshes) meshes.first [] (some returnType) := by
  have hflags : toggleLines s returnType meshes
      = ["float optimizerMeshActive[" ++ toString (flagsOf meshes).length ++ "] = \x7b "
          ++ String.intercalate ", " (flagsOf meshes) ++ " \x7d;",
        "if (optimizerMeshActive[meshID - " ++ toString meshes.first ++ "] < 0.5)", "\x7b"]
        ++ earlyReturn s returnType ++ ["\x7d"] := by
    rw [length_flagsOf]
    rfl
  rw [hflags]
  dsimp only [earlyReturn]
  split
  · rw [← List.append_assoc, List.append_assoc]
    rfl
  · rfl

/-- A vertex stage that is written anew ends its prologue with the lines that leave early. -/
theorem prologue_of_vertex {meshes : Range} (h : vertex p s lines = .ok e)
    (htoggled : p.toggled = some meshes) : e.prologue
      = ["optimizerPackedID = (uint)optimizerPackedUV.x;"]
        ++ (if p.carries && (wrapper? p).isNone then ["optimizerPackedIDOut = optimizerPackedID;"]
          else [])
        ++ decodeLines ++ toggleLines s (returned p s) meshes := by
  rw [vertex_eq, htoggled] at h
  split at h
  · cases h
  · cases h
    rfl

theorem zeroing_mem_zeros {q : Parameter} (hq : q ∈ s.parameters) (hout : "out" ∈ q.modifiers)
    (hsize : q.arraySize = none) : zeroing q ∈ zeros s := by
  refine List.mem_map_of_mem (List.mem_filter.2 ⟨hq, ?_⟩)
  rw [hsize, Bool.and_eq_true]
  exact ⟨List.contains_iff_mem.2 hout, rfl⟩

theorem exists_of_mem_zeros {line : String} (h : line ∈ zeros s) :
    ∃ q ∈ s.parameters, "out" ∈ q.modifiers ∧ line = zeroing q := by
  obtain ⟨q, hq, rfl⟩ := List.mem_map.1 h
  obtain ⟨hmem, hkind⟩ := List.mem_filter.1 hq
  exact ⟨q, hmem, List.contains_iff_mem.1 (Bool.and_eq_true_iff.1 hkind).1, rfl⟩

/-- Whether a vertex stage that is written anew leaves early where the flag of its mesh is off.
Its prologue ends with the test of the flag, which is the one of the number of the mesh.  Behind
the test it returns a value exactly if the function that is written returns one, and sets the
outputs if not. -/
def LeavesEarly (p : Plan) (s : Signature) (meshes : Range) (e : EntryPoint) : Prop :=
  ∃ before flags zeros value header,
    e.prologue = before ++ leaving flags meshes.first zeros value ∧
    (flags.length = meshes.size ∧ ∀ mesh, meshes.first ≤ mesh → mesh < meshes.stop →
      flags[mesh - meshes.first]? = some ("_IsActiveMesh" ++ toString mesh)) ∧
    (header? e.signature = some header ∧ String.ofList header.name = s.name ∧
      (value.isSome = true ↔ header.returnType ≠ "void".toList) ∧ ∀ type ∈ value, type = returned p s) ∧
    -- The output that hands the packed number on is not zero: it is set in front of the test.
    (header.returnType = "void".toList →
      (∀ q ∈ s.parameters, "out" ∈ q.modifiers → q.arraySize = none → zeroing q ∈ zeros) ∧
      (p.carries = true → wrapper? p = none → "optimizerPackedIDOut = optimizerPackedID;" ∈ before)) ∧
    ∀ line ∈ zeros, ∃ q ∈ s.parameters, "out" ∈ q.modifiers ∧ line = zeroing q

/-- **A vertex stage whose meshes may be switched off leaves early.**  It gives back a value
exactly if the function that is written returns one.  If it returns nothing, every output that is
no array is zero then, and the packed number has been set before. -/
theorem leavesEarly_of_adapt {meshes : Range} (hread : read? lines = some s)
    (h : adapt .vertex p lines = .ok e) (htoggled : p.toggled = some meshes) :
    LeavesEarly p s meshes e := by
  have hvertex : vertex p s (clearVoid lines) = .ok e := ofSignature_of_adapt hread h
  obtain ⟨header, hheader, hname, hvoid⟩ := exists_header?_of_vertex hread hvertex
  have hprologue := prologue_of_vertex hvertex htoggled
  have hflags : (flagsOf meshes).length = meshes.size ∧ ∀ mesh, meshes.first ≤ mesh →
      mesh < meshes.stop →
        (flagsOf meshes)[mesh - meshes.first]? = some ("_IsActiveMesh" ++ toString mesh) :=
    ⟨length_flagsOf meshes, fun mesh => getElem?_flagsOf⟩
  by_cases hreturned : returned p s = "void"
  · rw [toggleLines_eq, if_pos hreturned] at hprologue
    refine ⟨_, flagsOf meshes, zeros s, none, header, hprologue, hflags, ⟨hheader, hname, ?_, nofun⟩,
      fun _ => ⟨fun q => zeroing_mem_zeros, fun hcarries hwrapper => ?_⟩,
      fun line => exists_of_mem_zeros⟩
    · exact iff_of_false nofun fun hne => hne (hvoid.2 hreturned)
    · simp [hcarries, hwrapper]
  · rw [toggleLines_eq, if_neg hreturned] at hprologue
    refine ⟨_, flagsOf meshes, [], some (returned p s), header, hprologue, hflags,
      ⟨hheader, hname, ?_, ?_⟩, fun hnothing => absurd (hvoid.1 hnothing) hreturned, nofun⟩
    · exact iff_of_true rfl fun hnothing => hreturned (hvoid.1 hnothing)
    · rintro type ⟨⟩
      rfl

/-- A plan in which several meshes may be switched off. -/
def toggling : Plan := ⟨true, true, 7, some ⟨0, 2⟩, none, none, false⟩

/-- A vertex stage that returns nothing and has two outputs. -/
def twoOutputs : List String :=
  ["void vert(float4 p : POSITION,", "out float2 uv : TEXCOORD0, out float4 pos : SV_Position)"]

theorem leavesEarly_of_twoOutputs : ∃ s e, read? twoOutputs = some s ∧
    adapt .vertex toggling twoOutputs = .ok e ∧ toggling.toggled = some ⟨0, 2⟩ ∧
    LeavesEarly toggling s ⟨0, 2⟩ e ∧ e.prologue = [
      "optimizerPackedID = (uint)optimizerPackedUV.x;",
      "optimizerPackedIDOut = optimizerPackedID;",
      "materialID = optimizerPackedID & 0xFFF;",
      "meshID = optimizerPackedID >> 12;",
      "float optimizerMeshActive[2] = \x7b _IsActiveMesh0, _IsActiveMesh1 \x7d;",
      "if (optimizerMeshActive[meshID - 0] < 0.5)",
      "\x7b", "uv = (float2)0;", "pos = (float4)0;", "return;", "\x7d"] := by
  have hread : (read? twoOutputs).isSome = true := by decide +kernel
  obtain ⟨s, hread⟩ := Option.isSome_iff_exists.1 hread
  have hprologue : (adapt .vertex toggling twoOutputs).toOption.map (·.prologue) = some [
      "optimizerPackedID = (uint)optimizerPackedUV.x;",
      "optimizerPackedIDOut = optimizerPackedID;",
      "materialID = optimizerPackedID & 0xFFF;",
      "meshID = optimizerPackedID >> 12;",
      "float optimizerMeshActive[2] = \x7b _IsActiveMesh0, _IsActiveMesh1 \x7d;",
      "if (optimizerMeshActive[meshID - 0] < 0.5)",
      "\x7b", "uv = (float2)0;", "pos = (float4)0;", "return;", "\x7d"] := by
    decide +kernel
  cases hadapt : adapt .vertex toggling twoOutputs with
  | error fault =>
    rw [hadapt] at hprologue
    cases hprologue
  | ok e =>
    rw [hadapt] at hprologue
    exact ⟨s, e, hread, rfl, rfl, leavesEarly_of_adapt hread hadapt rfl, Option.some.inj hprologue⟩

/-- Whether some line of a prologue has the name of a parameter in it. -/
def IsNamed (e : EntryPoint) (q : Parameter) : Prop :=
  ∃ line ∈ e.prologue, q.name.toList <:+: line.toList

instance (e : EntryPoint) (q : Parameter) : Decidable (IsNamed e q) :=
  inferInstanceAs (Decidable (∃ line ∈ e.prologue, _))

/-- An output that is an array is not set, and neither is any output of a function that returns a
value. -/
theorem not_isNamed_of_outputs :
    (∃ s ∈ read? ["void vert(float4 p : POSITION, out float4 uv[2] : TEXCOORD0)"],
      ∃ e ∈ (adapt .vertex toggling
        ["void vert(float4 p : POSITION, out float4 uv[2] : TEXCOORD0)"]).toOption,
      ∃ q ∈ s.parameters, "out" ∈ q.modifiers ∧ q.arraySize = some "2" ∧ ¬IsNamed e q) ∧
    ∃ s ∈ read? ["float4 vert(float4 p : POSITION, out float4 uv : TEXCOORD0) : SV_Position"],
      ∃ e ∈ (adapt .vertex toggling
        ["float4 vert(float4 p : POSITION, out float4 uv : TEXCOORD0) : SV_Position"]).toOption,
      ∃ q ∈ s.parameters, "out" ∈ q.modifiers ∧ ¬IsNamed e q := by
  decide +kernel

end EntryPoint

end ShaderMerge.Variant
