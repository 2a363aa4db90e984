import Mathlib.Data.List.Flatten
import Mathlib.Data.List.Nodup
import ShaderMerge.Proofs.Variant.PropertyLists

/-!
# The names of the properties of a variant

A variant renames a texture that it serves from an array, and makes up the names of the properties that
it adds.  If the names in the block of the sources are distinct, and none of them is one that the variant
makes up (`IsDistinct`), then the names in the block of the variant are distinct too
(`nodup_names`).  Each of them is then on one list and once (`count_namesOf`).
-/

namespace ShaderMerge.Variant

open Position (start)

/-! ## Names that are made up -/

theorem toString_injective {n m : Nat} (h : toString n = toString m) : n = m := by
  have hvalue := Selection.digitsValue_toString n
  rw [h, Selection.digitsValue_toString] at hvalue
  exact hvalue.symm

/-- The two numbers in the name of a register stand apart. -/
theorem registerName_injective {mesh register mesh' register' : Nat}
    (h : Registers.registerName mesh register = Registers.registerName mesh' register') :
    (mesh, register) = (mesh', register') := by
  have hread : ∀ mesh register : Nat, Text.until? '_'
      ((toString mesh).toList ++ '_' :: (toString register).toList)
      = some ((toString mesh).toList, (toString register).toList) :=
    fun mesh register => Text.until?_append (Selection.notMem_toString (by decide)) _
  have hchars := congrArg String.toList h
  unfold Registers.registerName at hchars
  have hmark : "_".toList = ['_'] := by decide
  simp only [String.toList_append, List.append_assoc, List.append_cancel_left_eq, hmark,
    List.singleton_append] at hchars
  have hsome := hread mesh register
  rw [hchars, hread mesh' register', Option.some_inj, Prod.mk.injEq, String.toList_inj,
    String.toList_inj] at hsome
  rw [toString_injective hsome.1, toString_injective hsome.2]

theorem nodup_toList (range : Range) : range.toList.Nodup :=
  List.Nodup.map_on (fun _ _ _ _ h => Nat.add_left_cancel h) List.nodup_range

theorem nodup_names_registers (r : Registers) : r.names.Nodup := by
  refine List.Nodup.map_on ?_ ((nodup_toList r.meshes).product List.nodup_range)
  rintro ⟨mesh, register⟩ - ⟨mesh', register'⟩ - h
  exact registerName_injective h

namespace Request

variable {r : Request} {source : List String}

/-- The name that a property of the shader has in the variant. -/
def rename (r : Request) (name : String) : String :=
  ((r.substitution.texture? name).map (·.arrayName)).getD name

/-- The names that a variant makes up for properties. -/
def generatedNames (r : Request) : List String :=
  r.addedProperties.map (·.name) ++ r.substitution.textures.map (·.arrayName)

theorem map_name_addedProperties (r : Request) : r.addedProperties.map (·.name)
    = ((if 1 < r.options.meshCount then
          r.options.meshes.toList.map fun mesh => "_IsActiveMesh" ++ toString mesh else [])
        ++ if r.substitution.textures.isEmpty then [] else ["_OptimizerZero"])
      ++ r.substitution.registers.names := by
  simp only [addedProperties, List.map_append, Registers.propertyLines, Registers.names, List.map_map,
    apply_ite (List.map AddedProperty.name), List.map_nil, List.map_cons]
  rfl

/-- How the names of added properties start, by their families. -/
theorem take_addedNames (r : Request) :
    (∀ name ∈ (if 1 < r.options.meshCount then
        r.options.meshes.toList.map fun mesh => "_IsActiveMesh" ++ toString mesh else []),
      name.toList.take 11 = "_IsActiveMe".toList) ∧
    (∀ name ∈ (if r.substitution.textures.isEmpty then [] else ["_OptimizerZero"]),
      name.toList.take 11 = "_OptimizerZ".toList) ∧
    ∀ name ∈ r.substitution.registers.names, name.toList.take 11 = "_OptimizerA".toList := by
  refine ⟨?_, ?_, ?_⟩
  · intro name hname
    split at hname
    · obtain ⟨mesh, -, rfl⟩ := List.mem_map.1 hname
      rw [String.toList_append, List.take_append_of_le_length (by decide)]
      decide
    · cases hname
  · intro name hname
    split at hname
    · cases hname
    · rw [List.mem_singleton.1 hname]
      decide
  · intro name hname
    obtain ⟨place, -, rfl⟩ := List.mem_map.1 hname
    unfold Registers.registerName
    simp only [String.toList_append, List.append_assoc]
    rw [List.take_append_of_le_length (by decide)]
    decide

theorem nodup_addedNames (r : Request) : (r.addedProperties.map (·.name)).Nodup := by
  obtain ⟨hswitch, hzero, hregister⟩ := take_addedNames r
  have hdiffer : ∀ {name name' : String}, name.toList.take 11 ≠ name'.toList.take 11 → name ≠ name' := by
    rintro name _ hne rfl
    exact hne rfl
  rw [map_name_addedProperties]
  refine List.nodup_append.2 ⟨List.nodup_append.2 ⟨?_, ?_, ?_⟩, nodup_names_registers _, ?_⟩
  · split
    · refine List.Nodup.map_on ?_ (nodup_toList _)
      intro mesh _ mesh' _ h
      exact toString_injective ((String.append_right_inj _).1 h)
    · exact List.nodup_nil
  · split
    · exact List.nodup_nil
    · exact List.nodup_singleton _
  · intro name hname name' hname'
    apply hdiffer
    rw [hswitch name hname, hzero name' hname']
    decide
  · intro name hname name' hname'
    apply hdiffer
    rw [hregister name' hname']
    rcases List.mem_append.1 hname with hname | hname
    · rw [hswitch name hname]
      decide
    · rw [hzero name hname]
      decide

theorem getLast?_toString (front : List Char) (n : Nat) :
    ∃ c, (front ++ (toString n).toList).getLast? = some c ∧ c.isDigit = true := by
  obtain ⟨d, hd, -⟩ := exists_isMark_toDigits n
  rw [← Text.toList_toString] at hd
  have hne := List.ne_nil_of_mem hd
  refine ⟨_, ?_, Text.isDigit_of_mem_toString (List.getLast_mem hne)⟩
  rw [List.getLast?_append, List.getLast?_eq_some_getLast hne]
  rfl

/-- No added property has the name of a texture array, which ends in a letter of its own. -/
theorem arrayName_notMem_added (r : Request) (texture : SlicedTexture) :
    texture.arrayName ∉ r.addedProperties.map (·.name) := by
  have hlast : texture.arrayName.toList.getLast? = some 'y' := by
    rw [SlicedTexture.arrayName, String.toList_append, List.getLast?_append]
    rfl
  have hdigit : ∀ (front : List Char) (n : Nat),
      texture.arrayName.toList ≠ front ++ (toString n).toList := by
    intro front n heq
    obtain ⟨c, hc, hdigit⟩ := getLast?_toString front n
    rw [← heq, hlast, Option.some_inj] at hc
    rw [← hc] at hdigit
    exact absurd hdigit (by decide)
  rw [map_name_addedProperties]
  intro hmem
  rcases List.mem_append.1 hmem with hmem | hmem
  · rcases List.mem_append.1 hmem with hmem | hmem
    · split at hmem
      · obtain ⟨mesh, -, heq⟩ := List.mem_map.1 hmem
        exact hdigit "_IsActiveMesh".toList mesh (by rw [← heq, String.toList_append])
      · cases hmem
    · split at hmem
      · cases hmem
      · rw [List.mem_singleton.1 hmem] at hlast
        exact absurd hlast (by decide)
  · obtain ⟨⟨mesh, register⟩, -, heq⟩ := List.mem_map.1 hmem
    refine hdigit ("_OptimizerAnimated" ++ toString mesh ++ "_").toList register ?_
    rw [← heq, ← String.toList_append]
    rfl

theorem rename_of_none {name : String} (h : r.substitution.texture? name = none) :
    r.rename name = name := by
  rw [rename, h]
  rfl

theorem rename_of_some {name : String} {texture : SlicedTexture}
    (h : r.substitution.texture? name = some texture) : r.rename name = texture.arrayName := by
  rw [rename, h]
  rfl

theorem arrayName_mem_generated {name : String} {texture : SlicedTexture}
    (h : r.substitution.texture? name = some texture) : texture.arrayName ∈ r.generatedNames :=
  List.mem_append_right _ (List.mem_map_of_mem (List.mem_of_find?_eq_some h))

/-- Two properties have one name in the variant only if one of the names has been made up. -/
theorem rename_inj {names : List String} (h : ∀ name ∈ names, name ∉ r.generatedNames)
    {name name' : String} (hname : name ∈ names) (hname' : name' ∈ names)
    (heq : r.rename name = r.rename name') : name = name' := by
  cases htexture : r.substitution.texture? name with
  | none =>
    rw [rename_of_none htexture] at heq
    cases htexture' : r.substitution.texture? name' with
    | none => rwa [rename_of_none htexture'] at heq
    | some texture =>
      rw [rename_of_some htexture'] at heq
      exact absurd (heq ▸ arrayName_mem_generated htexture') (h name hname)
  | some texture =>
    rw [rename_of_some htexture] at heq
    cases htexture' : r.substitution.texture? name' with
    | none =>
      rw [rename_of_none htexture'] at heq
      exact absurd (heq ▸ arrayName_mem_generated htexture) (h name' hname')
    | some texture' =>
      rw [rename_of_some htexture', SlicedTexture.arrayName, SlicedTexture.arrayName,
        String.append_left_inj] at heq
      rw [← name_of_texture? htexture, ← name_of_texture? htexture', heq]

end Request

/-! ## The names in the block -/

/-- The name of the property that a line declares. -/
def propertyName? (line : String) : Option String :=
  (PropertyLine.ofText? line.toList).map fun declaration => String.ofList declaration.head.name

/-- The names that the block of the properties declares. -/
def blockNames (lines : List String) : List String := (start.listed lines).filterMap propertyName?

/-- A text with one block of properties at most, whose names are distinct and not made up. -/
structure IsDistinct (r : Request) (source : List String) : Prop where
  blocks : (start.after source).blocks ≤ 1
  nodup : (blockNames source).Nodup
  fresh : ∀ name ∈ blockNames source, name ∉ r.generatedNames

instance (r : Request) (source : List String) : Decidable (IsDistinct r source) :=
  decidable_of_iff ((start.after source).blocks ≤ 1 ∧ (blockNames source).Nodup ∧
      ∀ name ∈ blockNames source, name ∉ r.generatedNames)
    ⟨fun h => ⟨h.1, h.2.1, h.2.2⟩, fun h => ⟨h.blocks, h.nodup, h.fresh⟩⟩

/-- A line puts at most the name that it declares on a list, as the variant has it. -/
theorem names_propertyLine (r : Request) (line : String) :
    ((r.propertyLine line).1.map Prod.snd).Sublist ((propertyName? line).toList.map r.rename) := by
  rw [Request.propertyLine, propertyName?]
  split
  · rename_i hnone
    rw [hnone]
    exact List.Sublist.refl _
  · rename_i declaration hsome
    rw [hsome]
    have hsingle : (Option.map (fun declaration : PropertyLine => String.ofList declaration.head.name)
        (some declaration)).toList.map r.rename = [r.rename (String.ofList declaration.head.name)] := rfl
    rw [hsingle]
    dsimp only
    split
    · rename_i texture htexture
      rw [Request.rename_of_some htexture]
      exact List.Sublist.refl _
    · rename_i hnone
      rw [Request.rename_of_none hnone]
      cases PropertyKind.ofTypeWord? (String.ofList declaration.head.typeWord) with
      | none => exact List.nil_sublist _
      | some kind => exact List.Sublist.refl _

theorem names_listed (r : Request) (lines : List String) :
    ((lines.flatMap fun line => (r.propertyLine line).1).map Prod.snd).Sublist
      ((lines.filterMap propertyName?).map r.rename) := by
  rw [List.map_flatMap, List.filterMap_eq_flatMap_toList, List.map_flatMap]
  exact List.Sublist.flatMap_right lines fun line _ => names_propertyLine r line

/-- The names that are renamed and those that are added are distinct. -/
theorem IsDistinct.nodup_names {r : Request} {source : List String} (h : IsDistinct r source) :
    ((blockNames source).map r.rename ++ r.addedProperties.map (·.name)).Nodup := by
  refine List.nodup_append.2 ⟨?_, r.nodup_addedNames, ?_⟩
  · exact List.Nodup.map_on (fun _ hname _ hname' => Request.rename_inj h.fresh hname hname') h.nodup
  · rintro _ hname _ hadded rfl
    obtain ⟨name, hdeclared, heq⟩ := List.mem_map.1 hname
    -- A name that stays is not made up, and a renamed one is that of a texture array.
    rw [← heq] at hadded
    cases htexture : r.substitution.texture? name with
    | none =>
      rw [Request.rename_of_none htexture] at hadded
      exact h.fresh name hdeclared (List.mem_append_left _ hadded)
    | some texture =>
      rw [Request.rename_of_some htexture] at hadded
      exact r.arrayName_notMem_added texture hadded

/-! ## The lists by kinds -/

theorem mem_namesOf {g : GeneratedShader} {kind : PropertyKind} {name : String} :
    name ∈ g.namesOf kind ↔ (kind, name) ∈ g.properties := by
  rw [GeneratedShader.namesOf, List.mem_map]
  constructor
  · rintro ⟨⟨kind', name'⟩, hmem, rfl⟩
    obtain ⟨hmem, hkind⟩ := List.mem_filter.1 hmem
    rwa [← of_decide_eq_true hkind]
  · intro hmem
    exact ⟨(kind, name), List.mem_filter.2 ⟨hmem, decide_eq_true rfl⟩, rfl⟩

/-- A name that is there once is on the list of its kind once, and on no other list. -/
theorem count_of_nodup {g : GeneratedShader} (h : (g.properties.map Prod.snd).Nodup)
    {kind : PropertyKind} {name : String} (hmem : (kind, name) ∈ g.properties)
    (other : PropertyKind) : (g.namesOf other).count name = if other = kind then 1 else 0 := by
  have hnodup : (g.namesOf other).Nodup := List.Nodup.sublist (List.filter_sublist.map Prod.snd) h
  rw [hnodup.count]
  refine if_congr (mem_namesOf.trans ?_) rfl rfl
  constructor
  · intro hother
    have heq := List.inj_on_of_nodup_map h hother hmem rfl
    exact congrArg Prod.fst heq
  · rintro rfl
    exact hmem

/-- **The lists of a variant hold what the block in its main file declares.**  If the names in the block
of the sources are distinct and not made up, then each name is on the list of its kind once, and on no
other list. -/
theorem count_namesOf {shader : Shader} {o : Options} {g : GeneratedShader}
    (hvariant : shader.variant o = .ok g)
    (hsteady : ∀ m ∈ Writer.moments shader o, Writer.IsSteady m) :
    ∃ substitution, Substitution.new shader o = .ok substitution ∧
      g.properties = (start.listed g.main.lines).flatMap declared ∧
      (∀ kind name, name ∈ g.namesOf kind ↔
        ∃ line ∈ start.listed g.main.lines, (kind, name) ∈ declared line) ∧
      (IsDistinct ⟨shader, o, substitution⟩ (liveLines (Writer.moments shader o)) →
        ∀ line ∈ start.listed g.main.lines, ∀ kind name, (kind, name) ∈ declared line →
          ∀ other, (g.namesOf other).count name = if other = kind then 1 else 0) := by
  obtain ⟨substitution, w, walk, hsubstitution, hrun, hend, hfinish⟩ :=
    Writer.writes_moments hvariant
  have hnested := @nested_of_end ⟨shader, o, substitution⟩ _ _ _ _ _ hrun rfl hend
  have hlists := @Writer.lists_run ⟨shader, o, substitution⟩ _ _ _ _ _ _ hrun (Writer.lists_new _)
    hsteady
  rw [List.nil_append] at hlists
  obtain ⟨hdeclared, hsource⟩ := declared_finish hlists hnested hfinish
  refine ⟨substitution, hsubstitution, hdeclared, ?_, ?_⟩
  · intro kind name
    rw [mem_namesOf, hdeclared, List.mem_flatMap]
  · intro hdistinct line hline kind name hmem
    have hnodup : (g.properties.map Prod.snd).Nodup := by
      refine List.Nodup.sublist ?_ hdistinct.nodup_names
      rw [hsource hdistinct.blocks, List.map_append]
      refine (names_listed _ _).append ?_
      split
      · rw [List.map_map]
        exact List.Sublist.refl _
      · exact List.nil_sublist _
    apply count_of_nodup hnodup
    rw [hdeclared]
    exact List.mem_flatMap.2 ⟨line, hline, hmem⟩

/-- A shader whose properties are kept, dropped with a region, served from an array and animated. -/
def mixedProperties : List String :=
  ["Shader \"S\"", "\x7b", "Properties", "\x7b", "_A (\"A\", Float) = 0", "#ifex _A == 0",
    "_B (\"B\", Float) = 0", "#endex", "_MainTex (\"Main\", 2D) = \"white\" \x7b\x7d",
    "_C (\"C\", Color) = (1, 1, 1, 1)", "\x7d", "Pass", "\x7b", "CGPROGRAM", "#pragma vertex vert",
    "#pragma fragment frag", "float4 vert(float4 p : POSITION) : SV_Position \x7b return p; \x7d",
    "float4 frag() : SV_Target \x7b return 1; \x7d", "ENDCG", "\x7d", "\x7d"]

/-- Options that add properties of every family. -/
def everyAddition : Options :=
  { Options.new with
    statics := Table.ofList [("_A", .float .one)]
    textures := Table.ofList [("_MainTex", [some 0])]
    meshes := ⟨0, 2⟩ }.animate 0 "_C"

/-- What is kept and what is added is each on one list and once, and what is dropped is on none. -/
theorem count_namesOf_of_mixedProperties :
    ∃ shader g, Shader.read? (.ofFiles [("a.shader", mixedProperties)]) "a.shader" = .ok shader ∧
      shader.variant everyAddition = .ok g ∧
      g.properties = [(.float, "_A"), (.textureArray, "_MainTex_Array"), (.vector, "_C"),
        (.float, "_IsActiveMesh0"), (.float, "_IsActiveMesh1"), (.float, "_OptimizerZero"),
        (.vector, "_OptimizerAnimated0_0"), (.vector, "_OptimizerAnimated1_0")] ∧
      (∀ m ∈ Writer.moments shader everyAddition, Writer.IsSteady m) ∧
      ∃ substitution, Substitution.new shader everyAddition = .ok substitution ∧
        IsDistinct ⟨shader, everyAddition, substitution⟩
          (liveLines (Writer.moments shader everyAddition)) ∧
        ∀ line ∈ start.listed g.main.lines, ∀ kind name, (kind, name) ∈ declared line →
          ∀ other, (g.namesOf other).count name = if other = kind then 1 else 0 := by
  have hlines : (Project.ofFiles [("a.shader", mixedProperties)]).readLines? "a.shader"
      = some mixedProperties :=
    Project.readLines?_ofFiles (by decide +kernel) (by decide +kernel)
  have hcheck : (Shader.read? (.ofFiles [("a.shader", mixedProperties)]) "a.shader").toOption.any
      (fun shader => decide (∀ m ∈ Writer.moments shader everyAddition, Writer.IsSteady m) &&
        ((shader.variant everyAddition).toOption.any (fun g : GeneratedShader =>
          decide (g.properties = [(.float, "_A"), (.textureArray, "_MainTex_Array"), (.vector, "_C"),
            (.float, "_IsActiveMesh0"), (.float, "_IsActiveMesh1"), (.float, "_OptimizerZero"),
            (.vector, "_OptimizerAnimated0_0"), (.vector, "_OptimizerAnimated1_0")])) &&
        (Substitution.new shader everyAddition).toOption.any fun substitution =>
          decide (IsDistinct ⟨shader, everyAddition, substitution⟩
            (liveLines (Writer.moments shader everyAddition))))) = true := by
    rw [Shader.read?, Include.Sources.load, hlines]
    decide +kernel
  obtain ⟨shader, hread, hshader⟩ := exists_ok_of_any hcheck
  rw [Bool.and_eq_true, Bool.and_eq_true, decide_eq_true_eq] at hshader
  obtain ⟨hsteady, hany, hnew⟩ := hshader
  obtain ⟨g, hvariant, hg⟩ := exists_ok_of_any hany
  obtain ⟨substitution, hsubstitution, hdistinct⟩ := exists_ok_of_any hnew
  rw [decide_eq_true_eq] at hg hdistinct
  obtain ⟨substitution', hsubstitution', -, -, hcount⟩ := count_namesOf hvariant hsteady
  rw [hsubstitution] at hsubstitution'
  cases hsubstitution'
  exact ⟨shader, g, hread, hvariant, hg, hsteady, substitution, hsubstitution, hdistinct,
    hcount hdistinct⟩

end ShaderMerge.Variant
