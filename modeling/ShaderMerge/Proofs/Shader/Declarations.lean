import Mathlib.Data.List.Induction
import ShaderMerge.Proofs.Shader.Layout
import ShaderMerge.Proofs.Table

/-!
# The properties of a model

A model is given the properties of its builder one by one, and then the uses of properties by commands.
`Shader.IsIndexed` is what the table of the properties says after each of these steps: a name stands for
the last declaration of it.  What a use adds to a property is never lost (`Shader.Marks`).
-/

namespace ShaderMerge

/-! ## Names and types -/

/-- What a use of a property leaves alone. -/
def Property.shape (p : Property) : String × PropertyType := (p.name, p.type)

theorem AreAccompanied.of_shape {properties properties' : List Property} (h : AreAccompanied properties)
    (hshape : properties'.map Property.shape = properties.map Property.shape) :
    AreAccompanied properties' := by
  have hget : ∀ i : Nat, properties'[i]?.map Property.shape = properties[i]?.map Property.shape := by
    intro i
    rw [← List.getElem?_map, ← List.getElem?_map, hshape]
  intro i p hp htexture
  have hi := hget i
  rw [hp, Option.map_some, eq_comm, Option.map_eq_some_iff] at hi
  obtain ⟨q, hq, hsame⟩ := hi
  obtain ⟨hname, htype⟩ := Prod.mk.inj hsame
  obtain ⟨companion, hcompanion, hcompanionName, hvector⟩ := h i q hq (htype ▸ htexture)
  have hnext := hget (i + 1)
  rw [hcompanion, Option.map_some, Option.map_eq_some_iff] at hnext
  obtain ⟨companion', hcompanion', hsame'⟩ := hnext
  obtain ⟨hname', htype'⟩ := Prod.mk.inj hsame'
  exact ⟨companion', hcompanion', by rw [hname', hcompanionName, hname], htype'.trans hvector⟩

theorem NameSet.isEmpty_add (names : NameSet) (name : String) : (names.add name).isEmpty = false := by
  have hget : (names.add name).get? name = some () := by
    rw [NameSet.add, Table.get?_insert, if_pos rfl]
  rw [Table.isEmpty, List.isEmpty_eq_false_iff]
  intro hnil
  rw [Table.get?, hnil] at hget
  cases hget

namespace Shader

variable {shader : Shader}

/-! ## The table of the properties -/

/-- The names of the properties in order. -/
def names (shader : Shader) : List String := shader.properties.map Property.name

/-- Whether a place is the last one of a name. -/
def IsLastOf (names : List String) (name : String) (i : Nat) : Prop :=
  names[i]? = some name ∧ ∀ j : Nat, i < j → names[j]? ≠ some name

theorem isLastOf_concat (names : List String) (last name : String) (i : Nat) :
    IsLastOf (names ++ [last]) name i ↔
      if name = last then i = names.length else IsLastOf names name i := by
  have hlast : (names ++ [last])[names.length]? = some last := List.getElem?_concat_length
  have hbehind : ∀ j : Nat, names.length < j → (names ++ [last])[j]? = none := by
    intro j hj
    rw [List.getElem?_eq_none_iff, List.length_append, List.length_singleton]
    exact hj
  rw [IsLastOf]
  split
  · rename_i hname
    constructor
    · rintro ⟨hi, hothers⟩
      rcases Nat.lt_trichotomy i names.length with hlt | heq | hgt
      · exact absurd (hname ▸ hlast) (hothers _ hlt)
      · exact heq
      · rw [hbehind i hgt] at hi
        cases hi
    · rintro rfl
      refine ⟨hname ▸ hlast, fun j hj => ?_⟩
      rw [hbehind j hj]
      nofun
  · rename_i hname
    have hsame : ∀ j : Nat, (names ++ [last])[j]? = some name ↔ names[j]? = some name := by
      intro j
      rcases Nat.lt_trichotomy j names.length with hlt | rfl | hgt
      · rw [List.getElem?_append_left hlt]
      · rw [hlast, List.getElem?_eq_none (Nat.le_refl _), Option.some_inj]
        exact iff_of_false (fun heq => hname heq.symm) nofun
      · rw [hbehind j hgt, List.getElem?_eq_none (Nat.le_of_lt hgt)]
    simp only [ne_eq, hsame, IsLastOf]

theorem exists_isLastOf {names : List String} {name : String} (h : name ∈ names) :
    ∃ i, IsLastOf names name i := by
  induction names using List.reverseRecOn with
  | nil => cases h
  | append_singleton names last ih =>
    simp only [isLastOf_concat]
    by_cases hname : name = last
    · exact ⟨names.length, by rw [if_pos hname]⟩
    · rcases List.mem_append.1 h with h | h
      · obtain ⟨i, hi⟩ := ih h
        exact ⟨i, by rwa [if_neg hname]⟩
      · exact absurd (List.mem_singleton.1 h) hname

/-- Whether the table gives for each name that is declared the place of its last declaration, and has no
other names. -/
def IsIndexed (shader : Shader) : Prop :=
  ∀ name i, shader.places.get? name = some i ↔ IsLastOf shader.names name i

theorem IsIndexed.insertProperty (h : shader.IsIndexed) (p : Property) :
    (shader.insertProperty p).IsIndexed := by
  intro name i
  rw [names, Shader.insertProperty, Table.get?_insert, List.map_append, List.map_singleton,
    isLastOf_concat, List.length_map]
  split
  · rw [Option.some_inj, eq_comm]
  · exact h name i

theorem isIndexed_insertAll (h : shader.IsIndexed) (properties : List Property) :
    (properties.foldl Shader.insertProperty shader).IsIndexed ∧
      (properties.foldl Shader.insertProperty shader).properties = shader.properties ++ properties := by
  induction properties generalizing shader with
  | nil => exact ⟨h, (List.append_nil _).symm⟩
  | cons p rest ih =>
    obtain ⟨hindexed, hproperties⟩ := ih (h.insertProperty p)
    refine ⟨hindexed, ?_⟩
    rw [List.foldl_cons, hproperties, Shader.insertProperty, List.append_assoc]
    rfl

/-! ## Uses -/

/-- A model with more uses of its properties noted, those in a list among them. -/
structure Marks (shader after : Shader) (sites : List (String × String)) : Prop where
  places : after.places = shader.places
  shapes : after.properties.map Property.shape = shader.properties.map Property.shape
  kept : ∀ (i : Nat) p q, shader.properties[i]? = some p → after.properties[i]? = some q →
    p.sites.isEmpty = false → q.sites.isEmpty = false
  marked : ∀ name site, (name, site) ∈ sites → ∀ i q, shader.places.get? name = some i →
    after.properties[i]? = some q → q.sites.isEmpty = false

theorem marks_addSite (shader : Shader) (name site : String) :
    Marks shader (shader.addSite name site) [(name, site)] := by
  rw [addSite]
  split
  · rename_i hnone
    refine ⟨rfl, rfl, fun i p q hp hq hsites => ?_, fun other _ hmem i q hi => ?_⟩
    · rw [hp] at hq
      cases hq
      exact hsites
    · cases List.mem_singleton.1 hmem
      rw [hnone] at hi
      cases hi
  · rename_i place hplace
    refine ⟨rfl, ?_, fun i p q hp hq hsites => ?_, fun other _ hmem i q hi hq => ?_⟩
    · dsimp only
      refine List.ext_getElem? fun i => ?_
      rw [List.getElem?_map, List.getElem?_map, List.getElem?_modify]
      cases shader.properties[i]? with
      | none => rfl
      | some p =>
        split <;> rfl
    · rw [List.getElem?_modify, hp] at hq
      cases hq
      split
      · exact NameSet.isEmpty_add _ _
      · exact hsites
    · cases List.mem_singleton.1 hmem
      rw [hplace] at hi
      cases hi
      rw [List.getElem?_modify] at hq
      obtain ⟨p, -, heq⟩ := Option.map_eq_some_iff.1 hq
      rw [if_pos rfl] at heq
      rw [← heq]
      exact NameSet.isEmpty_add _ _

theorem marks_addSites (shader : Shader) (sites : List (String × String)) :
    Marks shader (sites.foldl (fun shader (name, site) => shader.addSite name site) shader) sites := by
  induction sites generalizing shader with
  | nil =>
    refine ⟨rfl, rfl, fun i p q hp hq hsites => ?_, nofun⟩
    rw [List.foldl_nil, hp] at hq
    cases hq
    exact hsites
  | cons entry rest ih =>
    obtain ⟨name, site⟩ := entry
    rw [List.foldl_cons]
    have hfirst := marks_addSite shader name site
    have hrest := ih (shader.addSite name site)
    dsimp only
    generalize rest.foldl (fun shader (name, site) => shader.addSite name site)
      (shader.addSite name site) = after at hrest ⊢
    -- Each property has a counterpart behind the first use.
    have hmiddle : ∀ (i : Nat) q, after.properties[i]? = some q →
        ∃ m, (shader.addSite name site).properties[i]? = some m := by
      intro i q hq
      have hlength := congrArg List.length hrest.shapes
      rw [List.length_map, List.length_map] at hlength
      exact ⟨_, List.getElem?_eq_getElem (hlength ▸ (List.getElem?_eq_some_iff.1 hq).1)⟩
    refine ⟨hrest.places.trans hfirst.places, hrest.shapes.trans hfirst.shapes,
      fun i p q hp hq hsites => ?_, fun other use hmem i q hi hq => ?_⟩
    · obtain ⟨m, hm⟩ := hmiddle i q hq
      exact hrest.kept i m q hm hq (hfirst.kept i p m hp hm hsites)
    · rcases List.mem_cons.1 hmem with heq | hmem
      · cases heq
        obtain ⟨m, hm⟩ := hmiddle i q hq
        exact hrest.kept i m q hm hq
          (hfirst.marked name site (List.mem_singleton_self _) i m hi hm)
      · exact hrest.marked other use hmem i q (hfirst.places ▸ hi) hq

/-! ## Names on which materials must agree -/

theorem contains_namesToAgree_iff {name : String} : shader.namesToAgree.contains name = true ↔
    ∃ p ∈ shader.properties, shader.mustAgree p = true ∧ p.name = name := by
  rw [namesToAgree, NameSet.ofNames, NameSet.contains_addAll]
  simp only [List.mem_map, List.mem_filter, and_assoc]
  exact or_iff_right Bool.false_ne_true

theorem Marks.names {after : Shader} {sites : List (String × String)} (h : Marks shader after sites) :
    after.names = shader.names := by
  have hshapes := congrArg (List.map Prod.fst) h.shapes
  rw [List.map_map, List.map_map] at hshapes
  exact hshapes

/-- Materials must agree on a property that a command uses. -/
theorem Marks.contains_namesToAgree {after : Shader} {sites : List (String × String)}
    (h : Marks shader after sites) (hindexed : shader.IsIndexed) {name site : String}
    (hsite : (name, site) ∈ sites) (hname : name ∈ after.names) :
    after.namesToAgree.contains name = true := by
  rw [h.names] at hname
  obtain ⟨i, hi⟩ := exists_isLastOf hname
  have hplace := (hindexed name i).2 hi
  have hget := hi.1
  rw [← h.names, Shader.names, List.getElem?_map, Option.map_eq_some_iff] at hget
  obtain ⟨p, hp, hpname⟩ := hget
  refine contains_namesToAgree_iff.2 ⟨p, List.mem_of_getElem? hp, ?_, hpname⟩
  rw [mustAgree, h.marked name site hsite i p hplace hp, Bool.not_false, Bool.or_true, Bool.true_or]

end Shader

end ShaderMerge
