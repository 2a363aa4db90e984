import Mathlib.Data.Finset.Card
import Mathlib.Data.List.Count
import ShaderMerge.Variant.Selection

/-!
# A selection selects the right value

`Selection.IsFor` says which selections may be chosen for some values of one type, and why each of
them is the right one; the chosen one is among them (`isFor_ofUnified`).  From this alone follow that
it gives every material its value (`IsFor.select_eq`), that it holds no values but theirs, all of one
type (`IsFor.typeName_eq`), and that its shape depends on how often each value occurs and not on the
order of the materials (`HasShape.unique_of_perm`).
-/

namespace ShaderMerge

namespace Variant

theorem length_unify (given : List Value) : (Value.unify given).length = given.length := by
  rw [Value.unify]
  split
  · exact List.length_map ..
  · split
    · exact List.length_map ..
    · rfl

theorem isSome_ofValues? (given : List Value) :
    (Selection.ofValues? given).isSome = !given.isEmpty := by
  have hlength := length_unify given
  rw [Selection.ofValues?, Option.isSome_map]
  cases given with
  | nil => rfl
  | cons value rest =>
    cases hunified : Value.unify (value :: rest) with
    | nil =>
      rw [hunified] at hlength
      cases hlength
    | cons => rfl

namespace Selection

variable {values : List Value} {a b first own v : Value} {i : Nat}

/-! ## Lists of two values -/

theorem nodup_eraseDups (values : List Value) : values.eraseDups.Nodup := by
  induction hlength : values.length using Nat.strongRecOn generalizing values with
  | ind n ih =>
    cases values with
    | nil => exact List.nodup_nil
    | cons v rest =>
      have hle : (rest.filter fun w => !w == v).length ≤ rest.length := List.length_filter_le _ _
      rw [List.length_cons] at hlength
      rw [List.eraseDups_cons, List.nodup_cons]
      exact ⟨by simp, ih _ (by omega) _ rfl⟩

/-- The first value is also the first one without repeats. -/
theorem head?_eraseDups (values : List Value) : values.eraseDups.head? = values.head? := by
  cases values with
  | nil => rfl
  | cons v rest => rw [List.eraseDups_cons, List.head?_cons, List.head?_cons]

theorem card_toFinset (values : List Value) : values.toFinset.card = values.eraseDups.length := by
  have hsame : values.toFinset = values.eraseDups.toFinset := by
    ext v
    simp
  rw [hsame, List.toFinset_card_of_nodup (nodup_eraseDups values)]

/-- Of two values each place has one. -/
theorem count_add_count (hne : a ≠ b) (h : ∀ v ∈ values, v = a ∨ v = b) :
    values.count a + values.count b = values.length := by
  induction values with
  | nil => rfl
  | cons v rest ih =>
    obtain ⟨hv, hrest⟩ := List.forall_mem_cons.1 h
    have hlength := ih hrest
    rw [List.length_cons]
    rcases hv with rfl | rfl
    · rw [List.count_cons_self, List.count_cons_of_ne hne]
      omega
    · rw [List.count_cons_self, List.count_cons_of_ne hne.symm]
      omega

/-- A value that occurs once is at its first place alone. -/
theorem eq_idxOf_of_count (hcount : values.count own = 1) (hi : values[i]? = some own) :
    i = values.idxOf own := by
  induction values generalizing i with
  | nil => cases hi
  | cons v rest ih =>
    by_cases hv : v = own
    · subst hv
      rw [List.count_cons_self] at hcount
      have hnotMem : v ∉ rest := List.count_eq_zero.1 (by omega)
      rw [List.idxOf_cons_self]
      cases i with
      | zero => rfl
      | succ i =>
        rw [List.getElem?_cons_succ] at hi
        exact absurd (List.mem_of_getElem? hi) hnotMem
    · rw [List.count_cons_of_ne hv] at hcount
      rw [List.idxOf_cons_ne rest hv]
      cases i with
      | zero => exact absurd (Option.some.inj hi) hv
      | succ i =>
        rw [List.getElem?_cons_succ] at hi
        rw [ih hcount hi]

theorem getElem?_idxOf_of_mem (h : own ∈ values) : values[values.idxOf own]? = some own := by
  rw [List.getElem?_eq_getElem (List.idxOf_lt_length_iff.2 h), List.getElem_idxOf]

theorem testBit_ofBits (bits : List Bool) (i : Nat) :
    (ofBits bits).testBit i = (bits[i]?).getD false := by
  induction bits generalizing i with
  | nil => simp [ofBits]
  | cons bit rest ih =>
    cases i with
    | zero => cases bit <;> simp [ofBits, Nat.testBit_zero]
    | succ i =>
      rw [List.getElem?_cons_succ, ← ih i, ofBits, Nat.testBit_succ]
      congr 1
      cases bit <;> (simp; try omega)

/-! ## The shape of a selection -/

/-- The four ways of selecting. -/
inductive Shape where
  /-- One value for all. -/
  | uniform
  /-- One material apart from the others. -/
  | singular
  /-- A bit for each material. -/
  | masked
  /-- A constant array. -/
  | indexed
deriving DecidableEq, Repr

/-- The way in which a selection selects. -/
def shape : Selection → Shape
  | uniform _ => .uniform
  | singular .. => .singular
  | masked .. => .masked
  | indexed _ => .indexed

/-- The shape that fits some values: one for all if there is one value, a material apart if there are
two and one of them occurs once, a mask if both occur at least twice and there are bits enough, and an
array else. -/
def HasShape (values : List Value) (shape : Shape) : Prop :=
  (shape = .uniform ↔ values.toFinset.card = 1) ∧
  (shape = .singular ↔ values.toFinset.card = 2 ∧ ∃ v, values.count v = 1) ∧
  (shape = .masked ↔ values.toFinset.card = 2 ∧ (∀ v ∈ values, 2 ≤ values.count v) ∧
    values.length ≤ maxMaskBits)

/-- Values in another order have the same shape. -/
theorem HasShape.unique_of_perm {values values' : List Value} {shape shape' : Shape}
    (h : HasShape values shape) (h' : HasShape values' shape') (hperm : values.Perm values') :
    shape' = shape := by
  simp only [HasShape, List.toFinset_eq_of_perm _ _ hperm, hperm.count_eq, hperm.length_eq,
    hperm.mem_iff] at h h'
  obtain ⟨huniform, hsingular, hmasked⟩ := h
  rw [← huniform, ← hsingular, ← hmasked] at h'
  revert h'
  cases shape <;> cases shape' <;> decide

/-- The values that a selection is made of. -/
def members : Selection → List Value
  | uniform value => [value]
  | singular _ own shared => [own, shared]
  | masked _ unset set => [unset, set]
  | indexed values => values

/-- The selections that may be chosen for some values, with what makes each the right one. -/
inductive IsFor (values : List Value) : Selection → Prop where
  | uniform {value} (hone : values.eraseDups = [value]) : IsFor values (.uniform value)
  | singular {own shared} (htwo : values.eraseDups.Perm [own, shared])
    (honce : values.count own = 1) : IsFor values (.singular (values.idxOf own) own shared)
  | masked {unset set} (htwo : values.eraseDups = [unset, set])
    (htwice : ∀ v ∈ values, 2 ≤ values.count v) (hlength : values.length ≤ maxMaskBits) :
    IsFor values (.masked (ofBits (values.map (· == set))) unset set)
  | indexed (hone : values.eraseDups.length ≠ 1)
    (htwo : values.eraseDups.length = 2 →
      (∀ v ∈ values, 2 ≤ values.count v) ∧ maxMaskBits < values.length) :
    IsFor values (.indexed values)

/-- Of two values either one has a place of its own, or both occur twice. -/
theorem singularValue?_cases (htwo : values.eraseDups = [a, b]) :
    (∃ own, singularValue? values a b = some own ∧ (own = a ∨ own = b) ∧ values.count own = 1) ∨
      (singularValue? values a b = none ∧ ∀ v ∈ values, 2 ≤ values.count v) := by
  have hne : a ≠ b := by
    have hnodup := nodup_eraseDups values
    rw [htwo] at hnodup
    simpa using hnodup
  have hall : ∀ v ∈ values, v = a ∨ v = b := by
    intro v hv
    rw [← List.mem_eraseDups, htwo] at hv
    simpa using hv
  have ha : 0 < values.count a := by
    rw [List.count_pos_iff, ← List.mem_eraseDups, htwo]
    exact List.mem_cons_self
  have hb : 0 < values.count b := by
    rw [List.count_pos_iff, ← List.mem_eraseDups, htwo]
    exact List.mem_cons_of_mem a List.mem_cons_self
  have hsum := count_add_count hne hall
  rw [singularValue?]
  by_cases hlength : values.length = 2
  · rw [if_pos hlength]
    exact .inl ⟨b, rfl, .inr rfl, by omega⟩
  · rw [if_neg hlength]
    by_cases hone : values.count a = 1
    · rw [if_pos hone]
      exact .inl ⟨a, rfl, .inl rfl, hone⟩
    · rw [if_neg hone]
      by_cases hone' : values.count b = 1
      · rw [if_pos hone']
        exact .inl ⟨b, rfl, .inr rfl, hone'⟩
      · rw [if_neg hone']
        refine .inr ⟨rfl, fun v hv => ?_⟩
        rcases hall v hv with rfl | rfl <;> omega

/-- The chosen selection is one that may be chosen. -/
theorem isFor_ofUnified (hfirst : values.head? = some first) : IsFor values (ofUnified first values) := by
  rw [ofUnified]
  split
  · rename_i value hone
    exact .uniform hone
  · rename_i a b htwo
    rcases singularValue?_cases htwo with ⟨own, hown, hab, honce⟩ | ⟨hnone, htwice⟩
    · rw [hown]
      refine .singular ?_ honce
      rw [htwo]
      rcases hab with rfl | rfl
      · rw [if_pos rfl]
      · split
        · rename_i hsame
          rw [hsame]
        · exact .swap _ _ _
    · rw [hnone]
      have hhead : first = a := by
        rw [← head?_eraseDups, htwo] at hfirst
        exact (Option.some.inj hfirst).symm
      subst hhead
      dsimp only
      split
      · rename_i hlength
        exact .masked htwo htwice hlength
      · rename_i hlength
        exact .indexed (by rw [htwo]; exact Nat.succ_ne_self 1) fun _ => ⟨htwice, by omega⟩
  · rename_i hone htwo
    refine .indexed (fun hlength => ?_) fun hlength => ?_
    · obtain ⟨value, heq⟩ := List.length_eq_one_iff.1 hlength
      exact absurd heq (hone value)
    · obtain ⟨a, b, heq⟩ := List.length_eq_two.1 hlength
      exact absurd heq (htwo a b)

namespace IsFor

variable {s : Selection}

/-- **The selection gives every material its value.** -/
theorem select_eq (h : IsFor values s) (hi : values[i]? = some v) : s.select i = some v := by
  have hmem : v ∈ values.eraseDups := List.mem_eraseDups.2 (List.mem_of_getElem? hi)
  cases h with
  | @uniform value hone =>
    rw [hone, List.mem_singleton] at hmem
    rw [hmem]
    rfl
  | @singular own shared htwo honce =>
    rw [select]
    by_cases hindex : i = values.idxOf own
    · have hown : own ∈ values := List.count_pos_iff.1 (by omega)
      rw [if_pos hindex, ← getElem?_idxOf_of_mem hown, ← hindex, hi]
    · rw [if_neg hindex]
      rcases List.mem_cons.1 (htwo.mem_iff.1 hmem) with rfl | hshared
      · exact absurd (eq_idxOf_of_count honce hi) hindex
      · rw [List.mem_singleton.1 hshared]
  | @masked unset set htwo htwice hlength =>
    rw [select, testBit_ofBits, List.getElem?_map, hi]
    rw [htwo] at hmem
    rcases List.mem_cons.1 hmem with rfl | hset
    · have hne : v ≠ set := by
        have hnodup := nodup_eraseDups values
        rw [htwo] at hnodup
        simpa using hnodup
      simp [hne]
    · rw [List.mem_singleton.1 hset]
      simp
  | indexed => exact hi

/-- The values of a selection are values of materials. -/
theorem mem_of_mem_members (h : IsFor values s) (hv : v ∈ s.members) : v ∈ values := by
  rw [← List.mem_eraseDups]
  cases h with
  | uniform hone => rwa [hone]
  | singular htwo => exact htwo.mem_iff.2 hv
  | masked htwo => rwa [htwo]
  | indexed => exact List.mem_eraseDups.2 hv

theorem hasShape (h : IsFor values s) : HasShape values s.shape := by
  have hnever : (∀ v ∈ values, 2 ≤ values.count v) → ¬ ∃ v, values.count v = 1 := by
    rintro htwice ⟨v, honce⟩
    have := htwice v (List.count_pos_iff.1 (by omega))
    omega
  rw [HasShape, card_toFinset]
  cases h with
  | uniform hone => simp [shape, hone]
  | @singular own shared htwo honce =>
    have hnot : ¬ ∀ v ∈ values, 2 ≤ values.count v := fun htwice => hnever htwice ⟨own, honce⟩
    have hlength : values.eraseDups.length = 2 := htwo.length_eq
    simp only [shape, hlength]
    exact ⟨by simp, by simpa using ⟨own, honce⟩, by simp [hnot]⟩
  | masked htwo htwice hlength =>
    simp only [shape, htwo]
    exact ⟨by simp, by simpa using hnever htwice, by simpa using ⟨htwice, hlength⟩⟩
  | indexed hone htwo =>
    refine ⟨by simp [shape, hone], ?_, ?_⟩
    · simp only [shape, reduceCtorEq, false_iff, not_and]
      exact fun hlength => hnever (htwo hlength).1
    · simp only [shape, reduceCtorEq, false_iff, not_and]
      intro hlength _ hle
      have := (htwo hlength).2
      omega

end IsFor

/-! ## Values of one type -/

/-- The order of values does not matter to the type that they are brought to. -/
theorem perm_unify {given given' : List Value} (h : given.Perm given') :
    (Value.unify given).Perm (Value.unify given') := by
  rw [Value.unify, Value.unify, h.any_eq, h.any_eq]
  split
  · exact h.map _
  · split
    · exact h.map _
    · exact h

theorem typeName_of_mem_unify {given : List Value} {v w : Value} (hv : v ∈ Value.unify given)
    (hw : w ∈ Value.unify given) : v.typeName = w.typeName := by
  suffices h : ∃ name, ∀ u ∈ Value.unify given, u.typeName = name by
    obtain ⟨name, hname⟩ := h
    rw [hname v hv, hname w hw]
  rw [Value.unify]
  split
  · refine ⟨"float4", List.forall_mem_map.2 fun u _ => ?_⟩
    cases u <;> rfl
  · rename_i hvector
    have hnone : ∀ u ∈ given, u.isVector = false := by simpa using hvector
    split
    · refine ⟨"float", List.forall_mem_map.2 fun u hu => ?_⟩
      cases u with
      | vector => cases hnone _ hu
      | _ => rfl
    · rename_i hfloat
      have hnone' : ∀ u ∈ given, u.isFloat = false := by simpa using hfloat
      refine ⟨"int", fun u hu => ?_⟩
      cases u with
      | float => cases hnone' _ hu
      | int => rfl
      | vector => cases hnone _ hu

/-- Values of materials have a selection. -/
theorem exists_ofValues? {given : List Value} (hne : given ≠ []) :
    ∃ s, ofValues? given = some s ∧ IsFor (Value.unify given) s := by
  have hunified : Value.unify given ≠ [] := by
    rwa [← List.length_pos_iff, length_unify, List.length_pos_iff]
  obtain ⟨first, rest, heq⟩ := List.exists_cons_of_ne_nil hunified
  have hfirst : (Value.unify given).head? = some first := by
    rw [heq]
    rfl
  exact ⟨_, by rw [ofValues?, hfirst]; rfl, isFor_ofUnified hfirst⟩

theorem IsFor.typeName_eq {given : List Value} {s : Selection} (h : IsFor (Value.unify given) s)
    (hv : v ∈ s.members) : v.typeName = s.typeName := by
  -- The type is read off one of the members.
  suffices hsome : ∃ w ∈ s.members, s.typeName = w.typeName by
    obtain ⟨w, hw, htype⟩ := hsome
    rw [htype]
    exact typeName_of_mem_unify (h.mem_of_mem_members hv) (h.mem_of_mem_members hw)
  cases s with
  | uniform value => exact ⟨value, List.mem_cons_self, rfl⟩
  | singular index own shared => exact ⟨shared, by simp [members], rfl⟩
  | masked mask unset set => exact ⟨unset, List.mem_cons_self, rfl⟩
  | indexed values =>
    cases values with
    | nil => cases hv
    | cons first rest => exact ⟨first, List.mem_cons_self, rfl⟩

end Selection

end Variant

end ShaderMerge
