import ShaderMerge.Proofs.Table
import ShaderMerge.Variant.Options

/-!
# The number of materials

`Options.materialCount` compares the lengths of the lists with an entry for each material.  It
finds a number exactly if all lists that count have that length, within the limit, and else names
a list that has the length it reports (`materialCount_explained`).  The list of a property does
not count where a texture has the same name: if the two differ, they go unnoticed.
-/

namespace ShaderMerge.Variant.Options

variable {o : Options} {name : String} {n count expected : Nat} {fault : VariantError}

/-! ## The lists -/

/-- Whether one of the two tables has a list of some length under a name. -/
def HasList (o : Options) (name : String) (count : Nat) : Prop :=
  (∃ values, o.arrays.get? name = some values ∧ values.length = count) ∨
    ∃ slices, o.textures.get? name = some slices ∧ slices.length = count

/-- Whether the list of a name that counts has some length: that of a texture, or of a property
where no texture has the name. -/
def Counts (o : Options) (name : String) (count : Nat) : Prop :=
  ((o.textures.get? name).map List.length).or ((o.arrays.get? name).map List.length) = some count

/-- Whether the lists of a property and of a texture with one name have the same length. -/
def SharedNamesAgree (o : Options) : Prop :=
  ∀ name values slices, o.arrays.get? name = some values → o.textures.get? name = some slices →
    values.length = slices.length

/-- Whether some lists are for `n` materials: all of them have that length, which is one that twelve
bits can count to, or there are no lists, and one material. -/
def Agree (lists : String → Nat → Prop) (n : Nat) : Prop :=
  ((∃ name count, lists name count) ∧ (∀ name count, lists name count → count = n) ∧
      1 ≤ n ∧ n ≤ maxMaterials) ∨
    (∀ name count, ¬lists name count) ∧ n = 1

/-- Whether a fault is one of the lists: it names a list with the length it reports, or a length
that some list has. -/
def Explains (o : Options) : VariantError → Prop
  | .noValues name => o.HasList name 0
  | .countMismatch name count expected =>
    o.HasList name count ∧ 0 < count ∧ count ≠ expected ∧ ∃ other, o.HasList other expected
  | .tooManyMaterials count max =>
    (∃ name, o.HasList name count) ∧ max = maxMaterials ∧ max < count
  | _ => False

theorem mem_lengths_iff : (name, count) ∈ o.lengths.entries ↔ o.Counts name count := by
  have hmap : ∀ {α : Type} (t : Table String (List α)),
      (t.map fun _ values => values.length).get? name = (t.get? name).map List.length := by
    intro α t
    ext length
    rw [← Table.mem_entries_iff String.lt_irrefl, Option.map_eq_some_iff, Table.map, List.mem_map]
    constructor
    · rintro ⟨⟨k, values⟩, hmem, heq⟩
      cases heq
      exact ⟨values, (Table.mem_entries_iff String.lt_irrefl t k values).1 hmem, rfl⟩
    · rintro ⟨values, hget, rfl⟩
      exact ⟨(name, values), (Table.mem_entries_iff String.lt_irrefl t name values).2 hget, rfl⟩
  rw [Table.mem_entries_iff String.lt_irrefl, lengths, Table.get?_insertAll, hmap, hmap, Counts]

/-- A list that counts is one of the lists. -/
theorem Counts.hasList (h : o.Counts name count) : o.HasList name count := by
  rw [Counts, Option.or_eq_some_iff] at h
  rcases h with h | ⟨-, h⟩
  · exact .inr (Option.map_eq_some_iff.1 h)
  · exact .inl (Option.map_eq_some_iff.1 h)

/-- Under the name of a list there is one that counts. -/
theorem HasList.exists_counts (h : o.HasList name count) : ∃ count, o.Counts name count := by
  rcases h with ⟨values, hget, -⟩ | ⟨slices, hget, -⟩
  · cases htexture : o.textures.get? name with
    | none => exact ⟨values.length, by rw [Counts, htexture, hget]; rfl⟩
    | some slices => exact ⟨slices.length, by rw [Counts, htexture]; rfl⟩
  · exact ⟨slices.length, by rw [Counts, hget]; rfl⟩

/-- If lists of one name agree, all lists are as long as those that count. -/
theorem HasList.counts (h : o.HasList name count) (hshared : o.SharedNamesAgree) :
    o.Counts name count := by
  rcases h with ⟨values, hget, rfl⟩ | ⟨slices, hget, rfl⟩
  · cases htexture : o.textures.get? name with
    | none => rw [Counts, htexture, hget]; rfl
    | some slices => rw [Counts, htexture, hshared name values slices hget htexture]; rfl
  · rw [Counts, hget]; rfl

theorem agree_hasList_iff : Agree o.HasList n ↔ Agree o.Counts n ∧ o.SharedNamesAgree := by
  constructor
  · rintro (⟨⟨name, count, hlist⟩, hall, hn⟩ | ⟨hnone, rfl⟩)
    · obtain ⟨count', hcounts⟩ := hlist.exists_counts
      refine ⟨.inl ⟨⟨name, count', hcounts⟩, fun _ _ h => hall _ _ h.hasList, hn⟩, ?_⟩
      intro name values slices hvalues hslices
      rw [hall name _ (.inl ⟨values, hvalues, rfl⟩), hall name _ (.inr ⟨slices, hslices, rfl⟩)]
    · exact ⟨.inr ⟨fun _ _ h => hnone _ _ h.hasList, rfl⟩, fun name values _ hvalues _ =>
        absurd (.inl ⟨values, hvalues, rfl⟩) (hnone name values.length)⟩
  · rintro ⟨⟨⟨name, count, hcounts⟩, hall, hn⟩ | ⟨hnone, rfl⟩, hshared⟩
    · exact .inl ⟨⟨name, count, hcounts.hasList⟩, fun _ _ h => hall _ _ (h.counts hshared), hn⟩
    · exact .inr ⟨fun _ _ h => hnone _ _ (h.counts hshared), rfl⟩

/-! ## The comparison -/

theorem checkLengths_eq_ok_iff {entries : List (String × Nat)} :
    checkLengths expected entries = .ok () ↔ ∀ e ∈ entries, 0 < e.2 ∧ e.2 = expected := by
  induction entries with
  | nil => simp [checkLengths]
  | cons e rest ih =>
    obtain ⟨property, count⟩ := e
    rw [checkLengths, List.forall_mem_cons, ← ih]
    split
    · rename_i hzero
      simp [hzero]
    · rename_i hpos
      split
      · rename_i hne
        simp only [bne_iff_ne, ne_eq] at hne
        simp [hne]
      · rename_i heq
        simp only [bne_iff_ne, ne_eq, Decidable.not_not] at heq
        simp [heq, Nat.pos_iff_ne_zero.2 (heq ▸ hpos)]

/-- The fault of a comparison is that of one of the entries. -/
theorem exists_of_checkLengths_eq_error {entries : List (String × Nat)}
    (h : checkLengths expected entries = .error fault) :
    ∃ property count, (property, count) ∈ entries ∧
      ((fault = .noValues property ∧ count = 0) ∨
        (fault = .countMismatch property count expected ∧ 0 < count ∧ count ≠ expected)) := by
  induction entries with
  | nil => cases h
  | cons e rest ih =>
    obtain ⟨property, count⟩ := e
    rw [checkLengths] at h
    split at h
    · rename_i hzero
      cases h
      exact ⟨property, count, List.mem_cons_self, .inl ⟨rfl, hzero⟩⟩
    · rename_i hpos
      split at h
      · rename_i hne
        cases h
        exact ⟨property, count, List.mem_cons_self,
          .inr ⟨rfl, Nat.pos_of_ne_zero hpos, by simpa using hne⟩⟩
      · obtain ⟨property, count, hmem, hfault⟩ := ih h
        exact ⟨property, count, List.mem_cons_of_mem _ hmem, hfault⟩

/-- With lists to compare, the length of the first one is expected of all. -/
theorem materialCount_of_cons {rest : List (String × Nat)}
    (h : o.lengths.entries = (name, expected) :: rest) :
    o.materialCount = match checkLengths expected o.lengths.entries with
      | .error fault => .error fault
      | .ok () =>
        if maxMaterials < expected then .error (.tooManyMaterials expected maxMaterials)
        else .ok expected := by
  rw [materialCount.eq_def, h]
  dsimp only
  cases checkLengths expected ((name, expected) :: rest) <;> rfl

theorem materialCount_eq_ok_iff : o.materialCount = .ok n ↔ Agree o.Counts n := by
  simp only [Agree, ← mem_lengths_iff]
  cases hentries : o.lengths.entries with
  | nil =>
    rw [materialCount.eq_def, hentries]
    simp [eq_comm]
  | cons e rest =>
    obtain ⟨first, expected⟩ := e
    have hmem : (first, expected) ∈ o.lengths.entries := by simp [hentries]
    rw [← hentries, materialCount_of_cons hentries]
    constructor
    · intro h
      refine .inl ⟨⟨first, expected, hmem⟩, ?_⟩
      split at h
      · cases h
      · rename_i hcheck
        split at h
        · cases h
        · rename_i hmax
          cases h
          have hall := checkLengths_eq_ok_iff.1 hcheck
          exact ⟨fun name count hcount => (hall _ hcount).2, (hall _ hmem).1, Nat.le_of_not_lt hmax⟩
    · rintro (⟨-, hall, hpos, hmax⟩ | ⟨hnone, -⟩)
      · obtain rfl := hall first expected hmem
        have hcheck : checkLengths expected o.lengths.entries = .ok () :=
          checkLengths_eq_ok_iff.2 fun e he => by rw [hall e.1 e.2 he]; exact ⟨hpos, rfl⟩
        rw [hcheck]
        dsimp only
        rw [if_neg (Nat.not_lt_of_le hmax)]
      · exact absurd hmem (hnone first expected)

theorem explains_of_materialCount_eq_error (h : o.materialCount = .error fault) :
    o.Explains fault := by
  have hlist : ∀ {name count}, (name, count) ∈ o.lengths.entries → o.HasList name count :=
    fun hmem => (mem_lengths_iff.1 hmem).hasList
  cases hentries : o.lengths.entries with
  | nil =>
    rw [materialCount.eq_def, hentries] at h
    cases h
  | cons e rest =>
    obtain ⟨first, expected⟩ := e
    have hmem : (first, expected) ∈ o.lengths.entries := by simp [hentries]
    rw [materialCount_of_cons hentries] at h
    split at h
    · rename_i hcheck
      cases h
      obtain ⟨property, count, hfound, ⟨rfl, rfl⟩ | ⟨rfl, hpos, hne⟩⟩ :=
        exists_of_checkLengths_eq_error hcheck
      · exact hlist hfound
      · exact ⟨hlist hfound, hpos, hne, first, hlist hmem⟩
    · split at h
      · rename_i hmax
        cases h
        exact ⟨⟨first, hlist hmem⟩, rfl, hmax⟩
      · cases h

/-- **What the number of materials says of the lists.**  It is found exactly if the lists that
count are for so many materials; all lists are, exactly if it is found and lists of one name
agree.  Where it is not found, a list is to blame for what is reported. -/
theorem materialCount_explained (o : Options) :
    (∀ n, o.materialCount = .ok n ↔ Agree o.Counts n) ∧
      (∀ n, Agree o.HasList n ↔ o.materialCount = .ok n ∧ o.SharedNamesAgree) ∧
      ∀ fault, o.materialCount = .error fault → o.Explains fault := by
  refine ⟨fun n => materialCount_eq_ok_iff, fun n => ?_, fun fault =>
    explains_of_materialCount_eq_error⟩
  rw [agree_hasList_iff, materialCount_eq_ok_iff]

/-- The three values of a property go unnoticed behind the one slice of a texture of its name. -/
example : ({ new with
      arrays := Table.ofList [("_A", [.int 1, .int 2, .int 3])]
      textures := Table.ofList [("_A", [some 0])] } : Options).materialCount.toOption = some 1 := by
  decide

end ShaderMerge.Variant.Options
