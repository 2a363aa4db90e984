import Mathlib.Data.List.Basic
import Mathlib.Tactic.Tauto
import ShaderMerge.Table

/-!
# More laws of look-up

The view of a table is `get?`.  The laws here say what the operations that make one table from
others do to it.  `Table.Extends` compares two tables by what they answer.
-/

namespace ShaderMerge

namespace Table

variable {α β : Type}

/-- A table that has every entry of another one. -/
def Extends (t more : Table String α) : Prop :=
  ∀ key value, t.get? key = some value → more.get? key = some value

theorem get?_filterMap (t : Table String α) (f : String → α → Option β) (key : String) :
    (t.filterMap f).get? key = (t.get? key).bind (f key) := by
  ext value
  rw [← mem_entries_iff String.lt_irrefl, filterMap, List.mem_filterMap, Option.bind_eq_some_iff]
  constructor
  · rintro ⟨⟨k, v⟩, hmem, hvalue⟩
    obtain ⟨w, hw, heq⟩ := Option.map_eq_some_iff.1 hvalue
    cases heq
    exact ⟨v, (mem_entries_iff String.lt_irrefl t k v).1 hmem, hw⟩
  · rintro ⟨v, hget, hvalue⟩
    refine ⟨(key, v), (mem_entries_iff String.lt_irrefl t key v).2 hget, ?_⟩
    rw [hvalue]
    rfl

theorem get?_map (t : Table String α) (f : String → α → β) (key : String) :
    (t.map f).get? key = (t.get? key).map (f key) := by
  have hmap : t.map f = t.filterMap fun k v => some (f k v) := by
    simp only [map, filterMap, Option.map_some, List.filterMap_eq_map']
  rw [hmap, get?_filterMap]
  cases t.get? key <;> rfl

theorem get?_filter (t : Table String α) (p : String → α → Bool) (key : String) :
    (t.filter p).get? key = (t.get? key).filter (p key) := by
  ext value
  rw [← mem_entries_iff String.lt_irrefl, filter, List.mem_filter,
    mem_entries_iff String.lt_irrefl, Option.filter_eq_some_iff]

/-- Of entries that are inserted one after the other, the last one of a key is found. -/
theorem get?_insertAll_list (t : Table String α) (entries : List (String × α)) (key : String) :
    (t.insertAll entries).get? key = (entries.reverse.lookup key).or (t.get? key) := by
  induction entries generalizing t with
  | nil => rfl
  | cons e rest ih =>
    obtain ⟨k, v⟩ := e
    have hstep : t.insertAll ((k, v) :: rest) = (t.insert k v).insertAll rest := rfl
    rw [hstep, ih, get?_insert, List.reverse_cons, List.lookup_append, Option.or_assoc,
      lookup_cons_eq_ite]
    split <;> rfl

/-- Where no key has two entries, the last entry of a key is also the first. -/
theorem lookup_reverse {entries : List (String × α)} (h : (entries.map (·.1)).Nodup)
    (key : String) : entries.reverse.lookup key = entries.lookup key := by
  induction entries with
  | nil => rfl
  | cons e rest ih =>
    obtain ⟨k, v⟩ := e
    obtain ⟨hk, hrest⟩ := List.nodup_cons.1 h
    rw [List.reverse_cons, List.lookup_append, ih hrest, lookup_cons_eq_ite, lookup_cons_eq_ite]
    by_cases hkey : key = k
    · have hnone : rest.lookup key = none := by
        rw [List.lookup_eq_none_iff]
        rintro ⟨other, w⟩ hother
        rw [bne_iff_ne]
        rintro rfl
        exact hk (hkey ▸ List.mem_map.2 ⟨_, hother, rfl⟩)
      rw [hnone, Option.none_or, if_pos hkey, if_pos hkey]
    · rw [if_neg hkey, if_neg hkey, List.lookup_nil, Option.or_none]

theorem lookup_reverse_entries (t : Table String α) (key : String) :
    t.entries.reverse.lookup key = t.get? key := by
  refine lookup_reverse (List.Pairwise.map _ (fun a b hlt heq => ?_) t.ascending) key
  exact String.lt_irrefl _ (heq ▸ hlt)

/-- Of two tables, the one that is inserted answers first. -/
theorem get?_insertAll (t u : Table String α) (key : String) :
    (t.insertAll u.entries).get? key = (u.get? key).or (t.get? key) := by
  rw [get?_insertAll_list, lookup_reverse_entries]

/-- A table is what it answers. -/
theorem eq_of_get? {t u : Table String α} (h : ∀ key, t.get? key = u.get? key) : t = u := by
  have hnodup : ∀ t : Table String α, t.entries.Nodup := by
    intro t
    refine t.ascending.imp ?_
    rintro a b hlt rfl
    exact String.lt_irrefl _ hlt
  have hperm : t.entries.Perm u.entries := by
    rw [List.perm_ext_iff_of_nodup (hnodup t) (hnodup u)]
    rintro ⟨key, value⟩
    rw [mem_entries_iff String.lt_irrefl, mem_entries_iff String.lt_irrefl, h]
  have hentries : t.entries = u.entries := hperm.eq_of_pairwise
    (fun a b _ _ hab hba => absurd (String.lt_trans hab hba) (String.lt_irrefl _))
    t.ascending u.ascending
  cases t
  cases u
  cases hentries
  rfl

theorem mem_keys_iff (t : Table String α) (key : String) :
    key ∈ t.keys ↔ t.contains key = true := by
  rw [keys, contains, Option.isSome_iff_exists, List.mem_map]
  constructor
  · rintro ⟨⟨k, v⟩, hmem, rfl⟩
    exact ⟨v, (mem_entries_iff String.lt_irrefl t _ v).1 hmem⟩
  · rintro ⟨v, hget⟩
    exact ⟨(key, v), (mem_entries_iff String.lt_irrefl t key v).2 hget, rfl⟩

theorem contains_insert (t : Table String α) (key name : String) (value : α) :
    (t.insert key value).contains name = (decide (name = key) || t.contains name) := by
  rw [contains, get?_insert]
  split <;> simp [contains, *]

theorem contains_insertAll (t : Table String α) (entries : List (String × α)) (name : String) :
    (t.insertAll entries).contains name = true
      ↔ t.contains name = true ∨ name ∈ entries.map (·.1) := by
  induction entries generalizing t with
  | nil => simp [insertAll]
  | cons e rest ih =>
    have hstep : t.insertAll (e :: rest) = (t.insert e.1 e.2).insertAll rest := rfl
    rw [hstep, ih, contains_insert, List.map_cons, List.mem_cons, Bool.or_eq_true,
      decide_eq_true_iff]
    tauto

end Table

theorem NameSet.contains_addAll (names : NameSet) (more : List String) (name : String) :
    Table.contains (names.addAll more) name = true
      ↔ Table.contains names name = true ∨ name ∈ more := by
  induction more generalizing names with
  | nil => simp [addAll]
  | cons n rest ih =>
    have hstep : names.addAll (n :: rest) = (names.add n).addAll rest := rfl
    rw [hstep, ih, add, Table.contains_insert, List.mem_cons, Bool.or_eq_true, decide_eq_true_iff]
    tauto

/-- A set is its members. -/
theorem NameSet.eq_of_contains {names more : NameSet}
    (h : ∀ name, names.contains name = true ↔ more.contains name = true) : names = more := by
  refine Table.eq_of_get? fun name => ?_
  have hname := h name
  rw [Table.contains, Table.contains] at hname
  cases hfirst : names.get? name <;> cases hsecond : more.get? name <;>
    simp [hfirst, hsecond] at hname ⊢

end ShaderMerge
