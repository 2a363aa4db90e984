/-!
# Ordered tables

A `Table κ α` holds one entry per key, in ascending order of the keys, and carries the proof
of that order.  So two tables with the same entries are equal however they were built, and
the order in which a table lists its entries is the order of its keys.  A set is a table
without values.

The view is `get?`: `get?_insert` says what an insertion does to it, and `mem_entries_iff`
that the entries are exactly what the look-ups answer.
-/

namespace ShaderMerge

/-- The entries of keys in strictly ascending order. -/
structure Table (κ : Type) (α : Type) [LT κ] where
  /-- The keys with their values, in ascending order of the keys. -/
  entries : List (κ × α)
  /-- The order of the keys is strict, so that no key has two entries. -/
  ascending : entries.Pairwise fun a b => a.1 < b.1
deriving DecidableEq

namespace Table

variable {κ α β : Type} [LT κ]

/-- A table without entries. -/
def empty : Table κ α := ⟨[], List.Pairwise.nil⟩

instance : EmptyCollection (Table κ α) := ⟨empty⟩

instance : Inhabited (Table κ α) := ⟨empty⟩

/-- The keys in ascending order. -/
def keys (t : Table κ α) : List κ := t.entries.map (·.1)

/-- The values in the order of their keys. -/
def values (t : Table κ α) : List α := t.entries.map (·.2)

/-- The number of entries. -/
def size (t : Table κ α) : Nat := t.entries.length

/-- Whether there is no entry. -/
def isEmpty (t : Table κ α) : Bool := t.entries.isEmpty

/-- The entries that satisfy `p`. -/
def filter (p : κ → α → Bool) (t : Table κ α) : Table κ α :=
  ⟨t.entries.filter fun e => p e.1 e.2, t.ascending.filter _⟩

/-- The same keys with other values. -/
def map (f : κ → α → β) (t : Table κ α) : Table κ β :=
  ⟨t.entries.map fun e => (e.1, f e.1 e.2), List.pairwise_map.2 t.ascending⟩

/-- The entries for which `f` has a value, with that value. -/
def filterMap (f : κ → α → Option β) (t : Table κ α) : Table κ β where
  entries := t.entries.filterMap fun e => (f e.1 e.2).map (e.1, ·)
  ascending := by
    refine List.pairwise_filterMap.2 (t.ascending.imp ?_)
    intro a b hab c hc d hd
    obtain ⟨_, _, rfl⟩ := Option.map_eq_some_iff.1 hc
    obtain ⟨_, _, rfl⟩ := Option.map_eq_some_iff.1 hd
    exact hab

section Search

variable [DecidableEq κ]

/-- The value of a key. -/
def get? (t : Table κ α) (key : κ) : Option α := t.entries.lookup key

/-- Whether the key has an entry. -/
def contains (t : Table κ α) (key : κ) : Bool := (t.get? key).isSome

end Search

section Insertion

variable [DecidableEq κ] [DecidableLT κ]

/-- Put an entry at its place in an ascending list, over an entry of the same key. -/
def place (key : κ) (value : α) : List (κ × α) → List (κ × α)
  | [] => [(key, value)]
  | (k, v) :: rest =>
    if key < k then (key, value) :: (k, v) :: rest
    else if key = k then (key, value) :: rest
    else (k, v) :: place key value rest

theorem mem_place {key k : κ} {value v : α} {l : List (κ × α)}
    (h : (k, v) ∈ place key value l) : (k, v) = (key, value) ∨ (k, v) ∈ l := by
  induction l with
  | nil => simpa [place] using h
  | cons e rest ih => grind [place]

/-- Strings are keys: their order is total. -/
instance trichotomousString : Std.Trichotomous (α := String) (· < ·) := inferInstance

/-- The order of strings is transitive. -/
instance transString : Trans (α := String) (· < ·) (· < ·) (· < ·) := ⟨String.lt_trans⟩

variable [Std.Trichotomous (α := κ) (· < ·)] [Trans (α := κ) (· < ·) (· < ·) (· < ·)]

theorem pairwise_place {key : κ} {value : α} {l : List (κ × α)}
    (h : l.Pairwise fun a b => a.1 < b.1) :
    (place key value l).Pairwise fun a b => a.1 < b.1 := by
  induction l with
  | nil => simp [place]
  | cons e rest ih =>
    obtain ⟨k, v⟩ := e
    obtain ⟨hk, hrest⟩ := List.pairwise_cons.1 h
    simp only [place]
    split
    · rename_i hlt
      refine List.pairwise_cons.2 ⟨?_, h⟩
      intro a ha
      rcases List.mem_cons.1 ha with rfl | ha
      · exact hlt
      · exact Trans.trans hlt (hk a ha)
    · split
      · rename_i heq
        exact List.pairwise_cons.2 ⟨fun a ha => heq ▸ hk a ha, hrest⟩
      · rename_i hlt hne
        refine List.pairwise_cons.2 ⟨?_, ih hrest⟩
        intro a ha
        rcases mem_place (k := a.1) (v := a.2) ha with heq | ha
        · obtain ⟨hkey, -⟩ := Prod.mk.inj heq
          rw [hkey]
          exact Classical.byContradiction fun hk' =>
            hne (Std.Trichotomous.trichotomous (r := fun x y : κ => x < y) _ _ hlt hk')
        · exact hk a ha

/-- Give a key a value, over the one it had. -/
def insert (t : Table κ α) (key : κ) (value : α) : Table κ α :=
  ⟨place key value t.entries, pairwise_place t.ascending⟩

/-- Insert entries one after the other, so that the last one of a key counts. -/
def insertAll (t : Table κ α) (entries : List (κ × α)) : Table κ α :=
  entries.foldl (fun t e => t.insert e.1 e.2) t

/-- The table of a list of entries; of entries with one key the last counts. -/
def ofList (entries : List (κ × α)) : Table κ α := empty.insertAll entries

end Insertion

end Table

/-- A set of strings, listed in ascending order. -/
abbrev NameSet := Table String Unit

namespace NameSet

/-- The set with one more member. -/
def add (names : NameSet) (name : String) : NameSet := Table.insert names name ()

/-- The set with more members. -/
def addAll (names : NameSet) (more : List String) : NameSet := more.foldl add names

/-- The set of the members of a list. -/
def ofNames (names : List String) : NameSet := addAll ∅ names

end NameSet

/-! ## The laws of look-up -/

namespace Table

variable {κ α : Type}

/-- The look-up in a list of entries, one entry at a time. -/
theorem lookup_cons_eq_ite [DecidableEq κ] (key k : κ) (v : α) (rest : List (κ × α)) :
    ((k, v) :: rest).lookup key = if key = k then some v else rest.lookup key := by
  simp only [List.lookup_cons]
  by_cases h : key = k
  · simp [h]
  · simp [h, beq_eq_false_iff_ne.2 h]

/-- The entries are exactly what the look-ups answer, for keys that are not below themselves. -/
theorem mem_entries_iff [LT κ] [DecidableEq κ] (irrefl : ∀ a : κ, ¬ a < a) (t : Table κ α) (key : κ) (value : α) :
    (key, value) ∈ t.entries ↔ t.get? key = some value := by
  obtain ⟨entries, ascending⟩ := t
  simp only [get?]
  induction entries with
  | nil => simp
  | cons e rest ih =>
    obtain ⟨k, v⟩ := e
    obtain ⟨hk, hrest⟩ := List.pairwise_cons.1 ascending
    simp only [List.mem_cons, lookup_cons_eq_ite]
    by_cases h : key = k
    · subst h
      have hnone : ∀ w, (key, w) ∉ rest := fun w hw => irrefl _ (hk (key, w) hw)
      simp [hnone, eq_comm]
    · simp [h, ih hrest]

variable [LT κ] [DecidableEq κ] [DecidableLT κ]

theorem lookup_place (key k : κ) (value : α) (l : List (κ × α)) :
    (place key value l).lookup k = if k = key then some value else l.lookup k := by
  induction l with
  | nil => simp [place, lookup_cons_eq_ite]
  | cons e rest ih =>
    obtain ⟨k', v'⟩ := e
    grind [place, lookup_cons_eq_ite]

variable [Std.Trichotomous (α := κ) (· < ·)] [Trans (α := κ) (· < ·) (· < ·) (· < ·)]

/-- An insertion changes the look-up of its own key and no other. -/
theorem get?_insert (t : Table κ α) (key k : κ) (value : α) :
    (t.insert key value).get? k = if k = key then some value else t.get? k :=
  lookup_place key k value t.entries

end Table

end ShaderMerge
