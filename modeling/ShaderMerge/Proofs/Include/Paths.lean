import Mathlib.Data.List.Infix
import Mathlib.Logic.Relation
import ShaderMerge.Include.Path
import ShaderMerge.Proofs.Text.Words

/-!
# One path for every file

Files are told apart by their paths, so an include text must lead to one spelling of a path, whatever
its own spelling is.  Main result: `resolve?_isCanonical`.  A text leads out of the project exactly if
some of its components, read from the first one on, lead further up than down (`Climbs`).  Otherwise
the path that it means has names for components, means itself, and does not depend on how the text is
spelled (`Respelling`).

`follow?` goes through the components of a text from the directory that has been reached.  It goes
through a text in two parts as it goes through the parts (`follow?_append_cons`), and components that
lead nowhere leave it where it is (`IsIdle.follow?_eq`).
-/

namespace ShaderMerge.Include

/-! ## Components -/

/-- The component that leads to the directory around. -/
def up : List Char := ['.', '.']

/-- Whether a component is the name of a file or of a directory. -/
def isName (component : List Char) : Bool :=
  component != [] && component != ['.'] && component != up

/-- Components that lead further up than down. -/
def Climbs (components : List (List Char)) : Prop :=
  components.countP isName < components.count up

section

variable {path out components names : List (List Char)} {component : List Char}

theorem addComponent_of_isName (h : isName component = true) :
    addComponent path component = some (component :: path) := by
  simp only [isName, Bool.and_eq_true, bne_iff_ne] at h
  have hup : component ≠ ['.', '.'] := h.2
  rw [addComponent.eq_def, if_neg (by simp [h.1]), if_neg hup]

/-- A component is a name, or it leads up, or it leads nowhere. -/
theorem component_cases (component : List Char) : isName component = true ∨ component = up ∨
    (isName component = false ∧ component ≠ up ∧ ∀ path, addComponent path component = some path) := by
  by_cases hempty : component = []
  · exact .inr (.inr (by subst hempty; exact ⟨rfl, nofun, fun _ => rfl⟩))
  by_cases hhere : component = ['.']
  · exact .inr (.inr (by subst hhere; exact ⟨rfl, nofun, fun _ => rfl⟩))
  by_cases hup : component = up
  · exact .inr (.inl hup)
  · exact .inl (by simp [isName, hempty, hhere, hup])

/-- The way through some components fails where the first ones of them climb above its start. -/
theorem foldlM_addComponent_eq_none_iff : components.foldlM addComponent path = none ↔
    ∃ front, front <+: components ∧ path.length + front.countP isName < front.count up := by
  induction components generalizing path with
  | nil => simp
  | cons component rest ih =>
    -- The empty front never climbs, so there is a first component.
    have hfront : (∃ front, front <+: component :: rest ∧
          path.length + front.countP isName < front.count up) ↔ ∃ front, front <+: rest ∧
        path.length + (component :: front).countP isName < (component :: front).count up := by
      constructor
      · rintro ⟨front, hprefix, hlt⟩
        rcases List.prefix_cons_iff.1 hprefix with rfl | ⟨front, rfl, hrest⟩
        · simp at hlt
        · exact ⟨front, hrest, hlt⟩
      · rintro ⟨front, hprefix, hlt⟩
        exact ⟨component :: front, (List.prefix_cons_inj _).2 hprefix, hlt⟩
    rw [hfront, List.foldlM_cons]
    rcases component_cases component with hname | rfl | ⟨hname, hup, hstays⟩
    · have hne : component ≠ up := by
        rintro rfl
        cases hname
      rw [addComponent_of_isName hname]
      refine ih.trans (exists_congr fun front => and_congr_right fun _ => ?_)
      rw [List.countP_cons_of_pos hname, List.count_cons_of_ne hne, List.length_cons]
      omega
    · cases path with
      | nil => exact iff_of_true rfl ⟨[], List.nil_prefix, by decide⟩
      | cons directory outer =>
        have hout : addComponent (directory :: outer) up = some outer := rfl
        rw [hout]
        refine ih.trans (exists_congr fun front => and_congr_right fun _ => ?_)
        rw [List.countP_cons_of_neg (by decide), List.count_cons_self, List.length_cons]
        omega
    · rw [hstays]
      refine ih.trans (exists_congr fun front => and_congr_right fun _ => ?_)
      rw [List.countP_cons_of_neg (by simp [hname]), List.count_cons_of_ne hup]

/-- Every name leads one directory down, and every `..` one up. -/
theorem length_of_foldlM (h : components.foldlM addComponent path = some out) :
    out.length + components.count up = path.length + components.countP isName := by
  induction components generalizing path with
  | nil =>
    cases h
    rfl
  | cons component rest ih =>
    rw [List.foldlM_cons, Option.bind_eq_bind, Option.bind_eq_some_iff] at h
    obtain ⟨reached, hreached, hrest⟩ := h
    have hlength := ih hrest
    rcases component_cases component with hname | rfl | ⟨hname, hup, hstays⟩
    · have hne : component ≠ up := by
        rintro rfl
        cases hname
      rw [addComponent_of_isName hname] at hreached
      cases hreached
      rw [List.countP_cons_of_pos hname, List.count_cons_of_ne hne]
      simp only [List.length_cons] at hlength
      omega
    · cases path with
      | nil => cases hreached
      | cons directory outer =>
        cases hreached
        rw [List.countP_cons_of_neg (by decide), List.count_cons_self, List.length_cons]
        omega
    · rw [hstays] at hreached
      cases hreached
      rwa [List.countP_cons_of_neg (by simp [hname]), List.count_cons_of_ne hup]

/-- What is reached on the way are names that the components have. -/
theorem mem_of_foldlM (h : components.foldlM addComponent path = some out) :
    ∀ name ∈ out, name ∈ path ∨ name ∈ components ∧ isName name = true := by
  induction components generalizing path with
  | nil =>
    cases h
    exact fun name hname => .inl hname
  | cons component rest ih =>
    rw [List.foldlM_cons, Option.bind_eq_bind, Option.bind_eq_some_iff] at h
    obtain ⟨reached, hreached, hrest⟩ := h
    intro name hmem
    rcases ih hrest name hmem with hmem | ⟨hmem, hname⟩
    · rcases component_cases component with hname | rfl | ⟨-, -, hstays⟩
      · rw [addComponent_of_isName hname] at hreached
        cases hreached
        rcases List.mem_cons.1 hmem with rfl | hmem
        · exact .inr ⟨List.mem_cons_self, hname⟩
        · exact .inl hmem
      · cases path with
        | nil => cases hreached
        | cons directory outer =>
          cases hreached
          exact .inl (List.mem_cons_of_mem _ hmem)
      · rw [hstays] at hreached
        cases hreached
        exact .inl hmem
    · exact .inr ⟨List.mem_cons_of_mem _ hmem, hname⟩

theorem foldlM_addComponent_names (h : ∀ name ∈ names, isName name = true) :
    names.foldlM addComponent path = some (names.reverse ++ path) := by
  induction names generalizing path with
  | nil => rfl
  | cons name rest ih =>
    obtain ⟨hname, hrest⟩ := List.forall_mem_cons.1 h
    rw [List.foldlM_cons, addComponent_of_isName hname, List.reverse_cons, List.append_assoc]
    exact ih hrest

end

/-! ## Texts -/

/-- What stands between the slashes of a text. -/
def pieces (cs : List Char) : List (List Char) := Text.splitWhere (· == '/') cs

/-- The components of a path.  The path of the root has none. -/
def parts (path : List Char) : List (List Char) := if path = [] then [] else pieces path

/-- Go through the components of a text, from a directory on. -/
def follow? (path : List (List Char)) (cs : List Char) : Option (List (List Char)) :=
  (pieces cs).foldlM addComponent path

section

variable {path names : List (List Char)} {piece cs front back idle : List Char}

theorem components?_eq (cs : List Char) : components? cs = (follow? [] cs).map List.reverse := rfl

theorem follow?_append_cons (path : List (List Char)) (front back : List Char) :
    follow? path (front ++ '/' :: back) = (follow? path front).bind (follow? · back) := by
  rw [follow?, pieces, Text.splitWhere_append_cons (by decide), List.foldlM_append]
  rfl

/-- The characters of a piece are those of the text, without the slashes. -/
theorem mem_of_mem_pieces (h : piece ∈ pieces cs) {c : Char} (hc : c ∈ piece) : c ≠ '/' ∧ c ∈ cs := by
  have hflatten : c ∈ (pieces cs).flatten := List.mem_flatten.2 ⟨piece, h, hc⟩
  rw [pieces, Text.flatten_splitWhere, List.mem_filter] at hflatten
  exact ⟨by simpa using hflatten.2, hflatten.1⟩

theorem pieces_of_notMem (h : '/' ∉ cs) : pieces cs = [cs] := by
  have hnone : ∀ c ∈ cs, (c == '/') = false :=
    fun c hc => beq_eq_false_iff_ne.2 fun heq => h (heq ▸ hc)
  have hsplit := Text.splitWhere_append_of_forall hnone []
  rw [List.append_nil] at hsplit
  rw [pieces, hsplit]
  simp [Text.splitWhere]

theorem pieces_joinComponents (hne : names ≠ []) (h : ∀ name ∈ names, '/' ∉ name) :
    pieces (joinComponents names) = names := by
  induction names with
  | nil => exact absurd rfl hne
  | cons name rest ih =>
    obtain ⟨hname, hrest⟩ := List.forall_mem_cons.1 h
    cases rest with
    | nil => rw [joinComponents, List.intercalate_singleton, pieces_of_notMem hname]
    | cons next rest =>
      have hjoin : joinComponents (name :: next :: rest)
          = name ++ '/' :: joinComponents (next :: rest) := by
        rw [joinComponents, List.intercalate_cons_cons, List.append_assoc]
        rfl
      rw [hjoin, pieces, Text.splitWhere_append_cons (by decide), ← pieces, ← pieces,
        pieces_of_notMem hname, ih (List.cons_ne_nil _ _) hrest]
      rfl

/-- Names are the components of the path that they make. -/
theorem parts_joinComponents (hname : ∀ name ∈ names, isName name = true)
    (hslash : ∀ name ∈ names, '/' ∉ name) : parts (joinComponents names) = names := by
  cases names with
  | nil => rfl
  | cons name rest =>
    have hne : joinComponents (name :: rest) ≠ [] := by
      intro hnil
      have hpieces := pieces_joinComponents (List.cons_ne_nil name rest) hslash
      rw [hnil] at hpieces
      obtain ⟨rfl, -⟩ := List.cons_eq_cons.1 hpieces
      cases hname [] List.mem_cons_self
    rw [parts, if_neg hne, pieces_joinComponents (List.cons_ne_nil _ _) hslash]

/-- A path of names leads down by all of them. -/
theorem follow?_joinComponents (hname : ∀ name ∈ names, isName name = true)
    (hslash : ∀ name ∈ names, '/' ∉ name) (path : List (List Char)) :
    follow? path (joinComponents names) = some (names.reverse ++ path) := by
  cases names with
  | nil => rfl
  | cons name rest =>
    rw [follow?, pieces_joinComponents (List.cons_ne_nil _ _) hslash,
      foldlM_addComponent_names hname]

end

/-! ## The joined path -/

/-- A text with slashes in the place of backslashes. -/
def withSlashes (cs : List Char) : List Char := cs.map fun c => if c = '\\' then '/' else c

/-- Whether a text starts at a root of assets. -/
def startsAtAssets (cs : List Char) : Bool := assetRoots.any fun root => (Text.after? root cs).isSome

/-- A text behind the directory that it starts from. -/
def placed (file : String) (cs : List Char) : List Char :=
  if startsAtAssets cs then cs else directory file.toList ++ cs

/-- The path that an include text makes in a file, with all its components. -/
def joined (file text : String) : List Char := placed file (withSlashes text.toList)

/-- Whether a file stands in the root directory. -/
def IsAtRoot (file : String) : Prop := components? (directory file.toList) = some []

section

variable {file text : String} {cs front back : List Char} {names : List (List Char)}

theorem resolve?_eq (file text : String) : resolve? file text
    = (follow? [] (joined file text)).map fun path => String.ofList (joinComponents path.reverse) := by
  change (components? (joined file text)).map _ = _
  rw [components?_eq, Option.map_map]
  rfl

theorem withSlashes_of_notMem (h : '\\' ∉ cs) : withSlashes cs = cs := by
  have hsame : ∀ c ∈ cs, (if c = '\\' then '/' else c) = c := by
    intro c hc
    rw [if_neg]
    rintro rfl
    exact h hc
  rw [withSlashes, List.map_congr_left hsame, List.map_id']

theorem notMem_withSlashes (cs : List Char) : '\\' ∉ withSlashes cs := by
  rw [withSlashes, List.mem_map]
  rintro ⟨c, -, hc⟩
  split at hc
  · cases hc
  · contradiction

theorem withSlashes_append_cons (front back : List Char) :
    withSlashes (front ++ '/' :: back) = withSlashes front ++ '/' :: withSlashes back := by
  rw [withSlashes, List.map_append]
  rfl

theorem startsAtAssets_iff : startsAtAssets cs = true ↔ ∃ root ∈ assetRoots, root.toList <+: cs := by
  simp only [startsAtAssets, List.any_eq_true, Option.isSome_iff_exists, Text.after?_eq_some_iff]
  exact exists_congr fun root => and_congr_right fun _ => exists_congr fun rest => eq_comm

/-- A root of assets is a name with a slash behind it. -/
theorem exists_of_mem_assetRoots {root : String} (h : root ∈ assetRoots) :
    ∃ name, root.toList = name ++ ['/'] ∧ '/' ∉ name := by
  rw [assetRoots, List.mem_cons, List.mem_singleton] at h
  rcases h with rfl | rfl
  · exact ⟨"Assets".toList, by decide, by decide⟩
  · exact ⟨"Packages".toList, by decide, by decide⟩

/-- Whether a text starts at a root of assets is told by what stands in front of any slash in it. -/
theorem startsAtAssets_append_cons (front back : List Char) :
    startsAtAssets (front ++ '/' :: back) = startsAtAssets (front ++ ['/']) := by
  have hwhole : front ++ '/' :: back = (front ++ ['/']) ++ back := by simp
  rw [Bool.eq_iff_iff, startsAtAssets_iff, startsAtAssets_iff, hwhole]
  refine exists_congr fun root => and_congr_right fun hroot => ?_
  obtain ⟨name, hname, hslash⟩ := exists_of_mem_assetRoots hroot
  refine ⟨fun h => ?_, fun h => h.trans (List.prefix_append _ _)⟩
  rcases List.prefix_or_prefix_of_prefix h (List.prefix_append (front ++ ['/']) back) with h | h
  · exact h
  · -- A slash within the root is the one at its end.
    rw [hname] at h ⊢
    rcases List.prefix_concat_iff.1 h with heq | h
    · rw [heq]
    · exact absurd (h.subset (by simp)) hslash

/-- The directory of a file is nothing, or it ends with a slash. -/
theorem directory_cases (cs : List Char) :
    directory cs = [] ∨ ∃ front, directory cs = front ++ ['/'] := by
  rw [directory, Text.dropEndWhile]
  cases hrest : cs.reverse.dropWhile (· != '/') with
  | nil => exact .inl rfl
  | cons c rest =>
    have hc := List.head_dropWhile_not (· != '/') (l := cs.reverse) (by rw [hrest]; exact List.cons_ne_nil _ _)
    simp only [hrest, List.head_cons, bne_eq_false_iff_eq] at hc
    exact .inr ⟨rest.reverse, by rw [hc, List.reverse_cons]⟩

/-- Behind the directory of a file the way goes on from where the directory leads. -/
theorem follow?_directory_append (file cs : List Char) : follow? [] (directory file ++ cs)
    = (follow? [] (directory file)).bind (follow? · cs) := by
  rcases directory_cases file with hnil | ⟨front, hfront⟩
  · rw [hnil]
    rfl
  · have hdirectory : follow? [] (front ++ ['/']) = follow? [] front := by
      rw [follow?_append_cons]
      exact Option.bind_fun_some _
    rw [hfront, hdirectory, List.append_assoc]
    exact follow?_append_cons [] front cs

/-- A file without a directory in its path stands in the root directory. -/
theorem isAtRoot_of_notMem (h : '/' ∉ file.toList) : IsAtRoot file := by
  have hnil : directory file.toList = [] := by
    rcases directory_cases file.toList with hnil | ⟨front, hfront⟩
    · exact hnil
    · have hdirectory : front ++ ['/'] <+: file.toList := hfront ▸ Text.prefix_dropEndWhile _ _
      exact absurd (hdirectory.subset (by simp)) h
  rw [IsAtRoot, hnil]
  rfl

/-- A file path with slashes only makes joined paths with slashes only. -/
theorem notMem_joined (h : '\\' ∉ file.toList) (text : String) : '\\' ∉ joined file text := by
  rw [joined, placed]
  split
  · exact notMem_withSlashes _
  · rw [List.mem_append, not_or]
    exact ⟨fun hmem => h ((Text.prefix_dropEndWhile _ _).subset hmem), notMem_withSlashes _⟩

/-! ## The path that is meant -/

/-- Components that are names, and nothing but components of a path with slashes. -/
structure AreNames (names : List (List Char)) : Prop where
  isName : ∀ name ∈ names, isName name = true
  slash : ∀ name ∈ names, '/' ∉ name
  backslash : ∀ name ∈ names, '\\' ∉ name

/-- A path of names is a path with slashes. -/
theorem AreNames.notMem (h : AreNames names) : '\\' ∉ joinComponents names :=
  Text.notMem_intercalate (by decide) h.backslash

/-- What an include text means is a path of names, as deep as its components lead. -/
theorem exists_of_resolve? (hfile : '\\' ∉ file.toList) {path : String}
    (h : resolve? file text = some path) : ∃ names, path.toList = joinComponents names ∧
      AreNames names ∧
      names.length + (pieces (joined file text)).count up = (pieces (joined file text)).countP isName := by
  rw [resolve?_eq, Option.map_eq_some_iff] at h
  obtain ⟨out, hout, rfl⟩ := h
  have hmem : ∀ name ∈ out.reverse, name ∈ pieces (joined file text) ∧ isName name = true := by
    intro name hname
    rcases mem_of_foldlM hout name (List.mem_reverse.1 hname) with hnil | hmem
    · cases hnil
    · exact hmem
  refine ⟨out.reverse, String.toList_ofList, ⟨fun name hname => (hmem name hname).2,
    fun name hname hslash => ?_, fun name hname hbackslash => ?_⟩, ?_⟩
  · exact (mem_of_mem_pieces (hmem name hname).1 hslash).1 rfl
  · exact notMem_joined hfile text (mem_of_mem_pieces (hmem name hname).1 hbackslash).2
  · have hlength := length_of_foldlM hout
    rw [List.length_reverse, hlength, List.length_nil, Nat.zero_add]

/-- A path of names means itself, from the root directory and wherever it starts at a root of assets. -/
theorem AreNames.resolve?_eq (h : AreNames names) {path : String}
    (hpath : path.toList = joinComponents names)
    (hroot : IsAtRoot file ∨ startsAtAssets path.toList = true) : resolve? file path = some path := by
  have hself : withSlashes path.toList = path.toList := withSlashes_of_notMem (hpath ▸ h.notMem)
  have hfollow : follow? [] (joined file path) = some names.reverse := by
    have hnames : follow? [] path.toList = some names.reverse := by
      rw [hpath, follow?_joinComponents h.isName h.slash, List.append_nil]
    rw [joined, hself, placed]
    split
    · exact hnames
    · rename_i hassets
      have hdirectory : follow? [] (directory file.toList) = some [] := by
        have hfile := hroot.resolve_right hassets
        rw [IsAtRoot, components?_eq, Option.map_eq_some_iff] at hfile
        obtain ⟨out, hout, hnil⟩ := hfile
        rw [hout, List.reverse_eq_nil_iff.1 hnil]
      rw [follow?_directory_append, hdirectory]
      exact hnames
  rw [Include.resolve?_eq, hfollow, Option.map_some, List.reverse_reverse, ← hpath, String.ofList_toList]

/-! ## Spellings -/

/-- What leads nowhere: nothing, `.`, or a name that `..` takes back. -/
inductive IsIdle : List Char → Prop where
  | nothing : IsIdle []
  | here : IsIdle ['.']
  | detour {name : List Char} (named : isName name = true) (slash : '/' ∉ name)
      (backslash : '\\' ∉ name) : IsIdle (name ++ '/' :: up)

/-- One change in the spelling of a text: a backslash for a slash, or, behind some slash of the text,
one more component that leads nowhere, in front of others or at the end. -/
inductive Respelling : List Char → List Char → Prop where
  | backslash (front back : List Char) : Respelling (front ++ '/' :: back) (front ++ '\\' :: back)
  | within (front back : List Char) {idle : List Char} (leads : IsIdle idle) :
      Respelling (front ++ '/' :: back) (front ++ '/' :: (idle ++ '/' :: back))
  | atEnd (front back : List Char) {idle : List Char} (leads : IsIdle idle) :
      Respelling (front ++ '/' :: back) (front ++ '/' :: (back ++ '/' :: idle))

theorem IsIdle.follow?_eq {idle : List Char} (h : IsIdle idle) (path : List (List Char)) :
    follow? path idle = some path := by
  cases h with
  | nothing => rfl
  | here => rfl
  | @detour name named slash backslash =>
    rw [follow?_append_cons, follow?, pieces_of_notMem slash, List.foldlM_cons,
      addComponent_of_isName named]
    rfl

theorem IsIdle.withSlashes_eq {idle : List Char} (h : IsIdle idle) : withSlashes idle = idle := by
  refine withSlashes_of_notMem ?_
  cases h with
  | nothing => exact List.not_mem_nil
  | here => decide
  | detour named slash backslash =>
    rw [List.mem_append, not_or]
    exact ⟨backslash, by decide⟩

/-- Behind a slash of the text, the joined path goes on as the text does. -/
theorem exists_placed_append_cons (file : String) (front : List Char) :
    ∃ start, ∀ back, placed file (front ++ '/' :: back) = start ++ '/' :: back := by
  refine ⟨if startsAtAssets (front ++ ['/']) then front else directory file.toList ++ front,
    fun back => ?_⟩
  rw [placed, startsAtAssets_append_cons]
  split
  · rfl
  · rw [List.append_assoc]

/-- A change in the spelling does not change the way. -/
theorem Respelling.follow?_eq {cs cs' : List Char} (h : Respelling cs cs') (file : String) :
    follow? [] (placed file (withSlashes cs')) = follow? [] (placed file (withSlashes cs)) := by
  cases h with
  | backslash front back =>
    have hsame : withSlashes (front ++ '\\' :: back) = withSlashes (front ++ '/' :: back) := by
      rw [withSlashes_append_cons, withSlashes, List.map_append]
      rfl
    rw [hsame]
  | within front back leads =>
    obtain ⟨start, hstart⟩ := exists_placed_append_cons file (withSlashes front)
    simp only [withSlashes_append_cons, leads.withSlashes_eq, hstart, follow?_append_cons,
      leads.follow?_eq, Option.bind_some]
  | atEnd front back leads =>
    obtain ⟨start, hstart⟩ := exists_placed_append_cons file (withSlashes front)
    simp only [withSlashes_append_cons, leads.withSlashes_eq, hstart, follow?_append_cons,
      leads.follow?_eq, Option.bind_fun_some]

/-- Two spellings of one text: they differ by such changes, made forwards or backwards. -/
def Respells (text other : String) : Prop := Relation.EqvGen Respelling text.toList other.toList

theorem Respells.resolve?_eq {other : String} (h : Respells text other) (file : String) :
    resolve? file other = resolve? file text := by
  have hfollow : ∀ cs cs', Relation.EqvGen Respelling cs cs' →
      follow? [] (placed file (withSlashes cs')) = follow? [] (placed file (withSlashes cs)) := by
    intro cs cs' h
    induction h with
    | rel cs cs' h => exact h.follow?_eq file
    | refl cs => rfl
    | symm cs cs' h ih => exact ih.symm
    | trans cs cs' cs'' h h' ih ih' => exact ih'.trans ih
  rw [Include.resolve?_eq, Include.resolve?_eq, joined, joined, hfollow _ _ h]

/-! ## Main result -/

/-- **An include text means one path.**  In a file whose path is written with slashes:

- it means none exactly if some first components of the joined path lead further up than down;
- otherwise no component of the path that it means is empty, `.` or `..`, and there are as many as the
  joined path has names that no `..` takes back;
- that path means itself, in every file of the root directory, and in every file if it starts at a root
  of assets;
- every spelling of the text means the same. -/
theorem resolve?_isCanonical (hfile : '\\' ∉ file.toList) :
    (resolve? file text = none ↔ ∃ front, front <+: pieces (joined file text) ∧ Climbs front) ∧
      (∀ path, resolve? file text = some path →
        ((∀ component ∈ parts path.toList, isName component = true) ∧
          (parts path.toList).length + (pieces (joined file text)).count up
            = (pieces (joined file text)).countP isName) ∧
        (∀ other, IsAtRoot other → resolve? other path = some path) ∧
        (startsAtAssets path.toList = true → ∀ other, resolve? other path = some path)) ∧
      ∀ other, Respells text other → resolve? file other = resolve? file text := by
  refine ⟨?_, fun path hpath => ?_, fun other hother => hother.resolve?_eq file⟩
  · rw [resolve?_eq, Option.map_eq_none_iff, follow?, foldlM_addComponent_eq_none_iff]
    simp only [List.length_nil, Nat.zero_add, Climbs]
  · obtain ⟨names, hnames, hare, hlength⟩ := exists_of_resolve? hfile hpath
    have hparts : parts path.toList = names := by
      rw [hnames, parts_joinComponents hare.isName hare.slash]
    rw [hparts]
    exact ⟨⟨hare.isName, hlength⟩, fun other hroot => hare.resolve?_eq hnames (.inl hroot),
      fun hassets other => hare.resolve?_eq hnames (.inr hassets)⟩

end

/-- A backslash, a detour and a `.` lead from a directory within the assets to a file beside it, whose
path means itself everywhere. -/
theorem resolve?_isCanonical_of_detour : '\\' ∉ "Assets/Toon/a.shader".toList ∧
    resolve? "Assets/Toon/a.shader" "..\\Lib/x/.././b.cginc" = some "Assets/Lib/b.cginc" ∧
    resolve? "a.shader" "Assets/Lib/b.cginc" = some "Assets/Lib/b.cginc" ∧
    resolve? "Assets/Toon/a.shader" "Assets/Lib/b.cginc" = some "Assets/Lib/b.cginc" := by
  have hfile : '\\' ∉ "Assets/Toon/a.shader".toList := by decide
  have hplain : resolve? "Assets/Toon/a.shader" "../Lib/b.cginc" = some "Assets/Lib/b.cginc" := by
    decide +kernel
  have hdetour : Respelling "../Lib/b.cginc".toList "../Lib/x/../b.cginc".toList :=
    .within "../Lib".toList "b.cginc".toList
      (@IsIdle.detour ['x'] (by decide) (by decide) (by decide))
  have hhere : Respelling "../Lib/x/../b.cginc".toList "../Lib/x/.././b.cginc".toList :=
    .within "../Lib/x/..".toList "b.cginc".toList .here
  have hbackslash : Respelling "../Lib/x/.././b.cginc".toList "..\\Lib/x/.././b.cginc".toList :=
    .backslash "..".toList "Lib/x/.././b.cginc".toList
  obtain ⟨-, hmeant, hspelled⟩ := @resolve?_isCanonical _ "../Lib/b.cginc" hfile
  obtain ⟨-, hroot, hassets⟩ := hmeant _ hplain
  refine ⟨hfile, ?_, hroot _ (isAtRoot_of_notMem (by decide)), hassets (by decide +kernel) _⟩
  exact (hspelled _ (.trans _ _ _ (.rel _ _ hdetour)
    (.trans _ _ _ (.rel _ _ hhere) (.rel _ _ hbackslash)))).trans hplain

end ShaderMerge.Include
