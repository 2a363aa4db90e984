import Mathlib.Logic.Relation
import ShaderMerge.Proofs.Include.Resolution

/-!
# A load in any order

A load may take up the files that wait in any order (`Loading.Finishes`).  `Loading.IsSound` is what
every order keeps true: what has been read is what the lines of the files say, and what is queued can
be reached from the file of the shader.  When no file waits, exactly the files that can be reached have
been read (`IsSound.contains_iff`), and a load that fails has met one that makes it fail
(`IsSound.of_finishes`).
-/

namespace ShaderMerge.Include

/-! ## Files that are reached -/

/-- A file that can be read and whose raw lines have these logical lines. -/
def Reads (p : Project) (file : String) (n : LogicalLine.Normalized) : Prop :=
  ∃ raw, p.readLines? file = some raw ∧ LogicalLine.ofRaw file raw = .ok n

/-- A file with a directive that names another file of the project. -/
def Includes (p : Project) (file path : String) : Prop :=
  ∃ n, Reads p file n ∧ ∃ line ∈ n.lines, ∃ raw, resolution? p file line = some (.found path raw)

/-- A file that is the one of the shader, or is included by one that is reached. -/
def Reachable (p : Project) (main : String) : String → Prop := Relation.ReflTransGen (Includes p) main

/-- A file that makes a load fail. -/
inductive Fails (p : Project) (file : String) : Prop where
  /-- A literal or a comment is left open. -/
  | tokens {raw : List String} {e : ShaderError} (read : p.readLines? file = some raw)
      (open_ : LogicalLine.ofRaw file raw = .error e)
  /-- A line of a construct that is refused. -/
  | construct {n : LogicalLine.Normalized} {line : String} {e : ShaderError} (read : Reads p file n)
      (mem : line ∈ n.lines) (refused : Loading.checkSupported line = .error e)
  /-- A directive that names a file of lilToon. -/
  | lilToon {n : LogicalLine.Normalized} {line target : String} (read : Reads p file n)
      (mem : line ∈ n.lines) (names : target? line = some target)
      (refused : (Text.after? "lil_" (fileName target).toList).isSome = true)

theorem Reads.unique {p : Project} {file : String} {n n' : LogicalLine.Normalized}
    (h : Reads p file n) (h' : Reads p file n') : n = n' := by
  obtain ⟨raw, hread, hn⟩ := h
  obtain ⟨raw', hread', hn'⟩ := h'
  rw [hread, Option.some.injEq] at hread'
  rw [← hread', hn, Except.ok.injEq] at hn'
  exact hn'

theorem Fails.of_accept {p : Project} {file : String} {raw : List String} {e : ShaderError}
    (hread : p.readLines? file = some raw) (h : accept file raw = .error e) : Fails p file := by
  rw [accept] at h
  cases hn : LogicalLine.ofRaw file raw with
  | error e => exact .tokens hread hn
  | ok n =>
    rw [hn] at h
    dsimp only [bind, Except.bind] at h
    split at h
    · rename_i e hsome
      obtain ⟨line, hmem, hrefusal⟩ := List.exists_of_findSome?_eq_some hsome
      rw [refusal?] at hrefusal
      split at hrefusal
      · rename_i e hrefused
        exact .construct ⟨raw, hread, hn⟩ hmem hrefused
      · obtain ⟨target, htarget, hlil⟩ := Option.bind_eq_some_iff.1 hrefusal
        split at hlil
        · exact .lilToon ⟨raw, hread, hn⟩ hmem htarget ‹_›
        · cases hlil
    · cases h

/-- A file whose lines are all accepted does not make a load fail. -/
theorem Reads.not_fails {p : Project} {file : String} {n : LogicalLine.Normalized}
    (h : Reads p file n) (haccept : ∀ line ∈ n.lines, refusal? line = none) : ¬ Fails p file := by
  intro hfails
  cases hfails with
  | tokens hread hopen =>
    obtain ⟨raw, hread', hn⟩ := h
    rw [hread, Option.some.injEq] at hread'
    rw [hread', hn] at hopen
    cases hopen
  | construct hread hmem hrefused =>
    have hnone := haccept _ (h.unique hread ▸ hmem)
    rw [refusal?, hrefused] at hnone
    cases hnone
  | lilToon hread hmem htarget hlil =>
    have hnone := haccept _ (h.unique hread ▸ hmem)
    rw [refusal?] at hnone
    split at hnone
    · cases hnone
    · rw [htarget, Option.bind_some, if_pos hlil] at hnone
      cases hnone

namespace Loading

variable {p : Project} {main : String} {s s' : Loading}

/-! ## What waits -/

/-- What is queued has been taken up or waits with its own raw lines. -/
structure IsPlaced (p : Project) (taken : String → Prop) (s : Loading) : Prop where
  placed : ∀ path, s.queued.contains path = true ↔ taken path ∨ ∃ raw, (path, raw) ∈ s.pending
  raw : ∀ path raw, (path, raw) ∈ s.pending → p.readLines? path = some raw

theorem IsPlaced.followLine {taken : String → Prop} {file line : String} (h : IsPlaced p taken s) :
    IsPlaced p taken (followLine p file s line) := by
  rw [Loading.followLine, resolution?]
  cases target? line with
  | none => exact h
  | some target =>
    show IsPlaced p taken (s.follow (resolution p file target))
    rw [follow]
    split
    · rename_i path raw hfound
      split
      · exact h
      · refine ⟨fun key => ?_, fun key other hmem => ?_⟩
        · rw [NameSet.add, Table.contains_insert, Bool.or_eq_true, decide_eq_true_iff, h.placed]
          simp only [List.mem_cons, Prod.mk.injEq]
          constructor
          · rintro (rfl | htaken | ⟨other, hmem⟩)
            · exact .inr ⟨raw, .inl ⟨rfl, rfl⟩⟩
            · exact .inl htaken
            · exact .inr ⟨other, .inr hmem⟩
          · rintro (htaken | ⟨other, ⟨rfl, -⟩ | hmem⟩)
            · exact .inr (.inl htaken)
            · exact .inl rfl
            · exact .inr (.inr ⟨other, hmem⟩)
        · rcases List.mem_cons.1 hmem with heq | hmem
          · cases heq
            exact readLines?_of_found (found_of_found? hfound)
          · exact h.raw key other hmem
    · exact ⟨h.placed, h.raw⟩

theorem IsPlaced.foldl {taken : String → Prop} (h : IsPlaced p taken s) (file : String)
    (lines : List String) : IsPlaced p taken (lines.foldl (Loading.followLine p file) s) := by
  induction lines generalizing s with
  | nil => exact h
  | cons line rest ih => exact ih h.followLine

/-! ## Any order -/

/-- A load that takes up the files that wait in any order. -/
inductive Finishes (p : Project) : Loading → Except ShaderError Loading → Prop where
  /-- No file waits. -/
  | done {s : Loading} (pending : s.pending = []) : Finishes p s (.ok s)
  /-- A file that waits is refused. -/
  | fail {s : Loading} (front back : List (String × List String)) {file : String}
      {raw : List String} {e : ShaderError} (pending : s.pending = front ++ (file, raw) :: back)
      (taken : takeUp p { s with pending := front ++ back } file raw = .error e) :
      Finishes p s (.error e)
  /-- A file that waits is taken up. -/
  | next {s s₁ : Loading} (front back : List (String × List String)) {file : String}
      {raw : List String} {result : Except ShaderError Loading}
      (pending : s.pending = front ++ (file, raw) :: back)
      (taken : takeUp p { s with pending := front ++ back } file raw = .ok s₁)
      (rest : Finishes p s₁ result) : Finishes p s result

theorem finishes_finish (p : Project) (s : Loading) : Finishes p s (finish p s) := by
  fun_induction finish p s with
  | case1 s hpending => exact .done hpending
  | case2 s file raw rest hpending e htaken =>
    exact .fail [] rest hpending htaken
  | case3 s file raw rest hpending s₁ htaken ih =>
    exact .next [] rest hpending htaken ih

/-- What every order keeps true of a load of the file of a shader. -/
structure IsSound (p : Project) (main : String) (s : Loading) : Prop where
  /-- The file of the shader is queued. -/
  start : s.queued.contains main = true
  /-- What is queued can be reached. -/
  reached : ∀ path, s.queued.contains path = true → Reachable p main path
  /-- What is queued has been read or waits. -/
  placed : IsPlaced p (fun path => s.files.contains path = true) s
  /-- A file that has been read is accepted, its lines stand for its own logical lines, and what it
  includes is queued. -/
  files : ∀ file lines, s.files.get? file = some lines → ∃ n, Reads p file n ∧
    (∀ line ∈ n.lines, refusal? line = none) ∧ lines = n.lines.flatMap (standIn p file) ∧
    ∀ line ∈ n.lines, ∀ path raw, resolution? p file line = some (.found path raw) →
      s.queued.contains path = true
  /-- The names compared are those of the files that have been read. -/
  regionNames : ∀ name, s.regionNames.contains name = true ↔
    ∃ file n, s.files.contains file = true ∧ Reads p file n ∧ name ∈ n.regionNames
  /-- What is listed as unresolved is so in a file that has been read. -/
  unresolved : ∀ text, text ∈ s.unresolved ↔
    ∃ file n, s.files.contains file = true ∧ Reads p file n ∧
      ∃ line ∈ n.lines, (resolution? p file line).bind (·.unresolved?) = some text

theorem IsSound.isReadable (h : IsSound p main s) : IsReadable p s := by
  intro path hqueued
  rcases (h.placed.placed path).1 hqueued with hcontains | ⟨raw, hmem⟩
  · obtain ⟨lines, hget⟩ := Option.isSome_iff_exists.1 hcontains
    obtain ⟨n, ⟨raw, hread, -⟩, -⟩ := h.files path lines hget
    rw [hread]
    rfl
  · rw [h.placed.raw path raw hmem]
    rfl

theorem isSound_start {raw : List String} (hread : p.readLines? main = some raw) :
    IsSound p main ⟨∅, NameSet.add ∅ main, [(main, raw)], ∅, []⟩ := by
  have hqueued : ∀ path, (NameSet.add ∅ main).contains path = true ↔ path = main := by
    intro path
    rw [NameSet.add, Table.contains_insert, Bool.or_eq_true, decide_eq_true_iff]
    exact or_iff_left Bool.false_ne_true
  have hnone : ∀ path, (∅ : Table String (List String)).contains path = false := fun path => rfl
  refine ⟨(hqueued main).2 rfl, ?_, ⟨?_, ?_⟩, fun _ _ hget => ?_, ?_, ?_⟩
  · intro path hpath
    rw [(hqueued path).1 hpath]
    exact .refl
  · intro path
    simp [hqueued, hnone]
  · intro path other hmem
    cases List.mem_singleton.1 hmem
    exact hread
  · cases hget
  · intro name
    constructor
    · intro hcontains
      cases hcontains
    · rintro ⟨file, -, hcontains, -⟩
      rw [hnone] at hcontains
      cases hcontains
  · intro text
    constructor
    · intro hmem
      cases hmem
    · rintro ⟨file, -, hcontains, -⟩
      rw [hnone] at hcontains
      cases hcontains

section Absorb

variable {front back : List (String × List String)} {file : String} {raw : List String}
  {n : LogicalLine.Normalized}

/-- The file that is taken up no longer waits. -/
theorem IsSound.placed_without (h : IsSound p main s)
    (hpending : s.pending = front ++ (file, raw) :: back) :
    IsPlaced p (fun path => path = file ∨ s.files.contains path = true)
      { s with pending := front ++ back } := by
  refine ⟨fun path => ?_, fun path other hmem => ?_⟩
  · rw [h.placed.placed, hpending]
    simp only [List.mem_append, List.mem_cons, Prod.mk.injEq]
    constructor
    · rintro (hcontains | ⟨other, hfront | ⟨rfl, -⟩ | hback⟩)
      · exact .inl (.inr hcontains)
      · exact .inr ⟨other, .inl hfront⟩
      · exact .inl (.inl rfl)
      · exact .inr ⟨other, .inr hback⟩
    · rintro ((rfl | hcontains) | ⟨other, hfront | hback⟩)
      · exact .inr ⟨raw, .inr (.inl ⟨rfl, rfl⟩)⟩
      · exact .inl hcontains
      · exact .inr ⟨other, .inl hfront⟩
      · exact .inr ⟨other, .inr (.inr hback)⟩
  · refine h.placed.raw path other ?_
    rw [hpending]
    rcases List.mem_append.1 hmem with hfront | hback
    · exact List.mem_append_left _ hfront
    · exact List.mem_append_right _ (List.mem_cons_of_mem _ hback)

theorem files_absorb (p : Project) (s : Loading) (file : String) (n : LogicalLine.Normalized) :
    (s.absorb p file n).files = s.files.insert file (n.lines.flatMap (standIn p file)) := by
  rw [absorb, (files_foldl p file _ n.lines).1]

theorem regionNames_absorb (p : Project) (s : Loading) (file : String)
    (n : LogicalLine.Normalized) :
    (s.absorb p file n).regionNames = NameSet.addAll s.regionNames n.regionNames :=
  (files_foldl p file _ n.lines).2

/-- **One file is taken up.** -/
theorem IsSound.absorb (h : IsSound p main s)
    (hpending : s.pending = front ++ (file, raw) :: back) (haccept : accept file raw = .ok n) :
    IsSound p main (absorb p { s with pending := front ++ back } file n) := by
  obtain ⟨hn, haccepted⟩ := exists_of_accept haccept
  have hwaits : (file, raw) ∈ s.pending := by
    rw [hpending]
    exact List.mem_append_right _ List.mem_cons_self
  have hreads : Reads p file n := ⟨raw, h.placed.raw file raw hwaits, hn⟩
  have hreached : Reachable p main file :=
    h.reached file ((h.placed.placed file).2 (.inr ⟨raw, hwaits⟩))
  have hqueued : ∀ path, (Loading.absorb p { s with pending := front ++ back } file n).queued.contains
      path = true ↔ s.queued.contains path = true ∨
        ∃ line ∈ n.lines, ∃ raw, resolution? p file line = some (.found path raw) :=
    fun path => contains_queued_foldl p file _ n.lines path
  have hfiles := files_absorb p { s with pending := front ++ back } file n
  have hcontains : ∀ path, (s.files.insert file (n.lines.flatMap (standIn p file))).contains path
      = true ↔ path = file ∨ s.files.contains path = true := by
    intro path
    rw [Table.contains_insert, Bool.or_eq_true, decide_eq_true_iff]
  refine ⟨(hqueued main).2 (.inl h.start), ?_, ?_, ?_, ?_, ?_⟩
  · intro path hpath
    rcases (hqueued path).1 hpath with hold | ⟨line, hline, raw, hfound⟩
    · exact h.reached path hold
    · exact hreached.tail ⟨n, hreads, line, hline, raw, hfound⟩
  · have hplaced : IsPlaced p (fun path => path = file ∨ s.files.contains path = true)
        (Loading.absorb p { s with pending := front ++ back } file n) := by
      have hwithout := h.placed_without hpending
      have hfold := IsPlaced.foldl (p := p) (s := { s with
          pending := front ++ back
          regionNames := NameSet.addAll s.regionNames n.regionNames })
        ⟨hwithout.placed, hwithout.raw⟩ file n.lines
      exact ⟨hfold.placed, hfold.raw⟩
    refine ⟨fun path => ?_, hplaced.raw⟩
    rw [hplaced.placed, hfiles, hcontains]
  · intro path lines hget
    rw [hfiles, Table.get?_insert] at hget
    split at hget
    · rename_i hsame
      cases hsame
      cases hget
      exact ⟨n, hreads, haccepted, rfl, fun line hline path raw hfound =>
        (hqueued path).2 (.inr ⟨line, hline, raw, hfound⟩)⟩
    · obtain ⟨n', hreads', haccepted', hlines, hclosed⟩ := h.files path lines hget
      exact ⟨n', hreads', haccepted', hlines, fun line hline next raw hfound =>
        (hqueued next).2 (.inl (hclosed line hline next raw hfound))⟩
  · intro name
    rw [regionNames_absorb, NameSet.contains_addAll, h.regionNames]
    simp only [hfiles, hcontains]
    constructor
    · rintro (⟨path, n', hpath, hrest⟩ | hname)
      · exact ⟨path, n', .inr hpath, hrest⟩
      · exact ⟨file, n, .inl rfl, hreads, hname⟩
    · rintro ⟨path, n', rfl | hpath, hreads', hname⟩
      · exact .inr (hreads.unique hreads' ▸ hname)
      · exact .inl ⟨path, n', hpath, hreads', hname⟩
  · intro text
    refine (mem_unresolved_foldl p file _ n.lines text).trans ?_
    rw [h.unresolved]
    simp only [hfiles, hcontains]
    constructor
    · rintro (⟨path, n', hpath, hrest⟩ | hline)
      · exact ⟨path, n', .inr hpath, hrest⟩
      · exact ⟨file, n, .inl rfl, hreads, hline⟩
    · rintro ⟨path, n', rfl | hpath, hreads', hline⟩
      · exact .inr (hreads.unique hreads' ▸ hline)
      · exact .inl ⟨path, n', hpath, hreads', hline⟩

end Absorb

/-- **A load in any order.**  It ends with all files read, or a file that is reached makes it fail. -/
theorem IsSound.of_finishes {result : Except ShaderError Loading} (h : IsSound p main s)
    (hfinishes : Finishes p s result) :
    (∀ s', result = .ok s' → IsSound p main s' ∧ s'.pending = []) ∧
      ∀ e, result = .error e → ∃ file, Reachable p main file ∧ Fails p file := by
  induction hfinishes with
  | done hpending =>
    refine ⟨?_, nofun⟩
    rintro s' heq
    cases heq
    exact ⟨h, hpending⟩
  | @fail s front back file raw e hpending htaken =>
    refine ⟨nofun, fun _ _ => ?_⟩
    have hwaits : (file, raw) ∈ s.pending := by
      rw [hpending]
      exact List.mem_append_right _ List.mem_cons_self
    have hreadable : IsReadable p { s with pending := front ++ back } := h.isReadable.of_queued rfl
    rw [takeUp_eq hreadable] at htaken
    refine ⟨file, h.reached file ((h.placed.placed file).2 (.inr ⟨raw, hwaits⟩)), ?_⟩
    cases haccept : accept file raw with
    | error e => exact .of_accept (h.placed.raw file raw hwaits) haccept
    | ok n =>
      rw [haccept] at htaken
      cases htaken
  | @next s s₁ front back file raw result hpending htaken _ ih =>
    have hreadable : IsReadable p { s with pending := front ++ back } := h.isReadable.of_queued rfl
    rw [takeUp_eq hreadable] at htaken
    obtain ⟨n, haccept, rfl⟩ := exists_ok_of_map htaken
    exact ih (h.absorb hpending haccept)

/-- When no file waits, exactly the files that are reached have been read. -/
theorem IsSound.contains_iff (h : IsSound p main s) (hpending : s.pending = []) (file : String) :
    s.files.contains file = true ↔ Reachable p main file := by
  have hqueued : ∀ path, s.queued.contains path = true ↔ s.files.contains path = true := by
    intro path
    rw [h.placed.placed, hpending]
    simp
  constructor
  · exact fun hcontains => h.reached file ((hqueued file).2 hcontains)
  · intro hreached
    induction hreached with
    | refl => exact (hqueued main).1 h.start
    | tail _ hincludes ih =>
      obtain ⟨n, hreads, line, hline, raw, hfound⟩ := hincludes
      obtain ⟨lines, hget⟩ := Option.isSome_iff_exists.1 ih
      obtain ⟨n', hreads', -, -, hclosed⟩ := h.files _ lines hget
      exact (hqueued _).1 (hclosed line (hreads.unique hreads' ▸ hline) _ raw hfound)

end Loading

/-! ## The sources -/

/-- The sources that a load leaves when no file waits. -/
def Sources.ofLoading (path : String) (s : Loading) : Sources :=
  let spelledOut := s.files.values.any fun lines =>
    lines.any fun line => target? line == some lightingFile
  { main := path
    files := if spelledOut then s.files.insert lightingFile lightingLines else s.files
    regionNames := s.regionNames
    unresolved := s.unresolved }

/-- The results of loads that take up the files in any order. -/
inductive Loads (p : Project) (path : String) : Except ShaderError Sources → Prop where
  /-- The file of the shader cannot be read. -/
  | unreadable (absent : p.readLines? path = none) :
      Loads p path (.error (.unreadable path (Project.absentReason path)))
  /-- The file of the shader is read, and then those that it includes. -/
  | read {raw : List String} {result : Except ShaderError Loading}
      (present : p.readLines? path = some raw)
      (finishes : Loading.Finishes p ⟨∅, NameSet.add ∅ path, [(path, raw)], ∅, []⟩ result) :
      Loads p path (result.map (Sources.ofLoading path))

/-- A load takes up the files in one of the orders. -/
theorem loads_load (p : Project) (path : String) : Loads p path (Sources.load p path) := by
  rw [Sources.load]
  split
  · rename_i habsent
    exact .unreadable habsent
  · rename_i raw hpresent
    have hloads := Loads.read hpresent (Loading.finishes_finish p
      ⟨∅, NameSet.add ∅ path, [(path, raw)], ∅, []⟩)
    cases hfinish : Loading.finish p ⟨∅, NameSet.add ∅ path, [(path, raw)], ∅, []⟩ with
    | error e =>
      rw [hfinish] at hloads
      exact hloads
    | ok s =>
      rw [hfinish] at hloads
      exact hloads

/-- A load that succeeds leaves what has been read. -/
theorem exists_isSound_of_loads {p : Project} {main : String} {s : Sources}
    (h : Loads p main (.ok s)) :
    ∃ read, Loading.IsSound p main read ∧ read.pending = [] ∧ s = Sources.ofLoading main read := by
  generalize hresult : Except.ok s = result at h
  cases h with
  | unreadable => cases hresult
  | @read raw result hpresent hfinishes =>
    obtain ⟨read, rfl, hread⟩ := exists_ok_of_map hresult.symm
    obtain ⟨hsound, hpending⟩ :=
      ((Loading.isSound_start hpresent).of_finishes hfinishes).1 read rfl
    exact ⟨read, hsound, hpending, hread.symm⟩

/-- A load that fails has met a file that makes it fail. -/
theorem fails_of_loads {p : Project} {main : String} {e : ShaderError}
    (h : Loads p main (.error e)) :
    p.readLines? main = none ∨ ∃ file, Reachable p main file ∧ Fails p file := by
  generalize hresult : Except.error e = result at h
  cases h with
  | unreadable habsent => exact .inl habsent
  | @read raw result hpresent hfinishes =>
    cases result with
    | ok read => cases hresult
    | error e =>
      exact .inr (((Loading.isSound_start hpresent).of_finishes hfinishes).2 e rfl)

/-- A load that succeeds has met none. -/
theorem not_fails_of_loads {p : Project} {main : String} {s : Sources} (h : Loads p main (.ok s)) :
    ¬ (p.readLines? main = none ∨ ∃ file, Reachable p main file ∧ Fails p file) := by
  obtain ⟨read, hsound, hpending, -⟩ := exists_isSound_of_loads h
  rintro (habsent | ⟨file, hreached, hfails⟩)
  · have hpresent := hsound.isReadable main hsound.start
    rw [habsent] at hpresent
    cases hpresent
  · obtain ⟨lines, hget⟩ :=
      Option.isSome_iff_exists.1 ((hsound.contains_iff hpending file).2 hreached)
    obtain ⟨n, hreads, haccepted, -⟩ := hsound.files file lines hget
    exact hreads.not_fails haccepted hfails

end ShaderMerge.Include
