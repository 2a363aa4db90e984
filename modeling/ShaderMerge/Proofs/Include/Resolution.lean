import Mathlib.Data.List.TakeWhile
import ShaderMerge.Include.Sources
import ShaderMerge.Proofs.Include.Run
import ShaderMerge.Proofs.Table

/-!
# What a load does with a file

Every include directive of a file has a `Resolution`, which depends on the project and on the file but
not on what the load has seen so far.  It says which lines stand for the directive
(`Resolution.lines`), and what the load notes down (`Loading.follow`).  A file is then taken up in one
step (`takeUp_eq`): its lines are replaced one by one, and what it includes is noted down.

The walk knows the files by the text of the directives only.  `target?_includeLine` is what it reads
in a directive that the load has written.
-/

namespace ShaderMerge.Include

/-- What an include directive of a file names. -/
inductive Resolution where
  /-- The file whose content is spelled out. -/
  | lighting
  /-- A file of the engine; some of them include the one that is spelled out. -/
  | engine (dependent : Bool)
  /-- Nothing, as the text leaves the project. -/
  | outside (target : String)
  /-- A path that cannot be read. -/
  | missing (path : String)
  /-- A file of the project with its raw lines. -/
  | found (path : String) (raw : List String)
deriving DecidableEq, Repr

namespace Resolution

/-- The directive that stands for a directive. -/
def directive (line : String) : Resolution → String
  | lighting => Directive.includeLine lightingFile
  | engine _ | outside _ | missing _ => line
  | found path _ => Directive.includeLine path

/-- The lines that stand for a directive. -/
def lines (line : String) : Resolution → List String
  | engine true => [Directive.includeLine lightingFile, line]
  | r => [r.directive line]

/-- What is listed as unresolved. -/
def unresolved? : Resolution → Option String
  | outside target => some target
  | missing path => some path
  | _ => none

/-- The file that is to be read. -/
def found? : Resolution → Option (String × List String)
  | found path raw => some (path, raw)
  | _ => none

end Resolution

/-- What an include text of a file names. -/
def resolution (p : Project) (file target : String) : Resolution :=
  let name := fileName target
  if name = lightingFile then .lighting
  else if engineFiles.contains name then .engine (lightingDependents.contains name)
  else
    match resolve? file target with
    | none => .outside target
    | some path =>
      match p.readLines? path with
      | none => .missing path
      | some raw => .found path raw

/-- What a line of a file names, if it is an include directive. -/
def resolution? (p : Project) (file line : String) : Option Resolution :=
  (target? line).map (resolution p file)

/-- The lines that stand for a logical line of a file. -/
def standIn (p : Project) (file line : String) : List String :=
  ((resolution? p file line).map (·.lines line)).getD [line]

/-- Why a logical line is refused, if it is. -/
def refusal? (line : String) : Option ShaderError :=
  match Loading.checkSupported line with
  | .error e => some e
  | .ok _ =>
    (target? line).bind fun target =>
      if (Text.after? "lil_" (fileName target).toList).isSome then some (.unsupported .lilToon)
      else none

/-- The logical lines of a file, none of which is refused. -/
def accept (file : String) (raw : List String) : Except ShaderError LogicalLine.Normalized := do
  let normalized ← LogicalLine.ofRaw file raw
  match normalized.lines.findSome? refusal? with
  | some e => .error e
  | none => .ok normalized

theorem exists_of_accept {file : String} {raw : List String} {n : LogicalLine.Normalized}
    (h : accept file raw = .ok n) :
    LogicalLine.ofRaw file raw = .ok n ∧ ∀ line ∈ n.lines, refusal? line = none := by
  obtain ⟨n', hn', haccept⟩ := exists_ok_of_bind h
  split at haccept
  · cases haccept
  · rename_i hnone
    cases haccept
    exact ⟨hn', List.findSome?_eq_none_iff.1 hnone⟩

namespace Loading

variable {p : Project} {s s' : Loading} {file path line : String} {raw lines : List String}
  {n : LogicalLine.Normalized}

/-! ## A file is taken up -/

/-- Note down what a directive names: its file waits if it was not queued. -/
def follow (s : Loading) (r : Resolution) : Loading :=
  match r.found? with
  | some (path, raw) =>
    if s.queued.contains path then s
    else { s with queued := s.queued.add path, pending := (path, raw) :: s.pending }
  | none => { s with unresolved := s.unresolved ++ r.unresolved?.toList }

/-- Note down what a logical line of a file names. -/
def followLine (p : Project) (file : String) (s : Loading) (line : String) : Loading :=
  (resolution? p file line).elim s s.follow

/-- Take up the logical lines of a file. -/
def absorb (p : Project) (s : Loading) (file : String) (n : LogicalLine.Normalized) : Loading :=
  let s := { s with regionNames := NameSet.addAll s.regionNames n.regionNames }
  let s := n.lines.foldl (followLine p file) s
  { s with files := s.files.insert file (n.lines.flatMap (standIn p file)) }

/-- Every file that is queued can be read. -/
def IsReadable (p : Project) (s : Loading) : Prop :=
  ∀ path, s.queued.contains path = true → (p.readLines? path).isSome = true

theorem IsReadable.of_queued (h : IsReadable p s) (hqueued : s'.queued = s.queued) :
    IsReadable p s' := by
  intro path hpath
  rw [hqueued] at hpath
  exact h path hpath

theorem found_of_found? {r : Resolution} (h : r.found? = some (path, raw)) : r = .found path raw := by
  cases r with
  | found => cases h; rfl
  | _ => cases h

theorem readLines?_of_found {target : String} (h : resolution p file target = .found path raw) :
    p.readLines? path = some raw := by
  simp only [resolution] at h
  split at h
  · cases h
  · split at h
    · cases h
    · split at h
      · cases h
      · split at h
        · cases h
        · rename_i hread
          cases h
          exact hread

theorem IsReadable.followLine (h : IsReadable p s) : IsReadable p (followLine p file s line) := by
  rw [Loading.followLine, resolution?]
  cases target? line with
  | none => exact h
  | some target =>
    show IsReadable p (s.follow (resolution p file target))
    rw [follow]
    split
    · rename_i path raw hfound
      split
      · exact h
      · intro key hkey
        rw [NameSet.add, Table.contains_insert, Bool.or_eq_true, decide_eq_true_iff] at hkey
        rcases hkey with rfl | hkey
        · rw [readLines?_of_found (found_of_found? hfound)]
          rfl
        · exact h key hkey
    · exact h.of_queued rfl

/-- Files of the engine aside, a directive is resolved as the load does it. -/
theorem includeDirective_eq (h : IsReadable p s) {target : String} :
    includeDirective p s file line target
      = if (Text.after? "lil_" (fileName target).toList).isSome then
          .error (.unsupported .lilToon)
        else
          .ok (s.follow (resolution p file target), (resolution p file target).lines line) := by
  simp only [includeDirective, resolution]
  split
  · rfl
  split
  · simp [follow, Resolution.found?, Resolution.unresolved?, Resolution.lines,
      Resolution.directive]
  split
  · cases lightingDependents.contains (fileName target) <;>
      simp [follow, Resolution.found?, Resolution.unresolved?, Resolution.lines,
        Resolution.directive]
  cases resolve? file target with
  | none => rfl
  | some path =>
    dsimp only
    cases hread : p.readLines? path with
    | none =>
      -- What cannot be read is not queued.
      have hnew : s.queued.contains path = false := by
        cases hqueued : s.queued.contains path with
        | false => rfl
        | true =>
          have hsome := h path hqueued
          rw [hread] at hsome
          cases hsome
      rw [hnew, if_neg Bool.false_ne_true]
      rfl
    | some raw =>
      show _ = Except.ok (if s.queued.contains path then s else _, _)
      split <;> rfl

/-- **A logical line.**  Whether it is refused depends on its text alone. -/
theorem line_eq (h : IsReadable p s) : Loading.line p file s line =
    match refusal? line with
    | some e => .error e
    | none => .ok (followLine p file s line, standIn p file line) := by
  rw [Loading.line, refusal?, followLine, standIn, resolution?]
  cases checkSupported line with
  | error e => rfl
  | ok =>
    cases target? line with
    | none => rfl
    | some target =>
      show includeDirective p s file line target = _
      rw [includeDirective_eq h, Option.bind_some]
      split <;> rfl

theorem lines_eq (h : IsReadable p s) : Loading.lines p file s lines =
    match lines.findSome? refusal? with
    | some e => .error e
    | none => .ok (lines.foldl (followLine p file) s, lines.flatMap (standIn p file)) := by
  induction lines generalizing s with
  | nil => rfl
  | cons line rest ih =>
    rw [Loading.lines, line_eq h, List.findSome?_cons]
    cases refusal? line with
    | some e => rfl
    | none =>
      show Loading.lines p file (followLine p file s line) rest >>= _ = _
      rw [ih h.followLine]
      cases rest.findSome? refusal? <;> rfl

/-- **A file is taken up.**  Whether it is accepted depends on its text alone. -/
theorem takeUp_eq (h : IsReadable p s) :
    takeUp p s file raw = (accept file raw).map (s.absorb p file) := by
  rw [takeUp, accept]
  cases LogicalLine.ofRaw file raw with
  | error e => rfl
  | ok n =>
    let s₁ : Loading := { s with regionNames := NameSet.addAll s.regionNames n.regionNames }
    have hreadable : IsReadable p s₁ := h.of_queued rfl
    show (Loading.lines p file s₁ n.lines >>= fun done => .ok { done.1 with
      files := done.1.files.insert file done.2 })
        = (match n.lines.findSome? refusal? with
          | some e => Except.error e
          | none => Except.ok n).map (s.absorb p file)
    rw [lines_eq hreadable]
    cases n.lines.findSome? refusal? <;> rfl

/-! ## What a file notes down -/

theorem files_followLine (p : Project) (file : String) (s : Loading) (line : String) :
    (followLine p file s line).files = s.files ∧
      (followLine p file s line).regionNames = s.regionNames := by
  rw [followLine]
  cases resolution? p file line with
  | none => exact ⟨rfl, rfl⟩
  | some r =>
    show (s.follow r).files = s.files ∧ (s.follow r).regionNames = s.regionNames
    rw [follow]
    split
    · split <;> exact ⟨rfl, rfl⟩
    · exact ⟨rfl, rfl⟩

theorem files_foldl (p : Project) (file : String) (s : Loading) (lines : List String) :
    (lines.foldl (followLine p file) s).files = s.files ∧
      (lines.foldl (followLine p file) s).regionNames = s.regionNames := by
  induction lines generalizing s with
  | nil => exact ⟨rfl, rfl⟩
  | cons line rest ih =>
    obtain ⟨hfiles, hnames⟩ := files_followLine p file s line
    exact ⟨(ih _).1.trans hfiles, (ih _).2.trans hnames⟩

theorem contains_queued_followLine (p : Project) (file : String) (s : Loading) (line path : String) :
    (followLine p file s line).queued.contains path = true ↔
      s.queued.contains path = true ∨ ∃ raw, resolution? p file line = some (.found path raw) := by
  rw [followLine]
  cases resolution? p file line with
  | none => simp
  | some r =>
    show (s.follow r).queued.contains path = true ↔ _
    rw [follow]
    split
    · rename_i found raw hfound
      rw [found_of_found? hfound]
      have hsome : (∃ other, some (Resolution.found found raw) = some (.found path other))
          ↔ path = found := by
        constructor
        · rintro ⟨_, heq⟩
          cases heq
          rfl
        · rintro rfl
          exact ⟨raw, rfl⟩
      rw [hsome]
      split
      · rename_i hqueued
        exact ⟨.inl, fun h => h.elim id fun heq => heq ▸ hqueued⟩
      · rw [NameSet.add, Table.contains_insert, Bool.or_eq_true, decide_eq_true_iff, or_comm]
    · rename_i hnone
      refine ⟨.inl, fun h => h.elim id ?_⟩
      rintro ⟨raw, heq⟩
      cases heq
      cases hnone

theorem contains_queued_foldl (p : Project) (file : String) (s : Loading) (lines : List String)
    (path : String) :
    (lines.foldl (followLine p file) s).queued.contains path = true ↔
      s.queued.contains path = true ∨
        ∃ line ∈ lines, ∃ raw, resolution? p file line = some (.found path raw) := by
  induction lines generalizing s with
  | nil => simp
  | cons line rest ih => rw [List.foldl_cons, ih, contains_queued_followLine, or_assoc,
      List.exists_mem_cons_iff]

theorem mem_unresolved_foldl (p : Project) (file : String) (s : Loading) (lines : List String)
    (text : String) :
    text ∈ (lines.foldl (followLine p file) s).unresolved ↔
      text ∈ s.unresolved ∨
        ∃ line ∈ lines, (resolution? p file line).bind (·.unresolved?) = some text := by
  have hline : ∀ (s : Loading) (line : String), (followLine p file s line).unresolved
      = s.unresolved ++ ((resolution? p file line).bind (·.unresolved?)).toList := by
    intro s line
    rw [followLine]
    cases resolution? p file line with
    | none => exact (List.append_nil _).symm
    | some r =>
      cases r with
      | found path raw =>
        show (s.follow (.found path raw)).unresolved = s.unresolved ++ []
        rw [follow, List.append_nil]
        dsimp only [Resolution.found?]
        split <;> rfl
      | _ => rfl
  induction lines generalizing s with
  | nil => simp
  | cons line rest ih =>
    have hrest := ih (followLine p file s line)
    rw [hline, List.mem_append, Option.mem_toList, or_assoc] at hrest
    refine hrest.trans (or_congr_right ?_)
    rw [List.exists_mem_cons_iff]

end Loading

/-! ## Directives are read back -/

/-- The part of a path that is read back from a directive in quotes. -/
def spelled (path : String) : List Char := path.toList.takeWhile fun c => c != '>' && c != '"'

/-- Whether a directive in quotes can name a path. -/
def isSpellable (path : String) : Bool :=
  !path.toList.isEmpty && path.toList.all fun c => c != '>' && c != '"'

/-- What the walk reads in a directive that the load has written. -/
theorem target?_includeLine (path : String) :
    target? (Directive.includeLine path)
      = if (spelled path).isEmpty then none else some (String.ofList (spelled path)) := by
  have hlist : (Directive.includeLine path).toList = '#' :: 'i' :: 'n' :: 'c' :: 'l' :: 'u' :: 'd'
      :: 'e' :: ' ' :: '"' :: (path.toList ++ ['"']) := by
    rw [Directive.includeLine, String.toList_append, String.toList_append]
    rfl
  have hname : (path.toList ++ ['"']).takeWhile (fun c => c != '>' && c != '"')
      = spelled path := by
    rw [spelled, List.takeWhile_append]
    split
    · rename_i hall
      rw [(List.takeWhile_prefix _).eq_of_length hall]
      exact List.append_nil _
    · rfl
  -- The quote behind the path ends the name, if nothing in the path does.
  have hclosed : (spelled path).length ≠ (path.toList ++ ['"']).length := by
    have hle : (spelled path).length ≤ path.toList.length := (List.takeWhile_sublist _).length_le
    rw [List.length_append, List.length_singleton]
    omega
  rw [target?, hlist]
  show (let name := (path.toList ++ ['"']).takeWhile fun c => c != '>' && c != '"'
    if name.isEmpty || name.length = (path.toList ++ ['"']).length then none
    else some (String.ofList name)) = _
  simp only [hname, decide_eq_false hclosed, Bool.or_false]

theorem target?_includeLine_eq_self (path : String) :
    target? (Directive.includeLine path) = some path ↔ isSpellable path = true := by
  rw [target?_includeLine, isSpellable, Bool.and_eq_true, Bool.not_eq_true']
  constructor
  · intro h
    split at h
    · cases h
    · rename_i hne
      have hsame : spelled path = path.toList := by
        have hlists := congrArg String.toList (Option.some.inj h)
        rwa [String.toList_ofList] at hlists
      rw [hsame] at hne
      refine ⟨Bool.eq_false_iff.2 hne, List.all_eq_true.2 fun c hc => ?_⟩
      rw [← hsame] at hc
      exact List.all_eq_true.1 List.all_takeWhile c hc
  · rintro ⟨hne, hall⟩
    have hsame : spelled path = path.toList := by
      rw [spelled, List.takeWhile_eq_self_iff]
      exact List.all_eq_true.1 hall
    rw [hsame, hne, if_neg Bool.false_ne_true, String.ofList_toList]

end ShaderMerge.Include
