import ShaderMerge.LogicalLine
import ShaderMerge.Include.Engine
import ShaderMerge.Include.Line
import ShaderMerge.Include.Path
import ShaderMerge.Include.Project

/-!
# The sources of a shader

`Sources.load` reads the file of a shader and every file that it includes, directly or not, each
once.  Include directives come to name the resolved path, so that every directive that can
be expanded names a key of `files`; one whose file cannot be found keeps its text and is listed
as unresolved.

The files still to be read wait in a list, the one found last first.  The load ends because a
path is queued at most once: `Loading.work` counts the files that are not yet queued and those
that wait, no line raises it, and every file that is taken up lowers it.
-/

namespace ShaderMerge.Include

/-- The files of a shader in logical lines. -/
structure Sources where
  /-- The path of the file of the shader. -/
  main : String
  /-- The logical lines by path. -/
  files : Table String (List String)
  /-- The names compared in the conditions of regions. -/
  regionNames : NameSet
  /-- The includes whose file cannot be found, in the order of their discovery. -/
  unresolved : List String
deriving DecidableEq, Inhabited

/-- The logical lines of the file of the shader. -/
def Sources.mainLines (s : Sources) : List String := (s.files.get? s.main).getD []

/-- The state of a load. -/
structure Loading where
  /-- The files read so far. -/
  files : Table String (List String)
  /-- The paths of the files that were read or wait. -/
  queued : NameSet
  /-- The files that wait, with their raw lines. -/
  pending : List (String × List String)
  /-- The names compared in the conditions of regions so far. -/
  regionNames : NameSet
  /-- The includes not found so far. -/
  unresolved : List String

namespace Loading

/-- The number of files of a project that are not queued yet. -/
def unqueued (p : Project) (queued : NameSet) : Nat :=
  p.entries.countP fun e => !queued.contains e.1

/-- How many files may still be taken up. -/
def work (p : Project) (s : Loading) : Nat := unqueued p s.queued + s.pending.length

/-- A line of a construct that is refused. -/
def checkSupported (line : String) : Except ShaderError Unit :=
  if (Text.after? "#pragma" line.toList).isSome && (Text.wordStrings line)[1]? == some "surface"
  then .error (.unsupported .surfaceShader)
  else if Text.contains "UNITY_INSTANCING_BUFFER_START" line then
    .error (.unsupported .instancingBuffer)
  else .ok ()

/-- What an include directive of a file becomes: the lines that stand for it, and the state in
which its file is queued if it was not. -/
def includeDirective (p : Project) (s : Loading) (file line target : String) :
    Except ShaderError (Loading × List String) :=
  let name := fileName target
  -- Files of the engine are never read; the lighting file stands in front of its dependents.
  if (Text.after? "lil_" name.toList).isSome then .error (.unsupported .lilToon)
  else if name = lightingFile then .ok (s, [Directive.includeLine lightingFile])
  else if engineFiles.contains name then
    .ok (s, (if lightingDependents.contains name then [Directive.includeLine lightingFile]
      else []) ++ [line])
  else
    match resolve? file target with
    | none => .ok ({ s with unresolved := s.unresolved ++ [target] }, [line])
    | some path =>
      if s.queued.contains path then .ok (s, [Directive.includeLine path])
      else
        match p.readLines? path with
        | some raw =>
          .ok ({ s with queued := s.queued.add path, pending := (path, raw) :: s.pending },
            [Directive.includeLine path])
        | none => .ok ({ s with unresolved := s.unresolved ++ [path] }, [line])

/-- What a logical line of a file becomes. -/
def line (p : Project) (file : String) (s : Loading) (line : String) :
    Except ShaderError (Loading × List String) := do
  checkSupported line
  match target? line with
  | none => .ok (s, [line])
  | some target => includeDirective p s file line target

/-- What the logical lines of a file become. -/
def lines (p : Project) (file : String) (s : Loading) :
    List String → Except ShaderError (Loading × List String)
  | [] => .ok (s, [])
  | l :: rest => do
    let (s, first) ← line p file s l
    let (s, others) ← lines p file s rest
    .ok (s, first ++ others)

/-- Take up a file with its raw lines. -/
def takeUp (p : Project) (s : Loading) (file : String) (raw : List String) :
    Except ShaderError Loading := do
  let normalized ← LogicalLine.ofRaw file raw
  let s := { s with regionNames := NameSet.addAll s.regionNames normalized.regionNames }
  let (s, done) ← lines p file s normalized.lines
  .ok { s with files := s.files.insert file done }

/-! ## The load ends -/

theorem unqueued_add_lt {p : Project} {queued : NameSet} {path : String} {raw : List String}
    (hnew : queued.contains path = false) (hread : p.readLines? path = some raw) :
    unqueued p (queued.add path) < unqueued p queued := by
  have hcontains : ∀ key, (queued.add path).contains key
      = (decide (key = path) || queued.contains key) := by
    intro key
    simp only [NameSet.add, Table.contains, Table.get?_insert]
    by_cases h : key = path <;> simp [h]
  obtain ⟨text, htext, -⟩ := Option.map_eq_some_iff.1 hread
  have hmem : (path, text) ∈ p.entries := (Table.mem_entries_iff String.lt_irrefl p _ _).2 htext
  simp only [unqueued, hcontains]
  generalize p.entries = entries at hmem
  induction entries with
  | nil => simp at hmem
  | cons e rest ih =>
    have hle : rest.countP (fun e => !(decide (e.1 = path) || queued.contains e.1))
        ≤ rest.countP fun e => !queued.contains e.1 :=
      List.countP_mono_left fun x _ hx => by
        simp only [Bool.not_or, Bool.and_eq_true] at hx
        exact hx.2
    rcases List.mem_cons.1 hmem with rfl | hmem
    · simp only [List.countP_cons, hnew]
      simp only [decide_true, Bool.true_or, Bool.not_true, Bool.false_eq_true, if_false,
        Bool.not_false, if_true]
      omega
    · have := ih hmem
      simp only [List.countP_cons]
      by_cases he : e.1 = path
      · simp only [he, hnew, decide_true, Bool.true_or, Bool.not_true, Bool.false_eq_true,
          if_false, Bool.not_false, if_true]
        omega
      · simp only [he, decide_false, Bool.false_or]
        omega

theorem work_includeDirective_le {p : Project} {s s' : Loading} {file l target : String}
    {out : List String} (h : includeDirective p s file l target = .ok (s', out)) :
    s'.work p ≤ s.work p := by
  simp only [includeDirective] at h
  split at h
  · cases h
  split at h
  · cases h; exact Nat.le_refl _
  split at h
  · cases h; exact Nat.le_refl _
  split at h
  · cases h; exact Nat.le_refl _
  split at h
  · cases h; exact Nat.le_refl _
  split at h
  · rename_i hqueued _ raw hread
    cases h
    have := unqueued_add_lt (Bool.eq_false_iff.2 hqueued) hread
    simp only [work, List.length_cons]
    omega
  · cases h; exact Nat.le_refl _

theorem work_line_le {p : Project} {file l : String} {s s' : Loading} {out : List String}
    (h : line p file s l = .ok (s', out)) : s'.work p ≤ s.work p := by
  simp only [line, bind, Except.bind] at h
  split at h
  · cases h
  split at h
  · cases h; exact Nat.le_refl _
  · exact work_includeDirective_le h

theorem work_lines_le {p : Project} {file : String} {ls : List String} {s s' : Loading}
    {out : List String} (h : lines p file s ls = .ok (s', out)) : s'.work p ≤ s.work p := by
  induction ls generalizing s out with
  | nil => cases h; exact Nat.le_refl _
  | cons l rest ih =>
    simp only [lines, bind, Except.bind] at h
    split at h
    · cases h
    rename_i first hfirst
    split at h
    · cases h
    rename_i others hothers
    cases h
    exact Nat.le_trans (ih hothers) (work_line_le hfirst)

theorem work_takeUp_le {p : Project} {s s' : Loading} {file : String} {raw : List String}
    (h : takeUp p s file raw = .ok s') : s'.work p ≤ s.work p := by
  simp only [takeUp, bind, Except.bind] at h
  split at h
  · cases h
  split at h
  · cases h
  rename_i done hdone
  obtain ⟨after, out⟩ := done
  cases h
  have hle := work_lines_le hdone
  exact hle

/-- Take up the files that wait until none does. -/
def finish (p : Project) (s : Loading) : Except ShaderError Loading :=
  match _pending : s.pending with
  | [] => .ok s
  | (file, raw) :: rest =>
    match _taken : takeUp p { s with pending := rest } file raw with
    | .error e => .error e
    | .ok s => finish p s
termination_by s.work p
decreasing_by
  have hle := work_takeUp_le _taken
  simp only [work, List.length_cons, _pending] at hle ⊢
  omega

end Loading

/-- Read the file of a shader and all the files that it includes. -/
def Sources.load (p : Project) (path : String) : Except ShaderError Sources :=
  match p.readLines? path with
  | none => .error (.unreadable path (Project.absentReason path))
  | some raw => do
    let s ← Loading.finish p ⟨∅, NameSet.add ∅ path, [(path, raw)], ∅, []⟩
    let spelledOut := s.files.values.any fun lines =>
      lines.any fun line => target? line == some lightingFile
    .ok
      { main := path
        files := if spelledOut then s.files.insert lightingFile lightingLines else s.files
        regionNames := s.regionNames
        unresolved := s.unresolved }

end ShaderMerge.Include
