import ShaderMerge.Proofs.Include.Loading
import ShaderMerge.Proofs.Include.Project

/-!
# A load reads what can be reached

The sources of a shader are its closure under includes (`IsClosure`): the files that can be reached
from the file of the shader, each with the lines that stand for its own, and the file of the engine that
is spelled out if a directive names it.  A load fails only when the file of the shader or one that can be
reached makes it fail.

Main result: this holds in whatever order the files are taken up (`closure_of_load`).  So two loads of a
shader that succeed have the same files (`IsClosure.files_eq`).

What a project has under the name of the file that is spelled out is never used: if an include reaches it,
a directive names it.
-/

namespace ShaderMerge.Include

/-- Whether one of the lines that stand for a directive names the file that is spelled out. -/
def Resolution.namesLighting : Resolution → Bool
  | lighting | engine true => true
  | found path _ => target? (Directive.includeLine path) == some lightingFile
  | _ => false

/-- A file that is reached has a directive for which the lighting file is spelled out. -/
def SpellsOut (p : Project) (main : String) : Prop :=
  ∃ file n line r, Reachable p main file ∧ Reads p file n ∧ line ∈ n.lines ∧
    resolution? p file line = some r ∧ r.namesLighting = true

/-- What the sources of a shader are. -/
structure IsClosure (p : Project) (main : String) (s : Sources) : Prop where
  /-- The file of the shader. -/
  main_eq : s.main = main
  /-- The files are those that can be reached, and the one that is spelled out. -/
  keys : ∀ file, s.files.contains file = true ↔
    Reachable p main file ∨ file = lightingFile ∧ SpellsOut p main
  /-- The lines of a file stand for its own logical lines, unless it is spelled out. -/
  lines : ∀ file, Reachable p main file → ¬ (file = lightingFile ∧ SpellsOut p main) →
    ∃ n, Reads p file n ∧ s.files.get? file = some (n.lines.flatMap (standIn p file))
  /-- What is spelled out does not depend on the project. -/
  lighting : SpellsOut p main → s.files.get? lightingFile = some lightingLines
  /-- The lighting file is spelled out also if another spelling of an include reaches it. -/
  reached : Reachable p main lightingFile → main ≠ lightingFile → SpellsOut p main
  /-- The names compared in the conditions of regions are those of all files that can be reached. -/
  regionNames : ∀ name, s.regionNames.contains name = true ↔
    ∃ file n, Reachable p main file ∧ Reads p file n ∧ name ∈ n.regionNames

variable {p : Project} {main file line : String} {s s' : Sources} {read : Loading}

/-! ## The file that is spelled out -/

theorem target?_lighting : target? (Directive.includeLine lightingFile) = some lightingFile :=
  (target?_includeLine_eq_self lightingFile).2 (by decide)

/-- A text that is not resolved to the lighting file does not name it. -/
theorem ne_lightingFile_of_resolution {target : String}
    (h : resolution p file target ≠ .lighting) : target ≠ lightingFile := by
  rintro rfl
  have hname : fileName lightingFile = lightingFile := by decide
  rw [resolution, hname, if_pos rfl] at h
  exact h rfl

/-- The lines that stand for a line name the lighting file as its resolution says. -/
theorem exists_names_standIn_iff :
    (∃ text ∈ standIn p file line, target? text = some lightingFile) ↔
      ∃ r, resolution? p file line = some r ∧ r.namesLighting = true := by
  rw [standIn, resolution?]
  cases htarget : target? line with
  | none =>
    simp only [Option.map_none, Option.getD_none, List.mem_singleton, exists_eq_left, htarget]
    constructor
    · intro hsome
      cases hsome
    · rintro ⟨r, hsome, -⟩
      cases hsome
  | some target =>
    simp only [Option.map_some, Option.getD_some, Option.some.injEq, exists_eq_left']
    have hkept : ∀ r, resolution p file target = r → r ≠ .lighting →
        target? line ≠ some lightingFile := by
      rintro r rfl hne hsame
      rw [htarget, Option.some.injEq] at hsame
      exact ne_lightingFile_of_resolution hne hsame
    cases hr : resolution p file target with
    | lighting => simp [Resolution.lines, Resolution.directive, Resolution.namesLighting,
        target?_lighting]
    | engine dependent =>
      have hline := hkept _ hr (by simp)
      cases dependent <;> simp [Resolution.lines, Resolution.directive, Resolution.namesLighting,
        target?_lighting, hline]
    | found path raw => simp [Resolution.lines, Resolution.directive, Resolution.namesLighting]
    | _ =>
      have hline := hkept _ hr (by simp)
      simp [Resolution.lines, Resolution.directive, Resolution.namesLighting, hline]

/-- An include that reaches the lighting file is written so that it names it. -/
theorem spellsOut_of_reachable (h : Reachable p main lightingFile) (hmain : main ≠ lightingFile) :
    SpellsOut p main := by
  obtain heq | ⟨file, hfile, n, hreads, line, hline, raw, hfound⟩ := h.cases_tail
  · exact absurd heq.symm hmain
  · refine ⟨file, n, line, _, hfile, hreads, hline, hfound, ?_⟩
    rw [Resolution.namesLighting, target?_lighting]
    exact beq_self_eq_true _

/-! ## The closure -/

/-- Of what has been read, some line names the lighting file exactly if it is to be spelled out. -/
theorem spelledOut_iff (h : Loading.IsSound p main read) (hpending : read.pending = []) :
    (read.files.values.any fun lines => lines.any fun line => target? line == some lightingFile) = true
      ↔ SpellsOut p main := by
  simp only [Table.values, List.any_map, List.any_eq_true, Function.comp_apply, beq_iff_eq]
  constructor
  · rintro ⟨⟨file, lines⟩, hentry, text, htext, htarget⟩
    have hget := (Table.mem_entries_iff String.lt_irrefl read.files file lines).1 hentry
    have hcontains : read.files.contains file = true := by rw [Table.contains, hget]; rfl
    obtain ⟨n, hreads, -, rfl, -⟩ := h.files file lines hget
    obtain ⟨line, hline, hstand⟩ := List.mem_flatMap.1 htext
    obtain ⟨r, hr, hnames⟩ := exists_names_standIn_iff.1 ⟨text, hstand, htarget⟩
    exact ⟨file, n, line, r, (h.contains_iff hpending file).1 hcontains, hreads, hline, hr, hnames⟩
  · rintro ⟨file, n, line, r, hreached, hreads, hline, hr, hnames⟩
    obtain ⟨lines, hget⟩ := Option.isSome_iff_exists.1 ((h.contains_iff hpending file).2 hreached)
    obtain ⟨n', hreads', -, hlines, -⟩ := h.files file lines hget
    cases hreads.unique hreads'
    obtain ⟨text, htext, htarget⟩ := exists_names_standIn_iff.2 ⟨r, hr, hnames⟩
    refine ⟨(file, lines), (Table.mem_entries_iff String.lt_irrefl _ file lines).2 hget, text, ?_,
      htarget⟩
    rw [hlines]
    exact List.mem_flatMap.2 ⟨line, hline, htext⟩

theorem files_ofLoading (path : String) (read : Loading) :
    (Sources.ofLoading path read).files
      = if read.files.values.any fun lines => lines.any fun line => target? line == some lightingFile
        then read.files.insert lightingFile lightingLines else read.files := rfl

theorem isClosure_ofLoading (h : Loading.IsSound p main read) (hpending : read.pending = []) :
    IsClosure p main (Sources.ofLoading main read) := by
  have hspelled := spelledOut_iff h hpending
  have hcontains := h.contains_iff hpending
  refine ⟨rfl, ?_, ?_, ?_, spellsOut_of_reachable, ?_⟩
  · intro file
    rw [files_ofLoading]
    split
    · rename_i hout
      rw [Table.contains_insert, Bool.or_eq_true, decide_eq_true_iff, hcontains, or_comm,
        and_iff_left (hspelled.1 hout)]
    · rename_i hout
      rw [hcontains, or_iff_left fun hlighting => hout (hspelled.2 hlighting.2)]
  · intro file hreached hplain
    obtain ⟨lines, hget⟩ := Option.isSome_iff_exists.1 ((hcontains file).2 hreached)
    obtain ⟨n, hreads, -, rfl, -⟩ := h.files file lines hget
    refine ⟨n, hreads, ?_⟩
    rw [files_ofLoading]
    split
    · rename_i hout
      rw [Table.get?_insert, if_neg fun heq => hplain ⟨heq, hspelled.1 hout⟩]
      exact hget
    · exact hget
  · intro hout
    rw [files_ofLoading, if_pos (hspelled.2 hout), Table.get?_insert, if_pos rfl]
  · intro name
    refine (h.regionNames name).trans ?_
    simp only [hcontains]

/-- **The closure determines the files** and the names compared in the conditions of regions. -/
theorem IsClosure.files_eq (h : IsClosure p main s) (h' : IsClosure p main s') :
    s.files = s'.files ∧ s.regionNames = s'.regionNames := by
  constructor
  · refine Table.eq_of_get? fun file => ?_
    by_cases hout : file = lightingFile ∧ SpellsOut p main
    · rw [hout.1, h.lighting hout.2, h'.lighting hout.2]
    · by_cases hreached : Reachable p main file
      · obtain ⟨n, hreads, hget⟩ := h.lines file hreached hout
        obtain ⟨n', hreads', hget'⟩ := h'.lines file hreached hout
        rw [hget, hget', hreads.unique hreads']
      · have hnone : ∀ s : Sources, IsClosure p main s → s.files.get? file = none := by
          intro s h
          refine Option.not_isSome_iff_eq_none.1 fun hsome => ?_
          exact ((h.keys file).1 hsome).elim hreached hout
        rw [hnone s h, hnone s' h']
  · exact NameSet.eq_of_contains fun name => (h.regionNames name).trans (h'.regionNames name).symm

/-! ## Main result -/

/-- **A load computes the closure in every order.**  The load of a shader is one of those that take up
the files in some order.  Each of them fails exactly if the file of the shader cannot be read or a file
that can be reached makes it fail; otherwise it leaves the closure.  So all that succeed have the same
files. -/
theorem closure_of_load (p : Project) (main : String) :
    Loads p main (Sources.load p main) ∧
      (∀ result, Loads p main result →
        ((∃ e, result = .error e) ↔
          p.readLines? main = none ∨ ∃ file, Reachable p main file ∧ Fails p file) ∧
        ∀ s, result = .ok s → IsClosure p main s) ∧
      ∀ s s', Loads p main (.ok s) → Loads p main (.ok s') →
        s.files = s'.files ∧ s.regionNames = s'.regionNames := by
  have hclosure : ∀ s, Loads p main (.ok s) → IsClosure p main s := by
    intro s hloads
    obtain ⟨read, hsound, hpending, rfl⟩ := exists_isSound_of_loads hloads
    exact isClosure_ofLoading hsound hpending
  refine ⟨loads_load p main, fun result hloads => ⟨⟨?_, ?_⟩, ?_⟩, ?_⟩
  · rintro ⟨e, rfl⟩
    exact fails_of_loads hloads
  · intro hfails
    cases result with
    | error e => exact ⟨e, rfl⟩
    | ok s => exact absurd hfails (not_fails_of_loads hloads)
  · rintro s rfl
    exact hclosure s hloads
  · exact fun s s' hs hs' => (hclosure s hs).files_eq (hclosure s' hs')

/-- A project that has a file under the name of the one that is spelled out. -/
def ownLighting : Project :=
  .ofFiles [("a.shader", ["#include \"UnityLightingCommon.cginc/\""]),
    (lightingFile, ["float mine;"])]

/-- An include that is spelled with a slash reaches the file, and its lines are lost. -/
theorem not_own_lines_of_ownLighting :
    ∃ s n, Sources.load ownLighting "a.shader" = .ok s ∧ "a.shader" ≠ lightingFile ∧
      Reachable ownLighting "a.shader" lightingFile ∧ Reads ownLighting lightingFile n ∧
      n.lines = ["float mine;"] ∧ s.files.get? lightingFile = some lightingLines ∧
      s.files.get? lightingFile ≠ some (n.lines.flatMap (standIn ownLighting lightingFile)) := by
  have hmain : ownLighting.readLines? "a.shader"
      = some ["#include \"UnityLightingCommon.cginc/\""] :=
    Project.readLines?_ofFiles (by decide +kernel) (by decide +kernel)
  have hown : ownLighting.readLines? lightingFile = some ["float mine;"] :=
    Project.readLines?_ofFiles (by decide +kernel) (by decide +kernel)
  have hcheck : (Sources.load ownLighting "a.shader").toOption.any (fun s =>
      decide (s.files.get? lightingFile = some lightingLines)) = true := by
    rw [Sources.load, hmain]
    decide +kernel
  have hreads : Reads ownLighting lightingFile ⟨["float mine;"], []⟩ :=
    ⟨_, hown, by decide +kernel⟩
  have hincludes : Includes ownLighting "a.shader" lightingFile :=
    ⟨⟨["#include \"UnityLightingCommon.cginc/\""], []⟩, ⟨_, hmain, by decide +kernel⟩, _,
      List.mem_singleton_self _, ["float mine;"], by decide +kernel⟩
  obtain ⟨s, hload, hlighting⟩ := exists_ok_of_any hcheck
  have hlighting := of_decide_eq_true hlighting
  refine ⟨s, _, hload, by decide, .single hincludes, hreads, rfl, hlighting, ?_⟩
  rw [hlighting]
  decide +kernel

end ShaderMerge.Include
