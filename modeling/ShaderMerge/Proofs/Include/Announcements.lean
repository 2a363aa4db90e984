import ShaderMerge.Proofs.Include.Closure
import ShaderMerge.Proofs.Include.Markers
import ShaderMerge.Proofs.Include.Next

/-!
# What the load resolves and what the walk announces

The load resolves a directive against the file that it stands in.  The walk knows only the text that the
load has left, and looks it up in the table of all files.  So the two agree on a directive exactly if its
text carries the resolution (`Resolution.IsCarried`):

- the path of a file that is read must be one that a directive can spell;
- the text of a directive that is not expanded must not happen to be the path of a file that is read.

Main result: `announces_iff_isCarried`, for every directive of every file that a load has read.
-/

namespace ShaderMerge.Include

/-- The file that an event announces. -/
def Event.announced? : Event → Option String
  | .include_ _ _ target => target
  | _ => none

/-- Wherever a walk comes to a line, it announces this. -/
def Announces (s : Sources) (text : String) (announced : Option String) : Prop :=
  ∀ (w : Walk) (file : String) (rest : List String) (directive : Option String) (outer : List Frame),
    w.stack = ⟨file, text :: rest, directive⟩ :: outer →
      ∃ event w', w.next s = some (event, w') ∧ event.announced? = announced

/-- What the text of a line announces. -/
def Sources.announced? (s : Sources) (text : String) : Option String :=
  (target? text).filter s.files.contains

namespace Resolution

/-- The file that is to be announced for a directive. -/
def expands? : Resolution → Option String
  | lighting => some lightingFile
  | found path _ => some path
  | _ => none

/-- Whether the directive that is left says what a directive with a given text was resolved to. -/
def IsCarried (s : Sources) (target : String) : Resolution → Prop
  | lighting => True
  | found path _ => isSpellable path = true
  | _ => s.files.contains target = false

end Resolution

variable {p : Project} {main file line target text : String} {s : Sources}
  {n : LogicalLine.Normalized}

/-! ## The walk -/

/-- A line that starts with a number sign is no start or end of a block. -/
theorem isPlain_of_head? (h : text.toList.head? = some '#') : isPlain text = true := by
  have hne : ∀ word : String, word.toList.head? ≠ some '#' → decide (text = word) = false := by
    intro word hword
    refine decide_eq_false fun heq => hword ?_
    rw [← heq, h]
  simp only [isPlain, isMarker, isProgramStart, isBlockEnd, isSharedStart]
  rw [hne _ (by decide), hne _ (by decide), hne _ (by decide), hne _ (by decide),
    hne _ (by decide), hne _ (by decide)]
  rfl

theorem head?_of_target? (h : target? text = some target) : text.toList.head? = some '#' := by
  simp only [target?, Option.bind_eq_bind, Option.bind_eq_some_iff] at h
  obtain ⟨cs, hcs, -⟩ := h
  cases hlist : text.toList with
  | nil =>
    rw [hlist] at hcs
    cases hcs
  | cons c rest =>
    rw [hlist, Text.afterChar?] at hcs
    split at hcs
    · rename_i heq
      rw [heq]
      rfl
    · cases hcs

theorem announced?_lineEvent (w : Walk) (frame : Frame) (outer : List Frame)
    (hplain : isPlain text = true) :
    (w.lineEvent s frame text outer).1.announced? = s.announced? text := by
  rw [isPlain, isMarker, Bool.and_eq_true, Bool.not_eq_true', Bool.or_eq_false_iff] at hplain
  obtain ⟨⟨hstart, hend⟩, -⟩ := hplain
  rw [Walk.lineEvent, hstart, hend, if_neg Bool.false_ne_true, if_neg Bool.false_ne_true,
    Sources.announced?]
  cases target? text with
  | none => rfl
  | some target =>
    simp only [Option.filter_some]
    split <;> rfl

/-- A line that starts with a number sign announces what its text does. -/
theorem announces_announced? (h : text.toList.head? = some '#') :
    Announces s text (s.announced? text) := by
  intro w file rest directive outer hstack
  have hplain := isPlain_of_head? h
  have hshared : ¬ isSharedStart text = true := by
    rw [isPlain, Bool.and_eq_true, Bool.not_eq_true', Bool.not_eq_true'] at hplain
    exact Bool.eq_false_iff.1 hplain.2
  exact ⟨_, _, Walk.next_of_line hstack hshared, announced?_lineEvent _ _ outer hplain⟩

theorem announces_iff (h : text.toList.head? = some '#') (announced : Option String) :
    Announces s text announced ↔ s.announced? text = announced := by
  constructor
  · intro hannounces
    -- Any walk will do that is in front of the line.
    let w : Walk := ⟨[⟨"", [text], none⟩], none, [], ∅, 0⟩
    obtain ⟨event, w₁, hnext, hevent⟩ := hannounces w "" [] none [] rfl
    obtain ⟨event', w₂, hnext', hevent'⟩ := announces_announced? (s := s) h w "" [] none [] rfl
    rw [hnext, Option.some.injEq, Prod.mk.injEq] at hnext'
    rw [← hevent', ← hnext'.1, hevent]
  · rintro rfl
    exact announces_announced? h

/-! ## The directive that is left -/

theorem Resolution.directive_mem_lines (r : Resolution) (line : String) :
    r.directive line ∈ r.lines line := by
  cases r with
  | engine dependent => cases dependent <;> simp [lines, directive]
  | _ => exact List.mem_singleton_self _

theorem directive_mem_standIn (p : Project) (file : String) (htarget : target? line = some target) :
    (resolution p file target).directive line ∈ standIn p file line := by
  rw [standIn, resolution?, htarget]
  exact Resolution.directive_mem_lines _ line

theorem Resolution.head?_directive (r : Resolution) (h : line.toList.head? = some '#') :
    (r.directive line).toList.head? = some '#' := by
  have hinclude : ∀ path, (Directive.includeLine path).toList.head? = some '#' := by
    intro path
    rw [Directive.includeLine, String.toList_append, String.toList_append]
    rfl
  cases r with
  | lighting => exact hinclude lightingFile
  | found path _ => exact hinclude path
  | _ => exact h

/-- The walk reads the text of the directive that is left. -/
theorem announced?_directive_iff (h : IsClosure p main s) (hreached : Reachable p main file)
    (hreads : Reads p file n) (hline : line ∈ n.lines) (htarget : target? line = some target) :
    s.announced? ((resolution p file target).directive line) = (resolution p file target).expands?
      ↔ (resolution p file target).IsCarried s target := by
  have hr : resolution? p file line = some (resolution p file target) := by
    rw [resolution?, htarget]
    rfl
  have hkept : s.announced? line = none ↔ s.files.contains target = false := by
    rw [Sources.announced?, htarget, Option.filter_some]
    cases s.files.contains target <;> simp
  cases hresolution : resolution p file target with
  | lighting =>
    have hspells : SpellsOut p main :=
      ⟨file, n, line, .lighting, hreached, hreads, hline, hr.trans (congrArg some hresolution), rfl⟩
    have hcontains := (h.keys lightingFile).2 (.inr ⟨rfl, hspells⟩)
    refine iff_of_true ?_ trivial
    show (target? (Directive.includeLine lightingFile)).filter s.files.contains = some lightingFile
    rw [target?_lighting, Option.filter_some, hcontains, if_pos rfl]
  | found path raw =>
    have hincludes : Includes p file path :=
      ⟨n, hreads, line, hline, raw, hr.trans (congrArg some hresolution)⟩
    have hcontains := (h.keys path).2 (.inl (hreached.tail hincludes))
    show (target? (Directive.includeLine path)).filter s.files.contains = some path
      ↔ isSpellable path = true
    rw [← target?_includeLine_eq_self, Option.filter_eq_some_iff, and_iff_left hcontains]
  | _ => exact hkept

/-! ## Main result -/

/-- **A directive is expanded to what it was resolved to exactly if its text carries that.**  For every
directive of a file that has been read: a directive with what it was resolved to stands in the lines of
the file, unless the file is the one that is spelled out; the walk announces the file that it was resolved
to, or none, exactly if the text carries the resolution; and a directive whose file cannot be found is
listed as unresolved. -/
theorem announces_iff_isCarried (hload : Sources.load p main = .ok s)
    (hreached : Reachable p main file) (hreads : Reads p file n) (hline : line ∈ n.lines)
    (htarget : target? line = some target) :
    (∀ lines, s.files.get? file = some lines → ¬ (file = lightingFile ∧ lines = lightingLines) →
      (resolution p file target).directive line ∈ lines) ∧
    (Announces s ((resolution p file target).directive line) (resolution p file target).expands?
      ↔ (resolution p file target).IsCarried s target) ∧
    ∀ text, (resolution p file target).unresolved? = some text → text ∈ s.unresolved := by
  obtain ⟨read, hsound, hpending, rfl⟩ := exists_isSound_of_loads (hload ▸ loads_load p main)
  have hclosure := isClosure_ofLoading hsound hpending
  have hhead := (resolution p file target).head?_directive (head?_of_target? htarget)
  refine ⟨?_, ?_, ?_⟩
  · intro lines hget hown
    have hplain : ¬ (file = lightingFile ∧ SpellsOut p main) := by
      rintro ⟨rfl, hspells⟩
      rw [hclosure.lighting hspells] at hget
      exact hown ⟨rfl, (Option.some.inj hget).symm⟩
    obtain ⟨n', hreads', hget'⟩ := hclosure.lines file hreached hplain
    cases hreads.unique hreads'
    rw [hget, Option.some.injEq] at hget'
    rw [hget']
    exact List.mem_flatMap.2 ⟨line, hline, directive_mem_standIn p file htarget⟩
  · rw [announces_iff hhead]
    exact announced?_directive_iff hclosure hreached hreads hline htarget
  · intro text hunresolved
    refine (hsound.unresolved text).2
      ⟨file, n, (hsound.contains_iff hpending file).2 hreached, hreads, line, hline, ?_⟩
    rw [resolution?, htarget]
    exact hunresolved

/-- A project whose shader misses a file next to it and includes one of that name from above. -/
def twoDirectories : Project :=
  .ofFiles [("sub/a.shader", ["#include \"b.cginc\"", "#include \"../b.cginc\""]),
    ("b.cginc", ["float helper;"])]

/-- The directive whose file is missing announces the other file, as both come to have one text. -/
theorem announces_of_twoDirectories :
    ∃ s, Sources.load twoDirectories "sub/a.shader" = .ok s ∧
      resolution twoDirectories "sub/a.shader" "b.cginc" = .missing "sub/b.cginc" ∧
      "sub/b.cginc" ∈ s.unresolved ∧ ¬ Announces s "#include \"b.cginc\"" none ∧
      Announces s "#include \"b.cginc\"" (some "b.cginc") := by
  have hlines : twoDirectories.readLines? "sub/a.shader"
      = some ["#include \"b.cginc\"", "#include \"../b.cginc\""] :=
    Project.readLines?_ofFiles (by decide +kernel) (by decide +kernel)
  have hcheck : (Sources.load twoDirectories "sub/a.shader").toOption.any (fun s =>
      s.files.contains "b.cginc") = true := by
    rw [Sources.load, hlines]
    decide +kernel
  obtain ⟨s, hload, hcontains⟩ := exists_ok_of_any hcheck
  have hreads : Reads twoDirectories "sub/a.shader"
      ⟨["#include \"b.cginc\"", "#include \"../b.cginc\""], []⟩ := ⟨_, hlines, by decide +kernel⟩
  have hmissing : resolution twoDirectories "sub/a.shader" "b.cginc" = .missing "sub/b.cginc" := by
    decide +kernel
  have hfound : resolution twoDirectories "sub/a.shader" "../b.cginc"
      = .found "b.cginc" ["float helper;"] := by decide +kernel
  have htarget : target? "#include \"b.cginc\"" = some "b.cginc" := by decide +kernel
  have habove : target? "#include \"../b.cginc\"" = some "../b.cginc" := by decide +kernel
  obtain ⟨-, hfirst, hlisted⟩ :=
    announces_iff_isCarried hload .refl hreads List.mem_cons_self htarget
  obtain ⟨-, hsecond, -⟩ := announces_iff_isCarried hload .refl hreads
    (List.mem_cons_of_mem _ List.mem_cons_self) habove
  rw [hmissing] at hfirst hlisted
  rw [hfound] at hsecond
  refine ⟨s, hload, hmissing, hlisted _ rfl, fun hnone => ?_, hsecond.2 ?_⟩
  · have hfree : s.files.contains "b.cginc" = false := hfirst.1 hnone
    rw [hcontains] at hfree
    cases hfree
  · show isSpellable "b.cginc" = true
    decide

end ShaderMerge.Include
