import Mathlib.Algebra.GroupWithZero.Nat
import ShaderMerge.Proofs.Region.Nesting

/-!
# The text that a filter of regions leaves

Lines whose regions pair up are the lines of exactly one `Forest`: plain lines, and regions with what
stands in them.  `Forest.kept` is the text that is left of it, by recursion over the regions.  A
`Filter` knows nothing of this structure.  It counts the regions that are open inside a dropped one,
and forgets all others.

Main result: `run_of_nests`, the two agree on every text, and so do the number of lines that the notes
stand for and the conditions that are reported.

The induction is on the forest.  A region whose condition fails is one step of it, because its lines
pair up and so the count of the filter comes back to zero at its own end only
(`run_droppingAt_of_depth`); every other region is read like the lines around it.
-/

namespace ShaderMerge.Region

/-- Lines one after the other, with their regions as they are nested. -/
inductive Forest where
  /-- No line. -/
  | nil
  /-- A line that neither opens nor ends a region, and what comes after it. -/
  | line (text : String) (plain : Control.ofLine text = .plain) (rest : Forest)
  /-- A region, and what comes after it. -/
  | region (opener condition closer : String) (opens : Control.ofLine opener = .openRegion condition)
      (closes : Control.ofLine closer = .closeRegion) (body rest : Forest)

namespace Forest

/-- The lines as they stand in the text. -/
def lines : Forest → List String
  | nil => []
  | line text _ rest => text :: rest.lines
  | region opener _ closer _ _ body rest => opener :: (body.lines ++ closer :: rest.lines)

/-- The text that is left for known property values.  A note stands for a region whose condition
fails, with the number of all lines between its directives; of any other region only the directives
are gone. -/
def kept (values : Table String Binary32) : Forest → List String
  | nil => []
  | line text _ rest => text :: rest.kept values
  | region _ condition _ _ _ body rest =>
    (if Region.decide condition values = .drop then [dropNote body.lines.length]
      else body.kept values) ++ rest.kept values

/-- The numbers of lines that the notes stand for. -/
def dropped (values : Table String Binary32) : Forest → List Nat
  | nil => []
  | line _ _ rest => rest.dropped values
  | region _ condition _ _ _ body rest =>
    (if Region.decide condition values = .drop then [body.lines.length] else body.dropped values)
      ++ rest.dropped values

/-- The conditions that cannot be decided, outside of dropped regions. -/
def undecided (values : Table String Binary32) : Forest → List String
  | nil => []
  | line _ _ rest => rest.undecided values
  | region _ condition _ _ _ body rest =>
    (match Region.decide condition values with
      | .drop => []
      | .undecided => condition :: body.undecided values
      | .keep => body.undecided values) ++ rest.undecided values

/-! ## Lines whose regions pair up -/

variable {texts tail tail' : List String} {depth depth' : Nat}

theorem depthAfter?_append : depthAfter? depth (texts ++ tail)
    = (depthAfter? depth texts).bind (depthAfter? · tail) := List.foldlM_append

theorem depthAfter?_cons_of_open {line condition : String}
    (h : Control.ofLine line = .openRegion condition) :
    depthAfter? depth (line :: texts) = depthAfter? (depth + 1) texts := by
  rw [depthAfter?, List.foldlM_cons, depthBehind?.eq_def, h]
  rfl

theorem depthAfter?_cons_of_close {line : String} (h : Control.ofLine line = .closeRegion) :
    depthAfter? (depth + 1) (line :: texts) = depthAfter? depth texts := by
  rw [depthAfter?, List.foldlM_cons, depthBehind?, h]
  rfl

theorem depthAfter?_cons_of_plain {line : String} (h : Control.ofLine line = .plain) :
    depthAfter? depth (line :: texts) = depthAfter? depth texts := by
  rw [depthAfter?, List.foldlM_cons, depthBehind?.eq_def, h]
  rfl

theorem nests_lines (forest : Forest) : Nests forest.lines := by
  induction forest with
  | nil => rfl
  | line text plain rest ih => exact (depthAfter?_cons_of_plain plain).trans ih
  | region opener condition closer opens closes body rest ihBody ihRest =>
    rw [Nests, lines, depthAfter?_cons_of_open opens, depthAfter?_append,
      depthAfter?_of_nests ihBody, Option.bind_some, depthAfter?_cons_of_close closes]
    exact ihRest

/-- Where `depth` regions are still to be ended, lines that end them start with those of a forest, and
the line behind it ends the innermost region. -/
theorem exists_lines_append (h : depthAfter? depth texts = some 0) :
    ∃ forest : Forest, ∃ tail, texts = forest.lines ++ tail ∧
      (depth = 0 → tail = []) ∧
      ∀ outer, depth = outer + 1 → ∃ closer rest, tail = closer :: rest ∧
        Control.ofLine closer = .closeRegion ∧ depthAfter? outer rest = some 0 := by
  induction hlength : texts.length using Nat.strongRecOn generalizing texts depth with
  | _ n ih =>
    subst hlength
    cases texts with
    | nil =>
      cases h
      exact ⟨nil, [], rfl, fun _ => rfl, fun outer h => absurd h (Nat.succ_ne_zero outer).symm⟩
    | cons text texts =>
      cases hcontrol : Control.ofLine text with
      | plain =>
        rw [depthAfter?_cons_of_plain hcontrol] at h
        obtain ⟨forest, tail, rfl, hend⟩ := ih texts.length (Nat.lt_succ_self _) h rfl
        exact ⟨line text hcontrol forest, tail, rfl, hend⟩
      | closeRegion =>
        cases depth with
        | zero =>
          rw [depthAfter?, List.foldlM_cons, depthBehind?, hcontrol] at h
          cases h
        | succ outer =>
          rw [depthAfter?_cons_of_close hcontrol] at h
          refine ⟨nil, text :: texts, rfl, fun h => absurd h (Nat.succ_ne_zero outer),
            fun outer' heq => ?_⟩
          cases heq
          exact ⟨text, texts, rfl, hcontrol, h⟩
      | openRegion condition =>
        rw [depthAfter?_cons_of_open hcontrol] at h
        obtain ⟨body, tail, rfl, -, hclose⟩ := ih texts.length (Nat.lt_succ_self _) h rfl
        obtain ⟨closer, rest, rfl, hcloser, hrest⟩ := hclose depth rfl
        obtain ⟨forest, tail, rfl, hend⟩ := ih rest.length (by simp; omega) hrest rfl
        refine ⟨region text condition closer hcontrol hcloser body forest, tail, ?_, hend⟩
        simp only [lines, List.cons_append, List.append_assoc]

theorem exists_lines_eq (h : Nests texts) : ∃ forest : Forest, forest.lines = texts := by
  obtain ⟨forest, tail, rfl, hend, -⟩ := exists_lines_append h
  exact ⟨forest, by rw [hend rfl, List.append_nil]⟩

/-- Nothing, or a text that starts with the end of a region. -/
def Closes (tail : List String) : Prop :=
  ∀ text, tail.head? = some text → Control.ofLine text = .closeRegion

/-- Where a forest ends at the end of a region or of the text, the lines determine it. -/
theorem eq_of_lines_append {f g : Forest} (htail : Closes tail) (htail' : Closes tail')
    (h : f.lines ++ tail = g.lines ++ tail') : f = g ∧ tail = tail' := by
  induction f generalizing g tail tail' with
  | nil =>
    cases g with
    | nil => exact ⟨rfl, h⟩
    | line text plain rest =>
      have hclose := htail text (by rw [show tail = _ from h]; rfl)
      rw [plain] at hclose
      cases hclose
    | region opener condition closer opens closes body rest =>
      have hclose := htail opener (by rw [show tail = _ from h]; rfl)
      rw [opens] at hclose
      cases hclose
  | line text plain rest ih =>
    cases g with
    | nil =>
      have hclose := htail' text (by rw [show tail' = _ from h.symm]; rfl)
      rw [plain] at hclose
      cases hclose
    | line text' plain' rest' =>
      simp only [lines, List.cons_append, List.cons.injEq] at h
      obtain ⟨rfl, hrest⟩ := h
      obtain ⟨rfl, rfl⟩ := ih htail htail' hrest
      exact ⟨rfl, rfl⟩
    | region opener condition closer opens closes body rest' =>
      simp only [lines, List.cons_append, List.cons.injEq] at h
      rw [← h.1, plain] at opens
      cases opens
  | region opener condition closer opens closes body rest ihBody ihRest =>
    cases g with
    | nil =>
      have hclose := htail' opener (by rw [show tail' = _ from h.symm]; rfl)
      rw [opens] at hclose
      cases hclose
    | line text plain rest' =>
      simp only [lines, List.cons_append, List.cons.injEq] at h
      rw [← h.1, opens] at plain
      cases plain
    | region opener' condition' closer' opens' closes' body' rest' =>
      simp only [lines, List.cons_append, List.append_assoc, List.cons.injEq] at h
      obtain ⟨rfl, h⟩ := h
      have hcloser : Closes (closer :: (rest.lines ++ tail)) := by
        rintro text ⟨⟩
        exact closes
      have hcloser' : Closes (closer' :: (rest'.lines ++ tail')) := by
        rintro text ⟨⟩
        exact closes'
      obtain ⟨rfl, hbehind⟩ := ihBody hcloser hcloser' h
      rw [List.cons.injEq] at hbehind
      obtain ⟨rfl, hrest⟩ := hbehind
      obtain ⟨rfl, rfl⟩ := ihRest htail htail' hrest
      rw [opens, Control.openRegion.injEq] at opens'
      subst opens'
      exact ⟨rfl, rfl⟩

theorem lines_inj {f g : Forest} (h : f.lines = g.lines) : f = g := by
  have hnil : Closes [] := nofun
  have happend : f.lines ++ [] = g.lines ++ [] := congrArg (· ++ []) h
  exact (eq_of_lines_append hnil hnil happend).1

end Forest

/-! ## The filter -/

namespace Filter

/-- What is written for a line: what the filter writes, and the line itself if it is live. -/
def textOf (fed : Condition.Fed Filter) (line : String) : List String :=
  fed.written ++ if fed.feed = .live then [line] else []

/-- Read lines one after the other: the filter behind them, and what is written for them. -/
def run (f : Filter) : List String → Filter × List String
  | [] => (f, [])
  | line :: rest =>
    let fed := f.feed line
    ((fed.filter.run rest).1, textOf fed line ++ (fed.filter.run rest).2)

variable {f : Filter} {lines rest : List String} {depth after : Nat}

theorem run_append (f : Filter) (lines rest : List String) : f.run (lines ++ rest)
    = (((f.run lines).1.run rest).1, (f.run lines).2 ++ ((f.run lines).1.run rest).2) := by
  induction lines generalizing f with
  | nil => rfl
  | cons line lines ih => simp only [List.cons_append, run, ih, List.append_assoc]

/-- Inside a dropped region nothing is written, as long as no line ends the region. -/
theorem run_droppingAt_of_depth {count : Nat} (h : depthAfter? depth lines = some after) :
    (f.droppingAt depth count).run lines = (f.droppingAt after (count + lines.length), []) := by
  induction lines generalizing depth count with
  | nil =>
    cases h
    rfl
  | cons line lines ih =>
    rw [depthAfter?, List.foldlM_cons, Option.bind_eq_bind, Option.bind_eq_some_iff] at h
    obtain ⟨behind, hline, hrest⟩ := h
    rw [run, drop_of_depth hline, ih hrest, List.length_cons, Nat.add_comm lines.length,
      ← Nat.add_assoc]
    rfl

/-- The same filter behind a dropped region of some lines. -/
def passing (f : Filter) (count : Nat) : Filter :=
  { f with droppedLines := f.droppedLines + count }

/-- The line that ends a dropped region leaves the note for it. -/
theorem feed_close_of_dropping {count : Nat} {closer : String} (hnone : f.dropping = none)
    (hcloser : Control.ofLine closer = .closeRegion) :
    (f.droppingAt 0 count).feed closer = ⟨f.passing count, [dropNote count], .consumed⟩ := by
  simp only [feed, droppingAt, passing, hcloser, drop, hnone]

/-- A region whose condition fails, from its first line to its last. -/
theorem run_of_fails {opener condition closer : String} {body : List String}
    (hnone : f.dropping = none) (hopener : Control.ofLine opener = .openRegion condition)
    (hfails : Region.decide condition f.values = .drop) (hbody : Nests body)
    (hcloser : Control.ofLine closer = .closeRegion) :
    f.run (opener :: (body ++ closer :: rest)) = (((f.passing body.length).run rest).1,
      dropNote body.length :: ((f.passing body.length).run rest).2) := by
  have hopened : f.feed opener = ⟨f.droppingAt 0 0, [], .consumed⟩ := by
    simp only [feed, hnone, hopener, hfails, droppingAt]
  rw [run, hopened]
  simp only [run_append, run_droppingAt_of_depth hbody, Nat.zero_add]
  rw [run, feed_close_of_dropping hnone hcloser]
  rfl

/-- A region of which only the directives are gone. -/
theorem run_of_consumed {g : Filter} {opener closer : String} {body : List String}
    (hopened : f.feed opener = ⟨g, [], .consumed⟩)
    (hclosed : (g.run body).1.feed closer = ⟨(g.run body).1, [], .consumed⟩) :
    f.run (opener :: (body ++ closer :: rest))
      = (((g.run body).1.run rest).1, (g.run body).2 ++ ((g.run body).1.run rest).2) := by
  rw [run, hopened]
  simp only [run_append]
  rw [run, hclosed]
  rfl

/-- The filter behind a forest whose first line it reads outside of dropped regions. -/
def behind (f : Filter) (forest : Forest) : Filter :=
  { f with
    droppedLines := f.droppedLines + (forest.dropped f.values).sum
    diagnostics := f.diagnostics ++ (forest.undecided f.values).map undecidedNote }

/-- The text of a forest, and the filter behind it. -/
theorem run_lines (forest : Forest) (hnone : f.dropping = none) :
    f.run forest.lines = (f.behind forest, forest.kept f.values) := by
  induction forest generalizing f with
  | nil => simp [Forest.lines, behind, Forest.dropped, Forest.undecided, Forest.kept, run]
  | line text plain rest ih =>
    have hfeed : f.feed text = ⟨f, [], .live⟩ := by simp only [feed, hnone, plain]
    rw [Forest.lines, run, hfeed, ih hnone]
    rfl
  | region opener condition closer opens closes body rest ihBody ihRest =>
    -- A region that is not dropped leaves what its body does, behind what its condition reports.
    have hkept : ∀ g : Filter, g.dropping = none → f.feed opener = ⟨g, [], .consumed⟩ →
        f.run (opener :: (body.lines ++ closer :: rest.lines))
          = ((g.behind body).behind rest, body.kept g.values ++ rest.kept g.values) := by
      intro g hg hopened
      have hbody := ihBody hg
      have hrest : (g.behind body).run rest.lines
          = ((g.behind body).behind rest, rest.kept g.values) := ihRest hg
      rw [run_of_consumed hopened (by rw [hbody]; simp only [feed, behind, hg, closes]), hbody]
      dsimp only
      rw [hrest]
    rw [Forest.lines]
    cases houtcome : Region.decide condition f.values with
    | drop =>
      have hrest : (f.passing body.lines.length).run rest.lines
          = ((f.passing body.lines.length).behind rest, rest.kept f.values) := ihRest hnone
      rw [run_of_fails hnone opens houtcome body.nests_lines closes, hrest]
      simp [behind, passing, Forest.dropped, Forest.undecided, Forest.kept, houtcome, Nat.add_assoc]
    | undecided =>
      rw [hkept { f with diagnostics := f.diagnostics ++ [undecidedNote condition] } hnone
        (by simp only [feed, hnone, opens, houtcome])]
      simp [behind, Forest.dropped, Forest.undecided, Forest.kept, houtcome, Nat.add_assoc]
    | keep =>
      rw [hkept f hnone (by simp only [feed, hnone, opens, houtcome])]
      simp [behind, Forest.dropped, Forest.undecided, Forest.kept, houtcome, Nat.add_assoc]

end Filter

/-! ## Main result -/

/-- **A filter follows the nesting of the regions.**  Lines whose regions pair up are those of exactly
one forest.  For all property values, what is written for them is the text that is left of the forest;
behind them the filter drops no region, has counted the lines that the notes stand for, and has
reported the conditions that cannot be decided, outside of dropped regions and in order. -/
theorem run_of_nests {lines : List String} (h : Nests lines) :
    ∃ forest : Forest, (∀ other : Forest, other.lines = lines ↔ other = forest) ∧
      ∀ values, (Filter.new values).run lines =
        (⟨values, none, (forest.dropped values).sum, (forest.undecided values).map undecidedNote⟩,
          forest.kept values) := by
  obtain ⟨forest, rfl⟩ := Forest.exists_lines_eq h
  refine ⟨forest, fun other => ⟨Forest.lines_inj, fun heq => heq ▸ rfl⟩, fun values => ?_⟩
  rw [Filter.run_lines forest rfl]
  simp [Filter.behind, Filter.new]

/-- A kept region with an undecided one in it, and a dropped one with an undecided one in it. -/
def mixedRegions : Forest :=
  .region "#ifex _Foo==1" " _Foo==1" "#endex" (by decide +kernel) (by decide +kernel)
    (.region "#ifex _Bar==1" " _Bar==1" "#endex" (by decide +kernel) (by decide +kernel)
      (.line "a;" (by decide +kernel) .nil)
      (.region "#ifex _Foo==0" " _Foo==0" "#endex" (by decide +kernel) (by decide +kernel)
        (.region "#ifex _Baz==1" " _Baz==1" "#endex" (by decide +kernel) (by decide +kernel)
          (.line "b;" (by decide +kernel) .nil) .nil)
        .nil))
    (.line "c;" (by decide +kernel) .nil)

/-- The filter finds the dropped region by its own end, and does not report what is undecided in it. -/
theorem run_of_mixedRegions : Nests mixedRegions.lines ∧
    (Filter.new (Table.ofList [("_Foo", .one)])).run mixedRegions.lines
      = (⟨Table.ofList [("_Foo", .one)], none, 3, ["Ignored #ifex _Bar==1"]⟩,
          ["a;", "// #ifex dropped 3 lines", "c;"]) := by
  have hnests : Nests mixedRegions.lines := by decide +kernel
  obtain ⟨forest, hforest, hrun⟩ := run_of_nests hnests
  obtain rfl := (hforest mixedRegions).1 rfl
  refine ⟨hnests, (hrun _).trans ?_⟩
  decide +kernel

end ShaderMerge.Region
