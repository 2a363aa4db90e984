import ShaderMerge.Proofs.Include.Expansion
import ShaderMerge.Proofs.Include.Next

/-!
# All sources as one text, by recursion

`Sources.expand?` reads lines one after the other.  An include that is available and not refused is
expanded in its place, by the same recursion over the lines of its file, and its directive stands
behind them.  What the recursion hands on is a `Flattening`: the text so far, the shared blocks, the
files asked for since the last boundary of a block, and the number of refusals.

Main result: `flatten?_eq`, the walk with its stack of frames gives this text and this number for all
sources, and either both come to an end or none does.

Neither side has a bound.  So the two halves are inductions on a fixed point each.  What is left to
read of the frames of a walk (`unwind?`) does not change with an event
(`unwind?_of_next`), which gives the recursion where the walk ends.  What the recursion does with the
lines of a frame the walk does as well until it comes to the end of the frame (`flat_of_expand?`), which
gives the walk where the recursion ends.
-/

namespace ShaderMerge.Include

/-- What is known between two lines. -/
structure Flattening where
  /-- The text so far. -/
  text : List String
  /-- The shared blocks so far, in order. -/
  shared : List (List String)
  /-- The files asked for since the last boundary of a block. -/
  visited : NameSet
  /-- The number of includes that were refused. -/
  repeats : Nat

namespace Flattening

/-- Put a line behind the text. -/
def put (e : Flattening) (line : String) : Flattening := { e with text := e.text ++ [line] }

/-- Put a boundary of a block behind the text, and forget which files have been asked for. -/
def bound (e : Flattening) (line : String) : Flattening := { e.put line with visited := ∅ }

/-- Capture a shared block. -/
def share (e : Flattening) (block : List String) : Flattening :=
  { e with shared := e.shared ++ [block] }

/-- Ask for a file. -/
def visit (e : Flattening) (file : String) : Flattening :=
  { e with visited := e.visited.add file }

/-- Refuse an include, and keep its directive. -/
def refuse (e : Flattening) (line : String) : Flattening :=
  { e.put line with repeats := e.repeats + 1 }

/-- Put the directive of an expanded file behind its lines, if it has one. -/
def close (e : Flattening) : Option String → Flattening
  | none => e
  | some directive => e.put directive

end Flattening

namespace Sources

/-- Expand lines one after the other, under the files that are being expanded.  The shared blocks are
parts of the file of the shader, wherever they were captured. -/
def expand? (s : Sources) (isOpen : String → Bool) :
    List String → Flattening → Option Flattening
  | [], e => some e
  | line :: rest, e =>
    if isSharedStart line then
      s |>.expand? isOpen ((rest.dropWhile (!isBlockEnd ·)).drop 1)
        (e.share (rest.takeWhile (!isBlockEnd ·)))
    else
      (if isProgramStart line then
          e.shared.foldlM
            (fun e block => s |>.expand? (fun file => s.main = file || isOpen file) block e)
            (e.bound line)
        else if isBlockEnd line then some (e.bound line)
        else
          match (target? line).filter s.files.contains with
          | none => some (e.put line)
          | some target =>
            if e.visited.contains target || isOpen target then some ((e.visit target).refuse line)
            else
              (s |>.expand? (fun file => target = file || isOpen file)
                  ((s.files.get? target).getD []) (e.visit target))
                >>= fun e => some (e.put line))
        >>= fun e => s |>.expand? isOpen rest e
partial_fixpoint

/-- The text of a shader with every include expanded, and the number of refusals; `none` if the
recursion does not end. -/
def expansion? (s : Sources) : Option (List String × Nat) :=
  (s.expand? (s.main = ·) s.mainLines ⟨[], [], ∅, 0⟩).map fun e => (e.text, e.repeats)

/-- What is left to expand of some frames, innermost first. -/
def unwind? (s : Sources) : List Frame → Flattening → Option Flattening
  | [], e => some e
  | frame :: outer, e =>
    (s.expand? (isOpenIn (frame :: outer)) frame.lines e).bind fun e =>
      unwind? s outer (e.close frame.directive)

end Sources

/-- What a walk is given to go on with from some frames. -/
def Walk.ofFlattening (stack : List Frame) (e : Flattening) : Walk :=
  ⟨stack, none, e.shared, e.visited, e.repeats⟩

/-- What is known behind the lines of a walk, which are collected latest first. -/
def Flattening.ofWalk (lines : List String) (w : Walk) : Flattening :=
  ⟨lines.reverse, w.shared, w.visited, w.repeats⟩

variable {s : Sources} {F : List Frame → Flattening → Option (List String × Nat)}

/-- A reading of frames that goes on line by line.  Both the walk and the recursion are one, so each
can be compared with what follows from these equations. -/
structure IsReading (s : Sources) (F : List Frame → Flattening → Option (List String × Nat)) :
    Prop where
  nil : ∀ e, F [] e = some (e.text, e.repeats)
  close : ∀ file directive outer e,
    F (⟨file, [], directive⟩ :: outer) e = F outer (e.close directive)
  share : ∀ file line rest directive outer e, isSharedStart line = true →
    F (⟨file, line :: rest, directive⟩ :: outer) e
      = F (⟨file, (rest.dropWhile (!isBlockEnd ·)).drop 1, directive⟩ :: outer)
          (e.share (rest.takeWhile (!isBlockEnd ·)))
  start : ∀ file line rest directive outer e, ¬ isSharedStart line = true →
    isProgramStart line = true →
    F (⟨file, line :: rest, directive⟩ :: outer) e
      = F (Walk.replay s e.shared ++ ⟨file, rest, directive⟩ :: outer) (e.bound line)
  stop : ∀ file line rest directive outer e, ¬ isSharedStart line = true →
    ¬ isProgramStart line = true → isBlockEnd line = true →
    F (⟨file, line :: rest, directive⟩ :: outer) e
      = F (⟨file, rest, directive⟩ :: outer) (e.bound line)
  keep : ∀ file line rest directive outer e, ¬ isSharedStart line = true →
    ¬ isProgramStart line = true → ¬ isBlockEnd line = true →
    (target? line).filter s.files.contains = none →
    F (⟨file, line :: rest, directive⟩ :: outer) e
      = F (⟨file, rest, directive⟩ :: outer) (e.put line)
  refuse : ∀ file line rest directive outer e target, ¬ isSharedStart line = true →
    ¬ isProgramStart line = true → ¬ isBlockEnd line = true →
    (target? line).filter s.files.contains = some target →
    (e.visited.contains target || isOpenIn (⟨file, rest, directive⟩ :: outer) target) = true →
    F (⟨file, line :: rest, directive⟩ :: outer) e
      = F (⟨file, rest, directive⟩ :: outer) ((e.visit target).refuse line)
  descend : ∀ file line rest directive outer e target, ¬ isSharedStart line = true →
    ¬ isProgramStart line = true → ¬ isBlockEnd line = true →
    (target? line).filter s.files.contains = some target →
    ¬ (e.visited.contains target || isOpenIn (⟨file, rest, directive⟩ :: outer) target) = true →
    F (⟨file, line :: rest, directive⟩ :: outer) e
      = F (⟨target, (s.files.get? target).getD [], some line⟩ :: ⟨file, rest, directive⟩ :: outer)
          (e.visit target)

/-! ## The recursion -/

namespace Sources

theorem expand?_cons_of_not_shared {isOpen : String → Bool} {line : String} {rest : List String}
    {e : Flattening} (hshared : ¬ isSharedStart line = true) :
    s.expand? isOpen (line :: rest) e
      = (if isProgramStart line then
            e.shared.foldlM
              (fun e block => s.expand? (fun file => s.main = file || isOpen file) block e)
              (e.bound line)
          else if isBlockEnd line then some (e.bound line)
          else
            match (target? line).filter s.files.contains with
            | none => some (e.put line)
            | some target =>
              if e.visited.contains target || isOpen target then some ((e.visit target).refuse line)
              else
                (s.expand? (fun file => target = file || isOpen file)
                  ((s.files.get? target).getD []) (e.visit target)).bind fun e => some (e.put line)).bind
          fun e => s.expand? isOpen rest e := by
  rw [expand?, if_neg hshared]
  rfl

/-- Shared blocks are expanded one after the other, in front of what is left of the frames. -/
theorem unwind?_replay (blocks : List (List String)) (stack : List Frame) (e : Flattening) :
    s.unwind? (Walk.replay s blocks ++ stack) e
      = (blocks.foldlM
          (fun e block => s.expand? (fun file => s.main = file || isOpenIn stack file) block e) e).bind
          (s.unwind? stack) := by
  induction blocks generalizing e with
  | nil => rfl
  | cons block blocks ih =>
    change (s.expand? (fun file =>
        s.main = file || isOpenIn (Walk.replay s blocks ++ stack) file) block e).bind
      (fun e => s.unwind? (Walk.replay s blocks ++ stack) e) = _
    rw [funext (isOpenIn_replay blocks stack), List.foldlM_cons, Option.bind_eq_bind,
      Option.bind_assoc]
    exact congrArg _ (funext ih)

theorem unwind?_cons (file line : String) (rest : List String) (directive : Option String)
    (outer : List Frame) (e : Flattening) :
    s.unwind? (⟨file, line :: rest, directive⟩ :: outer) e
      = (s.expand? (isOpenIn (⟨file, rest, directive⟩ :: outer)) (line :: rest) e).bind fun e =>
          s.unwind? outer (e.close directive) := rfl

theorem isReading_unwind? (s : Sources) :
    IsReading s fun stack e => (s.unwind? stack e).map fun e => (e.text, e.repeats) where
  nil _ := rfl
  close file directive outer e := by
    rw [unwind?, expand?]
    rfl
  share file line rest directive outer e hshared := by
    rw [unwind?, expand?, if_pos hshared]
    rfl
  start file line rest directive outer e hshared hstart := by
    rw [unwind?, expand?_cons_of_not_shared hshared, if_pos hstart, unwind?_replay, Option.bind_assoc]
    rfl
  stop file line rest directive outer e hshared hstart hstop := by
    rw [unwind?, expand?_cons_of_not_shared hshared, if_neg hstart, if_pos hstop, Option.bind_some]
    rfl
  keep file line rest directive outer e hshared hstart hstop hnone := by
    rw [unwind?, expand?_cons_of_not_shared hshared, if_neg hstart, if_neg hstop, hnone,
      Option.bind_some]
    rfl
  refuse file line rest directive outer e target hshared hstart hstop htarget hagain := by
    rw [unwind?_cons, expand?_cons_of_not_shared hshared, if_neg hstart, if_neg hstop, htarget]
    dsimp only
    rw [if_pos hagain, Option.bind_some]
    rfl
  descend file line rest directive outer e target hshared hstart hstop htarget hnew := by
    rw [unwind?_cons, expand?_cons_of_not_shared hshared, if_neg hstart, if_neg hstop, htarget]
    dsimp only
    rw [if_neg hnew, Option.bind_assoc, Option.bind_assoc]
    rfl

/-- Every reading of a replay comes to the end of it, if it does for each block. -/
theorem reads_replay (hF : IsReading s F) {stack : List Frame}
    {inside : Flattening → List String → Option Flattening}
    (hblock : ∀ blocks block e e', inside e block = some e' →
      F (⟨s.main, block, none⟩ :: (Walk.replay s blocks ++ stack)) e
        = F (⟨s.main, [], none⟩ :: (Walk.replay s blocks ++ stack)) e')
    {blocks : List (List String)} {e e' : Flattening} (h : blocks.foldlM inside e = some e') :
    F (Walk.replay s blocks ++ stack) e = F stack e' := by
  induction blocks generalizing e with
  | nil =>
    cases h
    rfl
  | cons block blocks ih =>
    rw [List.foldlM_cons, Option.bind_eq_bind, Option.bind_eq_some_iff] at h
    obtain ⟨e₁, hfirst, hothers⟩ := h
    exact (hblock blocks block e e₁ hfirst).trans ((hF.close _ _ _ _).trans (ih hothers))

/-- Where the recursion ends, every reading of a frame comes to the end of the frame with what the
recursion makes of its lines. -/
theorem reads_of_expand? (hF : IsReading s F) {isOpen : String → Bool} {lines : List String}
    {e e' : Flattening} (h : s.expand? isOpen lines e = some e') (file : String)
    (directive : Option String) (outer : List Frame)
    (hopen : isOpen = isOpenIn (⟨file, [], directive⟩ :: outer)) :
    F (⟨file, lines, directive⟩ :: outer) e = F (⟨file, [], directive⟩ :: outer) e' := by
  refine expand?.partial_correctness s (fun isOpen lines e e' => ∀ file directive outer,
    isOpen = isOpenIn (⟨file, [], directive⟩ :: outer) →
    F (⟨file, lines, directive⟩ :: outer) e = F (⟨file, [], directive⟩ :: outer) e')
    ?_ isOpen lines e e' h file directive outer hopen
  clear h hopen
  intro inside ih isOpen lines e e' h file directive outer hopen
  cases lines with
  | nil =>
    cases h
    rfl
  | cons line rest =>
    dsimp only at h
    by_cases hshared : isSharedStart line = true
    · rw [if_pos hshared] at h
      exact (hF.share _ _ _ _ _ _ hshared).trans (ih _ _ _ _ h _ _ _ hopen)
    · rw [if_neg hshared, Option.bind_eq_bind, Option.bind_eq_some_iff] at h
      obtain ⟨e₁, hline, hrest⟩ := h
      refine Eq.trans ?_ (ih _ _ _ _ hrest _ _ _ hopen)
      subst hopen
      by_cases hstart : isProgramStart line = true
      · rw [if_pos hstart] at hline
        rw [hF.start _ _ _ _ _ _ hshared hstart]
        refine reads_replay hF (fun blocks block e e₂ hblock => ?_) hline
        exact ih _ _ _ _ hblock _ _ _
          (funext (isOpenIn_replay (s := s) blocks (⟨file, rest, directive⟩ :: outer))).symm
      · rw [if_neg hstart] at hline
        by_cases hstop : isBlockEnd line = true
        · rw [if_pos hstop] at hline
          cases hline
          exact hF.stop _ _ _ _ _ _ hshared hstart hstop
        · rw [if_neg hstop] at hline
          cases htarget : (target? line).filter s.files.contains with
          | none =>
            rw [htarget] at hline
            cases hline
            exact hF.keep _ _ _ _ _ _ hshared hstart hstop htarget
          | some target =>
            rw [htarget] at hline
            dsimp only at hline
            split at hline
            · rename_i hagain
              cases hline
              exact hF.refuse _ _ _ _ _ _ _ hshared hstart hstop htarget hagain
            · rename_i hnew
              rw [Option.bind_eq_some_iff] at hline
              obtain ⟨e₂, hfile, hput⟩ := hline
              cases hput
              have hread := ih _ _ _ _ hfile target (some line) (⟨file, rest, directive⟩ :: outer) rfl
              exact (hF.descend _ _ rest _ _ _ _ hshared hstart hstop htarget hnew).trans
                (hread.trans (hF.close _ _ _ _))

end Sources

/-! ## The walk -/

namespace Walk

variable {w w₁ w₂ w' : Walk} {event : Event} {latest latest' : List String}

/-- An include that is refused: the file counts as asked for all the same. -/
theorem flattenStep_of_again {file directive target : String}
    (hpending : w.pending = some (target, directive))
    (hagain : (w.visited.contains target || isOpenIn w.stack target) = true) :
    s.flattenStep latest w (.include_ file directive (some target))
      = (directive :: latest,
          { w with
            pending := none, visited := w.visited.add target, repeats := w.repeats + 1 }) := by
  have hany : (w.visited.contains target || w.stack.any (·.file = target)) = true := hagain
  simp only [Sources.flattenStep, descend, hpending, hany, if_true]

/-- An include that is expanded. -/
theorem flattenStep_of_new {file directive target : String} {lines : List String}
    (hpending : w.pending = some (target, directive))
    (hnew : ¬ (w.visited.contains target || isOpenIn w.stack target) = true)
    (hlines : s.files.get? target = some lines) :
    s.flattenStep latest w (.include_ file directive (some target))
      = (latest,
          { w with
            pending := none, visited := w.visited.add target
            stack := ⟨target, lines, some directive⟩ :: w.stack }) := by
  have hany : ¬ (w.visited.contains target || w.stack.any (·.file = target)) = true := hnew
  simp only [Sources.flattenStep, descend, hpending, if_neg hany, hlines]

/-- Where the walk ends, no reading of its frames finds anything to read. -/
theorem reads_of_advance_eq_none (hF : IsReading s F) (hend : w.advance s = none) :
    F w.stack (.ofWalk latest w) = some (latest.reverse, w.repeats) := by
  fun_induction advance s w with
  | case1 w hstack =>
    rw [hstack]
    exact hF.nil _
  | case2 => cases hend
  | case3 w file outer hstack ih =>
    rw [hstack]
    exact (hF.close _ _ _ _).trans (ih hend)
  | case4 w file text rest directive outer hstack hshared ih =>
    rw [hstack]
    exact (hF.share _ _ _ _ _ _ hshared).trans (ih hend)
  | case5 => cases hend

/-- An event that a line of a frame gives, for every reading of the frames. -/
theorem reads_of_lineEvent (hF : IsReading s F) {file text : String} {rest : List String}
    {directive : Option String} {outer : List Frame} (hshared : ¬ isSharedStart text = true)
    (hevent : w.lineEvent s ⟨file, rest, directive⟩ text outer = (event, w₁))
    (hstep : s.flattenStep latest w₁ event = (latest', w₂)) :
    F (⟨file, text :: rest, directive⟩ :: outer) (.ofWalk latest w)
      = F w₂.stack (.ofWalk latest' w₂) := by
  have hput : ∀ w : Walk,
      Flattening.ofWalk (text :: latest) w = (Flattening.ofWalk latest w).put text := by
    intro w
    simp [Flattening.ofWalk, Flattening.put]
  rw [lineEvent] at hevent
  by_cases hstart : isProgramStart text = true
  · rw [if_pos hstart] at hevent
    cases hevent
    cases hstep
    rw [hput]
    exact hF.start _ _ _ _ _ _ hshared hstart
  · rw [if_neg hstart] at hevent
    by_cases hstop : isBlockEnd text = true
    · rw [if_pos hstop] at hevent
      cases hevent
      cases hstep
      rw [hput]
      exact hF.stop _ _ _ _ _ _ hshared hstart hstop
    · rw [if_neg hstop] at hevent
      cases htarget : target? text with
      | none =>
        rw [htarget] at hevent
        cases hevent
        cases hstep
        rw [hput]
        exact hF.keep _ _ _ _ _ _ hshared hstart hstop (by rw [htarget]; rfl)
      | some target =>
        rw [htarget] at hevent
        dsimp only at hevent
        by_cases havailable : s.files.contains target = true
        · have hfilter : (target? text).filter s.files.contains = some target := by
            rw [htarget, Option.filter_some, if_pos havailable]
          obtain ⟨lines, hlines⟩ := Option.isSome_iff_exists.1 havailable
          rw [if_pos havailable] at hevent
          cases hevent
          -- The walk asks for the file whether or not it is refused, as the recursion does.
          by_cases hagain : (w.visited.contains target
              || isOpenIn (⟨file, rest, directive⟩ :: outer) target) = true
          · rw [flattenStep_of_again rfl hagain] at hstep
            cases hstep
            exact (hF.refuse _ _ _ _ _ _ _ hshared hstart hstop hfilter hagain).trans
              (by rw [hput]; rfl)
          · rw [flattenStep_of_new rfl hagain hlines] at hstep
            cases hstep
            have hdescend := hF.descend file text rest directive outer (.ofWalk latest w) target
              hshared hstart hstop hfilter hagain
            rw [hlines] at hdescend
            exact hdescend
        · rw [if_neg havailable] at hevent
          cases hevent
          cases hstep
          rw [hput]
          exact hF.keep _ _ _ _ _ _ hshared hstart hstop
            (by rw [htarget, Option.filter_some, if_neg havailable])

theorem reads_of_advance (hF : IsReading s F) (hevent : w.advance s = some (event, w₁))
    (hstep : s.flattenStep latest w₁ event = (latest', w₂)) :
    F w.stack (.ofWalk latest w) = F w₂.stack (.ofWalk latest' w₂) := by
  fun_induction advance s w with
  | case1 => cases hevent
  | case2 w file directive outer hstack =>
    cases hevent
    cases hstep
    rw [hstack]
    refine (hF.close _ _ _ _).trans (congrArg (F outer) ?_)
    simp [Flattening.ofWalk, Flattening.close, Flattening.put]
  | case3 w file outer hstack ih =>
    rw [hstack]
    exact (hF.close _ _ _ _).trans (ih hevent)
  | case4 w file text rest directive outer hstack hshared ih =>
    rw [hstack]
    exact (hF.share _ _ _ _ _ _ hshared).trans (ih hevent)
  | case5 w file text rest directive outer hstack hshared =>
    rw [hstack]
    exact reads_of_lineEvent hF hshared (Option.some.inj hevent) hstep

/-- Where the walk ends, every reading of its frames gives the flattened text. -/
theorem reads_of_flattenFrom? (hF : IsReading s F) {r : List String × Nat}
    (h : s.flattenFrom? latest w = some r) : F w.stack (.ofWalk latest w) = some r := by
  refine Sources.flattenFrom?.partial_correctness s
    (fun latest w r => F w.stack (.ofWalk latest w) = some r) ?_ latest w r h
  clear h
  intro rest ih latest w r h
  cases hnext : w.next s with
  | none =>
    rw [hnext] at h
    cases h
    exact reads_of_advance_eq_none (w := { w with pending := none }) hF hnext
  | some found =>
    obtain ⟨event, w₁⟩ := found
    rw [hnext] at h
    dsimp only at h
    cases hstep : s.flattenStep latest w₁ event with
    | mk latest' w₂ =>
      rw [hstep] at h
      exact (reads_of_advance (w := { w with pending := none }) hF hnext hstep).trans (ih _ _ _ h)

/-! ## The walk as a reading of its frames -/

theorem flattenFrom?_of_next_eq (hnext : w.next s = w'.next s) (hrepeats : w.repeats = w'.repeats) :
    s.flattenFrom? latest w = s.flattenFrom? latest w' := by
  rw [Sources.flattenFrom?, Sources.flattenFrom?, hnext, hrepeats]

theorem flattenFrom?_of_next (hnext : w.next s = some (event, w₁))
    (hstep : s.flattenStep latest w₁ event = (latest', w₂)) :
    s.flattenFrom? latest w = s.flattenFrom? latest' w₂ := by
  rw [Sources.flattenFrom?, hnext]
  dsimp only
  rw [hstep]

theorem lineEvent_of_target {frame : Frame} {text target : String} {outer : List Frame}
    (hstart : ¬ isProgramStart text = true) (hstop : ¬ isBlockEnd text = true)
    (htarget : target? text = some target) :
    w.lineEvent s frame text outer =
      if s.files.contains target then
        (.include_ frame.file text (some target),
          { w with pending := some (target, text), stack := frame :: outer })
      else (.include_ frame.file text none, { w with stack := frame :: outer }) := by
  rw [lineEvent, if_neg hstart, if_neg hstop, htarget]

/-- The next event of a line that opens no shared block. -/
theorem flattenFrom?_of_lineEvent {e : Flattening} {file line : String} {rest : List String}
    {directive : Option String} {outer : List Frame} (hshared : ¬ isSharedStart line = true)
    (hevent : (ofFlattening (⟨file, line :: rest, directive⟩ :: outer) e).lineEvent s
      ⟨file, rest, directive⟩ line outer = (event, w₁))
    (hstep : s.flattenStep e.text.reverse w₁ event = (latest', w₂)) :
    s.flattenFrom? e.text.reverse (ofFlattening (⟨file, line :: rest, directive⟩ :: outer) e)
      = s.flattenFrom? latest' w₂ :=
  flattenFrom?_of_next ((next_of_line rfl hshared).trans (congrArg some hevent)) hstep

theorem isReading_flattenFrom? (s : Sources) :
    IsReading s fun stack e => s.flattenFrom? e.text.reverse (ofFlattening stack e) where
  nil e := by
    rw [Sources.flattenFrom?, next_of_nil rfl]
    simp [ofFlattening]
  close file directive outer e := by
    cases directive with
    | none => exact flattenFrom?_of_next_eq (next_of_endReplay rfl) rfl
    | some directive =>
      refine (flattenFrom?_of_next (next_of_endInclude rfl) rfl).trans ?_
      simp [Flattening.close, Flattening.put, ofFlattening]
  share file line rest directive outer e hshared :=
    flattenFrom?_of_next_eq (next_of_shared rfl hshared) rfl
  start file line rest directive outer e hshared hstart := by
    refine (flattenFrom?_of_lineEvent hshared (by rw [lineEvent, if_pos hstart]) rfl).trans ?_
    simp [Flattening.bound, Flattening.put, ofFlattening]
  stop file line rest directive outer e hshared hstart hstop := by
    refine (flattenFrom?_of_lineEvent hshared
      (by rw [lineEvent, if_neg hstart, if_pos hstop]) rfl).trans ?_
    simp [Flattening.bound, Flattening.put, ofFlattening]
  keep file line rest directive outer e hshared hstart hstop hnone := by
    have hput : (e.put line).text.reverse = line :: e.text.reverse := by simp [Flattening.put]
    cases htarget : target? line with
    | none =>
      refine (flattenFrom?_of_lineEvent hshared
        (by rw [lineEvent, if_neg hstart, if_neg hstop, htarget]) rfl).trans ?_
      rw [hput]
      rfl
    | some target =>
      have hmissing : ¬ s.files.contains target = true := by
        intro havailable
        rw [htarget, Option.filter_some, if_pos havailable] at hnone
        cases hnone
      refine (flattenFrom?_of_lineEvent hshared
        ((lineEvent_of_target hstart hstop htarget).trans (if_neg hmissing)) rfl).trans ?_
      rw [hput]
      rfl
  refuse file line rest directive outer e target hshared hstart hstop htarget hagain := by
    obtain ⟨htarget, havailable⟩ := Option.filter_eq_some_iff.1 htarget
    refine (flattenFrom?_of_lineEvent hshared
      ((lineEvent_of_target hstart hstop htarget).trans (if_pos havailable))
      (flattenStep_of_again rfl hagain)).trans ?_
    simp [Flattening.refuse, Flattening.visit, Flattening.put, ofFlattening]
  descend file line rest directive outer e target hshared hstart hstop htarget hnew := by
    obtain ⟨htarget, havailable⟩ := Option.filter_eq_some_iff.1 htarget
    obtain ⟨lines, hlines⟩ := Option.isSome_iff_exists.1 havailable
    refine (flattenFrom?_of_lineEvent hshared
      ((lineEvent_of_target hstart hstop htarget).trans (if_pos havailable))
      (flattenStep_of_new rfl hnew hlines)).trans ?_
    rw [hlines]
    rfl

end Walk

/-! ## Main result -/

namespace Sources

/-- Where a reading of the frames ends for the recursion, it gives its text. -/
theorem reads_of_unwind? (hF : IsReading s F) {stack : List Frame} {e e' : Flattening}
    (h : s.unwind? stack e = some e') : F stack e = some (e'.text, e'.repeats) := by
  induction stack generalizing e with
  | nil =>
    cases h
    exact hF.nil _
  | cons frame outer ih =>
    rw [unwind?, Option.bind_eq_some_iff] at h
    obtain ⟨e₁, hframe, hrest⟩ := h
    have hread := reads_of_expand? hF hframe frame.file frame.directive outer rfl
    exact hread.trans ((hF.close _ _ _ _).trans (ih hrest))

theorem expansion?_eq_unwind? (s : Sources) : s.expansion?
    = (s.unwind? [⟨s.main, s.mainLines, none⟩] ⟨[], [], ∅, 0⟩).map fun e => (e.text, e.repeats) := by
  have hopen : isOpenIn [⟨s.main, s.mainLines, none⟩] = fun file => decide (s.main = file) :=
    funext fun file => Bool.or_false _
  rw [expansion?, unwind?, hopen]
  cases s.expand? (s.main = ·) s.mainLines ⟨[], [], ∅, 0⟩ <;> rfl

/-- Whether a walk comes to its end when it descends wherever it is let, behind some lines. -/
def FlattensFrom (s : Sources) (latest : List String) (w : Walk) : Prop :=
  ∃ moments latest', RunsOut s
    (fun latest w event => (.ok (s.flattenStep latest w event) : Except Empty (List String × Walk)))
    latest w moments latest'

/-- Whether the walk of the sources ends when it descends wherever it is let. -/
def Flattens (s : Sources) : Prop := s.FlattensFrom [] (.start s)

theorem isSome_flattenFrom?_iff (s : Sources) (latest : List String) (w : Walk) :
    (s.flattenFrom? latest w).isSome = true ↔ s.FlattensFrom latest w := by
  constructor
  · intro h
    obtain ⟨r, hr⟩ := Option.isSome_iff_exists.1 h
    refine flattenFrom?.partial_correctness s (fun latest w _ => s.FlattensFrom latest w) ?_ latest w
      r hr
    intro rest ih latest w r h
    cases hnext : w.next s with
    | none => exact ⟨[], latest, w, .nil, hnext⟩
    | some found =>
      obtain ⟨event, w₁⟩ := found
      rw [hnext] at h
      obtain ⟨moments, latest', w', hrun, hend⟩ := ih _ _ _ h
      exact ⟨_, latest', w', .cons hnext rfl hrun, hend⟩
  · rintro ⟨moments, latest', w', hrun, hend⟩
    induction hrun with
    | nil =>
      rw [flattenFrom?, hend]
      rfl
    | cons hnext hstep _ ih =>
      rw [Walk.flattenFrom?_of_next hnext (Except.ok.inj hstep)]
      exact ih hend

/-- **The walk flattens the sources as the recursion expands them.**  For all sources the walk gives
the text and the number of refusals of the recursion, or neither comes to an end.  There is a text if
and only if the walk ends when it descends wherever it is let. -/
theorem flatten?_eq (s : Sources) :
    s.flatten? = s.expansion? ∧ (s.flatten?.isSome = true ↔ s.Flattens) := by
  refine ⟨?_, s.isSome_flattenFrom?_iff [] (.start s)⟩
  cases hflatten : s.flatten? with
  | some r =>
    have hread := Walk.reads_of_flattenFrom? s.isReading_unwind? hflatten
    rw [expansion?_eq_unwind?]
    exact hread.symm
  | none =>
    cases hexpansion : s.expansion? with
    | none => rfl
    | some r =>
      rw [expansion?_eq_unwind?, Option.map_eq_some_iff] at hexpansion
      obtain ⟨e, hunwind, -⟩ := hexpansion
      have hread : s.flatten? = some (e.text, e.repeats) :=
        reads_of_unwind? (Walk.isReading_flattenFrom? s) hunwind
      rw [hflatten] at hread
      cases hread

end Sources

end ShaderMerge.Include
