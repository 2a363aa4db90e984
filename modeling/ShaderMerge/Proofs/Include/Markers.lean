import ShaderMerge.Proofs.Include.Run

/-!
# The markers of program blocks

A marker is a line that starts a program block or ends a block.  `Sources.IsBlocked` says that the
markers of a shader pair up: in its own file every block is ended before the next one starts, and
the files that it includes have no markers at all.

For such sources the events of any run that are markers are the markers of the shader's own file,
each at its own place (`markers_of_run`), whatever the run does with its includes.  So two runs over
the same sources meet the same blocks in the same order.
-/

namespace ShaderMerge.Include

/-- Whether a line starts a program block or ends a block. -/
def isMarker (line : String) : Bool := isProgramStart line || isBlockEnd line

/-- Whether a line neither opens nor closes a block. -/
def isPlain (line : String) : Bool := !isMarker line && !isSharedStart line

/-- Whether every block of some lines is ended before the next one starts; in front of the lines a
block may be open. -/
def closesFrom : Bool → List String → Bool
  | isOpen, [] => !isOpen
  | isOpen, line :: rest =>
    if isProgramStart line || isSharedStart line then !isOpen && closesFrom true rest
    else if isBlockEnd line then isOpen && closesFrom false rest
    else closesFrom isOpen rest

/-- The markers outside of shared blocks, each with the lines behind it; in front of the lines a
shared block may be open. -/
def markersFrom : Bool → List String → List (String × List String)
  | _, [] => []
  | true, line :: rest => markersFrom (!isBlockEnd line) rest
  | false, line :: rest =>
    if isSharedStart line then markersFrom true rest
    else if isMarker line then (line, rest) :: markersFrom false rest
    else markersFrom false rest

/-- Sources whose markers pair up in the file of the shader. -/
structure Sources.IsBlocked (s : Sources) : Prop where
  closes : closesFrom false s.mainLines = true
  plain : ∀ file lines, s.files.get? file = some lines → file ≠ s.main →
    ∀ line ∈ lines, isPlain line = true

instance Sources.decidableIsBlocked (s : Sources) : Decidable s.IsBlocked :=
  decidable_of_iff
    (closesFrom false s.mainLines = true ∧
      ∀ e ∈ s.files.entries, e.1 ≠ s.main → ∀ line ∈ e.2, isPlain line = true)
    ⟨fun h => ⟨h.1, fun file lines hget =>
        h.2 (file, lines) ((Table.mem_entries_iff String.lt_irrefl s.files file lines).2 hget)⟩,
      fun h => ⟨h.closes, fun e he =>
        h.plain e.1 e.2 ((Table.mem_entries_iff String.lt_irrefl s.files e.1 e.2).1 he)⟩⟩

/-! ## Lines -/

theorem not_isBlockEnd_of_isProgramStart {line : String} (h : isProgramStart line = true) :
    isBlockEnd line = false := by
  simp only [isProgramStart, Bool.or_eq_true, decide_eq_true_eq] at h
  rcases h with rfl | rfl
  · decide
  · decide

/-- A shared block that is closed holds plain lines only. -/
theorem isPlain_of_closesFrom {lines : List String} (h : closesFrom true lines = true) :
    ∀ line ∈ lines.takeWhile (!isBlockEnd ·), isPlain line = true := by
  induction lines with
  | nil => simp
  | cons line rest ih =>
    rw [closesFrom] at h
    split at h
    · simp at h
    · rename_i hstart
      rw [Bool.or_eq_true, not_or, Bool.not_eq_true, Bool.not_eq_true] at hstart
      cases hend : isBlockEnd line with
      | true => simp [hend]
      | false =>
        rw [hend, if_neg Bool.false_ne_true] at h
        intro l hl
        rw [List.takeWhile_cons, hend, Bool.not_false, if_pos rfl, List.mem_cons] at hl
        rcases hl with rfl | hl
        · simp [isPlain, isMarker, hstart.1, hstart.2, hend]
        · exact ih h l hl

/-- Behind a shared block the text goes on as if it had not been there. -/
theorem closesFrom_drop {lines : List String} (h : closesFrom true lines = true) :
    closesFrom false ((lines.dropWhile (!isBlockEnd ·)).drop 1) = true := by
  induction lines with
  | nil => simp [closesFrom] at h
  | cons line rest ih =>
    rw [closesFrom] at h
    split at h
    · simp at h
    · cases hend : isBlockEnd line with
      | true => simpa [hend, List.dropWhile_cons] using h
      | false =>
        rw [hend, if_neg Bool.false_ne_true] at h
        simpa [hend, List.dropWhile_cons] using ih h

theorem markersFrom_drop (lines : List String) :
    markersFrom true lines = markersFrom false ((lines.dropWhile (!isBlockEnd ·)).drop 1) := by
  induction lines with
  | nil => rfl
  | cons line rest ih =>
    rw [markersFrom, List.dropWhile_cons]
    cases hend : isBlockEnd line with
    | true => rfl
    | false => exact ih

/-! ## The walk over the shader's own file -/

/-- The text of an event that is a marker. -/
def Event.marker? : Event → Option String
  | .line _ text => if isMarker text then some text else none
  | _ => none

namespace Walk

/-- A walk that has some lines of the shader's own file still in front of it.  What it walks
besides, included files and shared blocks, holds plain lines only. -/
structure AtMain (s : Sources) (w : Walk) (rest : List String) : Prop where
  stack : (w.stack = [] ∧ rest = []) ∨ ∃ upper, w.stack = upper ++ [⟨s.main, rest, none⟩] ∧
    ∀ frame ∈ upper, ∀ line ∈ frame.lines, isPlain line = true
  shared : ∀ block ∈ w.shared, ∀ line ∈ block, isPlain line = true
  pending : w.pending.isSome = true → w.stack ≠ []

/-- What the next event of a walk may be, in front of some lines of the shader's own file, in which
a block may be open. -/
def Outcome (s : Sources) (isOpen : Bool) (rest : List String) : Option (Event × Walk) → Prop
  | none => markersFrom false rest = []
  | some (event, w) => ∃ rest', w.AtMain s rest' ∧
    match event.marker? with
    | some text => markersFrom false rest = (text, rest') :: markersFrom false rest' ∧
        isProgramStart text = !isOpen ∧ closesFrom (!isOpen) rest' = true
    | none => markersFrom false rest = markersFrom false rest' ∧ closesFrom isOpen rest' = true

variable {s : Sources} {w : Walk} {rest : List String} {isOpen : Bool}

/-- Only the markers of the lines matter. -/
theorem Outcome.congr {lines : List String} {found : Option (Event × Walk)}
    (h : Outcome s isOpen lines found)
    (hmarkers : markersFrom false rest = markersFrom false lines) :
    Outcome s isOpen rest found := by
  cases found with
  | none => exact hmarkers.trans h
  | some found =>
    obtain ⟨rest', hmain, hevent⟩ := h
    refine ⟨rest', hmain, ?_⟩
    split
    · rename_i text heq
      rw [heq] at hevent
      exact ⟨hmarkers.trans hevent.1, hevent.2⟩
    · rename_i heq
      rw [heq] at hevent
      exact ⟨hmarkers.trans hevent.1, hevent.2⟩

/-- A walk whose own file is at the bottom, under plain lines. -/
theorem AtMain.of_upper (upper : List Frame) {pending : Option (String × String)}
    {shared : List (List String)} {visited : NameSet} {repeats : Nat}
    (hupper : ∀ frame ∈ upper, ∀ line ∈ frame.lines, isPlain line = true)
    (hshared : ∀ block ∈ shared, ∀ line ∈ block, isPlain line = true) :
    AtMain s ⟨upper ++ [⟨s.main, rest, none⟩], pending, shared, visited, repeats⟩ rest where
  stack := .inr ⟨upper, rfl, hupper⟩
  shared := hshared
  pending _ := by simp

/-- A marker of the shader's own file. -/
theorem outcome_of_marker {text : String} {lines : List String}
    (h : w.AtMain s (text :: lines))
    (hclose : closesFrom isOpen (text :: lines) = true) (hshared : isSharedStart text = false)
    (hmarker : isMarker text = true) :
    Outcome s isOpen (text :: lines) (some (w.lineEvent s ⟨s.main, lines, none⟩ text [])) := by
  have hmarkers : markersFrom false (text :: lines) = (text, lines) :: markersFrom false lines := by
    rw [markersFrom, if_neg (by simp [hshared]), if_pos hmarker]
  rw [closesFrom] at hclose
  cases hstart : isProgramStart text with
  | true =>
    rw [if_pos (by simp [hstart]), Bool.and_eq_true] at hclose
    rw [lineEvent, if_pos hstart]
    refine ⟨lines, .of_upper _ ?_ h.shared, ?_⟩
    · intro frame hframe
      obtain ⟨block, hblock, rfl⟩ := List.mem_map.1 hframe
      exact h.shared block hblock
    · rw [Event.marker?, if_pos hmarker]
      refine ⟨hmarkers, hstart.trans hclose.1.symm, ?_⟩
      rw [hclose.1]
      exact hclose.2
  | false =>
    have hend : isBlockEnd text = true := by simpa [isMarker, hstart] using hmarker
    rw [if_neg (by simp [hstart, hshared]), if_pos hend, Bool.and_eq_true] at hclose
    rw [lineEvent, if_neg (by simp [hstart]), if_pos hend]
    refine ⟨lines, .of_upper [] (by simp) h.shared, ?_⟩
    rw [Event.marker?, if_pos hmarker]
    refine ⟨hmarkers, ?_, ?_⟩
    · rw [hstart, hclose.1]
      rfl
    · rw [hclose.1]
      exact hclose.2

/-- A line that is no marker, wherever it stands. -/
theorem outcome_of_plain {file text : String} {lines rest' : List String}
    {directive : Option String} {outer : List Frame} (hplain : isPlain text = true)
    (hnext : ∀ pending, AtMain s { w with stack := ⟨file, lines, directive⟩ :: outer, pending } rest')
    (hmarkers : markersFrom false rest = markersFrom false rest')
    (hclose : closesFrom isOpen rest' = true) :
    Outcome s isOpen rest (some (w.lineEvent s ⟨file, lines, directive⟩ text outer)) := by
  rw [isPlain, isMarker, Bool.and_eq_true, Bool.not_eq_true', Bool.not_eq_true',
    Bool.or_eq_false_iff] at hplain
  have hmarker : isMarker text = false := by rw [isMarker, hplain.1.1, hplain.1.2]; rfl
  have hline : (Event.line file text).marker? = none := by
    rw [Event.marker?, if_neg (by simp [hmarker])]
  rw [lineEvent, if_neg (by simp [hplain.1.1]), if_neg (by simp [hplain.1.2])]
  split
  · refine ⟨rest', hnext w.pending, ?_⟩
    rw [hline]
    exact ⟨hmarkers, hclose⟩
  · split
    · exact ⟨rest', hnext _, hmarkers, hclose⟩
    · exact ⟨rest', hnext w.pending, hmarkers, hclose⟩

/-- The innermost lines are those of the shader's own file, or plain lines above it. -/
theorem AtMain.stack_cons {frame : Frame} {outer : List Frame} (h : w.AtMain s rest)
    (hstack : w.stack = frame :: outer) :
    (frame = ⟨s.main, rest, none⟩ ∧ outer = []) ∨
      (∀ line ∈ frame.lines, isPlain line = true) ∧ ∃ upper,
        outer = upper ++ [⟨s.main, rest, none⟩] ∧
        ∀ frame ∈ upper, ∀ line ∈ frame.lines, isPlain line = true := by
  rcases h.stack with ⟨hnil, -⟩ | ⟨upper, hupper, hplain⟩
  · rw [hstack] at hnil
    cases hnil
  · rw [hstack] at hupper
    cases upper with
    | nil =>
      rw [List.nil_append, List.cons.injEq] at hupper
      exact .inl hupper
    | cons first upper =>
      rw [List.cons_append, List.cons.injEq] at hupper
      obtain ⟨rfl, houter⟩ := hupper
      refine .inr ⟨hplain frame List.mem_cons_self, upper, houter, ?_⟩
      exact fun f hf => hplain f (List.mem_cons_of_mem frame hf)

/-- What the next event is to the markers of the shader's own file. -/
theorem outcome_of_advance (h : w.AtMain s rest) (hclose : closesFrom isOpen rest = true)
    (hpending : w.pending = none) : Outcome s isOpen rest (w.advance s) := by
  fun_induction advance s w generalizing rest isOpen with
  | case1 w hstack =>
    rcases h.stack with ⟨-, hrest⟩ | ⟨upper, hupper, -⟩
    · rw [hrest]
      rfl
    · simp [hstack] at hupper
  -- The end of an included file: the shader's own file lies below it.
  | case2 w file directive outer hstack =>
    rcases h.stack_cons hstack with ⟨hframe, -⟩ | ⟨-, upper, rfl, hupper⟩
    · cases hframe
    · exact ⟨rest, .of_upper upper hupper h.shared, rfl, hclose⟩
  -- The end of a replay, or of the shader's own file.
  | case3 w file outer hstack ih =>
    rcases h.stack_cons hstack with ⟨hframe, rfl⟩ | ⟨-, upper, rfl, hupper⟩
    · cases hframe
      refine ih ⟨.inl ⟨rfl, rfl⟩, h.shared, ?_⟩ hclose hpending
      simp [hpending]
    · exact ih (.of_upper upper hupper h.shared) hclose hpending
  -- A shared block is captured, which only the shader's own file may do: the others are plain.
  | case4 w file text lines directive outer hstack hshared ih =>
    rcases h.stack_cons hstack with ⟨hframe, rfl⟩ | ⟨hplain, -⟩
    · cases hframe
      have hopen := hclose
      rw [closesFrom, if_pos (by simp [hshared]), Bool.and_eq_true] at hopen
      -- The markers within the block are none of the file's, and the walk goes on behind it.
      have hmarkers : markersFrom false (text :: lines)
          = markersFrom false ((lines.dropWhile (!isBlockEnd ·)).drop 1) := by
        rw [markersFrom, if_pos hshared, markersFrom_drop]
      have hrest := ih (.of_upper [] (by simp) ?_) (closesFrom_drop hopen.2) hpending
      · have hclosed : isOpen = false := by simpa using hopen.1
        rw [hclosed]
        exact hrest.congr hmarkers
      · intro block hblock
        rcases List.mem_append.1 hblock with hblock | hblock
        · exact h.shared block hblock
        · rw [List.mem_singleton.1 hblock]
          exact isPlain_of_closesFrom hopen.2
    · have hplain := hplain text List.mem_cons_self
      rw [isPlain, hshared] at hplain
      simp at hplain
  -- A line becomes an event.
  | case5 w file text lines directive outer hstack hshared =>
    rw [Bool.not_eq_true] at hshared
    rcases h.stack_cons hstack with ⟨hframe, rfl⟩ | ⟨hplain, upper, rfl, hupper⟩
    · cases hframe
      cases hmarker : isMarker text with
      | true => exact outcome_of_marker h hclose hshared hmarker
      | false =>
        have hplain : isPlain text = true := by rw [isPlain, hmarker, hshared]; rfl
        rw [isMarker, Bool.or_eq_false_iff] at hmarker
        refine outcome_of_plain hplain (fun _ => .of_upper [] (by simp) h.shared) ?_ ?_
        · rw [markersFrom, if_neg (by simp [hshared]), if_neg (by simp [isMarker, hmarker])]
        · rw [closesFrom, if_neg (by simp [hmarker.1, hshared]), if_neg (by simp [hmarker.2])]
            at hclose
          exact hclose
    · refine outcome_of_plain (hplain text List.mem_cons_self) (fun _ => ?_) rfl hclose
      refine .of_upper (⟨file, lines, directive⟩ :: upper) ?_ h.shared
      intro frame hframe
      rcases List.mem_cons.1 hframe with rfl | hframe
      · exact fun line hline => hplain line (List.mem_cons_of_mem text hline)
      · exact hupper frame hframe

theorem outcome_of_next (h : w.AtMain s rest) (hclose : closesFrom isOpen rest = true) :
    Outcome s isOpen rest (w.next s) := by
  refine outcome_of_advance ⟨h.stack, h.shared, ?_⟩ hclose rfl
  simp

/-- The file that a walk descends into is not the shader's own file, which is being walked. -/
theorem AtMain.descend (hblocked : s.IsBlocked) (h : w.AtMain s rest) :
    (w.descend s).2.AtMain s rest := by
  rw [Walk.descend]
  cases hpending : w.pending with
  | none => exact h
  | some found =>
    obtain ⟨target, directive⟩ := found
    have hnonempty : w.stack ≠ [] := h.pending (by rw [hpending]; rfl)
    rcases h.stack with ⟨hnil, -⟩ | ⟨upper, hupper, hplain⟩
    · exact absurd hnil hnonempty
    · dsimp only
      split
      · rw [hupper]
        exact .of_upper upper hplain h.shared
      · rename_i hfresh
        rw [Bool.or_eq_true, not_or, hupper] at hfresh
        have hother : target ≠ s.main := by
          intro heq
          exact hfresh.2 (by simp [heq])
        split
        · rw [hupper]
          exact .of_upper upper hplain h.shared
        · rename_i lines hlines
          rw [hupper]
          refine .of_upper (⟨target, lines, some directive⟩ :: upper) ?_ h.shared
          intro frame hframe
          rcases List.mem_cons.1 hframe with rfl | hframe
          · exact hblocked.plain target lines hlines hother
          · exact hplain frame hframe

/-- The lines of the shader's own file behind a point of a walk. -/
def mainRest (w : Walk) : List String := (w.stack.getLast?.map (·.lines)).getD []

theorem AtMain.mainRest_eq (h : w.AtMain s rest) : w.mainRest = rest := by
  rcases h.stack with ⟨hnil, hrest⟩ | ⟨upper, hupper, -⟩
  · rw [mainRest, hnil, hrest]
    rfl
  · rw [mainRest, hupper, List.getLast?_concat]
    rfl

theorem atMain_start (s : Sources) : (start s).AtMain s s.mainLines :=
  .of_upper [] (by simp) (by simp)

end Walk

/-! ## The markers of a run -/

/-- Whether a step leaves the walk as it is, but for a descent into the include it was given. -/
def StepsOver {σ ε : Type} (s : Sources) (step : σ → Walk → Event → Except ε (σ × Walk)) : Prop :=
  ∀ state w event state' w', step state w event = .ok (state', w') →
    w' = w ∨ w' = (w.descend s).2

/-- The marker that is met at a moment, with the lines of the shader's own file behind it. -/
def Moment.marker? {σ : Type} (m : Moment σ) : Option (String × List String) :=
  m.event.marker?.map (·, m.walk.mainRest)

section

variable {σ ε : Type} {s : Sources} {step : σ → Walk → Event → Except ε (σ × Walk)}

/-- The markers of a run to the end of a walk are those of the shader's own file. -/
theorem markers_of_run (hblocked : s.IsBlocked) (hsteps : StepsOver s step) {state state' : σ}
    {w w' : Walk} {moments : List (Moment σ)} (hrun : Run s step state w moments state' w')
    (hend : w'.next s = none) {rest : List String} {isOpen : Bool} (hmain : w.AtMain s rest)
    (hclose : closesFrom isOpen rest = true) :
    moments.filterMap Moment.marker? = markersFrom false rest := by
  induction hrun generalizing rest isOpen with
  | nil =>
    have hout := Walk.outcome_of_next hmain hclose
    rw [hend] at hout
    exact hout.symm
  | @cons state state₁ state' w w₁ w₂ w' event moments hnext hstep _ ih =>
    have hout := Walk.outcome_of_next hmain hclose
    rw [hnext] at hout
    obtain ⟨rest', hmain₁, hevent⟩ := hout
    have hmain₂ : w₂.AtMain s rest' := by
      rcases hsteps _ _ _ _ _ hstep with rfl | rfl
      · exact hmain₁
      · exact hmain₁.descend hblocked
    cases hmarker : event.marker? with
    | none =>
      rw [hmarker] at hevent
      rw [List.filterMap_cons_none (by rw [Moment.marker?, hmarker]; rfl), hevent.1]
      exact ih hend hmain₂ hevent.2
    | some text =>
      rw [hmarker] at hevent
      have hfirst : Moment.marker? ⟨state, event, w₁, state₁⟩ = some (text, rest') := by
        rw [Moment.marker?, hmarker, hmain₁.mainRest_eq]
        rfl
      rw [List.filterMap_cons_some hfirst, hevent.1]
      exact congrArg _ (ih hend hmain₂ hevent.2.2)

end

/-- The markers that are met at some moments. -/
def markerTexts {σ : Type} (moments : List (Moment σ)) : List String :=
  (moments.filterMap Moment.marker?).map (·.1)

theorem eq_line_of_marker? {event : Event} {text : String} (h : event.marker? = some text) :
    isMarker text = true ∧ ∃ file, event = .line file text := by
  cases event with
  | line file line =>
    rw [Event.marker?] at h
    split at h
    · rename_i hmarker
      cases h
      exact ⟨hmarker, file, rfl⟩
    · cases h
  | include_ => cases h
  | endInclude => cases h

theorem markerTexts_cons_of_none {σ : Type} {m : Moment σ} (moments : List (Moment σ))
    (h : m.event.marker? = none) : markerTexts (m :: moments) = markerTexts moments := by
  rw [markerTexts, List.filterMap_cons_none (by rw [Moment.marker?, h]; rfl)]
  rfl

theorem markerTexts_cons_of_some {σ : Type} {m : Moment σ} (moments : List (Moment σ))
    {text : String} (h : m.event.marker? = some text) :
    markerTexts (m :: moments) = text :: markerTexts moments := by
  have hmarker : m.marker? = some (text, m.walk.mainRest) := by
    rw [Moment.marker?, h]
    rfl
  rw [markerTexts, List.filterMap_cons_some hmarker]
  rfl

/-- The number of program blocks that start among markers. -/
def starts (texts : List String) : Nat := texts.countP isProgramStart

/-- Whether texts are markers by turns, a start first unless a block is open. -/
def alternates : Bool → List String → Bool
  | _, [] => true
  | isOpen, text :: rest =>
    isMarker text && isProgramStart text == !isOpen && alternates (!isOpen) rest

/-- Whether a block is open behind markers by turns. -/
def opensAfter : Bool → List String → Bool
  | isOpen, [] => isOpen
  | isOpen, _ :: rest => opensAfter (!isOpen) rest

theorem alternates_append {first second : List String} {isOpen : Bool} :
    alternates isOpen (first ++ second)
      = (alternates isOpen first && alternates (opensAfter isOpen first) second) := by
  induction first generalizing isOpen with
  | nil => rfl
  | cons text rest ih =>
    rw [List.cons_append, alternates, alternates, opensAfter, ih]
    simp only [Bool.and_assoc]

theorem opensAfter_append (first second : List String) (isOpen : Bool) :
    opensAfter isOpen (first ++ second) = opensAfter (opensAfter isOpen first) second := by
  induction first generalizing isOpen with
  | nil => rfl
  | cons text rest ih => exact ih (!isOpen)

/-- Markers that pair up alternate, and leave no block open. -/
theorem alternates_of_closesFrom {rest : List String} {isOpen isShared : Bool}
    (hclose : closesFrom (isOpen || isShared) rest = true) (hboth : (isOpen && isShared) = false) :
    alternates isOpen ((markersFrom isShared rest).map (·.1)) = true ∧
      opensAfter isOpen ((markersFrom isShared rest).map (·.1)) = false := by
  induction rest generalizing isOpen isShared with
  | nil => cases isOpen <;> cases isShared <;> simp_all [closesFrom, markersFrom, alternates, opensAfter]
  | cons line rest ih =>
    rw [closesFrom] at hclose
    cases isShared with
    -- Within a shared block only its end counts.
    | true =>
      rw [Bool.and_true] at hboth
      rw [hboth, Bool.false_or] at hclose
      rw [markersFrom, hboth]
      split at hclose
      · simp at hclose
      · cases hend : isBlockEnd line with
        | true =>
          rw [hend, if_pos rfl, Bool.true_and] at hclose
          exact ih hclose rfl
        | false =>
          rw [hend, if_neg Bool.false_ne_true] at hclose
          exact ih hclose rfl
    | false =>
      rw [Bool.or_false] at hclose
      rw [markersFrom]
      cases hshared : isSharedStart line with
      | true =>
        rw [if_pos (by simp [hshared]), Bool.and_eq_true, Bool.not_eq_true'] at hclose
        rw [if_pos rfl]
        refine ih ?_ (by simp [hclose.1])
        rw [hclose.1]
        exact hclose.2
      | false =>
        rw [if_neg Bool.false_ne_true]
        cases hstart : isProgramStart line with
        | true =>
          rw [if_pos (by simp [hstart]), Bool.and_eq_true, Bool.not_eq_true'] at hclose
          rw [if_pos (by simp [isMarker, hstart]), List.map_cons, alternates, hclose.1]
          have hrest := @ih true false hclose.2 rfl
          exact ⟨by simp [isMarker, hstart, hrest.1], hrest.2⟩
        | false =>
          rw [if_neg (by simp [hstart, hshared])] at hclose
          cases hend : isBlockEnd line with
          | true =>
            rw [hend, if_pos rfl, Bool.and_eq_true] at hclose
            rw [if_pos (by simp [isMarker, hend]), List.map_cons, alternates, hclose.1]
            have hrest := @ih false false hclose.2 rfl
            exact ⟨by simp [isMarker, hstart, hend, hrest.1], hrest.2⟩
          | false =>
            rw [hend, if_neg Bool.false_ne_true] at hclose
            rw [if_neg (by simp [isMarker, hstart, hend])]
            exact ih (by rw [Bool.or_false]; exact hclose) (Bool.and_false _)

end ShaderMerge.Include
