import ShaderMerge.Proofs.Include.Document
import ShaderMerge.Proofs.Include.Markers

/-!
# A walk that descends where a guide finds live text

`Document.step` lets a walk descend into each include in live text, and collects the text on the
way.  The text is that of `Sources.pieces?`: what is still to be read at any point of the walk is
what the recursion reads of the open files, innermost first (`ReadsStack`).  The lemmas on
`ReadsStack` say so for each way in which a walk goes on; `readsStack_of_next` puts them together
for one event, and `pieces?_of_run` for a whole run.
-/

namespace ShaderMerge.Include

variable {γ : Type}

/-- What an event of a walk does to a document, if the walk descends in live text only. -/
def Document.step (s : Sources) (G : Guide γ) (d : Document γ) (w : Walk) :
    Event → Except Empty (Document γ × Walk)
  | .line _ text =>
    if isProgramStart text then .ok (d.start G text, w)
    else if isBlockEnd text then .ok (d.stop G text, w)
    else .ok (d.keep G text, w)
  | .include_ _ directive target =>
    if d.isLive G && target.isSome then .ok (d, (w.descend s).2) else .ok (d.keep G directive, w)
  | .endInclude _ _ => .ok (d, w)

/-- Whether a file is among those of some frames. -/
def isOpenIn (stack : List Frame) (file : String) : Bool := stack.any (·.file = file)

/-- Read what is left of some frames, innermost first. -/
def readStack (s : Sources) (G : Guide γ) (depth : Nat) :
    List Frame → Reading γ → Option (Reading γ)
  | [], r => some r
  | frame :: outer, r =>
    (s.read G depth (isOpenIn (frame :: outer)) r frame.lines).bind (readStack s G depth outer)

/-- What is known behind all that is left of some frames. -/
def ReadsStack (s : Sources) (G : Guide γ) (stack : List Frame) (r r' : Reading γ) : Prop :=
  ∃ depth, readStack s G depth stack r = some r'

variable {s : Sources} {G : Guide γ} {stack outer : List Frame} {r r₁ r' : Reading γ}
  {file text : String} {rest : List String} {directive : Option String}

theorem readStack_succ {depth : Nat} (h : readStack s G depth stack r = some r') :
    readStack s G (depth + 1) stack r = some r' := by
  induction stack generalizing r with
  | nil => exact h
  | cons frame outer ih =>
    rw [readStack, Option.bind_eq_some_iff] at h ⊢
    obtain ⟨r₁, hread, hrest⟩ := h
    exact ⟨r₁, Sources.read_succ hread, ih hrest⟩

/-- The frames of a replay open no file but that of the shader. -/
theorem isOpenIn_replay (blocks : List (List String)) (stack : List Frame) (f : String) :
    (s.main = f || isOpenIn (Walk.replay s blocks ++ stack) f) = (s.main = f || isOpenIn stack f) := by
  induction blocks with
  | nil => rfl
  | cons block blocks ih =>
    change (decide (s.main = f)
      || (decide (s.main = f) || isOpenIn (Walk.replay s blocks ++ stack) f)) = _
    rw [ih, ← Bool.or_assoc, Bool.or_self]

/-- Shared blocks that are replayed are read as parts of the shader's own file. -/
theorem readStack_replay {depth : Nat} (blocks : List (List String)) :
    readStack s G depth (Walk.replay s blocks ++ stack) r
      = (blocks.foldlM (s.read G depth fun f => s.main = f || isOpenIn stack f) r).bind
          (readStack s G depth stack) := by
  induction blocks generalizing r with
  | nil => rfl
  | cons block blocks ih =>
    change (s.read G depth (fun f => s.main = f || isOpenIn (Walk.replay s blocks ++ stack) f) r
      block).bind (readStack s G depth (Walk.replay s blocks ++ stack)) = _
    rw [funext (isOpenIn_replay blocks stack), List.foldlM_cons, Option.bind_eq_bind, Option.bind_assoc]
    exact congrArg _ (funext fun r => ih)

namespace ReadsStack

/-! ## Steps without an event -/

theorem nil (s : Sources) (G : Guide γ) (r : Reading γ) : ReadsStack s G [] r r := ⟨0, rfl⟩

theorem pop (h : ReadsStack s G outer r r') :
    ReadsStack s G (⟨file, [], directive⟩ :: outer) r r' := by
  obtain ⟨depth, h⟩ := h
  have hmore : readStack s G (depth + 1) outer r = some r' := readStack_succ h
  exact ⟨depth + 1, hmore⟩

theorem share (hshared : isSharedStart text = true)
    (h : ReadsStack s G (⟨file, (rest.dropWhile (!isBlockEnd ·)).drop 1, directive⟩ :: outer)
      { r with shared := r.shared ++ [rest.takeWhile (!isBlockEnd ·)] } r') :
    ReadsStack s G (⟨file, text :: rest, directive⟩ :: outer) r r' := by
  obtain ⟨depth, h⟩ := h
  rw [readStack, Option.bind_eq_some_iff] at h
  obtain ⟨r₁, hread, hrest⟩ := h
  refine ⟨depth + 1, ?_⟩
  rw [readStack, Sources.read, if_pos hshared, Option.bind_eq_some_iff]
  exact ⟨r₁, hread, readStack_succ hrest⟩

/-! ## Steps with an event -/

/-- A line that is read to the end is behind the walk, and what is left is read after it. -/
theorem of_line (hshared : isSharedStart text = false)
    (hline : ∀ inside, r.line s G inside (isOpenIn (⟨file, rest, directive⟩ :: outer)) text = some r₁)
    (h : ReadsStack s G (⟨file, rest, directive⟩ :: outer) r₁ r') :
    ReadsStack s G (⟨file, text :: rest, directive⟩ :: outer) r r' := by
  obtain ⟨depth, h⟩ := h
  rw [readStack, Option.bind_eq_some_iff] at h
  obtain ⟨r₂, hread, hrest⟩ := h
  refine ⟨depth + 1, ?_⟩
  rw [readStack, Sources.read, if_neg (by simp [hshared]), Option.bind_eq_some_iff]
  refine ⟨r₂, Option.bind_eq_some_iff.2 ⟨r₁, hline _, hread⟩, readStack_succ hrest⟩

theorem start (hshared : isSharedStart text = false) (hstart : isProgramStart text = true)
    (h : ReadsStack s G (Walk.replay s r.shared ++ ⟨file, rest, directive⟩ :: outer)
      { r with document := r.document.start G text, visited := ∅ } r') :
    ReadsStack s G (⟨file, text :: rest, directive⟩ :: outer) r r' := by
  obtain ⟨depth, h⟩ := h
  rw [readStack_replay, Option.bind_eq_some_iff] at h
  obtain ⟨r₁, hreplay, h⟩ := h
  rw [readStack, Option.bind_eq_some_iff] at h
  obtain ⟨r₂, hread, hrest⟩ := h
  refine ⟨depth + 1, ?_⟩
  rw [readStack, Sources.read, if_neg (by simp [hshared]), Option.bind_eq_some_iff]
  refine ⟨r₂, Option.bind_eq_some_iff.2 ⟨r₁, ?_, hread⟩, readStack_succ hrest⟩
  rw [Reading.line, if_pos hstart]
  exact hreplay

theorem stop (hshared : isSharedStart text = false) (hstart : isProgramStart text = false)
    (hend : isBlockEnd text = true)
    (h : ReadsStack s G (⟨file, rest, directive⟩ :: outer)
      { r with document := r.document.stop G text, visited := ∅ } r') :
    ReadsStack s G (⟨file, text :: rest, directive⟩ :: outer) r r' := by
  refine h.of_line hshared fun inside => ?_
  rw [Reading.line, if_neg (by simp [hstart]), if_pos hend]

theorem keep (hshared : isSharedStart text = false) (hplain : isMarker text = false)
    (hwanted : r.wanted? s G text = none)
    (h : ReadsStack s G (⟨file, rest, directive⟩ :: outer)
      { r with document := r.document.keep G text } r') :
    ReadsStack s G (⟨file, text :: rest, directive⟩ :: outer) r r' := by
  rw [isMarker, Bool.or_eq_false_iff] at hplain
  refine of_line hshared (fun inside => ?_) h
  rw [Reading.line, if_neg (by simp [hplain.1]), if_neg (by simp [hplain.2]), hwanted]

/-- An include that is wanted: it is refused or the walk descends, as `Walk.descend` has it. -/
theorem descend {w : Walk} {target : String} (hshared : isSharedStart text = false)
    (hplain : isMarker text = false) {d : Document γ}
    (hwanted : (Reading.mk d w.shared w.visited).wanted? s G text = some target)
    (hstack : w.stack = ⟨file, rest, directive⟩ :: outer)
    (hpending : w.pending = some (target, text))
    (h : ReadsStack s G (w.descend s).2.stack
      ⟨d, (w.descend s).2.shared, (w.descend s).2.visited⟩ r') :
    ReadsStack s G (⟨file, text :: rest, directive⟩ :: outer) ⟨d, w.shared, w.visited⟩ r' := by
  have havailable : s.files.contains target = true := by
    rw [Reading.wanted?] at hwanted
    split at hwanted
    · exact (Option.filter_eq_some_iff.1 hwanted).2
    · cases hwanted
  obtain ⟨lines, hlines⟩ := Option.isSome_iff_exists.1 havailable
  rw [isMarker, Bool.or_eq_false_iff] at hplain
  have hopen : ∀ lines, isOpenIn (⟨file, lines, directive⟩ :: outer) target
      = w.stack.any (·.file = target) := by
    intro lines
    rw [hstack]
    rfl
  simp only [Walk.descend, hpending] at h
  -- A file that has been expanded, or that is being read, is refused by both.
  by_cases hagain : (w.visited.contains target || w.stack.any (·.file = target)) = true
  · rw [if_pos hagain] at h
    dsimp only at h
    rw [hstack] at h
    refine of_line hshared (fun inside => ?_) h
    rw [Reading.line, if_neg (by simp [hplain.1]), if_neg (by simp [hplain.2]), hwanted]
    dsimp only
    rw [hopen, if_pos hagain]
    rfl
  · rw [if_neg hagain, hlines] at h
    dsimp only at h
    rw [hstack] at h
    obtain ⟨depth, h⟩ := h
    rw [readStack, Option.bind_eq_some_iff] at h
    obtain ⟨r₁, hinside, h⟩ := h
    rw [readStack, Option.bind_eq_some_iff] at h
    obtain ⟨r₂, hread, hrest⟩ := h
    refine ⟨depth + 1, ?_⟩
    rw [readStack, Sources.read, if_neg (by simp [hshared]), Option.bind_eq_some_iff]
    refine ⟨r₂, Option.bind_eq_some_iff.2 ⟨r₁, ?_, hread⟩, readStack_succ hrest⟩
    rw [Reading.line, if_neg (by simp [hplain.1]), if_neg (by simp [hplain.2]), hwanted]
    dsimp only
    rw [hopen, if_neg hagain, hlines]
    exact hinside

end ReadsStack

/-! ## Walks -/

variable {w w₁ w₂ w' : Walk} {d d₁ d' : Document γ} {event : Event}

/-- The first line of a file, if it opens no shared block. -/
theorem readsStack_of_lineEvent (hshared : isSharedStart text = false)
    (hnext : w.lineEvent s ⟨file, rest, directive⟩ text outer = (event, w₁))
    (hstep : d.step s G w₁ event = .ok (d₁, w₂))
    (h : ReadsStack s G w₂.stack ⟨d₁, w₂.shared, w₂.visited⟩ r') :
    ReadsStack s G (⟨file, text :: rest, directive⟩ :: outer) ⟨d, w.shared, w.visited⟩ r' := by
  rw [Walk.lineEvent] at hnext
  -- The walk and the document ask the same questions of the line, in the same order.
  cases hstart : isProgramStart text with
  | true =>
    rw [if_pos hstart] at hnext
    cases hnext
    rw [Document.step, if_pos hstart] at hstep
    cases hstep
    exact .start hshared hstart h
  | false =>
    rw [if_neg (by simp [hstart])] at hnext
    cases hend : isBlockEnd text with
    | true =>
      rw [if_pos hend] at hnext
      cases hnext
      rw [Document.step, if_neg (by simp [hstart]), if_pos hend] at hstep
      cases hstep
      exact .stop hshared hstart hend h
    | false =>
      have hplain : isMarker text = false := by rw [isMarker, hstart, hend]; rfl
      rw [if_neg (by simp [hend])] at hnext
      cases htarget : target? text with
      | none =>
        rw [htarget] at hnext
        cases hnext
        rw [Document.step, if_neg (by simp [hstart]), if_neg (by simp [hend])] at hstep
        cases hstep
        refine .keep hshared hplain ?_ h
        rw [Reading.wanted?, htarget]
        simp
      | some target =>
        rw [htarget] at hnext
        dsimp only at hnext
        -- An include of a file that is not there is a line like any other.
        cases havailable : s.files.contains target with
        | false =>
          rw [havailable, if_neg Bool.false_ne_true] at hnext
          cases hnext
          simp only [Document.step, Option.isSome_none, Bool.and_false, if_neg Bool.false_ne_true]
            at hstep
          cases hstep
          refine .keep hshared hplain ?_ h
          simp [Reading.wanted?, htarget, havailable]
        | true =>
          rw [havailable, if_pos rfl] at hnext
          cases hnext
          rw [Document.step, Option.isSome_some, Bool.and_true] at hstep
          cases hlive : d.isLive G with
          | false =>
            rw [hlive, if_neg Bool.false_ne_true] at hstep
            cases hstep
            refine .keep hshared hplain ?_ h
            simp [Reading.wanted?, hlive]
          | true =>
            rw [hlive, if_pos rfl] at hstep
            cases hstep
            have hwanted : (Reading.mk d w.shared w.visited).wanted? s G text = some target := by
              simp [Reading.wanted?, hlive, htarget, havailable]
            exact ReadsStack.descend (w := { w with
              pending := some (target, text), stack := ⟨file, rest, directive⟩ :: outer })
              hshared hplain hwanted rfl rfl h

theorem readsStack_of_advance (hnext : w.advance s = some (event, w₁))
    (hstep : d.step s G w₁ event = .ok (d₁, w₂))
    (h : ReadsStack s G w₂.stack ⟨d₁, w₂.shared, w₂.visited⟩ r') :
    ReadsStack s G w.stack ⟨d, w.shared, w.visited⟩ r' := by
  fun_induction Walk.advance s w with
  | case1 => cases hnext
  | case2 w file directive outer hstack =>
    cases hnext
    cases hstep
    rw [hstack]
    exact .pop h
  | case3 w file outer hstack ih =>
    rw [hstack]
    exact .pop (ih hnext)
  | case4 w file text rest directive outer hstack hshared ih =>
    rw [hstack]
    exact .share hshared (ih hnext)
  | case5 w file text rest directive outer hstack hshared =>
    rw [hstack]
    exact readsStack_of_lineEvent (Bool.eq_false_iff.2 hshared) (Option.some.inj hnext) hstep h

/-- In front of an event there is left to read what the step behind it leaves. -/
theorem readsStack_of_next (hnext : w.next s = some (event, w₁))
    (hstep : d.step s G w₁ event = .ok (d₁, w₂))
    (h : ReadsStack s G w₂.stack ⟨d₁, w₂.shared, w₂.visited⟩ r') :
    ReadsStack s G w.stack ⟨d, w.shared, w.visited⟩ r' :=
  readsStack_of_advance (w := { w with pending := none }) hnext hstep h

/-- Behind the last event nothing is left but shared blocks. -/
theorem readsStack_of_end (hnext : w.next s = none) (d : Document γ) :
    ∃ shared, ReadsStack s G w.stack ⟨d, w.shared, w.visited⟩ ⟨d, shared, w.visited⟩ := by
  have hadvance : ∀ w : Walk, w.advance s = none →
      ∃ shared, ReadsStack s G w.stack ⟨d, w.shared, w.visited⟩ ⟨d, shared, w.visited⟩ := by
    intro w hnone
    fun_induction Walk.advance s w with
    | case1 w hstack =>
      rw [hstack]
      exact ⟨w.shared, .nil s G _⟩
    | case2 => cases hnone
    | case3 w file outer hstack ih =>
      rw [hstack]
      obtain ⟨shared, hrest⟩ := ih hnone
      exact ⟨shared, .pop hrest⟩
    | case4 w file text rest directive outer hstack hshared ih =>
      rw [hstack]
      obtain ⟨shared, hrest⟩ := ih hnone
      exact ⟨shared, .share hshared hrest⟩
    | case5 => cases hnone
  exact hadvance { w with pending := none } hnext

theorem readsStack_of_run {moments : List (Moment (Document γ))}
    (hrun : Run s (Document.step s G) d w moments d' w') (hend : w'.next s = none) :
    ∃ shared, ReadsStack s G w.stack ⟨d, w.shared, w.visited⟩ ⟨d', shared, w'.visited⟩ := by
  induction hrun with
  | nil => exact readsStack_of_end hend _
  | cons hnext hstep _ ih =>
    obtain ⟨shared, hrest⟩ := ih hend
    exact ⟨shared, readsStack_of_next hnext hstep hrest⟩

/-- **A walk reads the text of the recursion.**  If a walk that descends in live text comes to its
end, the document it has collected is the text of the sources. -/
theorem pieces?_of_run {moments : List (Moment (Document γ))}
    (hrun : Run s (Document.step s G) .empty (.start s) moments d' w') (hend : w'.next s = none) :
    ∃ depth, s.pieces? G depth = some d'.finish := by
  obtain ⟨shared, depth, hread⟩ := readsStack_of_run hrun hend
  refine ⟨depth, ?_⟩
  have hopen : isOpenIn [⟨s.main, s.mainLines, none⟩] = fun file => decide (s.main = file) :=
    funext fun file => Bool.or_false _
  rw [Walk.start, readStack, hopen, Option.bind_eq_some_iff] at hread
  obtain ⟨r, hread, hrest⟩ := hread
  cases hrest
  rw [Sources.pieces?, hread]
  rfl

end ShaderMerge.Include
