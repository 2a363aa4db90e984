import ShaderMerge.Condition.Scopes
import ShaderMerge.Proofs.Table

/-!
# Scopes without copies

A frame of `Scopes` holds only what its arm has changed.  `Copies` is the plain way to keep scopes: to
open one is to copy all that is known, to close it is to throw the copy away.  A caller cannot tell the
two apart (`Scopes.answers_new`): every look-up has the same answer, and a frame that is closed has
changed exactly what has been set in its copy.

`Refines` relates the two, one frame to one copy.  What a copy knows is what its frame says, and else
what the copy below it knows.  That one stands still for as long as the copy is open, since whatever is
set is set in the innermost one; so every request preserves the relation (`Refines.request`).
-/

namespace ShaderMerge.Condition

/-! ## Requests -/

/-- What is asked of scopes. -/
inductive ScopeRequest where
  /-- What is known of a name? -/
  | get (name : String)
  /-- Note something about a name. -/
  | set (name : String) (value : Truth)
  /-- Open a frame. -/
  | push
  /-- Close the innermost frame. -/
  | pop
deriving DecidableEq, Repr

/-- What scopes answer. -/
inductive ScopeAnswer where
  /-- A request is done that asks for nothing. -/
  | done
  /-- What is known of a name. -/
  | known (value : Truth)
  /-- What the frame that is closed has changed. -/
  | closed (changes : String → Option Truth)

namespace ScopeRequest

/-- Make requests one after the other: the answers, and what they are made of behind them. -/
def run {σ : Type} (request : σ → ScopeRequest → ScopeAnswer × σ) (s : σ) :
    List ScopeRequest → List ScopeAnswer × σ
  | [] => ([], s)
  | first :: rest =>
    let (answer, s) := request s first
    let (answers, s) := run request s rest
    (answer :: answers, s)

section

variable {σ : Type} {request : σ → ScopeRequest → ScopeAnswer × σ}

theorem run_cons (s : σ) (r : ScopeRequest) (rs : List ScopeRequest) :
    run request s (r :: rs) = ((request s r).1 :: (run request (request s r).2 rs).1,
      (run request (request s r).2 rs).2) := rfl

theorem run_append_snd (s : σ) (first second : List ScopeRequest) :
    (run request s (first ++ second)).2 = (run request (run request s first).2 second).2 := by
  induction first generalizing s with
  | nil => rfl
  | cons r rs ih => exact ih (request s r).2

end

/-- The number of frames that are open above some others behind a request, if it closes none of
those. -/
def framesBehind? (above : Nat) : ScopeRequest → Option Nat
  | push => some (above + 1)
  | pop =>
    match above with
    | 0 => none
    | inner + 1 => some inner
  | _ => some above

/-- The number of frames that are open above some others behind some requests, if they close none of
those. -/
def framesAfter? (above : Nat) (requests : List ScopeRequest) : Option Nat :=
  requests.foldlM framesBehind? above

end ScopeRequest

/-- Make one request of scopes. -/
def Scopes.request (s : Scopes) : ScopeRequest → ScopeAnswer × Scopes
  | .get name => (.known (s.get name), s)
  | .set name value => (.done, s.set name value)
  | .push => (.done, s.push)
  | .pop => (.closed s.pop.1.get?, s.pop.2)

/-! ## Full copies -/

/-- The last value that some entries give a name. -/
def lastValue {α : Type} (entries : List (String × α)) (name : String) : Option α :=
  entries.reverse.lookup name

theorem lastValue_concat {α : Type} (entries : List (String × α)) (key name : String) (value : α) :
    lastValue (entries ++ [(key, value)]) name
      = if name = key then some value else lastValue entries name := by
  rw [lastValue, List.reverse_append]
  exact Table.lookup_cons_eq_ite name key value entries.reverse

/-- A copy of all that is known. -/
structure Copy where
  /-- What is known of every name. -/
  known : String → Truth
  /-- What has been set in the copy, in order. -/
  changes : List (String × Truth)

/-- Scopes of which each is a copy of the one around it. -/
structure Copies where
  /-- What is known outside of every copy. -/
  root : String → Truth
  /-- The open copies, innermost first. -/
  copies : List Copy

namespace Copies

/-- What is known of every name here. -/
def known (c : Copies) : String → Truth :=
  match c.copies with
  | [] => c.root
  | copy :: _ => copy.known

/-- Known names, of which the last entry counts, and no copy. -/
def new (seed : List (String × Bool)) : Copies :=
  ⟨fun name => (lastValue seed name).elim .unknown Truth.ofBool, []⟩

/-- Make one request of copies. -/
def request (c : Copies) : ScopeRequest → ScopeAnswer × Copies
  | .get name => (.known (c.known name), c)
  | .set name value =>
    let known := fun n => if n = name then value else c.known n
    match c.copies with
    | [] => (.done, ⟨known, []⟩)
    | copy :: outer => (.done, ⟨c.root, ⟨known, copy.changes ++ [(name, value)]⟩ :: outer⟩)
  | .push => (.done, ⟨c.root, ⟨c.known, []⟩ :: c.copies⟩)
  | .pop =>
    match c.copies with
    | [] => (.closed fun _ => none, c)
    | copy :: outer => (.closed (lastValue copy.changes), ⟨c.root, outer⟩)

end Copies

/-! ## Frames and copies -/

namespace Scopes

theorem get_nil (root : Frame) (name : String) :
    (⟨root, []⟩ : Scopes).get name = (root.get? name).getD .unknown := by
  cases hroot : root.get? name <;> simp [get, frames, hroot]

theorem get_cons (root frame : Frame) (outer : List Frame) (name : String) :
    (⟨root, frame :: outer⟩ : Scopes).get name
      = (frame.get? name).getD ((⟨root, outer⟩ : Scopes).get name) := by
  cases hframe : frame.get? name <;> simp [get, frames, List.findSome?_cons, hframe]

/-- Of several entries for a name the last one is known. -/
theorem get_new (seed : List (String × Bool)) (name : String) :
    (Scopes.new seed).get name = (lastValue seed name).elim .unknown Truth.ofBool := by
  have hlookup : ∀ entries : List (String × Bool),
      (entries.map fun e => (e.1, Truth.ofBool e.2)).lookup name
        = (entries.lookup name).map Truth.ofBool := by
    intro entries
    induction entries with
    | nil => rfl
    | cons e rest ih =>
      obtain ⟨k, v⟩ := e
      rw [List.map_cons, Table.lookup_cons_eq_ite, Table.lookup_cons_eq_ite, ih]
      split <;> rfl
  have hroot : (Scopes.new seed).root.get? name = (lastValue seed name).map Truth.ofBool := by
    rw [Scopes.new, Table.ofList, Table.get?_insertAll_list, ← List.map_reverse, hlookup]
    exact Option.or_none
  have hget : (Scopes.new seed).get name = ((Scopes.new seed).root.get? name).getD .unknown :=
    get_nil _ name
  rw [hget, hroot]
  cases lastValue seed name <;> rfl

/-- Scopes that stand for copies: one frame for each copy, with what has been set in it. -/
inductive Refines : Scopes → Copies → Prop where
  | root {root : Frame} {known : String → Truth}
      (same : ∀ name, (⟨root, []⟩ : Scopes).get name = known name) : Refines ⟨root, []⟩ ⟨known, []⟩
  | arm {root frame : Frame} {arms : List Frame} {known : String → Truth} {copy : Copy}
      {copies : List Copy} (outer : Refines ⟨root, arms⟩ ⟨known, copies⟩)
      (changes : frame.get? = lastValue copy.changes)
      (same : ∀ name, (⟨root, frame :: arms⟩ : Scopes).get name = copy.known name) :
      Refines ⟨root, frame :: arms⟩ ⟨known, copy :: copies⟩

namespace Refines

variable {s : Scopes} {c : Copies}

theorem get (h : s.Refines c) (name : String) : s.get name = c.known name := by
  cases h with
  | root same => exact same name
  | arm outer changes same => exact same name

theorem set (h : s.Refines c) (name : String) (value : Truth) :
    (s.set name value).Refines (c.request (.set name value)).2 := by
  have hget : ∀ n, (s.set name value).get n = if n = name then value else c.known n := by
    intro n
    rw [get_set, h.get]
  cases h with
  | root same => exact .root hget
  | @arm _ frame _ _ copy _ outer changes same =>
    refine .arm outer ?_ hget
    funext n
    rw [lastValue_concat, Table.get?_insert, changes]

theorem push (h : s.Refines c) : s.push.Refines (c.request .push).2 :=
  .arm h rfl fun name => (s.get_push name).trans (h.get name)

/-- **One request.**  Frames and copies answer alike, and the frames stand for the copies behind it. -/
theorem request (h : s.Refines c) (r : ScopeRequest) :
    (s.request r).1 = (c.request r).1 ∧ (s.request r).2.Refines (c.request r).2 := by
  cases r with
  | get name => exact ⟨congrArg ScopeAnswer.known (h.get name), h⟩
  | set name value =>
    refine ⟨?_, h.set name value⟩
    cases h <;> rfl
  | push => exact ⟨rfl, h.push⟩
  | pop =>
    cases h with
    | root same => exact ⟨rfl, .root same⟩
    | arm outer changes same => exact ⟨congrArg ScopeAnswer.closed changes, outer⟩

/-- Frames that stand for copies answer alike for ever. -/
theorem run (h : s.Refines c) (rs : List ScopeRequest) :
    (ScopeRequest.run Scopes.request s rs).1 = (ScopeRequest.run Copies.request c rs).1 := by
  induction rs generalizing s c with
  | nil => rfl
  | cons r rs ih =>
    obtain ⟨hanswer, hrefines⟩ := h.request r
    rw [ScopeRequest.run_cons, ScopeRequest.run_cons, hanswer, ih hrefines]

end Refines

theorem refines_new (seed : List (String × Bool)) : (Scopes.new seed).Refines (Copies.new seed) :=
  .root (get_new seed)

/-! ## What stays outside of a frame -/

variable (root frame : Frame) {above : List Frame} (outer : List Frame) {after : Nat}

/-- A request that does not close a frame leaves the frames around it alone. -/
theorem exists_request_of_framesBehind? {r : ScopeRequest}
    (h : r.framesBehind? above.length = some after) : ∃ frame' above', above'.length = after ∧
      ((⟨root, above ++ frame :: outer⟩ : Scopes).request r).2 = ⟨root, above' ++ frame' :: outer⟩ := by
  cases r with
  | get name =>
    cases h
    exact ⟨frame, above, rfl, rfl⟩
  | set name value =>
    cases h
    cases above with
    | nil => exact ⟨frame.insert name value, [], rfl, rfl⟩
    | cons top rest => exact ⟨frame, top.insert name value :: rest, rfl, rfl⟩
  | push =>
    cases h
    exact ⟨frame, ∅ :: above, rfl, rfl⟩
  | pop =>
    cases above with
    | nil => cases h
    | cons top rest =>
      cases h
      exact ⟨frame, rest, rfl, rfl⟩

/-- Requests that do not close a frame leave the frames around it alone. -/
theorem exists_run_of_framesAfter? {rs : List ScopeRequest}
    (h : ScopeRequest.framesAfter? above.length rs = some after) :
    ∃ frame' above', above'.length = after ∧
      (ScopeRequest.run request (⟨root, above ++ frame :: outer⟩ : Scopes) rs).2
        = ⟨root, above' ++ frame' :: outer⟩ := by
  induction rs generalizing frame above with
  | nil =>
    cases h
    exact ⟨frame, above, rfl, rfl⟩
  | cons r rs ih =>
    rw [ScopeRequest.framesAfter?, List.foldlM_cons, Option.bind_eq_bind,
      Option.bind_eq_some_iff] at h
    obtain ⟨behind, hbehind, hrest⟩ := h
    obtain ⟨frame', above', rfl, hrequest⟩ := exists_request_of_framesBehind?
      root frame outer hbehind
    rw [ScopeRequest.run_cons, hrequest]
    exact ih frame' hrest

/-- **A frame restores what was known in front of it.**  What happens in a frame until it is closed
again changes nothing outside of it. -/
theorem run_push_pop (s : Scopes) {inner : List ScopeRequest}
    (h : ScopeRequest.framesAfter? 0 inner = some 0) :
    (ScopeRequest.run request s (.push :: (inner ++ [.pop]))).2 = s := by
  obtain ⟨root, arms⟩ := s
  obtain ⟨frame, above, hlength, hinner⟩ := @exists_run_of_framesAfter? root ∅ [] arms 0 inner h
  obtain rfl := List.length_eq_zero_iff.1 hlength
  rw [List.nil_append, List.nil_append] at hinner
  rw [ScopeRequest.run_cons, ScopeRequest.run_append_snd]
  change (request (ScopeRequest.run request ⟨root, ∅ :: arms⟩ inner).2 .pop).2 = _
  rw [hinner]
  rfl

/-! ## Main result -/

/-- **Scopes are full copies.**  Whatever is known at the start and whatever is requested, scopes answer
like copies of all that is known, and a frame that is closed has changed exactly the names set in its
copy, each to its last value.  And whatever happens between the opening of a frame and its end, behind it
every look-up answers what it answered in front of it. -/
theorem answers_new (seed : List (String × Bool)) (rs : List ScopeRequest) :
    (ScopeRequest.run request (Scopes.new seed) rs).1
        = (ScopeRequest.run Copies.request (Copies.new seed) rs).1 ∧
      ∀ inner, ScopeRequest.framesAfter? 0 inner = some 0 → ∀ name,
        (ScopeRequest.run request (Scopes.new seed) (rs ++ .push :: (inner ++ [.pop]))).2.get name
          = (ScopeRequest.run request (Scopes.new seed) rs).2.get name := by
  refine ⟨(refines_new seed).run rs, fun inner hinner name => ?_⟩
  rw [ScopeRequest.run_append_snd, run_push_pop _ hinner]

/-- A name is known, unknown again in an open frame, and known otherwise in a frame within. -/
theorem answers_new_of_shadowed :
    ScopeRequest.framesAfter? 0 [.set "A" .no, .push, .set "A" .yes, .pop] = some 0 ∧
      (ScopeRequest.run request (Scopes.new [("A", true)])
        [.push, .set "A" .unknown, .push, .set "A" .no, .push, .set "A" .yes, .pop, .pop]).2.get "A"
        = .unknown := by
  have hinner : ScopeRequest.framesAfter? 0 [.set "A" .no, .push, .set "A" .yes, .pop] = some 0 := by
    decide
  refine ⟨hinner, ?_⟩
  have hrestored := (answers_new [("A", true)] [.push, .set "A" .unknown]).2 _ hinner "A"
  refine hrestored.trans ?_
  decide +kernel

end Scopes

end ShaderMerge.Condition
