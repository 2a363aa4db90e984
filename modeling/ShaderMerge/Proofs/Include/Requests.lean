import ShaderMerge.Proofs.Include.Markers
import ShaderMerge.Proofs.Include.Next
import ShaderMerge.Proofs.Table

/-!
# Requests to a walk in any order

The client of a walk asks for the next event or to descend into the file that has been announced, in
any order and as often as it likes.  `Walk.requests` makes some requests and keeps the answers.

Main result: whatever is requested, no file is open twice, none is entered twice between two
boundaries of blocks, the entered files are left in the opposite order, and the refusals are counted
(`isDisciplined_requests`).  `Inside` is the invariant of the walk that one request preserves, and
`Passes` is what the next event does to the files that are open.  The order of the files is read off
from the end: the answers from some point on leave the files that are open there, innermost first
(`Leaves`).
-/

namespace ShaderMerge.Include

/-- What the client of a walk may ask for. -/
inductive Request where
  /-- The next event. -/
  | next
  /-- To descend into the file that has been announced. -/
  | descend
deriving DecidableEq, Repr

/-- The answer to a request. -/
inductive Answer where
  /-- The next event; there is none at the end of the walk. -/
  | next (event : Option Event)
  /-- Whether the walk has entered a file, and the file that was announced with its directive. -/
  | descend (announced : Option (String × String)) (entered : Bool)
deriving DecidableEq, Repr

namespace Answer

/-- The file that has been entered, with its directive. -/
def opens? : Answer → Option (String × String)
  | descend announced true => announced
  | _ => none

/-- The file that has been left, with its directive. -/
def leaves? : Answer → Option (String × String)
  | next (some (.endInclude directive target)) => some (target, directive)
  | _ => none

/-- Whether a file has been entered. -/
def enters (target : String) (answer : Answer) : Bool :=
  answer.opens?.any fun file => file.1 = target

/-- Whether a file was announced and has not been entered. -/
def isRefusal : Answer → Bool
  | descend (some _) false => true
  | _ => false

/-- Whether a program block starts, or a block ends. -/
def isBoundary : Answer → Bool
  | next (some (.line _ text)) => isMarker text
  | _ => false

end Answer

/-- Answers in which every file that is entered is left once, the one that was entered last first. -/
inductive IsNested : List Answer → Prop where
  /-- No answers. -/
  | nil : IsNested []
  /-- An answer that neither enters nor leaves a file. -/
  | plain {answer : Answer} {rest : List Answer} (opens : answer.opens? = none)
      (leaves : answer.leaves? = none) (behind : IsNested rest) : IsNested (answer :: rest)
  /-- A file is entered, walked and left. -/
  | file {first last : Answer} {file : String × String} {inner rest : List Answer}
      (opens : first.opens? = some file) (leaves : last.leaves? = some file)
      (inside : IsNested inner) (behind : IsNested rest) : IsNested (first :: inner ++ last :: rest)

namespace Walk

/-- The included files that are open, each with its directive, innermost first. -/
def includes (w : Walk) : List (String × String) :=
  w.stack.filterMap fun frame => frame.directive.map (frame.file, ·)

/-- Make one request.  Behind the end of a walk no frame is left. -/
def request (s : Sources) (w : Walk) : Request → Answer × Walk
  | .next =>
    match w.next s with
    | some (event, w') => (.next (some event), w')
    | none => (.next none, { w with stack := [], pending := none })
  | .descend => (.descend w.pending (w.descend s).1, (w.descend s).2)

/-- Make some requests, one after the other. -/
def requests (s : Sources) (w : Walk) : List Request → List Answer × Walk
  | [] => ([], w)
  | first :: rest =>
    let (answer, w₁) := w.request s first
    let (answers, w') := w₁.requests s rest
    (answer :: answers, w')

/-- What holds of a walk and of the answers so far. -/
structure IsDisciplined (s : Sources) (answers : List Answer) (w : Walk) : Prop where
  /-- No included file is open twice. -/
  distinct : (w.includes.map Prod.fst).Nodup
  /-- The file of the shader is not included. -/
  outside : s.main ∉ w.includes.map Prod.fst
  /-- Between two boundaries of blocks no file is entered twice. -/
  once : ∀ part, part <:+: answers → (∀ answer ∈ part, answer.isBoundary = false) →
    ∀ target, part.countP (Answer.enters target) ≤ 1
  /-- If the walk has ended, every file that was entered has been left, in the opposite order. -/
  nested : .next none ∈ answers → IsNested answers
  /-- The descents that were refused are counted. -/
  repeats : w.repeats = answers.countP Answer.isRefusal

variable {s : Sources} {w w₁ w' : Walk} {event : Event} {outer : List Frame} {frame : Frame}
  {file text : String} {rest lines : List String} {directive : Option String}

/-! ## The files that are open -/

theorem includes_cons (hstack : w.stack = ⟨file, lines, directive⟩ :: outer) :
    w.includes = (directive.map (file, ·)).toList
      ++ outer.filterMap fun frame => frame.directive.map (frame.file, ·) := by
  rw [includes, hstack, List.filterMap_cons]
  cases directive <;> rfl

/-- Shared blocks are not included. -/
theorem filterMap_replay (s : Sources) (shared : List (List String)) (outer : List Frame) :
    (replay s shared ++ outer).filterMap (fun frame => frame.directive.map (frame.file, ·))
      = outer.filterMap fun frame => frame.directive.map (frame.file, ·) := by
  rw [List.filterMap_append, List.append_left_eq_self, List.filterMap_eq_nil_iff]
  intro frame hframe
  obtain ⟨block, -, rfl⟩ := List.mem_map.1 hframe
  rfl

/-- The outermost frame, while there is one, is that of the file of the shader. -/
def IsRooted (s : Sources) (w : Walk) : Prop :=
  ∀ file ∈ (w.stack.map Frame.file).getLast?, file = s.main

/-- What the next event does to the files that are open, and to those that have been asked for. -/
structure Passes (s : Sources) (w : Walk) (event : Event) (w' : Walk) : Prop where
  rooted : IsRooted s w'
  repeats : w'.repeats = w.repeats
  includes : (Answer.next (some event)).leaves?.toList ++ w'.includes = w.includes
  visited : w'.visited = if (Answer.next (some event)).isBoundary then ∅ else w.visited
  announced : ∀ target directive, w'.pending = some (target, directive) →
    s.files.contains target = true ∧ w'.stack ≠ []

theorem IsRooted.of_cons (h : IsRooted s w) (hstack : w.stack = frame :: outer)
    (hsame : w'.stack = ⟨frame.file, rest, directive⟩ :: outer) : IsRooted s w' := by
  intro file hfile
  apply h
  rw [hsame, List.map_cons] at hfile
  rw [hstack, List.map_cons]
  exact hfile

theorem IsRooted.tail (h : IsRooted s w) (hstack : w.stack = frame :: outer)
    (htail : w'.stack = outer) : IsRooted s w' := by
  intro file hfile
  rw [htail] at hfile
  apply h
  rw [hstack, List.map_cons]
  cases outer with
  | nil => cases hfile
  | cons => exact hfile

theorem IsRooted.append (h : IsRooted s w) (frames : List Frame) (hne : w.stack ≠ [])
    (hsame : w'.stack = frames ++ w.stack) : IsRooted s w' := by
  intro file hfile
  have hlast := List.getLast?_eq_some_getLast hne
  apply h
  rwa [hsame, List.getLast?_map, List.getLast?_append, hlast, Option.some_or, ← hlast,
    ← List.getLast?_map] at hfile

/-- A line of a frame is passed. -/
theorem passes_lineEvent (h : IsRooted s w) (hpending : w.pending = none)
    (hstack : w.stack = ⟨file, text :: rest, directive⟩ :: outer) :
    Passes s w (w.lineEvent s ⟨file, rest, directive⟩ text outer).1
      (w.lineEvent s ⟨file, rest, directive⟩ text outer).2 := by
  have hrooted : ∀ w' : Walk, w'.stack = ⟨file, rest, directive⟩ :: outer → IsRooted s w' :=
    fun w' => h.of_cons hstack
  have hincludes : ∀ w' : Walk, w'.stack = ⟨file, rest, directive⟩ :: outer →
      w'.includes = w.includes :=
    fun w' hsame => (includes_cons hsame).trans (includes_cons hstack).symm
  have hnone : ∀ {target directive : String}, ¬ w.pending = some (target, directive) := by
    simp [hpending]
  rw [lineEvent]
  split
  · rename_i hstart
    refine ⟨?_, rfl, ?_, by simp [Answer.isBoundary, isMarker, hstart], fun _ _ hsome =>
      absurd hsome hnone⟩
    · exact (hrooted { w with stack := ⟨file, rest, directive⟩ :: outer } rfl).append
        (replay s w.shared) (List.cons_ne_nil _ _) rfl
    · rw [← hincludes { w with stack := ⟨file, rest, directive⟩ :: outer } rfl]
      exact filterMap_replay s w.shared _
  · rename_i hstart
    split
    · rename_i hend
      exact ⟨hrooted _ rfl, rfl, hincludes _ rfl, by simp [Answer.isBoundary, isMarker, hend],
        fun _ _ hsome => absurd hsome hnone⟩
    · rename_i hend
      split
      · exact ⟨hrooted _ rfl, rfl, hincludes _ rfl,
          by simp [Answer.isBoundary, isMarker, hstart, hend], fun _ _ hsome => absurd hsome hnone⟩
      · split
        · rename_i hcontains
          refine ⟨hrooted _ rfl, rfl, hincludes _ rfl, rfl, ?_⟩
          intro target directive hsome
          cases hsome
          exact ⟨hcontains, List.cons_ne_nil _ _⟩
        · exact ⟨hrooted _ rfl, rfl, hincludes _ rfl, rfl, fun _ _ hsome => absurd hsome hnone⟩

/-- An event is passed, and no file is open at the end. -/
theorem passes_next (h : IsRooted s w) :
    match w.next s with
    | some (event, w') => Passes s w event w'
    | none => w.includes = [] := by
  have hadvance : ∀ w : Walk, IsRooted s w → w.pending = none →
      match w.advance s with
      | some (event, w') => Passes s w event w'
      | none => w.includes = [] := by
    intro w h hpending
    fun_induction advance s w with
    | case1 w hstack =>
      dsimp only
      rw [includes, hstack]
      rfl
    | case2 w file directive outer hstack =>
      refine ⟨h.tail hstack rfl, rfl, (includes_cons hstack).symm, rfl, ?_⟩
      intro target directive hsome
      rw [hpending] at hsome
      cases hsome
    | case3 w file outer hstack ih =>
      have hsame : w.includes = ({ w with stack := outer } : Walk).includes := includes_cons hstack
      have hbehind := ih (h.tail hstack rfl) hpending
      split at hbehind
      · exact ⟨hbehind.rooted, hbehind.repeats, hbehind.includes.trans hsame.symm, hbehind.visited,
          hbehind.announced⟩
      · exact hsame.trans hbehind
    | case4 w file text rest directive outer hstack hshared ih =>
      have hsame := (includes_cons hstack).trans (includes_cons (w := { w with
        shared := w.shared ++ [rest.takeWhile (!isBlockEnd ·)]
        stack := ⟨file, (rest.dropWhile (!isBlockEnd ·)).drop 1, directive⟩ :: outer }) rfl).symm
      have hbehind := ih (h.of_cons hstack rfl) hpending
      split at hbehind
      · exact ⟨hbehind.rooted, hbehind.repeats, hbehind.includes.trans hsame.symm, hbehind.visited,
          hbehind.announced⟩
      · exact hsame.trans hbehind
    | case5 w file text rest directive outer hstack hshared =>
      exact passes_lineEvent h hpending hstack
  have hpasses := hadvance { w with pending := none } h rfl
  rw [next]
  split at hpasses
  · exact ⟨hpasses.rooted, hpasses.repeats, hpasses.includes, hpasses.visited, hpasses.announced⟩
  · exact hpasses

/-! ## Requests -/

/-- What every request preserves. -/
structure Inside (s : Sources) (w : Walk) : Prop where
  distinct : (w.includes.map Prod.fst).Nodup
  outside : s.main ∉ w.includes.map Prod.fst
  rooted : IsRooted s w
  announced : ∀ target directive, w.pending = some (target, directive) →
    s.files.contains target = true ∧ w.stack ≠ []

/-- What a request does to the files that are open, to those that have been asked for, and to the
number of refusals. -/
structure Answers (w : Walk) (answer : Answer) (w' : Walk) : Prop where
  includes : answer.leaves?.toList ++ w'.includes = answer.opens?.toList ++ w.includes
  fresh : ∀ file, answer.opens? = some file → w.visited.contains file.1 = false ∧
    w'.visited.contains file.1 = true
  visited : answer.isBoundary = false → ∀ file, w.visited.contains file = true →
    w'.visited.contains file = true
  repeats : w'.repeats = w.repeats + answer.isRefusal.toNat

/-- Where the files that are open stay the same, what no longer waits need not be among the
sources. -/
theorem Inside.idle (h : Inside s w) (hstack : w'.stack = w.stack) (hpending : w'.pending = none) :
    Inside s w' := by
  have hincludes : w'.includes = w.includes := by rw [includes, includes, hstack]
  refine ⟨hincludes ▸ h.distinct, hincludes ▸ h.outside, ?_, fun target directive hwaits => ?_⟩
  · rw [IsRooted, hstack]
    exact h.rooted
  · rw [hpending] at hwaits
    cases hwaits

theorem inside_descend (h : Inside s w) : Inside s (w.descend s).2 ∧
    Answers w (.descend w.pending (w.descend s).1) (w.descend s).2 := by
  rw [descend]
  split
  · rename_i hpending
    rw [hpending]
    exact ⟨h, rfl, (fun _ hopens => by cases hopens), fun _ _ hfile => hfile, rfl⟩
  · rename_i target directive hpending
    obtain ⟨hcontains, hne⟩ := h.announced target directive hpending
    have hmono : ∀ file, w.visited.contains file = true →
        (w.visited.add target).contains file = true := by
      intro file hfile
      rw [NameSet.add, Table.contains_insert, hfile, Bool.or_true]
    dsimp only
    rw [hpending]
    split
    · exact ⟨h.idle rfl rfl, rfl, (fun _ hopens => by cases hopens), fun _ => hmono, rfl⟩
    · rename_i hfresh
      rw [Bool.or_eq_true, not_or, Bool.not_eq_true, Bool.not_eq_true] at hfresh
      obtain ⟨hvisited, hclosed⟩ := hfresh
      have hclosed : ∀ frame ∈ w.stack, frame.file ≠ target := by simpa using hclosed
      split
      · -- An announced file is one of the sources.
        rename_i hnone
        rw [Table.contains, hnone] at hcontains
        cases hcontains
      · rename_i lines _
        refine ⟨⟨?_, ?_, ?_, (fun _ _ hwaits => by cases hwaits)⟩, rfl, ?_, fun _ => hmono, rfl⟩
        · refine List.nodup_cons.2 ⟨fun hmem => ?_, h.distinct⟩
          obtain ⟨⟨file, text⟩, hfile, rfl⟩ := List.mem_map.1 hmem
          obtain ⟨frame, hframe, hsome⟩ := List.mem_filterMap.1 hfile
          obtain ⟨_, -, heq⟩ := Option.map_eq_some_iff.1 hsome
          exact hclosed frame hframe (congrArg Prod.fst heq)
        · -- The outermost frame is open, and it is that of the file of the shader.
          refine fun hmem => (List.mem_cons.1 hmem).elim (fun hmain => ?_) h.outside
          have hroot : (w.stack.getLast hne).file = s.main := h.rooted _ (by
            rw [List.getLast?_map, List.getLast?_eq_some_getLast hne]
            rfl)
          exact hclosed _ (List.getLast_mem hne) (hroot.trans hmain)
        · exact h.rooted.append [⟨target, lines, some directive⟩] hne rfl
        · rintro file hfile
          cases hfile
          exact ⟨hvisited, by
            rw [NameSet.add, Table.contains_insert, decide_eq_true rfl, Bool.true_or]⟩

/-- **One request.** -/
theorem inside_request (h : Inside s w) (r : Request) :
    Inside s (w.request s r).2 ∧ Answers w (w.request s r).1 (w.request s r).2 := by
  cases r with
  | descend => exact inside_descend h
  | next =>
    have hpasses := passes_next h.rooted
    rw [request]
    split
    · rename_i event w' hnext
      rw [hnext] at hpasses
      have hsuffix : w'.includes <:+ w.includes := ⟨_, hpasses.includes⟩
      refine ⟨⟨?_, ?_, hpasses.rooted, hpasses.announced⟩, ?_, (fun _ hopens => by cases hopens), ?_,
        hpasses.repeats⟩
      · exact h.distinct.sublist (hsuffix.sublist.map _)
      · exact fun hmem => h.outside ((hsuffix.map _).subset hmem)
      · exact hpasses.includes
      · intro hinner file hfile
        rw [hpasses.visited, hinner]
        exact hfile
    · rename_i hnext
      rw [hnext] at hpasses
      refine ⟨⟨List.nodup_nil, List.not_mem_nil, (fun _ hfile => by cases hfile),
        (fun _ _ hwaits => by cases hwaits)⟩, hpasses.symm, (fun _ hopens => by cases hopens),
        fun _ _ hfile => hfile, rfl⟩

theorem inside_start (s : Sources) : Inside s (start s) :=
  ⟨List.nodup_nil, List.not_mem_nil, fun _ hfile => (Option.some.inj hfile).symm,
    (fun _ _ hwaits => by cases hwaits)⟩

theorem requests_cons (s : Sources) (w : Walk) (r : Request) (rs : List Request) :
    w.requests s (r :: rs) = ((w.request s r).1 :: ((w.request s r).2.requests s rs).1,
      ((w.request s r).2.requests s rs).2) := rfl

/-! ## Runs of requests -/

theorem inside_requests (h : Inside s w) (rs : List Request) :
    Inside s (w.requests s rs).2 ∧
      (w.requests s rs).2.repeats
        = w.repeats + (w.requests s rs).1.countP Answer.isRefusal := by
  induction rs generalizing w with
  | nil => exact ⟨h, rfl⟩
  | cons r rs ih =>
    obtain ⟨hinside, hanswers⟩ := inside_request h r
    obtain ⟨hinside', hrepeats⟩ := ih hinside
    rw [requests_cons]
    refine ⟨hinside', ?_⟩
    rw [hrepeats, hanswers.repeats, List.countP_cons]
    cases hrefusal : (w.request s r).1.isRefusal with
    | false => rw [Bool.toNat_false, if_neg Bool.false_ne_true]; omega
    | true => rw [Bool.toNat_true, if_pos rfl]; omega

/-- The answers up to some point are those to the requests up to some point. -/
theorem exists_of_append {first second : List Answer} {rs : List Request}
    (h : (w.requests s rs).1 = first ++ second) :
    ∃ front back, rs = front ++ back ∧ (w.requests s front).1 = first ∧
      ((w.requests s front).2.requests s back).1 = second := by
  induction first generalizing w rs with
  | nil => exact ⟨[], rs, rfl, rfl, h⟩
  | cons answer first ih =>
    cases rs with
    | nil => cases h
    | cons r rs =>
      rw [requests_cons, List.cons_append, List.cons.injEq] at h
      obtain ⟨front, back, rfl, hfront, hback⟩ := ih h.2
      exact ⟨r :: front, back, rfl, by rw [requests_cons, hfront, h.1], hback⟩

/-- Up to the next boundary, a file is entered at most once, and not at all if it has been asked
for. -/
theorem countP_enters_le (h : Inside s w) {rs : List Request}
    (hinner : ∀ answer ∈ (w.requests s rs).1, answer.isBoundary = false) (target : String) :
    (w.requests s rs).1.countP (Answer.enters target)
      ≤ if w.visited.contains target then 0 else 1 := by
  induction rs generalizing w with
  | nil => exact Nat.zero_le _
  | cons r rs ih =>
    obtain ⟨hinside, hanswers⟩ := inside_request h r
    rw [requests_cons, List.forall_mem_cons] at hinner
    have hrest := ih hinside hinner.2
    have hmono := hanswers.visited hinner.1 target
    rw [requests_cons, List.countP_cons]
    cases henters : (w.request s r).1.enters target with
    | true =>
      obtain ⟨file, hopens, hfile⟩ := (Option.any_eq_true _ _).1 henters
      obtain ⟨hbefore, hbehind⟩ := hanswers.fresh file hopens
      rw [of_decide_eq_true hfile] at hbefore hbehind
      rw [hbehind, if_pos rfl] at hrest
      simpa [hbefore] using hrest
    | false =>
      refine Nat.le_trans hrest ?_
      split
      · exact Nat.zero_le _
      · rename_i hbehind
        have hbefore : ¬w.visited.contains target = true := fun hbefore => hbehind (hmono hbefore)
        simp [hbefore]

/-! ## The order of the files -/

/-- Answers that leave some open files, innermost first, and each file that they enter. -/
def Leaves : List (String × String) → List Answer → Prop
  | [], answers => IsNested answers
  | file :: outer, answers => ∃ inner last rest, answers = inner ++ last :: rest ∧
      IsNested inner ∧ last.leaves? = some file ∧ Leaves outer rest

/-- Nested answers may stand in front of those that leave the open files. -/
theorem Leaves.cons {files : List (String × String)} {answer : Answer} {answers : List Answer}
    (h : Leaves files answers)
    (hcons : ∀ inner, IsNested inner → IsNested (answer :: inner)) :
    Leaves files (answer :: answers) := by
  cases files with
  | nil => exact hcons _ h
  | cons file outer =>
    obtain ⟨inner, last, rest, rfl, hinner, hlast, hrest⟩ := h
    exact ⟨answer :: inner, last, rest, rfl, hcons _ hinner, hlast, hrest⟩

/-- A file that is entered is left by the answers behind it. -/
theorem Leaves.enter {files : List (String × String)} {file : String × String} {answer : Answer}
    {answers : List Answer} (hopens : answer.opens? = some file)
    (h : Leaves (file :: files) answers) : Leaves files (answer :: answers) := by
  obtain ⟨inner, last, rest, rfl, hinner, hlast, hrest⟩ := h
  cases files with
  | nil => exact .file hopens hlast hinner hrest
  | cons outer files =>
    obtain ⟨inner', last', rest', rfl, hinner', hlast', hrest'⟩ := hrest
    refine ⟨answer :: inner ++ last :: inner', last', rest', by simp, ?_, hlast', hrest'⟩
    exact .file hopens hlast hinner hinner'

/-- The answer of a request in front of others. -/
theorem Leaves.of_answers {answer : Answer} {answers : List Answer} (hanswers : Answers w answer w')
    (h : Leaves w'.includes answers) : Leaves w.includes (answer :: answers) := by
  have hincludes := hanswers.includes
  cases hopens : answer.opens? with
  | some file =>
    have hleaves : answer.leaves? = none := by
      cases answer with
      | next event => cases hopens
      | descend announced entered => rfl
    rw [hopens, hleaves] at hincludes
    refine .enter hopens ?_
    rw [show w'.includes = file :: w.includes from hincludes] at h
    exact h
  | none =>
    rw [hopens] at hincludes
    cases hleaves : answer.leaves? with
    | some file =>
      rw [hleaves] at hincludes
      rw [← show file :: w'.includes = w.includes from hincludes]
      exact ⟨[], answer, answers, rfl, .nil, hleaves, h⟩
    | none =>
      rw [hleaves] at hincludes
      rw [show w'.includes = w.includes from hincludes] at h
      exact h.cons fun inner => .plain hopens hleaves

/-- Behind the end of a walk nothing is left to enter. -/
theorem includes_of_ended {rs : List Request} (hstack : w.stack = []) (hpending : w.pending = none) :
    (w.requests s rs).2.includes = [] := by
  induction rs generalizing w with
  | nil =>
    rw [requests, includes, hstack]
    rfl
  | cons r rs ih =>
    rw [requests_cons]
    cases r with
    | next =>
      rw [request, next_of_nil hstack]
      exact ih rfl rfl
    | descend =>
      have hidle : w.descend s = (false, w) := by rw [descend, hpending]
      rw [request, hidle]
      exact ih hstack hpending

theorem includes_of_mem {rs : List Request} (h : .next none ∈ (w.requests s rs).1) :
    (w.requests s rs).2.includes = [] := by
  induction rs generalizing w with
  | nil => cases h
  | cons r rs ih =>
    rw [requests_cons] at h ⊢
    rcases List.mem_cons.1 h with hfirst | hrest
    · cases r with
      | descend => cases hfirst
      | next =>
        rw [request] at hfirst ⊢
        split at hfirst
        · cases hfirst
        · exact includes_of_ended rfl rfl
    · exact ih hrest

theorem leaves_requests (h : Inside s w) {rs : List Request}
    (hend : (w.requests s rs).2.includes = []) : Leaves w.includes (w.requests s rs).1 := by
  induction rs generalizing w with
  | nil =>
    rw [show w.includes = [] from hend]
    exact IsNested.nil
  | cons r rs ih =>
    obtain ⟨hinside, hanswers⟩ := inside_request h r
    rw [requests_cons] at hend ⊢
    exact (ih hinside hend).of_answers hanswers

/-! ## Main result -/

/-- **Whatever is requested of a walk.**  No included file is open twice nor is it that of the
shader; between two boundaries of blocks a file is entered at most once; in a walk that has ended
the files have been left in the opposite order; and all refusals are counted. -/
theorem isDisciplined_requests (s : Sources) (rs : List Request) :
    IsDisciplined s ((start s).requests s rs).1 ((start s).requests s rs).2 := by
  obtain ⟨hinside, hrepeats⟩ := inside_requests (inside_start s) rs
  refine ⟨hinside.distinct, hinside.outside, ?_, ?_, ?_⟩
  · rintro part ⟨first, last, hanswers⟩ hinner target
    rw [List.append_assoc] at hanswers
    obtain ⟨front, back, -, -, hback⟩ := exists_of_append hanswers.symm
    obtain ⟨middle, -, -, hpart, -⟩ := exists_of_append hback
    have hfront := (inside_requests (inside_start s) front).1
    rw [← hpart] at hinner ⊢
    refine Nat.le_trans (countP_enters_le hfront hinner target) ?_
    split <;> omega
  · exact fun hend => leaves_requests (inside_start s) (includes_of_mem hend)
  · rw [hrepeats]
    exact Nat.zero_add _

end Walk

end ShaderMerge.Include
