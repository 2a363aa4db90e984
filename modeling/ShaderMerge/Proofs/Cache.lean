import Mathlib.Algebra.GroupWithZero.Nat
import Mathlib.Data.List.Basic
import ShaderMerge.Cache
import ShaderMerge.Proofs.Include.Project
import ShaderMerge.Proofs.Include.Run
import ShaderMerge.Proofs.Table

/-!
# The order of calls does not matter

Main result: `answers_of_run`.  Whatever the schedule of the calls that share a cache, every call gets
the shader that the cache had for its path at the start, or else the one that is read.  The cache ends
with what it had and what was read, just as if the calls had been worked off one after the other.  This
rests on one fact about reading: a shader is put under the path that it was read from
(`Shader.path_read`).  How it is read does not matter.

`Serves` is the invariant.  A path is never put in unless the cache lacked it at the start, and then
always with the same shader; so a second insertion changes nothing.  One of the schedules is to work
the calls off in order, which is what `readAll` does (`exists_run_readAll`); so all schedules come to
what `readAll` comes to (`Serves.eq_readAll`).
-/

namespace ShaderMerge

/-! ## A shader knows its path -/

namespace Shader

theorem path_insertProperties (properties : List Property) (s : Shader) :
    (properties.foldl insertProperty s).path = s.path := by
  induction properties generalizing s with
  | nil => rfl
  | cons p rest ih => exact ih (s.insertProperty p)

theorem path_addSites (sites : List (String × String)) (s : Shader) :
    (sites.foldl (fun shader (name, site) => shader.addSite name site) s).path = s.path := by
  induction sites generalizing s with
  | nil => rfl
  | cons entry rest ih =>
    obtain ⟨name, site⟩ := entry
    refine (ih (s.addSite name site)).trans ?_
    rw [addSite]
    split <;> rfl

theorem path_of_finish {b : Builder} {path : String} {sources : Include.Sources} {repeats : Nat}
    {shader : Shader} (h : b.finish path sources repeats = .ok shader) : shader.path = path := by
  rw [Builder.finish] at h
  -- A program block that is still open ends first.
  split at h
  all_goals
    obtain ⟨last, -, h⟩ := exists_ok_of_bind h
    dsimp only at h
    split at h <;> cases h
    rw [path_addSites, path_insertProperties]

/-- A shader that is read has the path that it is read from, also if it cannot be read. -/
theorem path_read (p : Project) (path : String) : (read p path).path = path := by
  rw [read]
  split
  · rename_i shader hread
    rw [read?] at hread
    obtain ⟨sources, -, hread⟩ := exists_ok_of_bind hread
    obtain ⟨⟨b, w⟩, -, hfinish⟩ := exists_ok_of_bind hread
    exact path_of_finish hfinish
  · rfl

end Shader

namespace ShaderCache

/-- The shader that a call is to get: the one that the cache had at the start, or the one that is
read. -/
def due (parse : String → Shader) (c : ShaderCache) (path : String) : Shader :=
  (c.get? path).getD (parse path)

section

variable {parse : String → Shader} {c now : ShaderCache} {paths : List String} {path : String}
  {w w' : Work} {schedule : List Nat}

/-! ## The invariant -/

/-- What a call for a path may have come to, for a cache at the start and the cache now. -/
inductive IsOnTime (parse : String → Shader) (c now : ShaderCache) : String → Call → Prop where
  | waiting {path : String} : IsOnTime parse c now path (.waiting path)
  | missed {path : String} (absent : c.get? path = none) : IsOnTime parse c now path (.missed path)
  | answered {path : String} (present : now.get? path = some (due parse c path)) :
      IsOnTime parse c now path (.answered (due parse c path))

/-- A cache that has what it had at the start, and of other paths only what is read from them. -/
def Grows (parse : String → Shader) (c : ShaderCache) (paths : List String) (now : ShaderCache) : Prop :=
  ∀ key, now.get? key = c.get? key ∨
    c.get? key = none ∧ key ∈ paths ∧ now.get? key = some (parse key)

/-- Calls for some paths that are on their way to what is due. -/
structure Serves (parse : String → Shader) (c : ShaderCache) (paths : List String) (w : Work) : Prop where
  length : w.calls.length = paths.length
  calls : ∀ {i : Nat} {path : String} {call : Call}, paths[i]? = some path → w.calls[i]? = some call →
    IsOnTime parse c w.cache path call
  cache : Grows parse c paths w.cache

theorem serves_start (parse : String → Shader) (c : ShaderCache) (paths : List String) :
    Serves parse c paths (.start c paths) where
  length := List.length_map _
  calls {i path call} hpath hcall := by
    rw [Work.start, List.getElem?_map, hpath] at hcall
    cases hcall
    exact .waiting
  cache _ := .inl rfl

/-- What a cache has of a path is what is due. -/
theorem Grows.eq_due (h : Grows parse c paths now) {s : Shader} (hget : now.get? path = some s) :
    s = due parse c path := by
  rw [due]
  rcases h path with heq | ⟨hnone, -, hread⟩
  · rw [← heq, hget]
    rfl
  · rw [hnone]
    rw [hread] at hget
    cases hget
    rfl

/-- The cache after a step of a call: it has all that it had, and it stays within what is read. -/
theorem Grows.put (hparse : ∀ path, (parse path).path = path) (h : Grows parse c paths now)
    (hmem : path ∈ paths) (habsent : c.get? path = none) :
    Grows parse c paths (now.put (parse path)) ∧ ∀ {key : String} {s : Shader},
      now.get? key = some s → (now.put (parse path)).get? key = some s := by
  have hget : ∀ key, (now.put (parse path)).get? key
      = if key = path then some (parse path) else now.get? key := by
    intro key
    rw [ShaderCache.put, Table.get?_insert, hparse]
  refine ⟨fun key => ?_, fun {key s} hkey => ?_⟩
  · rw [hget]
    by_cases heq : key = path
    · subst heq
      rw [if_pos rfl]
      exact .inr ⟨habsent, hmem, rfl⟩
    · rw [if_neg heq]
      exact h key
  · rw [hget]
    by_cases heq : key = path
    · -- The path may have been put in since the start, but then with the same shader.
      subst heq
      rw [if_pos rfl, h.eq_due hkey, due, habsent]
      rfl
    · rwa [if_neg heq]

/-- What has been answered stays right while the cache keeps all that it has. -/
theorem IsOnTime.mono {now' : ShaderCache} {call : Call} (h : IsOnTime parse c now path call)
    (hkeeps : ∀ {key : String} {s : Shader}, now.get? key = some s → now'.get? key = some s) :
    IsOnTime parse c now' path call := by
  cases h with
  | waiting => exact .waiting
  | missed absent => exact .missed absent
  | answered present => exact .answered (hkeeps present)

/-- One step of one call. -/
theorem IsOnTime.step (hparse : ∀ path, (parse path).path = path) {call : Call} {done : Call × ShaderCache}
    (h : IsOnTime parse c now path call) (hmem : path ∈ paths) (hgrows : Grows parse c paths now)
    (hstep : call.step parse now = some done) :
    IsOnTime parse c done.2 path done.1 ∧ Grows parse c paths done.2 ∧
      ∀ {key : String} {s : Shader}, now.get? key = some s → done.2.get? key = some s := by
  cases h with
  | waiting =>
    rw [Call.step] at hstep
    split at hstep
    · rename_i s hget
      cases hstep
      obtain rfl := hgrows.eq_due hget
      exact ⟨.answered hget, hgrows, id⟩
    · rename_i hget
      cases hstep
      -- The cache only grows, so that it did not have the path at the start either.
      refine ⟨.missed ?_, hgrows, id⟩
      rcases hgrows path with heq | ⟨habsent, -, -⟩
      · rw [← heq, hget]
      · exact habsent
  | missed absent =>
    cases hstep
    obtain ⟨hput, hkeeps⟩ := hgrows.put hparse hmem absent
    have hdue : due parse c path = parse path := by
      rw [due, absent]
      rfl
    rw [← hdue]
    refine ⟨.answered ?_, hdue ▸ hput, hdue ▸ hkeeps⟩
    rw [ShaderCache.put, Table.get?_insert, hdue, hparse, if_pos rfl]
  | answered present => cases hstep

/-- **One step.**  Whichever call takes it, all of them stay on their way. -/
theorem Serves.step (hparse : ∀ path, (parse path).path = path) (h : Serves parse c paths w) {i : Nat}
    (hstep : w.step parse i = some w') : Serves parse c paths w' := by
  rw [Work.step] at hstep
  split at hstep
  · cases hstep
  rename_i call hcall
  obtain ⟨done, hdone, rfl⟩ := Option.map_eq_some_iff.1 hstep
  have hi : i < paths.length := h.length ▸ (List.getElem?_eq_some_iff.1 hcall).1
  have hpath : paths[i]? = some paths[i] := List.getElem?_eq_getElem hi
  obtain ⟨hontime, hgrows, hkeeps⟩ :=
    (h.calls hpath hcall).step hparse (List.getElem_mem hi) h.cache hdone
  refine ⟨by rw [List.length_set, h.length], fun {j path other} hj hother => ?_, hgrows⟩
  by_cases hij : i = j
  · subst hij
    rw [List.getElem?_set_self (h.length ▸ hi)] at hother
    cases hother
    rw [hpath] at hj
    cases hj
    exact hontime
  · -- Another call has not moved, and the cache still has what that call has got.
    rw [List.getElem?_set_ne hij] at hother
    exact (h.calls hj hother).mono hkeeps

/-- **A schedule.**  Behind any steps of the calls, all of them are on their way. -/
theorem Serves.run (hparse : ∀ path, (parse path).path = path) (h : Serves parse c paths w)
    (hrun : w.run parse schedule = some w') : Serves parse c paths w' := by
  induction schedule generalizing w with
  | nil =>
    cases hrun
    exact h
  | cons i rest ih =>
    rw [Work.run, List.foldlM_cons, Option.bind_eq_bind, Option.bind_eq_some_iff] at hrun
    obtain ⟨next, hnext, hrest⟩ := hrun
    exact ih (h.step hparse hnext) hrest

/-! ## The end of the work -/

/-- The number of steps that a call may still take. -/
def Call.left : Call → Nat
  | waiting _ => 2
  | missed _ => 1
  | answered _ => 0

/-- The number of steps that all calls may still take. -/
def Work.left (w : Work) : Nat := (w.calls.map Call.left).sum

theorem Call.left_step {call : Call} {done : Call × ShaderCache} (h : call.step parse now = some done) :
    done.1.left < call.left := by
  cases call with
  | waiting path =>
    rw [step] at h
    split at h <;> cases h
    · exact Nat.zero_lt_two
    · exact Nat.one_lt_two
  | missed path =>
    cases h
    exact Nat.zero_lt_one
  | answered s => cases h

theorem sum_left_set {calls : List Call} {i : Nat} {call done : Call} (hcall : calls[i]? = some call)
    (hlt : done.left < call.left) :
    ((calls.set i done).map Call.left).sum < (calls.map Call.left).sum := by
  induction calls generalizing i with
  | nil => cases hcall
  | cons first rest ih =>
    cases i with
    | zero =>
      cases hcall
      simp only [List.set_cons_zero, List.map_cons, List.sum_cons]
      omega
    | succ i =>
      simp only [List.set_cons_succ, List.map_cons, List.sum_cons]
      exact Nat.add_lt_add_left (ih hcall) _

theorem Work.left_step {i : Nat} (h : w.step parse i = some w') : w'.left < w.left := by
  rw [step] at h
  split at h
  · cases h
  rename_i call hcall
  obtain ⟨done, hdone, rfl⟩ := Option.map_eq_some_iff.1 h
  exact sum_left_set hcall (Call.left_step hdone)

/-- Every step of a schedule is one that was left. -/
theorem Work.length_add_left_le (h : w.run parse schedule = some w') :
    schedule.length + w'.left ≤ w.left := by
  induction schedule generalizing w with
  | nil =>
    cases h
    exact Nat.le_of_eq (Nat.zero_add _)
  | cons i rest ih =>
    rw [run, List.foldlM_cons, Option.bind_eq_bind, Option.bind_eq_some_iff] at h
    obtain ⟨next, hnext, hrest⟩ := h
    have hlt := left_step hnext
    have hle := ih hrest
    rw [List.length_cons]
    omega

theorem Work.left_start (c : ShaderCache) (paths : List String) :
    (start c paths).left = 2 * paths.length := by
  rw [left, start, List.map_map]
  induction paths with
  | nil => rfl
  | cons path rest ih =>
    rw [List.map_cons, List.sum_cons, ih, List.length_cons]
    change 2 + 2 * rest.length = _
    omega

/-- A call without a next step has got its shader. -/
theorem Call.eq_answered {call : Call} (h : call.step parse now = none) : ∃ s, call = .answered s := by
  cases call with
  | waiting path =>
    rw [step] at h
    split at h <;> cases h
  | missed path => cases h
  | answered s => exact ⟨s, rfl⟩

theorem Work.isDone_of_answered (h : ∀ call ∈ w.calls, ∃ s, call = .answered s) : w.IsDone parse := by
  intro i
  rw [step]
  split
  · rfl
  · rename_i call hcall
    obtain ⟨s, rfl⟩ := h call (List.mem_of_getElem? hcall)
    rfl

/-- Where all calls are done, each has got what was due. -/
theorem Serves.calls_eq (h : Serves parse c paths w) (hdone : w.IsDone parse) :
    w.calls = paths.map fun path => .answered (due parse c path) := by
  refine List.ext_getElem (by rw [h.length, List.length_map]) fun i hcalls hmap => ?_
  have hi : i < paths.length := h.length ▸ hcalls
  have hcall : w.calls[i]? = some w.calls[i] := List.getElem?_eq_getElem hcalls
  have hontime := h.calls (List.getElem?_eq_getElem hi) hcall
  have hstep := hdone i
  rw [Work.step, hcall, Option.map_eq_none_iff] at hstep
  obtain ⟨s, hs⟩ := Call.eq_answered hstep
  rw [List.getElem_map, hs]
  rw [hs] at hontime
  cases hontime
  rfl

/-- Where all calls are done, the cache has what it had and what is read from the paths. -/
theorem Serves.get?_eq (h : Serves parse c paths w) (hdone : w.IsDone parse) (key : String) :
    w.cache.get? key = (c.get? key).or (if key ∈ paths then some (parse key) else none) := by
  by_cases hmem : key ∈ paths
  · obtain ⟨i, hi⟩ := List.mem_iff_getElem?.1 hmem
    have hcall : w.calls[i]? = some (.answered (due parse c key)) := by
      rw [h.calls_eq hdone, List.getElem?_map, hi]
      rfl
    have hget : w.cache.get? key = some (due parse c key) := by
      cases h.calls hi hcall with
      | answered present => exact present
    rw [hget, if_pos hmem, due]
    cases c.get? key <;> rfl
  · rcases h.cache key with heq | ⟨-, habsurd, -⟩
    · rw [heq, if_neg hmem, Option.or_none]
    · exact absurd habsurd hmem

end

/-! ## One call after the other -/

section

variable {p : Project} {c : ShaderCache} {paths : List String}

theorem Work.step_append (parse : String → Shader) (c : ShaderCache) (front : List Call) (call : Call)
    (rest : List Call) :
    step parse ⟨c, front ++ call :: rest⟩ front.length
      = (call.step parse c).map fun done => ⟨done.2, front ++ done.1 :: rest⟩ := by
  simp only [step, List.getElem?_append_right (Nat.le_refl _), Nat.sub_self, List.getElem?_cons_zero,
    List.set_append_right _ _ (Nat.le_refl _), List.set_cons_zero]

/-- A call whose steps follow each other does what `read` does. -/
theorem exists_run_read (p : Project) (c : ShaderCache) (front : List Call) (path : String) (rest : List Call) :
    ∃ schedule, Work.run (Shader.read p) ⟨c, front ++ .waiting path :: rest⟩ schedule
      = some ⟨(read p c path).2, front ++ .answered (read p c path).1 :: rest⟩ := by
  cases hget : c.get? path with
  | some s =>
    refine ⟨[front.length], ?_⟩
    simp only [Work.run, List.foldlM_cons, List.foldlM_nil, Work.step_append, Call.step, read, hget]
    rfl
  | none =>
    refine ⟨[front.length, front.length], ?_⟩
    simp only [Work.run, List.foldlM_cons, List.foldlM_nil, Work.step_append, Call.step, read, hget,
      Option.map_some, Option.bind_eq_bind, Option.bind_some]
    rfl

/-- What `readAll` does is one of the orders in which the calls can be worked off. -/
theorem exists_run_readAll (p : Project) (c : ShaderCache) (front : List Call) (paths : List String) :
    ∃ schedule, Work.run (Shader.read p) ⟨c, front ++ paths.map .waiting⟩ schedule
      = some ⟨(readAll p c paths).2, front ++ (readAll p c paths).1.map .answered⟩ := by
  induction paths generalizing c front with
  | nil => exact ⟨[], rfl⟩
  | cons path rest ih =>
    obtain ⟨first, hfirst⟩ := exists_run_read p c front path (rest.map .waiting)
    obtain ⟨others, hothers⟩ := ih (read p c path).2 (front ++ [.answered (read p c path).1])
    refine ⟨first ++ others, ?_⟩
    rw [List.append_assoc, List.append_assoc] at hothers
    rw [Work.run, List.foldlM_append]
    exact Option.bind_eq_some_iff.2 ⟨_, hfirst, hothers⟩

/-- Work that is done has come to what `readAll` comes to. -/
theorem Serves.eq_readAll {w : Work} (h : Serves (Shader.read p) c paths w)
    (hdone : w.IsDone (Shader.read p)) :
    w.calls = (c.readAll p paths).1.map .answered ∧ w.cache = (c.readAll p paths).2 := by
  obtain ⟨schedule, hrun⟩ := exists_run_readAll p c [] paths
  have hall := (serves_start (Shader.read p) c paths).run (Shader.path_read p) hrun
  have halldone : Work.IsDone (Shader.read p) ⟨(readAll p c paths).2,
      (readAll p c paths).1.map .answered⟩ :=
    Work.isDone_of_answered fun call hcall => by
      obtain ⟨s, -, rfl⟩ := List.mem_map.1 hcall
      exact ⟨s, rfl⟩
  refine ⟨(h.calls_eq hdone).trans (hall.calls_eq halldone).symm, Table.eq_of_get? fun key => ?_⟩
  exact (h.get?_eq hdone key).trans (hall.get?_eq halldone key).symm

end

/-! ## Every schedule -/

/-- **The order of the steps does not matter.**  A schedule of calls that share a cache has at most two
steps for each path.  Behind one that leaves no step, every call has got the shader that the cache had
for its path at the start or, where it had none, the shader that is read.  The cache then has what it
had and, for each other path of a call, the shader that is read.  Both are what the calls come to if
each of them is done before the next one starts. -/
theorem answers_of_run (p : Project) (c : ShaderCache) (paths : List String) {schedule : List Nat}
    {w : Work} (h : (Work.start c paths).run (Shader.read p) schedule = some w) :
    schedule.length ≤ 2 * paths.length ∧
      (w.IsDone (Shader.read p) →
        w.calls = paths.map (fun path => .answered ((c.get? path).getD (Shader.read p path))) ∧
        (∀ key, w.cache.get? key
          = (c.get? key).or (if key ∈ paths then some (Shader.read p key) else none)) ∧
        w.calls = (c.readAll p paths).1.map .answered ∧ w.cache = (c.readAll p paths).2) := by
  have hserves : Serves (Shader.read p) c paths w :=
    (serves_start _ c paths).run (Shader.path_read p) h
  refine ⟨?_, fun hdone => ⟨hserves.calls_eq hdone, hserves.get?_eq hdone, hserves.eq_readAll hdone⟩⟩
  have hle := Work.length_add_left_le h
  rw [Work.left_start] at hle
  omega

/-- A project with one shader that can be read. -/
def oneShader : Project := .ofFiles [("a.shader", ["Shader \"A\" \x7b", "\x7d"])]

/-- Two calls read one shader at the same time, one call reads a shader that is missing, and one call
finds what the cache has. -/
theorem answers_of_run_of_repeated :
    let old : Shader := { Shader.empty with name := "Old", path := "old.shader" }
    let c : ShaderCache := ShaderCache.put ∅ old
    let paths := ["a.shader", "old.shader", "b.shader", "a.shader"]
    let work : Work :=
      { cache := ((c.put (Shader.read oneShader "a.shader")).put (Shader.read oneShader "b.shader")).put
          (Shader.read oneShader "a.shader")
        calls := [.answered (Shader.read oneShader "a.shader"), .answered old,
          .answered (Shader.read oneShader "b.shader"), .answered (Shader.read oneShader "a.shader")] }
    [0, 3, 1, 2, 0, 2, 3].length ≤ 2 * paths.length ∧
      work.calls
        = paths.map (fun path => .answered ((c.get? path).getD (Shader.read oneShader path))) ∧
      (∀ key, work.cache.get? key
        = (c.get? key).or (if key ∈ paths then some (Shader.read oneShader key) else none)) ∧
      work.calls = (c.readAll oneShader paths).1.map .answered ∧
      work.cache = (c.readAll oneShader paths).2 := by
  intro old c paths work
  have hrun : (Work.start c paths).run (Shader.read oneShader) [0, 3, 1, 2, 0, 2, 3] = some work := by
    decide +kernel
  have hdone : work.IsDone (Shader.read oneShader) := by
    refine Work.isDone_of_answered fun call hcall => ?_
    simp only [work, List.mem_cons, List.not_mem_nil, or_false] at hcall
    rcases hcall with rfl | rfl | rfl | rfl <;> exact ⟨_, rfl⟩
  have hall := answers_of_run oneShader c paths hrun
  exact ⟨hall.1, hall.2 hdone⟩

end ShaderCache

end ShaderMerge
