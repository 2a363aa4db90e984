import ShaderMerge.Include.Line
import ShaderMerge.Region.Filter

/-!
# Regions inside a dropped region

A filter that drops a region counts the regions that are open inside it.  `depthAfter?` is that
count over some lines, and `drop_of_depth` says that as long as it is defined the filter drops every
line and writes nothing.  The count behind lines whose regions pair up is the one in front of them
(`depthAfter?_of_nests`).
-/

namespace ShaderMerge.Region

/-- The number of regions open behind a line, if the line does not end more than are open. -/
def depthBehind? (depth : Nat) (line : String) : Option Nat :=
  match Control.ofLine line with
  | .openRegion _ => some (depth + 1)
  | .closeRegion =>
    match depth with
    | 0 => none
    | inner + 1 => some inner
  | .plain => some depth

/-- The number of regions open behind some lines, if no line ends more than are open. -/
def depthAfter? (depth : Nat) (lines : List String) : Option Nat := lines.foldlM depthBehind? depth

/-- Lines whose regions pair up. -/
def Nests (lines : List String) : Prop := depthAfter? 0 lines = some 0

instance (lines : List String) : Decidable (Nests lines) :=
  inferInstanceAs (Decidable (depthAfter? 0 lines = some 0))

variable {depth after : Nat} {line : String} {lines : List String}

theorem depthBehind?_add (h : depthBehind? depth line = some after) (more : Nat) :
    depthBehind? (depth + more) line = some (after + more) := by
  rw [depthBehind?.eq_def] at h ⊢
  split at h
  · cases h
    exact congrArg some (Nat.add_right_comm depth more 1)
  · cases depth with
    | zero => cases h
    | succ depth =>
      cases h
      rw [Nat.add_right_comm]
  · cases h
    rfl

theorem depthAfter?_add (h : depthAfter? depth lines = some after) (more : Nat) :
    depthAfter? (depth + more) lines = some (after + more) := by
  induction lines generalizing depth with
  | nil =>
    cases h
    rfl
  | cons line rest ih =>
    rw [depthAfter?, List.foldlM_cons, Option.bind_eq_bind, Option.bind_eq_some_iff] at h ⊢
    obtain ⟨behind, hline, hrest⟩ := h
    exact ⟨behind + more, depthBehind?_add hline more, ih hrest⟩

/-- Lines whose regions pair up leave open what was open. -/
theorem depthAfter?_of_nests (h : Nests lines) (depth : Nat) :
    depthAfter? depth lines = some depth := by
  have hshift := depthAfter?_add h depth
  rwa [Nat.zero_add] at hshift

theorem control_of_isSharedStart (h : Include.isSharedStart line = true) :
    Control.ofLine line = .plain := by
  simp only [Include.isSharedStart, Bool.or_eq_true, decide_eq_true_eq] at h
  rcases h with rfl | rfl <;> decide

namespace Filter

variable {f : Filter}

/-- A filter knows the same values behind a line. -/
theorem values_feed (f : Filter) (line : String) : (f.feed line).filter.values = f.values := by
  simp only [feed]
  split
  · rw [drop.eq_def]
    split <;> rfl
  · split
    · rfl
    · rfl
    · split <;> rfl

/-- The same filter inside a dropped region, with some regions open in it. -/
def droppingAt (f : Filter) (depth count : Nat) : Filter :=
  { f with dropping := some ⟨depth, count⟩ }

/-- Inside a dropped region a line is dropped, unless it ends the region. -/
theorem drop_of_depth {count : Nat} (h : depthBehind? depth line = some after) :
    (f.droppingAt depth count).feed line = ⟨f.droppingAt after (count + 1), [], .consumed⟩ := by
  rw [depthBehind?.eq_def] at h
  split at h
  · rename_i hcontrol
    cases h
    simp only [feed, droppingAt, hcontrol, drop]
  · rename_i hcontrol
    cases depth with
    | zero => cases h
    | succ depth =>
      cases h
      simp only [feed, droppingAt, hcontrol, drop]
  · rename_i hcontrol
    cases h
    simp only [feed, droppingAt, hcontrol, drop]

/-- A region whose condition fails, or that is opened inside a dropped region, is dropped from its
first line on. -/
theorem feed_of_fails {condition : String} (hline : Control.ofLine line = .openRegion condition)
    (hfails : decide condition f.values = .drop) :
    ∃ depth count, f.feed line = ⟨f.droppingAt depth count, [], .consumed⟩ := by
  cases hdropping : f.dropping with
  | none => exact ⟨0, 0, by simp only [feed, hdropping, hline, hfails, droppingAt]⟩
  | some region =>
    exact ⟨region.nested + 1, region.count + 1, by
      simp only [feed, hdropping, hline, drop, droppingAt]⟩

/-- The line that ends a region in a dropped one is dropped too, or leaves a note. -/
theorem feed_of_close {count : Nat} (hline : Control.ofLine line = .closeRegion) :
    ∃ filter notes, (f.droppingAt depth count).feed line = ⟨filter, notes, .consumed⟩ ∧
      ∀ note ∈ notes, ∃ n, note = dropNote n := by
  cases depth with
  | zero =>
    refine ⟨_, [dropNote count], by simp only [feed, droppingAt, hline, drop]; rfl, ?_⟩
    intro note hnote
    exact ⟨count, List.mem_singleton.1 hnote⟩
  | succ depth =>
    refine ⟨_, [], by simp only [feed, droppingAt, hline, drop]; rfl, ?_⟩
    intro note hnote
    cases hnote

end Filter

end ShaderMerge.Region
