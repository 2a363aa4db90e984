import ShaderMerge.Proofs.Condition.Notes

/-!
# Conditional groups as they are nested

A `Nest` is a text with its groups `#if … #endif` as they stand in each other: lines, and groups of
arms that are texts themselves.  An alternative or an end that belongs to no group is a line of its
own, which only the text outside of all groups has.

Main result: `Nest.exists_lines_eq`.  Lines behind which a filter has no group open are the lines of a
nest.  Which groups are open depends on the directives alone, whatever the filter decides
(`Filter.depth_feed`).
-/

namespace ShaderMerge.Condition

/-! ## Directives -/

/-- What a line does to the groups that are open. -/
inductive Role where
  /-- It opens a group. -/
  | opener
  /-- It begins another arm of the innermost group. -/
  | alternative
  /-- It ends the innermost group. -/
  | closer
  /-- Nothing. -/
  | other
deriving DecidableEq, Repr

namespace Role

/-- The role of a line, by its meaning. -/
def ofControl : Control → Role
  | .openIf _ | .openDefined _ | .openUndefined _ => opener
  | .elseIf _ | .otherwise => alternative
  | .close => closer
  | .define _ | .undefine _ | .plain => other

/-- The role of a line. -/
def ofLine (line : String) : Role := ofControl (Control.ofLine line)

/-- The number of open groups behind a line.  An end without a group ends nothing. -/
def depthBehind : Role → Nat → Nat
  | opener, depth => depth + 1
  | closer, depth => depth - 1
  | alternative, depth | other, depth => depth

end Role

/-- The number of open groups behind some lines. -/
def depthAfter (depth : Nat) (lines : List String) : Nat :=
  lines.foldl (fun depth line => (Role.ofLine line).depthBehind depth) depth

theorem depthAfter_cons {text : String} {role : Role} (h : Role.ofLine text = role) (depth : Nat)
    (texts : List String) :
    depthAfter depth (text :: texts) = depthAfter (role.depthBehind depth) texts := by
  rw [← h]
  rfl

/-! ## Nests -/

/-- The kinds of nests. -/
inductive Shape where
  /-- A text, inside of a group or outside of all groups. -/
  | text (isInside : Bool)
  /-- The arms of a group, from behind the line that opens it to the line that ends it. -/
  | arms

/-- A line that is no directive of a group. -/
def IsText (isInside : Bool) (line : String) : Prop :=
  Role.ofLine line = .other ∨ isInside = false ∧ Role.ofLine line ≠ .opener

/-- Texts and arms, with the groups in them as they are nested. -/
inductive Nest : Shape → Type where
  /-- A text without a line. -/
  | nil {isInside : Bool} : Nest (.text isInside)
  /-- A line that is no directive of a group, and what comes after it. -/
  | line {isInside : Bool} (text : String) (isText : IsText isInside text)
      (rest : Nest (.text isInside)) : Nest (.text isInside)
  /-- A group, and what comes after it. -/
  | group {isInside : Bool} (opener : String) (opens : Role.ofLine opener = .opener)
      (arms : Nest .arms) (rest : Nest (.text isInside)) : Nest (.text isInside)
  /-- An arm, and the arms that come after it. -/
  | next (body : Nest (.text true)) (directive : String)
      (alternates : Role.ofLine directive = .alternative) (rest : Nest .arms) : Nest .arms
  /-- The last arm. -/
  | close (body : Nest (.text true)) (closer : String) (closes : Role.ofLine closer = .closer) :
      Nest .arms

namespace Nest

/-- The lines as they stand in the text. -/
def lines {shape : Shape} : Nest shape → List String
  | nil => []
  | line text _ rest => text :: rest.lines
  | group opener _ arms rest => opener :: (arms.lines ++ rest.lines)
  | next body directive _ rest => body.lines ++ directive :: rest.lines
  | close body closer _ => body.lines ++ [closer]

/-- The arms of a group with another text in front of the first directive. -/
theorem exists_body (arms : Nest .arms) : ∃ (body : Nest (.text true)) (tail : List String),
    arms.lines = body.lines ++ tail ∧
      ∀ body' : Nest (.text true), ∃ arms' : Nest .arms, arms'.lines = body'.lines ++ tail := by
  cases arms with
  | next body directive alternates rest =>
    exact ⟨body, directive :: rest.lines, rfl, fun body' => ⟨next body' directive alternates rest, rfl⟩⟩
  | close body closer closes =>
    exact ⟨body, [closer], rfl, fun body' => ⟨close body' closer closes, rfl⟩⟩

theorem exists_arms_of_line {text : String} (h : Role.ofLine text = .other) (arms : Nest .arms) :
    ∃ arms' : Nest .arms, arms'.lines = text :: arms.lines := by
  obtain ⟨body, tail, hlines, hother⟩ := arms.exists_body
  rw [hlines]
  exact hother (line text (.inl h) body)

theorem exists_arms_of_group {opener : String} (h : Role.ofLine opener = .opener)
    (inner arms : Nest .arms) :
    ∃ arms' : Nest .arms, arms'.lines = opener :: (inner.lines ++ arms.lines) := by
  obtain ⟨body, tail, hlines, hother⟩ := arms.exists_body
  obtain ⟨arms', harms⟩ := hother (group opener h inner body)
  refine ⟨arms', harms.trans ?_⟩
  rw [hlines, lines, List.cons_append, List.append_assoc]

/-! ## Lines behind which no group is open -/

/-- Where a group is open that is ended later, the lines start with the rest of it. -/
theorem exists_arms_append {depth : Nat} {texts : List String} (h : depthAfter (depth + 1) texts = 0) :
    ∃ (arms : Nest .arms) (rest : List String),
      texts = arms.lines ++ rest ∧ depthAfter depth rest = 0 := by
  induction hlength : texts.length using Nat.strongRecOn generalizing texts depth with
  | _ n ih =>
    subst hlength
    cases texts with
    | nil => exact absurd h (Nat.succ_ne_zero depth)
    | cons text texts =>
      have hlt : texts.length < (text :: texts).length := Nat.lt_succ_self _
      cases hrole : Role.ofLine text with
      | opener =>
        rw [depthAfter_cons hrole] at h
        -- The inner group is ended first; what stands behind it ends the outer one.
        obtain ⟨inner, behind, rfl, hbehind⟩ := ih _ hlt h rfl
        have hle : behind.length < (text :: (inner.lines ++ behind)).length := by
          rw [List.length_cons, List.length_append]
          omega
        obtain ⟨arms, rest, rfl, hrest⟩ := ih _ hle hbehind rfl
        obtain ⟨arms', harms⟩ := exists_arms_of_group hrole inner arms
        refine ⟨arms', rest, ?_, hrest⟩
        rw [harms, List.cons_append, List.append_assoc]
      | alternative =>
        rw [depthAfter_cons hrole] at h
        obtain ⟨arms, rest, rfl, hrest⟩ := ih _ hlt h rfl
        exact ⟨next nil text hrole arms, rest, rfl, hrest⟩
      | closer =>
        rw [depthAfter_cons hrole] at h
        exact ⟨close nil text hrole, texts, rfl, h⟩
      | other =>
        rw [depthAfter_cons hrole] at h
        obtain ⟨arms, rest, rfl, hrest⟩ := ih _ hlt h rfl
        obtain ⟨arms', harms⟩ := exists_arms_of_line hrole arms
        exact ⟨arms', rest, by rw [harms, List.cons_append], hrest⟩

theorem exists_lines_eq_of_depthAfter {texts : List String} (h : depthAfter 0 texts = 0) :
    ∃ nest : Nest (.text false), nest.lines = texts := by
  induction hlength : texts.length using Nat.strongRecOn generalizing texts with
  | _ n ih =>
    subst hlength
    cases texts with
    | nil => exact ⟨nil, rfl⟩
    | cons text texts =>
      -- Outside of all groups only the line that opens one is no line of its own.
      by_cases hrole : Role.ofLine text = .opener
      · rw [depthAfter_cons hrole] at h
        obtain ⟨arms, rest, rfl, hrest⟩ := exists_arms_append h
        have hlt : rest.length < (text :: (arms.lines ++ rest)).length := by
          rw [List.length_cons, List.length_append]
          omega
        obtain ⟨nest, rfl⟩ := ih _ hlt hrest rfl
        exact ⟨group text hrole arms nest, rfl⟩
      · have hdepth : (Role.ofLine text).depthBehind 0 = 0 := by
          cases hcase : Role.ofLine text with
          | opener => exact absurd hcase hrole
          | alternative => rfl
          | closer => rfl
          | other => rfl
        rw [depthAfter_cons rfl, hdepth] at h
        obtain ⟨nest, rfl⟩ := ih _ (Nat.lt_succ_self _) h rfl
        exact ⟨line text (.inr ⟨rfl, hrole⟩) nest, rfl⟩

end Nest

/-! ## A filter reads a line by its role -/

namespace Filter

variable {line : String}

/-- A condition is reported before its group opens, in live text only. -/
theorem feed_of_opener (f : Filter) (h : Role.ofLine line = .opener) :
    ∃ (g : Filter) (value : Truth), f.feed line = g.openGroup value line ∧
      (f.isLive = false → g = f) ∧ g.groups = f.groups ∧ g.skippedLines = f.skippedLines := by
  rw [Role.ofLine] at h
  rw [feed]
  cases hcontrol : Control.ofLine line with
  | openIf expression =>
    dsimp only
    split
    · rename_i hlive
      refine ⟨_, _, rfl, fun hdead => ?_, ?_⟩
      · rw [hlive] at hdead
        cases hdead
      · rw [report]
        split <;> exact ⟨rfl, rfl⟩
    · exact ⟨f, _, rfl, fun _ => rfl, rfl, rfl⟩
  | openDefined name => exact ⟨f, _, rfl, fun _ => rfl, rfl, rfl⟩
  | openUndefined name => exact ⟨f, _, rfl, fun _ => rfl, rfl, rfl⟩
  | _ =>
    rw [hcontrol] at h
    cases h

theorem feed_of_alternative (f : Filter) (h : Role.ofLine line = .alternative) :
    ∃ condition, f.feed line = f.nextArm condition := by
  rw [Role.ofLine] at h
  rw [feed]
  cases hcontrol : Control.ofLine line with
  | elseIf expression => exact ⟨some expression, rfl⟩
  | otherwise => exact ⟨none, rfl⟩
  | _ =>
    rw [hcontrol] at h
    cases h

theorem feed_of_closer (f : Filter) (h : Role.ofLine line = .closer) :
    f.feed line = f.closeGroup := by
  rw [Role.ofLine] at h
  rw [feed]
  cases hcontrol : Control.ofLine line with
  | close => rfl
  | _ =>
    rw [hcontrol] at h
    cases h

theorem feed_of_other (f : Filter) (h : Role.ofLine line = .other) :
    f.feed line = f.pass ∨ ∃ name isDefined, f.feed line = f.define name isDefined := by
  rw [Role.ofLine] at h
  rw [feed]
  cases hcontrol : Control.ofLine line with
  | define name => exact .inr ⟨name, true, rfl⟩
  | undefine name => exact .inr ⟨name, false, rfl⟩
  | plain => exact .inl rfl
  | _ =>
    rw [hcontrol] at h
    cases h

/-! ## The groups that a filter has open -/

theorem length_countSkipped (groups : List Group) :
    (countSkipped groups).length = groups.length := by
  induction groups with
  | nil => rfl
  | cons g outer ih =>
    rw [countSkipped]
    split
    · rfl
    · rw [List.length_cons, ih, List.length_cons]

theorem depth_pass (f : Filter) : f.pass.filter.depth = f.depth := by
  rw [pass]
  split
  · rfl
  · exact length_countSkipped f.groups

theorem depth_openGroup (f : Filter) (value : Truth) (line : String) :
    (f.openGroup value line).filter.depth = f.depth + 1 := by
  rw [openGroup]
  split
  · rfl
  · exact congrArg (· + 1) (length_countSkipped f.groups)

theorem depth_nextArm (f : Filter) (condition : Option String) :
    (f.nextArm condition).filter.depth = f.depth := by
  cases hgroups : f.groups with
  | nil => simp only [nextArm, hgroups]
  | cons g gs =>
    cases hin : g.inLive with
    | false =>
      rw [nextArm_of_dead hgroups hin]
      exact length_countSkipped f.groups
    | true =>
      have hdepth : f.depth = gs.length + 1 := by rw [depth, hgroups, List.length_cons]
      rw [nextArm_of_inLive hgroups hin, hdepth]
      dsimp only
      split
      · rfl
      · split <;> rfl

theorem depth_closeGroup (f : Filter) : f.closeGroup.filter.depth = f.depth - 1 := by
  cases hgroups : f.groups with
  | nil => simp only [closeGroup, hgroups, depth, List.length_nil]
  | cons g gs =>
    have hdepth : f.depth - 1 = gs.length := by
      rw [depth, hgroups, List.length_cons, Nat.add_sub_cancel]
    rw [hdepth]
    cases hin : g.inLive with
    | false =>
      rw [closeGroup_of_dead hgroups hin, depth_pass]
      rfl
    | true =>
      rw [closeGroup_of_inLive hgroups hin]
      rfl

theorem depth_define (f : Filter) (name : String) (isDefined : Bool) :
    (f.define name isDefined).filter.depth = f.depth := by
  rw [define]
  split
  · rfl
  · exact f.depth_pass

/-- Whatever a filter decides, a line opens a group or ends one by its role. -/
theorem depth_feed (f : Filter) (line : String) :
    (f.feed line).filter.depth = (Role.ofLine line).depthBehind f.depth := by
  cases hrole : Role.ofLine line with
  | opener =>
    obtain ⟨g, value, hfeed, -, hgroups, -⟩ := f.feed_of_opener hrole
    rw [hfeed, depth_openGroup, depth, hgroups]
    rfl
  | alternative =>
    obtain ⟨condition, hfeed⟩ := f.feed_of_alternative hrole
    rw [hfeed, depth_nextArm]
    rfl
  | closer =>
    rw [f.feed_of_closer hrole, depth_closeGroup]
    rfl
  | other =>
    rcases f.feed_of_other hrole with hfeed | ⟨name, isDefined, hfeed⟩
    · rw [hfeed, depth_pass]
      rfl
    · rw [hfeed, depth_define]
      rfl

theorem depth_after (f : Filter) (lines : List String) :
    (f.after lines).depth = depthAfter f.depth lines := by
  induction lines generalizing f with
  | nil => rfl
  | cons line rest ih =>
    rw [depthAfter_cons rfl, ← depth_feed]
    exact ih (f.feed line).filter

end Filter

/-- Lines behind which no group is open are those of a nest. -/
theorem Nest.exists_lines_eq {f : Filter} {texts : List String} (hstart : f.groups = [])
    (h : (f.after texts).groups = []) : ∃ nest : Nest (.text false), nest.lines = texts := by
  have hdepth := f.depth_after texts
  simp only [Filter.depth, hstart, h, List.length_nil] at hdepth
  exact exists_lines_eq_of_depthAfter hdepth.symm

end ShaderMerge.Condition
