import ShaderMerge.Proofs.Condition.Kept
import ShaderMerge.Proofs.Condition.Knowledge

/-!
# The kept lines mean what all lines mean

Main result: for every choice of symbols that agrees with what a filter knows at its start, a
classical preprocessor hands on the same live lines, and ends with the same symbols, whether it
reads the lines that the filter keeps or all lines; and wherever it is in live text, what the filter
knows of a name is right (`Filter.kept_preserves`).

`Simulates` is the invariant that one line preserves (`Simulates.feed`): the filter's groups follow
the levels of the two preprocessors (`Follows`), and its scopes are right about their symbols
(`Knows`).
-/

namespace ShaderMerge.Condition

namespace Filter

theorem pass_of_live {f : Filter} (h : f.isLive = true) : f.pass = ⟨f, [], .live⟩ := if_pos h

theorem pass_of_dead {f : Filter} (h : f.isLive = false) :
    f.pass = ⟨{ f with groups := countSkipped f.groups }, [], .consumed⟩ := by
  rw [pass, if_neg (by simp [h])]

/-- The next arm of a group in live text: a dead one behind a taken arm, and else what its
condition is worth; the last arm has no condition and holds. -/
theorem nextArm_of_inLive {f : Filter} {g : Group} {gs : List Group} (hgroups : f.groups = g :: gs)
    (hin : g.inLive = true) (condition : Option String) :
    f.nextArm condition =
      let ended := g.endArm f.scopes.pop.1
      let f' := { f with
        scopes := f.scopes.pop.2.push
        groups := ended.1 :: gs
        skippedLines := f.skippedLines + ended.2.2 }
      if g.anyTaken then
        ⟨{ f' with groups := { ended.1 with arm := .dead } :: gs }, ended.2.1, .consumed⟩
      else
        match (condition.map f'.evaluate).getD .yes with
        | .no => ⟨{ f' with groups := { ended.1 with arm := .dead } :: gs }, ended.2.1, .consumed⟩
        | .yes =>
          ⟨{ f' with groups := { ended.1 with arm := .taken, anyTaken := true } :: gs },
            ended.2.1 ++ (if g.written then ["#else"] else []), .consumed⟩
        | .unknown =>
          ⟨{ f'.report (condition.getD "") .unknown with
              groups := { ended.1 with arm := .uncertain, written := true } :: gs },
            ended.2.1 ++ [(if g.written then "#elif " else "#if ") ++ Text.trim (condition.getD "")],
            .consumed⟩ := by
  have hlike := g.like_endArm f.scopes.pop.1
  rw [Filter.nextArm, hgroups]
  simp only [hin, Bool.not_true, Bool.false_eq_true, if_false, hlike.anyTaken, hlike.written]
  cases hany : g.anyTaken with
  | true => rfl
  | false =>
    cases condition with
    | none => rfl
    | some expression => rfl

theorem closeGroup_of_inLive {f : Filter} {g : Group} {gs : List Group}
    (hgroups : f.groups = g :: gs) (hin : g.inLive = true) :
    f.closeGroup =
      let ended := g.endArm f.scopes.pop.1
      ⟨{ f with
          scopes := f.scopes.pop.2.setAll ended.1.settled
          groups := gs
          skippedLines := f.skippedLines + ended.2.2 },
        ended.2.1 ++ (if g.written then ["#endif"] else []), .consumed⟩ := by
  have hlike := g.like_endArm f.scopes.pop.1
  rw [Filter.closeGroup, hgroups]
  simp only [hin, Bool.not_true, Bool.false_eq_true, if_false]
  rw [← hlike.written]
  rfl

/-- An arm of a group in dead text is a line like any other. -/
theorem nextArm_of_dead {f : Filter} {g : Group} {gs : List Group} (hgroups : f.groups = g :: gs)
    (hin : g.inLive = false) (condition : Option String) :
    f.nextArm condition = ⟨{ f with groups := countSkipped f.groups }, [], .consumed⟩ := by
  have hdead : f.isLive = false := by rw [isLive, hgroups]; simp [hin]
  rw [← pass_of_dead hdead, nextArm, hgroups]
  simp only [hin, Bool.not_false, if_true]

theorem closeGroup_of_dead {f : Filter} {g : Group} {gs : List Group}
    (hgroups : f.groups = g :: gs) (hin : g.inLive = false) :
    f.closeGroup = ({ f with groups := gs } : Filter).pass := by
  rw [closeGroup, hgroups]
  simp only [hin, Bool.not_false, if_true]

end Filter

/-- A filter, a preprocessor on the lines that it has kept, and one on all lines. -/
structure Simulates (f : Filter) (kept all : Preprocessor) : Prop where
  follows : Follows f.groups kept.levels all.levels
  knows : Knows all.symbols (fun _ => False) f.groups f.scopes all.levels
  symbols : kept.symbols = all.symbols
  output : kept.output = all.output

namespace Simulates

variable {oracle : Oracle} {f f' : Filter} {c d : Preprocessor}

theorem congr (h : Simulates f c d) (hgroups : f'.groups = f.groups)
    (hscopes : f'.scopes = f.scopes) : Simulates f' c d where
  follows := hgroups ▸ h.follows
  knows := hgroups ▸ hscopes ▸ h.knows
  symbols := h.symbols
  output := h.output

theorem isLive_eq (h : Simulates f c d) (hlive : f.isLive = true) : c.isLive = d.isLive :=
  h.follows.liveIn_eq (f.isLive_eq ▸ hlive)

theorem not_live (h : Simulates f c d) (hdead : f.isLive = false) : d.isLive = false :=
  h.follows.not_live (f.isLive_eq ▸ hdead)

/-- In live text the filter is right. -/
theorem right (h : Simulates f c d) (hlive : d.isLive = true) :
    d.symbols.Extends f.defined := by
  have hfilter : f.isLive = true := by
    cases hcase : f.isLive with
    | true => rfl
    | false =>
      rw [h.not_live hcase] at hlive
      cases hlive
  intro name value hget
  exact h.knows.right (f.isLive_eq ▸ hfilter) hlive name value not_false hget

/-! ## Lines in live and in dead text -/

/-- A line in live text is handed on from both texts or from none. -/
theorem emit_of_live (h : Simulates f c d) (hlive : f.isLive = true) (line : String) :
    Simulates f (c.pass line) (d.pass line) := by
  rw [Preprocessor.pass, Preprocessor.pass, h.isLive_eq hlive]
  split
  · refine ⟨h.follows, h.knows, h.symbols, ?_⟩
    rw [Preprocessor.emit, Preprocessor.emit, h.output]
  · exact h

/-- A line in dead text is counted. -/
theorem drop (h : Simulates f c d) :
    Simulates { f with groups := Filter.countSkipped f.groups } c d :=
  ⟨h.follows.countSkipped, h.knows.countSkipped, h.symbols, h.output⟩

/-- A line that is no directive. -/
theorem pass (h : Simulates f c d) {line : String}
    (hline : ∀ p : Preprocessor, p.step oracle line = p.pass line) :
    Simulates f.pass.filter (c.run oracle (f.pass.kept line)) (d.pass line) := by
  cases hlive : f.isLive with
  | true =>
    rw [Filter.pass_of_live hlive]
    show Simulates f (c.step oracle line) (d.pass line)
    rw [hline]
    exact h.emit_of_live hlive line
  | false =>
    have hd : d.pass line = d := by
      rw [Preprocessor.pass, if_neg (by simp [h.not_live hlive])]
    rw [Filter.pass_of_dead hlive, hd]
    exact h.drop

/-- A definition. -/
theorem define (h : Simulates f c d) {line name : String} {isDefined : Bool}
    (hline : ∀ p : Preprocessor, p.step oracle line = p.define line name isDefined) :
    Simulates (f.define name isDefined).filter
      (c.run oracle ((f.define name isDefined).kept line)) (d.define line name isDefined) := by
  cases hlive : f.isLive with
  | true =>
    have hgroups : Group.liveIn f.groups = true := f.isLive_eq ▸ hlive
    have hdefine : f.define name isDefined
        = ⟨{ f with scopes := f.scopes.set name (Truth.ofBool isDefined) }, [], .live⟩ := by
      rw [Filter.define, if_pos hlive]
    have hknows := h.knows.set hgroups (h.follows.arm_ne_dead hgroups) h.follows.eq_live name
      isDefined
    rw [hdefine]
    show Simulates _ (c.step oracle line) (d.define line name isDefined)
    rw [hline, Preprocessor.define, Preprocessor.define, h.isLive_eq hlive]
    cases hd : d.isLive with
    | true =>
      rw [show Level.liveIn d.levels = true from hd, if_pos rfl] at hknows
      refine ⟨h.follows, hknows, ?_, ?_⟩
      · exact congrArg (·.set name isDefined) h.symbols
      · exact congrArg (· ++ [line]) h.output
    | false =>
      rw [show Level.liveIn d.levels = false from hd, if_neg Bool.false_ne_true] at hknows
      exact ⟨h.follows, hknows, h.symbols, h.output⟩
  | false =>
    have hdefine : f.define name isDefined
        = ⟨{ f with groups := Filter.countSkipped f.groups }, [], .consumed⟩ := by
      rw [Filter.define, if_neg (by simp [hlive]), Filter.pass_of_dead hlive]
    have hd : d.define line name isDefined = d := by
      rw [Preprocessor.define, if_neg (by simp [h.not_live hlive])]
    rw [hdefine, hd]
    exact h.drop

/-! ## Groups -/

/-- A group opens.  A value that the filter knows is the value in live text. -/
theorem openGroup (h : Simulates f c d) {line : String} {truth : Truth} {value : Bool}
    (hline : c.step oracle line = c.openGroup value) (hnote : Group.isSkipNote line = false)
    (hvalue : ∀ known, truth = Truth.ofBool known → d.isLive = true → value = known) :
    Simulates (f.openGroup truth line).filter (c.run oracle ((f.openGroup truth line).kept line))
      (d.openGroup value) := by
  cases hlive : f.isLive with
  | true =>
    have hgroups : Group.liveIn f.groups = true := f.isLive_eq ▸ hlive
    have hopen : f.openGroup truth line
        = ⟨{ f with scopes := f.scopes.push, groups := .opened truth :: f.groups },
            if truth.isKnown then [] else [line], .consumed⟩ := by
      rw [Filter.openGroup, if_pos hlive]
    have hnested : Level.opened (Level.liveIn d.levels) value ≠ .done →
        Level.liveIn d.levels = true := by
      cases Level.liveIn d.levels with
      | true => exact fun _ => rfl
      | false => exact fun hne => absurd rfl hne
    have hknows := h.knows.openGroup hgroups hnested truth
    rw [hopen]
    cases truth with
    | unknown =>
      have hkept : Group.withoutNotes [line] = [line] := by simp [Group.withoutNotes, hnote]
      show Simulates _ (c.run oracle (Group.withoutNotes [line] ++ [])) (d.openGroup value)
      rw [hkept, List.append_nil, Preprocessor.run_cons, Preprocessor.run_nil, hline]
      exact ⟨h.follows.open_unknown hgroups value, hknows, h.symbols, h.output⟩
    | yes => exact ⟨h.follows.open_known hgroups (hvalue true rfl), hknows, h.symbols, h.output⟩
    | no => exact ⟨h.follows.open_known hgroups (hvalue false rfl), hknows, h.symbols, h.output⟩
  | false =>
    have hgroups : Group.liveIn f.groups = false := f.isLive_eq ▸ hlive
    have hopen : f.openGroup truth line
        = ⟨{ f with groups := .inDeadText :: Filter.countSkipped f.groups }, [], .consumed⟩ := by
      rw [Filter.openGroup, if_neg (by simp [hlive])]
    rw [hopen]
    exact ⟨h.follows.open_dead hgroups value, .dead rfl h.knows.countSkipped, h.symbols, h.output⟩

/-- Another arm begins, as the filter and the two preprocessors see it. -/
theorem arm (h : Simulates f c d) {g : Group} {gs : List Group} {a : Level}
    {kept all : List Level} (hgroups : f.groups = g :: gs) (hlevels : d.levels = a :: all)
    (hin : g.inLive = true) (arm : Arm) (anyTaken written : Bool) {value : Bool}
    (harm : arm ≠ .dead → g.anyTaken = false) (hany : g.anyTaken = true → anyTaken = true)
    (hwritten : written = false → g.written = false)
    (hfollows : Follows ({ g with arm := arm, anyTaken := anyTaken, written := written } :: gs) kept
      (a.next value :: all))
    (hgroups' : f'.groups = { (g.endArm f.scopes.pop.1).1 with
      arm := arm, anyTaken := anyTaken, written := written } :: gs)
    (hscopes' : f'.scopes = f.scopes.pop.2.push) :
    Simulates f' { c with levels := kept } { d with levels := a.next value :: all } := by
  have hopen := h.follows
  have hknows := h.knows
  rw [hgroups, hlevels] at hopen hknows
  refine ⟨?_, ?_, h.symbols, h.output⟩
  · rw [hgroups']
    exact hfollows.congr ⟨(g.like_endArm _).inLive, rfl, rfl, rfl⟩
  · rw [hgroups', hscopes']
    exact hknows.nextArm hin (hopen.level_of_unwritten hin) (hopen.anyTaken_of_taken hin) harm hany
      hwritten value

/-- What the filter knows around a group that waits for a live arm is the value of a condition. -/
theorem value_of_evaluate (horacle : oracle.IsSound f.usage) (h : Simulates f c d) {g : Group}
    {gs : List Group} {a : Level} {all : List Level} (hgroups : f.groups = g :: gs)
    (hlevels : d.levels = a :: all) (hin : g.inLive = true) {expression : String} (known : Bool)
    (heval : f'.evaluate expression = Truth.ofBool known)
    (hscopes' : f'.scopes = f.scopes.pop.2.push) (husage' : f'.usage = f.usage)
    (ha : a = .waiting) :
    oracle (Text.trim expression) d.symbols = known := by
  have hknows := h.knows
  rw [hgroups, hlevels] at hknows
  refine horacle f' husage' expression known heval d.symbols ?_
  intro name value hget
  rw [Filter.defined, hscopes', Scopes.get_push] at hget
  exact hknows.right_outside hin ha name value not_false hget

/-- The value of the condition of an arm; the last arm has none. -/
def armValue (oracle : Oracle) (condition : Option String) (σ : Symbols) : Bool :=
  match condition with
  | none => true
  | some expression => oracle (Text.trim expression) σ

/-- An arm that cannot be live: nothing but the note of the arm before it is written. -/
theorem deadArm (h : Simulates f c d) {g : Group} {gs : List Group} {a : Level}
    {all : List Level} (hgroups : f.groups = g :: gs) (hlevels : d.levels = a :: all)
    (hin : g.inLive = true) {value : Bool}
    (hvalue : g.anyTaken = true ∨ (a = .waiting → value = false))
    (hgroups' : f'.groups = { (g.endArm f.scopes.pop.1).1 with arm := .dead } :: gs)
    (hscopes' : f'.scopes = f.scopes.pop.2.push) (line : String) :
    Simulates f' (c.run oracle (Fed.kept ⟨f', (g.endArm f.scopes.pop.1).2.1, .consumed⟩ line))
      { d with levels := a.next value :: all } := by
  have hfollows := h.follows
  rw [hgroups, hlevels] at hfollows
  have hkept := Fed.kept_endArm f' g f.scopes.pop.1 line (List.forall_mem_nil _)
  have hlike := g.like_endArm f.scopes.pop.1
  rw [List.append_nil] at hkept
  rw [hkept, Preprocessor.run_nil]
  refine h.arm hgroups hlevels hin .dead g.anyTaken g.written
    (fun hne => absurd rfl hne) id id (hfollows.next_dead hin hvalue) ?_ hscopes'
  rw [hgroups', ← hlike.anyTaken, ← hlike.written]

/-- The arm that is the last one to be reached: behind undecided arms it is written as `#else`. -/
theorem takenArm (h : Simulates f c d) {g : Group} {gs : List Group} {a : Level}
    {all : List Level} (hgroups : f.groups = g :: gs) (hlevels : d.levels = a :: all)
    (hin : g.inLive = true) (hany : g.anyTaken = false) {value : Bool}
    (hvalue : a = .waiting → value = true)
    (hgroups' : f'.groups
      = { (g.endArm f.scopes.pop.1).1 with arm := .taken, anyTaken := true } :: gs)
    (hscopes' : f'.scopes = f.scopes.pop.2.push) (line : String) :
    Simulates f'
      (c.run oracle (Fed.kept ⟨f', (g.endArm f.scopes.pop.1).2.1
        ++ (if g.written then ["#else"] else []), .consumed⟩ line))
      { d with levels := a.next value :: all } := by
  have hfollows := h.follows
  rw [hgroups, hlevels] at hfollows
  have hlike := g.like_endArm f.scopes.pop.1
  have hnote : ∀ l ∈ if g.written then ["#else"] else [], Group.isSkipNote l = false := by
    split
    · simp only [List.mem_singleton, forall_eq]
      rfl
    · nofun
  rw [Fed.kept_endArm f' g f.scopes.pop.1 line hnote]
  -- Whatever the kept text has open, the groups are those of a taken arm.
  have hset : ∀ {kept : List Level},
      Follows ({ g with arm := .taken, anyTaken := true } :: gs) kept (a.next value :: all) →
      Simulates f' { c with levels := kept } { d with levels := a.next value :: all } := by
    intro kept hkept
    refine h.arm hgroups hlevels hin .taken true g.written
      (fun _ => hany) (fun _ => rfl) id hkept ?_ hscopes'
    rw [hgroups', ← hlike.written]
  cases hwritten : g.written with
  | true =>
    obtain ⟨k, kept, hc⟩ := hfollows.exists_cons_of_written hin hwritten
    rw [hc] at hfollows
    have hstep : c.step oracle "#else" = { c with levels := k.next true :: kept } := by
      rw [Preprocessor.step, ofLine_else]
      show c.nextArm "#else" true = _
      rw [Preprocessor.nextArm, hc]
    rw [if_pos rfl, Preprocessor.run_cons, Preprocessor.run_nil, hstep]
    exact hset (hfollows.next_taken_of_written hin hwritten hvalue)
  | false =>
    rw [if_neg Bool.false_ne_true, Preprocessor.run_nil]
    exact hset (hfollows.next_taken_of_unwritten hin hwritten hany hvalue)

/-- An undecided arm: it is written as `#if` if it is the first one, and else as `#elif`. -/
theorem uncertainArm (h : Simulates f c d) {g : Group} {gs : List Group} {a : Level}
    {all : List Level} (hgroups : f.groups = g :: gs) (hlevels : d.levels = a :: all)
    (hin : g.inLive = true) (hany : g.anyTaken = false) (expression : String)
    (hgroups' : f'.groups
      = { (g.endArm f.scopes.pop.1).1 with arm := .uncertain, written := true } :: gs)
    (hscopes' : f'.scopes = f.scopes.pop.2.push) (line : String) :
    Simulates f'
      (c.run oracle (Fed.kept ⟨f', (g.endArm f.scopes.pop.1).2.1
        ++ [(if g.written then "#elif " else "#if ") ++ Text.trim expression], .consumed⟩ line))
      { d with levels := a.next (oracle (Text.trim expression) d.symbols) :: all } := by
  have hfollows := h.follows
  rw [hgroups, hlevels] at hfollows
  have hlike := g.like_endArm f.scopes.pop.1
  have hset : ∀ {kept : List Level} {value : Bool},
      Follows ({ g with arm := .uncertain, written := true } :: gs) kept (a.next value :: all) →
      Simulates f' { c with levels := kept } { d with levels := a.next value :: all } := by
    intro kept value hkept
    refine h.arm hgroups hlevels hin .uncertain g.anyTaken true (fun _ => hany) id nofun hkept ?_
      hscopes'
    rw [hgroups', ← hlike.anyTaken]
  have hvalue : oracle (Text.trim expression) c.symbols
      = oracle (Text.trim expression) d.symbols := by
    rw [h.symbols]
  cases hwritten : g.written with
  -- A group that is written already has a level in the kept text.
  | true =>
    have hline := ofLine_elif (Text.trim expression)
    have hnote := Group.isSkipNote_of_ofLine (by rw [hline]; exact nofun)
    obtain ⟨k, kept, hc⟩ := hfollows.exists_cons_of_written hin hwritten
    rw [hc] at hfollows
    rw [if_pos rfl, Fed.kept_endArm f' g f.scopes.pop.1 line (by simpa using hnote),
      Preprocessor.run_cons, Preprocessor.run_nil, Preprocessor.step, hline]
    simp only [trim_space_append_trim, Preprocessor.nextArm, hc, hvalue]
    refine hset ?_
    exact hfollows.next_uncertain_of_written hin hwritten hany
  | false =>
    have hline := ofLine_if (Text.trim expression)
    have hnote := Group.isSkipNote_of_ofLine (by rw [hline]; exact nofun)
    rw [if_neg Bool.false_ne_true, Fed.kept_endArm f' g f.scopes.pop.1 line (by simpa using hnote),
      Preprocessor.run_cons, Preprocessor.run_nil, Preprocessor.step, hline]
    simp only [trim_space_append_trim, Preprocessor.openGroup, hvalue]
    refine hset ?_
    exact hfollows.next_uncertain_of_unwritten hin hwritten hany

/-- Another arm of a group in live text. -/
theorem nextArm_of_inLive (horacle : oracle.IsSound f.usage) (h : Simulates f c d) {g : Group}
    {gs : List Group} {a : Level} {all : List Level} (hgroups : f.groups = g :: gs)
    (hlevels : d.levels = a :: all) (hin : g.inLive = true) (condition : Option String)
    (line : String) :
    Simulates (f.nextArm condition).filter (c.run oracle ((f.nextArm condition).kept line))
      { d with levels := a.next (armValue oracle condition d.symbols) :: all } := by
  rw [Filter.nextArm_of_inLive hgroups hin]
  cases hany : g.anyTaken with
  | true => exact h.deadArm hgroups hlevels hin (.inl hany) rfl rfl line
  | false =>
    simp only [Bool.false_eq_true, if_false]
    cases condition with
    | none => exact h.takenArm hgroups hlevels hin hany (fun _ => rfl) rfl rfl line
    | some expression =>
      simp only [Option.map_some, Option.getD_some]
      split
      · rename_i hno
        refine h.deadArm hgroups hlevels hin (.inr fun ha => ?_) rfl rfl line
        exact value_of_evaluate horacle h hgroups hlevels hin false hno rfl rfl ha
      · rename_i hyes
        refine h.takenArm hgroups hlevels hin hany (fun ha => ?_) rfl rfl line
        exact value_of_evaluate horacle h hgroups hlevels hin true hyes rfl rfl ha
      · exact h.uncertainArm hgroups hlevels hin hany expression rfl rfl line

/-- Another arm, or a directive without a group. -/
theorem nextArm (horacle : oracle.IsSound f.usage) (h : Simulates f c d) {line : String}
    (condition : Option String)
    (hline : c.step oracle line = c.nextArm line (armValue oracle condition c.symbols)) :
    Simulates (f.nextArm condition).filter (c.run oracle ((f.nextArm condition).kept line))
      (d.nextArm line (armValue oracle condition d.symbols)) := by
  have hfollows := h.follows
  cases hgroups : f.groups with
  | nil =>
    have hnext : f.nextArm condition = ⟨f, [], .live⟩ := by rw [Filter.nextArm, hgroups]
    rw [hgroups] at hfollows
    obtain ⟨hc, hd⟩ := hfollows.levels_of_nil
    rw [hnext]
    show Simulates f (c.step oracle line) _
    rw [hline, Preprocessor.nextArm, Preprocessor.nextArm, hc, hd]
    exact ⟨h.follows, h.knows, h.symbols, congrArg (· ++ [line]) h.output⟩
  | cons g gs =>
    rw [hgroups] at hfollows
    obtain ⟨a, all, hlevels⟩ := hfollows.exists_cons
    rw [hlevels] at hfollows
    have hd : ∀ value, d.nextArm line value = { d with levels := a.next value :: all } := by
      intro value
      rw [Preprocessor.nextArm, hlevels]
    rw [hd]
    cases hin : g.inLive with
    | false =>
      rw [Filter.nextArm_of_dead hgroups hin, hfollows.next_of_dead hin, ← hlevels]
      exact h.drop
    | true =>
      exact nextArm_of_inLive horacle h hgroups hlevels hin condition line

/-- The end of a group, or a directive without a group. -/
theorem closeGroup (h : Simulates f c d) {line : String}
    (hline : c.step oracle line = c.closeGroup line) :
    Simulates f.closeGroup.filter (c.run oracle (f.closeGroup.kept line)) (d.closeGroup line) := by
  have hfollows := h.follows
  have hknows := h.knows
  cases hgroups : f.groups with
  | nil =>
    -- Without a group the directive is passed on, and both preprocessors hand it on.
    have hclose : f.closeGroup = ⟨f, [], .live⟩ := by rw [Filter.closeGroup, hgroups]
    rw [hgroups] at hfollows
    obtain ⟨hc, hd⟩ := hfollows.levels_of_nil
    rw [hclose]
    show Simulates f (c.step oracle line) _
    rw [hline, Preprocessor.closeGroup, Preprocessor.closeGroup, hc, hd]
    exact ⟨h.follows, h.knows, h.symbols, congrArg (· ++ [line]) h.output⟩
  | cons g gs =>
    rw [hgroups] at hfollows hknows
    obtain ⟨a, all, hlevels⟩ := hfollows.exists_cons
    rw [hlevels] at hfollows hknows
    have hd : d.closeGroup line = { d with levels := all } := by
      rw [Preprocessor.closeGroup, hlevels]
    rw [hd]
    cases hin : g.inLive with
    | false =>
      -- The group stands in a dead arm, so that nothing has been written for it.
      obtain ⟨houter, hrest⟩ := hfollows.close_of_dead hin
      have hdead : ({ f with groups := gs } : Filter).isLive = false := by
        rw [Filter.isLive_eq]
        exact houter
      rw [Filter.closeGroup_of_dead hgroups hin, Filter.pass_of_dead hdead]
      exact ⟨hrest.countSkipped, (hknows.close_of_dead hin).countSkipped, h.symbols, h.output⟩
    | true =>
      have hnote : ∀ l ∈ if g.written then ["#endif"] else [], Group.isSkipNote l = false := by
        split
        · simp only [List.mem_singleton, forall_eq]
          rfl
        · nofun
      rw [Filter.closeGroup_of_inLive hgroups hin]
      dsimp only
      rw [Fed.kept_endArm _ g f.scopes.pop.1 line hnote]
      -- What the last arm leaves known does not depend on whether the group has been written.
      have hset : ∀ {kept : List Level} {count : Nat}, Group.liveIn gs = true →
          Follows gs kept all →
          Simulates
            { f with
              scopes := f.scopes.pop.2.setAll (g.endArm f.scopes.pop.1).1.settled
              groups := gs
              skippedLines := count }
            { c with levels := kept } { d with levels := all } := by
        intro kept count houter hrest
        refine ⟨hrest, ?_, h.symbols, h.output⟩
        exact hknows.closeGroup hin (hfollows.level_of_unwritten hin) houter
          (hrest.arm_ne_dead houter)
      cases hwritten : g.written with
      | true =>
        obtain ⟨k, kept, hc⟩ := hfollows.exists_cons_of_written hin hwritten
        rw [hc] at hfollows
        obtain ⟨houter, hrest⟩ := hfollows.close_of_written hin hwritten
        have hstep : c.step oracle "#endif" = { c with levels := kept } := by
          rw [Preprocessor.step, ofLine_endif]
          show c.closeGroup "#endif" = _
          rw [Preprocessor.closeGroup, hc]
        rw [if_pos rfl, Preprocessor.run_cons, Preprocessor.run_nil, hstep]
        exact hset houter hrest
      | false =>
        obtain ⟨houter, hrest⟩ := hfollows.close_of_unwritten hin hwritten
        rw [if_neg Bool.false_ne_true, Preprocessor.run_nil]
        exact hset houter hrest

/-! ## A line, and a run over lines -/

theorem report (h : Simulates f c d) (expression : String) (value : Truth) :
    Simulates (f.report expression value) c d := by
  rw [Filter.report]
  split
  · exact h
  · exact h.congr rfl rfl

/-- One line preserves the invariant. -/
theorem feed (horacle : oracle.IsSound f.usage) (h : Simulates f c d) (line : String) :
    Simulates (f.feed line).filter (c.run oracle ((f.feed line).kept line))
      (d.step oracle line) := by
  have hlookup : ∀ {name : String} {known : Bool}, f.scopes.get name = Truth.ofBool known →
      d.isLive = true → d.symbols name = known := fun hget hlive => h.right hlive _ _ hget
  rw [Filter.feed, Preprocessor.step]
  cases hcontrol : Control.ofLine line with
  | openIf expression =>
    have hline : c.step oracle line = c.openGroup (oracle (Text.trim expression) d.symbols) := by
      rw [Preprocessor.step, hcontrol, h.symbols]
    have hnote := Group.isSkipNote_of_ofLine (by rw [hcontrol]; exact nofun)
    dsimp only
    split
    · refine (h.report expression _).openGroup hline hnote ?_
      intro known hknown hlive
      exact horacle f rfl expression known hknown d.symbols (h.right hlive)
    · rename_i hdead
      refine h.openGroup hline hnote ?_
      intro known hknown
      exact absurd hknown.symm (Truth.ofBool_ne_unknown known)
  | openDefined name =>
    have hline : c.step oracle line = c.openGroup (d.symbols name) := by
      rw [Preprocessor.step, hcontrol, h.symbols]
    refine h.openGroup hline (Group.isSkipNote_of_ofLine (by rw [hcontrol]; exact nofun)) ?_
    exact fun known hknown hlive => hlookup hknown hlive
  | openUndefined name =>
    have hline : c.step oracle line = c.openGroup !d.symbols name := by
      rw [Preprocessor.step, hcontrol, h.symbols]
    refine h.openGroup hline (Group.isSkipNote_of_ofLine (by rw [hcontrol]; exact nofun)) ?_
    intro known hknown hlive
    have hget : f.scopes.get name = Truth.ofBool !known := by
      rw [← Truth.not_ofBool, ← hknown, Truth.not_not]
    rw [hlookup hget hlive, Bool.not_not]
  | elseIf expression =>
    exact nextArm horacle h (some expression) (by rw [Preprocessor.step, hcontrol]; rfl)
  | otherwise => exact nextArm horacle h none (by rw [Preprocessor.step, hcontrol]; rfl)
  | close => exact h.closeGroup (by rw [Preprocessor.step, hcontrol])
  | define name => exact h.define (fun p => by rw [Preprocessor.step, hcontrol])
  | undefine name => exact h.define (fun p => by rw [Preprocessor.step, hcontrol])
  | plain => exact h.pass (fun p => by rw [Preprocessor.step, hcontrol])

end Simulates

namespace Filter

/-! ## The usage table stays -/

theorem usage_pass (f : Filter) : f.pass.filter.usage = f.usage := by
  rw [pass]
  split <;> rfl

theorem usage_report (f : Filter) (expression : String) (value : Truth) :
    (f.report expression value).usage = f.usage := by
  rw [report]
  split <;> rfl

theorem usage_openGroup (f : Filter) (value : Truth) (line : String) :
    (f.openGroup value line).filter.usage = f.usage := by
  rw [openGroup]
  split <;> rfl

theorem usage_nextArm (f : Filter) (condition : Option String) :
    (f.nextArm condition).filter.usage = f.usage := by
  cases hgroups : f.groups with
  | nil => rw [nextArm, hgroups]
  | cons g gs =>
    cases hin : g.inLive with
    | true =>
      rw [nextArm_of_inLive hgroups hin]
      dsimp only
      split
      · rfl
      · split
        · rfl
        · rfl
        · exact usage_report _ _ _
    | false => rw [nextArm_of_dead hgroups hin]

theorem usage_closeGroup (f : Filter) : f.closeGroup.filter.usage = f.usage := by
  cases hgroups : f.groups with
  | nil => rw [closeGroup, hgroups]
  | cons g gs =>
    cases hin : g.inLive with
    | true => rw [closeGroup_of_inLive hgroups hin]
    | false => rw [closeGroup_of_dead hgroups hin, usage_pass]

theorem usage_define (f : Filter) (name : String) (isDefined : Bool) :
    (f.define name isDefined).filter.usage = f.usage := by
  rw [define]
  split
  · rfl
  · exact f.usage_pass

/-- A filter keeps its usage table. -/
theorem usage_feed (f : Filter) (line : String) : (f.feed line).filter.usage = f.usage := by
  rw [feed]
  split
  · split
    · rw [usage_openGroup, usage_report]
    · exact f.usage_openGroup _ _
  · exact f.usage_openGroup _ _
  · exact f.usage_openGroup _ _
  · exact f.usage_nextArm _
  · exact f.usage_nextArm _
  · exact f.usage_closeGroup
  · exact f.usage_define _ _
  · exact f.usage_define _ _
  · exact f.usage_pass

end Filter

namespace Simulates

variable {oracle : Oracle} {f : Filter} {c d : Preprocessor}

/-- Any number of lines preserves the invariant. -/
theorem run (horacle : oracle.IsSound f.usage) (h : Simulates f c d) (lines : List String) :
    Simulates (f.after lines) (c.run oracle (f.kept lines)) (d.run oracle lines) := by
  induction lines generalizing f c d with
  | nil => exact h
  | cons line lines ih =>
    rw [Filter.kept, Preprocessor.run_append]
    refine ih ?_ (h.feed horacle line)
    rw [f.usage_feed line]
    exact horacle

/-- In front of the first line, with symbols that agree with what the filter knows. -/
theorem start {known : List (String × Bool)} {σ : Symbols}
    (hσ : σ.Extends (Filter.new known).defined) :
    Simulates (Filter.new known) (.start σ) (.start σ) where
  follows := .nil
  knows := .nil fun name value _ hget => hσ name value hget
  symbols := rfl
  output := rfl

end Simulates

/-! ## Main result -/

/-- **The kept lines mean what all lines mean.**  A classical preprocessor hands on the same live
lines and ends with the same symbols on both; and wherever it is in live text, what the filter
knows of a name is right. -/
theorem Filter.kept_preserves {oracle : Oracle} (horacle : oracle.IsClassical)
    {known : List (String × Bool)} {σ : Symbols} (hσ : σ.Extends (Filter.new known).defined)
    (lines : List String) :
    let fromKept := (Preprocessor.start σ).run oracle ((Filter.new known).kept lines)
    let fromAll := (Preprocessor.start σ).run oracle lines
    fromKept.output = fromAll.output ∧ fromKept.symbols = fromAll.symbols ∧
      ∀ read rest, lines = read ++ rest →
        let here := (Preprocessor.start σ).run oracle read
        here.isLive = true → here.symbols.Extends ((Filter.new known).after read).defined := by
  have hrun := fun read => (Simulates.start hσ).run horacle.isSound read
  exact ⟨(hrun lines).output, (hrun lines).symbols, fun read rest _ => (hrun read).right⟩

/-- An oracle that calls every condition outside the grammar false. -/
def Oracle.ofExpr : Oracle := fun text σ =>
  match Expr.read text with
  | some e => e.holds σ
  | none => false

theorem Oracle.isClassical_ofExpr : Oracle.ofExpr.IsClassical := by
  intro text e hread σ
  rw [Oracle.ofExpr, hread]

/-- A group whose first arm is undecided and whose second one is known to hold. -/
theorem Filter.kept_preserves_of_known_elif :
    let lines := ["#if defined(B)", "#define C", "#elif defined(A)", "int a;", "#endif", "int c;"]
    let σ : Symbols := fun name => name == "A"
    let fromKept := (Preprocessor.start σ).run .ofExpr ((Filter.new [("A", true)]).kept lines)
    let fromAll := (Preprocessor.start σ).run .ofExpr lines
    fromAll.output = ["int a;", "int c;"] ∧ fromKept.output = fromAll.output ∧
      fromKept.symbols = fromAll.symbols ∧
      (fromAll.isLive = true →
        fromAll.symbols.Extends ((Filter.new [("A", true)]).after lines).defined) := by
  intro lines σ fromKept fromAll
  have hσ : σ.Extends (Filter.new [("A", true)]).defined := by
    intro name value hget
    have hmem := Filter.mem_of_defined_new hget
    rw [List.mem_singleton, Prod.mk.injEq] at hmem
    rw [hmem.1, hmem.2]
    rfl
  obtain ⟨houtput, hsymbols, hpoints⟩ := Filter.kept_preserves Oracle.isClassical_ofExpr hσ lines
  exact ⟨by decide +kernel, houtput, hsymbols, hpoints lines [] (List.append_nil lines).symm⟩

end ShaderMerge.Condition
