import ShaderMerge.Proofs.Variant.Mirrors

/-!
# What becomes of declarations

A declaration of a property that has a substitute is written anew in its place, or behind the end of
the constant buffer that it stands in.  Whether a preprocessor hands it on is decided at the place where
it stands in the source, and again at the place where it is written.  These places are the same outside
of constant buffers.  In a constant buffer the second one is the end of the buffer, whatever groups
the declaration stands in, and a declaration in a buffer that is not ended is not written at all.

`fates` follows the declarations of a block from the one place to the other, and
`declarations_of_variant` says that they are what decides both texts.
-/

namespace ShaderMerge.Variant

open Condition (Control Oracle Preprocessor Symbols)
open Include (Moment)

/-! ## What a stroke writes -/

namespace Stroke

/-- What the line of a stroke does to declarations, if the filter of its block lets it through. -/
def meant (t : Substitution) (stroke : Stroke) : Deed :=
  match stroke.read? with
  | some (p, text) => p.deed t text
  | none => .other

/-- The declarations that a stroke writes in the place of others. -/
def declarations (t : Substitution) (stroke : Stroke) : List String :=
  match stroke.deed t with
  | .redeclares _ _ => stroke.lines
  | .endsBuffer => stroke.lines.drop 1
  | _ => []

/-- The lines that a stroke writes in front of the declarations. -/
def code (t : Substitution) (stroke : Stroke) : List String :=
  match stroke.deed t with
  | .redeclares _ _ => []
  | .endsBuffer => stroke.lines.take 1
  | _ => stroke.lines

theorem code_append_declarations (t : Substitution) (stroke : Stroke) :
    stroke.code t ++ stroke.declarations t = stroke.lines := by
  rw [code, declarations]
  cases stroke.deed t with
  | endsBuffer => exact List.take_append_drop 1 stroke.lines
  | redeclares => rfl
  | _ => exact List.append_nil _

end Stroke

/-- The declarations that take the place of those that a preprocessor hands on of the source. -/
def survivors (oracle : Oracle) (t : Substitution) : Preprocessor → List Stroke → List String
  | _, [] => []
  | d, stroke :: rest =>
    (if d.isLive then ((stroke.meant t).declaration?.map Prod.snd).toList else [])
      ++ survivors oracle t (d.run oracle stroke.text?.toList) rest

/-- Of the declarations that are written in the place of others, those that a preprocessor hands
on. -/
def arrivals (oracle : Oracle) (t : Substitution) : Preprocessor → List Stroke → List String
  | _, [] => []
  | c, stroke :: rest =>
    (c.run oracle (stroke.code t)).handed oracle (stroke.declarations t)
      ++ arrivals oracle t (c.run oracle stroke.lines) rest

/-- What arrives is handed on with the text of the strokes. -/
theorem arrivals_sublist (oracle : Oracle) (t : Substitution) (c : Preprocessor)
    (strokes : List Stroke) :
    (arrivals oracle t c strokes).Sublist (c.handed oracle (scriptText strokes)) := by
  induction strokes generalizing c with
  | nil => exact List.nil_sublist _
  | cons stroke rest ih =>
    rw [arrivals, scriptText_cons, Preprocessor.handed_append]
    refine List.Sublist.append ?_ (ih _)
    conv_rhs => rw [← stroke.code_append_declarations t, Preprocessor.handed_append]
    exact List.sublist_append_right _ _

/-! ## Fates -/

/-- What becomes of a declaration: whether a preprocessor hands on the one in the source, and the one
that takes its place. -/
structure Fate where
  name : String
  line : String
  survives : Bool
  arrives : Bool

/-- What becomes of a declaration before it is written. -/
def Fate.unwritten (fate : Fate) : Fate := { fate with arrives := false }

namespace Deed

/-- The declaration that is read, where a preprocessor is live or not. -/
def reads (live : Bool) (deed : Deed) : List Fate :=
  (deed.declaration?.map fun (name, line) => ⟨name, line, live, false⟩).toList

/-- The declarations that are written, where a preprocessor is live or not, if some are held back. -/
def settles (live : Bool) (held : List Fate) : Deed → List Fate
  | redeclares name line => [⟨name, line, live, live⟩]
  | endsBuffer => held.map fun fate => { fate with arrives := live }
  | _ => []

/-- The declarations that are held back then. -/
def holds (live : Bool) (held : List Fate) : Deed → List Fate
  | holdsBack name line => held ++ [⟨name, line, live, false⟩]
  | endsBuffer => []
  | _ => held

end Deed

/-- The declarations that some strokes read. -/
def readFates (oracle : Oracle) (t : Substitution) : Preprocessor → List Stroke → List Fate
  | _, [] => []
  | d, stroke :: rest =>
    (stroke.deed t).reads d.isLive ++ readFates oracle t (d.run oracle stroke.text?.toList) rest

/-- The fates of the declarations of some strokes, in the order in which they are written, given those
that are held back in front of them. -/
def fates (oracle : Oracle) (t : Substitution) : Preprocessor → List Fate → List Stroke → List Fate
  | _, held, [] => held
  | d, held, stroke :: rest =>
    (stroke.deed t).settles d.isLive held
      ++ fates oracle t (d.run oracle stroke.text?.toList) ((stroke.deed t).holds d.isLive held) rest

/-- The lines of the declarations that arrive. -/
def arrived (fates : List Fate) : List String := (fates.filter (·.arrives)).map (·.line)

/-- The lines of the declarations whose sources survive. -/
def survived (fates : List Fate) : List String := (fates.filter (·.survives)).map (·.line)

section

variable {oracle : Oracle} {t : Substitution} {first second held : List Fate} {deed : Deed}
  {live : Bool}

theorem arrived_append : arrived (first ++ second) = arrived first ++ arrived second := by
  rw [arrived, List.filter_append, List.map_append]
  rfl

theorem survived_append : survived (first ++ second) = survived first ++ survived second := by
  rw [survived, List.filter_append, List.map_append]
  rfl

theorem arrived_of_forall (h : ∀ fate ∈ held, fate.arrives = false) : arrived held = [] := by
  rw [arrived, List.filter_eq_nil_iff.2 fun fate hfate => by simp [h fate hfate]]
  rfl

/-- What is held back is written at the end of the buffer. -/
theorem arrived_settle (live : Bool) (held : List Fate) :
    arrived (held.map fun fate => { fate with arrives := live })
      = if live then held.map (·.line) else [] := by
  cases live with
  | true => simp [arrived, List.filter_map, Function.comp_def]
  | false => exact arrived_of_forall (by simp)

/-- What is held back has not arrived. -/
theorem arrives_holds (h : ∀ fate ∈ held, fate.arrives = false) :
    ∀ fate ∈ deed.holds live held, fate.arrives = false := by
  cases deed with
  | holdsBack name line => exact List.forall_mem_append.2 ⟨h, List.forall_mem_singleton.2 rfl⟩
  | endsBuffer => exact fun fate hfate => absurd hfate List.not_mem_nil
  | _ => exact h

theorem map_unwritten (h : ∀ fate ∈ held, fate.arrives = false) :
    held.map Fate.unwritten = held := by
  have hsame : ∀ fate ∈ held, fate.unwritten = fate := by
    intro fate hfate
    rw [Fate.unwritten, ← h fate hfate]
  exact (List.map_congr_left hsame).trans (List.map_id' held)

/-- Whether a source survives does not depend on what is written. -/
theorem survived_unwritten (fates : List Fate) :
    survived (fates.map Fate.unwritten) = survived fates := by
  simp [survived, List.filter_map, Function.comp_def, Fate.unwritten]

/-- A declaration that is read is written or held back, and one that was held back still is or is
written. -/
theorem settles_perm (h : ∀ fate ∈ held, fate.arrives = false) :
    ((deed.settles live held).map Fate.unwritten ++ deed.holds live held).Perm
      (held ++ deed.reads live) := by
  cases deed with
  | redeclares name line => exact List.perm_append_comm
  | holdsBack name line => exact .refl _
  | endsBuffer =>
    have hsame : (held.map fun fate => { fate with arrives := live }).map Fate.unwritten = held := by
      rw [List.map_map]
      exact map_unwritten h
    simp only [Deed.settles, Deed.holds, hsame]
    exact .refl _
  | _ =>
    simp only [Deed.settles, Deed.holds, Deed.reads, Deed.declaration?]
    simp

/-- **Each declaration that is read has one fate.** -/
theorem fates_perm (h : ∀ fate ∈ held, fate.arrives = false) (oracle : Oracle) (t : Substitution)
    (d : Preprocessor) (strokes : List Stroke) :
    ((fates oracle t d held strokes).map Fate.unwritten).Perm
      (held ++ readFates oracle t d strokes) := by
  induction strokes generalizing d held with
  | nil =>
    rw [fates, readFates, List.append_nil, map_unwritten h]
  | cons stroke rest ih =>
    rw [fates, readFates, List.map_append, ← List.append_assoc]
    refine ((ih (arrives_holds h) _).append_left _).trans ?_
    rw [← List.append_assoc]
    exact (settles_perm h).append_right _

end

/-! ## A stroke -/

section

variable {oracle : Oracle} {t : Substitution} {p q : Program} {c d : Preprocessor} {stroke : Stroke}
  {strokes : List Stroke} {held : List Fate}

theorem Stroke.exists_read_of_deed (hadvances : stroke.Advances t p q)
    (h : stroke.deed t ≠ .other) (hopens : stroke.deed t ≠ .opensBody) :
    ∃ text, stroke.text? = some text ∧ p.deed t text = stroke.deed t ∧ p.pending = none ∧
      p.filter.isLive = true ∧ Control.ofLine text = .plain := by
  rw [deed] at h hopens ⊢
  cases hread : stroke.read? with
  | none =>
    rw [hread] at h
    exact absurd rfl h
  | some read =>
    obtain ⟨p', text⟩ := read
    cases hadvances.reads _ hread
    rw [hread] at h hopens
    dsimp only at h hopens ⊢
    split at h
    · rename_i hlive
      rw [if_pos hlive] at hopens ⊢
      obtain ⟨hpending, hplain⟩ := Program.code_of_deed h hopens
      exact ⟨text, by rw [text?, hread]; rfl, rfl, hpending,
        (Condition.Filter.feed_eq_live_iff hplain).1 hlive, hplain⟩
    · exact absurd rfl h

/-- A line that survives is let through by the filter. -/
theorem Mirrors.meant_eq (h : Mirrors oracle p c d) (hadvances : stroke.Advances t p q)
    (hlive : d.isLive = true) : stroke.meant t = stroke.deed t := by
  rw [Stroke.meant, Stroke.deed]
  cases hread : stroke.read? with
  | none => rfl
  | some read =>
    obtain ⟨p', text⟩ := read
    cases hadvances.reads _ hread
    dsimp only
    split
    · rfl
    · rename_i hconsumed
      cases hmarked : Directive.isMarked text with
      | true => exact Program.deed_of_isMarked hmarked
      | false =>
        exact absurd ((Condition.Filter.feed_eq_live_iff
          (ofLine_of_not_isMarked hmarked)).2
          (h.isLive_filter hlive)) hconsumed

/-- The declarations that a stroke writes are handed on as they arrive. -/
theorem Mirrors.handed_declarations (h : Mirrors oracle p c d) (hadvances : stroke.Advances t p q)
    (hheld : p.deferred = held.map (·.line)) :
    (c.run oracle (stroke.code t)).handed oracle (stroke.declarations t)
      = arrived ((stroke.deed t).settles d.isLive held) := by
  rw [Stroke.code, Stroke.declarations]
  cases hdeed : stroke.deed t with
  | redeclares name line =>
    obtain ⟨text, htext, hsame, hpending, hlive, -⟩ := Stroke.exists_read_of_deed hadvances
      (by rw [hdeed]; nofun) (by rw [hdeed]; nofun)
    have hwrites := hadvances.writes text htext
    rw [hdeed] at hwrites hsame
    -- In its place the declaration is handed on exactly if the one it replaces is.
    have hline : Directive.isMarked line = false :=
      (Program.isMarked_of_redeclare? (Program.redeclare?_of_deed (congrArg _ hsame))).1
    have hplain : ∀ l ∈ [line], Control.ofLine l = .plain :=
      List.forall_mem_singleton.2 (ofLine_of_not_isMarked hline)
    dsimp only [Deed.settles]
    rw [hwrites.redeclares_eq, Preprocessor.run_nil, Preprocessor.handed_of_plain hplain,
      h.isLive_eq hpending hlive]
    cases d.isLive with
    | true => rfl
    | false => rfl
  | endsBuffer =>
    obtain ⟨text, htext, -, hpending, hlive, hplain⟩ := Stroke.exists_read_of_deed hadvances
      (by rw [hdeed]; nofun) (by rw [hdeed]; nofun)
    have hwrites := hadvances.writes text htext
    rw [hdeed] at hwrites
    -- What was held back is handed on exactly if the end of the buffer is.
    have hdeferred : ∀ line ∈ p.deferred, Control.ofLine line = .plain :=
      fun line hline => ofLine_of_not_isMarked (h.clean.deferred line hline)
    have hbehind : (c.run oracle [text]).isLive = c.isLive :=
      (Condition.Preprocessor.sameState_step_of_plain hplain oracle c).isLive_eq
    dsimp only [Deed.settles]
    rw [hwrites.endsBuffer_eq, arrived_settle, List.take_succ_cons, List.take_zero,
      List.drop_succ_cons, List.drop_zero, Preprocessor.handed_of_plain hdeferred, hbehind,
      h.isLive_eq hpending hlive, hheld]
  | _ => rfl

/-- What a block holds back behind a stroke. -/
theorem Stroke.Advances.deferred_eq (h : stroke.Advances t p q) (live : Bool)
    (hheld : p.deferred = held.map (·.line)) :
    q.deferred = ((stroke.deed t).holds live held).map (·.line) := by
  have hdeferred : q.deferred = (stroke.deed t).defer p.deferred := h.remembers.deferred
  rw [hdeferred, hheld]
  cases stroke.deed t with
  | holdsBack name line => simp [Deed.defer, Deed.holds]
  | _ => rfl

/-! ## A block -/

/-- The declarations that arrive are those whose fates say so. -/
theorem Mirrors.arrivals_eq (h : Mirrors oracle p c d) (hpasses : Passes t p strokes q)
    (hopens : ∀ stroke ∈ strokes, stroke.OpensPlain) (hheld : p.deferred = held.map (·.line))
    (hnone : ∀ fate ∈ held, fate.arrives = false) :
    arrivals oracle t c strokes = arrived (fates oracle t d held strokes) := by
  -- The induction goes over all states of the block, with what it holds back there.
  induction strokes generalizing p c d held with
  | nil => exact (arrived_of_forall hnone).symm
  | cons stroke rest ih =>
    obtain ⟨p', hadvances, hrest⟩ := hpasses
    obtain ⟨hfirst, hopens⟩ := List.forall_mem_cons.1 hopens
    rw [arrivals, fates, arrived_append, h.handed_declarations hadvances hheld]
    exact congrArg _ (ih (h.step hadvances hfirst) hrest hopens (hadvances.deferred_eq _ hheld)
      (arrives_holds hnone))

/-- The declarations whose sources survive are those that are read in live text. -/
theorem Mirrors.survivors_eq (h : Mirrors oracle p c d) (hpasses : Passes t p strokes q)
    (hopens : ∀ stroke ∈ strokes, stroke.OpensPlain) :
    survivors oracle t d strokes = survived (readFates oracle t d strokes) := by
  induction strokes generalizing p c d with
  | nil => rfl
  | cons stroke rest ih =>
    obtain ⟨p', hadvances, hrest⟩ := hpasses
    obtain ⟨hfirst, hopens⟩ := List.forall_mem_cons.1 hopens
    -- Where the source is dead, it does not matter that the filter may have dropped the line.
    have hread : (if d.isLive then ((stroke.meant t).declaration?.map Prod.snd).toList else [])
        = survived ((stroke.deed t).reads d.isLive) := by
      cases hlive : d.isLive with
      | true =>
        rw [h.meant_eq hadvances hlive, Deed.reads]
        cases (stroke.deed t).declaration? with
        | none => rfl
        | some found => rfl
      | false =>
        rw [Deed.reads]
        cases (stroke.deed t).declaration? with
        | none => rfl
        | some found => rfl
    rw [survivors, readFates, survived_append, hread, ih (h.step hadvances hfirst) hrest hopens]

end

/-! ## The declarations of a variant -/

/-- What becomes of the declarations of some strokes of a block, for a preprocessor that is behind its
start. -/
structure Settles (oracle : Oracle) (t : Substitution) (c : Preprocessor) (strokes : List Stroke) :
    Prop where
  /-- What arrives is part of what is handed on. -/
  among : (arrivals oracle t c strokes).Sublist (c.handed oracle (scriptText strokes))
  /-- Each declaration that is read has one fate. -/
  each : ((fates oracle t c [] strokes).map Fate.unwritten).Perm (readFates oracle t c strokes)
  arrive : arrivals oracle t c strokes = arrived (fates oracle t c [] strokes)
  survive : (survivors oracle t c strokes).Perm (survived (fates oracle t c [] strokes))
  /-- If each declaration arrives exactly if its source survives, the two are the same, as often. -/
  same : (∀ fate ∈ fates oracle t c [] strokes, fate.arrives = fate.survives) →
    (arrivals oracle t c strokes).Perm (survivors oracle t c strokes)

theorem Mirrors.settles {oracle : Oracle} {t : Substitution} {p q : Program} {c : Preprocessor}
    {strokes : List Stroke} (h : Mirrors oracle p c c) (hpasses : Passes t p strokes q)
    (hopens : ∀ stroke ∈ strokes, stroke.OpensPlain) (hdeferred : p.deferred = []) :
    Settles oracle t c strokes := by
  have hnone : ∀ fate ∈ ([] : List Fate), fate.arrives = false := fun _ h => by cases h
  have heach := fates_perm hnone oracle t c strokes
  have harrive : arrivals oracle t c strokes = arrived (fates oracle t c [] strokes) :=
    h.arrivals_eq hpasses hopens hdeferred hnone
  have hsurvive : (survivors oracle t c strokes).Perm (survived (fates oracle t c [] strokes)) := by
    rw [h.survivors_eq hpasses hopens, ← survived_unwritten (fates oracle t c [] strokes)]
    exact (heach.symm.filter _).map _
  refine ⟨arrivals_sublist oracle t c strokes, heach, harrive, hsurvive, fun hsame => ?_⟩
  have hlines : arrived (fates oracle t c [] strokes) = survived (fates oracle t c [] strokes) := by
    rw [arrived, survived, List.filter_congr hsame]
  rw [harrive, hlines]
  exact hsurvive.symm

/-- Whether up to any place in any program block, its declarations settle under all symbols that agree
with what is known at its start. -/
def SettlesDeclarations (r : Request) (script : List Stroke) : Prop :=
  ∀ above below, script = above ++ below → ∀ start inner, openBlock above = start :: inner →
    start :: inner <:+ above ∧ ∃ p, start.Starts r p ∧
      ∀ oracle : Oracle, oracle.IsSound p.filter.usage → ∀ σ : Symbols,
        (behindStart oracle σ start).symbols.Extends p.filter.defined →
          Settles oracle r.substitution (behindStart oracle σ start) inner

/-- **What becomes of declarations.**  In each program block of a variant, and for each preprocessor
that agrees with what the block knows of symbols, the declarations that are written in the place of
others and handed on are those that stand outside of constant buffers in live text, and those that
stand in a buffer whose end is live, whatever groups they stand in themselves.  So they are the
declarations of the source that the preprocessor hands on, as often, if each declaration in a buffer
is live exactly if the end of the buffer is.  This holds as long as no included file ends while the
signature of an entry point is held back, and no prologue of an entry point has a directive. -/
theorem declarations_of_variant {project : Project} {path : String} {shader : Shader} {o : Options}
    {g : GeneratedShader} (hread : Shader.read? project path = .ok shader)
    (hvariant : shader.variant o = .ok g) (horderly : Orderly g (Writer.moments shader o))
    (hreleases : ∀ m ∈ Writer.moments shader o, Releases m.before m.event)
    (hplain : ∀ m ∈ Writer.moments shader o, ∀ mark ∈ m.before.marks m.event, mark.IsPlain) :
    ∃ t script, Substitution.new shader o = .ok t ∧ IsScript g (Writer.moments shader o) script ∧
      SettlesDeclarations ⟨shader, o, t⟩ script := by
  obtain ⟨t, script, ht, hscript, hblocks⟩ := exists_blocks_of_variant hvariant horderly hreleases
  refine ⟨t, script, ht, hscript, ?_⟩
  rintro above below rfl start inner hstart
  obtain ⟨p₀, p, hstarts, hpasses⟩ := hblocks.passes above below rfl start inner hstart
  have hsuffix := openBlock_suffix above
  rw [hstart] at hsuffix
  refine ⟨hsuffix, p₀, hstarts, fun oracle horacle σ hσ => ?_⟩
  exact (mirrors_of_starts (returnsCode_of_read hread) hstarts horacle hσ).settles hpasses
    (hscript.opensPlain_of_openBlock hplain hstart) (deferred_of_starts hstarts)

/-- A shader that declares a property in both arms of a group, in a constant buffer. -/
def declaredInBothArms : List String :=
  ["Shader \"S\"", "\x7b", "Properties", "\x7b", "_A (\"A\", Float) = 1", "\x7d", "CGPROGRAM",
    "#pragma vertex vert", "#pragma fragment frag", "CBUFFER_START(Mine)",
    "#ifdef USER", "half _A;", "#else", "float _A;", "#endif", "CBUFFER_END",
    "float4 vert() : SV_Position", "\x7b", "return 0;", "\x7d",
    "float4 frag() : SV_Target", "\x7b", "return _A;", "\x7d", "ENDCG", "\x7d"]

/-- Behind the buffer both declarations stand in live text. -/
theorem declarations_of_declaredInBothArms :
    ∃ shader g, Shader.read? (.ofFiles [("a.shader", declaredInBothArms)]) "a.shader" = .ok shader ∧
      shader.variant twoMaterials = .ok g ∧
      ["CBUFFER_START(Mine)", "#ifdef USER", "#else", "#endif", "CBUFFER_END", "static half _A;",
        "static float _A;"] <:+: g.inlined ∧
      ∃ t script, Substitution.new shader twoMaterials = .ok t ∧
        IsScript g (Writer.moments shader twoMaterials) script ∧
        SettlesDeclarations ⟨shader, twoMaterials, t⟩ script := by
  have hlines : (Project.ofFiles [("a.shader", declaredInBothArms)]).readLines? "a.shader"
      = some declaredInBothArms :=
    Project.readLines?_ofFiles (by decide +kernel) (by decide +kernel)
  have hcheck : (Shader.read? (.ofFiles [("a.shader", declaredInBothArms)]) "a.shader").toOption.any
      (fun shader => (shader.variant twoMaterials).toOption.any fun g : GeneratedShader =>
        decide (["CBUFFER_START(Mine)", "#ifdef USER", "#else", "#endif", "CBUFFER_END",
            "static half _A;", "static float _A;"] <:+: g.inlined) &&
          (decide (Orderly g (Writer.moments shader twoMaterials)) &&
            (decide (∀ m ∈ Writer.moments shader twoMaterials, Releases m.before m.event) &&
              decide (∀ m ∈ Writer.moments shader twoMaterials,
                ∀ mark ∈ m.before.marks m.event, mark.IsPlain))))
        = true := by
    rw [Shader.read?, Include.Sources.load, hlines]
    decide +kernel
  obtain ⟨shader, hread, hany⟩ := exists_ok_of_any hcheck
  obtain ⟨g, hvariant, hg⟩ := exists_ok_of_any hany
  rw [Bool.and_eq_true, Bool.and_eq_true, Bool.and_eq_true, decide_eq_true_eq, decide_eq_true_eq,
    decide_eq_true_eq, decide_eq_true_eq] at hg
  obtain ⟨hbehind, horderly, hreleases, hplain⟩ := hg
  exact ⟨shader, g, hread, hvariant, hbehind,
    declarations_of_variant hread hvariant horderly hreleases hplain⟩

end ShaderMerge.Variant
