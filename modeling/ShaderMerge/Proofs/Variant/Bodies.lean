import ShaderMerge.Proofs.Variant.Assignments
import ShaderMerge.Proofs.Variant.BodyEdit

/-!
# Bodies of entry points

The body of an entry point that is written anew goes from the brace behind its signature up to the brace
that closes it.  `openBody` follows it through the moments of a walk by its braces alone, and a program
block does the same with the number of its open braces (`Program.Tracks`).  So the edit of the entry
point is applied to the lines of its body and to no others (`bodies_of_variant`).
-/

namespace ShaderMerge.Variant

open Include (Walk Event Moment Run isProgramStart isBlockEnd)

/-! ## The body that is open -/

/-- The body of an entry point that is written anew, up to some place in it. -/
structure OpenBody where
  /-- The stage. -/
  stage : Stage
  /-- The lines of the signature in front of the body. -/
  source : List String
  /-- The entry point. -/
  entry : EntryPoint
  /-- The number of braces of the body that are open. -/
  depth : Nat

/-- The body behind one more line. -/
def OpenBody.behind (b : OpenBody) (line : String) : Option OpenBody :=
  if line = "\x7b" then some { b with depth := b.depth + 1 }
  else if line = "\x7d" ∨ line = "\x7d;" then
    if b.depth ≤ 1 then none else some { b with depth := b.depth - 1 }
  else some b

/-- The body that starts at a mark. -/
def Mark.body? : Mark → Option OpenBody
  | .entry stage source adapted => some ⟨stage, source, adapted, 1⟩
  | _ => none

/-- The line that a program block reads at a moment, if both the filter of the regions and the one of
the conditional groups let it through. -/
def readLine? (m : Moment Writer) : Option String :=
  match m.event with
  | .line _ _ => (m.before.blockLine? m.event).bind fun (p, text) =>
    if (p.filter.feed text).feed = .live then some text else none
  | _ => none

/-- The body that is open behind a moment. -/
def bodyBehind (body : Option OpenBody) (m : Moment Writer) : Option OpenBody :=
  match (m.before.marks m.event).findSome? Mark.body? with
  | some opened => some opened
  | none =>
    match readLine? m with
    | some line => body.bind (·.behind line)
    | none => body

/-- The body that is open behind some moments. -/
def openBody (moments : List (Moment Writer)) : Option OpenBody := moments.foldl bodyBehind none

/-! ## What a block knows of a body -/

namespace Program

/-- Whether a block knows the body that is open.  Only outside of all braces a signature is held
back. -/
def Tracks (p : Program) : Option OpenBody → Prop
  | none => p.body = none ∧ (p.pending.isSome = true → p.depth = 0)
  | some b => 0 < b.depth ∧ p.pending = none ∧
    (∃ plan, EntryPoint.adapt b.stage plan b.source = .ok b.entry) ∧
    ∃ outer : Int, 0 ≤ outer ∧ p.body = some (b.entry.body, outer) ∧ p.depth = outer + b.depth

/-- A block in the same body as another one. -/
structure SameBody (p q : Program) : Prop where
  body : q.body = p.body
  depth : q.depth = p.depth
  pending : q.pending.isSome = p.pending.isSome

variable {t : Substitution} {p q : Program} {line : String} {body : Option OpenBody} {b : OpenBody}
  {out : Program × List String}

theorem SameBody.trans {p' : Program} (h : SameBody p q) (h' : SameBody q p') : SameBody p p' :=
  ⟨h'.body.trans h.body, h'.depth.trans h.depth, h'.pending.trans h.pending⟩

theorem Tracks.congr (h : p.Tracks body) (hsame : SameBody p q) : q.Tracks body := by
  cases body with
  | none =>
    refine ⟨hsame.body.trans h.1, fun hpending => hsame.depth.trans (h.2 ?_)⟩
    rwa [← hsame.pending]
  | some b =>
    obtain ⟨hopen, hpending, hadapt, outer, houter, hbody, hdepth⟩ := h
    refine ⟨hopen, ?_, hadapt, outer, houter, hsame.body.trans hbody, hsame.depth.trans hdepth⟩
    have hnone := hsame.pending
    rw [hpending] at hnone
    exact Option.not_isSome_iff_eq_none.1 (Bool.eq_false_iff.1 hnone)

theorem sameBody_write (p : Program) (lines : List String) : SameBody p (p.write lines).1 := by
  rw [write]
  split
  · rename_i pending hpending
    exact ⟨rfl, rfl, by rw [hpending]; rfl⟩
  · exact ⟨rfl, rfl, rfl⟩

theorem sameBody_feed (p : Program) (line : String) : SameBody p (p.feed line).1 :=
  SameBody.trans (q := { p with filter := (p.filter.feed line).filter }) ⟨rfl, rfl, rfl⟩
    (sameBody_write _ _)

theorem tracks_new (o : Options) (index : Nat) (pass : Pass) (plan : Plan) :
    (Program.new o index pass plan).Tracks none :=
  ⟨rfl, fun _ => rfl⟩

/-! ## Lines of a body -/

/-- What a block writes for a line of a body: a brace stays in front of declarations that may have been
held back, a directive stays, and a statement is edited. -/
structure Edits (edit : BodyEdit) (line : String) (lines : List String) : Prop where
  brace : line = "\x7b" ∨ line = "\x7d" ∨ line = "\x7d;" → lines.head? = some line
  directive : Directive.isMarked line = true → lines = [line]
  statement : ¬(line = "\x7b" ∨ line = "\x7d" ∨ line = "\x7d;") → Directive.isMarked line = false →
    lines = [edit.apply line]

theorem edits_brace {edit : BodyEdit} {rest : List String}
    (hbrace : line = "\x7b" ∨ line = "\x7d" ∨ line = "\x7d;") : Edits edit line (line :: rest) where
  brace _ := rfl
  directive hmarked := by rcases hbrace with rfl | rfl | rfl <;> exact absurd hmarked (by decide)
  statement hnone := absurd hbrace hnone

theorem openBrace_spec (p : Program) (line : String) :
    (p.openBrace line).2 = [line] ∧ (p.openBrace line).1.body = p.body ∧
      (p.openBrace line).1.pending = p.pending ∧ (p.openBrace line).1.depth = p.depth + 1 := by
  simp only [openBrace]
  split <;> exact ⟨rfl, rfl, rfl, rfl⟩

theorem closeBrace_spec (p : Program) (line : String) :
    (∃ rest, (p.closeBrace line).2 = line :: rest) ∧
      (p.closeBrace line).1.body = p.body.filter (fun body => decide (body.2 < p.depth - 1)) ∧
      (p.closeBrace line).1.pending = p.pending ∧ (p.closeBrace line).1.depth = p.depth - 1 := by
  simp only [closeBrace]
  split
  · exact ⟨⟨_, rfl⟩, rfl, rfl, rfl⟩
  · exact ⟨⟨[], rfl⟩, rfl, rfl, rfl⟩

/-- **A step in a body**: what is written for a line that the filter lets through, and where the body
ends. -/
theorem edits_liveLine (h : p.Tracks (some b)) (hread : p.liveLine t line = .ok out) :
    Edits b.entry.body line out.2 ∧ out.1.Tracks (b.behind line) := by
  obtain ⟨hopen, hpending, hadapt, outer, houter, hbody, hdepth⟩ := h
  have hsame : ∀ q : Program, SameBody p q → q.Tracks (some b) :=
    fun q => Tracks.congr ⟨hopen, hpending, hadapt, outer, houter, hbody, hdepth⟩
  rw [liveLine.eq_def] at hread
  split at hread
  · rename_i hmarked
    cases hread
    have hbrace : ¬(line = "\x7b" ∨ line = "\x7d" ∨ line = "\x7d;") := by
      rintro (rfl | rfl | rfl) <;> exact absurd hmarked (by decide)
    have hwrite : p.write [line] = (p, [line]) := by rw [write, hpending]
    obtain ⟨hopening, hclosing⟩ := not_or.1 hbrace
    rw [hwrite, OpenBody.behind, if_neg hopening, if_neg hclosing]
    exact ⟨⟨fun h => absurd h hbrace, fun _ => rfl, fun _ hcode => by rw [hmarked] at hcode; cases hcode⟩,
      hsame p ⟨rfl, rfl, rfl⟩⟩
  · rename_i hmarked
    rw [hpending] at hread
    cases hread
    split
    · rename_i hbrace
      obtain ⟨hwritten, hbody', hpending', hdepth'⟩ := p.openBrace_spec line
      rw [hwritten, OpenBody.behind, if_pos hbrace]
      refine ⟨edits_brace (.inl hbrace), Nat.succ_pos _, hpending'.trans hpending, hadapt, outer, houter,
        hbody'.trans hbody, ?_⟩
      rw [hdepth', hdepth]
      push_cast
      omega
    · rename_i hopening
      split
      · rename_i hclosing
        rw [Bool.or_eq_true, decide_eq_true_eq, decide_eq_true_eq] at hclosing
        obtain ⟨⟨rest, hwritten⟩, hbody', hpending', hdepth'⟩ := p.closeBrace_spec line
        rw [hwritten, OpenBody.behind, if_neg hopening, if_pos hclosing]
        refine ⟨edits_brace (.inr hclosing), ?_⟩
        rw [hbody, hdepth, Option.filter] at hbody'
        rw [hpending] at hpending'
        split
        · -- The brace is the one that closes the body.
          rename_i hlast
          refine ⟨?_, fun hsome => by rw [hpending'] at hsome; cases hsome⟩
          rw [hbody', if_neg (by simp; omega)]
        · rename_i hinner
          refine ⟨by simp; omega, hpending', hadapt, outer, houter, ?_, ?_⟩
          · rw [hbody', if_pos (by simp; omega)]
          · rw [hdepth', hdepth]
            dsimp only
            omega
      · rename_i hclosing
        rw [Bool.or_eq_true, decide_eq_true_eq, decide_eq_true_eq] at hclosing
        have hstatement : p.statement t line = (p, [b.entry.body.apply line]) := by
          rw [statement, hbody]
        rw [hstatement, OpenBody.behind, if_neg hopening, if_neg hclosing]
        refine ⟨⟨fun h => ?_, fun h => absurd h hmarked, fun _ _ => rfl⟩, hsame p ⟨rfl, rfl, rfl⟩⟩
        exact absurd h (not_or.2 ⟨hopening, hclosing⟩)

/-! ## Lines outside of bodies -/

theorem body?_opened (p : Program) (line : String) : (p.opened line).findSome? Mark.body? =
    p.pending.bind fun pending =>
      if line = "\x7b" ∧ ¬0 < pending.depth then
        match EntryPoint.adapt pending.stage p.plan pending.lines with
        | .error _ => none
        | .ok entry => some ⟨pending.stage, pending.lines, entry, 1⟩
      else none := by
  have hdefinitions : ∀ carriers : List Carrier,
      (carriers.map Mark.definition).findSome? Mark.body? = none := by
    intro carriers
    rw [List.findSome?_eq_none_iff]
    exact List.forall_mem_map.2 fun _ _ => rfl
  rw [opened.eq_def]
  cases p.pending with
  | none => rfl
  | some pending =>
    dsimp only [Option.bind_some]
    split
    · cases EntryPoint.adapt pending.stage p.plan pending.lines with
      | error e => rfl
      | ok entry =>
        rw [List.findSome?_append, hdefinitions]
        rfl
    · rfl

theorem sameBody_globalLine (t : Substitution) (p : Program) (line : String) :
    SameBody p (p.globalLine t line).1 := by
  have hrest : ∀ q : Program, SameBody p q → SameBody p (if q.isAtDeclarations then
      if t.declaresTexture line then (q, []) else (q.declaration? t line).getD (q, [line])
      else (q, [line])).1 := by
    intro q hsame
    split
    · split
      · exact hsame
      · rw [declaration?_eq]
        cases t.redeclare? line with
        | none => exact hsame
        | some found =>
          dsimp only [Option.map_some, Option.getD_some]
          split
          · exact hsame.trans ⟨rfl, rfl, rfl⟩
          · exact hsame.trans ⟨rfl, rfl, rfl⟩
    · exact hsame
  simp only [globalLine]
  split
  · exact hrest _ ⟨rfl, rfl, rfl⟩
  · exact hrest p ⟨rfl, rfl, rfl⟩

/-- A signature is held back from a line outside of all braces on. -/
theorem depth_of_entryStart? {stage : Stage} (h : p.entryStart? line = some stage) : p.depth = 0 := by
  simp only [entryStart?] at h
  split at h
  · rename_i hstart
    rw [Bool.and_eq_true, decide_eq_true_eq] at hstart
    exact hstart.1
  · cases h

theorem tracks_statement (h : p.Tracks none) (t : Substitution) (line : String) :
    (p.statement t line).1.Tracks none := by
  rw [statement.eq_def]
  split
  · rename_i hbody
    rw [h.1] at hbody
    cases hbody
  · split
    · rename_i stage hstart
      exact ⟨h.1, fun _ => depth_of_entryStart? hstart⟩
    · split
      · exact h.congr ⟨rfl, rfl, rfl⟩
      · split
        · exact h.congr ⟨rfl, rfl, rfl⟩
        · exact h.congr (sameBody_globalLine t p line)

/-- **A step outside of bodies**: a body starts with an entry point that is written anew. -/
theorem tracks_liveLine (h : p.Tracks none) (hread : p.liveLine t line = .ok out) :
    out.1.Tracks ((p.opened line).findSome? Mark.body?) := by
  have hsame : ∀ q : Program, q.body = none → q.pending = none → q.Tracks none :=
    fun q hbody hnone => ⟨hbody, fun hsome => by rw [hnone] at hsome; cases hsome⟩
  rw [body?_opened]
  rw [liveLine.eq_def] at hread
  split at hread
  · rename_i hmarked
    cases hread
    have hbrace : line ≠ "\x7b" := by
      rintro rfl
      exact absurd hmarked (by decide)
    have hnone : (p.pending.bind fun pending =>
        if line = "\x7b" ∧ ¬0 < pending.depth then
          match EntryPoint.adapt pending.stage p.plan pending.lines with
          | .error _ => none
          | .ok entry => some ⟨pending.stage, pending.lines, entry, 1⟩
        else none) = (none : Option OpenBody) := by
      cases p.pending with
      | none => rfl
      | some pending => exact if_neg fun hopens => hbrace hopens.1
    rw [hnone]
    exact h.congr (sameBody_write p [line])
  · split at hread
    · rename_i pending hpending
      rw [hpending, Option.bind_some]
      have hdepth : p.depth = 0 := h.2 (by rw [hpending]; rfl)
      have hheld : ∀ q : Program, q.body = p.body → q.depth = p.depth → q.Tracks none :=
        fun q hbody hsame => ⟨hbody.trans h.1, fun _ => hsame.trans hdepth⟩
      simp only [signatureLine] at hread
      split at hread
      · rename_i hparen
        cases hread
        rw [if_neg fun hopens => hopens.2 hparen]
        exact hheld _ rfl rfl
      · rename_i hparen
        split at hread
        · rename_i hbrace
          rw [if_pos ⟨hbrace, hparen⟩]
          rw [enter] at hread
          obtain ⟨entry, hadapt, hread⟩ := exists_ok_of_bind hread
          cases hread
          rw [hadapt]
          refine ⟨Nat.one_pos, rfl, ⟨_, hadapt⟩, p.depth, Int.le_of_eq hdepth.symm, rfl, rfl⟩
        · rename_i hbrace
          rw [if_neg fun hopens => hbrace hopens.1]
          split at hread
          · cases hread
            exact hheld _ rfl rfl
          · cases hread
            exact hheld _ rfl rfl
    · rename_i hpending
      rw [hpending, Option.bind_none]
      cases hread
      split
      · obtain ⟨-, hbody, hpending', -⟩ := p.openBrace_spec line
        exact hsame _ (hbody.trans h.1) (hpending'.trans hpending)
      · split
        · obtain ⟨-, hbody, hpending', -⟩ := p.closeBrace_spec line
          rw [h.1] at hbody
          exact hsame _ hbody (hpending'.trans hpending)
        · exact tracks_statement h t line

/-- **A line of a block**, in a body or outside of bodies. -/
theorem tracks_line (h : p.Tracks body) (hread : p.line t line = .ok out) :
    out.1.Tracks (match (p.entered line).findSome? Mark.body? with
      | some opened => some opened
      | none => if (p.filter.feed line).feed = .live then body.bind (·.behind line) else body) := by
  cases hfeed : (p.filter.feed line).feed with
  | consumed =>
    have hentered : p.entered line = [] := by rw [entered, feed_of_consumed hfeed]
    rw [Program.line, feed_of_consumed hfeed] at hread
    cases hread
    rw [hentered]
    exact h.congr (sameBody_feed p line)
  | live =>
    have hentered : p.entered line = p.opened line := by rw [entered, feed_of_live hfeed]; rfl
    rw [Program.line, feed_of_live hfeed] at hread
    obtain ⟨out', hlive, heq⟩ := exists_ok_of_map hread
    have hout : out' = out := by rw [← heq]; rfl
    subst hout
    rw [hentered, if_pos rfl]
    have hfed := h.congr (q := { p with filter := (p.filter.feed line).filter }) ⟨rfl, rfl, rfl⟩
    cases body with
    | none =>
      have htracks := tracks_liveLine hfed hlive
      have hsame : ({ p with filter := (p.filter.feed line).filter } : Program).opened line
          = p.opened line := rfl
      rw [hsame] at htracks
      cases hopened : (p.opened line).findSome? Mark.body? with
      | none => rwa [hopened] at htracks
      | some opened => rwa [hopened] at htracks
    | some b =>
      rw [body?_opened, h.2.1]
      exact (edits_liveLine hfed hlive).2

end Program

/-! ## Events -/

namespace Writer

/-- Whether a writer knows the body that is open; outside of program blocks there is none. -/
def Tracks (w : Writer) (body : Option OpenBody) : Prop :=
  match w.program with
  | none => body = none
  | some p => p.Tracks body

variable {r : Request} {w w' : Writer} {walk walk' : Walk} {event : Event} {body : Option OpenBody}
  {p q : Program} {line : String}

theorem tracks_of_some (h : w.Tracks body) (hprogram : w.program = some p) : p.Tracks body := by
  rwa [Tracks, hprogram] at h

theorem Tracks.congr (h : w.Tracks body) (hnone : w.program = none → w'.program = none)
    (hsome : ∀ p, w.program = some p → ∃ q, w'.program = some q ∧ Program.SameBody p q) :
    w'.Tracks body := by
  rw [Tracks] at h ⊢
  cases hprogram : w.program with
  | none =>
    rw [hprogram] at h
    rwa [hnone hprogram]
  | some p =>
    rw [hprogram] at h
    obtain ⟨q, hq, hsame⟩ := hsome p hprogram
    rw [hq]
    exact h.congr hsame

theorem Tracks.write (h : w.Tracks body) (lines : List String) : (w.write lines).Tracks body := by
  refine h.congr (fun hnone => ?_) fun p hsome => ?_
  · rw [write_of_none hnone, put_program, hnone]
  · rw [write_of_some hsome, put_program]
    exact ⟨_, rfl, Program.sameBody_write p lines⟩

theorem tracks_feedRegions (h : w.Tracks body) (line : String) :
    (w.feedRegions line).1.Tracks body := by
  have hfed : ({ w with regions := (w.regions.feed line).filter } : Writer).Tracks body := h
  exact hfed.write _

theorem tracks_liveInclude (h : w.Tracks body) (directive : String) (target : Option String) :
    (w.liveInclude directive target).1.Tracks body := by
  rw [liveInclude]
  split
  · rename_i hprogram
    refine h.congr (fun hnone => put_program.trans hnone) fun p hsome => ?_
    rw [hprogram] at hsome
    cases hsome
  · rename_i p hprogram
    dsimp only
    have hfed : ({ w with program := some (p.feed directive).1 }.put
        (p.feed directive).2.1).Tracks body := by
      refine h.congr (fun hnone => ?_) fun p' hsome => ?_
      · rw [hprogram] at hnone
        cases hnone
      · rw [hprogram] at hsome
        cases hsome
        exact ⟨_, put_program, p.sameBody_feed directive⟩
    split
    · exact hfed
    · exact hfed
    · exact hfed.write _

/-- A line that the filter of the regions lets through. -/
theorem tracks_line {file : String} (h : w.Tracks body) (hfeed : (w.regions.feed line).feed = .live)
    (hread : w.line r line = .ok w') :
    w'.Tracks (bodyBehind body ⟨w, .line file line, walk, w'⟩) := by
  have hline : w.blockLine? (.line file line)
      = if isBlockEnd line = false then w.program.map (·, line) else none := by
    rw [blockLine?]
    simp only [hfeed, true_and]
  have hmarks : w.marks (.line file line) = match w.program with
      | none => if isProgramStart line then [.block w.programs] else []
      | some p => p.entered line := by
    rw [marks, hfeed]
    cases w.program <;> rfl
  rcases line_of_live hfeed hread with ⟨p, hprogram, hread⟩ | ⟨hprogram, hread⟩
  · have htracks := tracks_of_some h hprogram
    cases hend : isBlockEnd line with
    | true =>
      rw [programLine, if_pos hend] at hread
      obtain ⟨held, report, hfinish, rfl⟩ := endProgram_eq hread
      -- No body is open where all braces are closed.
      have hdepth : p.depth = 0 := by
        rw [Program.finish] at hfinish
        split at hfinish
        · cases hfinish
        · rename_i hzero
          simpa using hzero
      have hnone : body = none := by
        cases body with
        | none => rfl
        | some b =>
          obtain ⟨hopen, -, -, outer, houter, -, hsame⟩ := htracks
          omega
      have hbrace : line ≠ "\x7b" := by
        rintro rfl
        exact absurd hend (by decide)
      have hentered : p.entered line = [] ∨ p.entered line = p.opened line := by
        cases hfed : (p.filter.feed line).feed with
        | consumed => exact .inl (by rw [Program.entered, Program.feed_of_consumed hfed])
        | live => exact .inr (by rw [Program.entered, Program.feed_of_live hfed]; rfl)
      have hopened : (p.entered line).findSome? Mark.body? = none := by
        rcases hentered with heq | heq
        · rw [heq]
          rfl
        · rw [heq, Program.body?_opened]
          cases p.pending with
          | none => rfl
          | some pending => exact if_neg fun hopens => hbrace hopens.1
      rw [hprogram] at hmarks
      rw [hend, if_neg Bool.noConfusion] at hline
      rw [Tracks, put_program]
      simp only [bodyBehind, hmarks, hopened, readLine?, hline, Option.bind_none, hnone]
    | false =>
      obtain ⟨q, written, hstep, rfl⟩ := programLine_eq hend hread
      have hnext := Program.tracks_line htracks hstep
      rw [hprogram] at hmarks
      rw [hend, if_pos rfl, hprogram, Option.map_some] at hline
      rw [Tracks, put_program]
      simp only [bodyBehind, hmarks, readLine?, hline, Option.bind_some]
      cases hopened : (p.entered line).findSome? Mark.body? with
      | some opened => rwa [hopened] at hnext
      | none =>
        rw [hopened] at hnext
        dsimp only at hnext ⊢
        split at hnext
        · rename_i hlive
          rwa [if_pos hlive]
        · rename_i hlive
          rwa [if_neg hlive]
  · have hnone : body = none := by rwa [Tracks, hprogram] at h
    have hbehind : bodyBehind body ⟨w, .line file line, walk, w'⟩ = none := by
      have hclosed : w.blockLine? (.line file line) = none := by
        rw [hline, hprogram]
        split <;> rfl
      have hmark : (w.marks (.line file line)).findSome? Mark.body? = none := by
        rw [hmarks, hprogram]
        dsimp only
        split <;> rfl
      simp only [bodyBehind, hmark, readLine?, hclosed, Option.bind_none, hnone]
    rw [hbehind, Tracks]
    cases hstart : isProgramStart line with
    | true =>
      rw [outerLine, if_pos hstart] at hread
      obtain ⟨plan, -, rfl⟩ := startProgram_eq hread
      exact Program.tracks_new _ _ _ _
    | false =>
      have hkeeps := (keeps_outerLine hstart hread).program
      rw [hprogram] at hkeeps
      have hclosed := Option.not_isSome_iff_eq_none.1 (Bool.eq_false_iff.1 hkeeps)
      rw [hclosed]

/-- **A step of a writer.** -/
theorem tracks_event (h : w.Tracks body) (hread : Writer.event r w walk event = .ok (w', walk')) :
    w'.Tracks (bodyBehind body ⟨w, event, walk, w'⟩) := by
  cases event with
  | line file text =>
    obtain ⟨w₁, hline, heq⟩ := exists_ok_of_map hread
    cases heq
    cases hfeed : (w.regions.feed text).feed with
    | consumed =>
      have hmarks : w.marks (.line file text) = [] := by rw [marks, hfeed]
      have hnone : w.blockLine? (.line file text) = none := by
        rw [blockLine?, if_neg fun h => by rw [hfeed] at h; cases h.1]
      rw [line_of_consumed hfeed hline]
      simp only [bodyBehind, hmarks, List.findSome?_nil, readLine?, hnone, Option.bind_none]
      exact tracks_feedRegions h text
    | live => exact tracks_line h hfeed hline
  | include_ file directive target =>
    change w'.Tracks body
    have hlive := tracks_liveInclude h directive target
    cases includes_of_event hread with
    | consumed => exact tracks_feedRegions h directive
    | kept => exact hlive
    | repeated => exact hlive
    | opened => exact hlive
  | endInclude directive target =>
    cases hread
    change (w.endInclude target).Tracks body
    rw [endInclude]
    split
    · exact h
    · rename_i lines outer _
      have hclosed : ∀ chunks : List GeneratedFile,
          ({ w with nested := outer, chunks } : Writer).Tracks body := fun _ => h
      exact (hclosed _).write _

/-- **A run of a writer** follows the bodies of the entry points by their braces. -/
theorem tracks_of_run {moments : List (Moment Writer)}
    (hrun : Run r.shader.sources (Writer.event r) w walk moments w' walk') (h : w.Tracks body) :
    w'.Tracks (moments.foldl bodyBehind body) := by
  induction hrun generalizing body with
  | nil => exact h
  | cons next step_eq rest ih => exact ih (tracks_event h step_eq)

/-- What a program block writes for a line stands behind what has been written. -/
theorem exists_written {m : Moment Writer} (hline : readLine? m = some line)
    (hread : Writer.event r m.before m.walk m.event = .ok (m.after, walk')) :
    ∃ p q written, m.before.program = some p ∧
      Program.liveLine r.substitution { p with filter := (p.filter.feed line).filter } line
        = .ok (q, written) ∧ m.after.written = m.before.written ++ written := by
  rw [readLine?] at hline
  cases hevent : m.event with
  | line file text =>
    rw [hevent] at hline hread
    obtain ⟨⟨p, text'⟩, hblock, hlive⟩ := Option.bind_eq_some_iff.1 hline
    dsimp only at hlive
    split at hlive
    · rename_i hfed
      cases hlive
      rw [blockLine?] at hblock
      split at hblock
      · rename_i hopen
        obtain ⟨p', hprogram, heq⟩ := Option.map_eq_some_iff.1 hblock
        cases heq
        obtain ⟨w₁, hstep, heq⟩ := exists_ok_of_map hread
        cases heq
        rcases line_of_live hopen.1 hstep with ⟨p'', hsame, hstep⟩ | ⟨hnone, -⟩
        · rw [hprogram] at hsame
          cases hsame
          obtain ⟨q, written, hread, hafter⟩ := programLine_eq hopen.2 hstep
          rw [Program.line, Program.feed_of_live hfed] at hread
          obtain ⟨⟨q', more⟩, hlive, heq⟩ := exists_ok_of_map hread
          cases heq
          exact ⟨p, q, more, hprogram, hlive, by rw [hafter, written_put]; rfl⟩
        · rw [hnone] at hprogram
          cases hprogram
      · cases hblock
    · cases hlive
  | include_ =>
    rw [hevent] at hline
    cases hline
  | endInclude =>
    rw [hevent] at hline
    cases hline

end Writer

/-! ## The bodies of a variant -/

/-- What is edited in the body of an entry point of a stage, given the lines of its signature: return
statements where a carrier wraps what the vertex stage returns, and calls on the first stream among the
parameters of a geometry stage. -/
def EditsFor (stage : Stage) (source : List String) (entry : EntryPoint) (line edited : String) : Prop :=
  match stage with
  | .vertex =>
    if entry.carriers = [] then edited = line
    else BodyEdit.WrapsReturn line.toList edited.toList
  | .geometry => ∃ s stream vertex, Signature.ofText? (EntryPoint.codeOf source).toList source = some s ∧
    s.stream? = some (stream, vertex) ∧ BodyEdit.WrapsAppend stream line.toList edited.toList
  | _ => edited = line

theorem EntryPoint.body_of_geometry {p : Plan} {s : Signature} {lines : List String}
    {entry : EntryPoint} (h : geometry p s lines = .ok entry) :
    ∃ stream vertex, s.stream? = some (stream, vertex) ∧ entry.body = .wrapAppend stream := by
  rw [geometry] at h
  cases hfault : geometryOrFault p s lines with
  | error fault =>
    rw [hfault] at h
    cases h
  | ok adapted =>
    rw [hfault] at h
    cases h
    rw [geometryOrFault.eq_def] at hfault
    split at hfault
    · obtain ⟨_, -, hfault⟩ := exists_ok_of_bind hfault
      obtain ⟨⟨stream, vertex⟩, hstream, hfault⟩ := exists_ok_of_bind hfault
      obtain ⟨_, -, hfault⟩ := exists_ok_of_bind hfault
      obtain ⟨_, -, hfault⟩ := exists_ok_of_bind hfault
      cases hfault
      refine ⟨stream, vertex, ?_, rfl⟩
      cases hfound : s.stream? with
      | none =>
        rw [hfound] at hstream
        cases hstream
      | some found =>
        rw [hfound] at hstream
        cases hstream
        rfl
    · cases hfault

/-- The edit of an entry point is the one for its stage. -/
theorem editsFor_of_adapt {stage : Stage} {plan : Plan} {source : List String} {entry : EntryPoint}
    (h : EntryPoint.adapt stage plan source = .ok entry) (line : String) :
    EditsFor stage source entry line (entry.body.apply line) := by
  rw [EntryPoint.adapt] at h
  dsimp only at h
  split at h
  · cases h
  · rename_i s hs
    cases stage with
    | vertex =>
      rw [EditsFor]
      simp only [EntryPoint.vertex] at h
      split at h
      · cases h
      · cases h
        dsimp only
        cases (if plan.carries then plan.vertexCarrier else none) with
        | none => rfl
        | some carrier =>
          rw [if_neg (by simp)]
          simp only [Option.isSome_some, if_true, BodyEdit.apply, String.toList_ofList]
          exact BodyEdit.wrapsReturn_wrapReturnIn line.toList
    | geometry =>
      obtain ⟨stream, vertex, hstream, hbody⟩ := EntryPoint.body_of_geometry h
      refine ⟨s, stream, vertex, hs, hstream, ?_⟩
      rw [hbody, BodyEdit.apply, String.toList_ofList]
      exact BodyEdit.wrapsAppend_wrapAppendIn stream line.toList
    | hull =>
      cases h
      rfl
    | domain =>
      cases h
      rfl
    | fragment =>
      cases h
      change (EntryPoint.fragment plan s _).body.apply line = line
      rw [EntryPoint.fragment]
      split <;> rfl

/-- Whether the body of each entry point that is written anew is edited, from its first line to its
last. -/
structure EditsBodies (moments : List (Moment Writer)) : Prop where
  opens : ∀ above m below, moments = above ++ m :: below →
    ∀ stage source entry, .entry stage source entry ∈ m.before.marks m.event →
      openBody (above ++ [m]) = some ⟨stage, source, entry, 1⟩
  leaves : ∀ above m below, moments = above ++ m :: below →
    ∀ b line, openBody above = some b → readLine? m = some line →
      ∃ lines, m.after.written = m.before.written ++ lines ∧
        Program.Edits b.entry.body line lines ∧
        EditsFor b.stage b.source b.entry line (b.entry.body.apply line)

/-- The body of an entry point starts with it. -/
theorem body?_of_entry {m : Moment Writer} {stage : Stage} {source : List String} {entry : EntryPoint}
    (h : .entry stage source entry ∈ m.before.marks m.event) :
    (m.before.marks m.event).findSome? Mark.body? = some ⟨stage, source, entry, 1⟩ := by
  cases hevent : m.event with
  | line file line =>
    rw [hevent, Writer.marks] at h
    rw [Writer.marks]
    split at h
    · cases h
    · split at h
      · cases List.mem_singleton.1 h
      · cases h
    · rename_i p _ _
      rw [Program.entered.eq_def] at h ⊢
      cases hlive : (p.filter.feed line).feed with
      | consumed =>
        rw [Program.feed_of_consumed hlive] at h
        cases h
      | live =>
        rw [Program.feed_of_live hlive] at h ⊢
        have hopened : .entry stage source entry ∈ p.opened line := h
        obtain ⟨pending, hpending, hdepth, rfl, hadapt⟩ := Program.exists_pending_of_mem_opened hopened
        have hbody := p.body?_opened "\x7b"
        rw [hpending, Option.bind_some, if_pos ⟨rfl, hdepth⟩, hadapt] at hbody
        have hsame : pending.stage = stage ∧ pending.lines = source := by
          rw [Program.opened, hpending] at hopened
          dsimp only at hopened
          rw [if_pos ⟨rfl, hdepth⟩, hadapt, List.mem_append, List.mem_singleton, List.mem_map]
            at hopened
          rcases hopened with ⟨carrier, -, hcarrier⟩ | hentry
          · cases hcarrier
          · cases hentry
            exact ⟨rfl, rfl⟩
        obtain ⟨rfl, rfl⟩ := hsame
        exact hbody
  | include_ => rw [hevent] at h; cases h
  | endInclude => rw [hevent] at h; cases h

/-- **The bodies of entry points that are written anew are edited line by line.**  In a vertex stage whose
output a carrier wraps, the value of a return statement is wrapped once if the statement ends with its
line and blanks stand in front of the value; in a geometry stage the argument of the first call on the
stream is, if its parenthesis closes on the line.  All other lines of the bodies stay: so does a return
statement with its value directly behind the keyword, or one that goes on over several lines, and a
second call on one line. -/
theorem bodies_of_variant {shader : Shader} {o : Options} {g : GeneratedShader}
    (hvariant : shader.variant o = .ok g) : EditsBodies (Writer.moments shader o) := by
  obtain ⟨t, w, walk, -, hrun, -⟩ := Writer.writes_moments hvariant
  let r : Request := ⟨shader, o, t⟩
  have hnew : (Writer.new r).Tracks none := rfl
  refine ⟨?_, ?_⟩
  · rintro above m below - stage source entry hentry
    rw [openBody, List.foldl_append, List.foldl_cons, List.foldl_nil, bodyBehind,
      body?_of_entry hentry]
  · intro above m below heq b line hopen hline
    rw [heq] at hrun
    obtain ⟨walk₀, walk₂, hfirst, -, hstep, -⟩ := hrun.split
    have htracks : m.before.Tracks (openBody above) :=
      Writer.tracks_of_run (r := r) hfirst hnew
    rw [hopen] at htracks
    obtain ⟨p, q, written, hprogram, hlive, hwritten⟩ := Writer.exists_written (r := r) hline hstep
    have hbody := Writer.tracks_of_some htracks hprogram
    obtain ⟨plan, hadapt⟩ := hbody.2.2.1
    have hfed : ({ p with filter := (p.filter.feed line).filter } : Program).Tracks (some b) := hbody
    exact ⟨written, hwritten, (Program.edits_liveLine hfed hlive).1, editsFor_of_adapt hadapt line⟩

/-- A shader whose stages hand their outputs over in several forms. -/
def handedOverInSeveralForms : List String :=
  ["Shader \"S\"", "\x7b", "Properties", "\x7b", "_A (\"A\", Float) = 1", "\x7d", "CGPROGRAM",
    "#pragma vertex vert", "#pragma geometry geom", "#pragma fragment frag",
    "v2f vert(float4 p : POSITION)", "\x7b", "v2f o;", "if (p.x < 0) return(o);", "return o;", "\x7d",
    "void geom(triangle v2f i[3], inout TriangleStream<v2f> s)", "\x7b",
    "s.Append(i[0]), s.Append(i[1]);", "\x7d",
    "float4 frag(v2f i) : SV_Target", "\x7b", "return 1;", "\x7d", "ENDCG", "\x7d"]

/-- The value behind the keyword and a blank is wrapped, and so is the argument of the first call; the
value directly behind the keyword and the argument of the second call are not. -/
theorem bodies_of_handedOverInSeveralForms :
    ∃ shader g, Shader.read? (.ofFiles [("a.shader", handedOverInSeveralForms)]) "a.shader" = .ok shader ∧
      shader.variant twoMaterials = .ok g ∧
      ["if (p.x < 0) return(o);", "return optimizerWrapVertexOutput(o, optimizerPackedID);"]
        <:+: g.inlined ∧
      "s.Append(optimizerWrapGeometryOutput(i[0], optimizerPackedID)), s.Append(i[1]);" ∈ g.inlined ∧
      EditsBodies (Writer.moments shader twoMaterials) := by
  have hlines : (Project.ofFiles [("a.shader", handedOverInSeveralForms)]).readLines? "a.shader"
      = some handedOverInSeveralForms :=
    Project.readLines?_ofFiles (by decide +kernel) (by decide +kernel)
  have hcheck : (Shader.read? (.ofFiles [("a.shader", handedOverInSeveralForms)])
      "a.shader").toOption.any (fun shader => (shader.variant twoMaterials).toOption.any
        fun g : GeneratedShader =>
          decide (["if (p.x < 0) return(o);",
              "return optimizerWrapVertexOutput(o, optimizerPackedID);"] <:+: g.inlined ∧
            "s.Append(optimizerWrapGeometryOutput(i[0], optimizerPackedID)), s.Append(i[1]);"
              ∈ g.inlined)) = true := by
    rw [Shader.read?, Include.Sources.load, hlines]
    decide +kernel
  obtain ⟨shader, hread, hany⟩ := exists_ok_of_any hcheck
  obtain ⟨g, hvariant, hg⟩ := exists_ok_of_any hany
  obtain ⟨hvertex, hgeometry⟩ := of_decide_eq_true hg
  exact ⟨shader, g, hread, hvariant, hvertex, hgeometry, bodies_of_variant hvariant⟩

end ShaderMerge.Variant
