import ShaderMerge.Proofs.Variant.Deeds
import ShaderMerge.Proofs.Variant.Script
import ShaderMerge.Proofs.Variant.Untouched

/-!
# What a program block reads

A stroke of a script may read a line in a program block: the line of its moment, if the filter of the
regions lets it through.  From one stroke to the next the block changes by that line and nothing else
(`Stroke.Advances`): its filter is fed the line, what it remembers of declarations changes by the deed
of the line, and the directives that it writes or holds back are those that its filter keeps.

The strokes of a block from its start on lead from the new block to the one that is open behind them
(`exists_blocks_of_variant`).  So what is to be shown of a block is shown along its strokes.
-/

namespace ShaderMerge.Variant

open Include (Walk Event Moment Run isProgramStart isBlockEnd)
open Condition (directives)

/-! ## Lines of a block -/

/-- The line that the open program block reads in an event, if the filter of the regions lets it
through.  The line that ends the block is none. -/
def Writer.blockLine? (w : Writer) : Event → Option (Program × String)
  | .line _ text =>
    if (w.regions.feed text).feed = .live ∧ isBlockEnd text = false then
      w.program.map (·, text)
    else none
  | .include_ _ directive _ =>
    if (w.regions.feed directive).feed = .live then w.program.map (·, directive) else none
  | .endInclude _ _ => none

namespace Stroke

/-- The line that is read in a program block, with the block in front of it. -/
def read? (stroke : Stroke) : Option (Program × String) :=
  stroke.moment.bind fun m => m.before.blockLine? m.event

/-- The line that is read in a program block. -/
def text? (stroke : Stroke) : Option String := stroke.read?.map Prod.snd

/-- What is done to declarations. -/
def deed (t : Substitution) (stroke : Stroke) : Deed :=
  match stroke.read? with
  | some (p, text) => if (p.filter.feed text).feed = .live then p.deed t text else .other
  | none => .other

/-- What the filter of a block makes of the line that is read. -/
def fed? (p : Program) (stroke : Stroke) : Option (Condition.Fed Condition.Filter) :=
  stroke.text?.map p.filter.feed

/-- The lines that the filter of a block keeps of the line that is read. -/
def kept (p : Program) (stroke : Stroke) : List String :=
  (stroke.text?.map fun text => (p.filter.feed text).kept text).getD []

/-- Whether no entry point that is written anew has a directive in its prologue. -/
def OpensPlain (stroke : Stroke) : Prop :=
  ∀ m, stroke.moment = some m → ∀ mark ∈ m.before.marks m.event, mark.IsPlain

/-- A stroke leads from one state of a program block to the next. -/
structure Advances (t : Substitution) (p : Program) (stroke : Stroke) (q : Program) : Prop where
  reads : ∀ read, stroke.read? = some read → read.1 = p
  remembers : Program.Remembers t
    { p with filter := ((stroke.fed? p).map (·.filter)).getD p.filter } (stroke.deed t) q
  writes : ∀ text, stroke.text? = some text → Program.Writes t p text (stroke.deed t) stroke.lines
  relays : p.IsClean → stroke.OpensPlain →
    q.IsClean ∧ directives (stroke.lines ++ q.held) = directives (p.held ++ stroke.kept p)

end Stroke

/-- A declaration is written in the place of one that declares the same property. -/
theorem Stroke.exists_redeclare? {t : Substitution} {stroke : Stroke} {name line : String}
    (h : (stroke.deed t).declaration? = some (name, line)) :
    ∃ text, t.redeclare? text = some (name, line) := by
  rw [deed] at h
  split at h
  · split at h
    · exact ⟨_, Program.redeclare?_of_deed h⟩
    · cases h
  · cases h

/-! ## A line of a block -/

namespace Program

variable {t : Substitution} {p q : Program} {line : String} {lines : List String}
  {out : Program × List String}

theorem remembers_write (t : Substitution) (p : Program) (lines : List String) :
    Remembers t p .other (p.write lines).1 := by
  rw [write]
  split
  · exact remembers_other rfl rfl rfl rfl
  · exact remembers_other rfl rfl rfl rfl

/-- Lines are written, or held back behind those that are held back. -/
theorem write_held (p : Program) (lines : List String) :
    (p.write lines).2 ++ (p.write lines).1.held = p.held ++ lines := by
  cases hpending : p.pending with
  | none => simp [write, held, hpending]
  | some pending => simp [write, held, hpending]

theorem IsClean.write (h : p.IsClean) (lines : List String) : (p.write lines).1.IsClean := by
  cases hpending : p.pending with
  | none =>
    rw [Program.write, hpending]
    exact h
  | some pending =>
    rw [Program.write, hpending]
    refine ⟨h.typed, h.deferred, h.declared, ?_⟩
    rintro _ ⟨⟩
    obtain ⟨first, rest, heq, hfirst⟩ := h.started pending hpending
    exact ⟨first, rest ++ lines, by rw [heq]; rfl, hfirst⟩

theorem write_nil (p : Program) : p.write [] = (p, []) := by
  cases hpending : p.pending with
  | none => rw [write, hpending]
  | some pending =>
    cases p
    simp only at hpending
    simp [write, hpending]

/-- A line that the filter lets through leaves all but the filter as it is. -/
theorem feed_of_live (h : (p.filter.feed line).feed = .live) :
    p.feed line = ({ p with filter := (p.filter.feed line).filter }, [], .live) := by
  rw [feed, Condition.Filter.isPlain_feed p.filter line h, write_nil, h]

/-- A line that the filter takes is fed to it and no more. -/
theorem feed_of_consumed (h : (p.filter.feed line).feed = .consumed) :
    p.feed line = ((p.feed line).1, (p.feed line).2.1, .consumed) :=
  Prod.ext rfl (Prod.ext rfl h)

/-- What is done and written does not depend on the filter. -/
theorem Writes.of_filter {f : Condition.Filter} {deed : Deed}
    (h : Writes t { p with filter := f } line deed lines) : Writes t p line deed lines := by
  cases h with
  | redeclares name text => exact .redeclares name text
  | holdsBack name text => exact .holdsBack name text
  | drops => exact .drops
  | endsBuffer => exact .endsBuffer
  | @opensBody stage source entry entry_mem front =>
    have hopened : .entry stage source entry ∈ p.opened line := entry_mem
    exact .opensBody hopened front
  | stays => exact .stays
  | other lines => exact .other lines

/-- What a block makes of a line: it does what the line asks for if its filter lets it through. -/
structure Reads (t : Substitution) (p : Program) (line : String) (out : Program × List String) :
    Prop where
  remembers : Remembers t { p with filter := (p.filter.feed line).filter }
    (if (p.filter.feed line).feed = .live then p.deed t line else .other) out.1
  writes : Writes t p line
    (if (p.filter.feed line).feed = .live then p.deed t line else .other) out.2
  relays : p.IsClean → ((p.filter.feed line).feed = .live → p.OpensPlain line) →
    out.1.IsClean ∧
      directives (out.2 ++ out.1.held) = directives (p.held ++ (p.filter.feed line).kept line)

/-- A line that the filter takes is not read. -/
theorem reads_of_consumed (h : (p.filter.feed line).feed = .consumed) :
    Reads t p line ((p.feed line).1, (p.feed line).2.1) := by
  have hother : (if (p.filter.feed line).feed = .live then p.deed t line else .other) = .other :=
    if_neg (by rw [h]; nofun)
  refine ⟨?_, ?_, fun hclean _ => ?_⟩
  · rw [hother]
    exact remembers_write t { p with filter := (p.filter.feed line).filter } _
  · rw [hother]
    exact .other _
  · have hfed : ({ p with filter := (p.filter.feed line).filter } : Program).IsClean :=
      ⟨hclean.typed, hclean.deferred, hclean.declared, hclean.started⟩
    refine ⟨hfed.write _, ?_⟩
    have hwritten := write_held { p with filter := (p.filter.feed line).filter }
      (p.filter.feed line).written
    rw [feed, hwritten, Condition.directives_append, Condition.directives_append,
      Condition.Fed.directives_kept, h]
    simp [held]

theorem reads_line (hread : p.line t line = .ok out) : Reads t p line out := by
  cases hfeed : (p.filter.feed line).feed with
  | consumed =>
    rw [Program.line, feed_of_consumed hfeed] at hread
    cases hread
    exact reads_of_consumed hfeed
  | live =>
    rw [Program.line, feed_of_live hfeed] at hread
    obtain ⟨out', hlive, heq⟩ := exists_ok_of_map hread
    have hout : out' = out := by rw [← heq]; rfl
    subst hout
    obtain ⟨hremembers, hwrites⟩ := does_liveLine hlive
    refine ⟨?_, ?_, fun hclean hopens => ?_⟩
    · rw [if_pos hfeed]
      exact hremembers
    · rw [if_pos hfeed]
      exact hwrites.of_filter
    · have hfed : ({ p with filter := (p.filter.feed line).filter } : Program).IsClean :=
        ⟨hclean.typed, hclean.deferred, hclean.declared, hclean.started⟩
      obtain ⟨hclean', hdirectives⟩ := hfed.liveLine (hopens hfeed) hlive
      refine ⟨hclean', ?_⟩
      rw [hdirectives, Condition.directives_append, Condition.directives_append,
        Condition.Fed.directives_kept, hfeed, Condition.Filter.isPlain_feed p.filter line hfeed]
      simp [held]

/-- An include directive that the filter lets through: code may be written for it. -/
theorem reads_include (hmarked : Directive.isMarked line = true)
    (hplain : Condition.Control.ofLine line = .plain) (hfeed : (p.filter.feed line).feed = .live)
    (hcode : directives lines = []) :
    Reads t p line ({ p with filter := (p.filter.feed line).filter }.write lines) := by
  have hdeed : (if (p.filter.feed line).feed = .live then p.deed t line else .other) = .other := by
    rw [if_pos hfeed, deed_of_isMarked hmarked]
  refine ⟨?_, ?_, fun hclean _ => ?_⟩
  · rw [hdeed]
    exact remembers_write t { p with filter := (p.filter.feed line).filter } lines
  · rw [hdeed]
    exact .other _
  · have hfed : ({ p with filter := (p.filter.feed line).filter } : Program).IsClean :=
      ⟨hclean.typed, hclean.deferred, hclean.declared, hclean.started⟩
    refine ⟨hfed.write lines, ?_⟩
    rw [write_held, Condition.directives_append, Condition.directives_append,
      Condition.Fed.directives_kept, hfeed, Condition.Filter.isPlain_feed p.filter line hfeed, hcode]
    simp [held, Condition.directives_singleton hplain]

end Program

/-! ## The events of a block -/

/-- The notes about dropped regions are no directives. -/
theorem isMarked_regionNotes {f : Region.Filter} {line : String} :
    ∀ note ∈ (f.feed line).written, Directive.isMarked note = false := by
  have hnote : ∀ count, Directive.isMarked (Region.dropNote count) = false := by
    intro count
    iterate 2 refine isMarked_append ?_ fun h => absurd h (by simp)
    decide
  intro note h
  simp only [Region.Filter.feed] at h
  split at h
  · rw [Region.Filter.drop.eq_def] at h
    split at h
    · cases h
    · cases List.mem_singleton.1 h
      exact hnote _
    · cases h
    · cases h
  · split at h
    · cases h
    · cases h
    · split at h <;> cases h

section

variable {t : Substitution} {r : Request} {w w' : Writer} {walk walk' : Walk} {event : Event}
  {p q : Program} {stroke : Stroke} {text : String}

/-- A stroke in which a block reads a line. -/
theorem Stroke.advances_of_reads (hread : stroke.read? = some (p, text))
    (hreads : Program.Reads t p text (q, stroke.lines))
    (hopens : stroke.OpensPlain → (p.filter.feed text).feed = .live → p.OpensPlain text) :
    stroke.Advances t p q := by
  have htext : stroke.text? = some text := by rw [text?, hread]; rfl
  have hdeed : stroke.deed t
      = if (p.filter.feed text).feed = .live then p.deed t text else .other := by rw [deed, hread]
  refine ⟨?_, ?_, ?_, fun hclean hplain => ?_⟩
  · rintro read hsame
    rw [hread] at hsame
    cases hsame
    rfl
  · rw [fed?, htext, hdeed]
    exact hreads.remembers
  · rintro text' hsame
    rw [htext] at hsame
    cases hsame
    rw [hdeed]
    exact hreads.writes
  · rw [kept, htext]
    exact hreads.relays hclean (hopens hplain)

/-- A stroke in which a block reads nothing. -/
theorem Stroke.advances_of_none (hread : stroke.read? = none)
    (hremembers : Program.Remembers t p .other q) (hclean : p.IsClean → q.IsClean)
    (hdirectives : directives (stroke.lines ++ q.held) = directives p.held) :
    stroke.Advances t p q := by
  have htext : stroke.text? = none := by rw [text?, hread]; rfl
  have hdeed : stroke.deed t = .other := by rw [deed, hread]
  refine ⟨fun read hsome => ?_, ?_, fun text hsome => ?_, fun hbefore _ => ⟨hclean hbefore, ?_⟩⟩
  · rw [hread] at hsome
    cases hsome
  · rw [fed?, htext, hdeed]
    exact hremembers
  · rw [htext] at hsome
    cases hsome
  · rw [hdirectives, kept, htext]
    simp

/-- Lines that the writer writes of its own go to the block, which holds them back or not. -/
theorem Stroke.advances_of_write {event : Event}
    (hmoment : stroke.moment = some ⟨w, event, walk, w'⟩)
    (hlines : stroke.lines = wrote ⟨w, event, walk, w'⟩)
    (hend : ∀ directive target, event ≠ .endInclude directive target)
    (hprogram : w.program = some p) (hnone : w.blockLine? event = none) {f : Region.Filter}
    {code : List String} (hcode : ∀ line ∈ code, Directive.isMarked line = false)
    (hwrite : w' = { w with regions := f }.write code) :
    ∃ q, w'.program = some q ∧ stroke.Advances t p q := by
  have hread : stroke.read? = none := by rw [read?, hmoment]; exact hnone
  have hwritten : w' = { w with regions := f, program := some (p.write code).1 }.put
      (p.write code).2 := by
    rw [hwrite]
    exact Writer.write_of_some hprogram
  refine ⟨(p.write code).1, by rw [hwritten, Writer.put_program],
    advances_of_none hread (Program.remembers_write t p code) (·.write code) ?_⟩
  have hputs : Writer.Puts w ({ w with regions := f, program := some (p.write code).1 }.put
      (p.write code).2) (p.write code).2 :=
    Writer.puts_put { w with regions := f, program := some (p.write code).1 } _
  rw [hlines, wrote_of_puts hend hputs (congrArg Writer.written hwritten), Program.write_held,
    Condition.directives_append, Program.directives_of_unmarked hcode, List.append_nil]

/-- A stroke in which a block reads a line goes on with what the block makes of it. -/
theorem Stroke.advances_of_put {out : Program × List String}
    (hmoment : stroke.moment = some ⟨w, event, walk, w'⟩)
    (hlines : stroke.lines = wrote ⟨w, event, walk, w'⟩)
    (hend : ∀ directive target, event ≠ .endInclude directive target)
    (hline : w.blockLine? event = some (p, text)) (hreads : Program.Reads t p text out)
    (hopens : stroke.OpensPlain → (p.filter.feed text).feed = .live → p.OpensPlain text)
    (hwritten : w'.written = ({ w with program := some out.1 }.put out.2).written)
    (hprogram : w'.program = some out.1) : ∃ q, w'.program = some q ∧ stroke.Advances t p q := by
  have hread : stroke.read? = some (p, text) := by rw [read?, hmoment]; exact hline
  have hputs : Writer.Puts w ({ w with program := some out.1 }.put out.2) out.2 :=
    Writer.puts_put { w with program := some out.1 } out.2
  have hwrote : stroke.lines = out.2 := hlines.trans (wrote_of_puts hend hputs hwritten)
  refine ⟨out.1, hprogram, advances_of_reads hread ?_ hopens⟩
  rw [hwrote]
  exact hreads

theorem Stroke.advances_of_line {file : String}
    (hmoment : stroke.moment = some ⟨w, .line file text, walk, w'⟩)
    (hlines : stroke.lines = wrote ⟨w, .line file text, walk, w'⟩) (hprogram : w.program = some p)
    (hread : w.line r text = .ok w') (hnone : w'.program ≠ none) :
    ∃ q, w'.program = some q ∧ stroke.Advances r.substitution p q := by
  cases hfeed : (w.regions.feed text).feed with
  | consumed =>
    have hline : w.blockLine? (.line file text) = none := by
      rw [Writer.blockLine?, if_neg fun h => by rw [hfeed] at h; cases h.1]
    exact advances_of_write hmoment hlines (line_ne_endInclude _ _) hprogram hline
      isMarked_regionNotes (Writer.line_of_consumed hfeed hread)
  | live =>
    rcases Writer.line_of_live hfeed hread with ⟨p', hsame, hread⟩ | ⟨hsame, -⟩
    · rw [hprogram] at hsame
      cases hsame
      cases hend : isBlockEnd text with
      | true =>
        rw [Writer.programLine, if_pos hend] at hread
        obtain ⟨held, report, -, rfl⟩ := Writer.endProgram_eq hread
        exact absurd Writer.put_program hnone
      | false =>
        obtain ⟨p', written, hline, rfl⟩ := Writer.programLine_eq hend hread
        have hblock : w.blockLine? (.line file text) = some (p, text) := by
          rw [Writer.blockLine?, if_pos ⟨hfeed, hend⟩, hprogram]
          rfl
        refine advances_of_put hmoment hlines (line_ne_endInclude _ _) hblock
          (Program.reads_line hline) (fun hplain hlive => ?_) rfl Writer.put_program
        have hmarks := hplain _ hmoment
        rw [Writer.marks, hfeed, hprogram] at hmarks
        dsimp only at hmarks
        rw [Program.entered, Program.feed_of_live hlive] at hmarks
        exact hmarks
    · rw [hprogram] at hsame
      cases hsame

theorem Stroke.advances_of_include {file directive : String} {target : Option String}
    (hmoment : stroke.moment = some ⟨w, .include_ file directive target, walk, w'⟩)
    (hlines : stroke.lines = wrote ⟨w, .include_ file directive target, walk, w'⟩)
    (hprogram : w.program = some p) (htarget : (Include.target? directive).isSome = true)
    (hread : Writer.event r w walk (.include_ file directive target) = .ok (w', walk')) :
    ∃ q, w'.program = some q ∧ stroke.Advances t p q := by
  have hplain := control_of_target? htarget
  obtain ⟨keyword, rest, hdirective, -⟩ := keyword_of_target? htarget
  have hmarked := isMarked_of_ofLine? hdirective
  have hopens : p.OpensPlain directive := by
    intro mark hmark
    have hbrace : directive ≠ "\x7b" := by
      rintro rfl
      exact absurd hmarked (by decide)
    rw [Program.opened.eq_def] at hmark
    split at hmark
    · cases hmark
    · rw [if_neg fun h => hbrace h.1] at hmark
      cases hmark
  -- What is not consumed by the regions is read by the block, whether it is expanded or not.
  have hlive : (w.regions.feed directive).feed = .live →
      w'.written = (w.liveInclude directive target).1.written →
      w'.program = (w.liveInclude directive target).1.program →
      ∃ q, w'.program = some q ∧ stroke.Advances t p q := by
    intro hfeed hwritten hsame
    have hblock : w.blockLine? (.include_ file directive target) = some (p, directive) := by
      rw [Writer.blockLine?, if_pos hfeed, hprogram]
      rfl
    rw [Writer.liveInclude, hprogram] at hwritten hsame
    dsimp only at hwritten hsame
    cases hfed : (p.filter.feed directive).feed with
    | consumed =>
      rw [Program.feed_of_consumed hfed] at hwritten hsame
      exact advances_of_put hmoment hlines (include_ne_endInclude _ _ _) hblock
        (Program.reads_of_consumed hfed) (fun _ _ => hopens) hwritten (hsame.trans Writer.put_program)
    | live =>
      rw [Program.feed_of_live hfed, Writer.put_nil] at hwritten hsame
      let fed : Program := { p with filter := (p.filter.feed directive).filter }
      have hwrite : ∀ code, directives code = [] →
          w'.written = ({ w with program := some fed }.write code).written →
          w'.program = ({ w with program := some fed }.write code).program →
          ∃ q, w'.program = some q ∧ stroke.Advances t p q := by
        intro code hcode hwritten hsame
        rw [Writer.write_of_some rfl] at hwritten hsame
        exact advances_of_put hmoment hlines (include_ne_endInclude _ _ _) hblock
          (Program.reads_include hmarked hplain hfed hcode) (fun _ _ => hopens) hwritten
          (hsame.trans Writer.put_program)
      cases target with
      | none => exact hwrite [directive] (Condition.directives_singleton hplain) hwritten hsame
      | some target =>
        rw [← Writer.write_nil { w with program := some fed }] at hwritten hsame
        exact hwrite [] rfl hwritten hsame
  cases Writer.includes_of_event hread with
  | consumed hfeed =>
    have hline : w.blockLine? (.include_ file directive target) = none := by
      rw [Writer.blockLine?, if_neg fun h => by rw [hfeed] at h; cases h]
    exact advances_of_write hmoment hlines (include_ne_endInclude _ _ _) hprogram hline
      isMarked_regionNotes rfl
  | kept hfeed => exact hlive hfeed rfl rfl
  | repeated hfeed => exact hlive hfeed rfl rfl
  | opened hfeed => exact hlive hfeed (by simp [Writer.written]) rfl

/-- The end of an included file changes nothing in the block if nothing is held back. -/
theorem Writer.program_endInclude (hholds : w.Holds r []) (target : String) :
    (w.endInclude target).program = w.program := by
  rw [endInclude]
  split
  · rfl
  · rename_i lines outer _
    have hopened : ∀ chunks : List GeneratedFile,
        ({ w with nested := outer, chunks } : Writer).Holds r [] := fun _ => hholds
    rw [(hopened _).write_eq, put_program]

/-- What is held back at a moment. -/
theorem Writer.exists_holds_step {held : List Part} (hholds : w.Holds r held)
    (hreleases : Releases w event) (hread : Writer.event r w walk event = .ok (w', walk')) :
    ∃ held', w'.Holds r held' := by
  by_cases hend : ∀ directive target, event ≠ .endInclude directive target
  · exact exists_holds_event hholds hend hread
  · simp only [not_forall, not_not] at hend
    obtain ⟨directive, target, rfl⟩ := hend
    cases hread
    have hnone := hholds.eq_nil hreleases
    subst hnone
    refine ⟨[], ?_⟩
    rw [Writer.Holds, program_endInclude hholds]
    exact hholds

/-- **In a program block that does not end a stroke leads to the next state of the block.** -/
theorem Stroke.exists_advances {held : List Part}
    (hmoment : stroke.moment = some ⟨w, event, walk, w'⟩)
    (hlines : stroke.lines = wrote ⟨w, event, walk, w'⟩) (hprogram : w.program = some p)
    (hholds : w.Holds r held) (hreleases : Releases w event)
    (htarget : ∀ file directive target, event = .include_ file directive target →
      (Include.target? directive).isSome = true)
    (hread : Writer.event r w walk event = .ok (w', walk')) (hnone : w'.program ≠ none) :
    ∃ q, w'.program = some q ∧ stroke.Advances r.substitution p q := by
  cases event with
  | line file text =>
    obtain ⟨w₁, hline, heq⟩ := exists_ok_of_map hread
    cases heq
    exact advances_of_line hmoment hlines hprogram hline hnone
  | include_ file directive target =>
    exact advances_of_include hmoment hlines hprogram (htarget _ _ _ rfl) hread
  | endInclude directive target =>
    cases hread
    have hheld := hholds.eq_nil hreleases
    subst hheld
    have hread? : stroke.read? = none := by rw [read?, hmoment]; rfl
    refine ⟨p, (Writer.program_endInclude hholds target).trans hprogram,
      advances_of_none hread? (Program.remembers_other rfl rfl rfl rfl) id ?_⟩
    rw [hlines]
    rfl

end

/-! ## The strokes of a block -/

/-- The strokes of the program block that is open behind a stroke, given those of the block that is
open in front of it. -/
def Stroke.extend (block : List Stroke) (stroke : Stroke) : List Stroke :=
  match stroke.moment with
  | none => if block.isEmpty then [] else block ++ [stroke]
  | some m =>
    if m.after.program.isNone then []
    else if m.before.program.isNone then [stroke]
    else block ++ [stroke]

/-- The strokes of the program block that is open behind some strokes, from its start on; none if no
block is open. -/
def openBlock (script : List Stroke) : List Stroke := script.foldl Stroke.extend []

theorem openBlock_concat (script : List Stroke) (stroke : Stroke) :
    openBlock (script ++ [stroke]) = stroke.extend (openBlock script) := by
  rw [openBlock, List.foldl_append]
  rfl

/-- The strokes of the open block stand together, behind all others. -/
theorem openBlock_suffix (script : List Stroke) : openBlock script <:+ script := by
  induction script using List.reverseRecOn with
  | nil => exact List.nil_suffix
  | append_singleton script stroke ih =>
    have hextended : openBlock script ++ [stroke] <:+ script ++ [stroke] := by
      obtain ⟨front, hfront⟩ := ih
      exact ⟨front, by rw [← List.append_assoc, hfront]⟩
    rw [openBlock_concat, Stroke.extend]
    split
    · split
      · exact List.nil_suffix
      · exact hextended
    · split
      · exact List.nil_suffix
      · split
        · exact List.suffix_append script [stroke]
        · exact hextended

/-- A stroke that starts a program block: its line and its prelude. -/
def Stroke.Starts (r : Request) (stroke : Stroke) (p : Program) : Prop :=
  stroke.read? = none ∧ ∃ index line plan, isProgramStart line = true ∧
    Plan.new r.shader.name ((r.shader.passes[index]?).getD .empty) r.options = .ok plan ∧
    p = .new r.options index ((r.shader.passes[index]?).getD .empty) plan ∧
    stroke.lines
      = line :: Program.prelude r.substitution plan ((r.shader.passes[index]?).getD .empty)

section

variable {r : Request} {stroke : Stroke} {p : Program}

/-- A block that starts has declared nothing. -/
theorem declared_of_starts (h : stroke.Starts r p) : p.declared = [] := by
  obtain ⟨-, index, line, plan, -, -, rfl, -⟩ := h
  rfl

/-- It holds no declarations back. -/
theorem deferred_of_starts (h : stroke.Starts r p) : p.deferred = [] := by
  obtain ⟨-, index, line, plan, -, -, rfl, -⟩ := h
  rfl

end

/-- Some strokes lead from one state of a program block to another. -/
def Passes (t : Substitution) (p : Program) : List Stroke → Program → Prop
  | [], q => p = q
  | stroke :: rest, q => ∃ p', stroke.Advances t p p' ∧ Passes t p' rest q

theorem passes_append {t : Substitution} {p q : Program} {first second : List Stroke} :
    Passes t p (first ++ second) q ↔ ∃ p', Passes t p first p' ∧ Passes t p' second q := by
  induction first generalizing p with
  | nil => exact ⟨fun h => ⟨p, rfl, h⟩, fun ⟨_, rfl, h⟩ => h⟩
  | cons stroke rest ih =>
    constructor
    · rintro ⟨p', hstroke, hrest⟩
      obtain ⟨p'', hfirst, hsecond⟩ := ih.1 hrest
      exact ⟨p'', ⟨p', hstroke, hfirst⟩, hsecond⟩
    · rintro ⟨p'', ⟨p', hstroke, hfirst⟩, hsecond⟩
      exact ⟨p', hstroke, ih.2 ⟨p'', hfirst, hsecond⟩⟩

theorem passes_concat {t : Substitution} {p q : Program} {strokes : List Stroke} {stroke : Stroke} :
    Passes t p (strokes ++ [stroke]) q ↔ ∃ p', Passes t p strokes p' ∧ stroke.Advances t p' q := by
  rw [passes_append]
  refine exists_congr fun p' => and_congr_right fun _ => ?_
  exact ⟨fun ⟨q', hadvances, heq⟩ => heq ▸ hadvances, fun hadvances => ⟨q, hadvances, rfl⟩⟩

/-- Some strokes are those of a program block from its start on, which is in some state behind
them. -/
def IsBlockOf (r : Request) (block : List Stroke) (p : Program) : Prop :=
  ∃ start inner p₀, block = start :: inner ∧ start.Starts r p₀ ∧ Passes r.substitution p₀ inner p

section

variable {r : Request} {w w' : Writer} {walk walk' : Walk} {p : Program} {stroke : Stroke}
  {block script : List Stroke}

theorem IsBlockOf.concat {q : Program} (h : IsBlockOf r block p)
    (hadvances : stroke.Advances r.substitution p q) : IsBlockOf r (block ++ [stroke]) q := by
  obtain ⟨start, inner, p₀, rfl, hstarts, hpasses⟩ := h
  exact ⟨start, inner ++ [stroke], p₀, rfl, hstarts, passes_concat.2 ⟨p, hpasses, hadvances⟩⟩

/-- What is added behind the walk changes nothing in a block. -/
theorem Stroke.advances_of_added (hmoment : stroke.moment = none) (hfaithful : stroke.IsFaithful)
    (t : Substitution) (p : Program) : stroke.Advances t p p := by
  rw [IsFaithful, hmoment] at hfaithful
  refine advances_of_none (by rw [read?, hmoment]; rfl) (Program.remembers_other rfl rfl rfl rfl) id
    ?_
  rw [Condition.directives_append, Program.directives_of_unmarked hfaithful, List.nil_append]

/-- A block that starts is new. -/
theorem isBlockOf_of_start {m : Moment Writer} (hmoment : stroke.moment = some m)
    (hfaithful : stroke.IsFaithful)
    (hstep : Writer.event r m.before m.walk m.event = .ok (m.after, walk'))
    (hbefore : m.before.program = none) (hafter : m.after.program = some p) :
    IsBlockOf r [stroke] p := by
  have hsome : m.after.program.isSome = true := by rw [hafter]; rfl
  obtain ⟨line, hmarker, hstart, -, hstarted⟩ := Writer.exists_start hstep hbefore hsome
  obtain ⟨-, file, hevent⟩ := Include.eq_line_of_marker? hmarker
  have hend : ∀ directive target, m.event ≠ .endInclude directive target := by
    intro directive target hsame
    rw [hevent] at hsame
    cases hsame
  have hlines : stroke.lines = wrote m := by
    rw [Stroke.IsFaithful, hmoment] at hfaithful
    exact hfaithful.resolve_right fun houter => by rw [houter.2] at hafter; cases hafter
  obtain ⟨plan, hplan, heq⟩ := Writer.startProgram_eq hstarted
  have hwrote : wrote m = line :: Program.prelude r.substitution plan
      ((r.shader.passes[m.before.programs]?).getD .empty) :=
    wrote_of_puts hend (Writer.puts_put m.before _) (by rw [heq]; rfl)
  have hread : stroke.read? = none := by
    rw [Stroke.read?, hmoment, Option.bind_some, hevent, Writer.blockLine?, hbefore]
    exact ite_self none
  rw [heq] at hafter
  cases hafter
  exact ⟨stroke, [], _, rfl, ⟨hread, _, line, plan, hstart, hplan, rfl, hlines.trans hwrote⟩, rfl⟩

/-- **The strokes of the open block lead to its state**, whatever the script has been so far. -/
theorem isBlockOf_openBlock
    (hrun : Run r.shader.sources (Writer.event r) (.new r) walk (momentsOf script) w walk')
    (hreleases : ∀ m ∈ momentsOf script, Releases m.before m.event)
    (hfaithful : ∀ stroke ∈ script, stroke.IsFaithful) :
    (∃ held, w.Holds r held) ∧ (w.program = none → openBlock script = []) ∧
      ∀ p, w.program = some p → IsBlockOf r (openBlock script) p := by
  -- From behind, because the last stroke decides what is open.  What is held back is carried along:
  -- where nothing is, the end of an included file leaves the block as it is.
  induction script using List.reverseRecOn generalizing w walk' with
  | nil =>
    cases hrun
    exact ⟨⟨[], rfl⟩, fun _ => rfl, fun p hsome => by cases hsome⟩
  | append_singleton script stroke ih =>
    obtain ⟨hfaithful, hstroke⟩ := List.forall_mem_append.1 hfaithful
    have hstroke := hstroke stroke (List.mem_singleton.2 rfl)
    rw [openBlock_concat, Stroke.extend]
    rw [momentsOf_append] at hrun hreleases
    cases hmoment : stroke.moment with
    | none =>
      -- A stroke behind the walk extends the block that is open and opens none.
      have hsame : momentsOf [stroke] = [] := by rw [momentsOf_cons, hmoment]; rfl
      rw [hsame, List.append_nil] at hrun hreleases
      obtain ⟨hholds, hnone, hblock⟩ := ih hrun hreleases hfaithful
      refine ⟨hholds, fun hprogram => by rw [hnone hprogram]; rfl, fun p hprogram => ?_⟩
      have hfirst := hblock p hprogram
      have hne : (openBlock script).isEmpty = false := by
        obtain ⟨start, inner, p₀, heq, -⟩ := hfirst
        rw [heq]
        rfl
      rw [hne]
      exact hfirst.concat (Stroke.advances_of_added hmoment hstroke _ p)
    | some m =>
      have hsame : momentsOf [stroke] = [m] := by rw [momentsOf_cons, hmoment]; rfl
      rw [hsame] at hrun hreleases
      obtain ⟨walk₀, walk₂, hfirst, hnext, hstep, hlast⟩ := hrun.split
      obtain ⟨hreleases, hreleased⟩ := List.forall_mem_append.1 hreleases
      have hreleased := hreleased m (List.mem_singleton.2 rfl)
      obtain ⟨⟨held, hholds⟩, hnone, hblock⟩ := ih hfirst hreleases hfaithful
      cases hlast
      refine ⟨Writer.exists_holds_step hholds hreleased hstep, fun hafter => ?_, fun q hafter => ?_⟩
      · dsimp only
        rw [hafter]
        rfl
      · dsimp only
        rw [hafter]
        cases hbefore : m.before.program with
        | none => exact isBlockOf_of_start hmoment hstroke hstep hbefore hafter
        | some p =>
          -- Only lines that name a file are read as include directives.
          have hcounts := Include.Walk.counts_next r.shader.sources walk₀
          rw [hnext] at hcounts
          have htarget : ∀ file directive target, m.event = .include_ file directive target →
              (Include.target? directive).isSome = true := by
            intro file directive target hevent
            rw [hevent] at hcounts
            exact hcounts.1
          have hlines : stroke.lines = wrote m := by
            rw [Stroke.IsFaithful, hmoment] at hstroke
            exact hstroke.resolve_right fun houter => by rw [houter.1] at hbefore; cases hbefore
          obtain ⟨q', hsome, hadvances⟩ := Stroke.exists_advances hmoment hlines hbefore hholds
            hreleased htarget hstep (by rw [hafter]; nofun)
          rw [hafter] at hsome
          cases hsome
          exact (hblock p hbefore).concat hadvances

/-- A run is at some place behind the first ones of its moments. -/
theorem exists_run_of_append {first second : List (Moment Writer)}
    (hrun : Run r.shader.sources (Writer.event r) w walk (first ++ second) w' walk') :
    ∃ w₁ walk₁, Run r.shader.sources (Writer.event r) w walk first w₁ walk₁ := by
  cases second with
  | nil => exact ⟨w', walk', by rwa [List.append_nil] at hrun⟩
  | cons m second =>
    obtain ⟨walk₁, -, hfirst, -⟩ := hrun.split
    exact ⟨_, walk₁, hfirst⟩

end

/-- What holds of the program blocks of a script.  Up to any place, the strokes of the block that is
open there lead to it from the new block; and a line that a block reads belongs to the block. -/
structure HasBlocks (r : Request) (script : List Stroke) : Prop where
  passes : ∀ above below, script = above ++ below → ∀ start inner, openBlock above = start :: inner →
    ∃ p₀ p, start.Starts r p₀ ∧ Passes r.substitution p₀ inner p
  reads : ∀ above stroke below, script = above ++ stroke :: below → ∀ read, stroke.read? = some read →
    ∃ start inner, openBlock above = start :: inner ∧
      openBlock (above ++ [stroke]) = start :: (inner ++ [stroke])

/-- A line that a program block reads leads on from the state that the strokes of the block lead to. -/
theorem HasBlocks.exists_advances {r : Request} {above below : List Stroke} {stroke : Stroke}
    {p : Program} {text : String} (h : HasBlocks r (above ++ stroke :: below))
    (hread : stroke.read? = some (p, text)) :
    ∃ start inner p₀ q, openBlock above = start :: inner ∧ start.Starts r p₀ ∧
      Passes r.substitution p₀ inner p ∧ stroke.Advances r.substitution p q := by
  -- The block behind the stroke ends with it, so its last step is that of the stroke.
  obtain ⟨start, inner, habove, hbehind⟩ := h.reads above stroke below rfl _ hread
  obtain ⟨p₀, q, hstarts, hpasses⟩ := h.passes (above ++ [stroke]) below (by simp) _ _ hbehind
  obtain ⟨p', hinner, hadvances⟩ := passes_concat.1 hpasses
  have hsame : p = p' := hadvances.reads _ hread
  subst hsame
  exact ⟨start, inner, p₀, q, habove, hstarts, hinner, hadvances⟩

section

variable {r : Request} {w w' : Writer} {walk walk' : Walk} {event : Event} {p : Program}
  {text : String}

/-- A program block that reads a line stays open. -/
theorem Writer.exists_program_of_blockLine? (hline : w.blockLine? event = some (p, text))
    (hread : Writer.event r w walk event = .ok (w', walk')) :
    w.program = some p ∧ w'.program.isSome = true := by
  cases event with
  | line file line =>
    obtain ⟨w₁, hstep, heq⟩ := exists_ok_of_map hread
    cases heq
    rw [blockLine?] at hline
    split at hline
    · rename_i hlive
      obtain ⟨p', hprogram, heq⟩ := Option.map_eq_some_iff.1 hline
      cases heq
      refine ⟨hprogram, ?_⟩
      rcases line_of_live hlive.1 hstep with ⟨p'', -, hstep⟩ | ⟨hnone, -⟩
      · obtain ⟨p₁, written, -, rfl⟩ := programLine_eq hlive.2 hstep
        rw [put_program]
        rfl
      · rw [hnone] at hprogram
        cases hprogram
    · cases hline
  | include_ file directive target =>
    rw [blockLine?] at hline
    split at hline
    · obtain ⟨p', hprogram, heq⟩ := Option.map_eq_some_iff.1 hline
      cases heq
      refine ⟨hprogram, ?_⟩
      rw [(keeps_event rfl hread).program, hprogram]
      rfl
    · cases hline
  | endInclude directive target => cases hline

end

/-- **A variant has a script of program blocks**, as long as no included file ends while the signature
of an entry point is held back. -/
theorem exists_blocks_of_variant {shader : Shader} {o : Options} {g : GeneratedShader}
    (hvariant : shader.variant o = .ok g) (horderly : Orderly g (Writer.moments shader o))
    (hreleases : ∀ m ∈ Writer.moments shader o, Releases m.before m.event) :
    ∃ t script, Substitution.new shader o = .ok t ∧ IsScript g (Writer.moments shader o) script ∧
      HasBlocks ⟨shader, o, t⟩ script := by
  obtain ⟨t, w, walk, ht, hrun, -⟩ := exists_run_of_orderly hvariant horderly
  obtain ⟨script, hscript⟩ := exists_script_of_variant hvariant horderly hreleases
  let r : Request := ⟨shader, o, t⟩
  have hopen : ∀ above below, script = above ++ below → ∀ w₁ walk₁,
      Run r.shader.sources (Writer.event r) (.new r) (.start shader.sources) (momentsOf above) w₁
        walk₁ →
      (w₁.program = none → openBlock above = []) ∧
        ∀ p, w₁.program = some p → IsBlockOf r (openBlock above) p := by
    rintro above below rfl w₁ walk₁ hfirst
    refine (isBlockOf_openBlock hfirst (fun m hm => hreleases m ?_) fun stroke hstroke =>
      hscript.faithful stroke (List.mem_append_left below hstroke)).2
    rw [← hscript.moments, momentsOf_append]
    exact List.mem_append_left _ hm
  refine ⟨t, script, ht, hscript, ?_, ?_⟩
  · rintro above below rfl start inner hstart
    rw [← hscript.moments, momentsOf_append] at hrun
    obtain ⟨w₁, walk₁, hfirst⟩ := exists_run_of_append (r := r) hrun
    obtain ⟨hnone, hblock⟩ := hopen above below rfl w₁ walk₁ hfirst
    cases hprogram : w₁.program with
    | none =>
      rw [hnone hprogram] at hstart
      cases hstart
    | some p =>
      obtain ⟨start', inner', p₀, heq, hstarts, hpasses⟩ := hblock p hprogram
      rw [hstart] at heq
      cases heq
      exact ⟨p₀, p, hstarts, hpasses⟩
  · rintro above stroke below rfl ⟨p, text⟩ hread
    obtain ⟨m, hmoment, hline⟩ := Option.bind_eq_some_iff.1 hread
    rw [← hscript.moments, momentsOf_append, momentsOf_cons, hmoment] at hrun
    obtain ⟨walk₀, walk₂, hfirst, -, hstep, -⟩ := hrun.split
    obtain ⟨hbefore, hafter⟩ := Writer.exists_program_of_blockLine? (r := r) hline hstep
    obtain ⟨start, inner, -, heq, -⟩ := (hopen above _ rfl _ _ hfirst).2 p hbefore
    refine ⟨start, inner, heq, ?_⟩
    obtain ⟨q, hafter⟩ := Option.isSome_iff_exists.1 hafter
    simp [openBlock_concat, Stroke.extend, hmoment, hafter, hbefore, heq]

end ShaderMerge.Variant
