import ShaderMerge.Proofs.Include.Announcements
import ShaderMerge.Proofs.Variant.PropertyWriting
import ShaderMerge.Proofs.Variant.Wholeness

/-!
# The lists of the properties of a variant

The lists of a variant hold what the block of the properties in its main file declares, in the same
order (`declared_finish`), if every event of the run is steady: no directive stands between the
line `Properties` and its brace, a program block ends in the file in which it has been started, and the
shader is named in front of its first brace.  An event preserves the relation between the writer and the
lines that it has read (`Writer.Lists.event`), so a run does (`Writer.lists_run`), and the end of the
variant keeps what the block declares.
-/

namespace ShaderMerge.Variant

open Include (Walk Event Moment Run isMarker isProgramStart isBlockEnd)
open Position (start)

theorem filter_isMarker_isBlockEnd (lines : List String) :
    (lines.filter isMarker).filter isBlockEnd = lines.filter isBlockEnd := by
  rw [List.filter_filter]
  apply List.filter_congr
  intro line _
  rw [isMarker]
  cases isBlockEnd line <;> simp

/-- A text without the end of a program block that grows by such lines has none either. -/
theorem Adds.unended {before after new : List String} (h : Adds before after new)
    (hbefore : ∀ line ∈ before, isBlockEnd line = false)
    (hnew : ∀ line ∈ new, isBlockEnd line = false) : ∀ line ∈ after, isBlockEnd line = false := by
  have hnone : ∀ {lines : List String}, (∀ line ∈ lines, isBlockEnd line = false) →
      (lines.filter isMarker).filter isBlockEnd = [] := by
    intro lines hlines
    rw [filter_isMarker_isBlockEnd, List.filter_eq_nil_iff]
    exact fun line hline => Bool.eq_false_iff.1 (hlines line hline)
  have hafter : after.filter isBlockEnd = [] := by
    rw [← filter_isMarker_isBlockEnd, h.markers_eq, List.filter_append, hnone hbefore, hnone hnew,
      List.append_nil]
  exact fun line hline => Bool.eq_false_iff.2 (List.filter_eq_nil_iff.1 hafter line hline)

/-- Lines in front of both texts do not count. -/
theorem Adds.cancel_left {front before after new : List String}
    (h : Adds (front ++ before) (front ++ after) new) : Adds before after new where
  balance_eq := by
    have hbalance := h.balance_eq
    rw [balance_append, balance_append] at hbalance
    omega
  markers_eq := by
    have hmarkers := h.markers_eq
    rw [List.filter_append, List.filter_append, List.append_assoc] at hmarkers
    exact List.append_cancel_left hmarkers

/-- What the filter of the regions writes are comments. -/
theorem isAside_of_mem_written (f : Region.Filter) (line : String) :
    ∀ note ∈ (f.feed line).written, isAside note = true := by
  have hnote : ∀ count, isAside (Region.dropNote count) = true := by
    intro count
    have hhead : (Region.dropNote count).toList.head? = some '/' :=
      head?_append_left _ (head?_append_left _ (by decide))
    rw [isAside, hhead]
    rfl
  simp only [Region.Filter.feed]
  split
  · rw [Region.Filter.drop.eq_def]
    split
    · rintro _ ⟨⟩
    · intro note hmem
      rw [List.mem_singleton.1 hmem]
      exact hnote _
    · rintro _ ⟨⟩
    · rintro _ ⟨⟩
  · split
    · rintro _ ⟨⟩
    · rintro _ ⟨⟩
    · split <;> rintro _ ⟨⟩

theorem isAside_of_target? {line : String} (h : (Include.target? line).isSome = true) :
    isAside line = true := by
  obtain ⟨target, htarget⟩ := Option.isSome_iff_exists.1 h
  rw [isAside, Include.head?_of_target? htarget]
  rfl

namespace Writer

variable {r : Request} {w w₁ w' : Writer} {line : String} {lines source live : List String}

/-! ## Inside a program block -/

/-- Inside a program block the text grows by lines that do not end it. -/
theorem Lists.grows (h : w.Lists r source) (hprogram : w.program.isSome = true)
    (hprogram' : w'.program.isSome = true) (hsame : Same w w')
    (hmain : w.main.toList <+: w'.main.toList) (hgrows : Grows w w' live)
    (hlive : ∀ line ∈ live, isBlockEnd line = false) : w'.Lists r (source ++ live) := by
  obtain ⟨out, hout⟩ := hmain
  have hadds := hgrows.adds
  -- What the main file has gained, and what is still behind it, is what was behind it and what is new.
  rw [lines_eq_main_append, lines_eq_main_append, ← hout, List.append_assoc] at hadds
  have hunended := hadds.cancel_left.unended h.quiet.rest hlive
  have hp : (start.after source).inProgram = true := h.stands.inProgram.trans hprogram
  refine h.grow hsame ⟨?_, ?_, hgrows.defers⟩ hout.symm ?_ ?_
  · intro hnone
    rw [hnone] at hprogram'
    cases hprogram'
  · exact fun line hline => hunended line (List.mem_append_right _ hline)
  · rw [hprogram']
    exact switches_of_skips (Position.skips_inProgram hp
      fun line hline => hunended line (List.mem_append_left _ hline)) hp
  · rw [hprogram']
    exact switches_of_skips (Position.skips_inProgram hp hlive) hp

/-- The end of a program block comes behind the lines that it holds back. -/
theorem switches_end {p : Position} (hp : p.inProgram = true)
    (hlines : ∀ line ∈ lines, isBlockEnd line = false) (hline : isBlockEnd line = true) :
    Switches p (lines ++ [line]) false := by
  obtain ⟨hafter, hlisted⟩ := Position.skips_inProgram hp hlines
  refine ⟨?_, ?_⟩
  · rw [Position.after_concat, hafter, Position.step, if_pos hp, hline, Bool.not_true]
  · rw [Position.listed_concat, hafter, hlisted, Position.lists, hp, Bool.not_true, Bool.false_and,
      Bool.false_and, if_neg Bool.false_ne_true, List.append_nil]

theorem Lists.endProgram {p : Program} (h : w.Lists r source) (hprogram : w.program = some p)
    (hline : isBlockEnd line = true) (hread : w.endProgram p (some line) = .ok w')
    (hnested : w'.nested = []) : w'.Lists r (source ++ [line]) := by
  have hp : (start.after source).inProgram = true := by
    rw [h.stands.inProgram, hprogram]
    rfl
  have hsame := same_endProgram hread
  obtain ⟨held, report, hfinish, rfl⟩ := endProgram_eq hread
  rw [← List.length_eq_zero_iff, nested_put, List.length_eq_zero_iff] at hnested
  have hheld : ∀ line ∈ held, isBlockEnd line = false := by
    intro line hmem
    apply h.quiet.rest
    rw [Writer.rest, held_of_some hprogram, ← Program.held_of_finish hfinish]
    exact List.mem_append_right _ hmem
  have hmain := @main_of_nil { w with program := none, reports := w.reports ++ report } hnested
    (held ++ [line])
  have hlive : Switches (start.after source) ([] ++ [line]) false :=
    switches_end hp (by rintro _ ⟨⟩) hline
  refine h.grow hsame (isQuiet_of_none put_program ?_) hmain ?_ ?_
  · rw [← List.length_eq_zero_iff, nested_put, List.length_eq_zero_iff]
    exact hnested
  · rw [put_program]
    exact switches_end hp hheld hline
  · rw [put_program]
    exact hlive

/-- The include of a chunk ends nothing, wherever it is written. -/
theorem Lists.endInclude (h : w.Lists r source) (target : String) :
    (w.endInclude target).Lists r source := by
  cases hnested : w.nested with
  | nil =>
    rw [Writer.endInclude, hnested]
    exact h
  | cons chunk outer =>
    -- Outside of program blocks there is no included file to end.
    have hsome : w.program.isSome = true := by
      rw [Option.isSome_iff_ne_none]
      intro hnone
      rw [h.quiet.nested hnone] at hnested
      cases hnested
    have hsame := same_endInclude w target
    have hkeeps := (keeps_endInclude w target).program
    rw [Sound.endInclude_eq hnested] at hsame hkeeps ⊢
    have hgrows := @grows_write { w with
      nested := outer, chunks := Sound.addChunk w.chunks (chunkOf target chunk.toList) }
      h.quiet.defers [Directive.includeLine (chunkOf target chunk.toList).name]
    have hextends := @extends_write { w with
      nested := outer, chunks := Sound.addChunk w.chunks (chunkOf target chunk.toList) }
      [Directive.includeLine (chunkOf target chunk.toList).name]
    have houter : Lists r { w with
        nested := outer, chunks := Sound.addChunk w.chunks (chunkOf target chunk.toList) } source := by
      refine ⟨⟨?_, ?_, h.quiet.defers⟩, ?_, h.fills, h.places⟩
      · intro hnone
        rw [hnone] at hsome
        cases hsome
      · intro line hline
        apply h.quiet.rest
        simp only [Writer.rest, hnested, List.mem_append, List.reverse_cons, List.flatMap_append]
          at hline ⊢
        rcases hline with hline | hline
        · exact .inl (.inl hline)
        · exact .inr hline
      · exact ⟨h.stands.inProgram, h.stands.depth, h.stands.announced, h.stands.block,
          h.stands.hasProperties⟩
    have hneutral : Neutral [Directive.includeLine (chunkOf target chunk.toList).name] := by
      refine .of_plain fun line hline => ?_
      rw [List.mem_singleton.1 hline]
      exact isStructural_includeLine _
    have hgrown := houter.grows hsome (hkeeps.trans hsome) ⟨hsame.outline, hsame.properties⟩
      hextends.main ⟨hgrows.adds.of_neutral hneutral, hgrows.defers⟩ (by rintro _ ⟨⟩)
    rwa [List.append_nil] at hgrown

/-! ## Outside of program blocks -/

/-- Directives and comments that are written outside of program blocks count for nothing. -/
theorem Lists.put_asides (h : w.Lists r source) (hprogram : w.program = none)
    (hlines : ∀ line ∈ lines, isAside line = true) : (w.put lines).Lists r source := by
  have hnested := h.quiet.nested hprogram
  have hp := h.inProgram hprogram
  have hprogram' : (w.put lines).program = none := by rw [put_program, hprogram]
  have hquiet : (w.put lines).IsQuiet := by
    refine isQuiet_of_none hprogram' ?_
    rw [← List.length_eq_zero_iff, nested_put, hnested]
    rfl
  have hgrown : (w.put lines).Lists r (source ++ []) := by
    refine h.grow (same_put w lines) hquiet (main_of_nil hnested lines) ?_ ?_
    · rw [hprogram']
      exact switches_of_skips (Position.skips_asides hp hlines) hp
    · rw [hprogram']
      exact switches_of_skips ⟨rfl, rfl⟩ hp
  rwa [List.append_nil] at hgrown

theorem Lists.feedRegions (h : w.Lists r source) (line : String) :
    (w.feedRegions line).1.Lists r source := by
  cases hprogram : w.program with
  | none =>
    have hwrite : (w.feedRegions line).1
        = ({ w with regions := (w.regions.feed line).filter } : Writer).put
          (w.regions.feed line).written := write_of_none hprogram
    rw [hwrite]
    have hfed : Lists r { w with regions := (w.regions.feed line).filter } source :=
      ⟨⟨h.quiet.nested, h.quiet.rest, h.quiet.defers⟩, ⟨h.stands.inProgram, h.stands.depth,
        h.stands.announced, h.stands.block, h.stands.hasProperties⟩, h.fills, h.places⟩
    exact hfed.put_asides hprogram (isAside_of_mem_written w.regions line)
  | some p =>
    have hsome : w.program.isSome = true := by rw [hprogram]; rfl
    have hgrown := h.grows hsome ((keeps_feedRegions w line).program.trans hsome)
      (same_feedRegions w line) (extends_feedRegions w line).main
      (grows_feedRegions h.quiet.defers line) (by rintro _ ⟨⟩)
    rwa [List.append_nil] at hgrown

/-- The start of a program block comes in front of its first lines. -/
theorem switches_start {p : Position} (hp : p.inProgram = false) (hline : isProgramStart line = true)
    (hlines : ∀ line ∈ lines, isBlockEnd line = false) : Switches p (line :: lines) true := by
  have hstep : p.step line = { p with inProgram := true } := by
    rw [Position.step, hp, if_neg Bool.false_ne_true, if_pos hline]
  have hlists : p.lists line = false := by
    apply Position.lists_of_not_isStatement
    rw [isStatement, hline]
    rfl
  obtain ⟨hafter, hlisted⟩ := @Position.skips_inProgram { p with inProgram := true } _ rfl hlines
  refine ⟨?_, ?_⟩
  · rw [Position.after_cons, hstep, hafter]
  · rw [Position.listed, hlists, if_neg Bool.false_ne_true, hstep, hlisted]

/-- What a program block starts with does not end it. -/
theorem Lists.startProgram (h : w.Lists r source) (hprogram : w.program = none)
    (hline : isProgramStart line = true) (hread : w.startProgram r line = .ok w') :
    w'.Lists r (source ++ [line]) := by
  have hnested := h.quiet.nested hprogram
  have hp := h.inProgram hprogram
  obtain ⟨plan, -, rfl⟩ := startProgram_eq hread
  have hprelude : ∀ text ∈ Program.prelude r.substitution plan
      ((r.shader.passes[w.programs]?).getD .empty), isBlockEnd text = false := by
    intro text htext
    have hplain := (neutral_prelude r.substitution plan _).plain text htext
    rw [isMarker, Bool.or_eq_false_iff] at hplain
    exact hplain.2
  have hsame := same_put w (line :: Program.prelude r.substitution plan
    ((r.shader.passes[w.programs]?).getD .empty))
  have hmain := main_of_nil hnested (line :: Program.prelude r.substitution plan
    ((r.shader.passes[w.programs]?).getD .empty))
  refine h.grow ⟨hsame.outline, hsame.properties⟩ ⟨?_, ?_, ?_⟩ hmain
    (switches_start hp hline hprelude) (switches_start hp hline (by rintro _ ⟨⟩))
  · rintro ⟨⟩
  · intro text htext
    rw [Writer.rest] at htext
    dsimp only at htext
    rw [put_of_nil hnested, hnested] at htext
    cases htext
  · rintro p ⟨⟩ text ⟨⟩

/-! ## Steady events -/

/-- An event in which no program block ends in another file than the one it has been started in, the
shader is not named behind its first brace, and only the brace of the block comes behind the line
`Properties`. -/
structure IsSteady (m : Moment Writer) : Prop where
  closes : m.after.program = none → m.after.nested = []
  names : m.after.outline.shaderLine ≠ m.before.outline.shaderLine →
    m.before.outline.shaderBody = none
  opens : m.before.outline.propertiesAnnounced = true → m.before.program = none →
    ∀ line ∈ m.before.live m.event,
      isAside line = false ∧ line ≠ "\x7d" ∧ line ≠ "\x7d;"

instance (m : Moment Writer) : Decidable (IsSteady m) :=
  decidable_of_iff
    ((m.after.program = none → m.after.nested = []) ∧
      (m.after.outline.shaderLine ≠ m.before.outline.shaderLine →
        m.before.outline.shaderBody = none) ∧
      (m.before.outline.propertiesAnnounced = true → m.before.program = none →
        ∀ line ∈ m.before.live m.event,
          isAside line = false ∧ line ≠ "\x7d" ∧ line ≠ "\x7d;"))
    ⟨fun h => ⟨h.1, h.2.1, h.2.2⟩, fun h => ⟨h.closes, h.names, h.opens⟩⟩

/-- A line outside of program blocks. -/
theorem Lists.outerLine (h : w.Lists r source) (hprogram : w.program = none)
    (hread : w.outerLine r line = .ok w')
    (hnames : w'.outline.shaderLine ≠ w.outline.shaderLine → w.outline.shaderBody = none)
    (hopens : w.outline.propertiesAnnounced = true →
      isAside line = false ∧ line ≠ "\x7d" ∧ line ≠ "\x7d;") : w'.Lists r (source ++ [line]) := by
  rw [Writer.outerLine] at hread
  split at hread
  · rename_i hstart
    exact h.startProgram hprogram hstart hread
  · rename_i hstart
    split at hread
    · rename_i hopen
      subst hopen
      cases hread
      exact h.openBrace hprogram
    · rename_i hopen
      split at hread
      · rename_i hclose
        cases hread
        rw [Bool.or_eq_true, decide_eq_true_eq, decide_eq_true_eq] at hclose
        refine h.closeBrace hprogram (Bool.eq_false_iff.2 fun htrue => ?_) hclose
        obtain ⟨-, hne, hne'⟩ := hopens htrue
        rcases hclose with hclose | hclose
        · exact hne hclose
        · exact hne' hclose
      · rename_i hclose
        cases hread
        simp only [Bool.or_eq_true, decide_eq_true_eq, not_or] at hclose
        have hbrace : isBrace line = false := by simp [isBrace, hopen, hclose.1, hclose.2]
        exact h.statement hprogram (Bool.eq_false_iff.2 hstart) hbrace
          (fun htrue => (hopens htrue).1) hnames

/-- A line of a program block. -/
theorem Lists.programLine {p : Program} (h : w.Lists r source) (hprogram : w.program = some p)
    (hread : w.programLine r p line = .ok w') (hcloses : w'.program = none → w'.nested = []) :
    w'.Lists r (source ++ if isBlockEnd line then [line] else p.live line) := by
  cases hend : isBlockEnd line with
  | true =>
    rw [Writer.programLine, if_pos hend] at hread
    obtain ⟨held, report, -, heq⟩ := endProgram_eq hread
    refine h.endProgram hprogram hend hread (hcloses ?_)
    rw [heq, put_program]
  | false =>
    have hgrows := grows_programLine hprogram h.quiet.defers hread
    have hsame := same_programLine hread
    have hmain := (extends_programLine hread).main
    obtain ⟨p', written, -, rfl⟩ := programLine_eq hend hread
    rw [hend] at hgrows
    refine h.grows (by rw [hprogram]; rfl) (by rw [put_program]; rfl) hsame hmain hgrows ?_
    rw [if_neg Bool.false_ne_true, Program.live]
    intro text htext
    split at htext
    · rwa [List.mem_singleton.1 htext]
    · cases htext

/-- An include adds no line to those that have been read. -/
theorem Lists.liveInclude (h : w.Lists r source) {directive : String}
    (hdirective : (Include.target? directive).isSome = true) (target : Option String) :
    (w.liveInclude directive target).1.Lists r source := by
  cases hprogram : w.program with
  | none =>
    rw [Writer.liveInclude, hprogram]
    refine h.put_asides hprogram ?_
    intro line hline
    rw [List.mem_singleton.1 hline]
    exact isAside_of_target? hdirective
  | some p =>
    have hsome : w.program.isSome = true := by rw [hprogram]; rfl
    have hgrown := h.grows hsome ((keeps_liveInclude w directive target).program.trans hsome)
      (same_liveInclude w directive target) (extends_liveInclude w directive target).main
      (grows_liveInclude h.quiet.defers (isStructural_of_target? hdirective) target)
      (by rintro _ ⟨⟩)
    rwa [List.append_nil] at hgrown

/-- A steady event preserves the relation between the writer and the lines that it has read. -/
theorem Lists.event {walk walk' : Walk} {event : Event} (h : w.Lists r source)
    (hnext : ∀ file directive target, event = .include_ file directive target →
      (Include.target? directive).isSome = true)
    (hread : Writer.event r w walk event = .ok (w', walk'))
    (hsteady : IsSteady ⟨w, event, walk, w'⟩) : w'.Lists r (source ++ w.live event) := by
  obtain ⟨hcloses, hnames, hopens⟩ := hsteady
  cases event with
  | line file text =>
    obtain ⟨w₁, hline, heq⟩ := exists_ok_of_map hread
    cases heq
    dsimp only [Writer.live] at hopens ⊢
    cases hfeed : (w.regions.feed text).feed with
    | consumed =>
      rw [line_of_consumed hfeed hline, List.append_nil]
      exact h.feedRegions text
    | live =>
      rw [hfeed] at hopens
      rcases line_of_live hfeed hline with ⟨p, hprogram, hline⟩ | ⟨hprogram, hline⟩
      · rw [hprogram]
        exact h.programLine hprogram hline hcloses
      · rw [hprogram] at hopens ⊢
        exact h.outerLine hprogram hline hnames
          fun htrue => hopens htrue rfl text List.mem_cons_self
  | include_ file directive target =>
    have hlive := h.liveInclude (hnext file directive target rfl) target
    have hnone : w.live (.include_ file directive target) = [] := rfl
    rw [hnone, List.append_nil]
    cases includes_of_event hread with
    | consumed => exact h.feedRegions directive
    | kept => exact hlive
    | repeated => exact hlive
    -- A chunk starts, which only a program block does.
    | opened feed expands =>
      have hsome : (w.liveInclude directive target).1.program.isSome = true := by
        rw [(keeps_liveInclude w directive target).program, Option.isSome_iff_ne_none]
        intro hnone
        rw [Writer.liveInclude, hnone] at expands
        cases expands
      refine ⟨⟨?_, ?_, hlive.quiet.defers⟩, ?_, hlive.fills, hlive.places⟩
      · intro hnone
        rw [hnone] at hsome
        cases hsome
      · intro line hline
        apply hlive.quiet.rest
        rw [Writer.rest, List.reverse_cons, List.flatMap_append, List.flatMap_singleton,
          List.append_nil] at hline
        exact hline
      · exact ⟨hlive.stands.inProgram, hlive.stands.depth, hlive.stands.announced,
          hlive.stands.block, hlive.stands.hasProperties⟩
  | endInclude directive target =>
    have hnone : w.live (.endInclude directive target) = [] := rfl
    cases hread
    rw [hnone, List.append_nil]
    exact h.endInclude target

/-- A run of steady events preserves the relation too. -/
theorem lists_run {walk walk' : Walk} {moments : List (Moment Writer)}
    (hrun : Run r.shader.sources (Writer.event r) w walk moments w' walk')
    (h : w.Lists r source) (hsteady : ∀ m ∈ moments, IsSteady m) :
    w'.Lists r (source ++ liveLines moments) := by
  induction hrun generalizing source with
  | nil =>
    rw [liveLines, List.flatMap_nil, List.append_nil]
    exact h
  | @cons w w₁ w' walk walk₁ walk₂ walk' event moments hnext hstep _ ih =>
    have hcounts := Walk.counts_next r.shader.sources walk
    rw [hnext] at hcounts
    have htarget : ∀ file directive target, event = .include_ file directive target →
        (Include.target? directive).isSome = true := by
      rintro file directive target rfl
      exact hcounts.1
    have hread := h.event htarget hstep (hsteady _ List.mem_cons_self)
    have hrest := ih hread fun m hm => hsteady m (List.mem_cons_of_mem _ hm)
    rw [liveLines, List.flatMap_cons, ← List.append_assoc]
    exact hrest

/-! ## The end of a variant -/

/-- Whether a block of properties is put in at the end. -/
def addsBlock (w : Writer) : Bool := w.outline.shaderBody.isSome && !w.outline.hasProperties

/-- What is put in at the end, and where. -/
theorem addProperties_cases (r : Request) (w : Writer) :
    w.addProperties r = w ∧
        (if w.addsBlock then r.addedProperties.map AddedProperty.entry else []) = [] ∨
      ∃ place, w.outline.shaderBody = some place ∧ w.outline.hasProperties = false ∧
        w.addsBlock = true ∧
        w.addProperties r = { w with
          properties := w.properties ++ r.addedProperties.map AddedProperty.entry
          main := (w.main.toList.take place
            ++ (["Properties", "\x7b"] ++ r.addedProperties.map AddedProperty.line ++ ["\x7d"])
            ++ w.main.toList.drop place).toArray } := by
  simp only [addProperties]
  split
  · rename_i hbody
    left
    rw [addsBlock, hbody]
    exact ⟨rfl, rfl⟩
  · rename_i place hbody
    split
    · rename_i hnone
      left
      rw [Bool.or_eq_true, List.isEmpty_iff] at hnone
      rcases hnone with hnone | hnone
      · rw [addsBlock, hnone, Bool.not_true, Bool.and_false]
        exact ⟨rfl, rfl⟩
      · rw [hnone, List.map_nil, ite_self]
        exact ⟨rfl, rfl⟩
    · rename_i hsome
      right
      rw [Bool.or_eq_true, not_or, Bool.not_eq_true] at hsome
      refine ⟨place, hbody, hsome.1, ?_, rfl⟩
      rw [addsBlock, hbody, hsome.1]
      rfl

theorem properties_addProperties (r : Request) (w : Writer) : (w.addProperties r).properties
    = w.properties ++ if w.addsBlock then r.addedProperties.map AddedProperty.entry else [] := by
  rcases addProperties_cases r w with ⟨heq, hnone⟩ | ⟨place, -, -, hadds, heq⟩
  · rw [heq, hnone, List.append_nil]
  · rw [heq, hadds, if_pos rfl]

theorem properties_finish {g : GeneratedShader} (h : w.finish r = .ok g) : g.properties
    = w.properties ++ if w.addsBlock then r.addedProperties.map AddedProperty.entry else [] := by
  rw [Writer.finish] at h
  cases hprogram : w.program with
  | none =>
    rw [hprogram] at h
    cases h
    exact properties_addProperties r w
  | some p =>
    rw [hprogram] at h
    obtain ⟨w', hend, h⟩ := exists_ok_of_bind h
    obtain ⟨houtline, hproperties⟩ := same_endProgram hend
    cases h
    rw [← hproperties, addsBlock, ← houtline]
    exact properties_addProperties r w'

end Writer

/-- A block that is put in behind the first brace of a shader without one holds what is added. -/
theorem listed_insert {r : Request} {main : List String} {place : Nat} {more : List String}
    (hmain : main.take place ++ more = main) (hopened : IsOpenedAt main place 0)
    (hblocks : (start.after main).blocks = 0) :
    start.listed (main.take place
        ++ (["Properties", "\x7b"] ++ r.addedProperties.map AddedProperty.line ++ ["\x7d"]) ++ more)
      = r.addedProperties.map AddedProperty.line := by
  have hfront := hopened.after rfl
  obtain ⟨hadded, haddedListed⟩ := @Position.after_of_listed ⟨false, 2, false, some 2, 1⟩ _ rfl rfl rfl
    (isStatement_added (r := r))
  have hopen : (⟨false, 1, false, none, 0⟩ : Position).after ["Properties", "\x7b"]
      = ⟨false, 2, false, some 2, 1⟩ := by decide
  have hopenListed : (⟨false, 1, false, none, 0⟩ : Position).listed ["Properties", "\x7b"] = [] := by
    decide
  have hclose : (⟨false, 2, false, some 2, 1⟩ : Position).after ["\x7d"]
      = ⟨false, 1, false, none, 1⟩ := by decide
  have hcloseListed : (⟨false, 2, false, some 2, 1⟩ : Position).listed ["\x7d"] = [] := by decide
  rw [← hmain, Position.after_append, hfront] at hblocks
  obtain ⟨-, -, -, hmore⟩ := @Position.after_of_unopened ⟨false, 1, false, none, 0⟩ more rfl hblocks 1
  have hfrontListed : start.listed (main.take place) = [] :=
    Position.listed_of_blocks (by rw [hfront])
  simp only [Position.listed_append, Position.after_append, hfront, hopen, hadded, hclose,
    hfrontListed, hopenListed, haddedListed, hcloseListed, List.nil_append, List.append_nil]
  rw [hmore, List.append_nil]

section

variable {r : Request} {w w' : Writer} {source : List String}

/-- At the end the lists hold what the block declares, whether it has been read or put in. -/
theorem declared_addProperties {properties : List (PropertyKind × String)}
    (hproperties : w.outline.hasProperties = decide (0 < (start.after source).blocks))
    (hdeclares : Fills r w.main.toList properties source)
    (hplaces : Places w.main.toList w.outline (start.after source)) :
    properties ++ (if w.addsBlock then r.addedProperties.map AddedProperty.entry else [])
      = (start.listed (w.addProperties r).main.toList).flatMap declared := by
  rcases Writer.addProperties_cases r w with ⟨heq, hnone⟩ | ⟨place, hbody, hnone, hadds, heq⟩
  · rw [heq, hnone, List.append_nil]
    exact hdeclares.eq_declared
  · have hblocks : (start.after source).blocks = 0 := by
      rw [hproperties, decide_eq_false_iff_not] at hnone
      omega
    have hmain : (start.after w.main.toList).blocks = 0 := by rw [hdeclares.after, hblocks]
    obtain ⟨hopened, -⟩ := hplaces.opened place hbody
    rw [hblocks] at hopened
    have hlisted := listed_insert (r := r) (List.take_append_drop place w.main.toList) hopened hmain
    have hempty : properties = [] := by
      rw [hdeclares.eq_declared, Position.listed_of_blocks hmain]
      rfl
    rw [heq, hadds, if_pos rfl, hempty, List.nil_append]
    dsimp only
    rw [hlisted, flatMap_declared_added]

/-- The line that names the shader stays where it is when a block is put in. -/
theorem isNamedAt_addProperties (hplaces : Places w.main.toList w.outline (start.after source))
    {name : Nat} (hname : w.outline.shaderLine = some name) :
    IsNamedAt (w.addProperties r).main.toList name := by
  have hnamed := hplaces.named name hname
  rcases Writer.addProperties_cases r w with ⟨heq, -⟩ | ⟨place, hbody, -, -, heq⟩
  · rw [heq]
    exact hnamed
  · obtain ⟨hopened, hlt⟩ := hplaces.opened place hbody
    have hname := hlt name hname
    have hcut : IsNamedAt (w.main.toList.take place) name := by
      apply hnamed.congr
      · rw [List.take_take, Nat.min_eq_left (Nat.le_of_lt hname)]
      · exact List.getElem?_take_of_lt hname
    rw [heq]
    dsimp only
    rw [List.append_assoc]
    exact hcut.append _

theorem isStatement_named (name : String) : isStatement ("Shader \"" ++ name ++ "\"") = true := by
  have hhead : ("Shader \"" ++ name ++ "\"").toList.head? = some 'S' :=
    head?_append_left _ (head?_append_left _ (by decide))
  have hplain : isStructural ("Shader \"" ++ name ++ "\"") = false :=
    isStructural_of_hasPlainChar
      (hasPlainChar_append_left _ (hasPlainChar_append_left _ (hasPlainChar_of_second (by decide))))
  rw [isStatement_of_plain hplain, isAside, hhead]
  rfl

/-- The name of the variant in the place of the shader line declares nothing. -/
theorem listed_named {name : String} {lines : List String} {place : Option Nat}
    (h : ∀ n, place = some n → IsNamedAt lines n) :
    start.listed (named name lines place) = start.listed lines := by
  cases place with
  | none => rfl
  | some n =>
    have hnamed := h n rfl
    obtain ⟨line, hline, hstatement⟩ := hnamed.statement
    exact (Position.after_set hline hnamed.inProgram hnamed.depth hnamed.block hstatement
      (isStatement_named name)).2

/-- **At the end of a run the lists of the variant hold what its main file declares**, and that is
what is made of the lines that the block of the sources declares, with what the variant adds. -/
theorem declared_finish {g : GeneratedShader} (h : w.Lists r source) (hnested : w.nested = [])
    (hfinish : w.finish r = .ok g) :
    g.properties = (start.listed g.main.lines).flatMap declared ∧
      ((start.after source).blocks ≤ 1 → g.properties
        = (start.listed source).flatMap (fun line => (r.propertyLine line).1)
          ++ if (start.after source).isClosed || w.addsBlock then
              r.addedProperties.map AddedProperty.entry else []) := by
  have hproperties := Writer.properties_finish hfinish
  obtain ⟨w', hreleased, -, hlines⟩ := finish_eq hfinish
  -- What is still held back in the last program block counts for nothing.
  have hrest : Switches (start.after source) w.rest w.program.isSome := by
    refine switches_of_skips ?_ h.stands.inProgram
    cases hprogram : w.program with
    | none =>
      rw [Writer.rest, hnested, Writer.held_of_none hprogram]
      exact ⟨rfl, rfl⟩
    | some p =>
      have hp := h.stands.inProgram
      rw [hprogram] at hp
      exact Position.skips_inProgram hp h.quiet.rest
  have hnone : Switches (start.after source) [] w.program.isSome :=
    switches_of_skips ⟨rfl, rfl⟩ h.stands.inProgram
  have hmain : w'.main.toList = w.main.toList ++ w.rest := by
    rw [hreleased.main_eq hnested, Writer.lines_eq_main_append]
  have hdeclares : Fills r w'.main.toList w.properties source := by
    have hturned := h.fills.turn hrest hnone
    rwa [List.append_nil, ← hmain] at hturned
  have hplaces : Places w'.main.toList w'.outline (start.after source) := by
    rw [hmain, hreleased.outline]
    exact h.places.append _ rfl rfl (Nat.le_refl _) h.places.unopened
  have hadds : w'.addsBlock = w.addsBlock := by
    rw [Writer.addsBlock, Writer.addsBlock, hreleased.outline]
  have hblock : w'.outline.hasProperties = decide (0 < (start.after source).blocks) := by
    rw [hreleased.outline, h.stands.hasProperties]
  refine ⟨?_, ?_⟩
  · rw [hlines, listed_named fun n hn => isNamedAt_addProperties hplaces hn,
      ← declared_addProperties hblock hdeclares hplaces, hadds, hproperties]
  · intro hblocks
    rw [hproperties, h.fills.listed hblocks, List.append_assoc]
    congr 1
    -- A block is put in only if none has been read, so none has been closed.
    cases hput : w.addsBlock with
    | true =>
      have hopen : (start.after source).isClosed = false := by
        rw [Writer.addsBlock, Bool.and_eq_true, Bool.not_eq_true', h.stands.hasProperties] at hput
        rw [Position.isClosed, hput.2, Bool.false_and]
      rw [hopen]
      rfl
    | false => rw [Bool.or_false, if_neg Bool.false_ne_true, List.append_nil]

end

end ShaderMerge.Variant
