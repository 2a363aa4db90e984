import Mathlib.Data.List.Forall2
import ShaderMerge.Proofs.Variant.Emission
import ShaderMerge.Proofs.Variant.Wholeness

/-!
# Every live line is accounted for

The text of a variant, its chunks in the place of their includes, is made of parts
(`Proofs.Variant.Provenance`): each live line is part of one of them, in the order of the walk, and
what a part has for its lines is fair (`accounts_of_variant`).

A writer writes to several places at once: the main file, the chunks of the files that are being
walked, and the signature that is held back.  `Levels` are the parts of the first two, and `Traced`
is what an event preserves.  The end of an included file moves the parts of a chunk to the place
of its include, which is where the next line goes.  That is behind the lines that have been read
only if no signature is held back then; otherwise the include becomes part of the signature, and
the lines of the file in front of the signature come to stand behind its start.
-/

namespace ShaderMerge.Variant

open Include (Walk Event Moment Run)

/-- The live lines of a run. -/
def liveReads (moments : List (Moment Writer)) : List LiveLine :=
  moments.flatMap fun m => m.before.reads m.event

/-- Whether a writer releases what it holds back before an included file ends. -/
def Releases (w : Writer) : Event → Prop
  | .endInclude _ _ => w.held = []
  | _ => True

instance (w : Writer) : (event : Event) → Decidable (Releases w event)
  | .line _ _ => inferInstanceAs (Decidable True)
  | .include_ _ _ _ => inferInstanceAs (Decidable True)
  | .endInclude _ _ => inferInstanceAs (Decidable (w.held = []))

/-! ## The parts of all places -/

/-- The parts in the main file, and in the chunks that are being written, innermost first. -/
structure Levels where
  /-- The parts in the main file. -/
  main : List Part
  /-- The parts in the chunks. -/
  nested : List (List Part)

namespace Levels

variable {l : Levels} {more : List Part}

/-- All parts in the order in which they come to stand. -/
def all (l : Levels) : List Part := l.main ++ l.nested.reverse.flatten

/-- Parts go to the innermost chunk, or to the main file. -/
def put (l : Levels) (more : List Part) : Levels :=
  match l.nested with
  | [] => { l with main := l.main ++ more }
  | chunk :: outer => { l with nested := (chunk ++ more) :: outer }

/-- A chunk starts. -/
def push (l : Levels) : Levels := { l with nested := [] :: l.nested }

@[simp] theorem all_push : l.push.all = l.all := by simp [push, all]

@[simp] theorem all_put : (l.put more).all = l.all ++ more := by
  cases hnested : l.nested with
  | nil => simp [put, all, hnested]
  | cons chunk outer => simp [put, all, hnested]

theorem main_put (l : Levels) (more : List Part) : l.main <+: (l.put more).main := by
  rw [put]
  split
  · exact List.prefix_append _ _
  · exact List.prefix_refl _

end Levels

/-- Some lines with the chunks in the place of their includes are the text of some parts. -/
def Spells (g : GeneratedShader) (lines : Array String) (parts : List Part) : Prop :=
  inline g.chunks lines.toList = textOf parts

/-- Where the shader line stands: at a place of some lines, and behind some parts. -/
def NamedAt (g : GeneratedShader) (lines : List String) (parts : List Part) (place : Nat) : Prop :=
  ∃ front text written back, parts = front ++ .outer ⟨none, text⟩ written :: back ∧
    Writer.isShaderLine text = true ∧ lines[place]? = some written ∧
    inline g.chunks (lines.take place) = textOf front

/-- Where the first brace of the shader ends: behind some lines of the main file, and behind some
parts.  The shader line is one of them if it has been read. -/
def OpenedAt (g : GeneratedShader) (w : Writer) (parts : List Part) (place : Nat) : Prop :=
  ∃ front back, parts = front ++ back ∧ place ≤ w.main.toList.length ∧
    inline g.chunks (w.main.toList.take place) = textOf front ∧
    ∀ line, w.outline.shaderLine = some line → NamedAt g w.main.toList front line

/-- What a run preserves: the text at each place is that of its parts. -/
structure Traced (r : Request) (g : GeneratedShader) (w : Writer) (l : Levels)
    (held : List Part) : Prop where
  main : Spells g w.main l.main
  nested : List.Forall₂ (Spells g) w.nested l.nested
  holds : w.Holds r held
  clean : w.held.filter (includesAny g.chunks) = []
  fair : ∀ part ∈ l.all, part.IsFair r
  shaderLine : ∀ place, w.outline.shaderLine = some place → NamedAt g w.main.toList l.main place
  shaderBody : ∀ place, w.outline.shaderBody = some place → OpenedAt g w l.main place

section

variable {r : Request} {g : GeneratedShader} {w w₁ w' : Writer} {l l' : Levels}
  {held held' parts : List Part}

theorem Traced.new (r : Request) (g : GeneratedShader) : Traced r g (.new r) ⟨[], []⟩ [] where
  main := inline_nil g.chunks
  nested := .nil
  holds := rfl
  clean := rfl
  fair := by simp [Levels.all]
  shaderLine place hplace := by cases hplace
  shaderBody place hplace := by cases hplace

/-- Without chunks that are being written there are no parts in chunks. -/
theorem Traced.levels_eq_nil (h : Traced r g w l held) (hnested : w.nested = []) :
    l.nested = [] := by
  have hlength := h.nested.length_eq
  rw [hnested] at hlength
  exact List.length_eq_zero_iff.1 hlength.symm

/-- Lines and parts behind those up to the shader line do not move it. -/
theorem NamedAt.mono {lines lines' : List String} {parts parts' : List Part} {place : Nat}
    (h : NamedAt g lines parts place) (hlines : lines <+: lines') (hparts : parts <+: parts') :
    NamedAt g lines' parts' place := by
  obtain ⟨front, text, written, back, rfl, hshader, hline, hfront⟩ := h
  obtain ⟨more, rfl⟩ := hparts
  obtain ⟨rest, rfl⟩ := hlines
  obtain ⟨hlt, -⟩ := List.getElem?_eq_some_iff.1 hline
  refine ⟨front, text, written, back ++ more, by simp, hshader, ?_, ?_⟩
  · rw [List.getElem?_append_left hlt]
    exact hline
  · rw [List.take_append_of_le_length (Nat.le_of_lt hlt)]
    exact hfront

theorem OpenedAt.mono {parts parts' : List Part} {place : Nat} (h : OpenedAt g w parts place)
    (hmain : w.main.toList <+: w'.main.toList)
    (hline : w'.outline.shaderLine = w.outline.shaderLine) (hparts : parts <+: parts') :
    OpenedAt g w' parts' place := by
  obtain ⟨front, back, rfl, hle, hfront, hnamed⟩ := h
  obtain ⟨more, rfl⟩ := hparts
  obtain ⟨rest, hrest⟩ := hmain
  refine ⟨front, back ++ more, by simp, ?_, ?_, ?_⟩
  · rw [← hrest, List.length_append]
    omega
  · rw [← hrest, List.take_append_of_le_length hle]
    exact hfront
  · intro line hsome
    exact (hnamed line (hline ▸ hsome)).mono ⟨rest, hrest⟩ (List.prefix_refl _)

theorem Spells.append {more : List String} {chunk longer : Array String}
    (h : Spells g chunk held) (hlonger : longer.toList = chunk.toList ++ more)
    (hmore : inline g.chunks more = textOf parts) : Spells g longer (held ++ parts) := by
  rw [Spells] at h ⊢
  rw [hlonger, inline_append, h, hmore, textOf_append]

/-- Lines are put where their parts go. -/
theorem spells_put (hmain : Spells g w.main l.main)
    (hnested : List.Forall₂ (Spells g) w.nested l.nested) {lines : List String}
    (hputs : Writer.Puts w w' lines) (hlines : inline g.chunks lines = textOf parts) :
    Spells g w'.main (l.put parts).main ∧
      List.Forall₂ (Spells g) w'.nested (l.put parts).nested := by
  obtain ⟨main, nested⟩ := l
  rw [Writer.Puts] at hputs
  generalize w.nested = chunks at hnested hputs
  cases hnested with
  | nil =>
    obtain ⟨hlonger, hnone⟩ := hputs
    rw [hnone]
    exact ⟨hmain.append hlonger hlines, .nil⟩
  | cons hchunk houter =>
    obtain ⟨hsame, longer, hlonger, htext⟩ := hputs
    rw [hlonger]
    refine ⟨?_, .cons (hchunk.append htext hlines) houter⟩
    rw [Spells, hsame]
    exact hmain

/-- The main file only grows. -/
theorem main_puts {lines : List String} (hputs : Writer.Puts w w' lines) :
    w.main.toList <+: w'.main.toList := by
  rw [Writer.Puts] at hputs
  split at hputs
  · exact ⟨lines, hputs.1.symm⟩
  · exact hputs.1 ▸ List.prefix_refl _

/-! ## Events -/

/-- What is written and held back in an event includes no chunk. -/
theorem clean_of_includes (h : w.held.filter (includesAny g.chunks) = [])
    {lines : List String} (hputs : Writer.Puts w w' lines)
    (hincludes : w'.lines.filter (includesAny g.chunks) = w.lines.filter (includesAny g.chunks)) :
    inline g.chunks lines = lines ∧ w'.held.filter (includesAny g.chunks) = [] := by
  rw [Writer.lines, Writer.lines, hputs.written_eq, List.append_assoc, List.filter_append,
    List.filter_append, List.filter_append, List.append_cancel_left_eq, h, List.append_eq_nil_iff]
    at hincludes
  exact ⟨inline_of_filter hincludes.1, hincludes.2⟩

/-- The places that are remembered in an event are those of the lines that are written next. -/
theorem places_event {walk walk' : Walk} {event : Event}
    (hend : ∀ directive target, event ≠ .endInclude directive target)
    (hread : Writer.event r w walk event = .ok (w', walk')) :
    (w'.outline.shaderLine = w.outline.shaderLine ∨
        w'.outline.shaderLine = some w.main.toList.length) ∧
      (w'.outline.shaderBody = w.outline.shaderBody ∨
        w'.outline.shaderBody = some w'.main.toList.length) := by
  obtain ⟨w₁, hmoves, hpush⟩ := Writer.moves_event hend hread
  have hplaces : (w₁.outline.shaderLine = w.outline.shaderLine ∨
        w₁.outline.shaderLine = some w.main.toList.length) ∧
      (w₁.outline.shaderBody = w.outline.shaderBody ∨
        w₁.outline.shaderBody = some w₁.main.toList.length) := by
    rcases hmoves.remembers with ⟨hline, hbody⟩ | ⟨body, hline, -, hsome, -, hlast⟩ |
      ⟨text, -, hsome, hbody, -⟩
    · exact ⟨.inl hline, .inl hbody⟩
    · exact ⟨.inl hline, .inr (by rw [hsome, hlast, Array.length_toList])⟩
    · exact ⟨.inr (by rw [hsome, Array.length_toList]), .inl hbody⟩
  rcases hpush with ⟨rfl, -⟩ | ⟨rfl, -⟩
  · exact hplaces
  · exact hplaces

/-- The shader line is the part that is written when it is read. -/
theorem namedAt_put (h : Traced r g w l held) (hputs : Writer.Puts w w' (textOf parts))
    (hnames : Writer.NamesShader w w' parts)
    (hnested : w'.outline.shaderLine ≠ w.outline.shaderLine → w.nested = [])
    (hplaced : w'.outline.shaderLine = w.outline.shaderLine ∨
      w'.outline.shaderLine = some w.main.toList.length) {place : Nat}
    (hplace : w'.outline.shaderLine = some place) :
    NamedAt g w'.main.toList (l.put parts).main place := by
  by_cases hsame : w'.outline.shaderLine = w.outline.shaderLine
  · exact (h.shaderLine place (hsame ▸ hplace)).mono (main_puts hputs) (l.main_put parts)
  · obtain ⟨text, written, rfl, hshader⟩ := hnames.resolve_left hsame
    have hnone := hnested hsame
    rw [hplaced.resolve_left hsame] at hplace
    cases hplace
    rw [Writer.Puts, hnone] at hputs
    have hmain : w'.main.toList = w.main.toList ++ [written] := hputs.1
    refine ⟨l.main, text, written, [], ?_, hshader, ?_, ?_⟩
    · rw [Levels.put, h.levels_eq_nil hnone]
    · rw [hmain, List.getElem?_append_right (Nat.le_refl _), Nat.sub_self]
      rfl
    · rw [hmain, List.take_left]
      exact h.main

/-- The first brace ends behind all parts, and behind the shader line if that has been read. -/
theorem openedAt_put (h : Traced r g w l held) (hputs : Writer.Puts w w' (textOf parts))
    (hmain : Spells g w'.main (l.put parts).main)
    (hline : ∀ place, w'.outline.shaderLine = some place →
      NamedAt g w'.main.toList (l.put parts).main place)
    (hfirst : w'.outline.shaderLine ≠ w.outline.shaderLine → w.outline.shaderBody = none)
    (hplaced : w'.outline.shaderBody = w.outline.shaderBody ∨
      w'.outline.shaderBody = some w'.main.toList.length) {place : Nat}
    (hplace : w'.outline.shaderBody = some place) :
    OpenedAt g w' (l.put parts).main place := by
  by_cases hbefore : w'.outline.shaderBody = w.outline.shaderBody
  · -- The shader line is not read behind the first brace.
    have hkept : w'.outline.shaderLine = w.outline.shaderLine := by
      by_contra hne
      rw [hbefore, hfirst hne] at hplace
      cases hplace
    exact (h.shaderBody place (hbefore ▸ hplace)).mono (main_puts hputs) hkept
      (l.main_put parts)
  · rw [hplaced.resolve_left hbefore] at hplace
    cases hplace
    refine ⟨(l.put parts).main, [], (List.append_nil _).symm, Nat.le_refl _, ?_, hline⟩
    rw [List.take_length]
    exact hmain

/-- An event other than the end of an included file writes parts behind those that are written. -/
theorem traced_event {walk walk' : Walk} {event : Event} (h : Traced r g w l held)
    (hend : ∀ directive target, event ≠ .endInclude directive target)
    (hread : Writer.event r w walk event = .ok (w', walk')) (hplaces : KeepsPlaces g w w') :
    ∃ l' held', Traced r g w' l' held' ∧
      readsOf (l'.all ++ held') = readsOf (l.all ++ held) ++ w.reads event := by
  obtain ⟨w₁, parts, held', hemits, hnames, hpush⟩ := Writer.emits_event h.holds hend hread
  -- A chunk that starts has no lines and no place yet, so all but its level is settled by `w₁`.
  have hlines : w'.lines = w₁.lines := by
    rcases hpush with rfl | rfl
    · rfl
    · exact w₁.lines_push
  have houtline : w'.outline = w₁.outline := by rcases hpush with rfl | rfl <;> rfl
  have hsame : w'.main = w₁.main := by rcases hpush with rfl | rfl <;> rfl
  obtain ⟨hplacedLine, hplacedBody⟩ := places_event hend hread
  have hshader := hplaces.shaderLine
  have hincludes := hplaces.includes
  rw [houtline] at hplacedLine hplacedBody hshader
  rw [hsame] at hplacedBody
  rw [hlines] at hincludes
  obtain ⟨htext, hclean⟩ := clean_of_includes h.clean hemits.puts hincludes
  obtain ⟨hmain, hnested⟩ := spells_put h.main h.nested hemits.puts htext
  have hline : ∀ place, w₁.outline.shaderLine = some place →
      NamedAt g w₁.main.toList (l.put parts).main place :=
    fun place => namedAt_put h hemits.puts hnames (fun hne => (hshader hne).2) hplacedLine
  have hbody : ∀ place, w₁.outline.shaderBody = some place →
      OpenedAt g w₁ (l.put parts).main place :=
    fun place => openedAt_put h hemits.puts hmain hline (fun hne => (hshader hne).1) hplacedBody
  have htraced : Traced r g w₁ (l.put parts) held' := by
    refine ⟨hmain, hnested, hemits.holds, hclean, ?_, hline, hbody⟩
    rw [Levels.all_put]
    exact List.forall_mem_append.2 ⟨h.fair, hemits.fair⟩
  have hreads : readsOf ((l.put parts).all ++ held')
      = readsOf (l.all ++ held) ++ w.reads event := by
    rw [Levels.all_put, readsOf_append, readsOf_append, readsOf_append, List.append_assoc,
      ← hemits.reads, List.append_assoc]
  rcases hpush with rfl | rfl
  · exact ⟨_, _, htraced, hreads⟩
  · refine ⟨(l.put parts).push, held', ?_, by rw [Levels.all_push, hreads]⟩
    refine ⟨htraced.main, .cons (inline_nil g.chunks) htraced.nested, htraced.holds, htraced.clean,
      ?_, htraced.shaderLine, htraced.shaderBody⟩
    rw [Levels.all_push]
    exact htraced.fair

/-- The end of an included file puts its parts where the next line goes. -/
theorem traced_endInclude (hordered : WellOrdered g.chunks) (h : Traced r g w l held)
    {target : String} (hheld : w.held = []) (hnames : NamesChunk g w target)
    (hsubset : (w.endInclude target).chunks ⊆ g.chunks) :
    ∃ l', Traced r g (w.endInclude target) l' held ∧ l'.all = l.all := by
  have hnone := h.holds.eq_nil hheld
  subst hnone
  cases hnested : w.nested with
  | nil =>
    rw [Writer.endInclude, hnested]
    exact ⟨l, h, rfl⟩
  | cons lines outer =>
    obtain ⟨main, nested⟩ := l
    have hlevels := h.nested
    rw [hnested] at hlevels
    -- The parts of the chunk go to the level outside of it, its include is their text.
    cases hlevels with
    | @cons _ chunk _ levels hchunk houter =>
      let opened : Writer :=
        { w with nested := outer, chunks := Sound.addChunk w.chunks (chunkOf target lines.toList) }
      have hline := inline_chunkOf hordered hnames hsubset hnested
      have hputs := opened.puts_put [Directive.includeLine (chunkOf target lines.toList).name]
      have hholds : opened.Holds r [] := h.holds
      have hgrows := main_puts hputs
      have hlevel := Levels.main_put ⟨main, levels⟩ chunk
      obtain ⟨hmain, hnested'⟩ :=
        @spells_put g opened _ ⟨main, levels⟩ chunk h.main houter _ hputs (hline.trans hchunk)
      have hall : (Levels.put ⟨main, levels⟩ chunk).all = Levels.all ⟨main, chunk :: levels⟩ := by
        rw [Levels.all_put]
        simp [Levels.all]
      rw [Sound.endInclude_eq hnested, hholds.write_eq]
      refine ⟨Levels.put ⟨main, levels⟩ chunk, ⟨hmain, hnested', ?_, ?_, ?_, ?_, ?_⟩, hall⟩
      · rw [Writer.Holds, Writer.put_program]
        exact h.holds
      · rw [Writer.held_put]
        exact h.clean
      · rw [hall]
        exact h.fair
      · intro place hplace
        rw [Writer.put_outline] at hplace
        exact (h.shaderLine place hplace).mono hgrows hlevel
      · intro place hplace
        rw [Writer.put_outline] at hplace
        exact (h.shaderBody place hplace).mono hgrows (congrArg _ Writer.put_outline) hlevel

/-- **One event.**  The live lines that it reads join those of the parts. -/
theorem traced_step {walk walk' : Walk} {event : Event} (hordered : WellOrdered g.chunks)
    (hstep : Writer.event r w walk event = .ok (w', walk')) (horderly : IsOrderly g w w' event)
    (hreleases : Releases w event) (hsubset : w'.chunks ⊆ g.chunks) (h : Traced r g w l held) :
    ∃ l' held', Traced r g w' l' held' ∧
      readsOf (l'.all ++ held') = readsOf (l.all ++ held) ++ w.reads event := by
  by_cases hend : ∀ directive target, event ≠ .endInclude directive target
  · exact traced_event h hend hstep (horderly.keepsPlaces hend)
  · simp only [not_forall, not_not] at hend
    obtain ⟨directive, target, rfl⟩ := hend
    cases hstep
    obtain ⟨l', htraced, hall⟩ := traced_endInclude hordered h hreleases horderly hsubset
    refine ⟨l', held, htraced, ?_⟩
    rw [hall]
    exact (List.append_nil _).symm

/-! ## Runs -/

theorem traced_run {walk walk' : Walk} {moments : List (Moment Writer)}
    (hordered : WellOrdered g.chunks)
    (hrun : Run r.shader.sources (Writer.event r) w walk moments w' walk')
    (horderly : Orderly g moments) (hreleases : ∀ m ∈ moments, Releases m.before m.event)
    (hsubset : w'.chunks ⊆ g.chunks) (h : Traced r g w l held) :
    ∃ l' held', Traced r g w' l' held' ∧
      readsOf (l'.all ++ held') = readsOf (l.all ++ held) ++ liveReads moments := by
  induction hrun generalizing l held with
  | nil => exact ⟨l, held, h, (List.append_nil _).symm⟩
  | @cons w w₁ w' walk walk₁ walk₂ walk' event moments hnext hstep hrest ih =>
    -- The chunks that are there behind the event are still there at the end.
    have hchunks : w₁.chunks ⊆ g.chunks :=
      List.Subset.trans (chunks_subset_run hrest) hsubset
    obtain ⟨l₁, held₁, htraced, hreads⟩ := traced_step hordered hstep
      (horderly _ List.mem_cons_self) (hreleases _ List.mem_cons_self) hchunks h
    obtain ⟨l', held', htraced', hreads'⟩ := ih
      (fun m hm => horderly m (List.mem_cons_of_mem _ hm))
      (fun m hm => hreleases m (List.mem_cons_of_mem _ hm)) hsubset htraced
    refine ⟨l', held', htraced', ?_⟩
    rw [hreads', hreads, List.append_assoc]
    rfl

/-! ## The end of a variant -/

/-- What is left to do behind the walk: the text of the main file is that of all parts. -/
structure Complete (r : Request) (g : GeneratedShader) (lines : List String) (parts : List Part)
    (shaderLine : Option Nat) : Prop where
  text : inline g.chunks lines = textOf parts
  fair : ∀ part ∈ parts, part.IsFair r
  shaderLine : ∀ place, shaderLine = some place → NamedAt g lines parts place

/-- The parts that are still held back come last. -/
theorem complete_of_traced (h : Traced r g w l held) (hnested : w.nested = [])
    (hreleased : Released w w') :
    Complete r g w'.main.toList (l.all ++ held) w'.outline.shaderLine ∧
      ∀ place, w'.outline.shaderBody = some place → OpenedAt g w' (l.all ++ held) place := by
  have hall : l.all = l.main := by
    rw [Levels.all, h.levels_eq_nil hnested]
    exact List.append_nil _
  have hmain : w'.main.toList = w.main.toList ++ w.held := by
    rw [hreleased.main_eq hnested, Writer.lines, Writer.written, hnested]
    simp
  have hparts : l.main <+: l.main ++ held := List.prefix_append _ _
  have hmainParts : inline g.chunks w.main.toList = textOf l.main := h.main
  rw [hall, hreleased.outline]
  refine ⟨⟨?_, ?_, ?_⟩, ?_⟩
  · rw [hmain, inline_append, inline_of_filter h.clean, hmainParts, textOf_append, h.holds.text_eq]
  · exact List.forall_mem_append.2 ⟨hall ▸ h.fair, h.holds.fair⟩
  · intro place hplace
    exact (h.shaderLine place hplace).mono hreleased.main hparts
  · intro place hplace
    exact (h.shaderBody place hplace).mono hreleased.main (by rw [hreleased.outline]) hparts

/-- The properties that the variant adds are a part behind the first brace. -/
theorem exists_complete_addProperties {parts : List Part}
    (h : Complete r g w.main.toList parts w.outline.shaderLine)
    (hopened : ∀ place, w.outline.shaderBody = some place → OpenedAt g w parts place)
    (hbefore : ∀ place body, w.outline.shaderLine = some place →
      w.outline.shaderBody = some body → place < body) :
    ∃ parts', Complete r g (w.addProperties r).main.toList parts' w.outline.shaderLine ∧
      readsOf parts' = readsOf parts := by
  simp only [Writer.addProperties]
  split
  · exact ⟨parts, h, rfl⟩
  · rename_i body hbody
    split
    · exact ⟨parts, h, rfl⟩
    · obtain ⟨front, back, rfl, hle, hfront, hnamed⟩ := hopened body hbody
      let block := ["Properties", "\x7b"] ++ r.addedProperties.map AddedProperty.line ++ ["\x7d"]
      have hblock : inline g.chunks block = block := inline_added g.chunks r
      refine ⟨front ++ .added block :: back, ⟨?_, ?_, ?_⟩, ?_⟩
      · have htext := h.text
        rw [textOf_append] at htext
        rw [textOf_append, textOf_cons]
        exact inline_insert hblock hfront htext
      · obtain ⟨hfrontFair, hbackFair⟩ := List.forall_mem_append.1 h.fair
        exact List.forall_mem_append.2
          ⟨hfrontFair, List.forall_mem_cons.2 ⟨.block, hbackFair⟩⟩
      · intro place hplace
        have hlt := hbefore place body hplace hbody
        -- The shader line stands in front of the block.
        obtain ⟨first, text, written, rest, rfl, hshader, hline, hfirst⟩ := hnamed place hplace
        have hshorter : place < (w.main.toList.take body).length := by
          rw [List.length_take]
          omega
        refine ⟨first, text, written, rest ++ .added block :: back, by simp, hshader, ?_, ?_⟩
        · rw [List.append_assoc, List.getElem?_append_left hshorter, List.getElem?_take_of_lt hlt]
          exact hline
        · rw [List.append_assoc, List.take_append_of_le_length (Nat.le_of_lt hshorter),
            List.take_take, Nat.min_eq_left (Nat.le_of_lt hlt)]
          exact hfirst
      · rw [readsOf_append, readsOf_append, readsOf_cons]
        rfl

/-- The name of the variant takes the place of that of the shader. -/
theorem exists_parts_named {lines : List String} {parts : List Part} {place? : Option Nat}
    (h : Complete r g lines parts place?)
    (hplain : ∀ place, place? = some place →
      ∃ line, lines[place]? = some line ∧ includesAny g.chunks line = false) :
    ∃ parts', (∀ part ∈ parts', part.IsFair r) ∧ readsOf parts' = readsOf parts ∧
      inline g.chunks (named g.name lines place?) = textOf parts' := by
  cases hplace : place? with
  | none => exact ⟨parts, h.fair, rfl, h.text⟩
  | some place =>
    obtain ⟨front, text, written, back, rfl, hshader, hline, hfront⟩ := h.shaderLine place hplace
    obtain ⟨line, hsame, hincludes⟩ := hplain place hplace
    rw [hline] at hsame
    cases hsame
    have hnew := not_includesAny_shaderLine g.chunks g.name
    have hwhole : inline g.chunks lines = textOf front ++ written :: textOf back := by
      rw [h.text, textOf_append, textOf_cons]
      rfl
    obtain ⟨hfrontFair, hrestFair⟩ := List.forall_mem_append.1 h.fair
    obtain ⟨⟨-, hstart, -⟩, hbackFair⟩ := List.forall_mem_cons.1 hrestFair
    refine ⟨front ++ .outer ⟨none, text⟩ ("Shader \"" ++ g.name ++ "\"") :: back, ?_, ?_, ?_⟩
    · exact List.forall_mem_append.2 ⟨hfrontFair, List.forall_mem_cons.2
        ⟨⟨rfl, hstart, .inr (.inr ⟨hshader, g.name, rfl⟩)⟩, hbackFair⟩⟩
    · rw [readsOf_append, readsOf_append, readsOf_cons, readsOf_cons]
      rfl
    · rw [named, inline_set _ hline hincludes hnew hfront hwhole, textOf_append, textOf_cons]
      rfl

end

/-- **Nothing else changes.**  The text of a variant, its chunks in the place of their includes, is
made of parts: they are written for the live lines of the walk, each in one part, in their order,
and every line that is not rewritten is kept.  This holds as long as no included file ends while the
signature of an entry point is held back. -/
theorem accounts_of_variant {shader : Shader} {o : Options} {g : GeneratedShader}
    (hvariant : shader.variant o = .ok g) (horderly : Orderly g (Writer.moments shader o))
    (hreleases : ∀ m ∈ Writer.moments shader o, Releases m.before m.event) :
    ∃ substitution parts, Substitution.new shader o = .ok substitution ∧
      (∀ part ∈ parts, part.IsFair ⟨shader, o, substitution⟩) ∧
      readsOf parts = liveReads (Writer.moments shader o) ∧ textOf parts = g.inlined := by
  obtain ⟨substitution, w, walk, hsubstitution, hrun, -, hfinish, hchunks, hnested, hsound⟩ :=
    exists_run_of_orderly hvariant horderly
  let r : Request := ⟨shader, o, substitution⟩
  have hordered : WellOrdered g.chunks := hchunks ▸ hsound.ordered
  have hsubset : w.chunks ⊆ g.chunks := by
    rw [hchunks]
    exact List.Subset.refl _
  obtain ⟨l, held, htraced, hreads⟩ :=
    @traced_run r g _ w _ _ _ _ _ hordered hrun horderly hreleases hsubset (.new r g)
  obtain ⟨w', hreleased, -, hmain⟩ := finish_eq hfinish
  obtain ⟨hcomplete, hopened⟩ := complete_of_traced htraced hnested hreleased
  have hplaces : ∀ place, w'.outline.shaderLine = some place →
      (∃ line, w'.main.toList[place]? = some line ∧ includesAny g.chunks line = false) ∧
        ∀ body, w'.outline.shaderBody = some body → place < body := by
    intro place hplace
    rw [hreleased.outline] at hplace ⊢
    obtain ⟨⟨line, hline, -, hincludes⟩, hbody⟩ := hsound.shaderLine place hplace
    exact ⟨⟨line, Sound.getElem?_of_main hreleased.main hline, hincludes⟩, hbody⟩
  obtain ⟨added, hadded, haddedReads⟩ := exists_complete_addProperties hcomplete hopened
    fun place body hplace => (hplaces place hplace).2 body
  obtain ⟨parts, hfair, hpartsReads, htext⟩ := exists_parts_named hadded (by
    intro place hplace
    obtain ⟨⟨line, hline, hincludes⟩, hbody⟩ := hplaces place hplace
    exact ⟨line, getElem?_addProperties hline hbody r, hincludes⟩)
  refine ⟨substitution, parts, hsubstitution, hfair, ?_, ?_⟩
  · rw [hpartsReads, haddedReads, hreads]
    rfl
  · rw [GeneratedShader.inlined, hmain, htext]

/-- A shader that includes a file in front of an entry point. -/
def includedBeforeEntry : List String :=
  ["Shader \"S\"", "\x7b", "Pass", "\x7b", "CGPROGRAM", "#pragma vertex vert",
    "#pragma fragment frag", "#include \"a.cginc\"",
    "float4 vert(float4 p : POSITION) : SV_Position", "\x7b", "return p;", "\x7d",
    "float4 frag() : SV_Target", "\x7b", "return helper;", "\x7d", "ENDCG", "\x7d", "\x7d"]

/-- Options for two meshes that share the draw call. -/
def twoMeshes : Options := { Options.new with meshes := ⟨0, 2⟩ }

/-- An entry point is written anew, and the chunk in front of it stays there. -/
theorem accounts_of_includedBeforeEntry :
    ∃ shader g, Shader.read? (.ofFiles [("a.shader", includedBeforeEntry),
        ("a.cginc", ["float helper;"])]) "a.shader" = .ok shader ∧
      shader.variant twoMeshes = .ok g ∧
      g.chunks.map (·.lines) = [["float helper;"]] ∧
      "float4 vert(float4 p : POSITION) : SV_Position" ∉ g.inlined ∧
      ∃ substitution parts, Substitution.new shader twoMeshes = .ok substitution ∧
        (∀ part ∈ parts, part.IsFair ⟨shader, twoMeshes, substitution⟩) ∧
        readsOf parts = liveReads (Writer.moments shader twoMeshes) ∧ textOf parts = g.inlined := by
  have hlines : (Project.ofFiles [("a.shader", includedBeforeEntry),
      ("a.cginc", ["float helper;"])]).readLines? "a.shader" = some includedBeforeEntry :=
    Project.readLines?_ofFiles (by decide +kernel) (by decide +kernel)
  have hcheck : (Shader.read? (.ofFiles [("a.shader", includedBeforeEntry),
      ("a.cginc", ["float helper;"])]) "a.shader").toOption.any (fun shader =>
        (shader.variant twoMeshes).toOption.any fun g : GeneratedShader =>
          decide (g.chunks.map (·.lines) = [["float helper;"]] ∧
              "float4 vert(float4 p : POSITION) : SV_Position" ∉ g.inlined) &&
            (decide (Orderly g (Writer.moments shader twoMeshes)) &&
              decide (∀ m ∈ Writer.moments shader twoMeshes, Releases m.before m.event)))
        = true := by
    rw [Shader.read?, Include.Sources.load, hlines]
    decide +kernel
  obtain ⟨shader, hread, hany⟩ := exists_ok_of_any hcheck
  obtain ⟨g, hvariant, hg⟩ := exists_ok_of_any hany
  rw [Bool.and_eq_true, Bool.and_eq_true, decide_eq_true_eq, decide_eq_true_eq, decide_eq_true_eq]
    at hg
  obtain ⟨⟨hchunks, habsent⟩, horderly, hreleases⟩ := hg
  exact ⟨shader, g, hread, hvariant, hchunks, habsent,
    accounts_of_variant hvariant horderly hreleases⟩

end ShaderMerge.Variant
