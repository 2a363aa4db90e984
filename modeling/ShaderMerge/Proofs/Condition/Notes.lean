import ShaderMerge.Proofs.Condition.Preservation

/-!
# All that a filter writes

`Filter.text` is the text that is written for some lines, the notes about dropped lines included.  A
note is a comment: a preprocessor hands it on and does nothing else with it.  So what
`Filter.kept_preserves` says of the kept lines holds of the whole text up to notes
(`Filter.text_preserves`), also for a filter that knows which textures are used.
-/

namespace ShaderMerge.Condition

open Condition.Group (isSkipNote withoutNotes)

/-- The lines that are written for one line. -/
def Fed.text {σ : Type} (fed : Fed σ) (line : String) : List String :=
  fed.written ++ if fed.feed = .live then [line] else []

/-- The lines that are written for a text. -/
def Filter.text (f : Filter) : List String → List String
  | [] => []
  | line :: lines => (f.feed line).text line ++ (f.feed line).filter.text lines

theorem withoutNotes_append (first second : List String) :
    withoutNotes (first ++ second) = withoutNotes first ++ withoutNotes second :=
  List.filter_append _ _

theorem withoutNotes_withoutNotes (lines : List String) :
    withoutNotes (withoutNotes lines) = withoutNotes lines := by
  simp [withoutNotes, List.filter_filter]

namespace Filter

theorem after_append (f : Filter) (first second : List String) :
    f.after (first ++ second) = (f.after first).after second :=
  List.foldl_append

theorem text_append (f : Filter) (first second : List String) :
    f.text (first ++ second) = f.text first ++ (f.after first).text second := by
  induction first generalizing f with
  | nil => rfl
  | cons line rest ih =>
    change (f.feed line).text line ++ (f.feed line).filter.text (rest ++ second) = _
    rw [ih, ← List.append_assoc]
    rfl

/-- What is written for one line more. -/
theorem text_concat (f : Filter) (lines : List String) (line : String) :
    f.text (lines ++ [line]) = f.text lines ++ ((f.after lines).feed line).text line := by
  rw [text_append]
  exact congrArg _ (List.append_nil _)

theorem withoutNotes_text (f : Filter) (lines : List String) :
    withoutNotes (f.text lines) = withoutNotes (f.kept lines) := by
  induction lines generalizing f with
  | nil => rfl
  | cons line rest ih =>
    rw [text, kept, withoutNotes_append, withoutNotes_append, ih, Fed.text, Fed.kept,
      withoutNotes_append, withoutNotes_append, withoutNotes_withoutNotes]

end Filter

namespace Preprocessor

/-- Two preprocessors that differ at most in the notes they have handed on. -/
structure SameCode (c d : Preprocessor) : Prop where
  symbols : c.symbols = d.symbols
  levels : c.levels = d.levels
  output : withoutNotes c.output = withoutNotes d.output

namespace SameCode

variable {oracle : Oracle} {c d : Preprocessor}

theorem refl (c : Preprocessor) : SameCode c c := ⟨rfl, rfl, rfl⟩

theorem trans {e : Preprocessor} (h : SameCode c d) (h' : SameCode d e) : SameCode c e :=
  ⟨h.symbols.trans h'.symbols, h.levels.trans h'.levels, h.output.trans h'.output⟩

theorem emit (h : SameCode c d) (line : String) : SameCode (c.emit line) (d.emit line) where
  symbols := h.symbols
  levels := h.levels
  output := by
    change withoutNotes (c.output ++ [line]) = withoutNotes (d.output ++ [line])
    rw [withoutNotes_append, withoutNotes_append, h.output]

theorem isLive_eq (h : SameCode c d) : c.isLive = d.isLive := by
  rw [isLive, isLive, h.levels]

theorem pass (h : SameCode c d) (line : String) : SameCode (c.pass line) (d.pass line) := by
  rw [Preprocessor.pass, Preprocessor.pass, h.isLive_eq]
  split
  · exact h.emit line
  · exact h

theorem openGroup (h : SameCode c d) (value : Bool) :
    SameCode (c.openGroup value) (d.openGroup value) where
  symbols := h.symbols
  levels := by rw [Preprocessor.openGroup, Preprocessor.openGroup, h.isLive_eq, h.levels]
  output := h.output

theorem nextArm (h : SameCode c d) (line : String) (value : Bool) :
    SameCode (c.nextArm line value) (d.nextArm line value) := by
  rw [Preprocessor.nextArm, Preprocessor.nextArm, h.levels]
  split
  · exact h.emit line
  · exact ⟨h.symbols, rfl, h.output⟩

theorem closeGroup (h : SameCode c d) (line : String) :
    SameCode (c.closeGroup line) (d.closeGroup line) := by
  rw [Preprocessor.closeGroup, Preprocessor.closeGroup, h.levels]
  split
  · exact h.emit line
  · exact ⟨h.symbols, rfl, h.output⟩

theorem define (h : SameCode c d) (line name : String) (isDefined : Bool) :
    SameCode (c.define line name isDefined) (d.define line name isDefined) := by
  rw [Preprocessor.define, Preprocessor.define, h.isLive_eq, h.symbols]
  split
  · have hset : SameCode { c with symbols := d.symbols.set name isDefined }
        { d with symbols := d.symbols.set name isDefined } := ⟨rfl, h.levels, h.output⟩
    exact hset.emit line
  · exact h

theorem step (h : SameCode c d) (line : String) :
    SameCode (c.step oracle line) (d.step oracle line) := by
  rw [Preprocessor.step, Preprocessor.step, h.symbols]
  split
  · exact h.openGroup _
  · exact h.openGroup _
  · exact h.openGroup _
  · exact h.nextArm line _
  · exact h.nextArm line _
  · exact h.closeGroup line
  · exact h.define line _ _
  · exact h.define line _ _
  · exact h.pass line

/-- A note is handed on at most. -/
theorem of_note {line : String} (h : isSkipNote line = true) :
    SameCode (c.step oracle line) c := by
  have hplain := Group.ofLine_of_isSkipNote h
  have hemit : SameCode (c.emit line) c := by
    refine ⟨rfl, rfl, ?_⟩
    change withoutNotes (c.output ++ [line]) = withoutNotes c.output
    rw [withoutNotes_append]
    simp [withoutNotes, h]
  rw [Preprocessor.step, hplain]
  change SameCode (c.pass line) c
  rw [Preprocessor.pass]
  split
  · exact hemit
  · exact refl c

/-- Without its notes a text means the same. -/
theorem run (h : SameCode c d) (lines : List String) :
    SameCode (c.run oracle lines) (d.run oracle (withoutNotes lines)) := by
  induction lines generalizing c d with
  | nil => exact h
  | cons line rest ih =>
    cases hnote : isSkipNote line with
    | true =>
      have hskip : withoutNotes (line :: rest) = withoutNotes rest := by simp [withoutNotes, hnote]
      rw [hskip]
      exact ih ((of_note hnote).trans h)
    | false =>
      have hkeep : withoutNotes (line :: rest) = line :: withoutNotes rest := by
        simp [withoutNotes, hnote]
      rw [hkeep]
      exact ih (h.step line)

end SameCode

/-- The code of a text under a choice of symbols: the lines that a preprocessor hands on, without
notes. -/
def code (oracle : Oracle) (σ : Symbols) (lines : List String) : List String :=
  withoutNotes ((start σ).run oracle lines).output

/-- A preprocessor that has handed on some lines already. -/
def behind (first : List String) (c : Preprocessor) : Preprocessor :=
  { c with output := first ++ c.output }

theorem emit_behind (first : List String) (c : Preprocessor) (line : String) :
    (c.behind first).emit line = (c.emit line).behind first := by
  simp only [emit, behind, List.append_assoc]

/-- What has been handed on does not matter. -/
theorem step_behind (oracle : Oracle) (first : List String) (c : Preprocessor) (line : String) :
    (c.behind first).step oracle line = (c.step oracle line).behind first := by
  have hlive : (c.behind first).isLive = c.isLive := rfl
  have hpass : (c.behind first).pass line = (c.pass line).behind first := by
    rw [Preprocessor.pass, Preprocessor.pass, hlive]
    split
    · exact c.emit_behind first line
    · rfl
  have harm : ∀ value,
      (c.behind first).nextArm line value = (c.nextArm line value).behind first := by
    intro value
    rw [Preprocessor.nextArm, Preprocessor.nextArm,
      show (c.behind first).levels = c.levels from rfl]
    split
    · exact c.emit_behind first line
    · rfl
  have hclose : (c.behind first).closeGroup line = (c.closeGroup line).behind first := by
    rw [Preprocessor.closeGroup, Preprocessor.closeGroup,
      show (c.behind first).levels = c.levels from rfl]
    split
    · exact c.emit_behind first line
    · rfl
  have hdefine : ∀ name isDefined, (c.behind first).define line name isDefined
      = (c.define line name isDefined).behind first := by
    intro name isDefined
    rw [Preprocessor.define, Preprocessor.define, hlive]
    split
    · exact emit_behind first { c with symbols := c.symbols.set name isDefined } line
    · rfl
  -- To open a group hands nothing on.
  rw [step, step]
  split
  · rfl
  · rfl
  · rfl
  · exact harm _
  · exact harm _
  · exact hclose
  · exact hdefine _ _
  · exact hdefine _ _
  · exact hpass

theorem run_behind (oracle : Oracle) (first : List String) (c : Preprocessor)
    (lines : List String) :
    (c.behind first).run oracle lines = (c.run oracle lines).behind first := by
  induction lines generalizing c with
  | nil => rfl
  | cons line rest ih => rw [run_cons, run_cons, step_behind, ih]

/-- The definition of a symbol that is defined is handed on, and nothing else changes. -/
theorem code_define {oracle : Oracle} {σ : Symbols} {line name : String}
    (hline : Control.ofLine line = .define name) (hσ : σ name = true) (lines : List String) :
    code oracle σ (line :: lines) = line :: code oracle σ lines := by
  have hset : σ.set name true = σ := by
    funext n
    by_cases h : n = name
    · rw [h, Symbols.set_self, hσ]
    · exact σ.set_of_ne true h
  have hstep : (start σ).step oracle line = (start σ).behind [line] := by
    rw [step, hline]
    change emit ⟨σ.set name true, [], []⟩ line = _
    rw [hset]
    rfl
  have hnote : isSkipNote line = false := by
    refine Group.isSkipNote_of_ofLine fun hplain => ?_
    cases hline.symm.trans hplain
  rw [code, run_cons, hstep, run_behind, behind, withoutNotes_append]
  simp [withoutNotes, hnote, code]

end Preprocessor

/-- **All that is written means what all lines mean.**  Up to notes a preprocessor hands on the same
lines and ends with the same symbols on both. -/
theorem Filter.text_preserves {oracle : Oracle} {usage : Table String Bool}
    (horacle : oracle.IsSound (.ofProperties usage)) {known : List (String × Bool)} {σ : Symbols}
    (hσ : σ.Extends (Filter.new known).defined) (lines : List String) :
    Preprocessor.code oracle σ (((Filter.new known).withUsage usage).text lines)
      = Preprocessor.code oracle σ lines := by
  have hstart : Simulates ((Filter.new known).withUsage usage) (.start σ) (.start σ) :=
    (Simulates.start hσ).congr rfl rfl
  have hkept := (hstart.run horacle lines).output
  have htext : ∀ text, Preprocessor.SameCode ((Preprocessor.start σ).run oracle text)
      ((Preprocessor.start σ).run oracle (withoutNotes text)) :=
    fun text => .run (.refl (.start σ)) text
  have hwritten := (htext (((Filter.new known).withUsage usage).text lines)).output
  rw [Filter.withoutNotes_text, ← (htext _).output, hkept] at hwritten
  exact hwritten

end ShaderMerge.Condition
