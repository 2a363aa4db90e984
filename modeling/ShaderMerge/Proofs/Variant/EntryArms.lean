import ShaderMerge.Proofs.Variant.Definitions
import ShaderMerge.Proofs.Variant.EntryReading

/-!
# Conditional groups in the signature of an entry point

A signature may hold conditional groups that are not decided when its entry point is written anew:
the lines of all their arms are read and edited at once, and a preprocessor later hands some of them
on.  What it hands on of the new signature is the new form of what it hands on of the old one, if
the stage reads of the lines of all arms what it reads of those that are handed on, and the places
that it edits are on such lines (`EntryPoint.adapt_handed`).
-/

namespace ShaderMerge.Variant

open SignatureEdit
open Condition (Oracle Preprocessor Symbols Level Control)

namespace Sieve

/-- A preprocessor that has handed on nothing yet. -/
def ready (state : Symbols × List Level) : Preprocessor := ⟨state.1, state.2, []⟩

variable {line : String}

/-- A line is handed on as it is, or not at all. -/
theorem output_step_ready (oracle : Oracle) (state : Symbols × List Level) (line : String) :
    ((ready state).step oracle line).output = [] ∨
      ((ready state).step oracle line).output = [line] := by
  have hpass : ((ready state).pass line).output = [] ∨ ((ready state).pass line).output = [line] := by
    rw [Preprocessor.pass]
    split
    · exact .inr rfl
    · exact .inl rfl
  have harm : ∀ value, ((ready state).nextArm line value).output = [] ∨
      ((ready state).nextArm line value).output = [line] := by
    intro value
    rw [Preprocessor.nextArm]
    split
    · exact .inr rfl
    · exact .inl rfl
  have hclose : ((ready state).closeGroup line).output = [] ∨
      ((ready state).closeGroup line).output = [line] := by
    rw [Preprocessor.closeGroup]
    split
    · exact .inr rfl
    · exact .inl rfl
  have hdefine : ∀ name isDefined, ((ready state).define line name isDefined).output = [] ∨
      ((ready state).define line name isDefined).output = [line] := by
    intro name isDefined
    rw [Preprocessor.define]
    split
    · exact .inr rfl
    · exact .inl rfl
  rw [Preprocessor.step]
  split
  · exact .inl rfl
  · exact .inl rfl
  · exact .inl rfl
  · exact harm _
  · exact harm _
  · exact hclose
  · exact hdefine _ _
  · exact hdefine _ _
  · exact hpass

theorem step_ready_of_isMarked (oracle : Oracle) (state : Symbols × List Level)
    (h : Directive.isMarked line = false) : (ready state).step oracle line
    = { ready state with output := if Level.liveIn state.2 then [line] else [] } := by
  rw [Preprocessor.step, ofLine_of_not_isMarked h]
  change (ready state).pass line = _
  rw [Preprocessor.pass]
  change (if Level.liveIn state.2 = true then _ else _) = _
  split <;> rfl

/-- The sieve that a preprocessor is: its state is the symbols and the open groups. -/
def preprocessor (oracle : Oracle) : Sieve (Symbols × List Level) where
  step state line :=
    (((ready state).step oracle line).symbols, ((ready state).step oracle line).levels)
  keeps state line := !((ready state).step oracle line).output.isEmpty
  isLive state := Level.liveIn state.2
  isCode line := !Directive.isMarked line
  isMarked_of_isCode h := by simpa using h
  isCode_of hmarked _ := by rw [hmarked]; rfl
  step_of_isCode state line h := by
    have hmarked : Directive.isMarked line = false := by simpa using h
    rw [step_ready_of_isMarked oracle state hmarked]
    rfl
  keeps_of_isCode state line h := by
    have hmarked : Directive.isMarked line = false := by simpa using h
    rw [step_ready_of_isMarked oracle state hmarked]
    dsimp only
    cases Level.liveIn state.2 <;> rfl

theorem thin_preprocessor (oracle : Oracle) (c : Preprocessor) (lines : List String) :
    (preprocessor oracle).thin (c.symbols, c.levels) lines = c.handed oracle lines := by
  induction lines generalizing c with
  | nil => rfl
  | cons line rest ih =>
    -- What has been handed on before does not matter for the symbols and the open groups.
    have hready : (ready (c.symbols, c.levels)).behind c.output = c := by
      rw [Preprocessor.behind, ready, List.append_nil]
    have hbehind : c.step oracle line
        = ((ready (c.symbols, c.levels)).step oracle line).behind c.output := by
      rw [← Preprocessor.step_behind, hready]
    have hrest := ih (c.step oracle line)
    rw [hbehind] at hrest
    have hline : c.handed oracle [line]
        = ((ready (c.symbols, c.levels)).step oracle line).output := rfl
    have hsplit : c.handed oracle (line :: rest)
        = c.handed oracle [line] ++ (c.step oracle line).handed oracle rest :=
      Preprocessor.handed_append oracle c [line] rest
    have hkept : (if (preprocessor oracle).keeps (c.symbols, c.levels) line then [line] else [])
        = ((ready (c.symbols, c.levels)).step oracle line).output := by
      change (if !((ready (c.symbols, c.levels)).step oracle line).output.isEmpty then _ else _) = _
      rcases output_step_ready oracle (c.symbols, c.levels) line with h | h
      · rw [h]
        rfl
      · rw [h]
        rfl
    rw [hsplit, hline, hbehind, ← hrest, thin, hkept]
    rfl

end Sieve

namespace EntryPoint

variable {oracle : Oracle} {c : Preprocessor} {stage : Stage} {p : Plan} {first : String}
  {rest : List String}

/-- Behind the list of parameters, the lines of conditional groups are not read. -/
theorem readsAlike_of_groupsBehind {front : List String} (hclosed : IsClosed front)
    (hfront : ∀ line ∈ front, Directive.isMarked line = false) (hlive : c.isLive = true)
    (oracle : Oracle) (stage : Stage) (p : Plan) (rest : List String) :
    ReadsAlike stage p (c.handed oracle (front ++ rest)) (front ++ rest) := by
  rw [Preprocessor.handed_append, Preprocessor.handed_of_plain
    (fun line hline => ofLine_of_not_isMarked (hfront line hline)), if_pos hlive]
  exact readsAlike_of_front hclosed stage p _ _

/-- **An entry point is written anew for all symbols at once.**  What a preprocessor hands on of the
new signature is the new form of what it hands on of the old one, where the stage reads of all lines
what it reads of those that are handed on, and finds the places that it edits on them. -/
theorem adapt_handed (hlive : c.isLive = true) (hfirst : Directive.isMarked first = false)
    (hreads : ReadsAlike stage p (c.handed oracle (first :: rest)) (first :: rest))
    (hplaces : ∀ s ∈ read? (first :: rest), SamePlaces (Sieve.preprocessor oracle)
      (c.symbols, c.levels) stage p s (clearVoid (first :: rest))) :
    (adapt stage p (c.handed oracle (first :: rest))).toOption
      = (adapt stage p (first :: rest)).toOption.map (mapSignature (c.handed oracle)) := by
  have hcode : (Sieve.preprocessor oracle).isCode first = true := by
    change (!Directive.isMarked first) = true
    rw [hfirst]
    rfl
  have hthin : (Sieve.preprocessor oracle).thin (c.symbols, c.levels) = c.handed oracle :=
    funext (Sieve.thin_preprocessor oracle c)
  rw [← hthin] at hreads ⊢
  exact adapt_thin hlive ⟨first, rest, rfl, hcode⟩ hreads hplaces

/-- A fragment stage with a parameter that only some variants have. -/
def conditionalParameter : List String :=
  ["#ifdef FACE", ", float face : VFACE", "#endif", ") : SV_Target"]

/-- The symbols of a variant with the parameter. -/
def withFace : Preprocessor := .start fun name => name == "FACE"

/-- The symbols of a variant without it. -/
def withoutFace : Preprocessor := .start fun _ => false

theorem adapt_handed_of_conditionalParameter :
    withFace.handed (fun _ _ => false) conditionalParameter
        = [", float face : VFACE", ") : SV_Target"] ∧
      withoutFace.handed (fun _ _ => false) conditionalParameter = [") : SV_Target"] ∧
      (adapt .fragment handingOn ("float4 frag(v2f i" :: conditionalParameter)).toOption.map
          (·.signature)
        = some ("float4 frag(OptimizerVertexOutput optimizerInput" :: conditionalParameter) ∧
      (∀ c ∈ [withFace, withoutFace],
        (adapt .fragment handingOn
            (c.handed (fun _ _ => false) ("float4 frag(v2f i" :: conditionalParameter))).toOption
          = (adapt .fragment handingOn ("float4 frag(v2f i" :: conditionalParameter)).toOption.map
            (mapSignature (c.handed fun _ _ => false))) := by
  refine ⟨by decide +kernel, by decide +kernel, by decide +kernel, ?_⟩
  rw [List.forall_mem_cons, List.forall_mem_singleton]
  constructor
  · exact adapt_handed rfl (by decide) (by decide +kernel) (by decide +kernel)
  · exact adapt_handed rfl (by decide) (by decide +kernel) (by decide +kernel)

/-- If each arm declares the input, the stage replaces it in the first arm only. -/
example : (adapt .fragment handingOn
      ["float4 frag(", "#ifdef FACE", "v2f i, float face : VFACE", "#else", "v2f i", "#endif",
        ") : SV_Target"]).toOption.map (·.signature)
    = some ["float4 frag(", "#ifdef FACE", "OptimizerVertexOutput optimizerInput, float face : VFACE",
      "#else", "v2f i", "#endif", ") : SV_Target"] := by
  decide +kernel

end EntryPoint

end ShaderMerge.Variant
