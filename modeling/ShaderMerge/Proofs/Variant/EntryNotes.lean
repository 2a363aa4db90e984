import ShaderMerge.Proofs.Variant.EntryReading

/-!
# Notes in the signature of an entry point

Where a filter has dropped lines of a signature, their note stands between those that are left.  It
has no parentheses and no upper-case letters, so the places of the edits are not on it.  But the
signature is read with it: a note in the list of parameters becomes part of the parameter it stands
in, and a note behind the list stands in front of the semantic.  Where this changes nothing of what
the stage reads, the notes do not matter (`EntryPoint.adapt_withoutNotes`).
-/

namespace ShaderMerge.Variant

open SignatureEdit
open Condition.Group (skipNote)
open Region (dropNote)

/-- Whether the second lines are the first ones with notes of the filters put between them. -/
inductive HasNotes : List String → List String → Prop where
  /-- No line, and no note. -/
  | nil : HasNotes [] []
  /-- The next line. -/
  | line (line : String) {lines noted : List String} (h : HasNotes lines noted) :
    HasNotes (line :: lines) (line :: noted)
  /-- The note of an arm that was skipped. -/
  | skipped (count : Nat) {lines noted : List String} (h : HasNotes lines noted) :
    HasNotes lines (skipNote count :: noted)
  /-- The note of a region that was dropped. -/
  | dropped (count : Nat) {lines noted : List String} (h : HasNotes lines noted) :
    HasNotes lines (dropNote count :: noted)

/-- Lines without notes are found again when the notes are left out. -/
theorem HasNotes.filter {lines noted : List String} (h : HasNotes lines noted)
    (hplain : ∀ line ∈ lines, isNote line = false) : noted.filter (!isNote ·) = lines := by
  induction h with
  | nil => rfl
  | line line _ ih =>
    obtain ⟨hline, hlines⟩ := List.forall_mem_cons.1 hplain
    rw [List.filter_cons_of_pos (by rw [hline]; rfl), ih hlines]
  | skipped count _ ih =>
    rw [List.filter_cons_of_neg (by rw [isNote_skipNote]; decide), ih hplain]
  | dropped count _ ih =>
    rw [List.filter_cons_of_neg (by rw [isNote_dropNote]; decide), ih hplain]

/-- The sieve that leaves notes out. -/
def Sieve.notes : Sieve Unit where
  step _ _ := ()
  keeps _ line := !isNote line
  isLive _ := true
  isCode line := !Directive.isMarked line && !isNote line
  isMarked_of_isCode h := by simpa using (Bool.and_eq_true_iff.1 h).1
  isCode_of hmarked hnote := by rw [hmarked, hnote]; rfl
  step_of_isCode _ _ _ := rfl
  keeps_of_isCode _ _ h := (Bool.and_eq_true_iff.1 h).2

namespace Sieve

variable {line : String} {lines rest : List String} {cut : Cut}

theorem thin_of_isNote (h : isNote line = true) (rest : List String) :
    notes.thin () (line :: rest) = notes.thin () rest := by
  rw [thin.eq_def]
  change (if (!isNote line) = true then [line] else []) ++ _ = _
  rw [h]
  rfl

theorem thin_of_isNote_eq_false (h : isNote line = false) (rest : List String) :
    notes.thin () (line :: rest) = line :: notes.thin () rest := by
  rw [thin.eq_def]
  change (if (!isNote line) = true then [line] else []) ++ _ = _
  rw [h]
  rfl

theorem thin_notes (lines : List String) : notes.thin () lines = lines.filter (!isNote ·) := by
  induction lines with
  | nil => rfl
  | cons line rest ih =>
    cases h : isNote line with
    | true => rw [thin_of_isNote h, ih, List.filter_cons_of_neg (by simp [h])]
    | false => rw [thin_of_isNote_eq_false h, ih, List.filter_cons_of_pos (by simp [h])]

theorem thinCut_addAbove_of_isNote (h : isNote line = true) (cut : Cut) :
    notes.thinCut () (cut.addAbove line) = notes.thinCut () cut := by
  rw [thinCut, Cut.addAbove, thin_of_isNote h]
  rfl

theorem thinCut_addAbove (h : isNote line = false) (cut : Cut) :
    notes.thinCut () (cut.addAbove line) = (notes.thinCut () cut).addAbove line := by
  rw [thinCut, Cut.addAbove, thin_of_isNote_eq_false h]
  rfl

/-- No parenthesis closes on a note. -/
theorem ofLines?_of_isNote (h : isNote line = true) (depth : Nat) (rest : List String) :
    Cut.ofLines? depth (line :: rest) = (Cut.ofLines? depth rest).map (Cut.addAbove line) := by
  have hnone : ∀ c, isNoteChar c = false → c ∉ line.toList := by
    intro c hc hmem
    rw [isNoteChar_of_isNote h c hmem] at hc
    cases hc
  have hclose := hnone ')' (by decide)
  have hclosing : Signature.closing? depth line.toList = none := by
    refine Signature.closing?_eq_none_iff.2 fun inner after heq => absurd ?_ hclose
    rw [heq]
    simp
  rw [Cut.ofLines?]
  split
  · rfl
  · rw [hclosing]
    dsimp only
    rw [Signature.parenBalance_of_notMem (hnone '(' (by decide)) hclose, Int.add_zero,
      Int.toNat_natCast]

theorem ofLines?_notes (depth : Nat) (lines : List String) :
    Cut.ofLines? depth (notes.thin () lines) = (Cut.ofLines? depth lines).map (notes.thinCut ()) := by
  induction lines generalizing depth with
  | nil => rfl
  | cons line rest ih =>
    cases h : isNote line with
    | true =>
      rw [thin_of_isNote h, ofLines?_of_isNote h, ih, Option.map_map]
      exact congrArg (Option.map · _) (funext fun cut => (thinCut_addAbove_of_isNote h cut).symm)
    | false =>
      have hadd : ∀ found : Option Cut, (found.map (notes.thinCut ())).map (Cut.addAbove line)
          = (found.map (Cut.addAbove line)).map (notes.thinCut ()) := by
        intro found
        rw [Option.map_map, Option.map_map]
        exact congrArg (Option.map · _) (funext fun cut => (thinCut_addAbove h cut).symm)
      rw [thin_of_isNote_eq_false h, Cut.ofLines?, Cut.ofLines?]
      split
      · rw [ih, hadd]
      · split
        · rfl
        · dsimp only
          rw [ih, hadd]

/-- Without the notes the parameters end with the same parenthesis. -/
theorem sameCut_notes (h : notes.Starts lines) : notes.SameCut () lines := by
  obtain ⟨first, rest, rfl, hfirst⟩ := h
  refine ⟨?_, fun _ _ => rfl⟩
  have hnote : isNote first = false := by simpa using (Bool.and_eq_true_iff.1 hfirst).2
  rw [thin_of_isNote_eq_false hnote, Cut.ofSignature?, Cut.ofSignature?]
  cases Signature.Header.ofText? first.toList with
  | none => rfl
  | some header =>
    rw [Option.bind_some, Option.bind_some]
    split
    · rfl
    · rw [ofLines?_notes, Option.map_map, Option.map_map]
      exact congrArg (Option.map · _) (funext fun cut => (thinCut_addAbove hnote cut).symm)

/-- An edit that has no place in the notes finds its place on a line of code. -/
theorem finds_notes {edit : List Char → Option (List Char)}
    (h : ∀ line ∈ lines, isNote line = true → edit line.toList = none) :
    notes.Finds edit () lines = true := by
  induction lines with
  | nil => rfl
  | cons line rest ih =>
    obtain ⟨hline, hrest⟩ := List.forall_mem_cons.1 h
    rw [Finds]
    split
    · rename_i hplace
      obtain ⟨hmarked, hsome⟩ := Bool.and_eq_true_iff.1 hplace
      have hnote : isNote line = false := by
        by_contra hnote
        rw [hline (Bool.not_eq_false _ ▸ hnote)] at hsome
        cases hsome
      exact Bool.and_eq_true_iff.2 ⟨Bool.and_eq_true_iff.2 ⟨hmarked, by rw [hnote]; rfl⟩, rfl⟩
    · exact ih hrest

end Sieve

namespace EntryPoint

variable {stage : Stage} {p : Plan} {first : String} {lines rest : List String}

/-- The type and the name of the parameter that a stage replaces. -/
def replaced? (stage : Stage) (p : Plan) (s : Signature) : Option (String × String) :=
  match stage with
  | .vertex => none
  | .hull => none
  | .domain => none
  | .geometry => p.vertexCarrier.bind fun carrier =>
    (inputArrayText? s carrier.payload).map fun (type, name, _) => (type, name)
  | .fragment => p.fragmentCarrier.bind (carriedText? s)

/-- Whether the notes in a signature stand apart from what a stage reads and edits. -/
structure NotesApart (stage : Stage) (p : Plan) (lines : List String) : Prop where
  /-- Without the notes the stage reads the same. -/
  reads : ReadsAlike stage p (lines.filter (!isNote ·)) lines
  /-- No note stands between the parameters and a semantic that is taken away. -/
  semantic : stage = .vertex → (wrapper? p).isSome = true →
    Sieve.notes.SameSemantic () (clearVoid lines)
  /-- No note looks like the parameter that is replaced. -/
  parameter : ∀ s ∈ read? lines, ∀ found ∈ replaced? stage p s, ∀ line ∈ lines, isNote line = true →
    replaceDeclared? found.1 found.2 "" none line.toList = none

theorem replaceDeclared?_eq_none_iff {type name : String} {before : Option Char} {cs : List Char}
    (replacement other : String) : replaceDeclared? type name replacement before cs = none ↔
      replaceDeclared? type name other before cs = none := by
  induction cs generalizing before with
  | nil => exact Iff.rfl
  | cons c rest ih =>
    rw [replaceDeclared?, replaceDeclared?]
    cases afterDeclared? type name before (c :: rest) with
    | some after => simp
    | none => simpa using ih

/-- A note among the lines is one of the lines as they were. -/
theorem mem_of_mem_clearVoid {line : String} (hstarts : Sieve.notes.Starts lines)
    (hmem : line ∈ clearVoid lines) (hnote : isNote line = true) : line ∈ lines := by
  obtain ⟨first, rest, rfl, hfirst⟩ := hstarts
  rcases List.mem_cons.1 hmem with rfl | hmem
  · have hcode := (Bool.and_eq_true_iff.1 (isCode_clearVoidIn (S := Sieve.notes) hfirst)).2
    rw [hnote] at hcode
    cases hcode
  · exact List.mem_cons_of_mem first hmem

/-- The word of a stream is on no note. -/
theorem replaceVertexIn?_of_isNote {line : String} (h : isNote line = true)
    (vertex replacement : String) : replaceVertexIn? vertex replacement line.toList = none := by
  cases hedited : replaceVertexIn? vertex replacement line.toList with
  | none => rfl
  | some edited =>
    have hmem : 'S' ∈ line.toList := (replaceVertexIn?_spec hedited).1 (by decide)
    have hchar := isNoteChar_of_isNote h 'S' hmem
    exact absurd hchar (by decide)

theorem samePlaces_of_notesApart (hstarts : Sieve.notes.Starts lines) (h : NotesApart stage p lines)
    {s : Signature} (hs : s ∈ read? lines) :
    SamePlaces Sieve.notes () stage p s (clearVoid lines) := by
  have hcut := Sieve.sameCut_notes (starts_clearVoid hstarts)
  have hfinds : ∀ type name, (type, name) ∈ replaced? stage p s → ∀ replacement,
      Sieve.notes.Finds (replaceDeclared? type name replacement none) () (clearVoid lines)
        = true := by
    intro type name hfound replacement
    refine Sieve.finds_notes fun line hmem hnote => ?_
    exact (replaceDeclared?_eq_none_iff _ _).1
      (h.parameter s hs _ hfound line (mem_of_mem_clearVoid hstarts hmem hnote) hnote)
  cases stage with
  | vertex => exact ⟨fun _ => hcut, h.semantic rfl⟩
  | hull => trivial
  | domain => trivial
  | geometry =>
    intro vertex hvertex geometry _ input hinput
    refine ⟨hfinds _ _ ?_ _, fun stream _ edited _ => Sieve.finds_notes fun line _ hnote =>
      replaceVertexIn?_of_isNote hnote _ _⟩
    rw [replaced?, hvertex, Option.bind_some, inputArrayText?, hinput]
    rfl
  | fragment =>
    refine ⟨fun carrier hcarrier input hinput => hfinds _ _ ?_ _, fun _ => hcut⟩
    rw [replaced?, hcarrier, Option.bind_some, carriedText?, hinput]
    rfl

/-- Behind the list of parameters, notes are not read. -/
theorem readsAlike_of_notesBehind {front : List String} (hclosed : IsClosed front)
    (hfront : ∀ line ∈ front, isNote line = false) (stage : Stage) (p : Plan) (rest : List String) :
    ReadsAlike stage p ((front ++ rest).filter (!isNote ·)) (front ++ rest) := by
  have hkept : front.filter (!isNote ·) = front :=
    List.filter_eq_self.2 fun line hline => by rw [hfront line hline]; rfl
  rw [List.filter_append, hkept]
  exact readsAlike_of_front hclosed stage p _ _

/-- **Notes do not matter where the stage reads the same without them.**  The entry point is written
anew with the notes exactly if it is without them, with the same carriers, prologue and body, and
with the same signature up to the notes.  So it is for any lines between which the filters have put
the notes. -/
theorem adapt_withoutNotes (hmarked : Directive.isMarked first = false) (hnote : isNote first = false)
    (h : NotesApart stage p (first :: rest)) :
    (adapt stage p (first :: rest.filter (!isNote ·))).toOption
        = (adapt stage p (first :: rest)).toOption.map (mapSignature (List.filter (!isNote ·))) ∧
      ∀ lines, HasNotes lines rest → (∀ line ∈ lines, isNote line = false) →
        (adapt stage p (first :: lines)).toOption
          = (adapt stage p (first :: rest)).toOption.map
            (mapSignature (List.filter (!isNote ·))) := by
  have hcode : Sieve.notes.isCode first = true := by
    change (!Directive.isMarked first && !isNote first) = true
    rw [hmarked, hnote]
    rfl
  have hthin : Sieve.notes.thin () = List.filter (!isNote ·) := funext Sieve.thin_notes
  have hstarts : Sieve.notes.Starts (first :: rest) := ⟨first, rest, rfl, hcode⟩
  have hreads := h.reads
  rw [← hthin] at hreads
  have hadapt := adapt_thin rfl hstarts hreads fun s hs => samePlaces_of_notesApart hstarts h hs
  rw [hthin, List.filter_cons_of_pos (by simp [hnote])] at hadapt
  refine ⟨hadapt, fun lines hnotes hplain => ?_⟩
  rwa [hnotes.filter hplain] at hadapt

/-- Behind the input of a fragment stage stand notes around another parameter. -/
def notesBehindInput : List String :=
  [skipNote 2, "float face : VFACE", dropNote 3, ") : SV_Target"]

/-- A note stands in front of the only parameter of a vertex stage. -/
def noteBeforeParameter : List String := [skipNote 1, "float4 p : POSITION)", ": TEXCOORD3"]

theorem adapt_withoutNotes_of_notesBetweenParameters :
    notesBehindInput.filter (!isNote ·) = ["float face : VFACE", ") : SV_Target"] ∧
      HasNotes ["float face : VFACE", ") : SV_Target"] notesBehindInput ∧
      (adapt .fragment handingOn ("float4 frag(v2f i," :: notesBehindInput)).toOption.map
          (·.signature)
        = some ("float4 frag(OptimizerVertexOutput optimizerInput," :: notesBehindInput) ∧
      (adapt .fragment handingOn
          ("float4 frag(v2f i," :: notesBehindInput.filter (!isNote ·))).toOption
        = (adapt .fragment handingOn ("float4 frag(v2f i," :: notesBehindInput)).toOption.map
          (mapSignature (List.filter (!isNote ·))) ∧
      (adapt .fragment handingOn
          ["float4 frag(v2f i,", "float face : VFACE", ") : SV_Target"]).toOption
        = (adapt .fragment handingOn ("float4 frag(v2f i," :: notesBehindInput)).toOption.map
          (mapSignature (List.filter (!isNote ·))) ∧
      (adapt .vertex handingOn ("v2f vert(" :: noteBeforeParameter.filter (!isNote ·))).toOption
        = (adapt .vertex handingOn ("v2f vert(" :: noteBeforeParameter)).toOption.map
          (mapSignature (List.filter (!isNote ·))) := by
  have hnotes : HasNotes ["float face : VFACE", ") : SV_Target"] notesBehindInput :=
    .skipped 2 (.line _ (.dropped 3 (.line _ .nil)))
  have hinput : NotesApart .fragment handingOn ("float4 frag(v2f i," :: notesBehindInput) :=
    ⟨by decide +kernel, nofun, by decide +kernel⟩
  have hparameter : NotesApart .vertex handingOn ("v2f vert(" :: noteBeforeParameter) :=
    ⟨by decide +kernel, by decide +kernel, nofun⟩
  obtain ⟨hfiltered, hplaced⟩ := adapt_withoutNotes (by decide) (by decide +kernel) hinput
  refine ⟨by decide +kernel, hnotes, by decide +kernel, hfiltered, ?_, ?_⟩
  · exact hplaced _ hnotes (by decide +kernel)
  · exact (adapt_withoutNotes (by decide) (by decide +kernel) hparameter).1

/-- In front of the input a note becomes part of its type: the stage does not find the input, and
takes the packed number as a parameter of its own. -/
example : (adapt .fragment handingOn ["float4 frag(", skipNote 2, "v2f i) : SV_Target"]).toOption.map
      (·.signature)
    = some ["float4 frag(", skipNote 2,
      "v2f i, nointerpolation uint optimizerPackedIDIn : OPTIMIZER_PACKED_ID) : SV_Target"] := by
  decide +kernel

end EntryPoint

end ShaderMerge.Variant
