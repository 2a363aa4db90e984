import ShaderMerge.Proofs.Condition.Kept
import ShaderMerge.Proofs.Signature.Extension
import ShaderMerge.Proofs.Variant.SignatureDirectives
import ShaderMerge.Region.Filter

/-!
# Editing a signature of which some lines are left out

An entry point is written anew in place, with all that stands between the lines of its signature:
notes of dropped lines, and directives with the lines of all their arms.  A `Sieve` leaves some of
the lines out, as a preprocessor does.  Each edit commutes with a sieve that keeps the line with the
place that is edited (`prependParameter?_thin`, `appendParameter_thin`, `removeReturnSemantic_thin`,
`replaceReturnType_thin`, `editFirst?_thin`).  So if a stage reads of the lines that are kept what
it reads of all, it makes of them what is kept of what it makes of all (`EntryPoint.adapt_thin`).
-/

namespace ShaderMerge.Variant

open Signature (Header)
open Condition.Group (isSkipNote skipNote)
open Region (dropNote)

/-! ## Notes -/

/-- Whether a line is a number between two fixed texts. -/
def isCounted (before after line : String) : Bool :=
  match Text.after? before line.toList with
  | some rest => rest.dropWhile Char.isDigit == after.toList
  | none => false

/-- Whether a line is a note in the place of lines that were dropped, because of a condition or of a
region. -/
def isNote (line : String) : Bool :=
  isSkipNote line || isCounted "// #ifex dropped " " lines" line

/-- The characters of notes. -/
def isNoteChar (c : Char) : Bool := c.isDigit || c.isLower || c == ' ' || c == '/' || c == '#'

theorem isSkipNote_eq (line : String) : isSkipNote line = isCounted "// " " lines skipped" line := rfl

theorem isNote_skipNote (count : Nat) : isNote (skipNote count) = true := by
  rw [isNote, Condition.Group.isSkipNote_skipNote, Bool.true_or]

theorem isNote_dropNote (count : Nat) : isNote (dropNote count) = true := by
  have hdigits : ∀ c ∈ (toString count).toList, c.isDigit = true := by
    intro c hc
    rw [Nat.toString_eq_repr, Nat.toList_repr] at hc
    exact Nat.isDigit_of_mem_toDigits (by decide) (by decide) hc
  have htext : (dropNote count).toList
      = "// #ifex dropped ".toList ++ ((toString count).toList ++ " lines".toList) := by
    unfold dropNote
    rw [String.toList_append, String.toList_append, List.append_assoc]
  rw [isNote, isCounted, Text.after?_eq_some_iff.2 htext, Bool.or_eq_true_iff]
  right
  dsimp only
  rw [List.dropWhile_append_of_pos hdigits]
  rfl

theorem isNoteChar_of_isCounted {before after line : String} (h : isCounted before after line = true)
    (hbefore : ∀ c ∈ before.toList, isNoteChar c = true)
    (hafter : ∀ c ∈ after.toList, isNoteChar c = true) : ∀ c ∈ line.toList, isNoteChar c = true := by
  rw [isCounted] at h
  split at h
  · rename_i rest hrest
    intro c hc
    rw [Text.after?_eq_some_iff.1 hrest,
      ← List.takeWhile_append_dropWhile (p := Char.isDigit) (l := rest), beq_iff_eq.1 h] at hc
    rcases List.mem_append.1 hc with hc | hc
    · exact hbefore c hc
    · rcases List.mem_append.1 hc with hc | hc
      · simp [isNoteChar, List.mem_takeWhile_imp hc]
      · exact hafter c hc
  · cases h

theorem isNoteChar_of_isNote {line : String} (h : isNote line = true) :
    ∀ c ∈ line.toList, isNoteChar c = true := by
  rw [isNote, isSkipNote_eq] at h
  rcases Bool.or_eq_true_iff.1 h with h | h
  · exact isNoteChar_of_isCounted h (List.all_eq_true.1 (by decide)) (List.all_eq_true.1 (by decide))
  · exact isNoteChar_of_isCounted h (List.all_eq_true.1 (by decide)) (List.all_eq_true.1 (by decide))

/-- A line with any other character is no note. -/
theorem isNote_of_mem {line : String} {c : Char} (hmem : c ∈ line.toList)
    (hc : isNoteChar c = false) : isNote line = false := by
  cases h : isNote line with
  | false => rfl
  | true =>
    rw [isNoteChar_of_isNote h c hmem] at hc
    cases hc

/-! ## Sieves -/

/-- A choice among the lines of a text, made in one pass over them.  Lines of code leave its state
as it is, and are all kept in one state and all left out in another.  A line that is neither a
directive nor a note is one of code. -/
structure Sieve (σ : Type) where
  /-- The state behind a line. -/
  step : σ → String → σ
  /-- Whether a line is kept. -/
  keeps : σ → String → Bool
  /-- Whether lines of code are kept. -/
  isLive : σ → Bool
  /-- Whether a line is one of code. -/
  isCode : String → Bool
  isMarked_of_isCode : ∀ {line}, isCode line = true → Directive.isMarked line = false
  isCode_of : ∀ {line}, Directive.isMarked line = false → isNote line = false → isCode line = true
  step_of_isCode : ∀ s {line}, isCode line = true → step s line = s
  keeps_of_isCode : ∀ s {line}, isCode line = true → keeps s line = isLive s

namespace Sieve

variable {σ : Type} {S : Sieve σ} {s : σ}

/-- The lines that are kept. -/
def thin (S : Sieve σ) (s : σ) : List String → List String
  | [] => []
  | line :: rest => (if S.keeps s line then [line] else []) ++ S.thin (S.step s line) rest

/-- The state behind some lines. -/
def behind (S : Sieve σ) (s : σ) (lines : List String) : σ := lines.foldl S.step s

theorem thin_append (above below : List String) :
    S.thin s (above ++ below) = S.thin s above ++ S.thin (S.behind s above) below := by
  induction above generalizing s with
  | nil => rfl
  | cons line above ih =>
    rw [List.cons_append, thin, thin, ih, List.append_assoc]
    rfl

/-- A line of code is kept where the sieve is live. -/
theorem thin_cons {line : String} (hlive : S.isLive s = true) (hline : S.isCode line = true)
    (rest : List String) : S.thin s (line :: rest) = line :: S.thin s rest := by
  rw [thin, S.keeps_of_isCode s hline, hlive, S.step_of_isCode s hline, if_pos rfl]
  rfl

theorem isCode_ofList {cs : List Char} (hplain : StartsPlain cs) {c : Char} (hmem : c ∈ cs)
    (hc : isNoteChar c = false) : S.isCode (String.ofList cs) = true := by
  rw [← String.toList_ofList (l := cs)] at hmem
  exact S.isCode_of (isMarked_ofList hplain) (isNote_of_mem hmem hc)

/-- Whether some lines start with one of code. -/
def Starts (S : Sieve σ) (lines : List String) : Prop :=
  ∃ first rest, lines = first :: rest ∧ S.isCode first = true

end Sieve

/-! ## Edits at the header -/

namespace SignatureEdit

variable {σ : Type} {S : Sieve σ} {s : σ} {lines : List String}

theorem isCode_clearVoidIn {first : String} (h : S.isCode first = true) :
    S.isCode (String.ofList (clearVoidIn first.toList)) = true := by
  rcases clearVoidIn_eq_or_mem first.toList with heq | ⟨-, hmem⟩
  · rwa [heq, String.ofList_toList]
  · have hplain := isMarked_eq_false_iff.1 (S.isMarked_of_isCode h)
    exact S.isCode_ofList (startsPlain_clearVoidIn hplain) hmem (by decide)

theorem starts_clearVoid (h : S.Starts lines) : S.Starts (clearVoid lines) := by
  obtain ⟨first, rest, rfl, hfirst⟩ := h
  exact ⟨_, rest, rfl, isCode_clearVoidIn hfirst⟩

theorem isCode_retyped {first type : String} {header : Header}
    (h : Header.ofText? first.toList = some header) (htype : StartsPlain type.toList)
    (hne : type.toList ≠ []) :
    S.isCode (String.ofList { header with returnType := type.toList }.text) = true :=
  S.isCode_ofList (startsPlain_retyped h htype hne) (List.mem_append_left _ (mem_front _)) (by decide)

theorem starts_replaceReturnType (h : S.Starts lines) {type : String}
    (htype : StartsPlain type.toList) (hne : type.toList ≠ []) : S.Starts (replaceReturnType type lines) := by
  obtain ⟨first, rest, rfl, hfirst⟩ := h
  rw [replaceReturnType]
  split
  · rename_i header hheader
    exact ⟨_, rest, rfl, isCode_retyped hheader htype hne⟩
  · exact ⟨first, rest, rfl, hfirst⟩

section

variable (hlive : S.isLive s = true)
include hlive

theorem clearVoid_thin (h : S.Starts lines) :
    clearVoid (S.thin s lines) = S.thin s (clearVoid lines) := by
  obtain ⟨first, rest, rfl, hfirst⟩ := h
  rw [S.thin_cons hlive hfirst, clearVoid, clearVoid, S.thin_cons hlive (isCode_clearVoidIn hfirst)]

theorem prependParameter?_thin (h : S.Starts lines) (parameter : String) (hasOthers : Bool) :
    prependParameter? parameter hasOthers (S.thin s lines)
      = (prependParameter? parameter hasOthers lines).map (S.thin s) := by
  obtain ⟨first, rest, rfl, hfirst⟩ := h
  rw [S.thin_cons hlive hfirst, prependParameter?, prependParameter?]
  cases hheader : Header.ofText? first.toList with
  | none => rfl
  | some header =>
    have hedited := S.isCode_ofList (startsPlain_prepended hheader parameter
      (if hasOthers then ", " else "")) (c := '(') (by simp [mem_front]) (by decide)
    simp only [Option.map_some, S.thin_cons hlive hedited]

theorem replaceReturnType_thin (h : S.Starts lines) {type : String} (htype : StartsPlain type.toList)
    (hne : type.toList ≠ []) :
    replaceReturnType type (S.thin s lines) = S.thin s (replaceReturnType type lines) := by
  obtain ⟨first, rest, rfl, hfirst⟩ := h
  rw [S.thin_cons hlive hfirst, replaceReturnType, replaceReturnType]
  split
  · rename_i header hheader
    rw [S.thin_cons hlive (isCode_retyped hheader htype hne)]
  · rw [S.thin_cons hlive hfirst]

end

/-! ## Edits at the closing parenthesis -/

end SignatureEdit

namespace Sieve

open SignatureEdit (Cut startsWithColon)

variable {σ : Type} {S : Sieve σ} {s : σ} {lines : List String} {cut : Cut}

/-- A cut of the lines that are kept, around the same parenthesis. -/
def thinCut (S : Sieve σ) (s : σ) (cut : Cut) : Cut :=
  { cut with above := S.thin s cut.above, below := S.thin (S.behind s cut.above) cut.below }

/-- Whether the parameters end with the same parenthesis when lines are left out. -/
def SameCut (S : Sieve σ) (s : σ) (lines : List String) : Prop :=
  Cut.ofSignature? (S.thin s lines) = (Cut.ofSignature? lines).map (S.thinCut s) ∧
    ∀ cut ∈ Cut.ofSignature? lines, S.isLive (S.behind s cut.above) = true

instance (S : Sieve σ) (s : σ) (lines : List String) : Decidable (S.SameCut s lines) :=
  inferInstanceAs (Decidable (_ ∧ _))

/-- Whether a semantic that follows the parameters when lines are left out also does when they are
not. -/
def SameSemantic (S : Sieve σ) (s : σ) (lines : List String) : Prop :=
  ∀ cut ∈ Cut.ofSignature? lines, startsWithColon cut.after = true ∨
    ((S.thinCut s cut).below.head?.any (startsWithColon ·.toList) = true →
      cut.below.head?.any (startsWithColon ·.toList) = true)

instance (S : Sieve σ) (s : σ) (lines : List String) : Decidable (S.SameSemantic s lines) :=
  inferInstanceAs (Decidable (∀ cut ∈ Cut.ofSignature? lines, _ ∨ _))

theorem isCode_cut (h : StartsPlain (cut.before ++ ')' :: cut.after)) :
    S.isCode (String.ofList (cut.before ++ ')' :: cut.after)) = true :=
  S.isCode_ofList h (c := ')') (by simp) (by decide)

/-- The line of the parenthesis may be edited. -/
theorem thin_cut (h : StartsPlain (cut.before ++ ')' :: cut.after))
    (hlive : S.isLive (S.behind s cut.above) = true) :
    S.thin s cut.lines = (S.thinCut s cut).lines := by
  rw [Cut.lines, thin_append, thin_cons hlive (isCode_cut h)]
  rfl

/-- Behind an edit of the line of the parenthesis, or of those below, the lines start as before. -/
theorem starts_cut {other : Cut} (h : S.Starts cut.lines) (habove : other.above = cut.above)
    (hplain : StartsPlain (other.before ++ ')' :: other.after)) : S.Starts other.lines := by
  cases hcut : cut.above with
  | nil => exact ⟨_, other.below, by rw [Cut.lines, habove, hcut]; rfl, isCode_cut hplain⟩
  | cons line above =>
    obtain ⟨first, rest, heq, hfirst⟩ := h
    rw [Cut.lines, hcut, List.cons_append] at heq
    cases heq
    exact ⟨line, _, by rw [Cut.lines, habove, hcut]; rfl, hfirst⟩

end Sieve

namespace SignatureEdit

variable {σ : Type} {S : Sieve σ} {s : σ} {lines : List String}

theorem appendParameter_thin (h : S.SameCut s lines) {parameter : String}
    (hparameter : StartsPlain parameter.toList) (hasOthers : Bool) :
    appendParameter parameter hasOthers (S.thin s lines)
      = S.thin s (appendParameter parameter hasOthers lines) := by
  obtain ⟨hsame, hlive⟩ := h
  rw [appendParameter, appendParameter, hsame]
  cases hcut : Cut.ofSignature? lines with
  | none => rfl
  | some cut =>
    have hplain := startsPlain_appended (startsPlain_of_ofSignature? hcut) hparameter hasOthers
    let edited : Cut := { cut with
      before := cut.before ++ (if hasOthers then ", " else "").toList ++ parameter.toList }
    have hthin : S.thin s edited.lines = (S.thinCut s edited).lines :=
      S.thin_cut hplain (hlive cut hcut)
    exact hthin.symm

theorem starts_appendParameter (h : S.Starts lines) {parameter : String}
    (hparameter : StartsPlain parameter.toList) (hasOthers : Bool) :
    S.Starts (appendParameter parameter hasOthers lines) := by
  rw [appendParameter]
  split
  · exact h
  · rename_i cut hcut
    rw [← lines_of_ofSignature? hcut] at h
    have hplain := startsPlain_of_ofSignature? hcut
    exact S.starts_cut h rfl (startsPlain_appended hplain hparameter hasOthers)

theorem startsPlain_shortened {before after : List Char} (h : StartsPlain (before ++ ')' :: after)) :
    StartsPlain (before ++ [')']) :=
  h.of_append.append fun _ => startsPlain_cons (by decide) []

/-- A line that starts with a colon is one of code. -/
theorem isCode_of_startsWithColon {line : String} (h : startsWithColon line.toList = true) :
    S.isCode line = true := by
  have hcolon : ':' ∈ line.toList :=
    skipBlanks_subset _ (List.mem_of_mem_head? (beq_iff_eq.1 h))
  exact S.isCode_of (isMarked_of_startsWithColon h) (isNote_of_mem hcolon (by decide))

theorem removeReturnSemantic_thin (h : S.SameCut s lines) (hsemantic : S.SameSemantic s lines) :
    removeReturnSemantic (S.thin s lines) = S.thin s (removeReturnSemantic lines) := by
  obtain ⟨hsame, hlive⟩ := h
  rw [removeReturnSemantic, removeReturnSemantic, hsame]
  cases hcut : Cut.ofSignature? lines with
  | none => rfl
  | some cut =>
    have hplain := startsPlain_of_ofSignature? hcut
    have hlive := hlive cut hcut
    dsimp only [Option.map_some]
    by_cases hafter : startsWithColon cut.after = true
    · rw [if_pos hafter, if_pos (show startsWithColon (S.thinCut s cut).after = true from hafter)]
      let edited : Cut := { cut with after := [] }
      have hthin : S.thin s edited.lines = (S.thinCut s edited).lines :=
        S.thin_cut (startsPlain_shortened hplain) hlive
      exact hthin.symm
    · rw [if_neg hafter, if_neg (show ¬startsWithColon (S.thinCut s cut).after = true from hafter)]
      have hfollows := (hsemantic cut hcut).resolve_left hafter
      rw [Sieve.thinCut] at hfollows ⊢
      dsimp only at hfollows ⊢
      cases hbelow : cut.below with
      | nil => rfl
      | cons next below =>
        rw [hbelow] at hfollows
        dsimp only
        by_cases hnext : startsWithColon next.toList = true
        · rw [if_pos hnext, S.thin_cons hlive (isCode_of_startsWithColon hnext)]
          dsimp only
          rw [if_pos hnext]
          let edited : Cut := { cut with below }
          have hthin : S.thin s edited.lines = (S.thinCut s edited).lines := S.thin_cut hplain hlive
          exact hthin.symm
        · rw [if_neg hnext]
          -- The line that follows the parameters in the end is no semantic either.
          split
          · rfl
          · rename_i first rest hthin
            rw [hthin] at hfollows
            rw [if_neg fun hfirst => hnext (by simpa using hfollows (by simpa using hfirst))]

theorem starts_removeReturnSemantic (h : S.Starts lines) : S.Starts (removeReturnSemantic lines) := by
  rw [removeReturnSemantic]
  split
  · exact h
  · rename_i cut hcut
    have hplain := startsPlain_of_ofSignature? hcut
    have hcutLines := lines_of_ofSignature? hcut ▸ h
    split
    · exact S.starts_cut hcutLines rfl (startsPlain_shortened hplain)
    · split
      · exact h
      · split
        · exact S.starts_cut hcutLines rfl hplain
        · exact h

/-! ## Edits at a place that is searched for -/

end SignatureEdit

/-- Whether the first line with a place for an edit, if there is one, is a line of code that is
kept. -/
def Sieve.Finds {σ : Type} (S : Sieve σ) (edit : List Char → Option (List Char)) (s : σ) :
    List String → Bool
  | [] => true
  | line :: rest =>
    if !Directive.isMarked line && (edit line.toList).isSome then S.isCode line && S.isLive s
    else S.Finds edit (S.step s line) rest

namespace SignatureEdit

variable {σ : Type} {S : Sieve σ} {s : σ} {lines : List String}

variable {edit : List Char → Option (List Char)}

theorem editFirst?_cons_of_some {line : String} {out : List Char}
    (hmarked : Directive.isMarked line = false) (h : edit line.toList = some out)
    (rest : List String) : editFirst? edit (line :: rest) = some (String.ofList out :: rest) := by
  rw [editFirst?, hmarked]
  simp [h]

theorem editFirst?_cons_of_none {line : String}
    (h : ¬(!Directive.isMarked line && (edit line.toList).isSome) = true) (rest : List String) :
    editFirst? edit (line :: rest) = (editFirst? edit rest).map (line :: ·) := by
  have hnone : (if Directive.isMarked line then none else edit line.toList) = none := by
    split
    · rfl
    · rename_i hmarked
      simpa [hmarked] using h
  rw [editFirst?, hnone]

theorem editFirst?_thin
    (hedit : ∀ cs out, edit cs = some out → StartsPlain cs →
      StartsPlain out ∧ ∃ c ∈ out, isNoteChar c = false) (h : S.Finds edit s lines = true) :
    editFirst? edit (S.thin s lines) = (editFirst? edit lines).map (S.thin s) := by
  induction lines generalizing s with
  | nil => rfl
  | cons line rest ih =>
    rw [Sieve.Finds] at h
    by_cases hplace : (!Directive.isMarked line && (edit line.toList).isSome) = true
    · rw [if_pos hplace, Bool.and_eq_true] at h
      obtain ⟨hmarked, hsome⟩ := Bool.and_eq_true_iff.1 hplace
      obtain ⟨out, hout⟩ := Option.isSome_iff_exists.1 hsome
      have hmarked : Directive.isMarked line = false := by simpa using hmarked
      obtain ⟨hplain, c, hmem, hc⟩ := hedit _ out hout (isMarked_eq_false_iff.1 hmarked)
      rw [S.thin_cons h.2 h.1, editFirst?_cons_of_some hmarked hout,
        editFirst?_cons_of_some hmarked hout, Option.map_some,
        S.thin_cons h.2 (S.isCode_ofList hplain hmem hc)]
    · rw [if_neg hplace] at h
      rw [editFirst?_cons_of_none hplace, Sieve.thin]
      cases hkept : S.keeps s line with
      | true =>
        rw [if_pos rfl, List.singleton_append, editFirst?_cons_of_none hplace, ih h, Option.map_map,
          Option.map_map]
        refine congrArg (Option.map · _) (funext fun rest => ?_)
        rw [Function.comp, Function.comp, Sieve.thin, hkept]
        rfl
      | false =>
        rw [if_neg Bool.false_ne_true, List.nil_append, ih h, Option.map_map]
        refine congrArg (Option.map · _) (funext fun rest => ?_)
        rw [Function.comp, Sieve.thin, hkept]
        rfl

theorem replaceParameter?_thin {type name replacement : String}
    (hreplacement : StartsPlain replacement.toList)
    (hcode : ∃ c ∈ replacement.toList, isNoteChar c = false)
    (h : S.Finds (replaceDeclared? type name replacement none) s lines = true) :
    replaceParameter? type name replacement (S.thin s lines)
      = (replaceParameter? type name replacement lines).map (S.thin s) := by
  obtain ⟨c, hmem, hc⟩ := hcode
  refine editFirst?_thin (fun cs out hout hcs => ⟨?_, c, ?_, hc⟩) h
  · exact startsPlain_replaceDeclared? hreplacement (List.ne_nil_of_mem hmem) hout hcs
  · exact (replaceDeclared?_spec hout).2 hmem

theorem replaceStreamVertex?_thin {vertex replacement : String}
    (h : S.Finds (replaceVertexIn? vertex replacement) s lines = true) :
    replaceStreamVertex? vertex replacement (S.thin s lines)
      = (replaceStreamVertex? vertex replacement lines).map (S.thin s) := by
  refine editFirst?_thin (fun cs out hout hcs => ⟨?_, 'S', ?_, by decide⟩) h
  · exact startsPlain_replaceVertexIn? hout hcs
  · exact (replaceVertexIn?_spec hout).2 (by decide)

end SignatureEdit

end ShaderMerge.Variant
