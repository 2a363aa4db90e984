import ShaderMerge.Proofs.Variant.DeclarationForm
import ShaderMerge.Proofs.Variant.SignatureDirectives

/-!
# What a program block does with declarations

A `Deed` is what a live line of a program block does to the declarations of properties that have a
substitute: it is such a declaration, which is written anew or held back; it ends a constant buffer,
so that what is held back is written; it opens the body of an entry point, which assigns what has been
declared; or it is another line at the place of declarations, which stays.  `does_liveLine` says for
each deed what is written and what the block remembers.

A step of a block keeps the directives that it reads (`IsClean.liveLine`): of the lines that it
adds, changes or leaves out none is one.
-/

namespace ShaderMerge.Variant

open Condition (directives Control)

/-! ## Deeds -/

/-- What a live line of a program block does to declarations. -/
inductive Deed where
  /-- It declares a property, and a declaration takes its place. -/
  | redeclares (name line : String)
  /-- It declares a property in a constant buffer, and a declaration is held back in its place. -/
  | holdsBack (name line : String)
  /-- It declares a texture that is served from slices, and is left out. -/
  | drops
  /-- It ends a constant buffer. -/
  | endsBuffer
  /-- It opens the body of an entry point that is written anew. -/
  | opensBody
  /-- It stands among the declarations, and stays as it is. -/
  | stays
  /-- It does nothing of this. -/
  | other
deriving DecidableEq

namespace Deed

/-- The property that is declared, with the declaration that takes the place of the one that is
read. -/
def declaration? : Deed → Option (String × String)
  | redeclares name line | holdsBack name line => some (name, line)
  | _ => none

/-- The property that is to be assigned in the entry points behind the deed, if it is one. -/
def assigned (t : Substitution) : Deed → List String
  | redeclares name _ | holdsBack name _ => if t.statics.contains name then [] else [name]
  | _ => []

/-- What is held back behind the deed. -/
def defer (held : List String) : Deed → List String
  | holdsBack _ line => held ++ [line]
  | endsBuffer => []
  | _ => held

end Deed

/-- The property that a line declares, with the declaration that takes the place of the line. -/
def Substitution.redeclare? (t : Substitution) (line : String) : Option (String × String) :=
  (Substitution.declaration? line).bind fun (type, name) => (t.declare? type name).map (name, ·)

/-- Whether the prologue of an entry point has no directive. -/
def Mark.IsPlain : Mark → Prop
  | .entry _ _ adapted => ∀ line ∈ adapted.prologue, Directive.isMarked line = false
  | _ => True

instance : (mark : Mark) → Decidable mark.IsPlain
  | .block _ => inferInstanceAs (Decidable True)
  | .definition _ => inferInstanceAs (Decidable True)
  | .entry _ _ adapted =>
    inferInstanceAs (Decidable (∀ line ∈ adapted.prologue, Directive.isMarked line = false))

theorem Substitution.redeclare?_eq_some_iff {t : Substitution} {line name text : String} :
    t.redeclare? line = some (name, text) ↔
      ∃ type, IsDeclaration type name line ∧ t.declare? type name = some text := by
  simp only [redeclare?, Option.bind_eq_some_iff, Option.map_eq_some_iff, Prod.mk.injEq,
    Prod.exists]
  constructor
  · rintro ⟨type, name', hfound, text', hdeclare, rfl, rfl⟩
    exact ⟨type, declaration?_eq_some_iff.1 hfound, hdeclare⟩
  · rintro ⟨type, hform, hdeclare⟩
    exact ⟨type, name, declaration?_eq_some_iff.2 hform, text, hdeclare, rfl, rfl⟩

namespace Program

/-- Whether a line is read where declarations stand: outside of signatures and bodies, at the level
of the block or of the constant buffer that is open.  Braces and the macros around a constant buffer
are no declarations. -/
def readsDeclaration (p : Program) (line : String) : Bool :=
  p.pending.isNone && p.isAtDeclarations && !Directive.isMarked line
    && (line != "\x7b" && line != "\x7d" && line != "\x7d;") && (p.entryStart? line).isNone
    && (Text.after? "CBUFFER_START" line.toList).isNone
    && (Text.after? "CBUFFER_END" line.toList).isNone

/-- Whether a line ends a constant buffer: by its brace, or by its macro. -/
def endsBuffer (p : Program) (line : String) : Bool :=
  p.pending.isNone && !Directive.isMarked line &&
    if line = "\x7d" ∨ line = "\x7d;" then p.buffer = some p.depth
    else line != "\x7b" && p.body.isNone && (p.entryStart? line).isNone
      && (Text.after? "CBUFFER_START" line.toList).isNone
      && (Text.after? "CBUFFER_END" line.toList).isSome

/-- Whether a line opens the body of an entry point. -/
def opensBody (p : Program) (line : String) : Bool :=
  p.pending.any fun pending => pending.depth ≤ 0 && line == "\x7b"

/-- What a live line does. -/
def deed (t : Substitution) (p : Program) (line : String) : Deed :=
  if p.readsDeclaration line then
    if t.declaresTexture line then .drops
    else
      match t.redeclare? line with
      | some (name, text) => if p.buffer.isSome then .holdsBack name text else .redeclares name text
      | none => .stays
  else if p.endsBuffer line then .endsBuffer
  else if p.opensBody line then .opensBody
  else .other

/-- What a block remembers behind a deed. -/
structure Remembers (t : Substitution) (p : Program) (deed : Deed) (q : Program) : Prop where
  filter : q.filter = p.filter
  plan : q.plan = p.plan
  declared : q.declared = p.declared ++ deed.assigned t
  deferred : q.deferred = deed.defer p.deferred

/-- What a block writes for a line with a deed. -/
inductive Writes (t : Substitution) (p : Program) (line : String) : Deed → List String → Prop
  | redeclares (name text : String) : Writes t p line (.redeclares name text) [text]
  | holdsBack (name text : String) : Writes t p line (.holdsBack name text) []
  | drops : Writes t p line .drops []
  | endsBuffer : Writes t p line .endsBuffer (line :: p.deferred)
  | opensBody {stage : Stage} {source : List String} {entry : EntryPoint}
      (entry_mem : .entry stage source entry ∈ p.opened line) (front : List String) :
    Writes t p line .opensBody (front ++ entry.prologue ++ t.assignments p.declared)
  | stays : Writes t p line .stays [line]
  | other (lines : List String) : Writes t p line .other lines

section

variable {t : Substitution} {p q : Program} {line name text : String} {lines : List String}
  {out : Program × List String}

theorem Writes.redeclares_eq (h : Writes t p line (.redeclares name text) lines) :
    lines = [text] := by
  cases h
  rfl

theorem Writes.endsBuffer_eq (h : Writes t p line .endsBuffer lines) :
    lines = line :: p.deferred := by
  cases h
  rfl

/-- A line that does nothing to declarations. -/
theorem remembers_other (hfilter : q.filter = p.filter) (hplan : q.plan = p.plan)
    (hdeclared : q.declared = p.declared) (hdeferred : q.deferred = p.deferred) :
    Remembers t p .other q :=
  ⟨hfilter, hplan, by rw [hdeclared]; exact (List.append_nil _).symm, hdeferred⟩

theorem readsDeclaration_of_pending (h : p.pending.isSome = true) :
    p.readsDeclaration line = false := by
  rw [Option.isSome_iff_exists] at h
  obtain ⟨pending, h⟩ := h
  simp [readsDeclaration, h]

theorem endsBuffer_of_pending (h : p.pending.isSome = true) : p.endsBuffer line = false := by
  rw [Option.isSome_iff_exists] at h
  obtain ⟨pending, h⟩ := h
  simp [endsBuffer, h]

theorem opensBody_of_none (h : p.pending = none) : p.opensBody line = false := by
  simp [opensBody, h]

/-- In a signature only the brace behind it does something. -/
theorem deed_of_pending {pending : Pending} (h : p.pending = some pending) :
    p.deed t line = if ¬0 < pending.depth ∧ line = "\x7b" then .opensBody else .other := by
  have hsome : p.pending.isSome = true := by rw [h]; rfl
  rw [deed, readsDeclaration_of_pending hsome, endsBuffer_of_pending hsome, opensBody, h]
  simp

theorem deed_of_isMarked (h : Directive.isMarked line = true) : p.deed t line = .other := by
  have hbrace : line ≠ "\x7b" := by
    rintro rfl
    exact absurd h (by decide)
  have hopens : p.opensBody line = false := by
    cases hpending : p.pending with
    | none => exact opensBody_of_none hpending
    | some pending => simp [opensBody, hpending, hbrace]
  rw [deed, hopens]
  simp [readsDeclaration, endsBuffer, h]

/-- What is done to declarations is done outside of signatures, by a line of code. -/
theorem code_of_deed (h : p.deed t line ≠ .other) (hopens : p.deed t line ≠ .opensBody) :
    p.pending = none ∧ Control.ofLine line = .plain := by
  constructor
  · cases hpending : p.pending with
    | none => rfl
    | some pending =>
      have hdeed : p.deed t line
          = if ¬0 < pending.depth ∧ line = "\x7b" then .opensBody else .other :=
        deed_of_pending hpending
      split at hdeed
      · exact absurd hdeed hopens
      · exact absurd hdeed h
  · cases hmarked : Directive.isMarked line with
    | true => exact absurd (deed_of_isMarked hmarked) h
    | false => exact ofLine_of_not_isMarked hmarked

theorem deed_of_brace (h : p.pending = none) :
    p.deed t "\x7b" = .other := by
  have hreads : p.readsDeclaration "\x7b" = false := by simp [readsDeclaration]
  have hends : p.endsBuffer "\x7b" = false := by simp [endsBuffer]
  rw [deed, hreads, hends, opensBody_of_none h]
  rfl

theorem deed_of_closing (h : p.pending = none) (hline : line = "\x7d" ∨ line = "\x7d;") :
    p.deed t line = if p.buffer = some p.depth then .endsBuffer else .other := by
  have hreads : p.readsDeclaration line = false := by
    rcases hline with rfl | rfl <;> simp [readsDeclaration]
  have hmarked : Directive.isMarked line = false := by
    rcases hline with rfl | rfl <;> decide
  rw [deed, hreads, opensBody_of_none h, endsBuffer, if_pos hline, hmarked, h]
  simp

/-- A line outside of signatures that is neither a directive nor a brace. -/
structure IsStatement (p : Program) (line : String) : Prop where
  pending : p.pending = none
  code : Directive.isMarked line = false
  opening : line ≠ "\x7b"
  closing : ¬(line = "\x7d" ∨ line = "\x7d;")

theorem IsStatement.deed_eq (h : IsStatement p line) :
    p.deed t line =
      if p.body.isSome || (p.entryStart? line).isSome
          || (Text.after? "CBUFFER_START" line.toList).isSome then .other
      else if (Text.after? "CBUFFER_END" line.toList).isSome then .endsBuffer
      else if p.isAtDeclarations then
        if t.declaresTexture line then .drops
        else
          match t.redeclare? line with
          | some (name, text) =>
            if p.buffer.isSome then .holdsBack name text else .redeclares name text
          | none => .stays
      else .other := by
  -- The tests are split in the order in which a statement makes them.
  obtain ⟨hpending, hcode, hopening, hclosing⟩ := h
  rw [deed, opensBody_of_none hpending, readsDeclaration, endsBuffer, if_neg hclosing]
  rw [not_or] at hclosing
  cases hbody : p.body with
  | some body => simp [hpending, hcode, isAtDeclarations, hbody]
  | none =>
    cases (p.entryStart? line) with
    | some stage => simp
    | none =>
      cases (Text.after? "CBUFFER_START" line.toList) with
      | some rest => simp
      | none =>
        cases (Text.after? "CBUFFER_END" line.toList) with
        | some rest => simp [hpending, hcode, hopening]
        | none =>
          cases p.isAtDeclarations with
          | false => simp
          | true =>
            cases t.declaresTexture line with
            | true => simp [hpending, hcode, hopening, hclosing]
            | false => simp [hpending, hcode, hopening, hclosing]

/-- What a block does in a live line. -/
def Does (t : Substitution) (p : Program) (line : String) (out : Program × List String) : Prop :=
  Remembers t p (p.deed t line) out.1 ∧ Writes t p line (p.deed t line) out.2

theorem does_openBrace (hpending : p.pending = none) (t : Substitution) :
    Does t p "\x7b" (p.openBrace "\x7b") := by
  rw [Does, deed_of_brace hpending]
  simp only [openBrace]
  split
  · exact ⟨remembers_other rfl rfl rfl rfl, .other _⟩
  · exact ⟨remembers_other rfl rfl rfl rfl, .other _⟩

/-- What is held back comes behind the end of a constant buffer. -/
theorem does_closeBuffer {front : Program} (hdeed : p.deed t line = .endsBuffer)
    (hfront : front.filter = p.filter ∧ front.plan = p.plan ∧ front.declared = p.declared ∧
      front.deferred = p.deferred) :
    Does t p line (front.closeBuffer.1, line :: front.closeBuffer.2) := by
  obtain ⟨hfilter, hplan, hdeclared, hdeferred⟩ := hfront
  rw [Does, hdeed]
  refine ⟨⟨hfilter, hplan, hdeclared.trans (List.append_nil _).symm, rfl⟩, ?_⟩
  have hwritten : line :: front.closeBuffer.2 = line :: p.deferred := by
    rw [closeBuffer, hdeferred]
  rw [hwritten]
  exact .endsBuffer

theorem does_closeBrace (hpending : p.pending = none) (hline : line = "\x7d" ∨ line = "\x7d;")
    (t : Substitution) : Does t p line (p.closeBrace line) := by
  have hdeed := deed_of_closing (t := t) hpending hline
  have hdepth : p.depth - 1 + 1 = p.depth := by omega
  simp only [closeBrace, hdepth]
  split
  · rename_i hbuffer
    rw [if_pos hbuffer] at hdeed
    exact does_closeBuffer hdeed ⟨rfl, rfl, rfl, rfl⟩
  · rename_i hbuffer
    rw [if_neg hbuffer] at hdeed
    rw [Does, hdeed]
    exact ⟨remembers_other rfl rfl rfl rfl, .other _⟩

/-- A declaration is written anew or held back, whatever else the block is told. -/
theorem declaration?_eq (t : Substitution) (p : Program) (line : String) :
    p.declaration? t line = (t.redeclare? line).map fun (name, text) =>
      if p.buffer.isSome then
        ({ p with
            declared := p.declared ++ (Deed.holdsBack name text).assigned t
            deferred := p.deferred ++ [text] }, [])
      else ({ p with declared := p.declared ++ (Deed.redeclares name text).assigned t }, [text]) := by
  simp only [declaration?, Substitution.redeclare?]
  cases Substitution.declaration? line with
  | none => rfl
  | some found =>
    obtain ⟨type, name⟩ := found
    dsimp only [Option.bind_eq_bind, Option.bind_some]
    cases t.declare? type name with
    | none => rfl
    | some text =>
      dsimp only [Option.bind_some, Option.map_some, Deed.assigned]
      cases t.statics.contains name with
      | true =>
        simp only [if_true, List.append_nil]
        split <;> rfl
      | false =>
        simp only [Bool.false_eq_true, if_false]
        split <;> rfl

theorem does_globalLine (hdeed : p.deed t line
      = if p.isAtDeclarations then
          if t.declaresTexture line then .drops
          else
            match t.redeclare? line with
            | some (name, text) =>
              if p.buffer.isSome then .holdsBack name text else .redeclares name text
            | none => .stays
        else .other) : Does t p line (p.globalLine t line) := by
  -- What is announced changes nothing of what counts here.
  have hkept : ∀ q : Program, q.filter = p.filter → q.plan = p.plan → q.declared = p.declared →
      q.deferred = p.deferred → q.buffer = p.buffer → q.isAtDeclarations = p.isAtDeclarations →
      Does t p line (if q.isAtDeclarations then
        if t.declaresTexture line then (q, []) else (q.declaration? t line).getD (q, [line])
        else (q, [line])) := by
    intro q hfilter hplan hdeclared hdeferred hbuffer hplace
    have hother := remembers_other (t := t) hfilter hplan hdeclared hdeferred
    rw [Does, hdeed, hplace]
    cases p.isAtDeclarations with
    | false => exact ⟨hother, .other _⟩
    | true =>
      cases t.declaresTexture line with
      | true => exact ⟨⟨hother.filter, hother.plan, hother.declared, hother.deferred⟩, .drops⟩
      | false =>
        rw [declaration?_eq, hbuffer]
        cases t.redeclare? line with
        | none => exact ⟨⟨hother.filter, hother.plan, hother.declared, hother.deferred⟩, .stays⟩
        | some found =>
          obtain ⟨name, text⟩ := found
          cases p.buffer with
          | none =>
            refine ⟨⟨hfilter, hplan, ?_, hdeferred⟩, .redeclares name text⟩
            exact congrArg (· ++ _) hdeclared
          | some depth =>
            refine ⟨⟨hfilter, hplan, ?_, ?_⟩, .holdsBack name text⟩
            · exact congrArg (· ++ _) hdeclared
            · exact congrArg (· ++ _) hdeferred
  simp only [globalLine]
  split
  · exact hkept _ rfl rfl rfl rfl rfl rfl
  · exact hkept p rfl rfl rfl rfl rfl rfl

theorem does_statement (h : IsStatement p line) (t : Substitution) :
    Does t p line (p.statement t line) := by
  have hdeed := h.deed_eq (t := t)
  rw [statement.eq_def]
  split
  · rename_i hbody
    rw [hbody] at hdeed
    rw [Does, show p.deed t line = .other from hdeed]
    exact ⟨remembers_other rfl rfl rfl rfl, .other _⟩
  · rename_i hbody
    split
    · rename_i hentry
      rw [hbody, hentry] at hdeed
      rw [Does, show p.deed t line = .other from hdeed]
      exact ⟨remembers_other rfl rfl rfl rfl, .other _⟩
    · rename_i hentry
      rw [hbody, hentry] at hdeed
      split
      · rename_i hstart
        rw [hstart] at hdeed
        rw [Does, show p.deed t line = .other from hdeed]
        exact ⟨remembers_other rfl rfl rfl rfl, .other _⟩
      · rename_i hstart
        rw [Bool.not_eq_true] at hstart
        rw [hstart] at hdeed
        split
        · rename_i hend
          rw [hend] at hdeed
          exact does_closeBuffer hdeed ⟨rfl, rfl, rfl, rfl⟩
        · rename_i hend
          rw [Bool.not_eq_true] at hend
          rw [hend] at hdeed
          exact does_globalLine hdeed

/-- The brace behind a signature that can be read opens an entry point. -/
theorem mem_opened {pending : Pending} (hpending : p.pending = some pending)
    (hdepth : ¬0 < pending.depth) {entry : EntryPoint}
    (hadapt : EntryPoint.adapt pending.stage p.plan pending.lines = .ok entry) :
    .entry pending.stage pending.lines entry ∈ p.opened "\x7b" := by
  rw [opened, hpending]
  dsimp only
  rw [if_pos ⟨rfl, hdepth⟩, hadapt]
  exact List.mem_append_right _ (List.mem_singleton.2 rfl)

theorem does_signatureLine {pending : Pending} (hpending : p.pending = some pending)
    (hread : p.signatureLine t pending line = .ok out) : Does t p line out := by
  have hdeed : p.deed t line
      = if ¬0 < pending.depth ∧ line = "\x7b" then .opensBody else .other :=
    deed_of_pending hpending
  simp only [signatureLine] at hread
  split at hread
  · rename_i hdepth
    cases hread
    rw [Does, hdeed, if_neg fun hopens => hopens.1 hdepth]
    exact ⟨remembers_other rfl rfl rfl rfl, .other _⟩
  · rename_i hdepth
    split at hread
    · rename_i hbrace
      subst hbrace
      rw [enter] at hread
      obtain ⟨entry, hadapt, hread⟩ := exists_ok_of_bind hread
      cases hread
      rw [Does, hdeed, if_pos ⟨hdepth, rfl⟩]
      exact ⟨⟨rfl, rfl, (List.append_nil _).symm, rfl⟩,
        .opensBody (mem_opened hpending hdepth hadapt) _⟩
    · rename_i hbrace
      rw [Does, hdeed, if_neg fun hopens => hbrace hopens.2]
      split at hread
      · cases hread
        exact ⟨remembers_other rfl rfl rfl rfl, .other _⟩
      · cases hread
        exact ⟨remembers_other rfl rfl rfl rfl, .other _⟩

/-- **A live line of a program block.**  Its deed says what is written for it and what the block
remembers of declarations. -/
theorem does_liveLine (hread : p.liveLine t line = .ok out) : Does t p line out := by
  rw [liveLine.eq_def] at hread
  split at hread
  · rename_i hmarked
    cases hread
    rw [Does, deed_of_isMarked hmarked, write]
    split
    · exact ⟨remembers_other rfl rfl rfl rfl, .other _⟩
    · exact ⟨remembers_other rfl rfl rfl rfl, .other _⟩
  · rename_i hmarked
    split at hread
    · rename_i pending hpending
      exact does_signatureLine hpending hread
    · rename_i hpending
      cases hread
      split
      · rename_i hbrace
        subst hbrace
        exact does_openBrace hpending t
      · rename_i hbrace
        split
        · rename_i hclosing
          exact does_closeBrace hpending (by simpa using hclosing) t
        · rename_i hclosing
          exact does_statement
            ⟨hpending, Bool.eq_false_iff.2 hmarked, hbrace, by simpa using hclosing⟩ t

end

/-! ## Directives -/

/-- Whether no line that the block is still to write of its own is a directive. -/
structure IsClean (p : Program) : Prop where
  typed : p.plan.IsTyped
  deferred : ∀ line ∈ p.deferred, Directive.isMarked line = false
  declared : ∀ name ∈ p.declared, StartsPlain name.toList ∧ name.toList ≠ []
  started : ∀ pending, p.pending = some pending →
    ∃ first rest, pending.lines = first :: rest ∧ Directive.isMarked first = false

/-- Whether the prologue of an entry point that a line opens has no directive. -/
def OpensPlain (p : Program) (line : String) : Prop := ∀ mark ∈ p.opened line, mark.IsPlain

section

variable {t : Substitution} {p q : Program} {line name text : String}
  {out : Program × List String}

theorem isClean_new (o : Options) (index : Nat) (pass : Pass) {plan : Plan} (h : plan.IsTyped) :
    (Program.new o index pass plan).IsClean where
  typed := h
  deferred _ hline := by cases hline
  declared _ hname := by cases hname
  started _ hpending := by cases hpending

/-- The declarations that are written anew or held back are those that a substitute is found for. -/
theorem redeclare?_of_deed (h : (p.deed t line).declaration? = some (name, text)) :
    t.redeclare? line = some (name, text) := by
  rw [deed] at h
  split at h
  · split at h
    · cases h
    · split at h
      · rename_i name' text' hfound
        split at h
        · cases h
          exact hfound
        · cases h
          exact hfound
      · cases h
  · split at h
    · cases h
    · split at h
      · cases h
      · cases h

/-- A declaration that is written anew is no directive, and neither is a statement that assigns the
property. -/
theorem isMarked_of_redeclare? (h : t.redeclare? line = some (name, text)) :
    Directive.isMarked text = false ∧ StartsPlain name.toList ∧ name.toList ≠ [] := by
  obtain ⟨type, hform, hdeclare⟩ := Substitution.redeclare?_eq_some_iff.1 h
  refine ⟨?_, ?_⟩
  · rw [Substitution.declare?] at hdeclare
    split at hdeclare
    · cases hdeclare
      iterate 6 refine isMarked_append ?_ fun h => absurd h (by simp)
      decide
    · split at hdeclare
      · cases hdeclare
        iterate 4 refine isMarked_append ?_ fun h => absurd h (by simp)
        decide
      · cases hdeclare
  · obtain ⟨c, rest, heq, hstart, -⟩ := hform.isName.2
    rw [heq]
    refine ⟨startsPlain_cons ?_ rest, List.cons_ne_nil c rest⟩
    rintro rfl
    exact absurd hstart (by decide)

theorem IsClean.remembers {deed : Deed} (h : p.IsClean) (hremembers : Remembers t p deed q)
    (hdeed : p.deed t line = deed)
    (hstarted : ∀ pending, q.pending = some pending →
      ∃ first rest, pending.lines = first :: rest ∧ Directive.isMarked first = false) :
    q.IsClean where
  typed := hremembers.plan ▸ h.typed
  deferred := by
    rw [hremembers.deferred]
    cases deed with
    | holdsBack name text =>
      have htext := (isMarked_of_redeclare? (redeclare?_of_deed (congrArg _ hdeed))).1
      exact List.forall_mem_append.2 ⟨h.deferred, List.forall_mem_singleton.2 htext⟩
    | endsBuffer => simp [Deed.defer]
    | drops => exact h.deferred
    | redeclares => exact h.deferred
    | opensBody => exact h.deferred
    | stays => exact h.deferred
    | other => exact h.deferred
  declared := by
    have hname : ∀ name text, t.redeclare? line = some (name, text) →
        ∀ n ∈ p.declared ++ (if t.statics.contains name then [] else [name]),
          StartsPlain n.toList ∧ n.toList ≠ [] := by
      intro name text hfound
      refine List.forall_mem_append.2 ⟨h.declared, ?_⟩
      split
      · simp
      · exact List.forall_mem_singleton.2 (isMarked_of_redeclare? hfound).2
    rw [hremembers.declared]
    cases deed with
    | redeclares name text => exact hname name text (redeclare?_of_deed (congrArg _ hdeed))
    | holdsBack name text => exact hname name text (redeclare?_of_deed (congrArg _ hdeed))
    | drops => simpa [Deed.assigned] using h.declared
    | endsBuffer => simpa [Deed.assigned] using h.declared
    | opensBody => simpa [Deed.assigned] using h.declared
    | stays => simpa [Deed.assigned] using h.declared
    | other => simpa [Deed.assigned] using h.declared
  started := hstarted

theorem isMarked_prologue (r : Registers) (mesh : String) :
    ∀ line ∈ r.prologue mesh, Directive.isMarked line = false := by
  intro line hline
  rw [Registers.prologue] at hline
  split at hline
  · cases hline
  · simp only [List.mem_cons, List.not_mem_nil, or_false] at hline
    rcases hline with rfl | rfl
    · iterate 4 refine isMarked_append ?_ fun h => absurd h (by simp)
      decide
    · iterate 6 refine isMarked_append ?_ fun h => absurd h (by simp)
      decide

/-- The statements that set properties are no directives. -/
theorem isMarked_assignments (t : Substitution) {declared : List String}
    (h : ∀ name ∈ declared, StartsPlain name.toList ∧ name.toList ≠ []) :
    ∀ line ∈ t.assignments declared, Directive.isMarked line = false := by
  intro line hline
  simp only [Substitution.assignments, List.mem_append, List.mem_filterMap, List.mem_map] at hline
  rcases hline with (hline | ⟨name, hname, hline⟩) | ⟨texture, -, rfl⟩
  · split at hline
    · exact isMarked_prologue _ _ line hline
    · cases hline
  · obtain ⟨expression, -, rfl⟩ := Option.map_eq_some_iff.1 hline
    obtain ⟨hplain, hne⟩ := h name hname
    iterate 3 refine isMarked_append ?_ fun h => absurd h (by simp [hne])
    exact isMarked_eq_false_iff.2 hplain
  · iterate 4 refine isMarked_append ?_ fun h => absurd h (by simp [SlicedTexture.instanceName])
    decide

/-- The directives that are read in a step are written or held back, and a signature that is held
back starts with a line of code. -/
structure Relays (p : Program) (line : String) (out : Program × List String) : Prop where
  started : ∀ pending, out.1.pending = some pending →
    ∃ first rest, pending.lines = first :: rest ∧ Directive.isMarked first = false
  directives : directives (out.2 ++ out.1.held) = directives (p.held ++ [line])

theorem directives_of_unmarked {lines : List String}
    (h : ∀ line ∈ lines, Directive.isMarked line = false) : directives lines = [] :=
  Condition.directives_of_plain fun line hline => ofLine_of_not_isMarked (h line hline)

/-- Outside of signatures, code is written for code. -/
theorem relays_code (hline : Directive.isMarked line = false) (hbefore : p.pending = none)
    (hafter : out.1.pending = none) (hcode : ∀ l ∈ out.2, Directive.isMarked l = false) :
    Relays p line out where
  started pending h := by rw [hafter] at h; cases h
  directives := by
    rw [held, held, hbefore, hafter]
    simp [directives_of_unmarked hcode, directives_of_unmarked (List.forall_mem_singleton.2 hline)]

/-- In a signature a line is held back behind the others. -/
theorem relays_held (h : p.IsClean) {pending : Pending} (hpending : p.pending = some pending)
    {later : Pending} (hlines : later.lines = pending.lines ++ [line]) (hout : out.2 = [])
    (hlater : out.1.pending = some later) : Relays p line out where
  started pending' hpending' := by
    rw [hlater] at hpending'
    cases hpending'
    obtain ⟨first, rest, heq, hfirst⟩ := h.started pending hpending
    exact ⟨first, rest ++ [line], by rw [hlines, heq]; rfl, hfirst⟩
  directives := by
    rw [held, held, hpending, hlater, hout]
    simp [hlines]

theorem relays_closeBuffer (h : p.IsClean) (hpending : p.pending = none) {front : Program}
    (hafter : front.pending = none) (hdeferred : front.deferred = p.deferred)
    (hline : Directive.isMarked line = false) :
    Relays p line (front.closeBuffer.1, line :: front.closeBuffer.2) := by
  refine relays_code hline hpending hafter ?_
  rw [closeBuffer, hdeferred]
  exact List.forall_mem_cons.2 ⟨hline, h.deferred⟩

theorem relays_globalLine (hpending : p.pending = none) (hline : Directive.isMarked line = false)
    (t : Substitution) : Relays p line (p.globalLine t line) := by
  have hkept : ∀ q : Program, q.pending = none → Relays p line (if q.isAtDeclarations then
      if t.declaresTexture line then (q, []) else (q.declaration? t line).getD (q, [line])
      else (q, [line])) := by
    intro q hq
    have hsame : Relays p line (q, [line]) :=
      relays_code hline hpending hq (List.forall_mem_singleton.2 hline)
    split
    · split
      · exact relays_code hline hpending hq (by simp)
      · rw [declaration?_eq]
        cases hfound : t.redeclare? line with
        | none => exact hsame
        | some found =>
          obtain ⟨name, text⟩ := found
          dsimp only [Option.map_some, Option.getD_some]
          split
          · exact relays_code hline hpending hq (by simp)
          · exact relays_code hline hpending hq
              (List.forall_mem_singleton.2 (isMarked_of_redeclare? hfound).1)
    · exact hsame
  simp only [globalLine]
  split
  · exact hkept _ hpending
  · exact hkept p hpending

theorem relays_statement (h : p.IsClean) (hpending : p.pending = none)
    (hline : Directive.isMarked line = false) (t : Substitution) :
    Relays p line (p.statement t line) := by
  have hsame : ∀ q : Program, q.pending = none → Relays p line (q, [line]) :=
    fun q hq => relays_code hline hpending hq (List.forall_mem_singleton.2 hline)
  rw [statement.eq_def]
  split
  · rename_i edit _ _
    exact relays_code hline hpending hpending
      (List.forall_mem_singleton.2 (isMarked_apply edit hline))
  · split
    · refine ⟨?_, ?_⟩
      · rintro pending ⟨⟩
        exact ⟨line, [], rfl, hline⟩
      · rw [held, held, hpending]
        rfl
    · split
      · exact hsame _ hpending
      · split
        · exact relays_closeBuffer h hpending hpending rfl hline
        · exact relays_globalLine hpending hline t

/-- The signature of an entry point that is written anew has the directives of the lines that are held
back, and there are none around it. -/
theorem relays_enter (h : p.IsClean) {pending : Pending} (hpending : p.pending = some pending)
    (hdepth : ¬0 < pending.depth) (hopens : p.OpensPlain "\x7b")
    (hread : p.enter t pending "\x7b" = .ok out) : Relays p "\x7b" out := by
  rw [enter] at hread
  obtain ⟨entry, hadapt, hread⟩ := exists_ok_of_bind hread
  cases hread
  obtain ⟨first, rest, hlines, hfirst⟩ := h.started pending hpending
  have hprologue : ∀ line ∈ entry.prologue, Directive.isMarked line = false :=
    hopens _ (mem_opened hpending hdepth hadapt)
  have hplanned := EntryPoint.isPlanned_adapt h.typed hadapt
  -- Of the lines that are written here only those of the signature may have directives.
  have hdefinitions : directives
      ((entry.carriers.filter fun c => !p.carriers.contains c.role).flatMap Carrier.definition)
        = [] := by
    apply Condition.directives_of_plain
    intro line hline
    obtain ⟨c, hc, hline⟩ := List.mem_flatMap.1 hline
    exact ofLine_definition (h.typed _ c (hplanned.planned c (List.mem_filter.1 hc).1)).2 line hline
  have hsignature : directives entry.signature = directives pending.lines := by
    rw [hlines] at hadapt
    rw [← directives_filter_isMarked, EntryPoint.filter_isMarked_adapt hfirst hadapt, ← hlines,
      directives_filter_isMarked]
  have hassigned := directives_of_unmarked (isMarked_assignments t h.declared)
  refine ⟨(fun _ hsome => by cases hsome), ?_⟩
  rw [held, held, hpending]
  simp only [Condition.directives_append]
  rw [hdefinitions, hsignature, directives_of_unmarked hprologue, hassigned]
  simp

theorem relays_liveLine (h : p.IsClean) (hopens : p.OpensPlain line)
    (hread : p.liveLine t line = .ok out) : Relays p line out := by
  rw [liveLine.eq_def] at hread
  split at hread
  · cases hread
    cases hpending : p.pending with
    | none =>
      have hwrite : p.write [line] = (p, [line]) := by rw [write, hpending]
      rw [hwrite]
      refine ⟨fun pending hsome => ?_, by simp [held, hpending]⟩
      rw [hpending] at hsome
      cases hsome
    | some pending =>
      rw [write, hpending]
      exact relays_held h hpending rfl rfl rfl
  · rename_i hmarked
    have hline : Directive.isMarked line = false := Bool.eq_false_iff.2 hmarked
    have hsame : ∀ q : Program, p.pending = none → q.pending = none → Relays p line (q, [line]) :=
      fun q hpending hq => relays_code hline hpending hq (List.forall_mem_singleton.2 hline)
    split at hread
    · rename_i pending hpending
      simp only [signatureLine] at hread
      split at hread
      · cases hread
        exact relays_held h hpending rfl rfl rfl
      · rename_i hdepth
        split at hread
        · rename_i hbrace
          subst hbrace
          exact relays_enter h hpending hdepth hopens hread
        · split at hread
          · cases hread
            exact ⟨(fun _ hsome => by cases hsome), by simp [held, hpending]⟩
          · cases hread
            exact relays_held h hpending rfl rfl rfl
    · rename_i hpending
      cases hread
      split
      · simp only [openBrace]
        split
        · exact hsame _ hpending hpending
        · exact hsame _ hpending hpending
      · split
        · simp only [closeBrace]
          split
          · exact relays_closeBuffer h hpending hpending rfl hline
          · exact hsame _ hpending hpending
        · exact relays_statement h hpending hline t

/-- **A step of a block keeps the directives that it reads.** -/
theorem IsClean.liveLine (h : p.IsClean) (hopens : p.OpensPlain line)
    (hread : p.liveLine t line = .ok out) :
    out.1.IsClean ∧ directives (out.2 ++ out.1.held) = directives (p.held ++ [line]) := by
  have hrelays := relays_liveLine h hopens hread
  exact ⟨h.remembers (does_liveLine hread).1 rfl hrelays.started, hrelays.directives⟩

end

end Program

end ShaderMerge.Variant
