import ShaderMerge.Proofs.Variant.Ledger

/-!
# Where the lines of a program block come from

What is written for a program block is made of parts.  A `Part` is written for live lines of the
block or stands for none, and `Part.IsFair` says which lines may become what: the signature of an
entry point that is written anew, the declaration of a property that has a substitute, a statement
in a body that hands an output over.  Every other live line is kept, and what is added besides is
listed by `IsAdded`.

A block that holds a signature back has read lines that are not written yet.  They are parts as
well, `Program.Holds`, until the body shows that they are a signature to write anew.  `Turns` is one
step of a block, and `turns_line` the step for a line that it reads.
-/

namespace ShaderMerge.Variant

/-- A line that the filters let through, with the program block in front of it if there is one. -/
structure LiveLine where
  /-- The program block. -/
  block : Option Program
  /-- The line. -/
  text : String

/-- A part of the text of a variant. -/
inductive Part where
  /-- A line that stays as it is. -/
  | kept (line : LiveLine)
  /-- Lines that stand for no line of the sources. -/
  | added (lines : List String)
  /-- A line outside of program blocks, and what is written for it. -/
  | outer (line : LiveLine) (written : String)
  /-- A declaration, and what is written for it. -/
  | declaration (line : LiveLine) (written : List String)
  /-- A line of a body that is edited. -/
  | edited (line : LiveLine) (edit : BodyEdit)
  /-- The lines of a signature, and the lines of the signature as it is written anew. -/
  | signature (lines : List LiveLine) (written : List String)

namespace Part

/-- The live lines that a part is written for. -/
def reads : Part → List LiveLine
  | kept line => [line]
  | added _ => []
  | outer line _ => [line]
  | declaration line _ => [line]
  | edited line _ => [line]
  | signature lines _ => lines

/-- The lines that are written. -/
def written : Part → List String
  | kept line => [line.text]
  | added lines => lines
  | outer _ written => [written]
  | declaration _ written => written
  | edited line edit => [edit.apply line.text]
  | signature _ written => written

/-- Whether a part leaves live lines as they are. -/
def isPlain : Part → Bool
  | kept _ | added _ => true
  | _ => false

end Part

/-- The live lines that some parts are written for. -/
def readsOf (parts : List Part) : List LiveLine := parts.flatMap Part.reads

/-- The text of some parts. -/
def textOf (parts : List Part) : List String := parts.flatMap Part.written

@[simp] theorem readsOf_append (first second : List Part) :
    readsOf (first ++ second) = readsOf first ++ readsOf second := List.flatMap_append

@[simp] theorem textOf_append (first second : List Part) :
    textOf (first ++ second) = textOf first ++ textOf second := List.flatMap_append

@[simp] theorem readsOf_nil : readsOf [] = [] := rfl

@[simp] theorem textOf_nil : textOf [] = [] := rfl

@[simp] theorem readsOf_cons (part : Part) (parts : List Part) :
    readsOf (part :: parts) = part.reads ++ readsOf parts := List.flatMap_cons

@[simp] theorem textOf_cons (part : Part) (parts : List Part) :
    textOf (part :: parts) = part.written ++ textOf parts := List.flatMap_cons

/-- Among plain parts the live lines stand as they are. -/
theorem sublist_textOf {parts : List Part} (h : ∀ part ∈ parts, part.isPlain = true) :
    ((readsOf parts).map LiveLine.text).Sublist (textOf parts) := by
  induction parts with
  | nil => exact List.Sublist.refl _
  | cons part rest ih =>
    have hrest := ih fun q hq => h q (List.mem_cons_of_mem part hq)
    rw [readsOf_cons, textOf_cons, List.map_append]
    refine List.Sublist.append ?_ hrest
    cases part with
    | kept line => exact List.Sublist.refl _
    | added lines => exact List.nil_sublist _
    | outer => cases h _ List.mem_cons_self
    | declaration => cases h _ List.mem_cons_self
    | edited => cases h _ List.mem_cons_self
    | signature => cases h _ List.mem_cons_self

/-! ## What may become of a line -/

/-- Whether a line of a body hands over an output that is to be wrapped: it returns a value, or
appends to the stream. -/
def BodyEdit.edits (edit : BodyEdit) (line : String) : Bool :=
  match edit with
  | keep => false
  | wrapReturn => (returnedValue? none line.toList).isSome
  | wrapAppend stream => (Text.splitAtFirst? (stream ++ ".Append(").toList line.toList).isSome

theorem BodyEdit.apply_of_not_edits {edit : BodyEdit} {line : String}
    (h : edit.edits line = false) : edit.apply line = line := by
  cases edit with
  | keep => rfl
  | wrapReturn =>
    have hnone : returnedValue? none line.toList = none := by
      rwa [edits, Option.isSome_eq_false_iff, Option.isNone_iff_eq_none] at h
    rw [apply, wrapReturnIn, hnone]
    exact String.ofList_toList
  | wrapAppend stream =>
    have hnone : Text.splitAtFirst? (stream ++ ".Append(").toList line.toList = none := by
      rwa [edits, Option.isSome_eq_false_iff, Option.isNone_iff_eq_none] at h
    simp only [apply, wrapAppendIn, hnone]
    exact String.ofList_toList

/-- What is written for a line that declares a property with a substitute, or a sliced texture or
its sampler.  A declaration in a constant buffer may be held back until the buffer ends. -/
inductive Declares (t : Substitution) (p : Program) (line : String) : List String → Prop
  | texture (h : t.declaresTexture line = true) : Declares t p line []
  | property {type name declaration : String}
      (found : Substitution.declaration? line = some (type, name))
      (substitute : t.declare? type name = some declaration) : Declares t p line [declaration]
  | deferred {type name declaration : String}
      (found : Substitution.declaration? line = some (type, name))
      (substitute : t.declare? type name = some declaration) (buffer : p.buffer.isSome = true) :
      Declares t p line []

/-- Whether some lines are the signature of an entry point, from its first line on, and others the
signature as it is written anew. -/
def IsAnew (lines : List LiveLine) (written : List String) : Prop :=
  ∃ first rest p stage source entry, lines = first :: rest ∧ first.block = some p ∧
    p.entryStart? first.text = some stage ∧ (lines.map LiveLine.text).Sublist source ∧
    EntryPoint.adapt stage p.plan source = .ok entry ∧ written = entry.signature

/-- The lines that a variant adds to those of its sources. -/
inductive IsAdded (r : Request) : List String → Prop
  /-- What the filter of the regions writes. -/
  | regions (f : Region.Filter) (line : String) : IsAdded r (f.feed line).written
  /-- What the filter of the conditional groups writes. -/
  | groups (f : Condition.Filter) (line : String) : IsAdded r (f.feed line).written
  /-- The declarations at the start of a program block. -/
  | prelude (plan : Plan) (pass : Pass) : IsAdded r (Program.prelude r.substitution plan pass)
  /-- The declarations that were held back in a constant buffer. -/
  | declarations {lines : List String}
      (h : ∀ line ∈ lines, ∃ type name, r.substitution.declare? type name = some line) :
      IsAdded r lines
  /-- The definitions of carriers. -/
  | carriers (carriers : List Carrier) : IsAdded r (carriers.flatMap Carrier.definition)
  /-- The lines that open the body of an entry point that is written anew. -/
  | opening {stage : Stage} {plan : Plan} {source : List String} {entry : EntryPoint}
      (h : EntryPoint.adapt stage plan source = .ok entry) (declared : List String) :
      IsAdded r (entry.prologue ++ r.substitution.assignments declared)
  /-- The properties that the variant adds. -/
  | properties : IsAdded r (r.addedProperties.map AddedProperty.line)
  /-- A block of these properties. -/
  | block :
    IsAdded r (["Properties", "\x7b"] ++ r.addedProperties.map AddedProperty.line ++ ["\x7d"])

/-- Whether the lines of a part may become what it has for them. -/
def Part.IsFair (r : Request) : Part → Prop
  | kept _ => True
  | added lines => IsAdded r lines
  | outer line written => line.block = none ∧ Include.isProgramStart line.text = false ∧
      (written = r.command line.text ∨ written = (r.propertyLine line.text).2 ∨
        Writer.isShaderLine line.text = true ∧ ∃ name, written = "Shader \"" ++ name ++ "\"")
  | declaration line written => ∃ p, line.block = some p ∧ p.isAtDeclarations = true ∧
      Declares r.substitution p line.text written
  | edited line edit => ∃ p depth, line.block = some p ∧ p.body = some (edit, depth) ∧
      edit.edits line.text = true
  | signature lines written => IsAnew lines written

/-! ## Lines that are held back -/

namespace Program

/-- Blocks at the same place of the code. -/
structure SamePlace (p q : Program) : Prop where
  plan : p.plan = q.plan
  entries : p.entries = q.entries
  depth : p.depth = q.depth
  buffer : p.buffer = q.buffer
  body : p.body = q.body

/-- The parts that a block holds back: none, or the start of a signature from the line on that
starts it. -/
structure Holds (r : Request) (p : Program) (held : List Part) : Prop where
  text : textOf held = p.held
  fair : ∀ part ∈ held, part.IsFair r
  plain : ∀ part ∈ held, part.isPlain = true
  released : p.pending = none → held = []
  started : ∀ pending, p.pending = some pending → ∃ first rest q, held = .kept first :: rest ∧
    first.block = some q ∧ q.plan = p.plan ∧ q.entryStart? first.text = some pending.stage
  deferred : ∀ line ∈ p.deferred, ∃ type name, r.substitution.declare? type name = some line

/-- A step of a block: the lines that were held back and those that are read are written in some
parts or held back in others. -/
structure Turns (r : Request) (out : Program × List String) (held : List Part)
    (reads : List LiveLine) (parts held' : List Part) : Prop where
  holds : out.1.Holds r held'
  text : textOf parts = out.2
  fair : ∀ part ∈ parts, part.IsFair r
  reads : readsOf held ++ reads = readsOf parts ++ readsOf held'

variable {r : Request} {p p' q : Program} {held held' parts : List Part} {line : LiveLine}

theorem entryStart?_eq (h : SamePlace q p) (line : String) :
    q.entryStart? line = p.entryStart? line := by
  rw [entryStart?, entryStart?, h.depth, h.entries]

theorem isAtDeclarations_eq (h : SamePlace q p) : q.isAtDeclarations = p.isAtDeclarations := by
  rw [isAtDeclarations, isAtDeclarations, h.body, h.depth, h.buffer]

/-- What is held back does not depend on the rest of the block. -/
theorem Holds.congr (h : p.Holds r held) (hplan : p'.plan = p.plan)
    (hpending : p'.pending = p.pending) (hdeferred : p'.deferred = p.deferred) :
    p'.Holds r held where
  text := by rw [h.text, Program.held, Program.held, hpending]
  fair := h.fair
  plain := h.plain
  released hnone := h.released (hpending.symm.trans hnone)
  started pending hsome := by
    rw [hplan]
    exact h.started pending (hpending.symm.trans hsome)
  deferred := hdeferred ▸ h.deferred

theorem Holds.of_none (hpending : p.pending = none)
    (hdeferred : ∀ line ∈ p.deferred, ∃ type name, r.substitution.declare? type name = some line) :
    p.Holds r [] where
  text := (held_of_none hpending).symm
  fair := by simp
  plain := by simp
  released _ := rfl
  started pending hsome := by
    rw [hpending] at hsome
    cases hsome
  deferred := hdeferred

/-- Plain parts may join what is held back. -/
theorem Holds.append (h : p.Holds r held) {pending : Pending} (hpending : p.pending = some pending)
    (parts : List Part) (hfair : ∀ part ∈ parts, part.IsFair r)
    (hplain : ∀ part ∈ parts, part.isPlain = true) (depth : Int) :
    ({ p with pending := some { pending with lines := pending.lines ++ textOf parts, depth } } :
      Program).Holds r (held ++ parts) where
  text := by
    rw [textOf_append, h.text, Program.held, hpending]
    rfl
  fair := List.forall_mem_append.2 ⟨h.fair, hfair⟩
  plain := List.forall_mem_append.2 ⟨h.plain, hplain⟩
  released hnone := by cases hnone
  started pending' hsome := by
    cases hsome
    obtain ⟨first, rest, q, rfl, hblock, hplan, hstart⟩ := h.started pending hpending
    exact ⟨first, rest ++ parts, q, rfl, hblock, hplan, hstart⟩
  deferred := h.deferred

/-- Outside of signatures the parts of a step are written at once. -/
theorem Turns.of_none {lines : List String} {reads : List LiveLine} (hpending : p'.pending = none)
    (hdeferred : ∀ line ∈ p'.deferred, ∃ type name, r.substitution.declare? type name = some line)
    (hfair : ∀ part ∈ parts, part.IsFair r) (hlines : textOf parts = lines)
    (hreads : readsOf parts = reads) : Turns r (p', lines) [] reads parts [] where
  holds := .of_none hpending hdeferred
  text := hlines
  fair := hfair
  reads := by rw [hreads, readsOf_nil, List.append_nil, List.nil_append]

/-! ## Steps -/

/-- Plain parts are held back with a signature, or written at once. -/
theorem turns_write (h : p.Holds r held) (parts : List Part)
    (hfair : ∀ part ∈ parts, part.IsFair r) (hplain : ∀ part ∈ parts, part.isPlain = true) :
    ∃ out held', Turns r (p.write (textOf parts)) held (readsOf parts) out held' := by
  cases hpending : p.pending with
  | none =>
    have hwrite : p.write (textOf parts) = (p, textOf parts) := by rw [write, hpending]
    rw [hwrite, h.released hpending]
    exact ⟨parts, [], .of_none hpending h.deferred hfair rfl rfl⟩
  | some pending =>
    have hheld := h.append hpending parts hfair hplain pending.depth
    rw [write, hpending]
    exact ⟨[], held ++ parts, hheld, rfl, by simp, by simp⟩

/-- A line that is kept outside of signatures. -/
theorem turns_kept (h : p.Holds r []) (hpending : p'.pending = none)
    (hdeferred : p'.deferred = p.deferred) (line : LiveLine) :
    Turns r (p', [line.text]) [] [line] [.kept line] [] :=
  .of_none hpending (hdeferred ▸ h.deferred) (by simp [Part.IsFair]) rfl rfl

theorem turns_openBrace (hpending : p.pending = none) (h : p.Holds r []) (line : LiveLine) :
    Turns r (p.openBrace line.text) [] [line] [.kept line] [] := by
  simp only [openBrace]
  split
  · exact turns_kept h (by exact hpending) (by rfl) line
  · exact turns_kept h (by exact hpending) (by rfl) line

/-- The declarations that were held back follow the end of the constant buffer. -/
theorem turns_closeBuffer (hpending : p.pending = none)
    (hdeferred : ∀ line ∈ p.deferred, ∃ type name, r.substitution.declare? type name = some line)
    (line : LiveLine) :
    Turns r (p.closeBuffer.1, line.text :: p.closeBuffer.2) [] [line]
      [.kept line, .added p.deferred] [] := by
  have hfair : ∀ part ∈ [Part.kept line, .added p.deferred], part.IsFair r :=
    List.forall_mem_cons.2 ⟨trivial, List.forall_mem_singleton.2 (.declarations hdeferred)⟩
  exact .of_none hpending (by simp [closeBuffer]) hfair (by simp [Part.written, closeBuffer]) rfl

theorem turns_closeBrace (hpending : p.pending = none) (h : p.Holds r []) (line : LiveLine) :
    ∃ parts, Turns r (p.closeBrace line.text) [] [line] parts [] := by
  simp only [closeBrace]
  split
  · refine ⟨_, turns_closeBuffer ?_ ?_ line⟩
    · exact hpending
    · exact h.deferred
  · exact ⟨_, turns_kept h (by exact hpending) (by rfl) line⟩

theorem turns_declaration? (hpending : p.pending = none) (h : p.Holds r [])
    (hplace : SamePlace q p) (hblock : line.block = some q) (hat : p.isAtDeclarations = true)
    {out : Program × List String} (hread : p.declaration? r.substitution line.text = some out) :
    ∃ parts, Turns r out [] [line] parts [] := by
  simp only [declaration?, Option.bind_eq_bind, Option.bind_eq_some_iff] at hread
  obtain ⟨⟨type, name⟩, hfound, declaration, hdeclare, hread⟩ := hread
  -- Whether the name is declared for the first time does not matter for what is written.
  have hcase : ∀ p' : Program, p'.pending = p.pending → p'.deferred = p.deferred →
      p'.buffer = p.buffer →
      (if p'.buffer.isSome then pure ({ p' with deferred := p'.deferred ++ [declaration] }, [])
        else pure (p', [declaration]) : Option (Program × List String)) = some out →
      ∃ parts, Turns r out [] [line] parts [] := by
    intro p' hsame hdeferred hbuffer hread
    have hnone : p'.pending = none := hsame.trans hpending
    have hfair : ∀ written, Declares r.substitution q line.text written →
        ∀ part ∈ [Part.declaration line written], part.IsFair r :=
      fun written hdeclares => List.forall_mem_singleton.2
        ⟨q, hblock, (isAtDeclarations_eq hplace).trans hat, hdeclares⟩
    split at hread
    · rename_i hopen
      cases hread
      have hopen' : q.buffer.isSome = true := by rw [hplace.buffer, ← hbuffer, hopen]
      refine ⟨_, .of_none hnone ?_ (hfair [] (.deferred hfound hdeclare hopen')) rfl rfl⟩
      intro l hl
      rcases List.mem_append.1 hl with hl | hl
      · exact h.deferred l (hdeferred ▸ hl)
      · rw [List.mem_singleton.1 hl]
        exact ⟨type, name, hdeclare⟩
    · cases hread
      exact ⟨_, .of_none hnone (hdeferred ▸ h.deferred)
        (hfair [declaration] (.property hfound hdeclare)) rfl rfl⟩
  split at hread
  · exact hcase p rfl rfl rfl hread
  · exact hcase { p with declared := p.declared ++ [name] } rfl rfl rfl hread

theorem turns_globalLine (hpending : p.pending = none) (h : p.Holds r [])
    (hplace : SamePlace q p) (hblock : line.block = some q) :
    ∃ parts, Turns r (p.globalLine r.substitution line.text) [] [line] parts [] := by
  -- What is announced does not matter here.
  have hcase : ∀ p' : Program, p'.pending = none → p'.Holds r [] → SamePlace q p' →
      ∃ parts, Turns r (if p'.isAtDeclarations then
        if r.substitution.declaresTexture line.text then (p', [])
        else (p'.declaration? r.substitution line.text).getD (p', [line.text])
        else (p', [line.text])) [] [line] parts [] := by
    intro p' hnone hholds hsame
    split
    · rename_i hat
      split
      · rename_i htexture
        have hfair : ∀ part ∈ [Part.declaration line []], part.IsFair r :=
          List.forall_mem_singleton.2
            ⟨q, hblock, (isAtDeclarations_eq hsame).trans hat, .texture htexture⟩
        exact ⟨_, .of_none hnone hholds.deferred hfair rfl rfl⟩
      · cases hfound : p'.declaration? r.substitution line.text with
        | none => exact ⟨_, turns_kept hholds (by exact hnone) (by rfl) line⟩
        | some out => exact turns_declaration? hnone hholds hsame hblock hat hfound
    · exact ⟨_, turns_kept hholds (by exact hnone) (by rfl) line⟩
  simp only [globalLine]
  split
  · exact hcase _ hpending (h.congr rfl rfl rfl)
      ⟨hplace.plan, hplace.entries, hplace.depth, hplace.buffer, hplace.body⟩
  · exact hcase p hpending h hplace

theorem turns_statement (hpending : p.pending = none) (h : p.Holds r []) (hplace : SamePlace q p)
    (hblock : line.block = some q) :
    ∃ parts held', Turns r (p.statement r.substitution line.text) [] [line] parts held' := by
  rw [statement.eq_def]
  split
  · rename_i edit depth hbody
    cases hedits : edit.edits line.text with
    | false =>
      rw [BodyEdit.apply_of_not_edits hedits]
      exact ⟨_, _, turns_kept h (by exact hpending) (by rfl) line⟩
    | true =>
      have hfair : ∀ part ∈ [Part.edited line edit], part.IsFair r :=
        List.forall_mem_singleton.2 ⟨q, depth, hblock, hplace.body.trans hbody, hedits⟩
      exact ⟨_, [], .of_none hpending h.deferred hfair rfl rfl⟩
  · split
    · rename_i stage hstart
      refine ⟨[], [.kept line], ⟨rfl, by simp [Part.IsFair], by simp [Part.isPlain], ?_, ?_,
        h.deferred⟩, rfl, by simp, rfl⟩
      · intro hnone
        cases hnone
      · intro pending hsome
        cases hsome
        exact ⟨line, [], q, rfl, hblock, hplace.plan, (entryStart?_eq hplace _).trans hstart⟩
    · split
      · exact ⟨_, _, turns_kept h (by exact hpending) (by rfl) line⟩
      · split
        · exact ⟨_, _, turns_closeBuffer hpending h.deferred line⟩
        · obtain ⟨parts, hturns⟩ := turns_globalLine hpending h hplace hblock
          exact ⟨parts, [], hturns⟩

/-- The lines of a signature become the signature as it is written anew. -/
theorem turns_enter (h : p.Holds r held) {pending : Pending} (hpending : p.pending = some pending)
    {out : Program × List String}
    (hread : p.enter r.substitution pending line.text = .ok out) :
    ∃ parts, Turns r out held [line] parts [] := by
  rw [enter] at hread
  obtain ⟨entry, hadapt, hread⟩ := exists_ok_of_bind hread
  cases hread
  obtain ⟨first, rest, q, rfl, hblock, hplan, hstart⟩ := h.started pending hpending
  have hsource : textOf (.kept first :: rest) = pending.lines := by
    rw [h.text, Program.held, hpending]
    rfl
  have hanew : IsAnew (readsOf (.kept first :: rest)) entry.signature := by
    refine ⟨first, readsOf rest, q, pending.stage, pending.lines, entry, rfl, hblock, hstart, ?_, ?_,
      rfl⟩
    · rw [← hsource]
      exact sublist_textOf h.plain
    · rw [hplan]
      exact hadapt
  refine ⟨[.added ((entry.carriers.filter fun c => !p.carriers.contains c.role).flatMap
      Carrier.definition), .signature (readsOf (.kept first :: rest)) entry.signature, .kept line,
    .added (entry.prologue ++ r.substitution.assignments p.declared)],
    .of_none rfl h.deferred, ?_, ?_, ?_⟩
  · simp [Part.written]
  · intro part hpart
    simp only [List.mem_cons, List.not_mem_nil, or_false] at hpart
    rcases hpart with rfl | rfl | rfl | rfl
    · exact .carriers _
    · exact hanew
    · trivial
    · exact .opening hadapt p.declared
  · simp [Part.reads]

theorem turns_signatureLine (h : p.Holds r held) {pending : Pending}
    (hpending : p.pending = some pending) {out : Program × List String}
    (hread : p.signatureLine r.substitution pending line.text = .ok out) :
    ∃ parts held', Turns r out held [line] parts held' := by
  have hlonger := h.append hpending [.kept line] (by simp [Part.IsFair]) (by simp [Part.isPlain])
  have hreads : readsOf held ++ [line] = readsOf (held ++ [.kept line]) := by simp [Part.reads]
  simp only [signatureLine] at hread
  split at hread
  · cases hread
    exact ⟨[], _, hlonger _, rfl, by simp, hreads⟩
  · split at hread
    · obtain ⟨parts, hturns⟩ := turns_enter h hpending hread
      exact ⟨parts, [], hturns⟩
    · split at hread
      · -- A prototype stays as it is.
        cases hread
        refine ⟨held ++ [.kept line], [], .of_none rfl h.deferred, ?_, ?_, ?_⟩
        · rw [textOf_append, h.text, Program.held, hpending]
          rfl
        · exact (hlonger pending.depth).fair
        · rw [hreads, readsOf_nil, List.append_nil]
      · cases hread
        exact ⟨[], _, hlonger _, rfl, by simp, hreads⟩

theorem turns_liveLine (h : p.Holds r held) (hplace : SamePlace q p)
    (hblock : line.block = some q) {out : Program × List String}
    (hread : p.liveLine r.substitution line.text = .ok out) :
    ∃ parts held', Turns r out held [line] parts held' := by
  rw [liveLine.eq_def] at hread
  split at hread
  · cases hread
    exact turns_write h [.kept line] (by simp [Part.IsFair]) (by simp [Part.isPlain])
  · split at hread
    · rename_i pending hpending
      exact turns_signatureLine h hpending hread
    · rename_i hpending
      cases hread
      have hheld := h.released hpending
      subst hheld
      split
      · exact ⟨_, _, turns_openBrace hpending h line⟩
      · split
        · obtain ⟨parts, hturns⟩ := turns_closeBrace hpending h line
          exact ⟨parts, [], hturns⟩
        · exact turns_statement hpending h hplace hblock

/-! ## Lines that a block reads -/

/-- What follows a step follows it in the lines that are written. -/
theorem Turns.trans {p₁ : Program} {written more : List String} {held₁ parts₁ : List Part}
    {reads reads₁ : List LiveLine} (h : Turns r (p₁, written) held reads parts held₁)
    (h' : Turns r (p', more) held₁ reads₁ parts₁ held') :
    Turns r (p', written ++ more) held (reads ++ reads₁) (parts ++ parts₁) held' where
  holds := h'.holds
  text := by rw [textOf_append, h.text, h'.text]
  fair := List.forall_mem_append.2 ⟨h.fair, h'.fair⟩
  reads := by
    rw [← List.append_assoc, h.reads, List.append_assoc, h'.reads, readsOf_append,
      List.append_assoc]

/-- What a filter writes is added. -/
theorem turns_added {lines : List String} (h : p.Holds r held) (hadded : IsAdded r lines) :
    ∃ parts held', Turns r (p.write lines) held [] parts held' := by
  have hwrite := turns_write h [.added lines] (by simpa [Part.IsFair] using hadded)
    (by simp [Part.isPlain])
  simpa [Part.written, Part.reads] using hwrite

theorem samePlace_write (p : Program) (lines : List String) : SamePlace p (p.write lines).1 := by
  rw [write]
  split <;> exact ⟨rfl, rfl, rfl, rfl, rfl⟩

theorem SamePlace.trans {p₁ : Program} (h : SamePlace p p₁) (h' : SamePlace p₁ p') :
    SamePlace p p' :=
  ⟨h.plan.trans h'.plan, h.entries.trans h'.entries, h.depth.trans h'.depth,
    h.buffer.trans h'.buffer, h.body.trans h'.body⟩

/-- Feeding the filter of the conditional groups adds what it writes. -/
theorem turns_feed (h : p.Holds r held) (text : String) :
    SamePlace p (p.feed text).1 ∧
      ∃ parts held', Turns r ((p.feed text).1, (p.feed text).2.1) held [] parts held' := by
  have hfilter : ({ p with filter := (p.filter.feed text).filter } : Program).Holds r held :=
    h.congr rfl rfl rfl
  have hplace : SamePlace p { p with filter := (p.filter.feed text).filter } :=
    ⟨rfl, rfl, rfl, rfl, rfl⟩
  exact ⟨hplace.trans (samePlace_write _ _), turns_added hfilter (.groups p.filter text)⟩

/-- **A line of a program block is accounted for.**  If the filter lets it through, it joins the
lines that are written or held back. -/
theorem turns_line (h : p.Holds r held) (hplace : SamePlace q p) {text : String}
    {out : Program × List String} (hread : p.line r.substitution text = .ok out) :
    ∃ parts held', Turns r out held ((p.live text).map fun text => ⟨some q, text⟩) parts held' := by
  obtain ⟨hsame, fedParts, fedHeld, hfed⟩ := turns_feed h text
  have hfeed : (p.feed text).2.2 = (p.filter.feed text).feed := rfl
  rw [Program.line.eq_def] at hread
  split at hread
  · rename_i p₁ written heq
    rw [heq] at hfed hfeed
    cases hread
    rw [live, ← hfeed]
    exact ⟨_, _, hfed⟩
  · rename_i p₁ written heq
    rw [heq] at hfed hfeed hsame
    obtain ⟨⟨p₂, more⟩, hlive, hout⟩ := exists_ok_of_map hread
    cases hout
    obtain ⟨parts, held', hturns⟩ := @turns_liveLine r p₁ q _ ⟨some q, text⟩ hfed.holds
      (hplace.trans hsame) rfl _ hlive
    rw [live, ← hfeed, if_pos rfl]
    exact ⟨_, _, hfed.trans hturns⟩

end Program

end ShaderMerge.Variant
