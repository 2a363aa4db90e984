import Mathlib.Data.List.Nodup
import ShaderMerge.Proofs.Shader.EntryPoints
import ShaderMerge.Proofs.Variant.Ledger

/-!
# Carriers are defined in front of the entry points that refer to them

The text of a variant is made of segments: the starts of its program blocks, the definitions of
carriers, the entry points that are written anew, and code.  `Carries` reads them in order and says
of a block that each carrier is defined once, right in front of the first entry point that refers to
it, so that no entry point comes without the carriers that it refers to.

A block keeps the roles of the carriers that have been defined, and `Program.Knows` ties them to the
definitions that stand in its text: one role has one carrier, that of the plan of its pass.
`Program.exists_renders_line` is the step for a line of the block.
-/

namespace ShaderMerge.Variant

/-! ## The carriers of a plan -/

/-- Whether the output that a carrier holds has a type that is no directive. -/
def Carrier.IsCode (c : Carrier) : Prop := Directive.isMarked c.payload = false

namespace Plan

/-- What holds the output of a stage. -/
def carrier? (p : Plan) : CarrierRole → Option Carrier
  | .vertex => p.vertexCarrier
  | .geometry => p.geometryCarrier

/-- Whether each carrier of a plan holds the output of its stage, which has a type. -/
def IsTyped (p : Plan) : Prop :=
  ∀ role carrier, p.carrier? role = some carrier → carrier.role = role ∧ carrier.IsCode

theorem typed_of_carrierOfVertex {vertex : Signature} {carrier : Carrier}
    (hvertex : Directive.isMarked vertex.returnType = false)
    (h : carrierOfVertex vertex = some carrier) : carrier.role = .vertex ∧ carrier.IsCode := by
  rw [carrierOfVertex] at h
  split at h
  · cases h
  · cases h
    exact ⟨rfl, hvertex⟩

/-- The type of the vertices of a stream is a name. -/
theorem typed_of_carrierOfGeometry {geometry : Signature} {carrier : Carrier}
    (h : carrierOfGeometry geometry = some carrier) :
    carrier.role = .geometry ∧ carrier.IsCode := by
  obtain ⟨⟨stream, vertex⟩, hstream, rfl⟩ := Option.map_eq_some_iff.1 h
  refine ⟨rfl, ?_⟩
  obtain ⟨parameter, -, hparameter⟩ := List.exists_of_findSome?_eq_some hstream
  obtain ⟨found, hfound, heq⟩ := Option.map_eq_some_iff.1 hparameter
  cases heq
  simp only [Parameter.streamVertex?, Option.bind_eq_bind, Option.bind_eq_some_iff] at hfound
  obtain ⟨_, -, _, -, ⟨name, rest⟩, hname, _, -, hvertex⟩ := hfound
  split at hvertex
  · cases hvertex
    have hplain := Directive.isMarked_of_name? hname []
    rwa [List.append_nil] at hplain
  · cases hvertex

/-- Each stage of a pass has a carrier of its own role. -/
theorem typed_of_carriers {pass : Pass} (hpass : pass.ReturnsCode)
    {found : Option Carrier × Option Carrier} (h : carriers pass = .ok found) :
    (∀ carrier, found.1 = some carrier → carrier.role = .vertex ∧ carrier.IsCode) ∧
      ∀ carrier, found.2 = some carrier → carrier.role = .geometry ∧ carrier.IsCode := by
  have hvertex : ∀ carrier, pass.entryPoints.vertex.bind carrierOfVertex = some carrier →
      carrier.role = .vertex ∧ carrier.IsCode := by
    intro carrier hbind
    obtain ⟨vertex, hsome, hcarrier⟩ := Option.bind_eq_some_iff.1 hbind
    exact typed_of_carrierOfVertex (hpass vertex hsome) hcarrier
  rw [carriers.eq_def] at h
  dsimp only at h
  split at h
  · cases h
    refine ⟨hvertex, fun carrier hcarrier => ?_⟩
    cases hcarrier
  · split at h
    · cases h
    · split at h
      · cases h
      · cases h
        exact ⟨hvertex, fun carrier hcarrier => typed_of_carrierOfGeometry hcarrier⟩

theorem isTyped_new {shader : String} {pass : Pass} {o : Options} {p : Plan}
    (hpass : pass.ReturnsCode) (h : Plan.new shader pass o = .ok p) : p.IsTyped := by
  simp only [Plan.new] at h
  split at h
  · cases h
  · split at h
    · obtain ⟨⟨vertexCarrier, geometryCarrier⟩, hcarriers, h⟩ := exists_ok_of_bind h
      obtain ⟨hvertex, hgeometry⟩ := typed_of_carriers hpass hcarriers
      cases h
      rintro (_ | _) carrier hsome
      · exact hvertex carrier hsome
      · exact hgeometry carrier hsome
    · cases h
      rintro (_ | _) carrier hsome
      · cases hsome
      · cases hsome

end Plan

namespace EntryPoint

/-- Whether the carriers that an entry point refers to are carriers of a plan, one for each role. -/
structure IsPlanned (p : Plan) (entry : EntryPoint) : Prop where
  planned : ∀ carrier ∈ entry.carriers, p.carrier? carrier.role = some carrier
  nodup : (entry.carriers.map (·.role)).Nodup

theorem isPlanned_of_none {p : Plan} {entry : EntryPoint} (h : entry.carriers = []) :
    IsPlanned p entry := by
  constructor
  · intro carrier hcarrier
    rw [h] at hcarrier
    cases hcarrier
  · rw [h]
    exact List.nodup_nil

theorem isPlanned_of_one {p : Plan} {entry : EntryPoint} {carrier : Carrier} (hp : p.IsTyped)
    (role : CarrierRole) (hcarrier : p.carrier? role = some carrier)
    (h : entry.carriers = [carrier]) : IsPlanned p entry := by
  constructor
  · intro other hother
    rw [h, List.mem_singleton] at hother
    rw [hother, (hp role carrier hcarrier).1]
    exact hcarrier
  · rw [h]
    exact List.nodup_singleton _

theorem isPlanned_vertex {p : Plan} {s : Signature} {lines : List String} {entry : EntryPoint}
    (hp : p.IsTyped) (h : vertex p s lines = .ok entry) : IsPlanned p entry := by
  have hcarriers : entry.carriers = (if p.carries then p.vertexCarrier else none).toList := by
    simp only [vertex] at h
    split at h
    · cases h
    · cases h
      rfl
  cases hcarrier : p.vertexCarrier with
  | none => exact isPlanned_of_none (by simp [hcarriers, hcarrier])
  | some carrier =>
    cases hcarries : p.carries with
    | false => exact isPlanned_of_none (by simp [hcarriers, hcarries])
    | true => exact isPlanned_of_one hp .vertex hcarrier (by simp [hcarriers, hcarries, hcarrier])

/-- The entry point of the geometry stage refers to both carriers. -/
theorem carriers_of_geometry {p : Plan} {s : Signature} {lines : List String} {entry : EntryPoint}
    (h : geometry p s lines = .ok entry) :
    ∃ vertexCarrier geometryCarrier, p.carrier? .vertex = some vertexCarrier ∧
      p.carrier? .geometry = some geometryCarrier ∧
      entry.carriers = [vertexCarrier, geometryCarrier] := by
  rw [geometry] at h
  cases hfault : geometryOrFault p s lines with
  | error fault =>
    rw [hfault] at h
    cases h
  | ok found =>
    rw [hfault] at h
    cases h
    rw [geometryOrFault.eq_def] at hfault
    split at hfault
    · rename_i vertexCarrier geometryCarrier hvertex hgeometry
      refine ⟨vertexCarrier, geometryCarrier, hvertex, hgeometry, ?_⟩
      obtain ⟨_, -, hfault⟩ := exists_ok_of_bind hfault
      obtain ⟨_, -, hfault⟩ := exists_ok_of_bind hfault
      obtain ⟨_, -, hfault⟩ := exists_ok_of_bind hfault
      obtain ⟨_, -, hfault⟩ := exists_ok_of_bind hfault
      cases hfault
      rfl
    · cases hfault

theorem isPlanned_geometry {p : Plan} {s : Signature} {lines : List String} {entry : EntryPoint}
    (hp : p.IsTyped) (h : geometry p s lines = .ok entry) : IsPlanned p entry := by
  obtain ⟨vertexCarrier, geometryCarrier, hvertex, hgeometry, hcarriers⟩ := carriers_of_geometry h
  have hvertexRole := (hp .vertex vertexCarrier hvertex).1
  have hgeometryRole := (hp .geometry geometryCarrier hgeometry).1
  constructor
  · intro carrier hcarrier
    rw [hcarriers, List.mem_cons, List.mem_singleton] at hcarrier
    rcases hcarrier with rfl | rfl
    · rw [hvertexRole]
      exact hvertex
    · rw [hgeometryRole]
      exact hgeometry
  · simp [hcarriers, hvertexRole, hgeometryRole]

theorem isPlanned_fragment {p : Plan} (hp : p.IsTyped) (s : Signature) (lines : List String) :
    IsPlanned p (fragment p s lines) := by
  rw [fragment]
  split
  · rename_i carrier input signature hunwrap
    simp only [unwrapInput?, Option.bind_eq_bind, Option.bind_eq_some_iff] at hunwrap
    obtain ⟨found, hfound, _, -, _, -, heq⟩ := hunwrap
    cases heq
    -- The fragment stage gets what the last stage in front of it hands on.
    rcases Option.or_eq_some_iff.1 hfound with hgeometry | ⟨-, hvertex⟩
    · exact isPlanned_of_one hp .geometry hgeometry rfl
    · exact isPlanned_of_one hp .vertex hvertex rfl
  · exact isPlanned_of_none rfl

theorem isPlanned_adapt {stage : Stage} {p : Plan} {lines : List String} {entry : EntryPoint}
    (hp : p.IsTyped) (h : adapt stage p lines = .ok entry) : IsPlanned p entry := by
  rw [adapt] at h
  dsimp only at h
  split at h
  · cases h
  · cases stage with
    | vertex => exact isPlanned_vertex hp h
    | hull =>
      cases h
      exact isPlanned_of_none rfl
    | domain =>
      cases h
      exact isPlanned_of_none rfl
    | geometry => exact isPlanned_geometry hp h
    | fragment =>
      cases h
      exact isPlanned_fragment hp _ _

end EntryPoint

/-! ## Segments -/

/-- What a segment of the text of a variant stands for, if it is no mere code. -/
inductive Mark where
  /-- The start of the program block of a number. -/
  | block (index : Nat)
  /-- The definition of a carrier. -/
  | definition (carrier : Carrier)
  /-- An entry point of a stage that is written anew, given the lines of its signature. -/
  | entry (stage : Stage) (source : List String) (entry : EntryPoint)
deriving DecidableEq, Repr

/-- A segment of the text of a variant. -/
inductive Segment where
  /-- The line that starts the program block of a number, and its prelude. -/
  | start (index : Nat) (lines : List String)
  /-- Lines in which nothing is defined or referred to. -/
  | code (lines : List String)
  /-- What belongs to the definition of a carrier. -/
  | definition (carrier : Carrier)
  /-- An entry point of a stage that is written anew, given the lines of its signature, up to the
  assignments that open its body. -/
  | entry (stage : Stage) (source : List String) (entry : EntryPoint) (assignments : List String)
deriving DecidableEq, Repr

namespace Segment

/-- The lines of a segment. -/
def lines : Segment → List String
  | start _ lines => lines
  | code lines => lines
  | definition carrier => carrier.definition
  | entry _ _ point assignments =>
    point.signature ++ "\x7b" :: (point.prologue ++ assignments)

/-- What a segment stands for. -/
def mark? : Segment → Option Mark
  | start index _ => some (.block index)
  | code _ => none
  | definition carrier => some (.definition carrier)
  | entry stage source point _ => some (.entry stage source point)

/-- The carriers that are defined in a block behind a segment, if some are defined in front of it. -/
def definedBehind (defined : List Carrier) : Segment → List Carrier
  | start _ _ => []
  | definition carrier => carrier :: defined
  | _ => defined

end Segment

/-- The lines of some segments. -/
def linesOf (segments : List Segment) : List String := segments.flatMap Segment.lines

/-- What some segments stand for. -/
def marksOf (segments : List Segment) : List Mark := segments.filterMap Segment.mark?

/-- The carriers that are defined in the last block of some segments, if some are defined in front
of them. -/
def definedAfter (defined : List Carrier) (segments : List Segment) : List Carrier :=
  segments.foldl Segment.definedBehind defined

/-- Whether an entry point that refers to a carrier follows, with at most definitions in front. -/
def Introduces (carrier : Carrier) : List Segment → Prop
  | .definition _ :: rest => Introduces carrier rest
  | .entry _ _ point _ :: _ => carrier ∈ point.carriers
  | _ => False

/-- Whether a segment does what carriers ask of it, given those that are defined in front of it and
the segments behind: a definition is the first one of its role, right in front of an entry point that
refers to the carrier, and an entry point refers only to carriers that are defined. -/
def Segment.Respects (defined : List Carrier) (rest : List Segment) : Segment → Prop
  | definition carrier =>
    carrier.IsCode ∧ (∀ other ∈ defined, other.role ≠ carrier.role) ∧ Introduces carrier rest
  | entry stage source point _ =>
    (∃ plan : Plan, plan.IsTyped ∧ EntryPoint.adapt stage plan source = .ok point) ∧
      ∀ carrier ∈ point.carriers, carrier ∈ defined
  | _ => True

/-- Whether all segments do what carriers ask of them. -/
def Carries (defined : List Carrier) : List Segment → Prop
  | [] => True
  | segment :: rest =>
    segment.Respects defined rest ∧ Carries (segment.definedBehind defined) rest

section

variable {defined : List Carrier} {carrier : Carrier} {first second segments : List Segment}

@[simp] theorem linesOf_append (first second : List Segment) :
    linesOf (first ++ second) = linesOf first ++ linesOf second := List.flatMap_append

@[simp] theorem linesOf_nil : linesOf [] = [] := rfl

@[simp] theorem linesOf_cons (segment : Segment) (segments : List Segment) :
    linesOf (segment :: segments) = segment.lines ++ linesOf segments := List.flatMap_cons

@[simp] theorem marksOf_append (first second : List Segment) :
    marksOf (first ++ second) = marksOf first ++ marksOf second := List.filterMap_append

@[simp] theorem definedAfter_append (defined : List Carrier) (first second : List Segment) :
    definedAfter defined (first ++ second) = definedAfter (definedAfter defined first) second :=
  List.foldl_append

@[simp] theorem definedAfter_nil (defined : List Carrier) : definedAfter defined [] = defined := rfl

@[simp] theorem definedAfter_cons (defined : List Carrier) (segment : Segment)
    (segments : List Segment) :
    definedAfter defined (segment :: segments)
      = definedAfter (segment.definedBehind defined) segments := rfl

theorem Introduces.append (h : Introduces carrier first) (second : List Segment) :
    Introduces carrier (first ++ second) := by
  induction first with
  | nil => cases h
  | cons segment rest ih =>
    cases segment with
    | definition => exact ih h
    | entry => exact h
    | start => cases h
    | code => cases h

/-- Behind code everything is free again. -/
theorem introduces_code (lines lines' : List String) (first second : List Segment) :
    Introduces carrier (first ++ .code lines :: second)
      ↔ Introduces carrier (first ++ .code lines' :: second) := by
  induction first with
  | nil => exact Iff.rfl
  | cons segment rest ih =>
    cases segment with
    | definition => exact ih
    | entry => exact Iff.rfl
    | start => exact Iff.rfl
    | code => exact Iff.rfl

theorem Carries.append (h : Carries defined first)
    (h' : Carries (definedAfter defined first) second) : Carries defined (first ++ second) := by
  induction first generalizing defined with
  | nil => exact h'
  | cons segment rest ih =>
    refine ⟨?_, ih h.2 h'⟩
    cases segment with
    | definition => exact ⟨h.1.1, h.1.2.1, h.1.2.2.append second⟩
    | entry => exact h.1
    | start => trivial
    | code => trivial

theorem Carries.of_append (h : Carries defined (first ++ second)) :
    Carries (definedAfter defined first) second := by
  induction first generalizing defined with
  | nil => exact h
  | cons segment rest ih => exact ih h.2

/-- What code says does not matter. -/
theorem Carries.code {lines : List String} (lines' : List String)
    (h : Carries defined (first ++ .code lines :: second)) :
    Carries defined (first ++ .code lines' :: second) := by
  induction first generalizing defined with
  | nil => exact h
  | cons segment rest ih =>
    refine ⟨?_, ih h.2⟩
    cases segment with
    | definition =>
      exact ⟨h.1.1, h.1.2.1, (introduces_code lines lines' rest second).1 h.1.2.2⟩
    | entry => exact h.1
    | start => trivial
    | code => trivial

theorem carries_code (defined : List Carrier) (lines : List String) :
    Carries defined [.code lines] := ⟨trivial, trivial⟩

/-- Definitions of new carriers, in front of an entry point that refers to them. -/
theorem carries_definitions {stage : Stage} {plan : Plan} {source : List String}
    {entry : EntryPoint} {fresh : List Carrier} (assignments : List String) (hplan : plan.IsTyped)
    (hadapt : EntryPoint.adapt stage plan source = .ok entry)
    (hcode : ∀ carrier ∈ fresh, carrier.IsCode) (hnodup : (fresh.map (·.role)).Nodup)
    (hnew : ∀ carrier ∈ fresh, ∀ other ∈ defined, other.role ≠ carrier.role)
    (hfresh : ∀ carrier ∈ fresh, carrier ∈ entry.carriers)
    (hcarriers : ∀ carrier ∈ entry.carriers, carrier ∈ fresh ∨ carrier ∈ defined) :
    Carries defined (fresh.map .definition ++ [.entry stage source entry assignments]) := by
  induction fresh generalizing defined with
  | nil =>
    refine ⟨⟨⟨plan, hplan, hadapt⟩, fun carrier hcarrier => ?_⟩, trivial⟩
    exact (hcarriers carrier hcarrier).resolve_left List.not_mem_nil
  | cons carrier rest ih =>
    rw [List.map_cons, List.nodup_cons] at hnodup
    obtain ⟨hother, hnodup⟩ := hnodup
    have hintroduces : ∀ l : List Carrier,
        Introduces carrier (l.map .definition ++ [.entry stage source entry assignments]) := by
      intro l
      induction l with
      | nil => exact hfresh carrier List.mem_cons_self
      | cons _ _ ih => exact ih
    obtain ⟨hfirst, hcode⟩ := List.forall_mem_cons.1 hcode
    refine ⟨⟨hfirst, hnew carrier List.mem_cons_self, hintroduces rest⟩, ih hcode hnodup ?_ ?_ ?_⟩
    · intro c hc other hmem
      rcases List.mem_cons.1 hmem with rfl | hmem
      · intro heq
        exact hother (heq ▸ List.mem_map_of_mem hc)
      · exact hnew c (List.mem_cons_of_mem carrier hc) other hmem
    · exact fun c hc => hfresh c (List.mem_cons_of_mem carrier hc)
    · intro c hc
      rcases hcarriers c hc with hmem | hmem
      · rcases List.mem_cons.1 hmem with rfl | hmem
        · exact .inr List.mem_cons_self
        · exact .inl hmem
      · exact .inr (List.mem_cons_of_mem carrier hmem)

theorem definedAfter_definitions (defined fresh : List Carrier) :
    definedAfter defined (fresh.map .definition) = fresh.reverse ++ defined := by
  induction fresh generalizing defined with
  | nil => rfl
  | cons carrier rest ih =>
    rw [List.map_cons, definedAfter_cons, ih, List.reverse_cons, List.append_assoc]
    rfl

end

/-! ## A step of a program block -/

namespace Program

/-- The carriers of an entry point that have not been defined in a block. -/
def fresh (p : Program) (entry : EntryPoint) : List Carrier :=
  entry.carriers.filter fun c => !p.carriers.contains c.role

/-- What a block comes upon in a live line: the brace that opens the body behind a signature is where
an entry point is written anew, with the definitions of its carriers in front. -/
def opened (p : Program) (line : String) : List Mark :=
  match p.pending with
  | none => []
  | some pending =>
    if line = "\x7b" ∧ ¬0 < pending.depth then
      match EntryPoint.adapt pending.stage p.plan pending.lines with
      | .error _ => []
      | .ok entry => (p.fresh entry).map .definition ++ [.entry pending.stage pending.lines entry]
    else []

/-- What a block comes upon in a line. -/
def entered (p : Program) (line : String) : List Mark :=
  match p.feed line with
  | (_, _, .consumed) => []
  | (p, _, .live) => p.opened line

/-- The block knows which carriers have been defined: by their roles, of which each has the carrier
of the plan. -/
structure Knows (p : Program) (defined : List Carrier) : Prop where
  roles : ∀ role, role ∈ p.carriers ↔ ∃ carrier ∈ defined, carrier.role = role
  planned : ∀ carrier ∈ defined, p.plan.carrier? carrier.role = some carrier
  typed : p.plan.IsTyped

/-- What a step writes are segments that do what carriers ask of them. -/
structure Renders (out : Program × List String) (defined : List Carrier) (segments : List Segment)
    (marks : List Mark) : Prop where
  lines : linesOf segments = out.2
  carries : Carries defined segments
  knows : out.1.Knows (definedAfter defined segments)
  marks : marksOf segments = marks

/-- A block with the same plan in which the same carriers have been defined. -/
structure SameCarriers (p q : Program) : Prop where
  carriers : q.carriers = p.carriers
  plan : q.plan = p.plan

variable {t : Substitution} {p q : Program} {line : String} {defined : List Carrier}

theorem SameCarriers.trans {p' : Program} (h : SameCarriers p q) (h' : SameCarriers q p') :
    SameCarriers p p' :=
  ⟨h'.carriers.trans h.carriers, h'.plan.trans h.plan⟩

theorem Knows.congr (h : p.Knows defined) (hsame : SameCarriers p q) : q.Knows defined where
  roles := by
    rw [hsame.carriers]
    exact h.roles
  planned := by
    rw [hsame.plan]
    exact h.planned
  typed := hsame.plan ▸ h.typed

theorem knows_new (o : Options) (index : Nat) (pass : Pass) {plan : Plan} (h : plan.IsTyped) :
    (Program.new o index pass plan).Knows [] where
  roles role := by simp [Program.new]
  planned carrier hcarrier := by cases hcarrier
  typed := h

/-- A step without an entry point writes code. -/
theorem renders_code (h : p.Knows defined) (hsame : SameCarriers p q) (lines : List String) :
    Renders (q, lines) defined [.code lines] [] where
  lines := by simp [Segment.lines]
  carries := carries_code defined lines
  knows := h.congr hsame
  marks := rfl

theorem sameCarriers_write (p : Program) (lines : List String) :
    SameCarriers p (p.write lines).1 := by
  rw [write]
  split <;> exact ⟨rfl, rfl⟩

theorem sameCarriers_feed (p : Program) (line : String) : SameCarriers p (p.feed line).1 :=
  SameCarriers.trans (q := { p with filter := (p.filter.feed line).filter }) ⟨rfl, rfl⟩
    (sameCarriers_write _ _)

theorem sameCarriers_openBrace (p : Program) (line : String) :
    SameCarriers p (p.openBrace line).1 := by
  simp only [openBrace]
  split <;> exact ⟨rfl, rfl⟩

theorem sameCarriers_closeBrace (p : Program) (line : String) :
    SameCarriers p (p.closeBrace line).1 := by
  simp only [closeBrace]
  split <;> exact ⟨rfl, rfl⟩

theorem sameCarriers_globalLine (t : Substitution) (p : Program) (line : String) :
    SameCarriers p (p.globalLine t line).1 := by
  have hdeclaration : ∀ {p : Program} {out : Program × List String},
      p.declaration? t line = some out → SameCarriers p out.1 := by
    intro p out h
    simp only [declaration?, Option.bind_eq_bind, Option.bind_eq_some_iff] at h
    obtain ⟨⟨type, name⟩, -, declaration, -, h⟩ := h
    split at h
    · split at h <;> cases h <;> exact ⟨rfl, rfl⟩
    · split at h <;> cases h <;> exact ⟨rfl, rfl⟩
  have hrest : ∀ q : Program, SameCarriers p q → SameCarriers p (if q.isAtDeclarations then
      if t.declaresTexture line then (q, []) else (q.declaration? t line).getD (q, [line])
      else (q, [line])).1 := by
    intro q hsame
    split
    · split
      · exact hsame
      · cases hfound : q.declaration? t line with
        | none => exact hsame
        | some out => exact hsame.trans (hdeclaration hfound)
    · exact hsame
  simp only [globalLine]
  split
  · exact hrest _ ⟨rfl, rfl⟩
  · exact hrest p ⟨rfl, rfl⟩

theorem sameCarriers_statement (t : Substitution) (p : Program) (line : String) :
    SameCarriers p (p.statement t line).1 := by
  rw [statement.eq_def]
  split
  · exact ⟨rfl, rfl⟩
  · split
    · exact ⟨rfl, rfl⟩
    · split
      · exact ⟨rfl, rfl⟩
      · split
        · exact ⟨rfl, rfl⟩
        · exact sameCarriers_globalLine t p line

/-- An entry point that is written anew comes behind the definitions of the carriers that no entry
point in front of it refers to. -/
theorem exists_renders_enter (h : p.Knows defined) {pending : Pending} {entry : EntryPoint}
    (hadapt : EntryPoint.adapt pending.stage p.plan pending.lines = .ok entry)
    {out : Program × List String} (hread : p.enter t pending "\x7b" = .ok out) :
    ∃ segments, Renders out defined segments
      ((p.fresh entry).map .definition ++ [.entry pending.stage pending.lines entry]) := by
  rw [enter, hadapt] at hread
  cases hread
  have hplanned := EntryPoint.isPlanned_adapt h.typed hadapt
  have hfresh : ∀ carrier, carrier ∈ p.fresh entry ↔
      carrier ∈ entry.carriers ∧ carrier.role ∉ p.carriers := by
    intro carrier
    simp [fresh]
  -- A carrier that is not new is the one that has been defined for its role.
  have hcarriers : ∀ carrier ∈ entry.carriers, carrier ∈ p.fresh entry ∨ carrier ∈ defined := by
    intro carrier hcarrier
    by_cases hrole : carrier.role ∈ p.carriers
    · obtain ⟨other, hother, heq⟩ := (h.roles carrier.role).1 hrole
      have hsame := h.planned other hother
      rw [heq, hplanned.planned carrier hcarrier] at hsame
      cases hsame
      exact .inr hother
    · exact .inl ((hfresh carrier).2 ⟨hcarrier, hrole⟩)
  refine ⟨(p.fresh entry).map .definition
    ++ [.entry pending.stage pending.lines entry (t.assignments p.declared)], ?_, ?_, ?_, ?_⟩
  · have hdefinitions : linesOf ((p.fresh entry).map .definition)
        = (p.fresh entry).flatMap Carrier.definition := by
      rw [linesOf, List.flatMap_map]
      rfl
    rw [linesOf_append, hdefinitions]
    simp [Segment.lines, fresh]
  · refine carries_definitions _ h.typed hadapt ?_ ?_ ?_
      (fun carrier hcarrier => ((hfresh carrier).1 hcarrier).1) hcarriers
    · intro carrier hcarrier
      exact (h.typed _ carrier (hplanned.planned carrier ((hfresh carrier).1 hcarrier).1)).2
    · exact hplanned.nodup.sublist (List.filter_sublist.map _)
    · intro carrier hcarrier other hother heq
      exact ((hfresh carrier).1 hcarrier).2 ((h.roles carrier.role).2 ⟨other, hother, heq⟩)
  · rw [definedAfter_append, definedAfter_definitions]
    change Knows _ ((p.fresh entry).reverse ++ defined)
    refine ⟨?_, ?_, h.typed⟩
    · intro role
      change role ∈ (p.fresh entry).map (·.role) ++ p.carriers ↔ _
      rw [List.mem_append, h.roles role, List.mem_map]
      simp only [List.mem_append, List.mem_reverse, or_and_right, exists_or]
    · intro carrier hcarrier
      rcases List.mem_append.1 hcarrier with hmem | hmem
      · exact hplanned.planned carrier ((hfresh carrier).1 (List.mem_reverse.1 hmem)).1
      · exact h.planned carrier hmem
  · have hmarks : marksOf ((p.fresh entry).map .definition)
        = (p.fresh entry).map .definition := by
      have hsame : Segment.mark? ∘ Segment.definition = some ∘ Mark.definition := rfl
      rw [marksOf, List.filterMap_map, hsame, List.filterMap_eq_map]
    rw [marksOf_append, hmarks]
    rfl

theorem exists_renders_liveLine (h : p.Knows defined) {out : Program × List String}
    (hread : p.liveLine t line = .ok out) :
    ∃ segments, Renders out defined segments (p.opened line) := by
  -- But for the brace behind a signature, whatever is written is code.
  have hcode : p.opened line = [] → SameCarriers p out.1 →
      ∃ segments, Renders out defined segments (p.opened line) := by
    intro hnone hsame
    rw [hnone]
    exact ⟨_, renders_code h hsame out.2⟩
  rw [liveLine.eq_def] at hread
  split at hread
  · rename_i hmarked
    cases hread
    have hbrace : line ≠ "\x7b" := by
      rintro rfl
      exact absurd hmarked (by decide)
    refine hcode ?_ (sameCarriers_write p [line])
    rw [opened.eq_def]
    split
    · rfl
    · exact if_neg fun hopens => hbrace hopens.1
  · split at hread
    · rename_i pending hpending
      have hopened : p.opened line = if line = "\x7b" ∧ ¬0 < pending.depth then
          match EntryPoint.adapt pending.stage p.plan pending.lines with
          | .error _ => []
          | .ok entry =>
            (p.fresh entry).map .definition ++ [.entry pending.stage pending.lines entry]
          else [] := by
        rw [opened, hpending]
      simp only [signatureLine] at hread
      split at hread
      · rename_i hdepth
        cases hread
        refine hcode ?_ ⟨rfl, rfl⟩
        rw [hopened, if_neg fun hopens => hopens.2 hdepth]
      · rename_i hdepth
        split at hread
        · rename_i hbrace
          subst hbrace
          have henter := hread
          rw [enter] at henter
          obtain ⟨entry, hadapt, -⟩ := exists_ok_of_bind henter
          rw [hopened, if_pos ⟨rfl, hdepth⟩, hadapt]
          exact exists_renders_enter h hadapt hread
        · rename_i hbrace
          have hnone : p.opened line = [] := by
            rw [hopened, if_neg fun hopens => hbrace hopens.1]
          split at hread
          · cases hread
            exact hcode hnone ⟨rfl, rfl⟩
          · cases hread
            exact hcode hnone ⟨rfl, rfl⟩
    · rename_i hpending
      have hnone : p.opened line = [] := by rw [opened, hpending]
      cases hread
      apply hcode hnone
      split
      · exact sameCarriers_openBrace p line
      · split
        · exact sameCarriers_closeBrace p line
        · exact sameCarriers_statement t p line

/-- **A line of a program block.**  What is written for it are segments that do what carriers ask of
them, and stand for what the block comes upon in it. -/
theorem exists_renders_line (h : p.Knows defined) {out : Program × List String}
    (hread : p.line t line = .ok out) :
    ∃ segments, Renders out defined segments (p.entered line) := by
  have hsame := p.sameCarriers_feed line
  rw [entered.eq_def]
  rw [Program.line.eq_def] at hread
  generalize p.feed line = fed at hread hsame ⊢
  obtain ⟨q, written, feed⟩ := fed
  cases feed with
  | consumed =>
    cases hread
    exact ⟨_, renders_code h hsame written⟩
  | live =>
    obtain ⟨⟨p', more⟩, hlive, hout⟩ := exists_ok_of_map hread
    cases hout
    obtain ⟨segments, hrenders⟩ := exists_renders_liveLine (h.congr hsame) hlive
    refine ⟨.code written :: segments, ?_, ⟨trivial, hrenders.carries⟩, hrenders.knows,
      hrenders.marks⟩
    rw [linesOf_cons, hrenders.lines]
    rfl

end Program

end ShaderMerge.Variant
