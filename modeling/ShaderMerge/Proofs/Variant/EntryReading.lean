import ShaderMerge.Proofs.Variant.Sieve

/-!
# What a stage reads of a signature

A stage reads little of the signature of its entry point: whether there are parameters, and which of
them it replaces or sets to zero (`EntryPoint.SameReading`).  All of it stands in front of the
parenthesis that closes the parameters (`EntryPoint.readsAlike_of_front`).  If it is the same with
and without the lines that a sieve leaves out, and the places that are edited are on lines that are
kept, then the entry point is the same up to those lines (`EntryPoint.adapt_thin`).
-/

namespace ShaderMerge.Variant

open SignatureEdit

/-- An entry point with other lines of its signature. -/
def EntryPoint.mapSignature (f : List String → List String) (e : EntryPoint) : EntryPoint :=
  { e with signature := f e.signature }

namespace EntryPoint

/-! ## What is read -/

/-- The signature that is read from some lines. -/
def read? (lines : List String) : Option Signature :=
  Signature.ofText? (codeOf lines).toList lines

/-- What a vertex stage wraps its output in. -/
def wrapper? (p : Plan) : Option Carrier := if p.carries then p.vertexCarrier else none

/-- What a vertex stage returns. -/
def returned (p : Plan) (s : Signature) : String := ((wrapper? p).map (·.name)).getD s.returnType

/-- The input array of a geometry stage, as the stage refers to it. -/
def inputArrayText? (s : Signature) (type : String) : Option (String × String × String) :=
  (inputArray? s type).map fun (input, size) => (input.type, input.name, size)

/-- The input of a fragment stage that a carrier brings, as the stage refers to it. -/
def carriedText? (s : Signature) (c : Carrier) : Option (String × String) :=
  (s.parameters.find? (isCarried c)).map fun input => (input.type, input.name)

/-- Whether a stage reads the same of two signatures. -/
def SameReading (stage : Stage) (p : Plan) (s t : Signature) : Prop :=
  match stage with
  | .vertex => s.parameters.isEmpty = t.parameters.isEmpty ∧
    (p.toggled.isSome = true → earlyReturn s (returned p s) = earlyReturn t (returned p t))
  | .hull => True
  | .domain => True
  | .geometry => ∀ c ∈ p.vertexCarrier, p.geometryCarrier.isSome = true →
    inputArrayText? s c.payload = inputArrayText? t c.payload ∧ s.stream? = t.stream?
  | .fragment => s.parameters.isEmpty = t.parameters.isEmpty ∧
    ∀ c ∈ p.fragmentCarrier, carriedText? s c = carriedText? t c

instance (stage : Stage) (p : Plan) (s t : Signature) : Decidable (SameReading stage p s t) :=
  match stage with
  | .vertex => inferInstanceAs (Decidable (_ ∧ (_ → _)))
  | .hull => inferInstanceAs (Decidable True)
  | .domain => inferInstanceAs (Decidable True)
  | .geometry => inferInstanceAs (Decidable (∀ c ∈ p.vertexCarrier, _ → _ ∧ _))
  | .fragment => inferInstanceAs (Decidable (_ ∧ ∀ c ∈ p.fragmentCarrier, _))

/-- Whether a stage reads the same from two texts: both are signatures, of which it reads the same,
or neither is one. -/
def ReadsAlike (stage : Stage) (p : Plan) (lines others : List String) : Prop :=
  (read? lines).isSome = (read? others).isSome ∧
    ∀ s ∈ read? lines, ∀ t ∈ read? others, SameReading stage p s t

instance (stage : Stage) (p : Plan) (lines others : List String) :
    Decidable (ReadsAlike stage p lines others) :=
  inferInstanceAs (Decidable (_ ∧ ∀ s ∈ read? lines, ∀ t ∈ read? others, _))

/-- A stage reads the return type and the parameters. -/
theorem sameReading_of_parameters (stage : Stage) (p : Plan) {s t : Signature}
    (hreturn : s.returnType = t.returnType) (hparameters : s.parameters = t.parameters) :
    SameReading stage p s t := by
  cases stage with
  | vertex =>
    refine ⟨by rw [hparameters], fun _ => ?_⟩
    rw [returned, returned, earlyReturn, earlyReturn, hreturn, hparameters]
  | hull => trivial
  | domain => trivial
  | geometry =>
    simp only [SameReading, inputArrayText?, inputArray?, Signature.stream?, hparameters, and_self,
      implies_true]
  | fragment => simp only [SameReading, carriedText?, hparameters, and_self, implies_true]

/-- Whether the parameters of a signature end on some lines. -/
def IsClosed (lines : List String) : Prop :=
  ((Signature.Header.ofText? (codeOf lines).toList).bind (Signature.closing? 0 ·.rest)).isSome = true

instance (lines : List String) : Decidable (IsClosed lines) := inferInstanceAs (Decidable (_ = true))

theorem prefix_intercalate (separator : List Char) (above below : List (List Char)) :
    List.intercalate separator above <+: List.intercalate separator (above ++ below) := by
  induction above with
  | nil => exact List.nil_prefix
  | cons line above ih =>
    cases above with
    | cons next above =>
      rw [List.cons_append, List.cons_append, List.intercalate_cons_cons,
        List.intercalate_cons_cons, List.prefix_append_right_inj]
      exact ih
    | nil =>
      cases below with
      | nil => exact List.prefix_refl _
      | cons next below =>
        rw [List.cons_append, List.nil_append, List.intercalate_cons_cons, List.intercalate_singleton,
          List.append_assoc]
        exact List.prefix_append _ _

/-- More lines put their text behind that of the first ones. -/
theorem prefix_codeOf (front rest : List String) :
    (codeOf front).toList <+: (codeOf (front ++ rest)).toList := by
  rw [codeOf, codeOf, String.toList_intercalate, String.toList_intercalate, List.filter_append,
    List.map_append]
  exact prefix_intercalate _ _ _

/-- **What a stage reads stands in front of the end of the parameters.** -/
theorem readsAlike_of_front {front : List String} (h : IsClosed front) (stage : Stage) (p : Plan)
    (rest others : List String) : ReadsAlike stage p (front ++ rest) (front ++ others) := by
  obtain ⟨⟨inner, after⟩, hfound⟩ := Option.isSome_iff_exists.1 h
  obtain ⟨header, hheader, hclosing⟩ := Option.bind_eq_some_iff.1 hfound
  have hread : ∀ rest, ∃ more, read? (front ++ rest) = (Signature.parameters? inner).map
      fun parameters => ⟨String.ofList header.name, String.ofList header.returnType,
        Signature.returnSemantic? (after ++ more), parameters, front ++ rest⟩ := by
    intro rest
    obtain ⟨more, hmore⟩ := prefix_codeOf front rest
    refine ⟨more, ?_⟩
    rw [read?, ← hmore, Signature.ofText?_append hheader hclosing]
  obtain ⟨more, hmore⟩ := hread rest
  obtain ⟨more', hmore'⟩ := hread others
  rw [ReadsAlike, hmore, hmore']
  cases Signature.parameters? inner with
  | none => exact ⟨rfl, nofun⟩
  | some parameters =>
    refine ⟨rfl, ?_⟩
    rintro s ⟨⟩ t ⟨⟩
    exact sameReading_of_parameters stage p rfl rfl

/-! ## What is written -/

section

variable {σ : Type} {S : Sieve σ} {state : σ} {stage : Stage} {p : Plan} {s t : Signature}
  {lines : List String}

/-- The lines of a vertex stage, but for the parameter that takes the packed number. -/
def vertexLines (p : Plan) (lines : List String) : List String :=
  match wrapper? p with
  | some carrier => replaceReturnType carrier.name (removeReturnSemantic lines)
  | none =>
    if p.carries && (wrapper? p).isNone then appendParameter packedOutput true lines else lines

theorem vertex_eq (p : Plan) (s : Signature) (lines : List String) : vertex p s lines =
    match prependParameter? (packedParameter p.channel) (!s.parameters.isEmpty)
      (vertexLines p lines) with
    | none => .error (.badSignature s.name)
    | some signature => .ok {
        carriers := (wrapper? p).toList
        signature
        prologue := ["optimizerPackedID = (uint)optimizerPackedUV.x;"]
          ++ (if p.carries && (wrapper? p).isNone then
            ["optimizerPackedIDOut = optimizerPackedID;"] else [])
          ++ decodeLines ++ (p.toggled.map (toggleLines s (returned p s))).getD []
        body := if (wrapper? p).isSome then .wrapReturn else .keep } := rfl

/-- Whether the edits of a stage find their places on the same lines, of those that are kept and of
all. -/
def SamePlaces (S : Sieve σ) (state : σ) (stage : Stage) (p : Plan) (s : Signature)
    (lines : List String) : Prop :=
  match stage with
  | .vertex => (p.carries = true → S.SameCut state lines) ∧
    ((wrapper? p).isSome = true → S.SameSemantic state lines)
  | .hull => True
  | .domain => True
  | .geometry => ∀ vertex ∈ p.vertexCarrier, ∀ geometry ∈ p.geometryCarrier,
    ∀ input ∈ inputArray? s vertex.payload,
      S.Finds (replaceDeclared? input.1.type input.1.name
        (vertex.name ++ " optimizerGeometryInput") none) state lines = true ∧
      ∀ stream ∈ s.stream?, ∀ edited ∈ replaceParameter? input.1.type input.1.name
          (vertex.name ++ " optimizerGeometryInput") lines,
        S.Finds (replaceVertexIn? stream.2 geometry.name) state edited = true
  | .fragment => (∀ carrier ∈ p.fragmentCarrier, ∀ input ∈ s.parameters.find? (isCarried carrier),
      S.Finds (replaceDeclared? input.type input.name (carrier.name ++ " optimizerInput") none)
        state lines = true) ∧
    (unwrapInput? p s lines = none → S.SameCut state lines)

instance (S : Sieve σ) (state : σ) (stage : Stage) (p : Plan) (s : Signature) (lines : List String) :
    Decidable (SamePlaces S state stage p s lines) :=
  match stage with
  | .vertex => inferInstanceAs (Decidable ((_ → _) ∧ (_ → _)))
  | .hull => inferInstanceAs (Decidable True)
  | .domain => inferInstanceAs (Decidable True)
  | .geometry => inferInstanceAs (Decidable (∀ vertex ∈ p.vertexCarrier,
    ∀ geometry ∈ p.geometryCarrier, ∀ input ∈ inputArray? s vertex.payload,
      _ ∧ ∀ stream ∈ s.stream?, ∀ edited ∈ replaceParameter? _ _ _ _, _))
  | .fragment => inferInstanceAs (Decidable ((∀ carrier ∈ p.fragmentCarrier,
    ∀ input ∈ s.parameters.find? (isCarried carrier), _) ∧ (_ → _)))

theorem vertexLines_thin (hlive : S.isLive state = true) (hstarts : S.Starts lines)
    (hplaces : SamePlaces S state .vertex p s lines) :
    vertexLines p (S.thin state lines) = S.thin state (vertexLines p lines) ∧
      S.Starts (vertexLines p lines) := by
  obtain ⟨hcut, hsemantic⟩ := hplaces
  rw [vertexLines, vertexLines]
  cases hwrapper : wrapper? p with
  | some carrier =>
    have hcarries : p.carries = true := by
      by_contra hcarries
      rw [wrapper?, if_neg hcarries] at hwrapper
      cases hwrapper
    obtain ⟨hplain, hne⟩ := startsPlain_carrier carrier
    have hrest := starts_removeReturnSemantic hstarts
    dsimp only
    rw [removeReturnSemantic_thin (hcut hcarries) (hsemantic (by rw [hwrapper]; rfl)),
      replaceReturnType_thin hlive hrest hplain hne]
    exact ⟨rfl, starts_replaceReturnType hrest hplain hne⟩
  | none =>
    dsimp only
    split
    · rename_i hbesides
      rw [appendParameter_thin (hcut (Bool.and_eq_true_iff.1 hbesides).1) (by decide)]
      exact ⟨rfl, starts_appendParameter hstarts (by decide) true⟩
    · exact ⟨rfl, hstarts⟩

theorem vertex_thin (hlive : S.isLive state = true) (hstarts : S.Starts lines)
    (hreading : SameReading .vertex p t s) (hplaces : SamePlaces S state .vertex p s lines) :
    (vertex p t (S.thin state lines)).toOption
      = (vertex p s lines).toOption.map (mapSignature (S.thin state)) := by
  obtain ⟨hempty, hreturn⟩ := hreading
  obtain ⟨hlines, hstarts⟩ := vertexLines_thin hlive hstarts hplaces
  rw [vertex_eq, vertex_eq, hlines, hempty, prependParameter?_thin hlive hstarts]
  have htoggle : p.toggled.map (toggleLines t (returned p t))
      = p.toggled.map (toggleLines s (returned p s)) := by
    cases htoggled : p.toggled with
    | none => rfl
    | some meshes =>
      have hreturn := hreturn (by rw [htoggled]; rfl)
      rw [Option.map_some, Option.map_some, toggleLines, toggleLines, hreturn]
  rw [htoggle]
  cases prependParameter? (packedParameter p.channel) (!s.parameters.isEmpty)
    (vertexLines p lines) <;> rfl

/-- What takes the place of a parameter is code. -/
theorem replaceCarried_thin {carrier : Carrier} {argument type name : String}
    (h : S.Finds (replaceDeclared? type name (carrier.name ++ argument) none) state lines = true) :
    replaceParameter? type name (carrier.name ++ argument) (S.thin state lines)
      = (replaceParameter? type name (carrier.name ++ argument) lines).map (S.thin state) := by
  obtain ⟨hplain, hne⟩ := startsPlain_carrier carrier
  have hname : 'O' ∈ carrier.name.toList := by
    rw [Carrier.name]
    cases carrier.role <;> decide
  refine replaceParameter?_thin ?_ ⟨'O', ?_, by decide⟩ h
  · rw [String.toList_append]
    exact hplain.append fun hnil => absurd hnil hne
  · rw [String.toList_append]
    exact List.mem_append_left _ hname

theorem toOption_found {α : Type} (fault : SignatureFault) (o : Option α) :
    (found fault o).toOption = o := by
  cases o <;> rfl

theorem toOption_bind {ε α β : Type} (x : Except ε α) (f : α → Except ε β) :
    (x >>= f).toOption = x.toOption.bind fun a => (f a).toOption := by
  cases x <;> rfl

theorem toOption_mapError {ε ε' α : Type} (f : ε → ε') (x : Except ε α) :
    (x.mapError f).toOption = x.toOption := by
  cases x <;> rfl

/-- The geometry stage finds its array, its stream and their places, or fails. -/
theorem toOption_geometry (p : Plan) (s : Signature) (lines : List String) :
    (geometry p s lines).toOption =
      p.vertexCarrier.bind fun vertex => p.geometryCarrier.bind fun geometry =>
        (inputArray? s vertex.payload).bind fun input => s.stream?.bind fun stream =>
          (replaceParameter? input.1.type input.1.name (vertex.name ++ " optimizerGeometryInput")
            lines).bind fun edited =>
          (replaceStreamVertex? stream.2 geometry.name edited).bind fun signature =>
            some ⟨[vertex, geometry], signature, unwrapArray input.1 input.2 ++ decodeLines,
              .wrapAppend stream.1⟩ := by
  rw [geometry, geometryOrFault.eq_def, toOption_mapError]
  cases p.vertexCarrier with
  | none => rfl
  | some vertex =>
    cases p.geometryCarrier with
    | none => rfl
    | some geometry =>
      dsimp only
      simp only [toOption_bind, toOption_found]
      rfl

theorem geometry_thin
    (hreading : SameReading .geometry p t s) (hplaces : SamePlaces S state .geometry p s lines) :
    (geometry p t (S.thin state lines)).toOption
      = (geometry p s lines).toOption.map (mapSignature (S.thin state)) := by
  rw [toOption_geometry, toOption_geometry]
  cases hvertex : p.vertexCarrier with
  | none => rfl
  | some vertex =>
    cases hgeometry : p.geometryCarrier with
    | none => rfl
    | some geometry =>
      obtain ⟨hinput, hstream⟩ := hreading vertex hvertex (by rw [hgeometry]; rfl)
      have hplaces := hplaces vertex hvertex geometry hgeometry
      rw [inputArrayText?, inputArrayText?] at hinput
      simp only [Option.bind_some]
      cases hs : inputArray? s vertex.payload with
      | none =>
        rw [hs, Option.map_none, Option.map_eq_none_iff] at hinput
        rw [hinput]
        rfl
      | some input =>
        rw [hs, Option.map_some, Option.map_eq_some_iff] at hinput
        obtain ⟨other, hother, hsame⟩ := hinput
        obtain ⟨htype, hname, hsize⟩ : other.1.type = input.1.type ∧ other.1.name = input.1.name ∧
            other.2 = input.2 := by
          simpa using hsame
        have hunwrap : unwrapArray other.1 other.2 = unwrapArray input.1 input.2 := by
          rw [unwrapArray, unwrapArray, htype, hname, hsize]
        obtain ⟨hfinds, hvertices⟩ := hplaces input hs
        rw [hother, Option.bind_some, Option.bind_some, hstream, htype, hname, hunwrap]
        cases hfound : s.stream? with
        | none => rfl
        | some stream =>
          rw [Option.bind_some, Option.bind_some, replaceCarried_thin hfinds]
          cases hedited : replaceParameter? input.1.type input.1.name
              (vertex.name ++ " optimizerGeometryInput") lines with
          | none => rfl
          | some edited =>
            rw [Option.map_some, Option.bind_some, Option.bind_some,
              replaceStreamVertex?_thin (hvertices stream hfound edited hedited)]
            cases replaceStreamVertex? stream.2 geometry.name edited <;> rfl

/-- The input is unwrapped in the same place, or in neither case. -/
theorem unwrapInput?_thin
    (hreading : SameReading .fragment p t s) (hplaces : SamePlaces S state .fragment p s lines) :
    (unwrapInput? p t (S.thin state lines) = none ∧ unwrapInput? p s lines = none) ∨
      ∃ carrier other input edited,
        unwrapInput? p t (S.thin state lines) = some (carrier, other, S.thin state edited) ∧
        unwrapInput? p s lines = some (carrier, input, edited) ∧
        other.type = input.type ∧ other.name = input.name := by
  simp only [unwrapInput?, Option.bind_eq_bind]
  cases hcarrier : p.fragmentCarrier with
  | none => exact .inl ⟨rfl, rfl⟩
  | some carrier =>
    have hinput := hreading.2 carrier hcarrier
    have hfinds := hplaces.1 carrier hcarrier
    rw [carriedText?, carriedText?] at hinput
    simp only [Option.bind_some]
    cases hs : s.parameters.find? (isCarried carrier) with
    | none =>
      rw [hs, Option.map_none, Option.map_eq_none_iff] at hinput
      rw [hinput]
      exact .inl ⟨rfl, rfl⟩
    | some input =>
      rw [hs, Option.map_some, Option.map_eq_some_iff] at hinput
      obtain ⟨other, hother, hsame⟩ := hinput
      obtain ⟨htype, hname⟩ := Prod.mk.inj hsame
      rw [hother, Option.bind_some, Option.bind_some, htype, hname,
        replaceCarried_thin (hfinds input hs)]
      cases replaceParameter? input.type input.name (carrier.name ++ " optimizerInput") lines with
      | none => exact .inl ⟨rfl, rfl⟩
      | some edited => exact .inr ⟨carrier, other, input, edited, rfl, rfl, htype, hname⟩

theorem fragment_thin
    (hreading : SameReading .fragment p t s) (hplaces : SamePlaces S state .fragment p s lines) :
    fragment p t (S.thin state lines) = (fragment p s lines).mapSignature (S.thin state) := by
  rw [fragment, fragment]
  rcases unwrapInput?_thin hreading hplaces with
    ⟨ht, hs⟩ | ⟨carrier, other, input, edited, ht, hs, htype, hname⟩
  · rw [ht, hs]
    dsimp only
    rw [hreading.1, appendParameter_thin (hplaces.2 hs) (by decide)]
    rfl
  · rw [ht, hs]
    dsimp only
    rw [htype, hname]
    rfl

/-- The entry point of a signature that has been read. -/
def ofSignature (stage : Stage) (p : Plan) (s : Signature) (lines : List String) :
    Except VariantError EntryPoint :=
  match stage with
  | .vertex => vertex p s lines
  | .hull => .ok ⟨[], lines, [], .keep⟩
  | .domain => .ok ⟨[], lines, [], .keep⟩
  | .geometry => geometry p s lines
  | .fragment => .ok (fragment p s lines)

theorem toOption_adapt (stage : Stage) (p : Plan) (lines : List String) :
    (adapt stage p lines).toOption
      = (read? lines).bind fun s => (ofSignature stage p s (clearVoid lines)).toOption := by
  rw [adapt, read?]
  dsimp only
  split
  · rename_i hnone
    rw [hnone]
    rfl
  · rename_i s hs
    rw [hs]
    cases stage <;> rfl

theorem ofSignature_thin (hlive : S.isLive state = true) (hstarts : S.Starts lines)
    (hreading : SameReading stage p t s) (hplaces : SamePlaces S state stage p s lines) :
    (ofSignature stage p t (S.thin state lines)).toOption
      = (ofSignature stage p s lines).toOption.map (mapSignature (S.thin state)) := by
  cases stage with
  | vertex => exact vertex_thin hlive hstarts hreading hplaces
  | hull => rfl
  | domain => rfl
  | geometry => exact geometry_thin hreading hplaces
  | fragment =>
    rw [ofSignature, ofSignature, fragment_thin hreading hplaces]
    rfl

/-- **What is made of the lines that are kept is what is kept of what is made of all.** -/
theorem adapt_thin (hlive : S.isLive state = true) (hstarts : S.Starts lines)
    (hreads : ReadsAlike stage p (S.thin state lines) lines)
    (hplaces : ∀ s ∈ read? lines, SamePlaces S state stage p s (clearVoid lines)) :
    (adapt stage p (S.thin state lines)).toOption
      = (adapt stage p lines).toOption.map (mapSignature (S.thin state)) := by
  obtain ⟨hsome, hreading⟩ := hreads
  rw [toOption_adapt, toOption_adapt, clearVoid_thin hlive hstarts]
  cases hs : read? lines with
  | none =>
    rw [hs, Option.isSome_none, Option.isSome_eq_false_iff, Option.isNone_iff_eq_none] at hsome
    rw [hsome]
    rfl
  | some s =>
    rw [hs, Option.isSome_some, Option.isSome_iff_exists] at hsome
    obtain ⟨t, ht⟩ := hsome
    rw [ht, Option.bind_some, Option.bind_some]
    exact ofSignature_thin hlive (starts_clearVoid hstarts) (hreading t ht s hs) (hplaces s hs)

end

/-- A plan in which the vertex stage hands the packed number on inside its output. -/
def handingOn : Plan := ⟨true, true, 7, none, some ⟨.vertex, "v2f", none⟩, none, false⟩

end EntryPoint

end ShaderMerge.Variant
