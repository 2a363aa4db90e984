import ShaderMerge.Proofs.Signature.Layouts
import ShaderMerge.Proofs.Variant.SignaturePlaces
import ShaderMerge.Proofs.Variant.VertexHeader

/-!
# The parameters of an entry point that is written anew

The new lines of an entry point are the signature of a function again: of the same name, with the
parameters that bring the packed number and hand it on, and with all others as they were
(`EntryPoint.read_of_adapt`).  The lines must leave the edits where they belong
(`EntryPoint.IsTidy`): an empty list of parameters that is spelled out is on the first line, the
semantic of the returned value ends where it is looked for, and a parameter that is replaced is
the first to look as it does.
-/

namespace ShaderMerge.Variant

open SignatureEdit
open Signature (Header Closes IsReadFrom closing? splitTop bracketBalance commaBeside openBehind?)
open Parameter (IsLead)
open Text (IsBlanks IsName)

theorem Carrier.isModifier_name (c : Carrier) : Parameter.isModifier c.name.toList = false := by
  rw [Carrier.name]
  cases c.role <;> decide

namespace SignatureEdit

variable {lines edited : List String} {header : Header} {inner after : List Char}

/-! ## The list of the parameters -/

/-- The text of the parameters on some lines. -/
def list? (lines : List String) : Option (List Char) :=
  (Header.ofText? (joined lines)).bind fun header => (closing? 0 header.rest).map Prod.fst

/-- The text of the parameters up to a place, told by the text in front of it, that lies among
them. -/
def inList? (lines : List String) (front : List Char) : Option (List Char) :=
  (Header.ofText? (joined lines)).bind fun header => (list? lines).bind fun inner =>
    if header.front.isPrefixOf front && (front.drop header.front.length).isPrefixOf inner
    then some (front.drop header.front.length) else none

theorem ofText?_joined (hread : header.IsRead) (h : joined lines = header.textWith inner after) :
    Header.ofText? (joined lines) = some { header with rest := inner ++ ')' :: after } := by
  rw [h, Header.textWith, hread.ofText?_front]

theorem list?_eq (hread : header.IsRead) (hcloses : Closes 0 inner)
    (h : joined lines = header.textWith inner after) : list? lines = some inner := by
  rw [list?, ofText?_joined hread h, Option.bind_some, Signature.closing?_of_closes hcloses]
  rfl

theorem of_inList? {front place : List Char} (hread : header.IsRead) (hcloses : Closes 0 inner)
    (h : joined lines = header.textWith inner after) (hplace : inList? lines front = some place) :
    front = header.front ++ place ∧ place <+: inner := by
  rw [inList?, ofText?_joined hread h, Option.bind_some, list?_eq hread hcloses h,
    Option.bind_some] at hplace
  split at hplace
  · rename_i hprefix
    obtain ⟨hfront, hinner⟩ := Bool.and_eq_true_iff.1 hprefix
    cases hplace
    obtain ⟨more, hmore⟩ := List.isPrefixOf_iff_prefix.1 hfront
    refine ⟨?_, List.isPrefixOf_iff_prefix.1 hinner⟩
    have hsame : ({ header with rest := inner ++ ')' :: after } : Header).front = header.front := rfl
    rw [hsame] at hmore ⊢
    rw [← hmore, List.drop_left]
  · cases hplace

/-- A piece of a text that starts among the parameters, and that closes what it opens, is one of
their text. -/
theorem exists_of_place {place piece behind : List Char} (hcloses : Closes 0 inner)
    (hplace : place <+: inner) (hpiece : Closes 0 piece)
    (h : header.textWith inner after = header.front ++ place ++ (piece ++ behind)) :
    ∃ tail, inner = place ++ (piece ++ tail) ∧ behind = tail ++ ')' :: after := by
  obtain ⟨back, rfl⟩ := hplace
  rw [Header.textWith, List.append_assoc, List.append_assoc] at h
  obtain ⟨depth, hback⟩ := Signature.exists_closes_of_append hcloses
  have heq := List.append_cancel_left (List.append_cancel_left h)
  obtain ⟨tail, rfl, rfl⟩ := Signature.exists_of_append_eq hback hpiece heq
  exact ⟨tail, rfl, rfl⟩

/-! ## Tidy signatures -/

/-- Whether an empty list of parameters that is cleared from the first line is the one of the
signature. -/
def ClearsOwnList : List String → Prop
  | [] => True
  | first :: _ => clearVoidIn first.toList = first.toList ∨
    ∃ header ∈ Header.ofText? first.toList, ∃ after ∈ afterVoidList? ('(' :: header.rest),
      clearVoidIn first.toList = header.front ++ ')' :: after

instance : DecidablePred ClearsOwnList
  | [] => inferInstanceAs (Decidable True)
  | _ :: _ => inferInstanceAs (Decidable (_ ∨ ∃ header ∈ _, ∃ after ∈ _, _))

/-- Whether no empty list of parameters is spelled out. -/
def HasNoVoid (lines : List String) : Prop :=
  ∀ inner ∈ list? lines, Text.trimmed inner ≠ "void".toList

instance (lines : List String) : Decidable (HasNoVoid lines) :=
  inferInstanceAs (Decidable (∀ inner ∈ list? lines, _))

/-- Whether the parameters close all brackets that they open, angle brackets included. -/
def IsBalanced (lines : List String) : Prop := ∀ inner ∈ list? lines, bracketBalance inner = 0

instance (lines : List String) : Decidable (IsBalanced lines) :=
  inferInstanceAs (Decidable (∀ inner ∈ list? lines, _))

/-- Whether the semantic of the returned value is on the line of the parenthesis or on the next
one. -/
def LosesSemantic (lines : List String) : Prop :=
  ∀ cut ∈ Cut.ofSignature? lines, startsWithColon (withoutSemantic cut) = false

instance (lines : List String) : Decidable (LosesSemantic lines) :=
  inferInstanceAs (Decidable (∀ cut ∈ Cut.ofSignature? lines, _))

/-- Whether a parameter of a signature is the first of its type and name on the lines, with
nothing but modifiers in front of it. -/
def IsFirstDeclared (s : Signature) (q : Parameter) (lines : List String) : Prop :=
  Parameter.IsWhole (q.type.toList ++ ' ' :: q.name.toList) ∧
    ∃ front ∈ parameterFront? q.type q.name lines, ∃ place ∈ inList? lines front,
      s.parameters[(splitTop ',' place).length - 1]? = some q ∧
      ∀ lead ∈ (splitTop ',' place).getLast?, IsLead lead

instance (s : Signature) (q : Parameter) (lines : List String) :
    Decidable (IsFirstDeclared s q lines) :=
  inferInstanceAs (Decidable (_ ∧ ∃ front ∈ _, ∃ place ∈ _, _ ∧
    ∀ lead ∈ (splitTop ',' place).getLast?, _))

/-- Whether the first stream of a vertex type is among the parameters. -/
def HasStream (vertex : String) (lines : List String) : Prop :=
  ∃ front ∈ streamFront? vertex lines, (inList? lines front).isSome = true

instance (vertex : String) (lines : List String) : Decidable (HasStream vertex lines) :=
  inferInstanceAs (Decidable (∃ front ∈ _, _))

/-- Behind a parenthesis without a colon no semantic is read. -/
theorem returnSemantic?_eq_none (h : startsWithColon after = false) :
    Signature.returnSemantic? after = none := by
  have hprefix : Text.trimmed (Text.dropEndWhile (· == ';') (Text.trimmed after))
      <+: Text.skipBlanks after :=
    Text.prefix_trimmed ((Text.prefix_dropEndWhile _ _).trans (Text.prefix_dropEndWhile _ _))
  have hnone : Text.afterChar? ':' (Text.trimmed (Text.dropEndWhile (· == ';') (Text.trimmed after)))
      = none := by
    by_contra hsome
    obtain ⟨rest, hrest⟩ := Option.ne_none_iff_exists'.1 hsome
    rw [Text.eq_of_afterChar? hrest] at hprefix
    obtain ⟨more, hmore⟩ := hprefix
    rw [startsWithColon, ← hmore] at h
    cases h
  rw [Signature.returnSemantic?, hnone]
  rfl

end SignatureEdit

namespace EntryPoint

variable {p : Plan} {s : Signature} {lines : List String} {e : EntryPoint} {header : Header}
  {inner after : List Char}

/-! ## Clearing an empty list -/

theorem codeOf_of_plain (hplain : ∀ line ∈ lines, Directive.isMarked line = false) :
    (codeOf lines).toList = joined lines := by
  have hkeep : lines.filter (!Directive.isMarked ·) = lines :=
    List.filter_eq_self.2 fun line hline => by rw [hplain line hline]; rfl
  rw [codeOf, String.toList_intercalate, hkeep]
  rfl

/-- An empty list that is spelled out and one that is not are read alike. -/
theorem parameters?_void {gap gap' : List Char} (hgap : IsBlanks gap) (hgap' : IsBlanks gap') :
    Signature.parameters? (gap ++ ("void".toList ++ gap')) = some [] := by
  refine Signature.parameters?_eq_some_iff.2 (.inr ⟨rfl, .inr ?_⟩)
  rw [Text.trimmed_gap_append hgap, Text.trimmed_append_blanks hgap']
  exact Text.trimmed_of_isDense (IsName.isDense (by decide))

theorem exists_isReadFrom_clearVoid (hplain : ∀ line ∈ lines, Directive.isMarked line = false)
    (hlist : ClearsOwnList lines) (hread : read? lines = some s) : ∃ header inner after,
      joined (clearVoid lines) = header.textWith inner after ∧ s.IsReadFrom header inner after := by
  rw [read?, codeOf_of_plain hplain] at hread
  obtain ⟨header, inner, after, htext, hfrom⟩ := Signature.exists_isReadFrom hread
  cases lines with
  | nil => exact ⟨header, inner, after, htext, hfrom⟩
  | cons first rest =>
    rw [joined_cons] at htext
    rw [clearVoid, joined_cons, String.toList_ofList]
    rcases hlist with hsame | ⟨own, hown, behind, hbehind, hclear⟩
    · exact ⟨header, inner, after, by rw [hsame, htext], hfrom⟩
    · obtain ⟨gap, gap', hgap, hgap', hlist⟩ := afterVoidList?_eq_some_iff.1 hbehind
      have hlonger := Signature.Header.ofText?_append hown (textBelow rest)
      rw [htext, Header.textWith, hfrom.isRead.ofText?_front] at hlonger
      have hheader := Option.some.inj hlonger
      have hparts := congrArg Header.front hheader
      have hfront : header.front = own.front := hparts
      have hrest : inner ++ ')' :: after
          = (gap ++ ("void".toList ++ gap')) ++ ')' :: (behind ++ textBelow rest) := by
        have heq : inner ++ ')' :: after = own.rest ++ textBelow rest := congrArg Header.rest hheader
        rw [heq, (List.cons.inj hlist).2]
        simp
      have hcloses : Closes 0 (gap ++ ("void".toList ++ gap')) := by
        rw [(Signature.closes_blanks hgap).append_iff, (Signature.closes_name (by decide)).append_iff]
        exact Signature.closes_blanks hgap'
      have hclosing := Signature.closing?_of_closes hfrom.closes after
      rw [hrest, Signature.closing?_of_closes hcloses] at hclosing
      obtain ⟨rfl, rfl⟩ := Prod.mk.inj (Option.some.inj hclosing)
      have hnone : s.parameters = [] :=
        Option.some.inj (hfrom.parameters.symm.trans (parameters?_void hgap hgap'))
      refine ⟨header, [], behind ++ textBelow rest, ?_, hfrom.isRead, Signature.closes_nil.2 rfl, ?_,
        hfrom.name, hfrom.returnType, hfrom.returnSemantic⟩
      · rw [hclear, Header.textWith, hfront]
        simp
      · rw [hnone]
        rfl

/-! ## The parameters that are put in -/

/-- The parameter that takes the packed number, as it is read. -/
def packedUV (channel : Nat) : Parameter :=
  ⟨"float4", "optimizerPackedUV", some ("TEXCOORD" ++ toString channel), none, [], none⟩

/-- The parameter that hands the packed number on beside the output, as it is read. -/
def packedOut : Parameter :=
  ⟨"uint", "optimizerPackedIDOut", some packedSemantic, none, ["out", "nointerpolation"], none⟩

/-- The parameter that takes the packed number where no carrier brings it, as it is read. -/
def packedIn : Parameter :=
  ⟨"uint", "optimizerPackedIDIn", some packedSemantic, none, ["nointerpolation"], none⟩

theorem ofText?_packedParameter (channel : Nat) :
    Parameter.ofText? (packedParameter channel).toList = some (packedUV channel) := by
  have hsemantic : IsName ("TEXCOORD".toList ++ (toString channel).toList) :=
    Text.isName_append (by decide) fun c => Text.isNameChar_of_mem_toString
  have htype : IsName "float4".toList := by decide
  have hname : IsName "optimizerPackedUV".toList := by decide
  have hlead : IsLead [] := ⟨nofun, nofun⟩
  have hread := Parameter.ofText?_declared hlead htype (by decide) hname hsemantic
  have htext : (packedParameter channel).toList = "float4".toList ++ ' ' :: ("optimizerPackedUV".toList
      ++ ' ' :: ':' :: ' ' :: ("TEXCOORD".toList ++ (toString channel).toList)) := by
    have hname : packedParameter channel
        = "float4 optimizerPackedUV : TEXCOORD" ++ toString channel := rfl
    rw [hname, String.toList_append]
    rfl
  rw [htext]
  refine hread.trans (congrArg some ?_)
  rw [packedUV, ← String.toList_append, String.ofList_toList, String.ofList_toList,
    String.ofList_toList]
  rfl

/-- A text of names, blanks and colons neither separates parameters nor has brackets. -/
theorem open_and_closes {param : List Char}
    (h : ∀ c ∈ param, (Text.isNameChar c || Text.isBlank c || c == ':') = true) :
    openBehind? ',' 0 param = some 0 ∧ Closes 0 param := by
  have hother : ∀ c, (Text.isNameChar c || Text.isBlank c || c == ':') = false → c ∉ param := by
    intro c hc hmem
    rw [h c hmem] at hc
    cases hc
  exact ⟨Signature.openBehind?_of_forall h (by decide) (by decide),
    Signature.closes_of_notMem (hother '(' (by decide)) (hother ')' (by decide))⟩

theorem open_and_closes_packedParameter (channel : Nat) :
    openBehind? ',' 0 (packedParameter channel).toList = some 0 ∧
      Closes 0 (packedParameter channel).toList := by
  refine open_and_closes ?_
  have hname : packedParameter channel
      = "float4 optimizerPackedUV : TEXCOORD" ++ toString channel := rfl
  rw [hname, String.toList_append, List.forall_mem_append]
  exact ⟨List.all_eq_true.1 (by decide), fun c hc => by rw [Text.isNameChar_of_mem_toString hc]; rfl⟩

/-! ## The vertex stage -/

/-- What a vertex stage hands on beside its output. -/
def besides (p : Plan) : List Parameter := if p.carries && (wrapper? p).isNone then [packedOut] else []

/-- The text of what a vertex stage hands on beside its output. -/
def besidesText (p : Plan) : List Char :=
  if p.carries && (wrapper? p).isNone then ", ".toList ++ packedOutput.toList else []

theorem eq_of_header? (htext : joined lines = header.textWith inner after)
    (hfrom : s.IsReadFrom header inner after) {own : Header} (hown : header? lines = some own) :
    own = { header with rest := inner ++ ')' :: after } :=
  Option.some.inj ((Signature.Header.ofText?_eq_some_iff.2 (isRead_of_header? hown)).symm.trans
    (ofText?_joined hfrom.isRead htext))

/-- The edits in front of the first parameter: what is returned, and the last parameter. -/
theorem exists_isReadFrom_vertexLines (hplain : ∀ line ∈ lines.tail, Directive.isMarked line = false)
    (htext : joined lines = header.textWith inner after) (hfrom : s.IsReadFrom header inner after)
    (hsemantic : (wrapper? p).isSome = true → LosesSemantic lines) {own : Header}
    (hown : header? lines = some own) : ∃ header' after',
      header? (vertexLines p lines)
        = some { header' with rest := inner ++ besidesText p ++ ')' :: after' } ∧
      { s with
        returnType := returned p s
        returnSemantic := if (wrapper? p).isSome then none else s.returnSemantic }.IsReadFrom
          header' inner after' := by
  cases eq_of_header? htext hfrom hown
  have hclosing : closing? 0 (inner ++ ')' :: after) = some (inner, after) :=
    Signature.closing?_of_closes hfrom.closes after
  rw [vertexLines, besidesText, returned]
  cases hwrapper : wrapper? p with
  | some carrier =>
    obtain ⟨cut, hcut, -⟩ := exists_cut hown hplain hclosing
    have hlost := returnSemantic?_eq_none (hsemantic (by rw [hwrapper]; rfl) cut hcut)
    have hfrom' := (hfrom.withAfter (withoutSemantic cut)).retyped carrier.isName_name
      carrier.name_notMem
    rw [hlost] at hfrom'
    refine ⟨_, _, ?_, hfrom'⟩
    rw [header?_replaceReturnType (header?_removeReturnSemantic hown hplain hclosing hcut)
      carrier.isName_name carrier.name_notMem]
    simp
  | none =>
    refine ⟨header, after, ?_, hfrom⟩
    dsimp only
    split
    · have happended := header?_appendParameter packedOutput true hown hplain hclosing
      exact happended
    · rw [hown, List.append_nil]

theorem bracketBalance_of_list? (hbalanced : IsBalanced lines)
    (htext : joined lines = header.textWith inner after) (hfrom : s.IsReadFrom header inner after) :
    bracketBalance inner = 0 :=
  hbalanced inner (list?_eq hfrom.isRead hfrom.closes htext)

theorem not_void_of_list? (hvoid : HasNoVoid lines)
    (htext : joined lines = header.textWith inner after) (hfrom : s.IsReadFrom header inner after) :
    Text.trimmed inner ≠ "void".toList :=
  hvoid inner (list?_eq hfrom.isRead hfrom.closes htext)

/-- **The signature of a vertex stage that is written anew.** -/
theorem read_of_vertex (hplain : ∀ line ∈ lines.tail, Directive.isMarked line = false)
    (htext : joined lines = header.textWith inner after) (hfrom : s.IsReadFrom header inner after)
    (hvoid : HasNoVoid lines) (hsemantic : (wrapper? p).isSome = true → LosesSemantic lines)
    (hbalanced : p.carries = true → wrapper? p = none → IsBalanced lines)
    (h : vertex p s lines = .ok e) :
    Signature.ofText? (joined e.signature) e.signature = some { s with
      parameters := packedUV p.channel :: s.parameters ++ besides p
      returnType := returned p s
      returnSemantic := if (wrapper? p).isSome then none else s.returnSemantic
      lines := e.signature } := by
  obtain ⟨own, edited, hown, hedited, hnew⟩ := exists_header?_vertexLines_of_ok h
  obtain ⟨header', after', hlines, hfrom'⟩ :=
    exists_isReadFrom_vertexLines hplain htext hfrom hsemantic hown
  cases hlines.symm.trans hedited
  obtain ⟨hopen, hcloses⟩ := open_and_closes_packedParameter p.channel
  have hprepended := hfrom'.prepended hopen hcloses (ofText?_packedParameter p.channel)
    fun _ => not_void_of_list? hvoid htext hfrom
  have hjoined : joined e.signature = header'.textWith ((packedParameter p.channel).toList
      ++ (commaBeside s.parameters ++ inner) ++ besidesText p) after' := by
    rw [← (isRead_of_header? hnew).1, Header.text, Header.textWith]
    dsimp only
    rw [commaBeside]
    simp only [List.append_assoc]
    rfl
  rw [hjoined, besides]
  rw [besidesText]
  split
  · rename_i hbesides
    obtain ⟨hcarries, hwrapper⟩ := Bool.and_eq_true_iff.1 hbesides
    have hbalance : bracketBalance ((packedParameter p.channel).toList
        ++ (commaBeside s.parameters ++ inner)) = 0 := by
      rw [Signature.bracketBalance_append, Signature.bracketBalance_append,
        Signature.bracketBalance_of_openBehind? hopen, Signature.bracketBalance_commaBeside,
        bracketBalance_of_list? (hbalanced hcarries (Option.isNone_iff_eq_none.1 hwrapper)) htext hfrom]
      rfl
    have hopenOut : openBehind? ',' 0 packedOutput.toList = some 0 := by decide
    have hreadOut : Parameter.ofText? packedOutput.toList = some packedOut := by decide +kernel
    have happended := hprepended.appended hbalance hopenOut
      (Signature.closes_of_notMem (by decide) (by decide)) hreadOut
      fun hnil => absurd hnil (List.cons_ne_nil _ _)
    exact happended.ofText?_eq e.signature
  · rw [List.append_nil, List.append_nil]
    exact hprepended.ofText?_eq e.signature

/-! ## The fragment stage -/

/-- **A parameter that is replaced** is read in its place. -/
theorem exists_isReadFrom_replaceParameter? {q : Parameter} {carrier : Carrier} {name : String}
    {edited : List String} (htext : joined lines = header.textWith inner after)
    (hfrom : s.IsReadFrom header inner after) (hfirst : IsFirstDeclared s q lines)
    (hname : IsName name.toList)
    (h : replaceParameter? q.type q.name (carrier.name ++ " " ++ name) lines = some edited) :
    ∃ index inner', s.parameters[index]? = some q ∧ joined edited = header.textWith inner' after ∧
      { s with parameters := (s.parameters.set index { q with type := carrier.name, name }) }.IsReadFrom
        header inner' after := by
  obtain ⟨hwhole, front, hfront, place, hplace, hindex, hlead⟩ := hfirst
  obtain ⟨front', gap, behind, hfront', hne, hgap, hold, hnew⟩ := joined_replaceParameter? h
  cases hfront'.symm.trans hfront
  obtain ⟨rfl, hprefix⟩ := of_inList? hfrom.isRead hfrom.closes htext hplace
  have hpiece : Closes 0 (q.type.toList ++ (gap ++ q.name.toList)) := by
    have hclosed := Signature.closes_declarator_append hwhole hgap 0 []
    rw [List.append_nil] at hclosed
    exact hclosed.2 (Signature.closes_nil.2 rfl)
  have htext' : header.textWith inner after
      = header.front ++ place ++ (q.type.toList ++ (gap ++ q.name.toList) ++ behind) := by
    rw [← htext, hold]
    simp
  obtain ⟨tail, rfl, rfl⟩ := exists_of_place hfrom.closes hprefix hpiece htext'
  obtain ⟨pieces, lead, hpieces⟩ : ∃ pieces lead, splitTop ',' place = pieces ++ [lead] :=
    ⟨_, _, (List.dropLast_append_getLast (Signature.splitTopFrom_ne_nil ',' 0 place)).symm⟩
  rw [hpieces, List.length_append, List.length_singleton, Nat.add_sub_cancel] at hindex
  rw [hpieces, List.getLast?_concat] at hlead
  rw [List.append_assoc, List.append_assoc] at hfrom
  have hfrom' := hfrom.redeclared hpieces (hlead lead rfl) hindex hwhole hne hgap carrier.isName_name
    carrier.isModifier_name hname
  rw [String.ofList_toList, String.ofList_toList] at hfrom'
  refine ⟨_, _, hindex, ?_, hfrom'⟩
  have hreplacement : (carrier.name ++ " " ++ name).toList
      = carrier.name.toList ++ ' ' :: name.toList := by
    rw [String.toList_append, String.toList_append, List.append_assoc]
    rfl
  rw [hnew, hreplacement, Header.textWith]
  simp

/-- What a fragment stage takes: the packed number in the place of the input that brings it, or
behind all parameters. -/
def TakesNumber (p : Plan) (s : Signature) (lines : List String) (parameters : List Parameter) :
    Prop :=
  match unwrapInput? p s lines with
  | some (carrier, input, _) => ∃ index, s.parameters[index]? = some input ∧
    parameters = s.parameters.set index { input with type := carrier.name, name := "optimizerInput" }
  | none => parameters = s.parameters ++ [packedIn]

/-- Whether a fragment stage finds the place for the packed number: the input that brings it, or
the end of the parameters. -/
def HasPlace (p : Plan) (s : Signature) (lines : List String) : Prop :=
  match unwrapInput? p s lines with
  | some (_, input, _) => IsFirstDeclared s input lines
  | none => (header? lines).isSome = true ∧ HasNoVoid lines ∧ IsBalanced lines

instance (p : Plan) (s : Signature) (lines : List String) : Decidable (HasPlace p s lines) :=
  match hfound : unwrapInput? p s lines with
  | some (_, input, _) => decidable_of_iff (IsFirstDeclared s input lines) (by rw [HasPlace, hfound])
  | none => decidable_of_iff ((header? lines).isSome = true ∧ HasNoVoid lines ∧ IsBalanced lines)
    (by rw [HasPlace, hfound])

/-- **The signature of a fragment stage that is written anew.** -/
theorem read_of_fragment (hplain : ∀ line ∈ lines.tail, Directive.isMarked line = false)
    (htext : joined lines = header.textWith inner after) (hfrom : s.IsReadFrom header inner after)
    (hplace : HasPlace p s lines) : ∃ parameters,
      Signature.ofText? (joined (fragment p s lines).signature) (fragment p s lines).signature
        = some { s with parameters, lines := (fragment p s lines).signature } ∧
      TakesNumber p s lines parameters := by
  simp only [fragment, TakesNumber]
  rw [HasPlace] at hplace
  cases hunwrap : unwrapInput? p s lines with
  | some found =>
    obtain ⟨carrier, input, edited⟩ := found
    rw [hunwrap] at hplace
    simp only [unwrapInput?, Option.bind_eq_bind, Option.bind_eq_some_iff] at hunwrap
    obtain ⟨carrier', -, input', -, edited', hedited, heq⟩ := hunwrap
    cases heq
    have hspace : carrier.name ++ " optimizerInput" = carrier.name ++ " " ++ "optimizerInput" := by
      rw [String.append_assoc]
      rfl
    rw [hspace] at hedited
    obtain ⟨index, inner', hindex, hnew, hfrom'⟩ :=
      exists_isReadFrom_replaceParameter? htext hfrom hplace (by decide) hedited
    refine ⟨_, ?_, index, hindex, rfl⟩
    dsimp only
    rw [hnew]
    exact hfrom'.ofText?_eq edited
  | none =>
    rw [hunwrap] at hplace
    obtain ⟨hheader, hvoid, hbalanced⟩ := hplace
    obtain ⟨own, hown⟩ := Option.isSome_iff_exists.1 hheader
    cases eq_of_header? htext hfrom hown
    have hnew := header?_appendParameter packedInput (!s.parameters.isEmpty) hown hplain
      (Signature.closing?_of_closes hfrom.closes after)
    have hopenIn : openBehind? ',' 0 packedInput.toList = some 0 := by decide
    have hreadIn : Parameter.ofText? packedInput.toList = some packedIn := by decide +kernel
    have happended := hfrom.appended (bracketBalance_of_list? hbalanced htext hfrom) hopenIn
      (Signature.closes_of_notMem (by decide) (by decide)) hreadIn
      fun _ => not_void_of_list? hvoid htext hfrom
    refine ⟨_, ?_, rfl⟩
    dsimp only
    rw [← (isRead_of_header? hnew).1]
    exact happended.ofText?_eq _

/-! ## The geometry stage -/

/-- The vertices of a stream have a name for their type. -/
theorem isName_of_stream? {stream : String × String} (h : s.stream? = some stream) :
    IsName stream.2.toList := by
  obtain ⟨q, -, hq⟩ := List.exists_of_findSome?_eq_some h
  obtain ⟨vertex, hvertex, rfl⟩ := Option.map_eq_some_iff.1 hq
  simp only [Parameter.streamVertex?, Option.bind_eq_bind, Option.bind_eq_some_iff] at hvertex
  obtain ⟨_, -, _, -, ⟨name, rest⟩, hname, _, -, hempty⟩ := hvertex
  split at hempty
  · cases hempty
    rw [String.toList_ofList]
    exact (Text.name?_eq_some_iff.1 hname).2.1
  · cases hempty

/-- The angle bracket of a place among the parameters is one of them as well. -/
theorem exists_of_angle {front gap place : List Char} (hgap : IsBlanks gap)
    (h : front ++ '<' :: gap = header.front ++ place) : ∃ back, place = back ++ '<' :: gap := by
  rcases List.append_eq_append_iff.1 h with ⟨more, hmore, hplace⟩ | ⟨more, -, hplace⟩
  · rcases List.eq_nil_or_concat more with rfl | ⟨others, c, rfl⟩
    · exact ⟨[], hplace.symm⟩
    · -- The front of a header ends with its parenthesis, which is no blank.
      rw [Header.front, List.concat_eq_append, ← List.append_assoc] at hmore
      obtain ⟨-, hsame⟩ := List.append_inj' hmore rfl
      obtain rfl : '(' = c := (List.cons.inj hsame).1
      have hmem : '(' ∈ '<' :: gap := by
        rw [hplace]
        simp
      rcases List.mem_cons.1 hmem with heq | hmem
      · exact absurd heq (by decide)
      · exact absurd (hgap '(' hmem) (by decide)
  · exact ⟨more, hplace⟩

/-- **A stream whose vertices are replaced** is read in its place. -/
theorem exists_isReadFrom_replaceStreamVertex? {vertex : String} {carrier : Carrier}
    {edited : List String} (htext : joined lines = header.textWith inner after)
    (hfrom : s.IsReadFrom header inner after)
    (hstream : HasStream vertex lines) (hvertex : IsName vertex.toList)
    (h : replaceStreamVertex? vertex carrier.name lines = some edited) : ∃ parameters inner',
      joined edited = header.textWith inner' after ∧
      { s with parameters }.IsReadFrom header inner' after := by
  obtain ⟨front, gap, behind, hfront, hgap, hold, hnew⟩ := joined_replaceStreamVertex? h
  obtain ⟨front', hfront', hplace⟩ := hstream
  cases hfront.symm.trans hfront'
  obtain ⟨place, hplace⟩ := Option.isSome_iff_exists.1 hplace
  obtain ⟨hplaced, hprefix⟩ := of_inList? hfrom.isRead hfrom.closes htext hplace
  have hsplit : ∀ name : List Char, front ++ ('<' :: (gap ++ (name ++ behind)))
      = header.front ++ place ++ (name ++ behind) := by
    intro name
    rw [← hplaced]
    simp
  have htext' : header.textWith inner after = header.front ++ place ++ (vertex.toList ++ behind) := by
    rw [← htext, hold, hsplit]
  obtain ⟨tail, rfl, rfl⟩ :=
    exists_of_place hfrom.closes hprefix (Signature.closes_name hvertex) htext'
  obtain ⟨back, rfl⟩ := exists_of_angle hgap hplaced
  rw [List.append_assoc] at hfrom
  obtain ⟨parameters, hfrom'⟩ := hfrom.renamed hgap hvertex carrier.isName_name
  refine ⟨parameters, _, ?_, hfrom'⟩
  rw [hnew, hsplit, Header.textWith]
  simp

/-- Whether a geometry stage finds the places of its input array and its stream. -/
def HasPlaces (p : Plan) (s : Signature) (lines : List String) : Prop :=
  ∀ vertex ∈ p.vertexCarrier, ∀ input ∈ inputArray? s vertex.payload,
    IsFirstDeclared s input.1 lines ∧ ∀ stream ∈ s.stream?,
      ∀ edited ∈ replaceParameter? input.1.type input.1.name
        (vertex.name ++ " optimizerGeometryInput") lines, HasStream stream.2 edited

instance (p : Plan) (s : Signature) (lines : List String) : Decidable (HasPlaces p s lines) :=
  inferInstanceAs (Decidable (∀ vertex ∈ p.vertexCarrier, ∀ input ∈ inputArray? s vertex.payload,
    _ ∧ ∀ stream ∈ s.stream?, ∀ edited ∈ replaceParameter? _ _ _ _, _))

/-- **The signature of a geometry stage that is written anew.** -/
theorem read_of_geometry (htext : joined lines = header.textWith inner after)
    (hfrom : s.IsReadFrom header inner after) (hplaces : HasPlaces p s lines)
    (h : geometry p s lines = .ok e) : ∃ parameters,
      Signature.ofText? (joined e.signature) e.signature
        = some { s with parameters, lines := e.signature } := by
  have hoption := toOption_geometry p s lines
  rw [h] at hoption
  have hsome := Option.bind_eq_some_iff.1 hoption.symm
  obtain ⟨vertex, hvertex, hsome⟩ := hsome
  obtain ⟨geometry, -, hsome⟩ := Option.bind_eq_some_iff.1 hsome
  obtain ⟨input, hinput, hsome⟩ := Option.bind_eq_some_iff.1 hsome
  obtain ⟨stream, hstream, hsome⟩ := Option.bind_eq_some_iff.1 hsome
  obtain ⟨edited, hedited, hsome⟩ := Option.bind_eq_some_iff.1 hsome
  obtain ⟨signature, hsignature, heq⟩ := Option.bind_eq_some_iff.1 hsome
  cases heq
  obtain ⟨hfirst, hplaced⟩ := hplaces vertex hvertex input hinput
  have hplaced := hplaced stream hstream edited hedited
  have hspace : vertex.name ++ " optimizerGeometryInput"
      = vertex.name ++ " " ++ "optimizerGeometryInput" := by
    rw [String.append_assoc]
    rfl
  rw [hspace] at hedited
  obtain ⟨index, inner', -, hjoined, hfrom'⟩ :=
    exists_isReadFrom_replaceParameter? htext hfrom hfirst (by decide) hedited
  obtain ⟨parameters, inner'', hjoined', hfrom''⟩ :=
    exists_isReadFrom_replaceStreamVertex? hjoined hfrom' hplaced (isName_of_stream? hstream)
      hsignature
  refine ⟨parameters, ?_⟩
  rw [hjoined']
  exact hfrom''.ofText?_eq signature

/-! ## All stages -/

/-- Whether the edits of a stage belong where they are made. -/
def IsTidy (stage : Stage) (p : Plan) (s : Signature) (lines : List String) : Prop :=
  match stage with
  | .vertex => HasNoVoid lines ∧ ((wrapper? p).isSome = true → LosesSemantic lines) ∧
    (p.carries = true → wrapper? p = none → IsBalanced lines)
  | .hull => True
  | .domain => True
  | .geometry => HasPlaces p s lines
  | .fragment => HasPlace p s lines

instance (stage : Stage) (p : Plan) (s : Signature) (lines : List String) :
    Decidable (IsTidy stage p s lines) :=
  match stage with
  | .vertex => inferInstanceAs (Decidable (_ ∧ (_ → _) ∧ (_ → _ → _)))
  | .hull => inferInstanceAs (Decidable True)
  | .domain => inferInstanceAs (Decidable True)
  | .geometry => inferInstanceAs (Decidable (HasPlaces p s lines))
  | .fragment => inferInstanceAs (Decidable (HasPlace p s lines))

/-- Whether a plan is made for the signature of a vertex stage: it has a carrier exactly if the
number is handed on and the stage returns a value that can be wrapped. -/
def Suits (p : Plan) (s : Signature) : Prop :=
  p.vertexCarrier.isSome = true ↔ p.carries = true ∧ s.returnType ≠ "void"

theorem carriers_fst {pass : Pass} {found : Option Carrier × Option Carrier}
    (h : Plan.carriers pass = .ok found) :
    found.1 = pass.entryPoints.vertex.bind Plan.carrierOfVertex := by
  rw [Plan.carriers] at h
  dsimp only at h
  split at h
  · cases h
    rfl
  · split at h
    · cases h
    · split at h
      · cases h
      · cases h
        rfl

/-- The plan for a pass is made for its vertex stage, and so for all signatures that return the
same. -/
theorem suits_of_new {shader : String} {pass : Pass} {o : Options} {own : Signature}
    (h : Plan.new shader pass o = .ok p) (hvertex : pass.entryPoints.vertex = some own)
    (hreturn : own.returnType = s.returnType) : Suits p s := by
  simp only [Plan.new] at h
  split at h
  · cases h
  · by_cases hcarries : o.needsCarrying = true
    · rw [if_pos hcarries] at h
      cases hcarriers : Plan.carriers pass with
      | error fault =>
        rw [hcarriers] at h
        cases h
      | ok found =>
        have hfst := carriers_fst hcarriers
        rw [hcarriers] at h
        cases h
        rw [Suits, hfst, hvertex, Option.bind_some, Plan.carrierOfVertex, hreturn]
        by_cases hnothing : s.returnType = "void"
        · simp [hnothing]
        · simp [hnothing, hcarries]
    · rw [if_neg hcarries] at h
      cases h
      simp [Suits, hcarries]

/-- Under a plan for the signature, the number is handed on beside the output if there is none. -/
theorem Suits.wrapper? (h : Suits p s) : wrapper? p = p.vertexCarrier ∧
    (packedOut ∈ besides p ↔ p.carries = true ∧ s.returnType = "void") := by
  rw [Suits] at h
  rw [EntryPoint.wrapper?, besides, EntryPoint.wrapper?]
  cases hcarries : p.carries with
  | false =>
    rw [hcarries] at h
    cases hcarrier : p.vertexCarrier with
    | none => simp
    | some carrier => simp [hcarrier] at h
  | true =>
    rw [hcarries] at h
    cases hcarrier : p.vertexCarrier with
    | none =>
      rw [hcarrier] at h
      simpa using h
    | some carrier =>
      rw [hcarrier] at h
      simpa using h

/-- Whether a signature that is read of the new lines is the old one with what the plan changes.  The
plan for a pass suits the signatures of its vertex stage, so the number that this stage hands on is
inside of its output if there is one. -/
def IsAdapted (stage : Stage) (p : Plan) (s : Signature) (lines : List String) (t : Signature) :
    Prop :=
  t.name = s.name ∧
  match stage with
  | .vertex =>
    t.parameters = packedUV p.channel :: s.parameters ++ besides p ∧
    t.returnType = returned p s ∧
    t.returnSemantic = (if (wrapper? p).isSome then none else s.returnSemantic) ∧
    (Suits p s → wrapper? p = p.vertexCarrier ∧
      (packedOut ∈ besides p ↔ p.carries = true ∧ s.returnType = "void")) ∧
    (∀ shader pass o own, Plan.new shader pass o = .ok p → pass.entryPoints.vertex = some own →
      own.returnType = s.returnType → Suits p s)
  | .hull | .domain => t.parameters = s.parameters ∧ t.returnType = s.returnType ∧
    t.returnSemantic = s.returnSemantic
  | .geometry => t.returnType = s.returnType ∧ t.returnSemantic = s.returnSemantic
  | .fragment => TakesNumber p s lines t.parameters ∧ t.returnType = s.returnType ∧
    t.returnSemantic = s.returnSemantic

/-- **The edits of a signature are exact.**  The new lines of an entry point are read as the old
signature with what the plan changes. -/
theorem read_of_adapt {stage : Stage} (hplain : ∀ line ∈ lines, Directive.isMarked line = false)
    (hlist : ClearsOwnList lines) (hread : read? lines = some s)
    (htidy : IsTidy stage p s (clearVoid lines)) (h : adapt stage p lines = .ok e) :
    ∃ t, Signature.ofText? (String.intercalate " " e.signature).toList e.signature = some t ∧
      IsAdapted stage p s (clearVoid lines) t := by
  obtain ⟨header, inner, after, htext, hfrom⟩ := exists_isReadFrom_clearVoid hplain hlist hread
  have hbelow : ∀ line ∈ (clearVoid lines).tail, Directive.isMarked line = false := by
    cases lines with
    | nil => nofun
    | cons first rest => exact fun line hline => hplain line (List.mem_cons_of_mem first hline)
  have hsignature := ofSignature_of_adapt hread h
  rw [String.toList_intercalate]
  cases stage with
  | vertex =>
    obtain ⟨hvoid, hsemantic, hbalanced⟩ := htidy
    exact ⟨_, read_of_vertex hbelow htext hfrom hvoid hsemantic hbalanced hsignature,
      rfl, rfl, rfl, rfl, Suits.wrapper?, fun _ _ _ _ => suits_of_new⟩
  | hull =>
    cases hsignature
    have hread := hfrom.ofText?_eq (clearVoid lines)
    rw [← htext] at hread
    exact ⟨_, hread, rfl, rfl, rfl, rfl⟩
  | domain =>
    cases hsignature
    have hread := hfrom.ofText?_eq (clearVoid lines)
    rw [← htext] at hread
    exact ⟨_, hread, rfl, rfl, rfl, rfl⟩
  | geometry =>
    obtain ⟨parameters, hread⟩ := read_of_geometry htext hfrom htidy hsignature
    exact ⟨_, hread, rfl, rfl, rfl⟩
  | fragment =>
    cases hsignature
    obtain ⟨parameters, hread, htakes⟩ := read_of_fragment hbelow htext hfrom htidy
    exact ⟨_, hread, rfl, htakes, rfl, rfl⟩

/-- A plan in which the vertex and the geometry stage hand the packed number on inside their
output. -/
def wrapping : Plan :=
  ⟨true, true, 7, none, some ⟨.vertex, "v2f", none⟩, some ⟨.geometry, "g2f", none⟩, false⟩

/-- Signatures on several lines, as they are written and as they are written anew. -/
def severalLines : List (Stage × List String × List String) :=
  [(.vertex, ["v2f vert(appdata v,", "uint id : SV_VertexID)", ": TEXCOORD0"],
      ["OptimizerVertexOutput vert(float4 optimizerPackedUV : TEXCOORD7, appdata v,",
        "uint id : SV_VertexID)"]),
    (.geometry, ["void geom(", "triangle v2f i[3], inout TriangleStream<g2f> s)"],
      ["void geom(",
        "triangle OptimizerVertexOutput optimizerGeometryInput[3], "
          ++ "inout TriangleStream<OptimizerGeometryOutput> s)"]),
    (.fragment, ["float4 frag(", "float face : VFACE, in g2f i)", ": SV_Target"],
      ["float4 frag(", "float face : VFACE, in OptimizerGeometryOutput optimizerInput)",
        ": SV_Target"])]

theorem read_of_adapt_of_severalLines : severalLines.Forall fun input => ∃ s e t,
    (∀ line ∈ input.2.1, Directive.isMarked line = false) ∧ ClearsOwnList input.2.1 ∧
      read? input.2.1 = some s ∧ IsTidy input.1 wrapping s (clearVoid input.2.1) ∧
      adapt input.1 wrapping input.2.1 = .ok e ∧ e.signature = input.2.2 ∧
      Signature.ofText? (String.intercalate " " e.signature).toList e.signature = some t ∧
      IsAdapted input.1 wrapping s (clearVoid input.2.1) t := by
  refine List.forall_iff_forall_mem.2 fun input hinput => ?_
  have hknown : ∀ input ∈ severalLines,
      (∀ line ∈ input.2.1, Directive.isMarked line = false) ∧ ClearsOwnList input.2.1 ∧
        (∃ s ∈ read? input.2.1, IsTidy input.1 wrapping s (clearVoid input.2.1)) ∧
        (adapt input.1 wrapping input.2.1).toOption.map (·.signature) = some input.2.2 := by
    decide +kernel
  obtain ⟨hplain, hlist, ⟨s, hread, htidy⟩, hsignature⟩ := hknown input hinput
  cases hadapt : adapt input.1 wrapping input.2.1 with
  | error fault =>
    rw [hadapt] at hsignature
    cases hsignature
  | ok e =>
    rw [hadapt] at hsignature
    obtain ⟨t, ht, hadapted⟩ := read_of_adapt hplain hlist hread htidy hadapt
    exact ⟨s, e, t, hplain, hlist, hread, htidy, rfl, Option.some.inj hsignature, ht, hadapted⟩

/-- An empty list that is not on the first line stays behind the parameter that is put in, and is
read as a part of its semantic. -/
example : (adapt .vertex wrapping ["v2f vert(", "void) : TEXCOORD0"]).toOption.map (·.signature)
      = some ["OptimizerVertexOutput vert(float4 optimizerPackedUV : TEXCOORD7", "void)"] ∧
    Signature.ofText? "OptimizerVertexOutput vert(float4 optimizerPackedUV : TEXCOORD7 void)".toList []
      = some ⟨"vert", "OptimizerVertexOutput", none, [⟨"float4", "optimizerPackedUV",
        some "TEXCOORD7 void", none, [], none⟩], []⟩ := by
  decide +kernel

end EntryPoint

end ShaderMerge.Variant
