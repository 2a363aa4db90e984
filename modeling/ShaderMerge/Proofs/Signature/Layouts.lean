import ShaderMerge.Proofs.Signature.Headers
import ShaderMerge.Proofs.Signature.Renaming

/-!
# Editing the text of a signature

The text of a signature is a header, the text of the parameters, the parenthesis that closes it,
and the text behind it (`Signature.IsReadFrom`).  Each of them may be edited by itself: what is
read of the new text is the old signature with that part changed.
-/

namespace ShaderMerge

namespace Signature

open Text (IsBlanks IsName)
open Parameter (IsWhole IsLead isModifier)

variable {s : Signature} {header : Header} {inner after : List Char}

/-- Whether a signature is read from a header, a text of its parameters, and the text behind them. -/
structure IsReadFrom (s : Signature) (header : Header) (inner after : List Char) : Prop where
  isRead : header.IsRead
  closes : Closes 0 inner
  parameters : parameters? inner = some s.parameters
  name : s.name = String.ofList header.name
  returnType : s.returnType = String.ofList header.returnType
  returnSemantic : s.returnSemantic = returnSemantic? after

/-- The text of a signature with a header, some text of its parameters, and some text behind them. -/
def Header.textWith (header : Header) (inner after : List Char) : List Char :=
  header.front ++ (inner ++ ')' :: after)

theorem exists_isReadFrom {cs : List Char} {lines : List String} (h : ofText? cs lines = some s) :
    ∃ header inner after, cs = header.textWith inner after ∧ s.IsReadFrom header inner after := by
  obtain ⟨header, hheader, h⟩ := Option.bind_eq_some_iff.1 h
  obtain ⟨⟨inner, after⟩, hclosing, h⟩ := Option.bind_eq_some_iff.1 h
  obtain ⟨parameters, hparameters, heq⟩ := Option.bind_eq_some_iff.1 h
  cases heq
  obtain ⟨htext, hread⟩ := Header.ofText?_eq_some_iff.1 hheader
  obtain ⟨hrest, hcloses⟩ := closing?_eq_some_iff.1 hclosing
  refine ⟨header, inner, after, ?_, hread, hcloses, hparameters, rfl, rfl, rfl⟩
  rw [Header.textWith, ← hrest]
  exact htext.symm

theorem closing?_of_closes (h : Closes 0 inner) (after : List Char) :
    closing? 0 (inner ++ ')' :: after) = some (inner, after) :=
  closing?_eq_some_iff.2 ⟨rfl, h⟩

theorem closes_commaBeside (ps : List Parameter) : Closes 0 (commaBeside ps) := by
  rw [commaBeside]
  split
  · exact closes_of_notMem (by decide) (by decide)
  · exact closes_of_notMem (by decide) (by decide)

theorem closes_blanks {gap : List Char} (hgap : IsBlanks gap) : Closes 0 gap :=
  closes_of_notMem (fun hmem => absurd (hgap '(' hmem) (by decide))
    fun hmem => absurd (hgap ')' hmem) (by decide)

theorem closes_name {name : List Char} (hname : IsName name) : Closes 0 name :=
  closes_of_notMem (hname.notMem (by decide)) (hname.notMem (by decide))

/-- However many blanks stand between a type and a name, a declarator closes what it opens. -/
theorem closes_declarator_append {type name gap : List Char} (hwhole : IsWhole (type ++ ' ' :: name))
    (hgap : IsBlanks gap) (depth : Nat) (tail : List Char) :
    Closes depth (type ++ (gap ++ (name ++ tail))) ↔ Closes depth tail := by
  have hclosed : Closes 0 (type ++ (gap ++ name)) := by
    have hspace : ∀ d, Closes d (gap ++ name) ↔ Closes d ([' '] ++ name) := fun d => by
      rw [(closes_blanks hgap).append_iff, (closes_blanks isBlanks_space).append_iff]
    exact (closes_append_congr hspace type).2 hwhole.closes
  have htext : type ++ (gap ++ (name ++ tail)) = (type ++ (gap ++ name)) ++ tail := by simp
  rw [htext, hclosed.append_iff]

/-- What stands in front of the parenthesis that closes goes on behind a text without a loose one. -/
theorem exists_of_append_eq {depth : Nat} {text front behind : List Char} (hcloses : Closes depth text)
    (hfront : Closes 0 front) (heq : text ++ ')' :: after = front ++ behind) :
    ∃ tail, text = front ++ tail ∧ behind = tail ++ ')' :: after := by
  rcases List.append_eq_append_iff.1 heq with ⟨more, hmore, hrest⟩ | ⟨tail, htail, hrest⟩
  · cases more with
    | nil => exact ⟨[], by rw [hmore, List.append_nil, List.append_nil], hrest.symm⟩
    | cons c more =>
      obtain ⟨rfl, -⟩ := List.cons.inj hrest
      have hclosed := hfront.front (text ++ [')']) ⟨more, by rw [hmore]; simp⟩
      have htotal := hcloses.total
      have hparenthesis : parenStep ')' = -1 := rfl
      rw [parenBalance_append, parenBalance_cons, parenBalance_nil, hparenthesis] at hclosed
      omega
  · exact ⟨tail, htail, hrest⟩

theorem exists_closes_of_append {depth : Nat} {front back : List Char}
    (h : Closes depth (front ++ back)) :
    ∃ d, Closes d back := by
  induction front generalizing depth with
  | nil => exact ⟨depth, h⟩
  | cons c front ih =>
    obtain ⟨d, -, h⟩ := closes_cons.1 h
    exact ih h

namespace IsReadFrom

variable {param : List Char} {q : Parameter}

/-- **What is read from the parts of a signature.** -/
theorem ofText?_eq (h : s.IsReadFrom header inner after) (lines : List String) :
    ofText? (header.textWith inner after) lines = some { s with lines } := by
  simp only [ofText?, Header.textWith, h.isRead.ofText?_front, Option.bind_eq_bind, Option.bind_some,
    closing?_of_closes h.closes, h.parameters]
  rw [← h.name, ← h.returnType, ← h.returnSemantic]
  rfl

/-- Another text behind the parameters. -/
theorem withAfter (h : s.IsReadFrom header inner after) (after' : List Char) :
    { s with returnSemantic := returnSemantic? after' }.IsReadFrom header inner after' :=
  ⟨h.isRead, h.closes, h.parameters, h.name, h.returnType, rfl⟩

/-- Another return type. -/
theorem retyped (h : s.IsReadFrom header inner after) {type : String} (htype : IsName type.toList)
    (hfree : type ∉ nonTypeWords ++ flowWords) :
    { s with returnType := type }.IsReadFrom { header with returnType := type.toList } inner after :=
  ⟨h.isRead.retyped htype (by rwa [String.ofList_toList]), h.closes, h.parameters, h.name,
    String.ofList_toList.symm, h.returnSemantic⟩

/-- A parameter in front of the others. -/
theorem prepended (h : s.IsReadFrom header inner after) (hopen : openBehind? ',' 0 param = some 0)
    (hcloses : Closes 0 param) (hq : Parameter.ofText? param = some q)
    (hvoid : s.parameters = [] → Text.trimmed inner ≠ "void".toList) :
    { s with parameters := q :: s.parameters }.IsReadFrom header
      (param ++ (commaBeside s.parameters ++ inner)) after := by
  refine ⟨h.isRead, ?_, parameters?_prepended hopen hq h.parameters hvoid, h.name, h.returnType,
    h.returnSemantic⟩
  exact (hcloses.append_iff _).2 ((closes_commaBeside s.parameters).append_iff _ |>.2 h.closes)

/-- A parameter behind the others. -/
theorem appended (h : s.IsReadFrom header inner after) (hbalance : bracketBalance inner = 0)
    (hopen : openBehind? ',' 0 param = some 0) (hcloses : Closes 0 param)
    (hq : Parameter.ofText? param = some q)
    (hvoid : s.parameters = [] → Text.trimmed inner ≠ "void".toList) :
    { s with parameters := s.parameters ++ [q] }.IsReadFrom header
      (inner ++ (commaBeside s.parameters ++ param)) after := by
  refine ⟨h.isRead, ?_, parameters?_appended hbalance hopen hq h.parameters hvoid, h.name,
    h.returnType, h.returnSemantic⟩
  exact (h.closes.append_iff _).2 ((closes_commaBeside s.parameters).append_iff _ |>.2 hcloses)

/-- Another type and name in the place of those of a parameter. -/
theorem redeclared {pieces : List (List Char)} {front gap lead type' name' tail : List Char}
    (h : s.IsReadFrom header (front ++ (q.type.toList ++ (gap ++ (q.name.toList ++ tail)))) after)
    (hpieces : splitTop ',' front = pieces ++ [lead]) (hlead : IsLead lead)
    (hq : s.parameters[pieces.length]? = some q)
    (hwhole : IsWhole (q.type.toList ++ ' ' :: q.name.toList)) (hne : gap ≠ []) (hgap : IsBlanks gap)
    (htype' : IsName type') (hmodifier : isModifier type' = false) (hname' : IsName name') :
    { s with parameters := (s.parameters.set pieces.length
        { q with type := String.ofList type', name := String.ofList name' }) }.IsReadFrom header
      (front ++ (type' ++ ' ' :: (name' ++ tail))) after := by
  refine ⟨h.isRead, ?_, parameters?_redeclared hpieces hlead hne hgap hwhole htype' hmodifier hname'
    h.parameters hq rfl rfl, h.name, h.returnType, h.returnSemantic⟩
  refine (closes_append_congr (fun d => ?_) front).1 h.closes
  rw [closes_declarator_append hwhole hgap]
  have hnew : Closes d (type' ++ ([' '] ++ (name' ++ tail))) ↔ Closes d tail :=
    closes_declarator_append (Parameter.isWhole_of_names htype' hname') isBlanks_space d tail
  exact hnew.symm

/-- Another name behind an angle bracket. -/
theorem renamed {front gap name name' tail : List Char}
    (h : s.IsReadFrom header (front ++ ('<' :: (gap ++ (name ++ tail)))) after) (hgap : IsBlanks gap)
    (hname : IsName name) (hname' : IsName name') : ∃ parameters,
      { s with parameters }.IsReadFrom header (front ++ ('<' :: (gap ++ (name' ++ tail)))) after := by
  obtain ⟨parameters, hparameters⟩ := Option.isSome_iff_exists.1 (isSome_parameters?_renamed hgap hname
    hname' (Option.isSome_iff_exists.2 ⟨_, h.parameters⟩))
  refine ⟨parameters, h.isRead, ?_, hparameters, h.name, h.returnType, h.returnSemantic⟩
  rw [← List.cons_append, ← List.append_assoc] at h ⊢
  refine (closes_append_congr (fun d => ?_) _).1 h.closes
  rw [(closes_name hname).append_iff, (closes_name hname').append_iff]

end IsReadFrom

end Signature

end ShaderMerge
