import ShaderMerge.Proofs.Variant.SignatureText

/-!
# Places in a signature

An edit at a place that is searched for replaces one piece of the joined text of the lines, and
nothing around it.  The places are told by the text in front of them: of the first declarator with
some type and name (`parameterFront?`), and of the vertices of the first stream (`streamFront?`).
-/

namespace ShaderMerge.Variant.SignatureEdit

open Text (IsBlanks)

variable {lines edited : List String}

/-! ## The first line with a place -/

/-- The text in front of the first place of a kind, on the first line that has one. -/
def frontIn? (front? : List Char → Option (List Char)) : List String → Option (List Char)
  | [] => none
  | line :: rest =>
    match (if Directive.isMarked line then none else front? line.toList) with
    | some front => some front
    | none => (frontIn? front? rest).map (line.toList ++ ' ' :: ·)

/-- The line that is edited is the first one with a place. -/
theorem exists_of_editFirst? {edit front? : List Char → Option (List Char)}
    (hfront : ∀ cs, (front? cs).isSome = (edit cs).isSome) (h : editFirst? edit lines = some edited) :
    ∃ above line below front out, lines = above ++ line :: below ∧
      edited = above ++ String.ofList out :: below ∧ front? line.toList = some front ∧
      edit line.toList = some out ∧ frontIn? front? lines = some (textAbove above ++ front) := by
  induction lines generalizing edited with
  | nil => cases h
  | cons line rest ih =>
    -- Where the line is left alone, the place is on one of those below it.
    have hbelow : ∀ others, editFirst? edit rest = some others →
        ∃ above line' below front out, line :: rest = above ++ line' :: below ∧
          line :: others = above ++ String.ofList out :: below ∧ front? line'.toList = some front ∧
          edit line'.toList = some out ∧
          (frontIn? front? rest).map (line.toList ++ ' ' :: ·) = some (textAbove above ++ front) := by
      intro others hothers
      obtain ⟨above, line', below, front, out, rfl, rfl, hline, hout, hin⟩ := ih hothers
      refine ⟨line :: above, line', below, front, out, rfl, rfl, hline, hout, ?_⟩
      rw [hin, textAbove, textAbove, List.flatMap_cons]
      simp
    rw [editFirst?] at h
    rw [frontIn?]
    by_cases hmarked : Directive.isMarked line = true
    · rw [if_pos hmarked] at h ⊢
      obtain ⟨others, hothers, rfl⟩ := Option.map_eq_some_iff.1 h
      exact hbelow others hothers
    · rw [if_neg hmarked] at h ⊢
      cases hedit : edit line.toList with
      | some out =>
        rw [hedit] at h
        cases h
        obtain ⟨front, hline⟩ := Option.isSome_iff_exists.1
          ((hfront line.toList).trans (by rw [hedit]; rfl))
        exact ⟨[], line, rest, front, out, rfl, rfl, hline, hedit, by rw [hline]; rfl⟩
      | none =>
        have hnone : front? line.toList = none := by
          rw [← Option.isSome_eq_false_iff.trans Option.isNone_iff_eq_none, hfront, hedit]
          rfl
        rw [hedit] at h
        rw [hnone]
        obtain ⟨others, hothers, rfl⟩ := Option.map_eq_some_iff.1 h
        exact hbelow others hothers

/-! ## A declarator -/

/-- The text in front of the first place where a type and a name stand as whole words. -/
def declaredFront? (type name : String) (before : Option Char) : List Char → Option (List Char)
  | [] => none
  | c :: rest =>
    if (afterDeclared? type name before (c :: rest)).isSome then some []
    else (declaredFront? type name (some c) rest).map (c :: ·)

theorem isSome_declaredFront? (type name replacement : String) (before : Option Char) (cs : List Char) :
    (declaredFront? type name before cs).isSome
      = (replaceDeclared? type name replacement before cs).isSome := by
  induction cs generalizing before with
  | nil => rfl
  | cons c rest ih =>
    rw [declaredFront?, replaceDeclared?]
    cases afterDeclared? type name before (c :: rest) with
    | some after => rfl
    | none =>
      simp only [Option.isSome_none, Bool.false_eq_true, if_false, Option.isSome_map]
      exact ih (some c)

theorem exists_of_afterDeclared? {type name : String} {before : Option Char} {cs behind : List Char}
    (h : afterDeclared? type name before cs = some behind) : ∃ gap, gap ≠ [] ∧ IsBlanks gap ∧
      cs = type.toList ++ (gap ++ (name.toList ++ behind)) := by
  simp only [afterDeclared?, Option.bind_eq_bind, Option.bind_eq_some_iff] at h
  obtain ⟨behindType, htype, behindGap, hgap, behindName, hname, h⟩ := h
  split at h
  · cases h
    obtain ⟨gap, hne, hblanks, hbehind, -⟩ := Text.afterBlanks?_eq_some_iff.1 hgap
    refine ⟨gap, hne, hblanks, ?_⟩
    rw [Text.after?_eq_some_iff.1 htype, hbehind, Text.after?_eq_some_iff.1 hname]
  · cases h

theorem exists_of_replaceDeclared? {type name replacement : String} {before : Option Char}
    {cs front out : List Char} (h : replaceDeclared? type name replacement before cs = some out)
    (hfront : declaredFront? type name before cs = some front) : ∃ gap behind, gap ≠ [] ∧ IsBlanks gap ∧
      cs = front ++ (type.toList ++ (gap ++ (name.toList ++ behind))) ∧
      out = front ++ (replacement.toList ++ behind) := by
  induction cs generalizing before front out with
  | nil => cases h
  | cons c rest ih =>
    rw [replaceDeclared?] at h
    rw [declaredFront?] at hfront
    cases hafter : afterDeclared? type name before (c :: rest) with
    | some behind =>
      rw [hafter] at h hfront
      cases h
      cases hfront
      obtain ⟨gap, hne, hblanks, htext⟩ := exists_of_afterDeclared? hafter
      exact ⟨gap, behind, hne, hblanks, htext, rfl⟩
    | none =>
      rw [hafter] at h hfront
      obtain ⟨out', hout, rfl⟩ := Option.map_eq_some_iff.1 h
      obtain ⟨front', hfront', rfl⟩ := Option.map_eq_some_iff.1 hfront
      obtain ⟨gap, behind, hne, hblanks, htext, rfl⟩ := ih hout hfront'
      exact ⟨gap, behind, hne, hblanks, congrArg (c :: ·) htext, rfl⟩

/-- The text in front of the first declarator with some type and name. -/
def parameterFront? (type name : String) (lines : List String) : Option (List Char) :=
  frontIn? (declaredFront? type name none) lines

/-- **Replacing a parameter** replaces its declarator in the joined text. -/
theorem joined_replaceParameter? {type name replacement : String}
    (h : replaceParameter? type name replacement lines = some edited) : ∃ front gap behind,
      parameterFront? type name lines = some front ∧ gap ≠ [] ∧ IsBlanks gap ∧
      joined lines = front ++ (type.toList ++ (gap ++ (name.toList ++ behind))) ∧
      joined edited = front ++ (replacement.toList ++ behind) := by
  obtain ⟨above, line, below, front, out, rfl, rfl, hfront, hout, hin⟩ :=
    exists_of_editFirst? (isSome_declaredFront? type name replacement none) h
  obtain ⟨gap, behind, hne, hblanks, hline, rfl⟩ := exists_of_replaceDeclared? hout hfront
  refine ⟨_, gap, behind ++ textBelow below, hin, hne, hblanks, ?_, ?_⟩
  · rw [joined_append_cons, hline]
    simp
  · rw [joined_append_cons, String.toList_ofList]
    simp

/-! ## The vertices of a stream -/

/-- The text up to the type of the vertices, of a stream that starts a text. -/
def streamLead? (vertex : String) (cs : List Char) : Option (List Char) := do
  let rest ← Text.after? "Stream" cs
  let inner ← Text.afterChar? '<' (Text.skipBlanks rest)
  let after ← Text.after? vertex (Text.skipBlanks inner)
  let _ ← Text.afterChar? '>' (Text.skipBlanks after)
  return "Stream".toList ++ rest.takeWhile Text.isBlank ++ '<' :: inner.takeWhile Text.isBlank

/-- The text in front of the vertices of the first stream of a vertex type. -/
def vertexFront? (vertex : String) : List Char → Option (List Char)
  | [] => none
  | c :: rest =>
    match streamLead? vertex (c :: rest) with
    | some lead => some lead
    | none => (vertexFront? vertex rest).map (c :: ·)

theorem isSome_streamLead? (vertex replacement : String) (cs : List Char) :
    (streamLead? vertex cs).isSome = (withStreamVertex? vertex replacement cs).isSome := by
  simp only [streamLead?, withStreamVertex?, Option.bind_eq_bind]
  cases Text.after? "Stream" cs with
  | none => rfl
  | some rest =>
    simp only [Option.bind_some]
    cases Text.afterChar? '<' (Text.skipBlanks rest) with
    | none => rfl
    | some inner =>
      simp only [Option.bind_some]
      cases Text.after? vertex (Text.skipBlanks inner) with
      | none => rfl
      | some after =>
        simp only [Option.bind_some]
        cases Text.afterChar? '>' (Text.skipBlanks after) <;> rfl

theorem isSome_vertexFront? (vertex replacement : String) (cs : List Char) :
    (vertexFront? vertex cs).isSome = (replaceVertexIn? vertex replacement cs).isSome := by
  induction cs with
  | nil => rfl
  | cons c rest ih =>
    have hlead := isSome_streamLead? vertex replacement (c :: rest)
    rw [vertexFront?, replaceVertexIn?]
    cases hedited : withStreamVertex? vertex replacement (c :: rest) with
    | some edited =>
      rw [hedited] at hlead
      obtain ⟨lead, hlead⟩ := Option.isSome_iff_exists.1 hlead
      rw [hlead]
      rfl
    | none =>
      rw [hedited, Option.isSome_none, Option.isSome_eq_false_iff, Option.isNone_iff_eq_none] at hlead
      rw [hlead]
      simp only [Option.isSome_map]
      exact ih

theorem exists_of_withStreamVertex? {vertex replacement : String} {cs lead out : List Char}
    (h : withStreamVertex? vertex replacement cs = some out)
    (hlead : streamLead? vertex cs = some lead) :
    ∃ front gap behind, lead = front ++ '<' :: gap ∧ IsBlanks gap ∧
      cs = lead ++ (vertex.toList ++ behind) ∧ out = lead ++ (replacement.toList ++ behind) := by
  simp only [withStreamVertex?, Option.bind_eq_bind, Option.bind_eq_some_iff] at h
  obtain ⟨rest, hstream, inner, hinner, after, hafter, _, hclose, hout⟩ := h
  simp only [streamLead?, hstream, hinner, hafter, hclose, Option.bind_eq_bind, Option.bind_some]
    at hlead
  cases hout
  cases hlead
  refine ⟨"Stream".toList ++ rest.takeWhile Text.isBlank, inner.takeWhile Text.isBlank, after, rfl,
    fun c hc => List.mem_takeWhile_imp hc, ?_, (List.append_assoc _ _ _)⟩
  have hrest : rest = rest.takeWhile Text.isBlank ++ '<' :: inner := by
    rw [← Text.eq_of_afterChar? hinner, Text.takeWhile_append_skipBlanks]
  have hinner' : inner = inner.takeWhile Text.isBlank ++ (vertex.toList ++ after) := by
    rw [← Text.after?_eq_some_iff.1 hafter, Text.takeWhile_append_skipBlanks]
  rw [Text.after?_eq_some_iff.1 hstream]
  conv_lhs => rw [hrest, hinner']
  simp

theorem exists_of_replaceVertexIn? {vertex replacement : String} {cs front out : List Char}
    (h : replaceVertexIn? vertex replacement cs = some out)
    (hfront : vertexFront? vertex cs = some front) : ∃ lead gap behind, front = lead ++ '<' :: gap ∧
      IsBlanks gap ∧ cs = front ++ (vertex.toList ++ behind) ∧
      out = front ++ (replacement.toList ++ behind) := by
  induction cs generalizing front out with
  | nil => cases h
  | cons c rest ih =>
    have hsame := isSome_streamLead? vertex replacement (c :: rest)
    rw [replaceVertexIn?] at h
    rw [vertexFront?] at hfront
    cases hedited : withStreamVertex? vertex replacement (c :: rest) with
    | some edited =>
      rw [hedited] at h hsame
      obtain ⟨lead, hlead⟩ := Option.isSome_iff_exists.1 hsame
      rw [hlead] at hfront
      cases h
      cases hfront
      exact exists_of_withStreamVertex? hedited hlead
    | none =>
      rw [hedited, Option.isSome_none, Option.isSome_eq_false_iff, Option.isNone_iff_eq_none] at hsame
      rw [hedited] at h
      rw [hsame] at hfront
      obtain ⟨out', hout, rfl⟩ := Option.map_eq_some_iff.1 h
      obtain ⟨front', hfront', rfl⟩ := Option.map_eq_some_iff.1 hfront
      obtain ⟨lead, gap, behind, rfl, hgap, htext, rfl⟩ := ih hout hfront'
      exact ⟨c :: lead, gap, behind, rfl, hgap, congrArg (c :: ·) htext, rfl⟩

/-- The text in front of the vertices of the first stream on the lines. -/
def streamFront? (vertex : String) (lines : List String) : Option (List Char) :=
  frontIn? (vertexFront? vertex) lines

/-- **Replacing the vertices of a stream** replaces their type in the joined text. -/
theorem joined_replaceStreamVertex? {vertex replacement : String}
    (h : replaceStreamVertex? vertex replacement lines = some edited) : ∃ front gap behind,
      streamFront? vertex lines = some (front ++ '<' :: gap) ∧ IsBlanks gap ∧
      joined lines = front ++ ('<' :: (gap ++ (vertex.toList ++ behind))) ∧
      joined edited = front ++ ('<' :: (gap ++ (replacement.toList ++ behind))) := by
  obtain ⟨above, line, below, front, out, rfl, rfl, hfront, hout, hin⟩ :=
    exists_of_editFirst? (isSome_vertexFront? vertex replacement) h
  obtain ⟨lead, gap, behind, rfl, hgap, hline, rfl⟩ := exists_of_replaceVertexIn? hout hfront
  refine ⟨textAbove above ++ lead, gap, behind ++ textBelow below, ?_, hgap, ?_, ?_⟩
  · rw [streamFront?, hin, List.append_assoc]
  · rw [joined_append_cons, hline]
    simp
  · rw [joined_append_cons, String.toList_ofList]
    simp

end ShaderMerge.Variant.SignatureEdit
