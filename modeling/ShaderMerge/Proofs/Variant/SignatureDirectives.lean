import ShaderMerge.Proofs.Condition.Directives
import ShaderMerge.Proofs.Variant.Definitions

/-!
# Editing code keeps its directives

The directives among the lines of a signature are the same behind every edit
(`filter_isMarked_adapt`), and a line of a body that is no directive is none when it has been edited
(`isMarked_apply`).  A line is a directive by its first character.  An edit that changes that character
puts the start of a name, a blank, a comma or a parenthesis in its place.
-/

namespace ShaderMerge

/-- The directives of a text are among its marked lines. -/
theorem directives_filter_isMarked (lines : List String) :
    Condition.directives (lines.filter Directive.isMarked) = Condition.directives lines := by
  rw [Condition.directives, Condition.directives, List.filter_filter]
  refine List.filter_congr fun line _ => ?_
  cases hmarked : Directive.isMarked line with
  | true => simp
  | false => simp [Variant.ofLine_of_not_isMarked hmarked]

namespace Variant

open Signature (Header)

/-- Whether a text does not start as a directive does. -/
def StartsPlain (cs : List Char) : Prop := cs.head? ≠ some '#'

instance (cs : List Char) : Decidable (StartsPlain cs) :=
  inferInstanceAs (Decidable (cs.head? ≠ some '#'))

section

variable {cs rest front : List Char} {line : String}

theorem isMarked_eq_false_iff : Directive.isMarked line = false ↔ StartsPlain line.toList := by
  rw [Directive.isMarked, StartsPlain, beq_eq_false_iff_ne]

theorem isMarked_ofList (h : StartsPlain cs) : Directive.isMarked (String.ofList cs) = false := by
  rw [isMarked_eq_false_iff, String.toList_ofList]
  exact h

/-- In front of another text only the first character counts. -/
theorem StartsPlain.append (hfront : StartsPlain front) (hrest : front = [] → StartsPlain rest) :
    StartsPlain (front ++ rest) := by
  cases front with
  | nil => exact hrest rfl
  | cons c front => exact hfront

theorem StartsPlain.of_append (h : StartsPlain (front ++ rest)) : StartsPlain front := by
  cases front with
  | nil => exact nofun
  | cons c front => exact h

theorem startsPlain_cons {c : Char} (hc : c ≠ '#') (rest : List Char) : StartsPlain (c :: rest) :=
  fun h => hc (Option.some.inj h)

/-- A text that starts with the header of a function is no directive. -/
theorem startsPlain_of_header? {header : Header} (h : Header.ofText? cs = some header) :
    StartsPlain cs := by
  intro hhash
  obtain ⟨rest, rfl⟩ := List.head?_eq_some_iff.1 hhash
  have hnone : Header.ofText? ('#' :: rest) = none := by
    have hattributes : Signature.attributes ('#' :: rest) = ([], '#' :: rest) := by
      rw [Signature.attributes]
      simp
    have hmodified : Signature.modifiedHeader? [] ('#' :: rest) = none := by
      rw [Signature.modifiedHeader?.eq_def]
      rfl
    rw [Header.ofText?, hattributes]
    dsimp only
    rw [hmodified]
    rfl
  rw [hnone] at h
  cases h

end

/-! ## Signatures -/

namespace SignatureEdit

variable {lines edited : List String}

/-- One line may take the place of another if neither is a directive. -/
theorem filter_isMarked_cons {first second : String} (rest : List String)
    (hfirst : Directive.isMarked first = false) (hsecond : Directive.isMarked second = false) :
    (first :: rest).filter Directive.isMarked = (second :: rest).filter Directive.isMarked := by
  rw [List.filter_cons_of_neg (Bool.eq_false_iff.1 hfirst),
    List.filter_cons_of_neg (Bool.eq_false_iff.1 hsecond)]

/-- Around the parenthesis of a cut there is no directive. -/
theorem startsPlain_of_ofLines? {depth : Nat} {cut : Cut} (h : Cut.ofLines? depth lines = some cut) :
    StartsPlain (cut.before ++ ')' :: cut.after) := by
  induction lines generalizing depth cut with
  | nil => cases h
  | cons line rest ih =>
    rw [Cut.ofLines?] at h
    split at h
    · obtain ⟨inner, hinner, rfl⟩ := Option.map_eq_some_iff.1 h
      have hplain := ih hinner
      exact hplain
    · rename_i hmarked
      split at h
      · rename_i before after hclosing
        cases h
        rw [Signature.append_of_closing? hclosing]
        exact isMarked_eq_false_iff.1 (Bool.eq_false_iff.2 hmarked)
      · obtain ⟨inner, hinner, rfl⟩ := Option.map_eq_some_iff.1 h
        have hplain := ih hinner
        exact hplain

theorem startsPlain_of_ofSignature? {cut : Cut} (h : Cut.ofSignature? lines = some cut) :
    StartsPlain (cut.before ++ ')' :: cut.after) := by
  cases lines with
  | nil => cases h
  | cons first rest =>
    obtain ⟨header, hheader, h⟩ := Option.bind_eq_some_iff.1 h
    split at h
    · rename_i before after hclosing
      cases h
      have htext := (Signature.text_of_ofText? hheader).1
      rw [Header.text, ← Signature.append_of_closing? hclosing, ← List.append_assoc] at htext
      rw [htext]
      exact startsPlain_of_header? hheader
    · obtain ⟨inner, hinner, rfl⟩ := Option.map_eq_some_iff.1 h
      have hplain := startsPlain_of_ofLines? hinner
      exact hplain

/-- The line of the parenthesis is no directive, so the others have those of a cut. -/
theorem filter_isMarked_cut {cut : Cut} (h : StartsPlain (cut.before ++ ')' :: cut.after)) :
    cut.lines.filter Directive.isMarked
      = cut.above.filter Directive.isMarked ++ cut.below.filter Directive.isMarked := by
  rw [Cut.lines, List.filter_append,
    List.filter_cons_of_neg (Bool.eq_false_iff.1 (isMarked_ofList h))]

/-- Where a parameter is put in front of the others, its line starts as before. -/
theorem startsPlain_prepended {first : String} {header : Header}
    (h : Header.ofText? first.toList = some header) (parameter comma : String) :
    StartsPlain (header.front ++ parameter.toList ++ comma.toList ++ header.rest) := by
  have hfirst := startsPlain_of_header? h
  rw [← (Signature.text_of_ofText? h).1, Header.text] at hfirst
  have hne : header.front ≠ [] := List.ne_nil_of_mem (mem_front header)
  rw [List.append_assoc, List.append_assoc]
  exact hfirst.of_append.append fun hnil => absurd hnil hne

theorem filter_isMarked_prependParameter? {parameter : String} {hasOthers : Bool}
    (h : prependParameter? parameter hasOthers lines = some edited) :
    edited.filter Directive.isMarked = lines.filter Directive.isMarked := by
  cases lines with
  | nil => cases h
  | cons first rest =>
    obtain ⟨header, hheader, rfl⟩ := Option.map_eq_some_iff.1 h
    exact filter_isMarked_cons rest (isMarked_ofList (startsPlain_prepended hheader _ _))
      (isMarked_eq_false_iff.2 (startsPlain_of_header? hheader))

/-- Where a parameter is put behind the others, its line is no directive. -/
theorem startsPlain_appended {cut : Cut} (h : StartsPlain (cut.before ++ ')' :: cut.after))
    {parameter : String} (hparameter : StartsPlain parameter.toList) (hasOthers : Bool) :
    StartsPlain (cut.before ++ (if hasOthers then ", " else "").toList ++ parameter.toList
      ++ ')' :: cut.after) := by
  -- Each of the pieces may be empty but the last one, so each may start the line.
  have hcomma : StartsPlain (if hasOthers then ", " else "").toList := by
    cases hasOthers <;> decide
  rw [List.append_assoc, List.append_assoc]
  refine h.of_append.append fun _ => hcomma.append fun _ => hparameter.append fun _ => ?_
  exact startsPlain_cons (by decide) _

theorem filter_isMarked_appendParameter {parameter : String}
    (hparameter : StartsPlain parameter.toList) (hasOthers : Bool) (lines : List String) :
    (appendParameter parameter hasOthers lines).filter Directive.isMarked
      = lines.filter Directive.isMarked := by
  rw [appendParameter]
  split
  · rfl
  · rename_i cut hcut
    have hplain := startsPlain_of_ofSignature? hcut
    rw [filter_isMarked_cut (startsPlain_appended hplain hparameter hasOthers),
      ← lines_of_ofSignature? hcut, filter_isMarked_cut hplain]

theorem isMarked_of_startsWithColon {line : String} (h : startsWithColon line.toList = true) :
    Directive.isMarked line = false := by
  rw [isMarked_eq_false_iff]
  intro hhash
  obtain ⟨rest, hline⟩ := List.head?_eq_some_iff.1 hhash
  rw [startsWithColon, hline] at h
  exact absurd h (by rw [show Text.skipBlanks ('#' :: rest) = '#' :: rest from rfl]; simp)

theorem filter_isMarked_removeReturnSemantic (lines : List String) :
    (removeReturnSemantic lines).filter Directive.isMarked = lines.filter Directive.isMarked := by
  rw [removeReturnSemantic]
  split
  · rfl
  · rename_i cut hcut
    have hplain := startsPlain_of_ofSignature? hcut
    have hshort : StartsPlain (cut.before ++ [')']) :=
      hplain.of_append.append fun _ => startsPlain_cons (by decide) []
    split
    · rw [filter_isMarked_cut hshort, ← lines_of_ofSignature? hcut, filter_isMarked_cut hplain]
    · split
      · rfl
      · rename_i next below hbelow
        split
        · rename_i hcolon
          have hcolon' := isMarked_of_startsWithColon hcolon
          have hbefore : ({ cut with below } : Cut).lines.filter Directive.isMarked
              = cut.above.filter Directive.isMarked ++ below.filter Directive.isMarked :=
            filter_isMarked_cut hplain
          rw [hbefore, ← lines_of_ofSignature? hcut, filter_isMarked_cut hplain, hbelow,
            List.filter_cons_of_neg (Bool.eq_false_iff.1 hcolon')]
        · rfl

theorem startsPlain_retyped {type first : String} {header : Header}
    (h : Header.ofText? first.toList = some header) (htype : StartsPlain type.toList)
    (hne : type.toList ≠ []) : StartsPlain ({ header with returnType := type.toList } : Header).text := by
  have hfirst := startsPlain_of_header? h
  rw [← (Signature.text_of_ofText? h).1] at hfirst
  simp only [Header.text, Header.front, List.append_assoc] at hfirst ⊢
  exact hfirst.of_append.append fun _ => htype.append fun hnil => absurd hnil hne

theorem filter_isMarked_replaceReturnType {type : String} (htype : StartsPlain type.toList)
    (hne : type.toList ≠ []) (lines : List String) :
    (replaceReturnType type lines).filter Directive.isMarked
      = lines.filter Directive.isMarked := by
  cases lines with
  | nil => rfl
  | cons first rest =>
    rw [replaceReturnType]
    split
    · rename_i header hheader
      exact filter_isMarked_cons rest (isMarked_ofList (startsPlain_retyped hheader htype hne))
        (isMarked_eq_false_iff.2 (startsPlain_of_header? hheader))
    · rfl

/-- An edit of the first line that has a place for it. -/
theorem filter_isMarked_editFirst? {edit : List Char → Option (List Char)}
    (hedit : ∀ cs out, edit cs = some out → StartsPlain cs → StartsPlain out)
    (h : editFirst? edit lines = some edited) :
    edited.filter Directive.isMarked = lines.filter Directive.isMarked := by
  induction lines generalizing edited with
  | nil => cases h
  | cons line rest ih =>
    rw [editFirst?] at h
    split at h
    · rename_i out hout
      cases h
      split at hout
      · cases hout
      · rename_i hmarked
        have hline : Directive.isMarked line = false := Bool.eq_false_iff.2 hmarked
        exact filter_isMarked_cons rest
          (isMarked_ofList (hedit _ out hout (isMarked_eq_false_iff.1 hline))) hline
    · obtain ⟨others, hothers, rfl⟩ := Option.map_eq_some_iff.1 h
      rw [List.filter_cons, List.filter_cons, ih hothers]

theorem startsPlain_replaceDeclared? {type name replacement : String} {before : Option Char}
    {cs out : List Char} (hreplacement : StartsPlain replacement.toList)
    (hne : replacement.toList ≠ [])
    (h : replaceDeclared? type name replacement before cs = some out) (hcs : StartsPlain cs) :
    StartsPlain out := by
  cases cs with
  | nil => cases h
  | cons c rest =>
    rw [replaceDeclared?] at h
    split at h
    · cases h
      exact hreplacement.append fun hnil => absurd hnil hne
    · obtain ⟨others, -, rfl⟩ := Option.map_eq_some_iff.1 h
      exact hcs

theorem filter_isMarked_replaceParameter? {type name replacement : String}
    (hreplacement : StartsPlain replacement.toList) (hne : replacement.toList ≠ [])
    (h : replaceParameter? type name replacement lines = some edited) :
    edited.filter Directive.isMarked = lines.filter Directive.isMarked :=
  filter_isMarked_editFirst?
    (fun _ _ hout hcs => startsPlain_replaceDeclared? hreplacement hne hout hcs) h

theorem startsPlain_replaceVertexIn? {vertex replacement : String} {cs out : List Char}
    (h : replaceVertexIn? vertex replacement cs = some out) (hcs : StartsPlain cs) :
    StartsPlain out := by
  cases cs with
  | nil => cases h
  | cons c rest =>
    rw [replaceVertexIn?] at h
    split at h
    · rename_i edited hedited
      cases h
      simp only [withStreamVertex?, Option.bind_eq_bind, Option.bind_eq_some_iff] at hedited
      obtain ⟨_, -, _, -, _, -, _, -, hout⟩ := hedited
      cases hout
      exact startsPlain_cons (by decide) _
    · obtain ⟨others, -, rfl⟩ := Option.map_eq_some_iff.1 h
      exact hcs

theorem filter_isMarked_replaceStreamVertex? {vertex replacement : String}
    (h : replaceStreamVertex? vertex replacement lines = some edited) :
    edited.filter Directive.isMarked = lines.filter Directive.isMarked :=
  filter_isMarked_editFirst? (fun _ _ hout hcs => startsPlain_replaceVertexIn? hout hcs) h

theorem startsPlain_clearVoidIn {cs : List Char} (hcs : StartsPlain cs) :
    StartsPlain (clearVoidIn cs) := by
  cases cs with
  | nil => exact hcs
  | cons c rest =>
    rw [clearVoidIn]
    split
    · exact startsPlain_cons (by decide) _
    · exact hcs

/-- The line that starts a signature is no directive. -/
theorem filter_isMarked_clearVoid {first : String} (hfirst : Directive.isMarked first = false)
    (rest : List String) : (clearVoid (first :: rest)).filter Directive.isMarked
      = (first :: rest).filter Directive.isMarked :=
  filter_isMarked_cons rest
    (isMarked_ofList (startsPlain_clearVoidIn (isMarked_eq_false_iff.1 hfirst))) hfirst

end SignatureEdit

/-! ## Entry points -/

namespace EntryPoint

variable {p : Plan} {s : Signature} {lines : List String} {entry : EntryPoint}

theorem startsPlain_carrier (c : Carrier) : StartsPlain c.name.toList ∧ c.name.toList ≠ [] := by
  rw [Carrier.name]
  cases c.role <;> decide

theorem filter_isMarked_vertex (h : vertex p s lines = .ok entry) :
    entry.signature.filter Directive.isMarked = lines.filter Directive.isMarked := by
  simp only [vertex] at h
  generalize (if p.carries = true then p.vertexCarrier else none) = carrier at h
  generalize (p.carries && carrier.isNone) = besides at h
  split at h
  · cases h
  · rename_i signature hsignature
    cases h
    refine (SignatureEdit.filter_isMarked_prependParameter? hsignature).trans ?_
    split
    · rename_i c
      obtain ⟨hplain, hne⟩ := startsPlain_carrier c
      rw [SignatureEdit.filter_isMarked_replaceReturnType hplain hne,
        SignatureEdit.filter_isMarked_removeReturnSemantic]
    · split
      · exact SignatureEdit.filter_isMarked_appendParameter (by decide) _ lines
      · rfl

/-- A carrier and a name stand in the place of a parameter. -/
theorem filter_isMarked_unwrapped {c : Carrier} {type name argument : String}
    {edited : List String}
    (h : SignatureEdit.replaceParameter? type name (c.name ++ argument) lines = some edited) :
    edited.filter Directive.isMarked = lines.filter Directive.isMarked := by
  obtain ⟨hplain, hne⟩ := startsPlain_carrier c
  refine SignatureEdit.filter_isMarked_replaceParameter? ?_ ?_ h
  · rw [String.toList_append]
    exact hplain.append fun hnil => absurd hnil hne
  · rw [String.toList_append]
    exact List.append_ne_nil_of_left_ne_nil hne _

theorem filter_isMarked_geometry (h : geometry p s lines = .ok entry) :
    entry.signature.filter Directive.isMarked = lines.filter Directive.isMarked := by
  rw [geometry] at h
  cases hfault : geometryOrFault p s lines with
  | error fault =>
    rw [hfault] at h
    cases h
  | ok found =>
    rw [hfault] at h
    cases h
    rw [geometryOrFault.eq_def] at hfault
    split at hfault
    · obtain ⟨⟨input, size⟩, -, hfault⟩ := exists_ok_of_bind hfault
      obtain ⟨⟨stream, vertexType⟩, -, hfault⟩ := exists_ok_of_bind hfault
      obtain ⟨first, hfirst, hfault⟩ := exists_ok_of_bind hfault
      obtain ⟨second, hsecond, hfault⟩ := exists_ok_of_bind hfault
      cases hfault
      exact (SignatureEdit.filter_isMarked_replaceStreamVertex? (some_of_found hsecond)).trans
        (filter_isMarked_unwrapped (some_of_found hfirst))
    · cases hfault

theorem filter_isMarked_fragment (p : Plan) (s : Signature) (lines : List String) :
    (fragment p s lines).signature.filter Directive.isMarked
      = lines.filter Directive.isMarked := by
  rw [fragment]
  split
  · rename_i carrier input signature hunwrap
    simp only [unwrapInput?, Option.bind_eq_bind, Option.bind_eq_some_iff] at hunwrap
    obtain ⟨_, -, _, -, edited, hedited, heq⟩ := hunwrap
    cases heq
    exact filter_isMarked_unwrapped hedited
  · exact SignatureEdit.filter_isMarked_appendParameter (by decide) _ lines

/-- **An entry point that is written anew keeps the directives of its signature.** -/
theorem filter_isMarked_adapt {stage : Stage} {first : String} {rest : List String}
    (hfirst : Directive.isMarked first = false)
    (h : adapt stage p (first :: rest) = .ok entry) :
    entry.signature.filter Directive.isMarked = (first :: rest).filter Directive.isMarked := by
  have hclear := SignatureEdit.filter_isMarked_clearVoid hfirst rest
  rw [adapt] at h
  dsimp only at h
  split at h
  · cases h
  · -- The stages edit lines from which the empty parameter list is already gone.
    cases stage with
    | vertex => exact (filter_isMarked_vertex h).trans hclear
    | hull =>
      cases h
      exact hclear
    | domain =>
      cases h
      exact hclear
    | geometry => exact (filter_isMarked_geometry h).trans hclear
    | fragment =>
      cases h
      exact (filter_isMarked_fragment p _ _).trans hclear

end EntryPoint

/-! ## Bodies -/

/-- What stands in front of a returned value starts as the text does. -/
theorem startsPlain_of_returnedValue? {before : Option Char} {cs front value : List Char}
    (h : BodyEdit.returnedValue? before cs = some (front, value)) (hcs : StartsPlain cs) :
    StartsPlain front ∧ front ≠ [] := by
  cases cs with
  | nil => cases h
  | cons c rest =>
    simp only [BodyEdit.returnedValue?] at h
    split at h
    · cases h
      exact ⟨startsPlain_cons (by decide) _, List.cons_ne_nil _ _⟩
    · split at h
      · cases h
      · obtain ⟨⟨front', value'⟩, -, heq⟩ := Option.map_eq_some_iff.1 h
        cases heq
        exact ⟨hcs, List.cons_ne_nil _ _⟩

theorem startsPlain_wrapReturnIn {cs : List Char} (hcs : StartsPlain cs) :
    StartsPlain (BodyEdit.wrapReturnIn cs) := by
  rw [BodyEdit.wrapReturnIn]
  split
  · rename_i front value hvalue
    obtain ⟨hplain, hne⟩ := startsPlain_of_returnedValue? hvalue hcs
    rw [List.append_assoc]
    exact hplain.append fun hnil => absurd hnil hne
  · exact hcs

theorem append_of_splitAtFirst? {pattern cs before after : List Char}
    (h : Text.splitAtFirst? pattern cs = some (before, after)) : before ++ pattern ++ after = cs := by
  induction cs generalizing before with
  | nil =>
    rw [Text.splitAtFirst?] at h
    split at h
    · rename_i hempty
      cases h
      rw [List.isEmpty_iff.1 hempty]
      rfl
    · cases h
  | cons c rest ih =>
    rw [Text.splitAtFirst?] at h
    split at h
    · rename_i hprefix
      cases h
      obtain ⟨tail, htail⟩ := List.isPrefixOf_iff_prefix.1 hprefix
      rw [← htail, List.drop_left]
      rfl
    · obtain ⟨⟨front, back⟩, hfound, heq⟩ := Option.map_eq_some_iff.1 h
      cases heq
      rw [List.cons_append, List.cons_append, ih hfound]

theorem startsPlain_wrapAppendIn (stream : String) {cs : List Char} (hcs : StartsPlain cs) :
    StartsPlain (BodyEdit.wrapAppendIn stream cs) := by
  simp only [BodyEdit.wrapAppendIn]
  split
  · exact hcs
  · rename_i before rest hsplit
    split
    · exact hcs
    · rw [← append_of_splitAtFirst? hsplit] at hcs
      have hcall : before ++ (stream ++ ".Append(").toList ≠ [] := by
        rw [String.toList_append]
        exact List.append_ne_nil_of_right_ne_nil _ (List.append_ne_nil_of_right_ne_nil _ (by decide))
      rw [List.append_assoc]
      exact hcs.of_append.append fun hnil => absurd hnil hcall

/-- A line of code is no directive when it has been edited. -/
theorem isMarked_apply (edit : BodyEdit) {line : String} (h : Directive.isMarked line = false) :
    Directive.isMarked (edit.apply line) = false := by
  have hline := isMarked_eq_false_iff.1 h
  cases edit with
  | keep => exact h
  | wrapReturn => exact isMarked_ofList (startsPlain_wrapReturnIn hline)
  | wrapAppend stream => exact isMarked_ofList (startsPlain_wrapAppendIn stream hline)

end Variant

end ShaderMerge
