import ShaderMerge.Proofs.Text.Pieces
import ShaderMerge.Proofs.Signature.Pieces
import ShaderMerge.Proofs.Variant.Carriers

/-!
# Which carriers an entry point mentions

An entry point that is written anew mentions the structure of a carrier only if it refers to the
carrier, or if the lines that it is made from mention the structure (`mentionedIn_adapt`).

An edit puts its text between two characters that are in no name of a structure, so that a name
stands in the text or in what was there before.  Where the structure itself takes the place of a
type, nothing need stand in front of it, but the names of the two structures do not overlap
(`infix_typeName`).
-/

namespace ShaderMerge.Variant

open Signature (Header)

/-- Whether a name stands in a line. -/
def Mentions (name line : String) : Prop := name.toList <:+: line.toList

instance (name line : String) : Decidable (Mentions name line) :=
  inferInstanceAs (Decidable (name.toList <:+: line.toList))

/-- Whether a name stands in one of some lines. -/
def MentionedIn (name : String) (lines : List String) : Prop := ∃ line ∈ lines, Mentions name line

instance (name : String) (lines : List String) : Decidable (MentionedIn name lines) :=
  inferInstanceAs (Decidable (∃ line ∈ lines, Mentions name line))

section

variable {name : String} {first second : List String}

theorem mentionedIn_append :
    MentionedIn name (first ++ second) ↔ MentionedIn name first ∨ MentionedIn name second := by
  simp only [MentionedIn, List.mem_append, or_and_right, exists_or]

theorem mentionedIn_cons {line : String} {lines : List String} :
    MentionedIn name (line :: lines) ↔ Mentions name line ∨ MentionedIn name lines := by
  simp [MentionedIn]

theorem mentionedIn_singleton {line : String} :
    MentionedIn name [line] ↔ Mentions name line := by
  simp [MentionedIn]

end

/-! ## The names of the structures -/

section

variable {role other : CarrierRole} {front rest : List Char} {lines edited : List String}

theorem not_mem_typeName {c : Char} (hc : Text.isBlank c = true) :
    c ∉ role.typeName.toList := by
  have hplain : (role.typeName.toList.any Text.isBlank) = false := by cases role <;> decide
  intro hmem
  rw [List.any_eq_true.2 ⟨c, hmem, hc⟩] at hplain
  cases hplain

theorem typeName_ne_nil : role.typeName.toList ≠ [] := by cases role <;> decide

/-- The names start with a letter that may be missed. -/
theorem infix_behind (hfront : 'O' ∉ front) (h : role.typeName.toList <:+: front ++ rest) :
    role.typeName.toList <:+: rest := by
  induction front with
  | nil => exact h
  | cons c front ih =>
    rw [List.mem_cons, not_or] at hfront
    rw [List.cons_append] at h
    rcases List.infix_cons_iff.1 h with h | h
    · have hhead : 'O' = c := by cases role <;> exact (List.cons_prefix_cons.1 h).1
      exact absurd hhead hfront.1
    · exact ih hfront.2 h

/-- No name starts inside of another one. -/
theorem infix_typeName (h : role.typeName.toList <:+: front ++ other.typeName.toList) :
    role.typeName.toList <:+: front ∨ role = other := by
  rcases List.infix_append_iff.1 h with h | h | ⟨first, second, heq, hfirst, hsecond⟩
  · exact .inl h
  · right
    revert h
    cases role <;> cases other <;> decide
  · have hoverlap : ∀ second ∈ role.typeName.toList.tails, second <+: other.typeName.toList →
        second = [] ∨ role = other := by
      cases role <;> cases other <;> decide
    have hsuffix : second ∈ role.typeName.toList.tails := by
      rw [List.mem_tails, heq]
      exact List.suffix_append first second
    rcases hoverlap second hsuffix hsecond with rfl | hsame
    · rw [List.append_nil] at heq
      rw [heq]
      exact .inl hfirst.isInfix
    · exact .inr hsame

/-- Whether no name stands in a text or starts in front of it and goes on in it. -/
def Separates (role : CarrierRole) (text : String) : Prop :=
  'O' ∉ text.toList ∧ (text.toList.head?.any fun c => !role.typeName.toList.contains c) = true

instance (role : CarrierRole) (text : String) : Decidable (Separates role text) :=
  inferInstanceAs (Decidable (_ ∧ _))

theorem mentions_of_separates {before between behind : String} (hbetween : Separates role between)
    (h : Mentions role.typeName (before ++ between ++ behind)) :
    Mentions role.typeName before ∨ Mentions role.typeName behind := by
  rw [Mentions, String.toList_append, String.toList_append, List.append_assoc] at h
  obtain ⟨hmiss, hhead⟩ := hbetween
  cases htext : between.toList with
  | nil =>
    rw [htext] at hhead
    cases hhead
  | cons c text =>
    rw [htext] at h hmiss hhead
    have hc : c ∉ role.typeName.toList := by simpa using hhead
    rcases (Text.infix_append_cons_iff hc).1 h with h | h
    · exact .inl h
    · exact .inr (infix_behind (fun hmem => hmiss (List.mem_cons_of_mem c hmem)) h)

/-- A line that lacks the first letter mentions no structure. -/
theorem not_mentions {line : String} (h : 'O' ∉ line.toList) : ¬Mentions role.typeName line := by
  have hfirst : 'O' ∈ role.typeName.toList := by cases role <;> decide
  exact fun hmentions => h (hmentions.subset hfirst)

theorem mentions_before {before behind : String} (hbehind : Separates role behind)
    (h : Mentions role.typeName (before ++ behind)) : Mentions role.typeName before := by
  rw [← String.append_empty (s := before ++ behind)] at h
  exact (mentions_of_separates hbehind h).resolve_right (not_mentions List.not_mem_nil)

theorem not_mem_append {first second : String} (hfirst : 'O' ∉ first.toList)
    (hsecond : 'O' ∉ second.toList) : 'O' ∉ (first ++ second).toList := by
  rw [String.toList_append, List.mem_append, not_or]
  exact ⟨hfirst, hsecond⟩

theorem not_mem_intercalate {separator : String} {texts : List String}
    (hseparator : 'O' ∉ separator.toList) (htexts : ∀ text ∈ texts, 'O' ∉ text.toList) :
    'O' ∉ (String.intercalate separator texts).toList := by
  rw [String.toList_intercalate]
  exact Text.notMem_intercalate hseparator (List.forall_mem_map.2 htexts)

theorem not_mem_toString (n : Nat) : 'O' ∉ (toString n).toList := by
  intro hmem
  have hrepr : 'O' ∈ n.repr.toList := hmem
  rw [Nat.toList_repr] at hrepr
  exact absurd (Nat.isDigit_of_mem_toDigits (by decide) (by decide) hrepr) (by decide)

theorem toList_packedParameter (channel : Nat) : (EntryPoint.packedParameter channel).toList
    = "float4 optimizerPackedUV : TEXCOOR".toList ++ 'D' :: (toString channel).toList := by
  have hsplit : "float4 optimizerPackedUV : TEXCOORD".toList
      = "float4 optimizerPackedUV : TEXCOOR".toList ++ ['D'] := by decide
  unfold EntryPoint.packedParameter
  rw [String.toList_append, hsplit, List.append_assoc]
  rfl

/-! ## Edits of a signature -/

namespace SignatureEdit

/-- The text without its empty list of parameters, if it has one. -/
theorem clearVoidIn_eq (cs : List Char) :
    clearVoidIn cs = cs ∨ ∃ before inner after, cs = before ++ '(' :: inner ∧ after <:+ inner ∧
      clearVoidIn cs = before ++ '(' :: ')' :: after := by
  induction cs with
  | nil => exact .inl rfl
  | cons c rest ih =>
    rw [clearVoidIn]
    split
    · rename_i after hafter
      simp only [afterVoidList?, Option.bind_eq_bind, Option.bind_eq_some_iff] at hafter
      obtain ⟨inner, hinner, behind, hbehind, hafter⟩ := hafter
      refine .inr ⟨[], inner, after, Text.eq_of_afterChar? hinner, ?_, rfl⟩
      have hclose : after <:+ Text.skipBlanks behind := by
        rw [Text.eq_of_afterChar? hafter]
        exact List.suffix_cons ')' after
      exact ((hclose.trans (Text.suffix_skipBlanks behind)).trans
        (Text.suffix_of_after? hbehind)).trans (Text.suffix_skipBlanks inner)
    · rcases ih with heq | ⟨before, inner, after, heq, hafter, hcleared⟩
      · exact .inl (by rw [heq])
      · exact .inr ⟨c :: before, inner, after, by rw [heq]; rfl, hafter, by rw [hcleared]; rfl⟩

theorem mentionedIn_clearVoid (h : MentionedIn role.typeName (clearVoid lines)) :
    MentionedIn role.typeName lines := by
  cases lines with
  | nil => exact h
  | cons line rest =>
    rw [clearVoid, mentionedIn_cons, Mentions, String.toList_ofList] at h
    rw [mentionedIn_cons]
    refine h.imp_left fun h => ?_
    rcases clearVoidIn_eq line.toList with heq | ⟨before, inner, after, hline, hafter, heq⟩
    · rwa [heq] at h
    · have hparen : '(' ∉ role.typeName.toList := by cases role <;> decide
      rw [heq, Text.infix_append_cons_iff hparen] at h
      rw [Mentions, hline, Text.infix_append_cons_iff hparen]
      exact h.imp_right fun h => (infix_behind (by decide : 'O' ∉ [')']) h).trans hafter.isInfix

/-- An edit of the first line that has a place for it. -/
theorem mentionedIn_editFirst? {edit : List Char → Option (List Char)} {P : Prop}
    (hedit : ∀ cs out, edit cs = some out →
      role.typeName.toList <:+: out → role.typeName.toList <:+: cs ∨ P)
    (hread : editFirst? edit lines = some edited) (h : MentionedIn role.typeName edited) :
    MentionedIn role.typeName lines ∨ P := by
  induction lines generalizing edited with
  | nil => cases hread
  | cons line rest ih =>
    rw [editFirst?] at hread
    rw [mentionedIn_cons, or_assoc]
    split at hread
    · rename_i out hout
      cases hread
      rw [mentionedIn_cons, Mentions, String.toList_ofList] at h
      split at hout
      · cases hout
      · rcases h with h | h
        · rcases hedit _ out hout h with h | h
          · exact .inl h
          · exact .inr (.inr h)
        · exact .inr (.inl h)
    · obtain ⟨others, hothers, rfl⟩ := Option.map_eq_some_iff.1 hread
      rw [mentionedIn_cons] at h
      exact h.imp_right fun h => ih hothers h

/-- Another text takes the place of a type and a name. -/
theorem exists_replaceDeclared? {type name replacement : String} {before : Option Char}
    {cs out : List Char} (h : replaceDeclared? type name replacement before cs = some out) :
    ∃ front after, out = front ++ replacement.toList ++ after ∧ front <+: cs ∧ after <:+ cs := by
  induction cs generalizing before out with
  | nil => cases h
  | cons c rest ih =>
    rw [replaceDeclared?] at h
    split at h
    · rename_i after hafter
      cases h
      simp only [afterDeclared?, Option.bind_eq_bind, Option.bind_eq_some_iff] at hafter
      obtain ⟨behindType, htype, behindBlanks, hblanks, behindName, hname, hafter⟩ := hafter
      split at hafter
      · cases hafter
        exact ⟨[], after, rfl, List.nil_prefix, ((Text.suffix_of_after? hname).trans
          (Text.suffix_of_afterBlanks? hblanks)).trans (Text.suffix_of_after? htype)⟩
      · cases hafter
    · obtain ⟨others, hothers, rfl⟩ := Option.map_eq_some_iff.1 h
      obtain ⟨front, after, rfl, hfront, hafter⟩ := ih hothers
      exact ⟨c :: front, after, rfl, List.cons_prefix_cons.2 ⟨rfl, hfront⟩,
        hafter.trans (List.suffix_cons c rest)⟩

/-- A parameter that takes the place of another one mentions its own structure. -/
theorem mentionedIn_replaceParameter? {type name : String}
    (hread : replaceParameter? type name (other.typeName ++ " optimizerInput") lines = some edited)
    (h : MentionedIn role.typeName edited) : MentionedIn role.typeName lines ∨ role = other := by
  refine mentionedIn_editFirst? (fun cs out hout h => ?_) hread h
  obtain ⟨front, after, rfl, hfront, hafter⟩ := exists_replaceDeclared? hout
  have hcut : front ++ (other.typeName ++ " optimizerInput").toList ++ after
      = (front ++ other.typeName.toList) ++ ' ' :: ("optimizerInput".toList ++ after) := by
    rw [String.toList_append]
    simp
  rw [hcut] at h
  rcases (Text.infix_append_cons_iff (not_mem_typeName (by decide))).1 h with h | h
  · rcases infix_typeName h with h | h
    · exact .inl (h.trans hfront.isInfix)
    · exact .inr h
  · exact .inl ((infix_behind (by decide) h).trans hafter.isInfix)

/-- The structure of a carrier takes the place of the return type. -/
theorem mentionedIn_replaceReturnType
    (h : MentionedIn role.typeName (replaceReturnType other.typeName lines)) :
    MentionedIn role.typeName lines ∨ role = other := by
  cases lines with
  | nil => exact .inl h
  | cons line rest =>
    rw [replaceReturnType] at h
    split at h
    · rename_i header hheader
      obtain ⟨htext, b, gap, hgap, hb⟩ := Signature.text_of_ofText? hheader
      rw [mentionedIn_cons, Mentions, String.toList_ofList] at h
      rw [mentionedIn_cons, or_right_comm]
      refine h.imp_left fun h => ?_
      have hcut : ({ header with returnType := other.typeName.toList } : Header).text
          = (header.lead ++ other.typeName.toList)
            ++ b :: (gap ++ header.name ++ header.space ++ '(' :: header.rest) := by
        simp [Header.text, Header.front, hgap]
      rw [hcut] at h
      rw [Mentions, ← htext]
      rcases (Text.infix_append_cons_iff (not_mem_typeName hb)).1 h with h | h
      · refine (infix_typeName h).imp_left fun h => h.trans ?_
        exact ⟨[], header.returnType ++ header.gap ++ header.name ++ header.space
          ++ '(' :: header.rest, by simp [Header.text, Header.front]⟩
      · refine .inl (h.trans ⟨header.lead ++ header.returnType ++ [b], [], ?_⟩)
        simp [Header.text, Header.front, hgap]
    · exact .inl h

/-- A cut is one of the lines of a signature. -/
theorem lines_of_ofSignature? {cut : Cut} (h : Cut.ofSignature? lines = some cut) :
    cut.lines = lines := by
  cases lines with
  | nil => cases h
  | cons first rest =>
    obtain ⟨header, hheader, h⟩ := Option.bind_eq_some_iff.1 h
    have htext := (Signature.text_of_ofText? hheader).1
    split at h
    · rename_i before after hclosing
      cases h
      have hline : header.front ++ before ++ ')' :: after = first.toList := by
        rw [List.append_assoc, Signature.append_of_closing? hclosing]
        exact htext
      rw [Cut.lines, hline, String.ofList_toList]
      rfl
    · obtain ⟨inner, hinner, rfl⟩ := Option.map_eq_some_iff.1 h
      have hlines : (inner.addAbove first).lines = first :: inner.lines := rfl
      rw [hlines, lines_of_ofLines? hinner]

/-- What the lines of a cut mention stands above, in front, behind or below. -/
theorem mentionedIn_cut {cut : Cut} : MentionedIn role.typeName cut.lines ↔
    MentionedIn role.typeName cut.above ∨ (role.typeName.toList <:+: cut.before ∨
      role.typeName.toList <:+: cut.after) ∨ MentionedIn role.typeName cut.below := by
  have hparen : ')' ∉ role.typeName.toList := by cases role <;> decide
  rw [Cut.lines, mentionedIn_append, mentionedIn_cons, Mentions, String.toList_ofList,
    Text.infix_append_cons_iff hparen]

theorem mentionedIn_removeReturnSemantic (h : MentionedIn role.typeName (removeReturnSemantic lines)) :
    MentionedIn role.typeName lines := by
  rw [removeReturnSemantic] at h
  split at h
  · exact h
  · rename_i cut hcut
    rw [← lines_of_ofSignature? hcut] at h ⊢
    split at h
    · rw [mentionedIn_cut] at h ⊢
      exact h.imp_right (.imp_left (.imp_right fun hnil => absurd (List.eq_nil_of_infix_nil hnil)
        typeName_ne_nil))
    · split at h
      · exact h
      · rename_i next below hbelow
        split at h
        · rw [mentionedIn_cut] at h ⊢
          rw [hbelow, mentionedIn_cons]
          exact h.imp_right (.imp_right .inr)
        · exact h

/-- A parameter that comes last mentions no structure, if it starts with a character that is in no
name of one. -/
theorem mentionedIn_appendParameter {parameter : String} {hasOthers : Bool} {c : Char}
    {text : List Char} (hc : c ∉ role.typeName.toList) (htext : ¬role.typeName.toList <:+: text)
    (hparameter : (if hasOthers then ", " else "").toList ++ parameter.toList = c :: text)
    (h : MentionedIn role.typeName (appendParameter parameter hasOthers lines)) :
    MentionedIn role.typeName lines := by
  simp only [appendParameter] at h
  split at h
  · exact h
  · rename_i cut hcut
    rw [List.append_assoc, hparameter, mentionedIn_cut] at h
    rw [← lines_of_ofSignature? hcut, mentionedIn_cut]
    refine h.imp_right (.imp_left (.imp_left fun h => ?_))
    exact ((Text.infix_append_cons_iff hc).1 h).resolve_right htext

theorem mentionedIn_prependParameter? {channel : Nat} {hasOthers : Bool}
    (hread : prependParameter? (EntryPoint.packedParameter channel) hasOthers lines = some edited)
    (h : MentionedIn role.typeName edited) : MentionedIn role.typeName lines := by
  cases lines with
  | nil => cases hread
  | cons first rest =>
    obtain ⟨header, hheader, rfl⟩ := Option.map_eq_some_iff.1 hread
    have htext := (Signature.text_of_ofText? hheader).1
    let front := header.lead ++ header.returnType ++ header.gap ++ header.name ++ header.space
    have hfront : header.text = front ++ '(' :: header.rest := by
      simp [Header.text, Header.front, front]
    -- Behind the channel the rest of the line follows.
    have hline : (String.ofList (header.front ++ (EntryPoint.packedParameter channel).toList
        ++ (if hasOthers then ", " else "").toList ++ header.rest)).toList
        = front ++ '(' :: ("float4 optimizerPackedUV : TEXCOOR".toList
          ++ 'D' :: ((toString channel).toList ++ ((if hasOthers then ", " else "").toList
            ++ header.rest))) := by
      refine String.toList_ofList.trans ?_
      simp only [toList_packedParameter, Header.front, front, List.append_assoc, List.cons_append,
        List.nil_append]
    have hparen : '(' ∉ role.typeName.toList := by cases role <;> decide
    have hletter : 'D' ∉ role.typeName.toList := by cases role <;> decide
    rw [mentionedIn_cons, Mentions, hline, Text.infix_append_cons_iff hparen,
      Text.infix_append_cons_iff hletter] at h
    rw [mentionedIn_cons, Mentions, ← htext, hfront, Text.infix_append_cons_iff hparen]
    refine h.imp_left (.imp_right fun h => ?_)
    rcases h with h | h
    · have hnone : ¬role.typeName.toList <:+: "float4 optimizerPackedUV : TEXCOOR".toList := by
        cases role <;> decide
      exact absurd h hnone
    · refine infix_behind ?_ (infix_behind (not_mem_toString channel) h)
      cases hasOthers <;> decide

end SignatureEdit

/-! ## Entry points -/

namespace EntryPoint

variable {p : Plan} {s : Signature} {source : List String} {entry : EntryPoint}

/-- Whether the parts of a signature mention a structure only if some lines do. -/
structure Quotes (role : CarrierRole) (s : Signature) (source : List String) : Prop where
  returnType : Mentions role.typeName s.returnType → MentionedIn role.typeName source
  name : ∀ q ∈ s.parameters, Mentions role.typeName q.name → MentionedIn role.typeName source
  type : ∀ q ∈ s.parameters, Mentions role.typeName q.type → MentionedIn role.typeName source

/-- The code of a signature is made of its lines, with spaces between them. -/
theorem mentionedIn_of_codeOf (h : role.typeName.toList <:+: (codeOf source).toList) :
    MentionedIn role.typeName source := by
  rw [codeOf, String.toList_intercalate] at h
  obtain ⟨word, hword, hin⟩ := Parameter.exists_word_of_joinWords
    (not_mem_typeName (by decide)) typeName_ne_nil h
  obtain ⟨line, hline, rfl⟩ := List.mem_map.1 hword
  exact ⟨line, (List.mem_filter.1 hline).1, hin⟩

theorem quotes_of_ofText? (h : Signature.ofText? (codeOf source).toList source = some s) :
    Quotes role s source := by
  obtain ⟨hreturn, hparameters⟩ := Signature.pieces_of_ofText? h
  refine ⟨fun hin => ?_, fun q hq hin => ?_, fun q hq hin => ?_⟩
  · exact mentionedIn_of_codeOf (hin.trans hreturn)
  · exact mentionedIn_of_codeOf (hin.trans (hparameters q hq).1)
  · exact mentionedIn_of_codeOf ((hparameters q hq).2 _ (not_mem_typeName (by decide))
      typeName_ne_nil hin)

theorem mentionedIn_of_earlyReturn {returnType : String} (hquotes : Quotes role s source)
    (h : MentionedIn role.typeName (earlyReturn s returnType)) :
    MentionedIn role.typeName source ∨ Mentions role.typeName returnType := by
  have hend : Separates role ")0;" := by cases role <;> decide
  rw [earlyReturn] at h
  split at h
  · rw [mentionedIn_append] at h
    rcases h with ⟨line, hline, h⟩ | h
    · obtain ⟨q, hq, rfl⟩ := List.mem_map.1 hline
      have hparameter := (List.mem_filter.1 hq).1
      have hbetween : Separates role " = (" := by cases role <;> decide
      rcases mentions_of_separates hbetween (mentions_before hend h) with h | h
      · exact .inl (hquotes.name q hparameter h)
      · exact .inl (hquotes.type q hparameter h)
    · have hnone : ¬MentionedIn role.typeName ["return;"] := by cases role <;> decide
      exact absurd h hnone
  · obtain ⟨line, hline, h⟩ := h
    rw [List.mem_singleton.1 hline] at h
    have hin := mentions_before hend h
    rw [Mentions, String.toList_append] at hin
    exact .inr (infix_behind (by decide) hin)

theorem not_mentionedIn_decodeLines : ¬MentionedIn role.typeName decodeLines := by
  rintro ⟨line, hline, h⟩
  rw [decodeLines, List.mem_cons, List.mem_singleton] at hline
  rcases hline with rfl | rfl
  · exact not_mentions (by decide) h
  · exact not_mentions (by decide) h

theorem mentionedIn_of_toggleLines {returnType : String} {meshes : Range}
    (hquotes : Quotes role s source)
    (h : MentionedIn role.typeName (toggleLines s returnType meshes)) :
    MentionedIn role.typeName source ∨ Mentions role.typeName returnType := by
  have hflags : 'O' ∉ (String.intercalate ", "
      (meshes.toList.map fun mesh => "_IsActiveMesh" ++ toString mesh)).toList := by
    refine not_mem_intercalate (by decide) fun flag hflag => ?_
    obtain ⟨mesh, -, rfl⟩ := List.mem_map.1 hflag
    exact not_mem_append (by decide) (not_mem_toString mesh)
  have hswitch : ¬MentionedIn role.typeName ["float optimizerMeshActive[" ++ toString meshes.size
      ++ "] = \x7b " ++ String.intercalate ", "
        (meshes.toList.map fun mesh => "_IsActiveMesh" ++ toString mesh) ++ " \x7d;",
      "if (optimizerMeshActive[meshID - " ++ toString meshes.first ++ "] < 0.5)", "\x7b"] := by
    rw [mentionedIn_cons, mentionedIn_cons, not_or, not_or]
    refine ⟨not_mentions ?_, not_mentions ?_, ?_⟩
    · exact not_mem_append (not_mem_append (not_mem_append (not_mem_append (by decide)
        (not_mem_toString _)) (by decide)) hflags) (by decide)
    · exact not_mem_append (not_mem_append (by decide) (not_mem_toString _)) (by decide)
    · cases role <;> decide
  have hend : ¬MentionedIn role.typeName ["\x7d"] := by cases role <;> decide
  simp only [toggleLines] at h
  rw [mentionedIn_append, mentionedIn_append] at h
  exact mentionedIn_of_earlyReturn hquotes ((h.resolve_right hend).resolve_left hswitch)

/-- The entry point of the vertex stage mentions the structure of its own carrier. -/
theorem mentionedIn_vertex (hquotes : Quotes role s source)
    (hlines : MentionedIn role.typeName lines → MentionedIn role.typeName source)
    (hread : vertex p s lines = .ok entry)
    (h : MentionedIn role.typeName (entry.signature ++ entry.prologue)) :
    MentionedIn role.typeName source ∨ ∃ carrier ∈ entry.carriers, carrier.role = role := by
  simp only [vertex] at hread
  generalize (if p.carries = true then p.vertexCarrier else none) = carrier at hread
  generalize (p.carries && carrier.isNone) = besides at hread
  -- What the return type becomes is the name of the structure.
  have htype : Mentions role.typeName ((carrier.map (·.name)).getD s.returnType) →
      MentionedIn role.typeName source ∨ ∃ c ∈ carrier.toList, c.role = role := by
    intro hmentions
    cases carrier with
    | none => exact .inl (hquotes.returnType hmentions)
    | some c =>
      refine .inr ⟨c, List.mem_singleton_self c, ?_⟩
      have hname : role.typeName.toList <:+: [] ++ c.role.typeName.toList := hmentions
      rcases infix_typeName hname with hnil | hsame
      · exact absurd (List.eq_nil_of_infix_nil hnil) typeName_ne_nil
      · exact hsame.symm
  split at hread
  · cases hread
  · rename_i signature hsignature
    cases hread
    rw [mentionedIn_append] at h
    rcases h with h | h
    · have hedited := SignatureEdit.mentionedIn_prependParameter? hsignature h
      cases carrier with
      | some c =>
        rcases SignatureEdit.mentionedIn_replaceReturnType hedited with hedited | hsame
        · exact .inl (hlines (SignatureEdit.mentionedIn_removeReturnSemantic hedited))
        · exact .inr ⟨c, List.mem_singleton_self c, hsame.symm⟩
      | none =>
        cases besides with
        | false => exact .inl (hlines hedited)
        | true =>
          refine .inl (hlines (SignatureEdit.mentionedIn_appendParameter (c := ',') ?_ ?_ rfl
            hedited))
          · cases role <;> decide
          · cases role <;> decide +kernel
    · have hunpack : ¬MentionedIn role.typeName
          ["optimizerPackedID = (uint)optimizerPackedUV.x;"] := by
        rw [mentionedIn_singleton]
        exact not_mentions (by decide)
      have hhand : ¬MentionedIn role.typeName
          (if besides then ["optimizerPackedIDOut = optimizerPackedID;"] else []) := by
        cases role <;> cases besides <;> decide +kernel
      rw [mentionedIn_append, mentionedIn_append, mentionedIn_append] at h
      have htoggles := h.resolve_left
        (not_or.2 ⟨not_or.2 ⟨hunpack, hhand⟩, not_mentionedIn_decodeLines⟩)
      cases htoggled : p.toggled with
      | none =>
        rw [htoggled] at htoggles
        obtain ⟨line, hline, -⟩ := htoggles
        cases hline
      | some meshes =>
        rw [htoggled] at htoggles
        exact (mentionedIn_of_toggleLines hquotes htoggles).elim .inl htype

/-- The entry point of the fragment stage mentions the structure that brings its input. -/
theorem mentionedIn_fragment (hquotes : Quotes role s source)
    (hlines : MentionedIn role.typeName lines → MentionedIn role.typeName source)
    (h : MentionedIn role.typeName ((fragment p s lines).signature ++ (fragment p s lines).prologue)) :
    MentionedIn role.typeName source ∨
      ∃ carrier ∈ (fragment p s lines).carriers, carrier.role = role := by
  have hending : ¬MentionedIn role.typeName
      (decodeLines ++ if p.hasTextures then [SlicedTexture.usageStatement] else []) := by
    rw [mentionedIn_append, not_or]
    refine ⟨not_mentionedIn_decodeLines, ?_⟩
    cases role <;> cases p.hasTextures <;> decide +kernel
  rw [fragment] at h ⊢
  split at h
  · rename_i carrier input signature hunwrap
    simp only [unwrapInput?, Option.bind_eq_bind, Option.bind_eq_some_iff] at hunwrap
    obtain ⟨found, -, parameter, hparameter, edited, hedited, heq⟩ := hunwrap
    cases heq
    rw [mentionedIn_append] at h
    rcases h with h | h
    · rcases SignatureEdit.mentionedIn_replaceParameter? hedited h with h | hsame
      · exact .inl (hlines h)
      · exact .inr ⟨carrier, List.mem_singleton_self carrier, hsame.symm⟩
    · have hbetween : Separates role " " := by cases role <;> decide
      have hpayload : Separates role " = optimizerInput.payload;" := by cases role <;> decide
      have hnumber : ¬Mentions role.typeName
          "optimizerPackedID = optimizerInput.optimizerPackedID;" := not_mentions (by decide)
      rw [mentionedIn_append, mentionedIn_cons, mentionedIn_singleton] at h
      rcases (h.resolve_right hending).resolve_right hnumber |> mentions_before hpayload
        |> mentions_of_separates hbetween with h | h
      · exact .inl (hquotes.type _ (List.mem_of_find?_eq_some hparameter) h)
      · exact .inl (hquotes.name _ (List.mem_of_find?_eq_some hparameter) h)
  · have hnumber : ¬Mentions role.typeName "optimizerPackedID = optimizerPackedIDIn;" :=
      not_mentions (by decide)
    rw [mentionedIn_append, mentionedIn_cons] at h
    have hedited := h.resolve_right (not_or.2 ⟨hnumber, hending⟩)
    -- A comma comes first if there are other parameters.
    cases hempty : s.parameters.isEmpty with
    | true =>
      rw [hempty] at hedited
      refine .inl (hlines (SignatureEdit.mentionedIn_appendParameter (c := 'n') ?_ ?_ rfl hedited))
      · cases role <;> decide
      · cases role <;> decide
    | false =>
      rw [hempty] at hedited
      refine .inl (hlines (SignatureEdit.mentionedIn_appendParameter (c := ',') ?_ ?_ rfl hedited))
      · cases role <;> decide
      · cases role <;> decide

/-- **An entry point mentions only structures that it refers to**, unless the lines that it is made
from mention them. -/
theorem mentionedIn_adapt {stage : Stage} (hp : p.IsTyped)
    (hread : adapt stage p source = .ok entry)
    (h : MentionedIn role.typeName (entry.signature ++ entry.prologue)) :
    MentionedIn role.typeName source ∨ ∃ carrier ∈ entry.carriers, carrier.role = role := by
  rw [adapt] at hread
  dsimp only at hread
  split at hread
  · cases hread
  · rename_i s hs
    have hquotes : Quotes role s source := quotes_of_ofText? hs
    have hclear : MentionedIn role.typeName (SignatureEdit.clearVoid source) →
        MentionedIn role.typeName source := SignatureEdit.mentionedIn_clearVoid
    cases stage with
    | vertex => exact mentionedIn_vertex hquotes hclear hread h
    | hull =>
      cases hread
      rw [List.append_nil] at h
      exact .inl (hclear h)
    | domain =>
      cases hread
      rw [List.append_nil] at h
      exact .inl (hclear h)
    | geometry =>
      obtain ⟨vertexCarrier, geometryCarrier, hvertex, hgeometry, hcarriers⟩ :=
        carriers_of_geometry hread
      rw [hcarriers]
      cases role with
      | vertex => exact .inr ⟨vertexCarrier, by simp, (hp .vertex vertexCarrier hvertex).1⟩
      | geometry => exact .inr ⟨geometryCarrier, by simp, (hp .geometry geometryCarrier hgeometry).1⟩
    | fragment =>
      cases hread
      exact mentionedIn_fragment hquotes hclear h

end EntryPoint

end

end ShaderMerge.Variant
