import ShaderMerge.Proofs.Text.Pieces
import ShaderMerge.Proofs.Variant.SignatureEdit
import ShaderMerge.Variant.Substitution

/-!
# The form of a declaration that is recognised

Of the many ways in which a shader may declare a property, one is recognised: a type, a name and a
semicolon on one line, with `uniform` in front or without (`declaration?_eq_some_iff`).  A line with
several names, a qualifier, a register, a semantic or an initial value is not of this form, and neither
is one piece of a declaration that is split over several lines.
-/

namespace ShaderMerge

/-! ## Declarations -/

namespace Variant

open Text (IsName IsBlanks Stops)

/-- Whether a text is a type, a name and a semicolon. -/
def IsBare (type name cs : List Char) : Prop :=
  IsName type ∧ IsName name ∧ ∃ gap tail, gap ≠ [] ∧ IsBlanks gap ∧ IsBlanks tail ∧
    cs = type ++ gap ++ name ++ tail ++ [';']

/-- Whether a line declares a name in the one form that is recognised: a type, a name and a semicolon
on one line, and `uniform` perhaps in front. -/
def IsDeclaration (type name line : String) : Prop :=
  IsBare type.toList name.toList line.toList ∨
    ∃ blanks cs, blanks ≠ [] ∧ IsBlanks blanks ∧ IsBare type.toList name.toList cs ∧
      line.toList = "uniform".toList ++ blanks ++ cs

theorem IsDeclaration.isName {type name line : String} (h : IsDeclaration type name line) :
    IsName type.toList ∧ IsName name.toList := by
  rcases h with hbare | ⟨_, _, -, -, hbare, -⟩
  · exact ⟨hbare.1, hbare.2.1⟩
  · exact ⟨hbare.1, hbare.2.1⟩

namespace Substitution

variable {cs type name : List Char}

theorem bareDeclaration?_eq_some_iff :
    bareDeclaration? cs = some (type, name) ↔ IsBare type name cs := by
  have hsemicolon : Text.isBlank ';' = false := by decide
  constructor
  · intro h
    simp only [bareDeclaration?, Option.bind_eq_bind, Option.bind_eq_some_iff] at h
    obtain ⟨⟨type', behind⟩, htype, rest, hblanks, ⟨name', tail⟩, hname, h⟩ := h
    dsimp only at hblanks hname h
    split at h
    · rename_i hend
      cases h
      obtain ⟨rfl, hisType, -⟩ := Text.name?_eq_some_iff.1 htype
      obtain ⟨gap, hne, hgap, rfl, -⟩ := Text.afterBlanks?_eq_some_iff.1 hblanks
      obtain ⟨rfl, hisName, -⟩ := Text.name?_eq_some_iff.1 hname
      obtain ⟨blanks, hisBlanks, rfl⟩ := (Text.skipBlanks_eq_iff hsemicolon).1 hend
      exact ⟨hisType, hisName, gap, blanks, hne, hgap, hisBlanks, by simp⟩
    · cases h
  · rintro ⟨htype, hname, gap, tail, hne, hgap, htail, rfl⟩
    have hend : Stops Text.isNameChar (tail ++ [';']) := by
      cases tail with
      | nil =>
        intro c hc
        cases hc
        decide
      | cons c tail => exact htail.stops_isNameChar (List.cons_ne_nil c tail) [';']
    have hfirst : Text.name? (type ++ (gap ++ (name ++ (tail ++ [';']))))
        = some (type, gap ++ (name ++ (tail ++ [';']))) :=
      Text.name?_eq_some_iff.2 ⟨rfl, htype, hgap.stops_isNameChar hne _⟩
    have hsecond : Text.afterBlanks? (gap ++ (name ++ (tail ++ [';'])))
        = some (name ++ (tail ++ [';'])) :=
      Text.afterBlanks?_eq_some_iff.2 ⟨gap, hne, hgap, rfl, hname.stops_isBlank _⟩
    have hthird : Text.name? (name ++ (tail ++ [';'])) = some (name, tail ++ [';']) :=
      Text.name?_eq_some_iff.2 ⟨rfl, hname, hend⟩
    have hlast : Text.skipBlanks (tail ++ [';']) = [';'] :=
      (Text.skipBlanks_eq_iff hsemicolon).2 ⟨tail, htail, rfl⟩
    simp only [List.append_assoc]
    simp [bareDeclaration?, hfirst, hsecond, hthird, hlast]

/-- Behind `uniform` a declaration goes on with a type, which ends no declaration. -/
theorem bareDeclaration?_of_uniform {blanks : List Char} (hne : blanks ≠ [])
    (hblanks : IsBlanks blanks) (h : IsBare type name cs) :
    bareDeclaration? ("uniform".toList ++ blanks ++ cs) = none := by
  obtain ⟨htype, hname, gap, tail, hgap, hisGap, -, rfl⟩ := h
  simp only [List.append_assoc]
  have huniform : IsName "uniform".toList :=
    ⟨'u', "niform".toList, rfl, by decide, List.all_eq_true.1 (by decide)⟩
  have hfirst := Text.name?_eq_some_iff.2 ⟨rfl, huniform,
    hblanks.stops_isNameChar hne (type ++ (gap ++ (name ++ (tail ++ [';']))))⟩
  have hsecond := Text.afterBlanks?_eq_some_iff.2 ⟨blanks, hne, hblanks, rfl,
    htype.stops_isBlank (gap ++ (name ++ (tail ++ [';'])))⟩
  have hthird := Text.name?_eq_some_iff.2 ⟨rfl, htype,
    hisGap.stops_isNameChar hgap (name ++ (tail ++ [';']))⟩
  have hlast := Text.skipBlanks_append hisGap (hname.stops_isBlank (tail ++ [';']))
  have hother : name ++ (tail ++ [';']) ≠ [';'] := by
    obtain ⟨c, more, rfl, hstart, -⟩ := hname
    intro heq
    cases (List.cons.inj heq).1
    exact absurd hstart (by decide)
  rw [bareDeclaration?, hfirst, Option.bind_eq_bind, Option.bind_some]
  dsimp only
  rw [hsecond, Option.bind_eq_bind, Option.bind_some, hthird, Option.bind_some]
  dsimp only
  rw [hlast, if_neg hother]

/-- **One form of declarations is recognised.** -/
theorem declaration?_eq_some_iff {line type name : String} :
    declaration? line = some (type, name) ↔ IsDeclaration type name line := by
  have huniform : ∀ {type name : List Char},
      ((Text.after? "uniform" line.toList).bind Text.afterBlanks?).bind bareDeclaration?
        = some (type, name) ↔
      ∃ blanks cs, blanks ≠ [] ∧ IsBlanks blanks ∧ IsBare type name cs ∧
        line.toList = "uniform".toList ++ blanks ++ cs := by
    intro type name
    simp only [Option.bind_eq_some_iff, Text.after?_eq_some_iff, Text.afterBlanks?_eq_some_iff,
      bareDeclaration?_eq_some_iff]
    constructor
    · rintro ⟨cs, ⟨behind, hline, blanks, hne, hblanks, rfl, -⟩, hbare⟩
      exact ⟨blanks, cs, hne, hblanks, hbare, by rw [hline, List.append_assoc]⟩
    · rintro ⟨blanks, cs, hne, hblanks, hbare, hline⟩
      have hstops : Stops Text.isBlank cs := by
        obtain ⟨htype, -, gap, tail, -, -, -, rfl⟩ := hbare
        simp only [List.append_assoc]
        exact htype.stops_isBlank _
      exact ⟨cs, ⟨blanks ++ cs, by rw [hline, List.append_assoc], blanks, hne, hblanks, rfl, hstops⟩,
        hbare⟩
  have hfound : declaration? line = some (type, name) ↔
      (((Text.after? "uniform" line.toList).bind Text.afterBlanks?).bind bareDeclaration?).or
        (bareDeclaration? line.toList) = some (type.toList, name.toList) := by
    rw [declaration?, Option.map_eq_some_iff]
    constructor
    · rintro ⟨⟨type', name'⟩, hor, heq⟩
      cases heq
      simpa using hor
    · intro hor
      exact ⟨_, hor, by simp⟩
  rw [hfound, Option.or_eq_some_iff, huniform, bareDeclaration?_eq_some_iff, IsDeclaration, or_comm]
  constructor
  · rintro (⟨-, hbare⟩ | hlead)
    · exact .inl hbare
    · exact .inr hlead
  · rintro (hbare | hlead)
    · refine .inl ⟨?_, hbare⟩
      -- A line that declares something without `uniform` does not do so behind it.
      rw [Option.eq_none_iff_forall_ne_some]
      rintro ⟨type', name'⟩ hother
      obtain ⟨blanks, cs, hne, hblanks, hbare', hline⟩ := huniform.1 hother
      have hnone := bareDeclaration?_of_uniform hne hblanks hbare'
      rw [← hline, bareDeclaration?_eq_some_iff.2 hbare] at hnone
      cases hnone
    · exact .inr hlead

end Substitution

end Variant

end ShaderMerge
