import ShaderMerge.Proofs.Variant.Readings

/-!
# Declarations that stay as they are

A line at the place of declarations, of a program block or of a constant buffer in it, is written anew
if it is a declaration of a property with a substitute in the one form that is recognised.  Every other
line stays as it is, unless it declares a texture that is served from slices (`renews_of_variant`).  So
a property that is declared in any other form stays a uniform of the shader, and all materials share
its value: with several names, a register, a semantic or an initial value on the line, with a qualifier
other than `uniform`, or in several lines.
-/

namespace ShaderMerge.Variant

/-- What a program block writes for a line at the place of declarations. -/
structure Renews (t : Substitution) (p : Program) (text : String) (lines : List String) : Prop where
  /-- The declaration of a texture that is served from slices is left out. -/
  texture : t.declaresTexture text = true → lines = []
  /-- A declaration takes the place of one in the form that is recognised, or in a constant buffer
  the one behind it. -/
  property : t.declaresTexture text = false → ∀ type name line, IsDeclaration type name text →
    t.declare? type name = some line → lines = if p.buffer.isSome then [] else [line]
  /-- Every other line stays. -/
  other : t.declaresTexture text = false →
    (∀ type name, IsDeclaration type name text → t.declare? type name = none) → lines = [text]
  /-- A line stays that has a character which is of no name, no blank and no semicolon. -/
  foreign : t.declaresTexture text = false → ∀ c ∈ text.toList,
    Text.isNameChar c = false → Text.isBlank c = false → c ≠ ';' → lines = [text]
  /-- A line stays that does not end in a semicolon. -/
  unended : t.declaresTexture text = false → text.toList.getLast? ≠ some ';' → lines = [text]

/-! ## The characters of a declaration -/

section

variable {type name cs : List Char} {line typeName declared : String}

/-- A declaration of the form that is recognised has names, blanks and one semicolon. -/
theorem IsBare.chars (h : IsBare type name cs) :
    ∀ c ∈ cs, Text.isNameChar c = true ∨ Text.isBlank c = true ∨ c = ';' := by
  obtain ⟨htype, hname, gap, tail, -, hgap, htail, rfl⟩ := h
  have hchars : ∀ word, Text.IsName word → ∀ c ∈ word, Text.isNameChar c = true := by
    rintro word ⟨first, rest, rfl, hstart, hrest⟩
    exact List.forall_mem_cons.2 ⟨Text.isNameChar_of_isNameStart hstart, hrest⟩
  intro c hc
  simp only [List.mem_append, List.mem_singleton] at hc
  rcases hc with (((hc | hc) | hc) | hc) | hc
  · exact .inl (hchars type htype c hc)
  · exact .inr (.inl (hgap c hc))
  · exact .inl (hchars name hname c hc)
  · exact .inr (.inl (htail c hc))
  · exact .inr (.inr hc)

theorem IsBare.getLast? (h : IsBare type name cs) : cs.getLast? = some ';' := by
  obtain ⟨-, -, gap, tail, -, -, -, rfl⟩ := h
  exact List.getLast?_concat

theorem IsDeclaration.chars (h : IsDeclaration typeName declared line) :
    ∀ c ∈ line.toList, Text.isNameChar c = true ∨ Text.isBlank c = true ∨ c = ';' := by
  rcases h with hbare | ⟨blanks, cs, -, hblanks, hbare, hline⟩
  · exact hbare.chars
  · intro c hc
    rw [hline, List.mem_append, List.mem_append] at hc
    rcases hc with (hc | hc) | hc
    · exact .inl (List.all_eq_true.1 (by decide : "uniform".toList.all Text.isNameChar = true) c hc)
    · exact .inr (.inl (hblanks c hc))
    · exact hbare.chars c hc

theorem IsDeclaration.getLast? (h : IsDeclaration typeName declared line) :
    line.toList.getLast? = some ';' := by
  rcases h with hbare | ⟨blanks, cs, -, -, hbare, hline⟩
  · exact hbare.getLast?
  · rw [hline, List.getLast?_append, hbare.getLast?]
    rfl

end

/-! ## What is written -/

/-- The deed of a line at the place of declarations decides what is written. -/
theorem renews_of_writes {t : Substitution} {p : Program} {text : String} {lines : List String}
    (hplace : p.readsDeclaration text = true) (h : Program.Writes t p text (p.deed t text) lines) :
    Renews t p text lines := by
  rw [Program.deed, if_pos hplace] at h
  cases htexture : t.declaresTexture text with
  | true =>
    rw [if_pos htexture] at h
    cases h
    have hno : t.declaresTexture text ≠ false := Bool.ne_false_iff.2 htexture
    exact ⟨fun _ => rfl, fun h => absurd h hno, fun h => absurd h hno, fun h => absurd h hno,
      fun h => absurd h hno⟩
  | false =>
    rw [if_neg (Bool.eq_false_iff.1 htexture)] at h
    -- The other forms are all cases of this one: they are no declarations that are recognised.
    have hother : (∀ type name, IsDeclaration type name text → t.declare? type name = none) →
        lines = [text] := by
      intro hnone
      cases hfound : t.redeclare? text with
      | some found =>
        obtain ⟨type, hform, hdeclare⟩ := Substitution.redeclare?_eq_some_iff.1 hfound
        rw [hnone type found.1 hform] at hdeclare
        cases hdeclare
      | none =>
        rw [hfound] at h
        cases h
        rfl
    refine ⟨fun h => absurd h (Bool.eq_false_iff.1 htexture),
      fun _ type name line hform hdeclare => ?_, fun _ => hother,
      fun _ c hc hname hblank hsemicolon => ?_, fun _ hlast => ?_⟩
    · rw [Substitution.redeclare?_eq_some_iff.2 ⟨type, hform, hdeclare⟩] at h
      dsimp only at h
      split
      · rename_i hbuffer
        rw [if_pos hbuffer] at h
        cases h
        rfl
      · rename_i hbuffer
        rw [if_neg hbuffer] at h
        cases h
        rfl
    · refine hother fun type name hform => ?_
      rcases hform.chars c hc with h | h | h
      · rw [hname] at h
        cases h
      · rw [hblank] at h
        cases h
      · exact absurd h hsemicolon
    · exact hother fun type name hform => absurd hform.getLast? hlast

/-- Whether the lines at the place of declarations are written anew where they have the form that is
recognised, and stay elsewhere. -/
def RenewsDeclarations (t : Substitution) (script : List Stroke) : Prop :=
  ∀ stroke ∈ script, ∀ p text, stroke.read? = some (p, text) →
    (p.filter.feed text).feed = .live → p.readsDeclaration text = true → Renews t p text stroke.lines

/-- **Only declarations of one form are written anew.**  Each live line at the place of declarations is
left out if it declares a sliced texture, gives way to the declaration of a substitute if it is a
declaration in the form that is recognised, and stays as it is in all other cases; the variant is
written all the same.  This holds as long as no included file ends while the signature of an entry point
is held back. -/
theorem renews_of_variant {shader : Shader} {o : Options} {g : GeneratedShader}
    (hvariant : shader.variant o = .ok g) (horderly : Orderly g (Writer.moments shader o))
    (hreleases : ∀ m ∈ Writer.moments shader o, Releases m.before m.event) :
    ∃ t script, Substitution.new shader o = .ok t ∧ IsScript g (Writer.moments shader o) script ∧
      RenewsDeclarations t script := by
  obtain ⟨t, script, ht, hscript, hblocks⟩ := exists_blocks_of_variant hvariant horderly hreleases
  refine ⟨t, script, ht, hscript, fun stroke hstroke p text hread hlive hplace => ?_⟩
  obtain ⟨above, below, rfl⟩ := List.append_of_mem hstroke
  obtain ⟨start, inner, p₀, q, -, -, -, hadvances⟩ := hblocks.exists_advances hread
  have hwrites := hadvances.writes text (by rw [Stroke.text?, hread]; rfl)
  rw [Stroke.deed, hread] at hwrites
  dsimp only at hwrites
  rw [if_pos hlive] at hwrites
  exact renews_of_writes hplace hwrites

/-- A shader that declares two properties in one statement. -/
def twoNamesAtOnce : List String :=
  ["Shader \"S\"", "\x7b", "Properties", "\x7b", "_A (\"A\", Float) = 1", "\x7d", "CGPROGRAM",
    "#pragma vertex vert", "#pragma fragment frag", "float _A, _B;",
    "float4 vert() : SV_Position", "\x7b", "return 0;", "\x7d",
    "float4 frag() : SV_Target", "\x7b", "return _A;", "\x7d", "ENDCG", "\x7d"]

/-- The property stays a uniform, though the variant has a value of it for each material. -/
theorem renews_of_twoNamesAtOnce :
    ∃ shader g, Shader.read? (.ofFiles [("a.shader", twoNamesAtOnce)]) "a.shader" = .ok shader ∧
      shader.variant twoMaterials = .ok g ∧ "float _A, _B;" ∈ g.inlined ∧
      "static float _A;" ∉ g.inlined ∧
      ∃ t script, Substitution.new shader twoMaterials = .ok t ∧
        IsScript g (Writer.moments shader twoMaterials) script ∧
        RenewsDeclarations t script := by
  have hlines : (Project.ofFiles [("a.shader", twoNamesAtOnce)]).readLines? "a.shader"
      = some twoNamesAtOnce :=
    Project.readLines?_ofFiles (by decide +kernel) (by decide +kernel)
  have hcheck : (Shader.read? (.ofFiles [("a.shader", twoNamesAtOnce)]) "a.shader").toOption.any
      (fun shader => (shader.variant twoMaterials).toOption.any fun g : GeneratedShader =>
        decide ("float _A, _B;" ∈ g.inlined ∧ "static float _A;" ∉ g.inlined) &&
          (decide (Orderly g (Writer.moments shader twoMaterials)) &&
            decide (∀ m ∈ Writer.moments shader twoMaterials, Releases m.before m.event)))
        = true := by
    rw [Shader.read?, Include.Sources.load, hlines]
    decide +kernel
  obtain ⟨shader, hread, hany⟩ := exists_ok_of_any hcheck
  obtain ⟨g, hvariant, hg⟩ := exists_ok_of_any hany
  rw [Bool.and_eq_true, Bool.and_eq_true, decide_eq_true_eq, decide_eq_true_eq, decide_eq_true_eq]
    at hg
  obtain ⟨⟨hkept, hnone⟩, horderly, hreleases⟩ := hg
  exact ⟨shader, g, hread, hvariant, hkept, hnone,
    renews_of_variant hvariant horderly hreleases⟩

end ShaderMerge.Variant
