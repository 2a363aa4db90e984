import ShaderMerge.Proofs.Variant.SignatureEdit

/-!
# Generated lines are neutral

What a variant adds to a shader opens as many braces as it closes and has no markers: the prelude
of a program block, the definitions of carriers, the prologue of an entry point, the properties, and
the notes of the two filters.
-/

namespace ShaderMerge.Variant

/-! ## Declarations -/

theorem neutral_definition (c : Carrier) : Neutral c.definition := by
  have hfront : hasPlainChar ("struct " ++ c.name) = true :=
    hasPlainChar_append_left _ (hasPlainChar_of_head (by decide))
  have hpayload : hasPlainChar (c.payload ++ " payload" ++ (c.semantic.map (" : " ++ ·)).getD ""
      ++ ";") = true :=
    hasPlainChar_append_left _ (hasPlainChar_append_left _
      (hasPlainChar_append_right _ (hasPlainChar_of_head (by decide))))
  have hnumber : hasPlainChar ("nointerpolation uint optimizerPackedID : " ++ packedSemantic ++ ";")
      = true :=
    hasPlainChar_append_left _ (hasPlainChar_append_left _ (hasPlainChar_of_head (by decide)))
  have hwrapper : hasPlainChar (c.name ++ " " ++ c.role.wrapper ++ "(" ++ c.payload
      ++ " payload, uint id) \x7b " ++ c.name
      ++ " output; output.payload = payload; output.optimizerPackedID = id; return output; \x7d")
      = true :=
    hasPlainChar_append_right _ (hasPlainChar_of_head (by decide))
  exact .cons hfront ((Neutral.block (.inr rfl) (.cons hpayload (.single hnumber))).append
    (.single hwrapper))

theorem neutral_declarations (t : SlicedTexture) : Neutral t.declarations := by
  -- Three declarations, the structure with its eleven members, and seven lines behind it.
  refine (?_ : Neutral ([_, _, _] ++ ("\x7b" :: ([_, _, _, _, _, _, _, _, _, _, _] ++ ["\x7d;"])
    ++ [_, _, _, _, _, _, _])))
  refine .append (.of_plainChars ?_) (.append (.block (.inr rfl) (.of_plainChars ?_))
    (.of_plainChars ?_))
  all_goals
    simp only [List.forall_mem_cons, List.not_mem_nil, false_imp_iff, implies_true, and_true]
    and_intros
  all_goals
    repeat with_reducible apply hasPlainChar_append_left
    first
    | exact hasPlainChar_of_head (by decide)
    | exact hasPlainChar_of_second (by decide)

theorem neutral_usageFunction (textures : List SlicedTexture) :
    Neutral (SlicedTexture.usageFunction textures) := by
  have hsums : Neutral (textures.map fun t =>
      "sum += " ++ t.arrayName ++ ".SampleLevel(" ++ t.samplerName ++ ", float3(0, 0, 0), 0);") := by
    apply Neutral.of_map
    intro t _
    iterate 4 apply hasPlainChar_append_left
    exact hasPlainChar_of_head (by decide)
  have hbody : Neutral ("float4 sum = 0;" :: textures.map (fun t =>
      "sum += " ++ t.arrayName ++ ".SampleLevel(" ++ t.samplerName ++ ", float3(0, 0, 0), 0);")
      ++ ["return sum.x;"]) :=
    .append (.cons (hasPlainChar_of_head (by decide)) hsums)
      (.single (hasPlainChar_of_head (by decide)))
  have hname : hasPlainChar "float optimizerDummyTextureUsage()" = true :=
    hasPlainChar_of_head (by decide)
  have hblock := Neutral.cons hname (Neutral.block (.inl rfl) hbody)
  simpa [SlicedTexture.usageFunction] using hblock

theorem hasPlainChar_declaration? {s : Selection} {property line : String}
    (h : s.declaration? property = some line) : hasPlainChar line = true := by
  rw [Selection.declaration?.eq_def] at h
  split at h
  · cases h
    iterate 8 apply hasPlainChar_append_left
    exact hasPlainChar_of_head (by decide)
  · cases h

theorem neutral_texturePrelude (t : Substitution) (pass : Pass) :
    Neutral (Program.texturePrelude t pass) := by
  rw [Program.texturePrelude]
  split
  · exact .nil
  · refine .append (.append (.single (hasPlainChar_of_head (by decide)))
      (.flatMap _ fun texture _ => ?_)) ?_
    · refine .append (neutral_declarations texture) ?_
      cases hslice : texture.sliceDeclaration? with
      | none => exact .nil
      | some line => exact .single (hasPlainChar_declaration? hslice)
    · split
      · exact neutral_usageFunction t.textures
      · exact .nil

/-- The declarations at the start of a program block. -/
theorem neutral_prelude (t : Substitution) (plan : Plan) (pass : Pass) :
    Neutral (Program.prelude t plan pass) := by
  rw [Program.prelude]
  refine .append (.append (.append (.append (.append (.single ?_) ?_) (.of_map _ ?_)) (.of_map _ ?_))
    (neutral_texturePrelude t pass)) (.of_plainChars ?_)
  · exact hasPlainChar_append_left _ (hasPlainChar_of_head (by decide))
  · split
    · exact .cons (hasPlainChar_of_head (by decide)) (.cons (hasPlainChar_of_head (by decide))
        (.single (hasPlainChar_of_head (by decide))))
    · exact .nil
  · intro mesh _
    exact hasPlainChar_append_left _ (hasPlainChar_append_left _ (hasPlainChar_of_head (by decide)))
  · intro name _
    exact hasPlainChar_append_left _ (hasPlainChar_append_left _ (hasPlainChar_of_head (by decide)))
  · intro line hline
    obtain ⟨e, -, he⟩ := List.mem_filterMap.1 hline
    exact hasPlainChar_declaration? he

/-! ## Entry points -/

theorem neutral_earlyReturn (s : Signature) (returnType : String) :
    Neutral (EntryPoint.earlyReturn s returnType) := by
  rw [EntryPoint.earlyReturn]
  split
  · refine .append (.of_map _ fun p _ => ?_) (.single (hasPlainChar_of_head (by decide)))
    exact hasPlainChar_append_left _ (hasPlainChar_append_left _
      (hasPlainChar_append_right _ (hasPlainChar_of_head (by decide))))
  · exact .single (hasPlainChar_append_left _ (hasPlainChar_append_left _
      (hasPlainChar_of_head (by decide))))

theorem neutral_toggleLines (s : Signature) (returnType : String) (meshes : Range) :
    Neutral (EntryPoint.toggleLines s returnType meshes) := by
  have hfront : ∀ a b : String, hasPlainChar a = true → hasPlainChar b = true →
      Neutral ([a, b, "\x7b"] ++ EntryPoint.earlyReturn s returnType ++ ["\x7d"]) :=
    fun a b ha hb => .cons ha (.cons hb (.block (.inl rfl) (neutral_earlyReturn s returnType)))
  refine hfront _ _ ?_ ?_
  · iterate 4 apply hasPlainChar_append_left
    exact hasPlainChar_of_head (by decide)
  · iterate 2 apply hasPlainChar_append_left
    exact hasPlainChar_of_head (by decide)

theorem neutral_decodeLines : Neutral EntryPoint.decodeLines :=
  .cons (hasPlainChar_of_head (by decide)) (.single (hasPlainChar_of_head (by decide)))

/-- What an entry point that is written anew does to the structure of the text: nothing. -/
structure KeepsStructure (lines : List String) (entry : EntryPoint) : Prop where
  signature : entry.signature.filter isStructural = lines.filter isStructural
  prologue : Neutral entry.prologue

theorem keepsStructure_vertex {p : Plan} {s : Signature} {lines : List String} {entry : EntryPoint}
    (h : EntryPoint.vertex p s lines = .ok entry) : KeepsStructure lines entry := by
  simp only [EntryPoint.vertex] at h
  generalize (if p.carries = true then p.vertexCarrier else none) = carrier at h
  generalize (p.carries && carrier.isNone) = besides at h
  split at h
  · cases h
  · rename_i signature hsignature
    cases h
    refine ⟨?_, ?_⟩
    · rw [SignatureEdit.filter_prependParameter? hsignature]
      split
      · rw [SignatureEdit.filter_replaceReturnType, SignatureEdit.filter_removeReturnSemantic]
      · split
        · exact SignatureEdit.filter_appendParameter _ _ lines
        · rfl
    · refine .append (.append (.append (.single (hasPlainChar_of_head (by decide))) ?_)
        neutral_decodeLines) ?_
      · split
        · exact .single (hasPlainChar_of_head (by decide))
        · exact .nil
      · cases p.toggled with
        | none => exact .nil
        | some meshes => exact neutral_toggleLines s _ meshes

theorem some_of_found {α : Type} {fault : SignatureFault} {x : Option α} {a : α}
    (h : EntryPoint.found fault x = .ok a) : x = some a := by
  cases x with
  | none => cases h
  | some b => rw [Except.ok.inj h]

theorem neutral_unwrapArray (input : Parameter) (size : String) :
    Neutral (EntryPoint.unwrapArray input size) := by
  refine .cons ?_ (.cons ?_ (.single (hasPlainChar_of_head (by decide))))
  · iterate 4 apply hasPlainChar_append_left
    exact hasPlainChar_append_right _ (hasPlainChar_of_head (by decide))
  · iterate 4 apply hasPlainChar_append_left
    exact hasPlainChar_of_head (by decide)

theorem keepsStructure_geometry {p : Plan} {s : Signature} {lines : List String}
    {entry : EntryPoint} (h : EntryPoint.geometry p s lines = .ok entry) :
    KeepsStructure lines entry := by
  rw [EntryPoint.geometry] at h
  cases hfault : EntryPoint.geometryOrFault p s lines with
  | error fault =>
    rw [hfault] at h
    cases h
  | ok found =>
    rw [hfault] at h
    cases h
    rw [EntryPoint.geometryOrFault.eq_def] at hfault
    split at hfault
    · obtain ⟨⟨input, size⟩, -, hfault⟩ := exists_ok_of_bind hfault
      obtain ⟨⟨stream, vertexType⟩, -, hfault⟩ := exists_ok_of_bind hfault
      obtain ⟨first, hfirst, hfault⟩ := exists_ok_of_bind hfault
      obtain ⟨second, hsecond, hfault⟩ := exists_ok_of_bind hfault
      cases hfault
      refine ⟨?_, (neutral_unwrapArray input size).append neutral_decodeLines⟩
      rw [SignatureEdit.filter_replaceStreamVertex? (some_of_found hsecond)]
      refine SignatureEdit.filter_replaceParameter? ⟨' ', ?_, by decide⟩ (some_of_found hfirst)
      rw [String.toList_append]
      exact List.mem_append_right _ (by decide)
    · cases hfault

theorem keepsStructure_fragment (p : Plan) (s : Signature) (lines : List String) :
    KeepsStructure lines (EntryPoint.fragment p s lines) := by
  have hending : Neutral (EntryPoint.decodeLines
      ++ if p.hasTextures then [SlicedTexture.usageStatement] else []) := by
    refine .append neutral_decodeLines ?_
    split
    · exact .single (hasPlainChar_of_head (by decide))
    · exact .nil
  rw [EntryPoint.fragment]
  split
  · rename_i carrier input signature hunwrap
    simp only [EntryPoint.unwrapInput?, Option.bind_eq_bind, Option.bind_eq_some_iff] at hunwrap
    obtain ⟨_, -, _, -, edited, hedited, heq⟩ := hunwrap
    cases heq
    refine ⟨SignatureEdit.filter_replaceParameter? ⟨' ', ?_, by decide⟩ hedited,
      .cons (hasPlainChar_append_right _ (hasPlainChar_of_head (by decide)))
        (.cons (hasPlainChar_of_head (by decide)) hending)⟩
    rw [String.toList_append]
    exact List.mem_append_right _ (by decide)
  · exact ⟨SignatureEdit.filter_appendParameter _ _ lines,
      .cons (hasPlainChar_of_head (by decide)) hending⟩

/-- An entry point that is written anew keeps the structure of its signature, and its prologue is
neutral. -/
theorem keepsStructure_adapt {stage : Stage} {p : Plan} {lines : List String} {entry : EntryPoint}
    (h : EntryPoint.adapt stage p lines = .ok entry) : KeepsStructure lines entry := by
  have hclear : ∀ {e : EntryPoint}, KeepsStructure (SignatureEdit.clearVoid lines) e →
      KeepsStructure lines e :=
    fun he => ⟨he.signature.trans (SignatureEdit.filter_clearVoid lines), he.prologue⟩
  rw [EntryPoint.adapt] at h
  dsimp only at h
  split at h
  · cases h
  · cases stage with
    | vertex => exact hclear (keepsStructure_vertex h)
    | hull =>
      cases h
      exact hclear ⟨rfl, .nil⟩
    | domain =>
      cases h
      exact hclear ⟨rfl, .nil⟩
    | geometry => exact hclear (keepsStructure_geometry h)
    | fragment =>
      cases h
      exact hclear (keepsStructure_fragment p _ _)

/-! ## Properties -/

theorem hasPlainChar_declare? {t : Substitution} {type name line : String}
    (h : t.declare? type name = some line) : hasPlainChar line = true := by
  rw [Substitution.declare?] at h
  split at h
  · cases h
    iterate 6 apply hasPlainChar_append_left
    exact hasPlainChar_of_head (by decide)
  · split at h
    · cases h
      iterate 4 apply hasPlainChar_append_left
      exact hasPlainChar_of_head (by decide)
    · cases h

theorem neutral_prologue (r : Registers) (mesh : String) : Neutral (r.prologue mesh) := by
  rw [Registers.prologue]
  split
  · exact .nil
  · refine .cons ?_ (.single ?_)
    · iterate 4 apply hasPlainChar_append_left
      exact hasPlainChar_of_head (by decide)
    · iterate 6 apply hasPlainChar_append_left
      exact hasPlainChar_of_head (by decide)

theorem neutral_assignments (t : Substitution) (declared : List String) :
    Neutral (t.assignments declared) := by
  rw [Substitution.assignments]
  refine .append (.append ?_ (.of_plainChars ?_)) (.of_map _ fun texture _ => ?_)
  · split
    · exact neutral_prologue t.registers _
    · exact .nil
  · intro line hline
    obtain ⟨name, -, hname⟩ := List.mem_filterMap.1 hline
    obtain ⟨expression, -, rfl⟩ := Option.map_eq_some_iff.1 hname
    exact hasPlainChar_append_left _ (hasPlainChar_append_left _
      (hasPlainChar_append_right _ (hasPlainChar_of_head (by decide))))
  · exact hasPlainChar_append_left _ (hasPlainChar_append_left _
      (hasPlainChar_append_right _ (hasPlainChar_of_head (by decide))))

theorem head?_append_left {c : Char} {first : String} (second : String)
    (h : first.toList.head? = some c) : (first ++ second).toList.head? = some c := by
  rw [String.toList_append, List.head?_append, h]
  rfl

/-- Every added property is hidden from the inspector. -/
theorem head?_addedProperties {r : Request} {p : AddedProperty} (h : p ∈ r.addedProperties) :
    p.line.toList.head? = some '[' := by
  have hhidden : ∀ name displayName default,
      (PropertyLine.hiddenFloat name displayName default).toList.head? = some '[' := by
    intro name displayName default
    iterate 5 apply head?_append_left
    decide
  simp only [Request.addedProperties, List.mem_append] at h
  rcases h with (h | h) | h
  · split at h
    · obtain ⟨mesh, -, rfl⟩ := List.mem_map.1 h
      exact hhidden _ _ _
    · cases h
  · split at h
    · cases h
    · rw [List.mem_singleton] at h
      rw [h]
      exact hhidden _ _ _
  · obtain ⟨⟨name, line⟩, hline, rfl⟩ := List.mem_map.1 h
    obtain ⟨place, -, heq⟩ := List.mem_map.1 hline
    cases heq
    iterate 8 apply head?_append_left
    decide

theorem hasPlainChar_of_head? {c : Char} {line : String} (h : line.toList.head? = some c)
    (hc : isStructuralChar c = false) : hasPlainChar line = true :=
  List.any_eq_true.2 ⟨c, List.mem_of_head? h, by simp [hc]⟩

theorem neutral_added (r : Request) : Neutral (r.addedProperties.map AddedProperty.line) :=
  .of_map _ fun _ hp => hasPlainChar_of_head? (head?_addedProperties hp) (by decide)

/-! ## Notes -/

theorem hasPlainChar_of_isMarked {line : String} (h : Directive.isMarked line = true) :
    hasPlainChar line = true :=
  hasPlainChar_of_head? (beq_iff_eq.1 h) (by decide)

theorem isMarked_of_ofLine? {line : String} {directive : Directive}
    (h : Directive.ofLine? line = some directive) : Directive.isMarked line = true := by
  rw [Directive.ofLine?] at h
  split at h
  · rename_i heq
    rw [Directive.isMarked, heq]
    rfl
  · cases h

/-- A line that no directive of a conditional group can be, is none. -/
theorem ofLine_of_not_isMarked {line : String} (h : Directive.isMarked line = false) :
    Condition.Control.ofLine line = .plain := by
  cases hdirective : Directive.ofLine? line with
  | none => rw [Condition.Control.ofLine, hdirective]
  | some directive =>
    rw [isMarked_of_ofLine? hdirective] at h
    cases h

theorem neutral_endArm (g : Condition.Group) (changes : Condition.Frame) :
    Neutral (g.endArm changes).2.1 := by
  rw [Condition.Group.endArm.eq_def]
  split
  · exact .nil
  · exact .nil
  · split
    · exact .nil
    · exact .single (hasPlainChar_append_left _ (hasPlainChar_append_left _
        (hasPlainChar_of_head (by decide))))

theorem neutral_pass (f : Condition.Filter) : Neutral f.pass.written := by
  rw [Condition.Filter.pass]
  split <;> exact .nil

theorem neutral_openGroup (f : Condition.Filter) (value : Truth) {line : String}
    (h : Directive.isMarked line = true) : Neutral (f.openGroup value line).written := by
  rw [Condition.Filter.openGroup]
  split
  · dsimp only
    split
    · exact .nil
    · exact .cons (hasPlainChar_of_isMarked h) .nil
  · exact .nil

theorem neutral_nextArm (f : Condition.Filter) (condition : Option String) :
    Neutral (f.nextArm condition).written := by
  rw [Condition.Filter.nextArm.eq_def]
  split
  · exact .nil
  · rename_i g outer hgroups
    split
    · exact neutral_pass f
    · have hnote := neutral_endArm g f.scopes.pop.1
      have helse : ∀ written : Bool, Neutral (if written = true then ["#else"] else []) := by
        intro written
        split
        · exact .single (hasPlainChar_of_head (by decide))
        · exact .nil
      dsimp only
      split
      · exact hnote
      · split
        · exact hnote.append (helse _)
        · split
          · exact hnote
          · exact hnote.append (helse _)
          · refine hnote.append (.single (hasPlainChar_append_left _ ?_))
            split
            · exact hasPlainChar_of_head (by decide)
            · exact hasPlainChar_of_head (by decide)

theorem neutral_closeGroup (f : Condition.Filter) : Neutral f.closeGroup.written := by
  rw [Condition.Filter.closeGroup.eq_def]
  split
  · exact .nil
  · rename_i g outer hgroups
    split
    · exact neutral_pass _
    · refine (neutral_endArm g f.scopes.pop.1).append ?_
      split
      · exact .single (hasPlainChar_of_head (by decide))
      · exact .nil

theorem neutral_define (f : Condition.Filter) (name : String) (isDefined : Bool) :
    Neutral (f.define name isDefined).written := by
  rw [Condition.Filter.define]
  split
  · exact .nil
  · exact neutral_pass f

/-- The lines that the filter of the conditional groups writes. -/
theorem neutral_feed (f : Condition.Filter) (line : String) : Neutral (f.feed line).written := by
  cases hmarked : Directive.isMarked line with
  | false =>
    rw [Condition.Filter.feed, ofLine_of_not_isMarked hmarked]
    exact neutral_pass f
  | true =>
    rw [Condition.Filter.feed.eq_def]
    split
    · split
      · exact neutral_openGroup _ _ hmarked
      · exact neutral_openGroup _ _ hmarked
    · exact neutral_openGroup _ _ hmarked
    · exact neutral_openGroup _ _ hmarked
    · exact neutral_nextArm f _
    · exact neutral_nextArm f none
    · exact neutral_closeGroup f
    · exact neutral_define f _ true
    · exact neutral_define f _ false
    · exact neutral_pass f

/-- The lines that the filter of the regions writes. -/
theorem neutral_feedRegions (f : Region.Filter) (line : String) :
    Neutral (f.feed line).written := by
  simp only [Region.Filter.feed]
  split
  · rw [Region.Filter.drop.eq_def]
    split
    · exact .nil
    · exact .single (hasPlainChar_append_left _ (hasPlainChar_append_left _
        (hasPlainChar_of_head (by decide))))
    · exact .nil
    · exact .nil
  · split
    · exact .nil
    · exact .nil
    · split <;> exact .nil

end ShaderMerge.Variant
