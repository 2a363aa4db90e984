import ShaderMerge.Proofs.Variant.Generated

/-!
# What a line adds to the structure of a program block

`Adds before after new` compares two texts by their structure alone: `after` opens and closes what
`before` does and what the lines `new` do, and its markers are those of `before` and then those of
`new`.  A program block holds some lines back, and it writes and rewrites many more.  Each line that
it reads still adds itself, and nothing else (`steps_line`).
-/

namespace ShaderMerge.Variant

open Include (isMarker)

/-- As far as its structure goes, a text has grown by some lines. -/
structure Adds (before after new : List String) : Prop where
  balance_eq : balance after = balance before + balance new
  markers_eq : after.filter isMarker = before.filter isMarker ++ new.filter isMarker

theorem filter_isStructural_isMarker (lines : List String) :
    (lines.filter isStructural).filter isMarker = lines.filter isMarker := by
  rw [List.filter_filter]
  apply List.filter_congr
  intro line _
  rw [isStructural]
  cases isMarker line <;> simp

theorem filter_isMarker_of_neutral {lines : List String} (h : Neutral lines) :
    lines.filter isMarker = [] := by
  rw [List.filter_eq_nil_iff]
  intro line hline
  rw [h.plain line hline]
  exact Bool.false_ne_true

namespace Adds

variable {before middle after new more lines : List String}

theorem of_filter
    (h : after.filter isStructural = before.filter isStructural ++ new.filter isStructural) :
    Adds before after new where
  balance_eq := by rw [← balance_filter after, h, balance_append, balance_filter, balance_filter]
  markers_eq := by
    rw [← filter_isStructural_isMarker after, h, List.filter_append, filter_isStructural_isMarker,
      filter_isStructural_isMarker]

theorem refl (lines : List String) : Adds lines lines [] :=
  of_filter (by simp)

theorem append (before new : List String) : Adds before (before ++ new) new :=
  of_filter (List.filter_append before new)

theorem trans (h : Adds before middle new) (h' : Adds middle after more) :
    Adds before after (new ++ more) where
  balance_eq := by rw [h'.balance_eq, h.balance_eq, balance_append, Int.add_assoc]
  markers_eq := by rw [h'.markers_eq, h.markers_eq, List.filter_append, List.append_assoc]

/-- Lines in front of both texts. -/
theorem append_left (front : List String) (h : Adds before after new) :
    Adds (front ++ before) (front ++ after) new where
  balance_eq := by rw [balance_append, balance_append, h.balance_eq, Int.add_assoc]
  markers_eq := by rw [List.filter_append, List.filter_append, h.markers_eq, List.append_assoc]

/-- Neutral lines add nothing, wherever they stand. -/
theorem insert (first second : List String) (h : Neutral lines) :
    Adds (first ++ second) (first ++ lines ++ second) [] where
  balance_eq := by
    simp only [balance_append, balance_nil, h.balance_eq]
    omega
  markers_eq := by
    simp only [List.filter_append, filter_isMarker_of_neutral h, List.append_nil, List.filter_nil]

theorem of_neutral (h : Adds before after new) (hnew : Neutral new) : Adds before after [] where
  balance_eq := by rw [h.balance_eq, hnew.balance_eq, balance_nil]
  markers_eq := by rw [h.markers_eq, filter_isMarker_of_neutral hnew, List.filter_nil]

theorem append_neutral (h : Adds before after new) (hlines : Neutral lines) :
    Adds before (after ++ lines) new := by
  have hboth := h.trans ((append after lines).of_neutral hlines)
  rw [List.append_nil] at hboth
  exact hboth

end Adds

/-! ## Lines that are left out or changed -/

/-- A line that is edited in the body of an entry point counts as before. -/
theorem apply_of_isStructural {line : String} (edit : BodyEdit) (h : isStructural line = true) :
    edit.apply line = line := by
  have hchars := isStructuralChar_of_isStructural h
  -- A structural line has none of the letters of `return`, and no call.
  have hreturn : ∀ before cs, (∀ c ∈ cs, isStructuralChar c = true) →
      BodyEdit.returnedValue? before cs = none := by
    intro before cs hcs
    induction cs generalizing before with
    | nil => rfl
    | cons c rest ih =>
      have hword : Text.after? "return" (c :: rest) = none := by
        rw [Option.eq_none_iff_forall_ne_some]
        intro found hfound
        have hmem : 'r' ∈ c :: rest := (subset_of_after? hfound).1 (by decide)
        exact absurd (hcs 'r' hmem) (by decide)
      rw [BodyEdit.returnedValue?, hword, ih _ fun d hd => hcs d (List.mem_cons_of_mem c hd)]
      simp
  have happend : ∀ stream : String, ∀ cs, (∀ c ∈ cs, isStructuralChar c = true) →
      Text.splitAtFirst? (stream ++ ".Append(").toList cs = none := by
    intro stream cs hcs
    have hcall : '(' ∈ (stream ++ ".Append(").toList := by
      rw [String.toList_append]
      exact List.mem_append_right _ (by decide)
    induction cs with
    | nil =>
      rw [Text.splitAtFirst?, if_neg]
      intro hempty
      rw [List.isEmpty_iff.1 hempty] at hcall
      cases hcall
    | cons c rest ih =>
      rw [Text.splitAtFirst?, if_neg, ih fun d hd => hcs d (List.mem_cons_of_mem c hd)]
      · rfl
      · intro hprefix
        have hmem := (List.isPrefixOf_iff_prefix.1 hprefix).subset hcall
        exact absurd (hcs '(' hmem) (by decide)
  cases edit with
  | keep => rfl
  | wrapReturn =>
    rw [BodyEdit.apply, BodyEdit.wrapReturnIn, hreturn none _ hchars]
    exact String.ofList_toList
  | wrapAppend stream =>
    simp only [BodyEdit.apply, BodyEdit.wrapAppendIn, happend stream _ hchars]
    exact String.ofList_toList

theorem filter_apply (edit : BodyEdit) (line : String) :
    [edit.apply line].filter isStructural = [line].filter isStructural := by
  cases h : isStructural line with
  | true => rw [apply_of_isStructural edit h]
  | false =>
    rcases apply_eq_or_plain edit line with heq | hplain
    · rw [heq]
    · simp [h, hplain]

/-- The word in front of a declaration, or the parenthesis of a macro, is in no structural line. -/
theorem exists_mem_of_isBareDeclaration {name : String} {cs : List Char}
    (h : SlicedTexture.isBareDeclaration name cs = true) :
    ∃ c ∈ cs, isStructuralChar c = false := by
  have hword : ∀ {word : String} {p : List Char → Bool} (c : Char), c ∈ word.toList →
      isStructuralChar c = false → (Text.after? word cs).any p = true →
      ∃ c ∈ cs, isStructuralChar c = false := by
    intro word p c hmem hc hany
    obtain ⟨rest, hrest, -⟩ := (Option.any_eq_true _ _).1 hany
    exact ⟨c, (subset_of_after? hrest).1 hmem, hc⟩
  simp only [SlicedTexture.isBareDeclaration, Bool.or_eq_true] at h
  rcases h with ((h | h) | h) | h
  · obtain ⟨word, hmem, hany⟩ := List.any_eq_true.1 h
    refine hword 's' ?_ (by decide) hany
    simp only [List.mem_cons, List.not_mem_nil, or_false] at hmem
    rcases hmem with rfl | rfl | rfl <;> decide
  · exact hword 'e' (by decide) (by decide) h
  · exact hword 'a' (by decide) (by decide) h
  · obtain ⟨word, -, hany⟩ := List.any_eq_true.1 h
    obtain ⟨inner, hinner, -⟩ := (Option.any_eq_true _ _).1 hany
    obtain ⟨rest, hrest, hparen⟩ := Option.bind_eq_some_iff.1 hinner
    have hmem := skipBlanks_subset rest (mem_of_afterChar? hparen).1
    exact ⟨'(', (subset_of_after? hrest).2 hmem, by decide⟩

theorem isStructural_of_declaresTexture {t : Substitution} {line : String}
    (h : t.declaresTexture line = true) : isStructural line = false := by
  obtain ⟨texture, -, hdeclares⟩ := List.any_eq_true.1 h
  simp only [SlicedTexture.isDeclaration, Bool.or_eq_true] at hdeclares
  rcases hdeclares with hbare | huniform
  · obtain ⟨c, hmem, hc⟩ := exists_mem_of_isBareDeclaration hbare
    exact isStructural_of_mem hmem hc
  · obtain ⟨rest, hrest, -⟩ := (Option.any_eq_true _ _).1 huniform
    obtain ⟨behind, hbehind, -⟩ := Option.bind_eq_some_iff.1 hrest
    exact isStructural_of_mem ((subset_of_after? hbehind).1 (by decide : 'u' ∈ _)) (by decide)

theorem isStructural_of_declaration? {line : String} {found : String × String}
    (h : Substitution.declaration? line = some found) : isStructural line = false := by
  have hbare : ∀ {cs : List Char} {found : List Char × List Char},
      Substitution.bareDeclaration? cs = some found → ∃ c ∈ cs, isStructuralChar c = false := by
    intro cs found hfound
    simp only [Substitution.bareDeclaration?, Option.bind_eq_bind, Option.bind_eq_some_iff]
      at hfound
    obtain ⟨⟨type, behind⟩, htype, rest, hblanks, -⟩ := hfound
    obtain ⟨c, hmem, hc⟩ := (exists_mem_of_afterBlanks? hblanks).1
    exact ⟨c, subset_of_name? htype hmem, hc⟩
  obtain ⟨declared, hdeclared, -⟩ := Option.map_eq_some_iff.1 h
  rcases Option.or_eq_some_iff.1 hdeclared with huniform | ⟨-, hdeclared⟩
  · obtain ⟨behind, hbehind, -⟩ := Option.bind_eq_some_iff.1 huniform
    obtain ⟨rest, hrest, -⟩ := Option.bind_eq_some_iff.1 hbehind
    exact isStructural_of_mem ((subset_of_after? hrest).1 (by decide : 'u' ∈ _)) (by decide)
  · obtain ⟨c, hmem, hc⟩ := hbare hdeclared
    exact isStructural_of_mem hmem hc

/-! ## A step of a program block -/

namespace Program

/-- The lines that are held back because of a signature. -/
def held (p : Program) : List String := (p.pending.map (·.lines)).getD []

/-- The line that a program block reads, if its filter lets it through. -/
def live (p : Program) (line : String) : List String :=
  if (p.filter.feed line).feed = .live then [line] else []

/-- The declarations that are held back have no structure. -/
def DefersPlain (p : Program) : Prop := ∀ line ∈ p.deferred, isStructural line = false

/-- What is written in a step, and then what is held back behind it, is what was held back in front
of it and some lines more. -/
structure Steps (p : Program) (out : Program × List String) (new : List String) : Prop where
  adds : Adds p.held (out.2 ++ out.1.held) new
  deferred : out.1.DefersPlain

variable {t : Substitution} {p p' : Program} {line : String} {written new : List String}

theorem held_of_none (h : p.pending = none) : p.held = [] := by
  rw [held, h]
  rfl

theorem held_of_some {pending : Pending} (h : p.pending = some pending) :
    p.held = pending.lines := by
  rw [held, h]
  rfl

/-- The end of a block releases what is held back. -/
theorem held_of_finish {lines report : List String} (h : p.finish = .ok (lines, report)) :
    lines = p.held := by
  rw [finish] at h
  split at h
  · cases h
  · split at h
    · cases h
    · cases h
      rfl

theorem steps_write (hdefers : p.DefersPlain) (lines : List String) :
    Steps p (p.write lines) lines := by
  cases hpending : p.pending with
  | none =>
    have hwrite : p.write lines = (p, lines) := by rw [write, hpending]
    have hheld := held_of_none hpending
    rw [hwrite]
    refine ⟨?_, hdefers⟩
    dsimp only
    rw [hheld, List.append_nil]
    exact .append [] lines
  | some pending =>
    have hheld := held_of_some hpending
    rw [write, hpending]
    refine ⟨?_, hdefers⟩
    rw [hheld]
    exact .append pending.lines lines

/-- Outside of signatures what is written has the structure of what is read. -/
theorem Steps.of_none (hbefore : p.pending = none) (hafter : p'.pending = none)
    (hdefers : p'.DefersPlain) (h : written.filter isStructural = new.filter isStructural) :
    Steps p (p', written) new where
  adds := by
    have hheld := held_of_none hbefore
    have hheld' := held_of_none hafter
    dsimp only
    rw [hheld, hheld', List.append_nil]
    exact .of_filter h
  deferred := hdefers

theorem steps_openBrace (hpending : p.pending = none) (hdefers : p.DefersPlain) (line : String) :
    Steps p (p.openBrace line) [line] := by
  simp only [openBrace]
  split
  · exact .of_none hpending hpending hdefers rfl
  · exact .of_none hpending hpending hdefers rfl

theorem filter_deferred (hdefers : p.DefersPlain) : p.deferred.filter isStructural = [] := by
  rw [List.filter_eq_nil_iff]
  intro line hline
  rw [hdefers line hline]
  exact Bool.false_ne_true

theorem steps_closeBuffer (hbefore : p.pending = none) {front : Program}
    (hafter : front.pending = none) (hdefers : front.DefersPlain) (line : String) :
    Steps p (front.closeBuffer.1, line :: front.closeBuffer.2) [line] := by
  refine .of_none hbefore hafter (by simp [DefersPlain, closeBuffer]) ?_
  rw [← List.singleton_append, List.filter_append, closeBuffer, filter_deferred hdefers,
    List.append_nil]

theorem steps_closeBrace (hpending : p.pending = none) (hdefers : p.DefersPlain)
    (line : String) : Steps p (p.closeBrace line) [line] := by
  simp only [closeBrace]
  split
  · apply steps_closeBuffer hpending
    · exact hpending
    · exact hdefers
  · exact .of_none hpending hpending hdefers rfl

theorem steps_declaration? (hpending : p.pending = none) (hdefers : p.DefersPlain)
    {out : Program × List String} (h : p.declaration? t line = some out) :
    Steps p out [line] := by
  simp only [declaration?, Option.bind_eq_bind, Option.bind_eq_some_iff] at h
  obtain ⟨⟨type, name⟩, hfound, declaration, hdeclare, h⟩ := h
  have hline := isStructural_of_declaration? hfound
  have hplain := isStructural_of_hasPlainChar (hasPlainChar_declare? hdeclare)
  have hkept : ∀ q : Program, q.pending = p.pending → q.deferred = p.deferred →
      (if q.buffer.isSome then pure ({ q with deferred := q.deferred ++ [declaration] }, [])
        else pure (q, [declaration]) : Option (Program × List String)) = some out →
      Steps p out [line] := by
    intro q hq hqdefers h
    split at h
    · cases h
      refine .of_none hpending (hq.trans hpending) ?_ (by simp [hline])
      intro l hl
      rcases List.mem_append.1 hl with hl | hl
      · exact hdefers l (hqdefers ▸ hl)
      · rw [List.mem_singleton.1 hl]
        exact hplain
    · cases h
      refine .of_none hpending (hq.trans hpending) ?_ (by simp [hline, hplain])
      rw [DefersPlain, hqdefers]
      exact hdefers
  split at h
  · exact hkept p rfl rfl h
  · exact hkept { p with declared := p.declared ++ [name] } rfl rfl h

theorem steps_globalLine (hpending : p.pending = none) (hdefers : p.DefersPlain)
    (t : Substitution) (line : String) : Steps p (p.globalLine t line) [line] := by
  -- What is announced changes nothing that is held back.
  have hkept : ∀ q : Program, q.pending = p.pending → q.deferred = p.deferred →
      Steps p (if q.isAtDeclarations then
        if t.declaresTexture line then (q, []) else (q.declaration? t line).getD (q, [line])
        else (q, [line])) [line] := by
    intro q hq hqdefers
    have hqpending : q.pending = none := hq.trans hpending
    have hdefers' : q.DefersPlain := by
      rw [DefersPlain, hqdefers]
      exact hdefers
    split
    · split
      · rename_i htexture
        have hline := isStructural_of_declaresTexture htexture
        exact .of_none hpending hqpending hdefers' (by simp [hline])
      · cases hfound : q.declaration? t line with
        | none => exact .of_none hpending hqpending hdefers' rfl
        | some out =>
          have hsteps := steps_declaration? hqpending hdefers' hfound
          have hheld : p.held = q.held := by rw [held, held, hq]
          exact ⟨hheld ▸ hsteps.adds, hsteps.deferred⟩
    · exact .of_none hpending hqpending hdefers' rfl
  simp only [globalLine]
  split
  · exact hkept _ rfl rfl
  · exact hkept p rfl rfl

theorem steps_statement (hpending : p.pending = none) (hdefers : p.DefersPlain)
    (t : Substitution) (line : String) : Steps p (p.statement t line) [line] := by
  rw [statement.eq_def]
  split
  · rename_i edit _ _
    exact .of_none hpending hpending hdefers (filter_apply edit line)
  · split
    · refine ⟨?_, hdefers⟩
      have hheld := held_of_none hpending
      rw [hheld]
      exact .append [] [line]
    · split
      · exact .of_none hpending hpending hdefers rfl
      · split
        · exact steps_closeBuffer hpending hpending hdefers line
        · exact steps_globalLine hpending hdefers t line

/-- An entry point that is written anew adds the brace that opens its body. -/
theorem steps_enter {pending : Pending} (hpending : p.pending = some pending)
    (hdefers : p.DefersPlain) {out : Program × List String}
    (h : p.enter t pending line = .ok out) : Steps p out [line] := by
  rw [enter] at h
  obtain ⟨entry, hadapt, h⟩ := exists_ok_of_bind h
  cases h
  have hentry := keepsStructure_adapt hadapt
  have hheld := held_of_some hpending
  have hsignature : Adds pending.lines entry.signature [] := .of_filter (by simp [hentry.signature])
  have hline := hsignature.trans (.append entry.signature [line])
  have hopened := (hline.append_neutral hentry.prologue).append_neutral
    (neutral_assignments t p.declared)
  refine ⟨?_, hdefers⟩
  rw [hheld]
  have hcarriers := Neutral.flatMap
    (entry.carriers.filter fun c => !p.carriers.contains c.role) fun c _ => neutral_definition c
  have hwhole := hopened.trans (.insert [] _ hcarriers)
  simpa [held] using hwhole

theorem steps_signatureLine {pending : Pending} (hpending : p.pending = some pending)
    (hdefers : p.DefersPlain) {out : Program × List String}
    (h : p.signatureLine t pending line = .ok out) : Steps p out [line] := by
  have hheld := held_of_some hpending
  simp only [signatureLine] at h
  split at h
  · cases h
    refine ⟨?_, hdefers⟩
    rw [hheld]
    exact .append pending.lines [line]
  · split at h
    · exact steps_enter hpending hdefers h
    · split at h
      · cases h
        refine ⟨?_, hdefers⟩
        rw [hheld]
        simpa [held] using Adds.append pending.lines [line]
      · cases h
        refine ⟨?_, hdefers⟩
        rw [hheld]
        exact .append pending.lines [line]

theorem steps_liveLine (hdefers : p.DefersPlain) {out : Program × List String}
    (h : p.liveLine t line = .ok out) : Steps p out [line] := by
  rw [liveLine.eq_def] at h
  split at h
  · cases h
    exact steps_write hdefers [line]
  · split at h
    · rename_i pending hpending
      exact steps_signatureLine hpending hdefers h
    · rename_i hpending
      cases h
      split
      · exact steps_openBrace hpending hdefers line
      · split
        · exact steps_closeBrace hpending hdefers line
        · exact steps_statement hpending hdefers t line

/-- What the filter of the conditional groups writes adds nothing. -/
theorem steps_feed (hdefers : p.DefersPlain) (line : String) :
    Steps p ((p.feed line).1, (p.feed line).2.1) [] := by
  have hneutral := neutral_feed p.filter line
  have hfed := @steps_write { p with filter := (p.filter.feed line).filter } hdefers
    (p.filter.feed line).written
  exact ⟨hfed.adds.of_neutral hneutral, hfed.deferred⟩

/-- A line of a program block adds itself, if it is let through. -/
theorem steps_line (hdefers : p.DefersPlain) {out : Program × List String}
    (h : p.line t line = .ok out) : Steps p out (p.live line) := by
  have hfed := p.steps_feed hdefers line
  have hfeed : (p.feed line).2.2 = (p.filter.feed line).feed := rfl
  rw [Program.line.eq_def] at h
  split at h
  · rename_i p₁ written heq
    rw [heq] at hfed hfeed
    cases h
    rw [live, ← hfeed]
    exact hfed
  · rename_i p₁ written heq
    rw [heq] at hfed hfeed
    obtain ⟨⟨p₂, more⟩, hlive, hout⟩ := exists_ok_of_map h
    cases hout
    have hread := steps_liveLine hfed.deferred hlive
    rw [live, ← hfeed, if_pos rfl]
    refine ⟨?_, hread.deferred⟩
    dsimp only
    rw [List.append_assoc]
    exact hfed.adds.trans (hread.adds.append_left written)

end Program

end ShaderMerge.Variant
