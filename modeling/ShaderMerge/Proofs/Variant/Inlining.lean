import ShaderMerge.Proofs.Variant.Growth

/-!
# Chunks in the place of their includes

`inline` puts chunks in the place of the lines that include them, the last chunk first: a chunk may
include those in front of it.  It works line by line, so the structure of an inlined text is that of
the text and of the chunks that it includes (`adds_inline`), and the include of a chunk counts as
much as the lines of the chunk (`inline_includeLine`).
-/

namespace ShaderMerge.Variant

open Include (isMarker)

/-- Lines with a chunk in the place of its includes. -/
def expand (chunk : GeneratedFile) (lines : List String) : List String :=
  lines.flatMap fun line =>
    if line = Directive.includeLine chunk.name then chunk.lines else [line]

/-- Lines with chunks in the place of their includes, the last chunk first. -/
def inline (chunks : List GeneratedFile) (lines : List String) : List String :=
  chunks.foldr expand lines

/-- The lines of the main file of a variant with its chunks in the place of their includes. -/
def GeneratedShader.inlined (g : GeneratedShader) : List String := inline g.chunks g.main.lines

/-- Whether a line includes one of some chunks. -/
def includesAny (chunks : List GeneratedFile) (line : String) : Bool :=
  chunks.any fun chunk => line = Directive.includeLine chunk.name

/-- Chunks of different names, each of which includes only those in front of it. -/
structure WellOrdered (chunks : List GeneratedFile) : Prop where
  later : chunks.Pairwise fun chunk other =>
    chunk.name ≠ other.name ∧ Directive.includeLine other.name ∉ chunk.lines
  self : ∀ chunk ∈ chunks, Directive.includeLine chunk.name ∉ chunk.lines

variable {chunks : List GeneratedFile} {chunk : GeneratedFile} {line : String}

theorem includeLine_injective {name other : String}
    (h : Directive.includeLine name = Directive.includeLine other) : name = other := by
  have hlists := congrArg String.toList h
  simp only [Directive.includeLine, String.toList_append] at hlists
  have hnames := List.append_inj_left' hlists rfl
  exact String.toList_inj.1 (List.append_cancel_left hnames)

/-- A chunk of a new name that no chunk includes comes last. -/
theorem WellOrdered.append_chunk (h : WellOrdered chunks)
    (hname : ∀ other ∈ chunks, other.name ≠ chunk.name)
    (hlines : ∀ other ∈ chunks ++ [chunk], Directive.includeLine chunk.name ∉ other.lines) :
    WellOrdered (chunks ++ [chunk]) where
  later := by
    refine List.pairwise_append.2 ⟨h.later, List.pairwise_singleton _ _, ?_⟩
    intro other hother last hlast
    rw [List.mem_singleton.1 hlast]
    exact ⟨hname other hother, hlines other (List.mem_append_left _ hother)⟩
  self other hother := by
    rcases List.mem_append.1 hother with hmem | hmem
    · exact h.self other hmem
    · rw [List.mem_singleton.1 hmem]
      exact hlines chunk (List.mem_append_right _ List.mem_cons_self)

theorem includesAny_mono {more : List GeneratedFile} (h : chunks ⊆ more)
    (hline : includesAny chunks line = true) : includesAny more line = true := by
  obtain ⟨chunk, hmem, heq⟩ := List.any_eq_true.1 hline
  exact List.any_eq_true.2 ⟨chunk, h hmem, heq⟩

theorem includesAny_of_mem (h : chunk ∈ chunks) :
    includesAny chunks (Directive.includeLine chunk.name) = true :=
  List.any_eq_true.2 ⟨chunk, h, by simp⟩

theorem exists_of_includesAny (h : includesAny chunks line = true) :
    ∃ chunk ∈ chunks, line = Directive.includeLine chunk.name := by
  obtain ⟨chunk, hmem, heq⟩ := List.any_eq_true.1 h
  exact ⟨chunk, hmem, of_decide_eq_true heq⟩

/-! ## Line by line -/

theorem expand_append (chunk : GeneratedFile) (first second : List String) :
    expand chunk (first ++ second) = expand chunk first ++ expand chunk second :=
  List.flatMap_append

theorem inline_append (chunks : List GeneratedFile) (first second : List String) :
    inline chunks (first ++ second) = inline chunks first ++ inline chunks second := by
  induction chunks with
  | nil => rfl
  | cons chunk rest ih =>
    change expand chunk (inline rest (first ++ second)) = _
    rw [ih, expand_append]
    rfl

theorem inline_nil (chunks : List GeneratedFile) : inline chunks [] = [] := by
  induction chunks with
  | nil => rfl
  | cons chunk rest ih =>
    change expand chunk (inline rest []) = []
    rw [ih]
    rfl

theorem inline_cons (chunks : List GeneratedFile) (line : String) (lines : List String) :
    inline chunks (line :: lines) = inline chunks [line] ++ inline chunks lines :=
  inline_append chunks [line] lines

theorem expand_of_not_mem {lines : List String}
    (h : Directive.includeLine chunk.name ∉ lines) : expand chunk lines = lines := by
  induction lines with
  | nil => rfl
  | cons line rest ih =>
    rw [List.mem_cons, not_or] at h
    rw [expand, List.flatMap_cons, if_neg (Ne.symm h.1)]
    exact congrArg (line :: ·) (ih h.2)

/-- Lines that include none of the chunks stay as they are. -/
theorem inline_of_not_mem {lines : List String}
    (h : ∀ chunk ∈ chunks, Directive.includeLine chunk.name ∉ lines) :
    inline chunks lines = lines := by
  induction chunks with
  | nil => rfl
  | cons chunk rest ih =>
    change expand chunk (inline rest lines) = lines
    rw [ih fun c hc => h c (List.mem_cons_of_mem chunk hc),
      expand_of_not_mem (h chunk List.mem_cons_self)]

theorem inline_of_not_includesAny (h : includesAny chunks line = false) :
    inline chunks [line] = [line] := by
  apply inline_of_not_mem
  intro chunk hchunk hmem
  rw [List.mem_singleton] at hmem
  rw [includesAny, List.any_eq_false] at h
  exact h chunk hchunk (by simp [hmem])

/-- Lines among which no chunk is included are inlined as they are. -/
theorem inline_of_filter {lines : List String}
    (h : lines.filter (includesAny chunks) = []) : inline chunks lines = lines := by
  apply inline_of_not_mem
  intro chunk hchunk hmem
  rw [List.filter_eq_nil_iff] at h
  exact h _ hmem (includesAny_of_mem hchunk)

/-- The include of a chunk counts as much as its lines. -/
theorem inline_includeLine (hordered : WellOrdered chunks) (h : chunk ∈ chunks) :
    inline chunks [Directive.includeLine chunk.name] = inline chunks chunk.lines := by
  induction chunks with
  | nil => cases h
  | cons first rest ih =>
    obtain ⟨hfirst, hrest⟩ := List.pairwise_cons.1 hordered.later
    change expand first (inline rest _) = expand first (inline rest _)
    rcases List.mem_cons.1 h with rfl | hmem
    · have hline : inline rest [Directive.includeLine chunk.name]
          = [Directive.includeLine chunk.name] := by
        apply inline_of_not_mem
        intro other hother hmem
        rw [List.mem_singleton] at hmem
        exact (hfirst other hother).1 (includeLine_injective hmem.symm)
      have hlines : inline rest chunk.lines = chunk.lines :=
        inline_of_not_mem fun other hother => (hfirst other hother).2
      rw [hline, hlines, expand_of_not_mem (hordered.self chunk List.mem_cons_self)]
      simp [expand]
    · rw [ih ⟨hrest, fun c hc => hordered.self c (List.mem_cons_of_mem first hc)⟩ hmem]

/-- A line that includes nothing may take the place of another one. -/
theorem inline_set {lines front back : List String} {place : Nat} {text : String} (new : String)
    (hline : lines[place]? = some text) (htext : includesAny chunks text = false)
    (hnew : includesAny chunks new = false) (hfront : inline chunks (lines.take place) = front)
    (hwhole : inline chunks lines = front ++ text :: back) :
    inline chunks (lines.set place new) = front ++ new :: back := by
  obtain ⟨hlt, hget⟩ := List.getElem?_eq_some_iff.1 hline
  -- The text is cut at the line: what is in front is the same, so is what is behind.
  have hcut : lines = lines.take place ++ text :: lines.drop (place + 1) := by
    rw [← hget, ← List.drop_eq_getElem_cons hlt, List.take_append_drop]
  rw [hcut, inline_append, inline_cons, inline_of_not_includesAny htext, hfront] at hwhole
  have hbehind := List.tail_eq_of_cons_eq (List.append_cancel_left hwhole)
  rw [List.set_eq_take_append_cons_drop, if_pos hlt, inline_append, inline_cons,
    inline_of_not_includesAny hnew, hfront]
  exact congrArg (fun back => front ++ new :: back) hbehind

/-- Lines that include nothing may come in between. -/
theorem inline_insert {lines front back block : List String} {place : Nat}
    (hblock : inline chunks block = block) (hfront : inline chunks (lines.take place) = front)
    (hwhole : inline chunks lines = front ++ back) :
    inline chunks (lines.take place ++ block ++ lines.drop place) = front ++ (block ++ back) := by
  have hback : inline chunks (lines.drop place) = back := by
    rw [← List.take_append_drop place lines, inline_append, hfront] at hwhole
    exact List.append_cancel_left hwhole
  rw [inline_append, inline_append, hfront, hblock, hback, List.append_assoc]

/-! ## The structure of an inlined text -/

/-- Whether a line includes one of some chunks or is a marker. -/
def isFixed (chunks : List GeneratedFile) (line : String) : Bool :=
  includesAny chunks line || isMarker line

theorem isStructural_includeLine (name : String) :
    isStructural (Directive.includeLine name) = false :=
  isStructural_of_hasPlainChar
    (hasPlainChar_append_left _ (hasPlainChar_append_left _ (hasPlainChar_of_head (by decide))))

theorem isStructural_of_includesAny (h : includesAny chunks line = true) :
    isStructural line = false := by
  obtain ⟨chunk, -, hline⟩ := List.any_eq_true.1 h
  rw [of_decide_eq_true hline]
  exact isStructural_includeLine chunk.name

theorem balance_inline (chunks : List GeneratedFile) (lines : List String) :
    balance (inline chunks lines) = balance lines
      + balance ((lines.filter (includesAny chunks)).flatMap fun line => inline chunks [line]) := by
  induction lines with
  | nil => rw [inline_nil]; rfl
  | cons line rest ih =>
    rw [inline_cons, balance_append, balance_cons, ih]
    cases h : includesAny chunks line with
    | true =>
      rw [List.filter_cons_of_pos h, List.flatMap_cons, balance_append,
        braces_eq_zero (isStructural_of_includesAny h)]
      omega
    | false =>
      rw [List.filter_cons_of_neg (Bool.eq_false_iff.1 h), inline_of_not_includesAny h,
        balance_cons, balance_nil]
      omega

theorem markers_inline (chunks : List GeneratedFile) (lines : List String) :
    (inline chunks lines).filter isMarker
      = (lines.filter (isFixed chunks)).flatMap fun line =>
          (inline chunks [line]).filter isMarker := by
  induction lines with
  | nil => rw [inline_nil]; rfl
  | cons line rest ih =>
    rw [inline_cons, List.filter_append, ih]
    cases h : isFixed chunks line with
    | true => rw [List.filter_cons_of_pos h, List.flatMap_cons]
    | false =>
      rw [List.filter_cons_of_neg (Bool.eq_false_iff.1 h)]
      rw [isFixed, Bool.or_eq_false_iff] at h
      rw [inline_of_not_includesAny h.1, List.filter_cons_of_neg (Bool.eq_false_iff.1 h.2)]
      rfl

/-- What a text adds to its structure it adds to that of the inlined text, if the includes of the
chunks stay where they are among the markers. -/
theorem adds_inline {before after new : List String} (h : Adds before after new)
    (hincludes : after.filter (includesAny chunks) = before.filter (includesAny chunks))
    (hfixed : before.filter (isFixed chunks) <+: after.filter (isFixed chunks)) :
    Adds (inline chunks before) (inline chunks after) new where
  balance_eq := by
    rw [balance_inline, balance_inline, hincludes, h.balance_eq]
    omega
  markers_eq := by
    obtain ⟨rest, hrest⟩ := hfixed
    have hfilter : ∀ (p : String → Bool) (lines : List String),
        (∀ line, p line = true → isFixed chunks line = true) →
        (lines.filter (isFixed chunks)).filter p = lines.filter p := by
      intro p lines hp
      rw [List.filter_filter]
      apply List.filter_congr
      intro line _
      cases hline : p line with
      | true => rw [hp line hline]; rfl
      | false => rfl
    -- What is new among the fixed lines includes nothing, so it is the new markers.
    have hplain : rest.filter (includesAny chunks) = [] := by
      have hboth := congrArg (List.filter (includesAny chunks)) hrest
      have hp : ∀ line, includesAny chunks line = true → isFixed chunks line = true := by
        intro line hline
        rw [isFixed, hline, Bool.true_or]
      rw [List.filter_append, hfilter _ _ hp, hfilter _ _ hp, hincludes] at hboth
      exact List.append_right_eq_self.1 hboth
    have hmarkers : rest.filter isMarker = new.filter isMarker := by
      have hboth := congrArg (List.filter isMarker) hrest
      have hp : ∀ line, isMarker line = true → isFixed chunks line = true := by
        intro line hline
        rw [isFixed, hline, Bool.or_true]
      rw [List.filter_append, hfilter _ _ hp, hfilter _ _ hp, h.markers_eq] at hboth
      exact List.append_cancel_left hboth
    have hrestPlain : ∀ line ∈ rest, (inline chunks [line]).filter isMarker
        = [line].filter isMarker := by
      intro line hline
      have hnot : includesAny chunks line = false := by
        rw [List.filter_eq_nil_iff] at hplain
        exact Bool.eq_false_iff.2 (hplain line hline)
      rw [inline_of_not_includesAny hnot]
    rw [markers_inline, markers_inline, ← hrest, List.flatMap_append]
    refine congrArg _ ?_
    rw [← hmarkers]
    clear hrest hplain hmarkers
    induction rest with
    | nil => rfl
    | cons line rest ih =>
      rw [List.flatMap_cons, hrestPlain line List.mem_cons_self,
        ih fun l hl => hrestPlain l (List.mem_cons_of_mem line hl), ← List.filter_append]
      rfl

end ShaderMerge.Variant
