import ShaderMerge.Proofs.Signature.Declarators
import ShaderMerge.Signature.Function

/-!
# Lists of parameters

A list of parameters is cut at the commas outside of brackets, and each piece is read by itself
(`readAll`).  So a declaration in front of a list is its first parameter
(`parameters?_prepended`), one behind a list that closes its brackets is the last one
(`parameters?_appended`), and a declarator that takes the place of another one changes that
parameter alone (`parameters?_redeclared`).
-/

namespace ShaderMerge.Signature

open Text (IsBlanks IsName)
open Parameter (IsWhole IsLead isModifier)

variable {inner gap front : List Char} {ps : List Parameter} {q : Parameter}

/-! ## Reading the pieces -/

theorem mapM_eq_some_iff {α β : Type} {f : α → Option β} {as : List α} {bs : List β} :
    as.mapM f = some bs ↔ as.map f = bs.map some := by
  induction as generalizing bs with
  | nil =>
    cases bs with
    | nil => exact iff_of_true rfl rfl
    | cons b bs => exact iff_of_false nofun nofun
  | cons a as ih =>
    simp only [List.mapM_cons, Option.bind_eq_bind, Option.bind_eq_some_iff]
    constructor
    · rintro ⟨b, hb, others, hothers, heq⟩
      cases heq
      rw [List.map_cons, List.map_cons, hb, ih.1 hothers]
    · intro h
      cases bs with
      | nil => cases h
      | cons b bs =>
        obtain ⟨hb, hbs⟩ := List.cons.inj h
        exact ⟨b, hb, bs, ih.2 hbs, rfl⟩

/-- Whether a list that is not empty is read as some parameters. -/
def ReadsAs (inner : List Char) (ps : List Parameter) : Prop :=
  (splitTop ',' inner).map Parameter.ofText? = ps.map some

theorem splitTop_gap_append (hgap : IsBlanks gap) (inner : List Char) :
    splitTop ',' (gap ++ inner) = (splitTop ',' inner).modifyHead (gap ++ ·) :=
  splitTopFrom_append (openBehind?_blanks hgap (by decide) 0) inner

theorem readsAs_gap_append (hgap : IsBlanks gap) : ReadsAs (gap ++ inner) ps ↔ ReadsAs inner ps := by
  obtain ⟨piece, pieces, hpieces⟩ := List.exists_cons_of_ne_nil (splitTopFrom_ne_nil ',' 0 inner)
  rw [ReadsAs, ReadsAs, splitTop_gap_append hgap, splitTop, hpieces, List.modifyHead_cons,
    List.map_cons, List.map_cons, Parameter.ofText?_gap_append hgap]

theorem readsAs_append_blanks (hgap : IsBlanks gap) :
    ReadsAs (inner ++ gap) ps ↔ ReadsAs inner ps := by
  obtain ⟨pieces, last, hinner, happend⟩ := exists_splitTopFrom_append ',' 0 inner
  have hlast : splitTopFrom ',' (0 + bracketBalance inner) gap = [gap] := by
    have hopen : openBehind? ',' (0 + bracketBalance inner) gap = some (0 + bracketBalance inner) :=
      openBehind?_blanks hgap (by decide) _
    have hsplit := splitTopFrom_append hopen []
    simpa [splitTopFrom] using hsplit
  rw [ReadsAs, ReadsAs, splitTop, happend, hlast, splitTop, hinner, List.modifyHead_cons,
    List.map_append, List.map_append, List.map_singleton, List.map_singleton,
    Parameter.ofText?_append_blanks hgap]

theorem readsAs_trimmed : ReadsAs (Text.trimmed inner) ps ↔ ReadsAs inner ps := by
  obtain ⟨gap, gap', hgap, hgap', heq⟩ := Text.exists_trimmed inner
  conv_rhs => rw [← heq, readsAs_gap_append hgap, readsAs_append_blanks hgap']

theorem ReadsAs.ne_nil (h : ReadsAs inner ps) : ps ≠ [] := by
  rintro rfl
  exact splitTopFrom_ne_nil ',' 0 inner (List.map_eq_nil_iff.1 h)

/-- A comma behind a list that closes its brackets parts it from the next one. -/
theorem ReadsAs.append {others : List Char} {qs : List Parameter} (h : ReadsAs inner ps)
    (hbalance : bracketBalance inner = 0) (hothers : ReadsAs others qs) :
    ReadsAs (inner ++ ',' :: others) (ps ++ qs) := by
  rw [ReadsAs, splitTop_append_separator (by decide) hbalance, List.map_append, h, hothers,
    List.map_append]

/-- Neither an empty list nor `void` is a declaration. -/
theorem not_readsAs (h : inner = [] ∨ inner = "void".toList) : ¬ReadsAs inner ps := by
  have hnone : (splitTop ',' inner).map Parameter.ofText? = [none] := by
    rcases h with rfl | rfl
    · rfl
    · rfl
  rw [ReadsAs, hnone]
  cases ps with
  | nil => nofun
  | cons q ps => nofun

/-- **What parameters are read from**: from their declarations, or from an empty list. -/
theorem parameters?_eq_some_iff : parameters? inner = some ps ↔
    ReadsAs inner ps ∨ (ps = [] ∧ (Text.trimmed inner = [] ∨ Text.trimmed inner = "void".toList)) := by
  rw [parameters?]
  by_cases hempty : Text.trimmed inner = [] ∨ Text.trimmed inner = "void".toList
  · have hnot : ¬ReadsAs inner ps := fun h => not_readsAs hempty (readsAs_trimmed.2 h)
    rw [if_pos (by simpa using hempty)]
    constructor
    · rintro ⟨⟩
      exact .inr ⟨rfl, hempty⟩
    · rintro (h | ⟨rfl, -⟩)
      · exact absurd h hnot
      · rfl
  · rw [if_neg (by simpa using hempty), mapM_eq_some_iff, ← ReadsAs, readsAs_trimmed]
    exact ⟨.inl, fun h => h.resolve_right fun h => hempty h.2⟩

theorem ReadsAs.parameters?_eq (h : ReadsAs inner ps) : parameters? inner = some ps :=
  parameters?_eq_some_iff.2 (.inl h)

/-- Without `void`, a list that is read as no parameters is blank. -/
theorem isBlanks_of_trimmed (h : Text.trimmed inner = []) : IsBlanks inner := by
  obtain ⟨gap, gap', hgap, hgap', heq⟩ := Text.exists_trimmed inner
  rw [h, List.nil_append] at heq
  rw [← heq]
  exact List.forall_mem_append.2 ⟨hgap, hgap'⟩

/-! ## A declaration at either end -/

/-- The comma between a parameter and the others, if there are any. -/
def commaBeside (ps : List Parameter) : List Char := (if !ps.isEmpty then ", " else "").toList

theorem commaBeside_of_ne_nil (h : ps ≠ []) : commaBeside ps = [',', ' '] := by
  obtain ⟨p, ps, rfl⟩ := List.exists_cons_of_ne_nil h
  simp [commaBeside]

theorem bracketBalance_commaBeside (ps : List Parameter) : bracketBalance (commaBeside ps) = 0 := by
  rw [commaBeside]
  split <;> decide

theorem isBlanks_space : IsBlanks [' '] := List.forall_mem_singleton.2 (by decide)

/-- A declaration of which nothing separates is a list of one parameter. -/
theorem readsAs_singleton {param : List Char} (hopen : openBehind? ',' 0 param = some 0)
    (hq : Parameter.ofText? param = some q) : ReadsAs param [q] := by
  have hsplit := splitTopFrom_append hopen []
  rw [List.append_nil] at hsplit
  rw [ReadsAs, splitTop, hsplit]
  simp [splitTopFrom, hq]

/-- **A declaration in front of a list is its first parameter.** -/
theorem parameters?_prepended {param : List Char} (hopen : openBehind? ',' 0 param = some 0)
    (hq : Parameter.ofText? param = some q) (h : parameters? inner = some ps)
    (hvoid : ps = [] → Text.trimmed inner ≠ "void".toList) :
    parameters? (param ++ (commaBeside ps ++ inner)) = some (q :: ps) := by
  refine ReadsAs.parameters?_eq ?_
  rcases parameters?_eq_some_iff.1 h with hreads | ⟨rfl, hempty⟩
  · have hspace : ReadsAs (' ' :: inner) ps := (readsAs_gap_append isBlanks_space).2 hreads
    rw [commaBeside_of_ne_nil hreads.ne_nil]
    exact (readsAs_singleton hopen hq).append (bracketBalance_of_openBehind? hopen) hspace
  · have hgap := isBlanks_of_trimmed (hempty.resolve_right (hvoid rfl))
    exact (readsAs_append_blanks hgap).2 (readsAs_singleton hopen hq)

/-- **A declaration behind a list that closes its brackets is its last parameter.** -/
theorem parameters?_appended {param : List Char} (hbalance : bracketBalance inner = 0)
    (hopen : openBehind? ',' 0 param = some 0) (hq : Parameter.ofText? param = some q)
    (h : parameters? inner = some ps) (hvoid : ps = [] → Text.trimmed inner ≠ "void".toList) :
    parameters? (inner ++ (commaBeside ps ++ param)) = some (ps ++ [q]) := by
  refine ReadsAs.parameters?_eq ?_
  rcases parameters?_eq_some_iff.1 h with hreads | ⟨rfl, hempty⟩
  · have hspace : ReadsAs (' ' :: param) [q] :=
      (readsAs_gap_append isBlanks_space).2 (readsAs_singleton hopen hq)
    rw [commaBeside_of_ne_nil hreads.ne_nil]
    exact hreads.append hbalance hspace
  · have hgap := isBlanks_of_trimmed (hempty.resolve_right (hvoid rfl))
    exact (readsAs_gap_append hgap).2 (readsAs_singleton hopen hq)

/-! ## A declarator in the place of another one -/

/-- **A declarator in the place of another one** changes the parameter that it declares, and no
other. -/
theorem parameters?_redeclared {pieces : List (List Char)}
    {lead type name type' name' tail : List Char}
    (hpieces : splitTop ',' front = pieces ++ [lead]) (hlead : IsLead lead) (hne : gap ≠ [])
    (hgap : IsBlanks gap) (hwhole : IsWhole (type ++ ' ' :: name)) (htype' : IsName type')
    (hmodifier : isModifier type' = false) (hname' : IsName name')
    (h : parameters? (front ++ (type ++ (gap ++ (name ++ tail)))) = some ps)
    (hq : ps[pieces.length]? = some q) (htype : q.type.toList = type) (hname : q.name.toList = name) :
    parameters? (front ++ (type' ++ ' ' :: (name' ++ tail))) = some (ps.set pieces.length
      { q with type := String.ofList type', name := String.ofList name' }) := by
  have hreads : ReadsAs (front ++ (type ++ (gap ++ (name ++ tail)))) ps := by
    refine (parameters?_eq_some_iff.1 h).resolve_right ?_
    rintro ⟨rfl, -⟩
    cases hq
  -- No bracket is open in front of the declaration, since modifiers have none.
  have hbalance : bracketBalance front = 0 := by
    obtain ⟨hsingle, hmany⟩ := bracketBalance_last hpieces
    have hopen : openBehind? ',' 0 lead = some 0 := hlead.openBehind? (by decide) (by decide) 0
    have hzero := bracketBalance_of_openBehind? hopen
    by_cases hnil : pieces = []
    · rw [← hsingle hnil, hzero]
    · rw [← hzero, hmany hnil, Int.zero_add]
  obtain ⟨pieces', last, hfront, hsplit⟩ := exists_splitTopFrom_append ',' 0 front
  obtain ⟨rfl, heq⟩ := List.append_inj' (hpieces.symm.trans hfront) rfl
  obtain rfl : lead = last := (List.cons.inj heq).1
  obtain ⟨piece, others, hothers⟩ := List.exists_cons_of_ne_nil (splitTopFrom_ne_nil ',' 0 tail)
  have hdeclared : ∀ (gap : List Char) {type name : List Char}, IsBlanks gap →
      IsWhole (type ++ ' ' :: name) → splitTop ',' (front ++ (type ++ (gap ++ (name ++ tail))))
        = pieces ++ (lead ++ (type ++ (gap ++ (name ++ piece)))) :: others := by
    intro gap type name hgap hwhole
    have hopen : openBehind? ',' 0 ([] ++ (type ++ (gap ++ name))) = some 0 :=
      Parameter.openBehind?_declarator ⟨nofun, nofun⟩ hgap hwhole (by simp)
    have hbehind := splitTopFrom_append hopen tail
    rw [hothers] at hbehind
    simp only [List.nil_append, List.append_assoc, List.modifyHead_cons] at hbehind
    rw [splitTop, hsplit, hbalance, Int.zero_add, hbehind]
    rfl
  have hnew := hdeclared [' '] isBlanks_space (Parameter.isWhole_of_names htype' hname')
  rw [ReadsAs, hdeclared gap hgap hwhole, List.map_append, List.map_cons] at hreads
  have hpiece : Parameter.ofText? (lead ++ (type ++ (gap ++ (name ++ piece)))) = some q := by
    have hget := congrArg (·[pieces.length]?) hreads
    simpa [hq] using hget
  have hredeclared := Parameter.ofText?_redeclared hlead hne hgap hwhole htype' hmodifier hname' hpiece
    htype hname
  refine ReadsAs.parameters?_eq ?_
  have hset := congrArg (·.set pieces.length
    (some { q with type := String.ofList type', name := String.ofList name' })) hreads
  simp only [← List.map_set] at hset
  rw [List.set_append_right _ _ (by simp), List.length_map, Nat.sub_self, List.set_cons_zero] at hset
  have htext : type' ++ ' ' :: (name' ++ tail) = type' ++ ([' '] ++ (name' ++ tail)) := rfl
  rw [ReadsAs, htext, hnew, List.map_append, List.map_cons, ← hset]
  exact congrArg (fun o => pieces.map Parameter.ofText? ++ o :: others.map Parameter.ofText?)
    hredeclared

end ShaderMerge.Signature
