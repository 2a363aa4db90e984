import ShaderMerge.Number.Decimal
import ShaderMerge.Proofs.Text.Pieces
import ShaderMerge.Proofs.Condition.Monotonicity

/-!
# The conditions that have a value

`IsWritten` says, in characters, which texts are conditions: what a term looks like, where spaces and
tabs may stand, and which numbers are integer literals.  It knows nothing of tokens or readers, and
`read_eq_some_iff_isWritten` shows that the texts it admits are those that are read.

`evaluate_of_isWritten` is the correctness of `evaluate`: a known value is the value that the text has
in C whatever is defined beyond what is known, it stays when more is known, and where everything is
known each condition that mixes no joiners at one level has a value.  An integer literal is a row of
decimal digits below `2 ^ 63`; with larger ones the last part fails (`unknown_of_wide_literal`).
-/

namespace ShaderMerge.Condition

open Text (IsName Stops)

/-! ## How a condition is written -/

/-- Whether only spaces and tabs are there. -/
def IsGap (cs : List Char) : Prop := ∀ c ∈ cs, c = ' ' ∨ c = '\t'

/-- The two characters of a joiner. -/
def Joiner.sign : Joiner → List Char
  | and => ['&', '&']
  | or => ['|', '|']

/-- The characters of a phrase and the expression they stand for.  Integer literals are decimal, and
`fits` says which values they may have. -/
inductive Spells (fits : Nat → Prop) : Phrase → List Char → Expr → Prop where
  /-- An integer literal is true unless it is zero. -/
  | literal {digits} (hne : digits ≠ []) (hdigits : ∀ c ∈ digits, c.isDigit = true)
    (hfits : fits (Decimal.digitsValue digits)) :
    Spells fits .term digits (.literal (Decimal.digitsValue digits != 0))
  /-- The question whether a name is defined. -/
  | defined {gap name} (hgap : IsGap gap) (hne : gap ≠ []) (hname : IsName name) :
    Spells fits .term ("defined".toList ++ (gap ++ name)) (.defined (String.ofList name))
  /-- The same question with the name in parentheses. -/
  | definedIn {outer lead name trail} (houter : IsGap outer) (hlead : IsGap lead)
    (hname : IsName name) (htrail : IsGap trail) :
    Spells fits .term ("defined".toList ++ (outer ++ '(' :: (lead ++ (name ++ (trail ++ [')'])))))
      (.defined (String.ofList name))
  /-- A negated term. -/
  | not {gap cs e} (hgap : IsGap gap) (h : Spells fits .term cs e) :
    Spells fits .term ('!' :: (gap ++ cs)) (.not e)
  /-- A chain in parentheses. -/
  | group {lead cs trail e} (hlead : IsGap lead) (h : Spells fits .chain cs e)
    (htrail : IsGap trail) :
    Spells fits .term ('(' :: (lead ++ (cs ++ (trail ++ [')'])))) (.group e)
  /-- A chain of one term. -/
  | single {cs e} (h : Spells fits .term cs e) : Spells fits .chain cs e
  /-- A chain with one more term. -/
  | join (joiner) {before behind cs ds chain last} (h : Spells fits .chain cs chain)
    (hbefore : IsGap before) (hbehind : IsGap behind) (h' : Spells fits .term ds last) :
    Spells fits .chain (cs ++ (before ++ (joiner.sign ++ (behind ++ ds))))
      (.join joiner chain last)

/-- Whether a text is a condition: a chain with nothing around it but spaces and tabs. -/
def IsWritten (fits : Nat → Prop) (text : String) (e : Expr) : Prop :=
  ∃ lead cs trail, IsGap lead ∧ IsGap trail ∧ Spells fits .chain cs e ∧
    text.toList = lead ++ (cs ++ trail)

/-- Whether a number fits a signed integer of 64 bits. -/
def FitsSigned (n : Nat) : Prop := n < Nat.pow 2 63

namespace Expr

/-- Whether no level of an expression has both kinds of joiner. -/
def isUnmixed : Expr → Bool
  | literal _ => true
  | defined _ => true
  | not term => term.isUnmixed
  | group inner => inner.isUnmixed
  | join joiner chain last => chain.isUniform joiner && chain.isUnmixed && last.isUnmixed

/-- The terms of a chain, cut at each `||`, from the last to the first. -/
def conjunctions : Expr → List (List Expr)
  | join .or chain last => [last] :: chain.conjunctions
  | join .and chain last =>
    match chain.conjunctions with
    | [] => [[last]]
    | terms :: closed => (last :: terms) :: closed
  | e => [[e]]

/-- The value in C: one of the conjunctions between the `||` holds, and it does if all its terms
do. -/
theorem holds_eq_any_conjunctions (σ : Symbols) (e : Expr) :
    e.holds σ = e.conjunctions.any fun terms => terms.all fun term => term.holds σ := by
  suffices h : ∃ terms closed, e.conjunctions = terms :: closed ∧
      (e.parts σ).2 = terms.all (fun term => term.holds σ) ∧
      (e.parts σ).1 = closed.any fun terms => terms.all fun term => term.holds σ by
    obtain ⟨terms, closed, hcut, hopen, hclosed⟩ := h
    rw [hcut, List.any_cons, ← hopen, ← hclosed, holds, Bool.or_comm]
  induction e with
  | join joiner chain last ih _ =>
    obtain ⟨terms, closed, hcut, hopen, hclosed⟩ := ih
    cases joiner with
    | and =>
      refine ⟨last :: terms, closed, by rw [conjunctions, hcut], ?_, hclosed⟩
      rw [List.all_cons, ← hopen, Bool.and_comm]
      rfl
    | or =>
      refine ⟨[last], terms :: closed, by rw [conjunctions, hcut], ?_, ?_⟩
      · rw [List.all_cons, List.all_nil, Bool.and_true]
        rfl
      · rw [List.any_cons, ← hopen, ← hclosed, Bool.or_comm]
        rfl
  | _ => exact ⟨_, [], rfl, by simp [holds, parts], rfl⟩

end Expr

/-! ## The tokens of what is written -/

theorem tokens_gap {gap : List Char} (hgap : IsGap gap) (cs : List Char) :
    tokens (gap ++ cs) = tokens cs := by
  induction gap with
  | nil => rfl
  | cons c gap ih =>
    obtain ⟨hc, hgap⟩ := List.forall_mem_cons.1 hgap
    have hblank : (c = ' ' || c = '\t') = true := by simpa using hc
    rw [List.cons_append, tokens_cons_blank, if_pos hblank, ih hgap]
    rcases hc with rfl | rfl <;> decide

theorem tokens_opened (cs : List Char) : tokens ('(' :: cs) = .opened :: tokens cs := by
  rw [tokens]
  · simp
  all_goals rintro _ ⟨⟩

theorem tokens_closed (cs : List Char) : tokens (')' :: cs) = .closed :: tokens cs := by
  rw [tokens]
  · simp
  all_goals rintro _ ⟨⟩

theorem tokens_not {cs : List Char} (h : cs.head? ≠ some '=') :
    tokens ('!' :: cs) = .not :: tokens cs := by
  rw [tokens]
  · simp [h]
  all_goals rintro _ ⟨⟩

theorem tokens_sign (joiner : Joiner) (cs : List Char) :
    tokens (joiner.sign ++ cs) = joiner.token :: tokens cs := by
  cases joiner <;> rw [Joiner.sign, Joiner.token, List.cons_append, List.cons_append, tokens] <;> rfl

/-- The characters that a name may start with have a meaning of their own in no other token. -/
theorem tokens_name {name rest : List Char} (hname : IsName name) (hrest : Stops Text.isNameChar rest) :
    tokens (name ++ rest) = .name (String.ofList name) :: tokens rest := by
  obtain ⟨c, more, rfl, hstart, hmore⟩ := hname
  have hne : ∀ d, Text.isNameStart d = false → c ≠ d := by
    rintro d hd rfl
    rw [hstart] at hd
    cases hd
  obtain ⟨htake, hdrop⟩ := Text.takeWhile_append_of_stops hmore hrest
  rw [List.cons_append, tokens, htake, hdrop]
  · simp [hne ' ' (by decide), hne '\t' (by decide), hne '(' (by decide), hne ')' (by decide),
      hne '!' (by decide), hstart]
  · exact fun _ h => absurd h (hne '&' (by decide))
  · exact fun _ h => absurd h (hne '|' (by decide))

theorem isNameStart_of_isDigit {c : Char} (h : c.isDigit = true) : Text.isNameStart c = false := by
  have hdigit : 48 ≤ c.toNat ∧ c.toNat ≤ 57 :=
    (Bool.and_eq_true_iff.1 h).imp of_decide_eq_true of_decide_eq_true
  by_contra hstart
  rw [Bool.not_eq_false, Text.isNameStart, Bool.or_eq_true, beq_iff_eq] at hstart
  rcases hstart with hletter | rfl
  · obtain hupper | hlower := Bool.or_eq_true_iff.1 hletter
    · have hrange : 65 ≤ c.toNat ∧ c.toNat ≤ 90 := of_decide_eq_true hupper
      omega
    · have hrange : 97 ≤ c.toNat ∧ c.toNat ≤ 122 :=
        (Bool.and_eq_true_iff.1 hlower).imp of_decide_eq_true of_decide_eq_true
      omega
  · exact absurd hdigit.2 (by decide)

theorem tokens_number {digits rest : List Char} (hne : digits ≠ [])
    (hdigits : ∀ c ∈ digits, c.isDigit = true) (hrest : Stops Char.isAlphanum rest) :
    tokens (digits ++ rest) = .number (String.ofList digits) :: tokens rest := by
  obtain ⟨c, more, rfl⟩ := List.exists_cons_of_ne_nil hne
  obtain ⟨hdigit, hmore⟩ := List.forall_mem_cons.1 hdigits
  have hne : ∀ d, d.isDigit = false → c ≠ d := by
    rintro d hd rfl
    rw [hdigit] at hd
    cases hd
  have halnum : ∀ d ∈ more, d.isAlphanum = true := by
    intro d hd
    rw [Char.isAlphanum, hmore d hd, Bool.or_true]
  obtain ⟨htake, hdrop⟩ := Text.takeWhile_append_of_stops halnum hrest
  rw [List.cons_append, tokens, htake, hdrop]
  · simp [hne ' ' (by decide), hne '\t' (by decide), hne '(' (by decide), hne ')' (by decide),
      hne '!' (by decide), isNameStart_of_isDigit hdigit, hdigit]
  · exact fun _ h => absurd h (hne '&' (by decide))
  · exact fun _ h => absurd h (hne '|' (by decide))

/-! ## The characters of a token -/

/-- Whether characters in front of others are read as one token. -/
def Token.IsLexeme : Token → List Char → List Char → Prop
  | name text, cs, rest => cs = text.toList ∧ IsName cs ∧ Stops Text.isNameChar rest
  | number text, cs, _ => cs = text.toList ∧ cs ≠ []
  | not, cs, _ => cs = ['!']
  | and, cs, _ => cs = Joiner.and.sign
  | or, cs, _ => cs = Joiner.or.sign
  | opened, cs, _ => cs = ['(']
  | closed, cs, _ => cs = [')']
  | other, _, _ => True

/-- In front of its tokens a text has spaces and tabs alone. -/
theorem exists_lexeme_of_tokens {cs : List Char} {t : Token} {ts : List Token}
    (h : tokens cs = t :: ts) :
    ∃ gap lexeme rest, cs = gap ++ (lexeme ++ rest) ∧ IsGap gap ∧ t.IsLexeme lexeme rest ∧
      tokens rest = ts := by
  fun_induction tokens cs with
  | case1 => cases h
  | case2 rest ih =>
    cases h
    exact ⟨[], Joiner.and.sign, rest, rfl, List.forall_mem_nil _, rfl, rfl⟩
  | case3 rest ih =>
    cases h
    exact ⟨[], Joiner.or.sign, rest, rfl, List.forall_mem_nil _, rfl, rfl⟩
  | case4 c rest h₁ h₂ hspace ih =>
    obtain ⟨gap, lexeme, behind, rfl, hgap, hlexeme, hts⟩ := ih h
    refine ⟨c :: gap, lexeme, behind, rfl, List.forall_mem_cons.2 ⟨?_, hgap⟩, hlexeme, hts⟩
    simpa using hspace
  | case5 rest h₁ h₂ hspace ih =>
    cases h
    exact ⟨[], ['('], rest, rfl, List.forall_mem_nil _, rfl, rfl⟩
  | case6 rest h₁ h₂ hspace hopen ih =>
    cases h
    exact ⟨[], [')'], rest, rfl, List.forall_mem_nil _, rfl, rfl⟩
  | case7 c rest h₁ h₂ hspace hopen hclose hnot ih =>
    cases h
    obtain rfl : c = '!' := by simpa using (Bool.and_eq_true_iff.1 hnot).1
    exact ⟨[], ['!'], rest, rfl, List.forall_mem_nil _, rfl, rfl⟩
  | case8 c rest h₁ h₂ hspace hopen hclose hnot hstart ih =>
    cases h
    refine ⟨[], c :: rest.takeWhile Text.isNameChar, rest.dropWhile Text.isNameChar, ?_,
      List.forall_mem_nil _, ⟨String.toList_ofList.symm, ?_, Text.stops_dropWhile _ rest⟩, rfl⟩
    · rw [List.nil_append, List.cons_append, List.takeWhile_append_dropWhile]
    · exact ⟨c, _, rfl, hstart, fun d hd => List.mem_takeWhile_imp hd⟩
  | case9 c rest h₁ h₂ hspace hopen hclose hnot hstart hdigit ih =>
    cases h
    refine ⟨[], c :: rest.takeWhile Char.isAlphanum, rest.dropWhile Char.isAlphanum, ?_,
      List.forall_mem_nil _, ⟨String.toList_ofList.symm, List.cons_ne_nil _ _⟩, rfl⟩
    rw [List.nil_append, List.cons_append, List.takeWhile_append_dropWhile]
  | case10 c rest h₁ h₂ hspace hopen hclose hnot hstart hdigit ih =>
    cases h
    exact ⟨[], [c], rest, rfl, List.forall_mem_nil _, trivial, rfl⟩

theorem isGap_of_tokens {cs : List Char} (h : tokens cs = []) : IsGap cs := by
  fun_induction tokens cs with
  | case1 => exact List.forall_mem_nil _
  | case4 c rest h₁ h₂ hspace ih =>
    exact List.forall_mem_cons.2 ⟨by simpa using hspace, ih h⟩
  | _ => cases h

/-! ## Writing and reading -/

theorem IsGap.stops {gap : List Char} {p : Char → Bool} (hgap : IsGap gap) (hspace : p ' ' = false)
    (htab : p '\t' = false) {rest : List Char} (hrest : Stops p rest) : Stops p (gap ++ rest) := by
  cases gap with
  | nil => exact hrest
  | cons c gap =>
    rintro d ⟨⟩
    rcases hgap c List.mem_cons_self with rfl | rfl
    · exact hspace
    · exact htab

theorem stops_cons {p : Char → Bool} {c : Char} (hc : p c = false) (rest : List Char) :
    Stops p (c :: rest) := by
  rintro d ⟨⟩
  exact hc

theorem isName_defined : IsName "defined".toList :=
  ⟨'d', "efined".toList, rfl, by decide, List.all_eq_true.1 (by decide)⟩

/-- The numbers that have a truth are the integer literals. -/
theorem literal?_eq_some_iff {digits : List Char} {value : Bool} :
    literal? (String.ofList digits) = some value ↔
      (∀ c ∈ digits, c.isDigit = true) ∧ FitsSigned (Decimal.digitsValue digits) ∧
        value = (Decimal.digitsValue digits != 0) := by
  simp only [literal?, String.toList_ofList]
  rw [← List.all_eq_true]
  constructor
  · intro h
    split at h
    · rename_i hdigits
      split at h
      · rename_i hfits
        cases h
        exact ⟨hdigits, hfits, rfl⟩
      · cases h
    · cases h
  · rintro ⟨hdigits, hfits, rfl⟩
    rw [if_pos hdigits]
    exact if_pos hfits

/-- No phrase starts with an equals sign, which would make one sign of it and of the `!` in front. -/
theorem Spells.exists_cons {fits : Nat → Prop} {phrase : Phrase} {cs : List Char} {e : Expr}
    (h : Spells fits phrase cs e) : ∃ c rest, cs = c :: rest ∧ c ≠ '=' := by
  induction h with
  | @literal digits hne hdigits _ =>
    obtain ⟨c, rest, rfl⟩ := List.exists_cons_of_ne_nil hne
    refine ⟨c, rest, rfl, ?_⟩
    rintro rfl
    exact absurd (hdigits '=' List.mem_cons_self) (by decide)
  | defined => exact ⟨'d', _, rfl, by decide⟩
  | definedIn => exact ⟨'d', _, rfl, by decide⟩
  | not => exact ⟨'!', _, rfl, by decide⟩
  | group => exact ⟨'(', _, rfl, by decide⟩
  | single _ ih => exact ih
  | join joiner _ _ _ _ ih _ =>
    obtain ⟨c, rest, rfl, hc⟩ := ih
    exact ⟨c, _, rfl, hc⟩

/-- What is written has the tokens of the grammar, whatever follows that does not lengthen its last
name or number. -/
theorem Spells.exists_tokens {phrase : Phrase} {cs : List Char} {e : Expr}
    (h : Spells FitsSigned phrase cs e) :
    ∃ ts, Derives literal? phrase ts e ∧
      ∀ rest, Stops Text.isNameChar rest → tokens (cs ++ rest) = ts ++ tokens rest := by
  induction h with
  | @literal digits hne hdigits hfits =>
    refine ⟨_, .literal (literal?_eq_some_iff.2 ⟨hdigits, hfits, rfl⟩), fun rest hrest => ?_⟩
    have halnum : Stops Char.isAlphanum rest := fun c hc =>
      (Bool.or_eq_false_iff.1 (hrest c hc)).1
    exact tokens_number hne hdigits halnum
  | @defined gap name hgap hne hname =>
    refine ⟨_, .defined (String.ofList name), fun rest hrest => ?_⟩
    have hstops : Stops Text.isNameChar (gap ++ (name ++ rest)) := by
      obtain ⟨c, gap, rfl⟩ := List.exists_cons_of_ne_nil hne
      have hc := hgap c List.mem_cons_self
      exact stops_cons (by rcases hc with rfl | rfl <;> decide) _
    rw [List.append_assoc, List.append_assoc, tokens_name isName_defined hstops, tokens_gap hgap,
      tokens_name hname hrest]
    rfl
  | @definedIn outer lead name trail houter hlead hname htrail =>
    refine ⟨_, .definedIn (String.ofList name), fun rest hrest => ?_⟩
    have hstops : Stops Text.isNameChar (outer ++ '(' :: (lead ++ (name ++ (trail ++ ')' :: rest)))) :=
      houter.stops (by decide) (by decide) (stops_cons (by decide) _)
    have hend : Stops Text.isNameChar (trail ++ ')' :: rest) :=
      htrail.stops (by decide) (by decide) (stops_cons (by decide) _)
    simp only [List.append_assoc, List.cons_append, List.nil_append]
    rw [tokens_name isName_defined hstops, tokens_gap houter, tokens_opened, tokens_gap hlead,
      tokens_name hname hend, tokens_gap htrail, tokens_closed]
    rfl
  | @not gap cs e hgap h ih =>
    obtain ⟨ts, hts, htokens⟩ := ih
    refine ⟨.not :: ts, hts.not, fun rest hrest => ?_⟩
    have hhead : (gap ++ (cs ++ rest)).head? ≠ some '=' := by
      obtain ⟨c, more, rfl, hc⟩ := h.exists_cons
      cases gap with
      | nil => simpa using hc
      | cons d gap =>
        rcases hgap d List.mem_cons_self with rfl | rfl <;> simp
    rw [List.cons_append, List.append_assoc, tokens_not hhead, tokens_gap hgap, htokens rest hrest]
    rfl
  | @group lead cs trail e hlead h htrail ih =>
    obtain ⟨ts, hts, htokens⟩ := ih
    refine ⟨_, hts.group, fun rest hrest => ?_⟩
    have hend : Stops Text.isNameChar (trail ++ ')' :: rest) :=
      htrail.stops (by decide) (by decide) (stops_cons (by decide) _)
    simp only [List.append_assoc, List.cons_append, List.nil_append]
    rw [tokens_opened, tokens_gap hlead, htokens _ hend, tokens_gap htrail, tokens_closed]
  | single _ ih =>
    obtain ⟨ts, hts, htokens⟩ := ih
    exact ⟨ts, hts.single, htokens⟩
  | @join joiner before behind cs ds chain last h hbefore hbehind h' ih ih' =>
    obtain ⟨ts, hts, htokens⟩ := ih
    obtain ⟨us, hus, htokens'⟩ := ih'
    refine ⟨_, hts.join joiner hus, fun rest hrest => ?_⟩
    have hstops : Stops Text.isNameChar (before ++ (joiner.sign ++ (behind ++ (ds ++ rest)))) := by
      refine hbefore.stops (by decide) (by decide) ?_
      cases joiner <;> exact stops_cons (by decide) _
    simp only [List.append_assoc]
    rw [htokens _ hstops, tokens_gap hbefore, tokens_sign, tokens_gap hbehind, htokens' rest hrest]
    rfl

/-- Tokens of the grammar are those of something written, in front of which only spaces and tabs
stand. -/
theorem Derives.exists_spells {phrase : Phrase} {ts : List Token} {e : Expr}
    (h : Derives literal? phrase ts e) :
    ∀ cs us, tokens cs = ts ++ us → ∃ gap body rest, cs = gap ++ (body ++ rest) ∧ IsGap gap ∧
      Spells FitsSigned phrase body e ∧ tokens rest = us := by
  induction h with
  | @literal text value hvalue =>
    intro cs us hcs
    obtain ⟨gap, digits, rest, rfl, hgap, ⟨htext, hne⟩, hrest⟩ := exists_lexeme_of_tokens hcs
    have hliteral : literal? (String.ofList digits) = some value := by
      rw [htext, String.ofList_toList, hvalue]
    obtain ⟨hdigits, hfits, rfl⟩ := literal?_eq_some_iff.1 hliteral
    exact ⟨gap, digits, rest, rfl, hgap, .literal hne hdigits hfits, hrest⟩
  | defined name =>
    intro cs us hcs
    obtain ⟨gap, _, behind, rfl, hgap, ⟨rfl, -, hstops⟩, hbehind⟩ := exists_lexeme_of_tokens hcs
    obtain ⟨inner, body, rest, rfl, hinner, ⟨rfl, hname, -⟩, hrest⟩ :=
      exists_lexeme_of_tokens hbehind
    -- Without a gap the name would lengthen the word in front of it.
    have hne : inner ≠ [] := by
      rintro rfl
      obtain ⟨c, more, heq, hstart, -⟩ := hname
      have hc := hstops c (by rw [heq]; rfl)
      rw [Text.isNameChar_of_isNameStart hstart] at hc
      cases hc
    have hspells : Spells FitsSigned .term _ _ := .defined hinner hne hname
    rw [String.ofList_toList] at hspells
    exact ⟨gap, _, rest, by simp only [List.append_assoc], hgap, hspells, hrest⟩
  | definedIn name =>
    intro cs us hcs
    obtain ⟨gap, _, cs₁, rfl, hgap, ⟨rfl, -, -⟩, h₁⟩ := exists_lexeme_of_tokens hcs
    obtain ⟨outer, _, cs₂, rfl, houter, rfl, h₂⟩ := exists_lexeme_of_tokens h₁
    obtain ⟨lead, _, cs₃, rfl, hlead, ⟨rfl, hname, -⟩, h₃⟩ := exists_lexeme_of_tokens h₂
    obtain ⟨trail, _, rest, rfl, htrail, rfl, hrest⟩ := exists_lexeme_of_tokens h₃
    have hspells : Spells FitsSigned .term _ _ := .definedIn houter hlead hname htrail
    rw [String.ofList_toList] at hspells
    refine ⟨gap, _, rest, ?_, hgap, hspells, hrest⟩
    simp only [List.append_assoc, List.cons_append, List.nil_append]
  | not _ ih =>
    intro cs us hcs
    obtain ⟨gap, _, behind, rfl, hgap, rfl, hbehind⟩ := exists_lexeme_of_tokens hcs
    obtain ⟨inner, body, rest, rfl, hinner, hspells, hrest⟩ := ih _ _ hbehind
    refine ⟨gap, _, rest, ?_, hgap, .not hinner hspells, hrest⟩
    simp only [List.append_assoc, List.cons_append, List.nil_append]
  | group _ ih =>
    intro cs us hcs
    rw [List.cons_append, List.append_assoc] at hcs
    obtain ⟨gap, _, cs₁, rfl, hgap, rfl, h₁⟩ := exists_lexeme_of_tokens hcs
    obtain ⟨lead, body, cs₂, rfl, hlead, hspells, h₂⟩ := ih _ _ h₁
    obtain ⟨trail, _, rest, rfl, htrail, rfl, hrest⟩ := exists_lexeme_of_tokens h₂
    refine ⟨gap, _, rest, ?_, hgap, .group hlead hspells htrail, hrest⟩
    simp only [List.append_assoc, List.cons_append, List.nil_append]
  | single _ ih =>
    intro cs us hcs
    obtain ⟨gap, body, rest, hcs, hgap, hspells, hrest⟩ := ih cs us hcs
    exact ⟨gap, body, rest, hcs, hgap, hspells.single, hrest⟩
  | join joiner _ _ ih ih' =>
    intro cs us hcs
    rw [List.append_assoc] at hcs
    obtain ⟨gap, body, cs₁, rfl, hgap, hspells, h₁⟩ := ih _ _ hcs
    obtain ⟨before, sign, cs₂, rfl, hbefore, hsign, h₂⟩ := exists_lexeme_of_tokens h₁
    obtain rfl : sign = joiner.sign := by cases joiner <;> exact hsign
    obtain ⟨behind, last, rest, rfl, hbehind, hlast, hrest⟩ := ih' _ _ h₂
    refine ⟨gap, _, rest, ?_, hgap, .join joiner hspells hbefore hbehind hlast, hrest⟩
    simp only [List.append_assoc]

/-- **A text is read as an expression exactly if that expression is written in it.** -/
theorem read_eq_some_iff_isWritten {text : String} {e : Expr} :
    Expr.read text = some e ↔ IsWritten FitsSigned text e := by
  rw [Expr.read_eq_some_iff]
  constructor
  · intro h
    obtain ⟨lead, cs, trail, htext, hlead, hspells, htrail⟩ :=
      h.exists_spells text.toList [] (List.append_nil _).symm
    exact ⟨lead, cs, trail, hlead, isGap_of_tokens htrail, hspells, htext⟩
  · rintro ⟨lead, cs, trail, hlead, htrail, hspells, htext⟩
    obtain ⟨ts, hderives, htokens⟩ := hspells.exists_tokens
    have hstops : Stops Text.isNameChar trail := by
      rw [← List.append_nil trail]
      exact htrail.stops (by decide) (by decide) (fun c hc => by cases hc)
    have hnil : tokens trail = [] := by
      rw [← List.append_nil trail, tokens_gap htrail, tokens]
    rwa [htext, tokens_gap hlead, htokens trail hstops, hnil, List.append_nil]

/-! ## Values -/

/-- Where everything is known, a condition without mixed joiners has its value in C. -/
theorem Expr.truth_ofBool (σ : Symbols) {e : Expr} (h : e.isUnmixed = true) :
    (e.truth fun name => Truth.ofBool (σ name)) = Truth.ofBool (e.holds σ) := by
  -- That there is a value at all is enough: a known one is right.
  suffices hknown : ∃ value, (e.truth fun name => Truth.ofBool (σ name)) = Truth.ofBool value by
    obtain ⟨value, hvalue⟩ := hknown
    have hextends : σ.Extends fun name => Truth.ofBool (σ name) :=
      fun name value h => Truth.ofBool_inj.1 h
    rw [hvalue, Expr.holds_of_truth hextends hvalue]
  induction e with
  | literal value => exact ⟨value, rfl⟩
  | defined name => exact ⟨σ name, rfl⟩
  | not term ih =>
    obtain ⟨value, hvalue⟩ := ih h
    exact ⟨!value, by rw [truth, hvalue, Truth.not_ofBool]⟩
  | group inner ih => exact ih h
  | join joiner chain last ihChain ihLast =>
    rw [isUnmixed, Bool.and_eq_true, Bool.and_eq_true] at h
    obtain ⟨a, ha⟩ := ihChain h.1.2
    obtain ⟨b, hb⟩ := ihLast h.2
    simp only [truth, if_pos h.1.1, ha, hb]
    cases joiner with
    | and => exact ⟨a && b, Truth.and_ofBool a b⟩
    | or => exact ⟨a || b, Truth.or_ofBool a b⟩

/-- **The value of a condition is right, and there is one where there can be.**  A known value belongs
to a text that is a condition; it is the value in C under all symbols that extend what is known, which
takes the `&&` before the `||`, and knowing more does not change it.  Where everything is known, a
condition without mixed joiners has a value.  A text that is no condition never has one. -/
theorem evaluate_of_isWritten (text : String) :
    (∀ known value, evaluate text known = Truth.ofBool value →
      (∃ e, IsWritten FitsSigned text e) ∧
      (∀ e, IsWritten FitsSigned text e → ∀ σ, Symbols.Extends σ known → e.holds σ = value ∧
        (e.conjunctions.any fun terms => terms.all fun term => term.holds σ) = value) ∧
      ∀ more, (∀ name, (known name).Below (more name)) →
        evaluate text more = Truth.ofBool value) ∧
    (∀ e, IsWritten FitsSigned text e → e.isUnmixed = true → ∀ σ : Symbols,
      (evaluate text fun name => Truth.ofBool (σ name)) = Truth.ofBool (e.holds σ)) ∧
    ((∀ e, ¬ IsWritten FitsSigned text e) → ∀ known, evaluate text known = .unknown) := by
  simp only [← read_eq_some_iff_isWritten, evaluate]
  refine ⟨fun known value hvalue => ?_, fun e hread hunmixed σ => ?_, fun hnone known => ?_⟩
  · split at hvalue
    · rename_i e hread
      refine ⟨⟨e, hread⟩, fun e' hread' σ hσ => ?_, fun more hmore => ?_⟩
      · rw [hread] at hread'
        cases hread'
        have hholds := Expr.holds_of_truth hσ hvalue
        rw [← Expr.holds_eq_any_conjunctions]
        exact ⟨hholds, hholds⟩
      · have hbelow := Expr.truth_below hmore e
        rw [hvalue] at hbelow
        exact hbelow.resolve_left (Truth.ofBool_ne_unknown value)
    · exact absurd hvalue.symm (Truth.ofBool_ne_unknown value)
  · rw [hread]
    exact Expr.truth_ofBool σ hunmixed
  · rw [Option.eq_none_iff_forall_ne_some.2 hnone]

/-- One name that is defined decides a disjunction, whatever is open in its other part. -/
theorem evaluate_of_disjunction :
    (∃ e, IsWritten FitsSigned "defined(A) || (defined B && !0)" e) ∧
    ∀ e, IsWritten FitsSigned "defined(A) || (defined B && !0)" e →
      ∀ σ : Symbols, σ "A" = true → e.holds σ = true := by
  obtain ⟨hwritten, hholds, -⟩ := (evaluate_of_isWritten "defined(A) || (defined B && !0)").1
    (fun name => if name = "A" then .yes else .unknown) true (by decide +kernel)
  refine ⟨hwritten, fun e he σ hσ => (hholds e he σ ?_).1⟩
  intro name value hvalue
  dsimp only at hvalue
  split at hvalue
  · rename_i hname
    rw [hname, hσ]
    exact Truth.ofBool_inj.1 hvalue
  · exact absurd hvalue.symm (Truth.ofBool_ne_unknown value)

/-- A literal of 64 bits is a condition of C that has no value here. -/
theorem unknown_of_wide_literal :
    ¬ ∀ text e, IsWritten (fun n => n < Nat.pow 2 64) text e → e.isUnmixed = true → ∀ σ : Symbols,
      (evaluate text fun name => Truth.ofBool (σ name)) ≠ .unknown := by
  intro h
  have hwritten : IsWritten (fun n => n < Nat.pow 2 64) "9223372036854775808" (.literal true) := by
    refine ⟨[], "9223372036854775808".toList, [], List.forall_mem_nil _, List.forall_mem_nil _,
      .single ?_, rfl⟩
    exact .literal (by decide) (List.all_eq_true.1 (by decide)) (by decide)
  exact h _ _ hwritten rfl (fun _ => false) (by decide +kernel)

end ShaderMerge.Condition
