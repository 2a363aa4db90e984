import ShaderMerge.Condition.Expr

/-!
# What the readers of conditions accept

`Derives` is the grammar of conditions on their tokens: a phrase is a term or a chain of terms, and
every way of writing a term is a rule of its own.  The readers `readTerm`, `readChain` and `readMore`
find exactly the phrases of this grammar: what they have read is one (`derives_of_found`), and one in
front of any other tokens is read up to its end (`Derives.found`).
-/

namespace ShaderMerge.Condition

/-! ## The grammar -/

/-- The token of a joiner. -/
def Joiner.token : Joiner → Token
  | and => .and
  | or => .or

/-- The two kinds of phrases in a condition. -/
inductive Phrase where
  /-- What a joiner may stand beside. -/
  | term
  /-- Terms with joiners between them. -/
  | chain

/-- The tokens of a phrase and the expression they stand for, given the truth of those numbers that
are integer literals. -/
inductive Derives (truth? : String → Option Bool) : Phrase → List Token → Expr → Prop where
  /-- An integer literal. -/
  | literal {text value} (h : truth? text = some value) :
    Derives truth? .term [.number text] (.literal value)
  /-- The question whether a name is defined. -/
  | defined (name) : Derives truth? .term [.name "defined", .name name] (.defined name)
  /-- The same question with the name in parentheses. -/
  | definedIn (name) :
    Derives truth? .term [.name "defined", .opened, .name name, .closed] (.defined name)
  /-- A negated term. -/
  | not {ts e} (h : Derives truth? .term ts e) : Derives truth? .term (.not :: ts) (.not e)
  /-- A chain in parentheses. -/
  | group {ts e} (h : Derives truth? .chain ts e) :
    Derives truth? .term (.opened :: (ts ++ [.closed])) (.group e)
  /-- A chain of one term. -/
  | single {ts e} (h : Derives truth? .term ts e) : Derives truth? .chain ts e
  /-- A chain with one more term. -/
  | join (joiner) {ts us chain last} (h : Derives truth? .chain ts chain)
    (h' : Derives truth? .term us last) :
    Derives truth? .chain (ts ++ joiner.token :: us) (.join joiner chain last)

/-! ## What a reader finds -/

/-- The expression of a reading with the tokens behind it. -/
def Reading.found {n : Nat} (r : Reading n) : Option (Expr × List Token) := r.result.map (·.1)

theorem Reading.found_of_result {n : Nat} {r : Reading n} {found : Expr × List Token}
    {h : found.2.length < n} (hresult : r.result = some ⟨found, h⟩) : r.found = some found := by
  rw [Reading.found, hresult]
  rfl

theorem Reading.found_of_none {n : Nat} {r : Reading n} (hresult : r.result = none) :
    r.found = none := by
  rw [Reading.found, hresult]
  rfl

theorem found_readTerm_not (ts : List Token) :
    (readTerm (.not :: ts)).found = (readTerm ts).found.map fun f => (.not f.1, f.2) := by
  rw [readTerm, Reading.found, Reading.found, Reading.lift, Option.map_map, Option.map_map]
  rfl

theorem found_readTerm_opened {ts after : List Token} {e : Expr}
    (h : (readChain ts).found = some (e, .closed :: after)) :
    (readTerm (.opened :: ts)).found = some (.group e, after) := by
  obtain ⟨⟨found, hlt⟩, hresult, rfl⟩ := Option.map_eq_some_iff.1 h
  rw [readTerm]
  simp only [hresult, Reading.found, Option.map_some]

theorem found_readChain (ts : List Token) :
    (readChain ts).found = (readTerm ts).found.bind fun f => (readMore f.1 f.2).found := by
  rw [readChain, Reading.found, Reading.found]
  cases (readTerm ts).result with
  | none => rfl
  | some found => exact Option.map_map ..

theorem found_readMore_token (joiner : Joiner) (chain : Expr) (ts : List Token) :
    (readMore chain (joiner.token :: ts)).found = (readJoined joiner chain ts).found := by
  cases joiner <;> rw [Joiner.token, readMore]

theorem found_readJoined (joiner : Joiner) (chain : Expr) (ts : List Token) :
    (readJoined joiner chain ts).found
      = (readTerm ts).found.bind fun f => (readMore (.join joiner chain f.1) f.2).found := by
  rw [readJoined, Reading.found, Reading.found]
  cases (readTerm ts).result with
  | none => rfl
  | some found => exact Option.map_map ..

theorem found_readMore_closed (chain : Expr) (ts : List Token) :
    (readMore chain (.closed :: ts)).found = some (chain, .closed :: ts) := by
  rw [readMore]
  · rfl
  · rintro _ ⟨⟩
  · rintro _ ⟨⟩

theorem found_readMore_nil (chain : Expr) : (readMore chain []).found = some (chain, []) := by
  rw [readMore]
  · rfl
  · rintro _ ⟨⟩
  · rintro _ ⟨⟩

/-! ## Readers find the phrases of the grammar -/

/-- How far the readers come at a phrase in front of other tokens. -/
def Phrase.IsFound : Phrase → List Token → Expr → Prop
  | term, ts, e => ∀ rest, (readTerm (ts ++ rest)).found = some (e, rest)
  -- Behind a chain a reader goes on, in case the chain is longer.
  | chain, ts, e => ∀ rest, (readChain (ts ++ rest)).found = (readMore e rest).found

/-- A phrase of the grammar is read up to its end. -/
theorem Derives.found {phrase : Phrase} {ts : List Token} {e : Expr}
    (h : Derives literal? phrase ts e) : phrase.IsFound ts e := by
  induction h with
  | literal hvalue =>
    intro rest
    rw [List.cons_append, readTerm]
    simp only [hvalue]
    rfl
  | defined name =>
    intro rest
    rw [List.cons_append, List.cons_append, readTerm]
    rfl
  | definedIn name =>
    intro rest
    rw [List.cons_append, List.cons_append, List.cons_append, List.cons_append, readTerm]
    rfl
  | not _ ih =>
    intro rest
    rw [List.cons_append, found_readTerm_not, ih rest]
    rfl
  | group _ ih =>
    intro rest
    rw [List.cons_append, List.append_assoc]
    apply found_readTerm_opened
    rw [ih, List.cons_append, found_readMore_closed]
    rfl
  | single _ ih =>
    intro rest
    rw [found_readChain, ih rest]
    rfl
  | join joiner _ _ ihChain ihLast =>
    intro rest
    rw [List.append_assoc, ihChain, List.cons_append, found_readMore_token, found_readJoined,
      ihLast rest]
    rfl

/-- What a reader has read is a phrase of the grammar. -/
theorem derives_of_found :
    (∀ ts e rest, (readTerm ts).found = some (e, rest) →
      ∃ used, ts = used ++ rest ∧ Derives literal? .term used e) ∧
    (∀ ts e rest, (readChain ts).found = some (e, rest) →
      ∃ used, ts = used ++ rest ∧ Derives literal? .chain used e) ∧
    (∀ chain ts e rest, (readMore chain ts).found = some (e, rest) →
      ∀ before, Derives literal? .chain before chain →
        ∃ used, ts = used ++ rest ∧ Derives literal? .chain (before ++ used) e) ∧
    (∀ joiner chain ts e rest, (readJoined joiner chain ts).found = some (e, rest) →
      ∀ before, Derives literal? .chain before chain →
        ∃ used, ts = used ++ rest ∧
          Derives literal? .chain (before ++ joiner.token :: used) e) := by
  -- One case for each branch of the four readers, in the order of their definitions.
  refine readTerm.mutual_induct _ _ _ _ ?_ ?_ ?_ ?_ ?_ ?_ ?_ ?_ ?_ ?_ ?_ ?_ ?_ ?_ ?_ ?_
  · intro ts ih e rest h
    rw [found_readTerm_not] at h
    obtain ⟨⟨term, rest⟩, hterm, ⟨⟩⟩ := Option.map_eq_some_iff.1 h
    obtain ⟨used, hts, hused⟩ := ih _ _ hterm
    exact ⟨.not :: used, by rw [hts, List.cons_append], hused.not⟩
  · intro ts inner e after hlt hresult ih e' rest h
    have hinner : (readChain ts).found = some (e, .closed :: after) := Reading.found_of_result hresult
    rw [found_readTerm_opened hinner] at h
    cases h
    obtain ⟨used, hts, hused⟩ := ih _ _ hinner
    exact ⟨.opened :: (used ++ [.closed]), by simp [hts], hused.group⟩
  · intro ts inner hother ih e rest h
    -- A chain that no closing parenthesis follows is no term.
    rw [readTerm] at h
    split at h
    · rename_i hresult
      exact absurd hresult (by simpa [inner] using hother _ _ _)
    · cases h
  · intro name ts e rest h
    rw [readTerm] at h
    cases h
    exact ⟨_, rfl, .defined name⟩
  · intro name ts e rest h
    rw [readTerm] at h
    cases h
    exact ⟨_, rfl, .definedIn name⟩
  · intro name ts hother e rest h
    rw [readTerm] at h
    · cases h
    · exact hother
  · intro text ts value hvalue e rest h
    rw [readTerm] at h
    simp only [hvalue] at h
    cases h
    exact ⟨[.number text], rfl, .literal hvalue⟩
  · intro text ts hvalue e rest h
    rw [readTerm] at h
    simp only [hvalue] at h
    cases h
  · intro ts h₁ h₂ h₃ h₄ h₅ h₆ e rest h
    rw [readTerm] at h
    · cases h
    all_goals assumption
  · intro ts first term behind hlt hresult _ ihFirst ihMore e rest h
    have hfirst : (readTerm ts).found = some (term, behind) := Reading.found_of_result hresult
    rw [found_readChain, hfirst] at h
    obtain ⟨used, hts, hused⟩ := ihFirst _ _ hfirst
    obtain ⟨more, hbehind, hmore⟩ := ihMore _ _ h used hused.single
    exact ⟨used ++ more, by rw [hts, hbehind, List.append_assoc], hmore⟩
  · intro ts first hresult _ e rest h
    rw [found_readChain, Reading.found_of_none hresult] at h
    cases h
  · intro chain ts ih e rest h before hbefore
    rw [readMore] at h
    obtain ⟨used, hts, hused⟩ := ih _ _ h before hbefore
    exact ⟨.and :: used, by rw [hts, List.cons_append], hused⟩
  · intro chain ts ih e rest h before hbefore
    rw [readMore] at h
    obtain ⟨used, hts, hused⟩ := ih _ _ h before hbefore
    exact ⟨.or :: used, by rw [hts, List.cons_append], hused⟩
  · intro chain ts hand hor e rest h before hbefore
    rw [readMore] at h
    · cases h
      exact ⟨[], rfl, by rwa [List.append_nil]⟩
    all_goals assumption
  · intro joiner chain ts last term behind hlt hresult _ ihLast ihMore e rest h before hbefore
    have hlast : (readTerm ts).found = some (term, behind) := Reading.found_of_result hresult
    rw [found_readJoined, hlast] at h
    obtain ⟨used, hts, hused⟩ := ihLast _ _ hlast
    obtain ⟨more, hbehind, hmore⟩ := ihMore _ _ h _ (hbefore.join joiner hused)
    rw [List.append_assoc, List.cons_append] at hmore
    exact ⟨used ++ more, by rw [hts, hbehind, List.append_assoc], hmore⟩
  · intro joiner chain ts last hresult _ e rest h before hbefore
    rw [found_readJoined, Reading.found_of_none hresult] at h
    cases h

/-- **A text reads as an expression exactly if its tokens are a chain of the grammar.** -/
theorem Expr.read_eq_some_iff {text : String} {e : Expr} :
    Expr.read text = some e ↔ Derives literal? .chain (tokens text.toList) e := by
  constructor
  · intro h
    rw [Expr.read] at h
    split at h
    · rename_i hresult
      cases h
      obtain ⟨used, hused, hderives⟩ :=
        derives_of_found.2.1 _ _ _ (Reading.found_of_result hresult)
      rwa [hused, List.append_nil]
    · cases h
  · intro h
    have hfound : (readChain (tokens text.toList)).found = some (e, []) := by
      rw [← found_readMore_nil e, ← h.found [], List.append_nil]
    obtain ⟨⟨found, hlt⟩, hresult, rfl⟩ := Option.map_eq_some_iff.1 hfound
    rw [Expr.read]
    simp only [hresult]

end ShaderMerge.Condition
