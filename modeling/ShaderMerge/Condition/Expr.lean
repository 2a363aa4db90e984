import ShaderMerge.Text.Scan
import ShaderMerge.Condition.Truth

/-!
# Condition expressions

The conditions that can be decided from definedness alone: `defined NAME`, `defined(NAME)` and
integer literals, with `!`, parentheses, `&&` and `||`.

`Expr.read` turns the tokens of a text into an `Expr`, the syntax as written: a chain of joined
terms leans to the left, and what stands in parentheses is a `group`.  `Expr.truth` gives its
value.  A chain with both kinds of joiner has no value of its own, since no precedence is
assumed.  `evaluate` puts the two together, and anything that is not such an expression is
unknown.
-/

namespace ShaderMerge.Condition

/-! ## Tokens -/

/-- A token of a condition. -/
inductive Token where
  /-- A name. -/
  | name (text : String)
  /-- A digit with the letters and digits behind it. -/
  | number (text : String)
  /-- An exclamation mark that no equals sign follows. -/
  | not
  /-- The joiner `&&`. -/
  | and
  /-- The joiner `||`. -/
  | or
  /-- An opening parenthesis. -/
  | opened
  /-- A closing parenthesis. -/
  | closed
  /-- Any other character; no condition that can be decided has one. -/
  | other
deriving DecidableEq, Repr

/-- The tokens of a text; only spaces and tabs may stand between them. -/
def tokens : List Char → List Token
  | [] => []
  | '&' :: '&' :: rest => .and :: tokens rest
  | '|' :: '|' :: rest => .or :: tokens rest
  | c :: rest =>
    if c = ' ' || c = '\t' then tokens rest
    else if c = '(' then .opened :: tokens rest
    else if c = ')' then .closed :: tokens rest
    else if c = '!' && rest.head? != some '=' then .not :: tokens rest
    else if Text.isNameStart c then
      .name (String.ofList (c :: rest.takeWhile Text.isNameChar))
        :: tokens (rest.dropWhile Text.isNameChar)
    else if c.isDigit then
      .number (String.ofList (c :: rest.takeWhile Char.isAlphanum))
        :: tokens (rest.dropWhile Char.isAlphanum)
    else .other :: tokens rest
termination_by cs => cs.length
decreasing_by
  all_goals simp only [List.length_cons]
  all_goals first
    | omega
    | exact Nat.lt_succ_of_le (List.dropWhile_sublist _).length_le

/-- The truth of an integer literal: whether it differs from zero.  Only decimal digits whose
value fits a signed 64-bit integer make a literal. -/
def literal? (text : String) : Option Bool :=
  let cs := text.toList
  if cs.all Char.isDigit then
    let value := cs.foldl (fun n c => 10 * n + (c.toNat - '0'.toNat)) 0
    if value < Nat.pow 2 63 then some (value != 0) else none
  else none

/-! ## Expressions -/

/-- What joins two terms. -/
inductive Joiner where
  /-- Both must hold. -/
  | and
  /-- One must hold. -/
  | or
deriving DecidableEq, Repr

/-- A condition as it is written. -/
inductive Expr where
  /-- An integer literal, by its truth. -/
  | literal (value : Bool)
  /-- Whether a name is defined. -/
  | defined (name : String)
  /-- A negated term. -/
  | not (term : Expr)
  /-- An expression in parentheses. -/
  | group (inner : Expr)
  /-- A chain of terms and one more term. -/
  | join (joiner : Joiner) (chain last : Expr)
deriving DecidableEq, Repr

namespace Expr

/-- Whether all the terms of a chain are joined by one joiner. -/
def isUniform (joiner : Joiner) : Expr → Bool
  | join j chain _ => j == joiner && chain.isUniform joiner
  | _ => true

/-- The value of an expression, given what is known of each name. -/
def truth (known : String → Truth) : Expr → Truth
  | literal value => Truth.ofBool value
  | defined name => known name
  | not term => (term.truth known).not
  | group inner => inner.truth known
  | join joiner chain last =>
    if chain.isUniform joiner then
      match joiner with
      | .and => (chain.truth known).and (last.truth known)
      | .or => (chain.truth known).or (last.truth known)
    else .unknown

end Expr

/-! ## Reading -/

/-- What a reader found: the names it asked about, in order, and, unless the tokens are not
well formed, an expression with the tokens behind it, fewer than there were. -/
structure Reading (n : Nat) where
  /-- The names after `defined`, as far as the reader came. -/
  names : List String
  /-- The expression and the tokens that follow it. -/
  result : Option { found : Expr × List Token // found.2.length < n }

namespace Reading

/-- Nothing could be read. -/
def failed {n : Nat} (names : List String) : Reading n := ⟨names, none⟩

/-- Change the expression of a reading, and let it count as a reading of more tokens. -/
def lift {m n : Nat} (h : m ≤ n) (f : Expr → Expr) (r : Reading m) : Reading n :=
  ⟨r.names, r.result.map fun found =>
    ⟨(f found.1.1, found.1.2), Nat.lt_of_lt_of_le found.2 h⟩⟩

end Reading

mutual

/-- Read one term. -/
def readTerm (ts : List Token) : Reading ts.length :=
  match ts with
  | .not :: rest => (readTerm rest).lift (by simp) .not
  | .opened :: rest =>
    let inner := readChain rest
    match inner.result with
    | some ⟨(e, .closed :: after), h⟩ =>
      ⟨inner.names, some ⟨(.group e, after), by simp only [List.length_cons] at h ⊢; omega⟩⟩
    | _ => .failed inner.names
  | .name "defined" :: .name name :: rest =>
    ⟨[name], some ⟨(.defined name, rest), by simp only [List.length_cons]; omega⟩⟩
  | .name "defined" :: .opened :: .name name :: .closed :: rest =>
    ⟨[name], some ⟨(.defined name, rest), by simp only [List.length_cons]; omega⟩⟩
  -- The name is asked about before its parenthesis is missed.
  | .name "defined" :: .opened :: .name name :: _ => .failed [name]
  | .number text :: rest =>
    match literal? text with
    | some value => ⟨[], some ⟨(.literal value, rest), by simp⟩⟩
    | none => .failed []
  | _ => .failed []
termination_by 4 * ts.length

/-- Read terms with joiners between them. -/
def readChain (ts : List Token) : Reading ts.length :=
  let first := readTerm ts
  match first.result with
  | some ⟨(e, rest), h⟩ =>
    have : rest.length < ts.length := h
    let whole := readMore e rest
    ⟨first.names ++ whole.names, whole.result.map fun found =>
      ⟨found.1, Nat.lt_of_le_of_lt (Nat.le_of_lt_succ found.2) h⟩⟩
  | none => .failed first.names
termination_by 4 * ts.length + 1

/-- Read the rest of a chain, as long as a joiner follows. -/
def readMore (chain : Expr) (ts : List Token) : Reading (ts.length + 1) :=
  match ts with
  | .and :: rest => readJoined .and chain rest
  | .or :: rest => readJoined .or chain rest
  | others => ⟨[], some ⟨(chain, others), Nat.lt_succ_self _⟩⟩
termination_by 4 * ts.length + 2

/-- Read the term behind a joiner, and the rest of the chain. -/
def readJoined (joiner : Joiner) (chain : Expr) (ts : List Token) : Reading (ts.length + 2) :=
  let last := readTerm ts
  match last.result with
  | some ⟨(e, rest), h⟩ =>
    have : rest.length < ts.length := h
    let whole := readMore (.join joiner chain e) rest
    ⟨last.names ++ whole.names, whole.result.map fun found =>
      ⟨found.1, by have := found.2; simp only at h; omega⟩⟩
  | none => .failed last.names
termination_by 4 * ts.length + 3

end

/-- Read all the tokens of a text as one expression. -/
def Expr.read (text : String) : Option Expr :=
  match (readChain (tokens text.toList)).result with
  | some ⟨(e, []), _⟩ => some e
  | _ => none

/-- The names that are asked about while a text is read, in order and with repeats; those in
front of the place where a text stops being well formed are among them. -/
def namesAsked (text : String) : List String :=
  (readChain (tokens text.toList)).names

/-- The value of a condition, given what is known of each name. -/
def evaluate (text : String) (known : String → Truth) : Truth :=
  match Expr.read text with
  | some e => e.truth known
  | none => .unknown

end ShaderMerge.Condition
