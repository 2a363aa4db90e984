import ShaderMerge.Condition.Filter

/-!
# The classical preprocessor

A `Preprocessor` reads lines as a C preprocessor does that expands no macros: it knows of every
symbol whether it is defined, decides each group `#if … #endif` when it meets its directives, and
hands on the lines of the arms that are live.  It is the yardstick for `Filter`, which knows only
some symbols and keeps what it cannot decide.

Conditions outside the grammar of `Expr` (macros, comparisons, arithmetic) have no value of their
own here.  They are decided by an oracle, a function of the trimmed text of the condition and of
the symbols; on the grammar it gives the value that C gives, `Expr.holds`.
-/

namespace ShaderMerge.Condition

/-- Which symbols are defined. -/
abbrev Symbols := String → Bool

namespace Symbols

/-- The symbols with one of them defined or undefined. -/
def set (σ : Symbols) (name : String) (isDefined : Bool) : Symbols :=
  fun n => if n = name then isDefined else σ n

@[simp] theorem set_self (σ : Symbols) (name : String) (isDefined : Bool) :
    σ.set name isDefined name = isDefined := by
  simp [set]

theorem set_of_ne (σ : Symbols) {name n : String} (isDefined : Bool) (h : n ≠ name) :
    σ.set name isDefined n = σ n := by
  simp [set, h]

end Symbols

/-! ## The value of a condition in C -/

namespace Expr

/-- The value of a chain in two parts: whether one of the conjunctions holds that an `||` has
closed, and the value of the conjunction that is still open. -/
def parts (σ : Symbols) : Expr → Bool × Bool
  | literal value => (false, value)
  | defined name => (false, σ name)
  | not term => (false, !((term.parts σ).1 || (term.parts σ).2))
  | group inner => (false, (inner.parts σ).1 || (inner.parts σ).2)
  | join .and chain last =>
    ((chain.parts σ).1, (chain.parts σ).2 && ((last.parts σ).1 || (last.parts σ).2))
  | join .or chain last =>
    ((chain.parts σ).1 || (chain.parts σ).2, (last.parts σ).1 || (last.parts σ).2)

/-- The value of an expression in C, where `&&` binds tighter than `||`. -/
def holds (σ : Symbols) (e : Expr) : Bool := (e.parts σ).1 || (e.parts σ).2

end Expr

/-- What decides a condition, given its trimmed text and the symbols. -/
abbrev Oracle := String → Symbols → Bool

/-- An oracle that gives the conditions of the grammar their value in C. -/
def Oracle.IsClassical (oracle : Oracle) : Prop :=
  ∀ text e, Expr.read (Text.trim text) = some e →
    ∀ σ, oracle (Text.trim text) σ = e.holds σ

/-! ## The machine -/

/-- How far a group that is open has come. -/
inductive Level where
  /-- No arm so far was live, and the next one may be. -/
  | waiting
  /-- The arm that is being read is live. -/
  | live
  /-- No arm is live any more: one was, or the group stands in dead text. -/
  | done
deriving DecidableEq, Repr

namespace Level

/-- A group whose first condition has a value, in live or in dead text. -/
def opened (outer value : Bool) : Level :=
  if outer then if value then live else waiting else done

/-- The group at its next arm, whose condition has a value. -/
def next : Level → Bool → Level
  | waiting, true => live
  | waiting, false => waiting
  | _, _ => done

/-- Whether the text inside some open groups is live. -/
def liveIn : List Level → Bool
  | [] => true
  | l :: _ => l == live

theorem liveIn_cons (l : Level) (levels : List Level) : liveIn (l :: levels) = (l == live) := rfl

end Level

/-- A preprocessor between two lines. -/
structure Preprocessor where
  /-- The symbols that are defined here. -/
  symbols : Symbols
  /-- The open groups, innermost first. -/
  levels : List Level
  /-- The live lines so far. -/
  output : List String

namespace Preprocessor

/-- A preprocessor in front of the first line. -/
def start (σ : Symbols) : Preprocessor := ⟨σ, [], []⟩

/-- Whether the next line stands in live text. -/
def isLive (c : Preprocessor) : Bool := Level.liveIn c.levels

/-- Hand on a line. -/
def emit (c : Preprocessor) (line : String) : Preprocessor :=
  { c with output := c.output ++ [line] }

/-- Read a line that is no part of a group: it is handed on in live text. -/
def pass (c : Preprocessor) (line : String) : Preprocessor :=
  if c.isLive then c.emit line else c

/-- Open a group whose first condition has a value. -/
def openGroup (c : Preprocessor) (value : Bool) : Preprocessor :=
  { c with levels := .opened c.isLive value :: c.levels }

/-- Start another arm of the innermost group.  A directive without a group is a line like any
other. -/
def nextArm (c : Preprocessor) (line : String) (value : Bool) : Preprocessor :=
  match c.levels with
  | [] => c.emit line
  | l :: outer => { c with levels := l.next value :: outer }

/-- End the innermost group. -/
def closeGroup (c : Preprocessor) (line : String) : Preprocessor :=
  match c.levels with
  | [] => c.emit line
  | _ :: outer => { c with levels := outer }

/-- Note a definition in live text. -/
def define (c : Preprocessor) (line name : String) (isDefined : Bool) : Preprocessor :=
  if c.isLive then { c with symbols := c.symbols.set name isDefined }.emit line else c

/-- Read one line. -/
def step (oracle : Oracle) (c : Preprocessor) (line : String) : Preprocessor :=
  match Control.ofLine line with
  | .openIf expression => c.openGroup (oracle (Text.trim expression) c.symbols)
  | .openDefined name => c.openGroup (c.symbols name)
  | .openUndefined name => c.openGroup !c.symbols name
  | .elseIf expression => c.nextArm line (oracle (Text.trim expression) c.symbols)
  | .otherwise => c.nextArm line true
  | .close => c.closeGroup line
  | .define name => c.define line name true
  | .undefine name => c.define line name false
  | .plain => c.pass line

/-- Read lines one after the other. -/
def run (oracle : Oracle) (c : Preprocessor) (lines : List String) : Preprocessor :=
  lines.foldl (step oracle) c

@[simp] theorem run_nil (oracle : Oracle) (c : Preprocessor) : c.run oracle [] = c := rfl

@[simp] theorem run_cons (oracle : Oracle) (c : Preprocessor) (line : String)
    (lines : List String) :
    c.run oracle (line :: lines) = (c.step oracle line).run oracle lines := rfl

theorem run_append (oracle : Oracle) (c : Preprocessor) (first second : List String) :
    c.run oracle (first ++ second) = (c.run oracle first).run oracle second := by
  rw [run, List.foldl_append]
  rfl

end Preprocessor

end ShaderMerge.Condition
