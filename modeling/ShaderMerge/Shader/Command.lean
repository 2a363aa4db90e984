import ShaderMerge.Text.Scan

/-!
# Commands and tags outside of programs

A command may use a property by its name in square brackets, as in `Cull [_Cull]`.  A block of
tags holds pairs of quoted texts, as in `"LightMode" = "Deferred"`.
-/

namespace ShaderMerge.Command

/-- A name in square brackets at the start of a text, and the rest. -/
def bracketedName? : List Char → Option (List Char × List Char)
  | '[' :: rest =>
    match Text.name? rest with
    | some (name, ']' :: after) => some (name, after)
    | _ => none
  | _ => none

theorem length_lt_of_bracketedName? {cs name rest : List Char}
    (h : bracketedName? cs = some (name, rest)) : rest.length < cs.length := by
  unfold bracketedName? at h
  split at h
  · split at h
    · rename_i found
      have hlt := Text.length_lt_of_name? found
      simp only [Option.some.injEq, Prod.mk.injEq] at h
      rw [← h.2]
      simp only [List.length_cons] at hlt ⊢
      omega
    · simp at h
  · simp at h

/-- The properties that a command uses. -/
def properties : List Char → List String
  | [] => []
  | c :: rest =>
    match bracketedName? (c :: rest) with
    | some (name, _) => String.ofList name :: properties rest
    | none => properties rest

/-- A command with some of its properties replaced, brackets and all. -/
def substitute (value : String → Option String) (cs : List Char) : List Char :=
  match cs with
  | [] => []
  | c :: rest =>
    match _found : bracketedName? (c :: rest) with
    | some (name, after) =>
      let whole := '[' :: name ++ [']']
      ((value (String.ofList name)).map String.toList).getD whole ++ substitute value after
    | none => c :: substitute value rest
termination_by cs.length
decreasing_by
  · exact length_lt_of_bracketedName? _found
  · simp

/-- A pair of tags at the start of a text, the first one not empty, and the rest. -/
def tagPair? (cs : List Char) : Option ((List Char × List Char) × List Char) :=
  (Text.afterChar? '"' cs).bind fun inner =>
  (Text.until? '"' inner).bind fun (key, afterKey) =>
  (Text.afterChar? '=' (Text.skipBlanks afterKey)).bind fun afterSign =>
  (Text.afterChar? '"' (Text.skipBlanks afterSign)).bind fun inner =>
  (Text.until? '"' inner).bind fun (value, rest) =>
  if key.isEmpty then none else some ((key, value), rest)

/-- The pairs of tags on a line. -/
def tagPairs (cs : List Char) : List (String × String) :=
  match cs with
  | [] => []
  | c :: rest =>
    match _found : tagPair? (c :: rest) with
    | some ((key, value), after) =>
      (String.ofList key, String.ofList value) :: tagPairs after
    | none => tagPairs rest
termination_by cs.length
decreasing_by
  · simp only [tagPair?, Option.bind_eq_some_iff] at _found
    obtain ⟨_, h₁, ⟨_, _⟩, h₂, _, h₃, _, h₄, ⟨_, _⟩, h₅, h₆⟩ := _found
    have l₁ := Text.length_lt_of_afterChar? h₁
    have l₂ := Text.length_lt_of_until? h₂
    have l₃ := Text.length_lt_of_afterChar? h₃
    have l₄ := Text.length_lt_of_afterChar? h₄
    have l₅ := Text.length_lt_of_until? h₅
    have b₃ := Text.length_skipBlanks_le
    split at h₆
    · simp at h₆
    · simp only [Option.some.injEq, Prod.mk.injEq] at h₆
      rw [← h₆.2]
      exact Nat.lt_trans l₅ (Nat.lt_of_lt_of_le l₄ (Nat.le_trans (b₃ _) (Nat.le_of_lt
        (Nat.lt_of_lt_of_le l₃ (Nat.le_trans (b₃ _) (Nat.le_of_lt (Nat.lt_trans l₂ l₁)))))))
  · simp

end ShaderMerge.Command
