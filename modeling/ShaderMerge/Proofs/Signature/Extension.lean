import ShaderMerge.Proofs.Signature.Headers
import ShaderMerge.Proofs.Signature.Parentheses

/-!
# More text behind a signature

A signature is read from its start.  The header ends with its opening parenthesis and the parameters
with the parenthesis that closes it, so text behind them changes nothing of what is read before: not
the name, the return type or the parameters (`ofText?_append`).
-/

namespace ShaderMerge.Signature

open Text (IsName IsBlanks Stops isBlank isNameChar skipBlanks)

variable {cs rest lead : List Char} {header : Header}

theorem closing?_append {depth : Nat} {inner after : List Char}
    (h : closing? depth cs = some (inner, after)) (more : List Char) :
    closing? depth (cs ++ more) = some (inner, after ++ more) := by
  obtain ⟨rfl, hcloses⟩ := closing?_eq_some_iff.1 h
  refine closing?_eq_some_iff.2 ⟨?_, hcloses⟩
  rw [List.append_assoc, List.cons_append]

/-- A header ends with its parenthesis. -/
theorem Header.ofText?_append (h : Header.ofText? cs = some header) (more : List Char) :
    Header.ofText? (cs ++ more) = some { header with rest := header.rest ++ more } := by
  obtain ⟨rfl, hread⟩ := Header.ofText?_eq_some_iff.1 h
  rw [Header.text, List.append_assoc]
  exact hread.ofText?_front _

/-- **A signature is read up to the parenthesis that closes its parameters.** -/
theorem ofText?_append {inner after : List Char} (hheader : Header.ofText? cs = some header)
    (hclosing : closing? 0 header.rest = some (inner, after)) (more : List Char)
    (lines : List String) :
    ofText? (cs ++ more) lines = (parameters? inner).map fun parameters =>
      ⟨String.ofList header.name, String.ofList header.returnType, returnSemantic? (after ++ more),
        parameters, lines⟩ := by
  rw [ofText?, Header.ofText?_append hheader]
  simp only [Option.bind_eq_bind, Option.bind_some, closing?_append hclosing]
  cases parameters? inner <;> rfl

end ShaderMerge.Signature
