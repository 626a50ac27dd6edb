import Mathlib

/-!
# Checks in order

The elements of a list are checked one after another, each with its position.
The first check that fails ends the loop with its error; what the checks
return is folded.
-/

namespace FirstFailure

variable {α β σ ε : Type}

/-- Check the elements, the first of which has position `i`. -/
def scan (check : ℕ → α → Except ε β) (step : σ → β → σ) :
    ℕ → List α → σ → Except ε σ
  | _, [], s => .ok s
  | i, a :: l, s =>
      match check i a with
      | .error e => .error e
      | .ok b => scan check step (i + 1) l (step s b)

variable {check : ℕ → α → Except ε β} {step : σ → β → σ} {i : ℕ} {l : List α}
variable {s t : σ} {e : ε}

end FirstFailure
