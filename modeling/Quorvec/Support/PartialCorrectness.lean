import Mathlib

/-!
# Partial correctness of fallible programs

`Ensures x P` says that every value the fallible program `x` returns satisfies
`P`; it says nothing about a program that fails.  The rules follow the program,
as those of total correctness do.  The invariant of a loop may speak about the
elements that are still to come.
-/

namespace PartialCorrectness

variable {ε α β σ : Type}

def Ensures (x : Except ε α) (P : α → Prop) : Prop := ∀ a, x = .ok a → P a

namespace Ensures

variable {P : α → Prop} {Q : β → Prop}

theorem pure {a : α} (h : P a) : Ensures (Pure.pure a : Except ε α) P := by
  intro b hb
  rw [← Except.ok.inj hb]
  exact h

theorem error {e : ε} : Ensures (.error e : Except ε α) P := by
  intro a ha
  simp at ha

theorem bind {x : Except ε α} {f : α → Except ε β} (hx : Ensures x P)
    (hf : ∀ a, P a → Ensures (f a) Q) : Ensures (x >>= f) Q := by
  cases x with
  | error e => exact error
  | ok a => exact hf a (hx a rfl)

theorem mono {P' : α → Prop} {x : Except ε α} (hx : Ensures x P)
    (h : ∀ a, P a → P' a) : Ensures x P' :=
  fun a ha => h a (hx a ha)

theorem intro (x : Except ε α) : Ensures x (fun a => x = .ok a) :=
  fun _ h => h

theorem bind_congr {x : Except ε α} {f g : α → Except ε β} (hx : Ensures x P)
    (h : ∀ a, P a → f a = g a) : x >>= f = x >>= g := by
  cases x with
  | error e => rfl
  | ok a => exact h a (hx a rfl)

theorem foldlM {f : σ → α → Except ε σ} {l : List α} (inv : List α → σ → Prop)
    {s : σ} (hs : inv l s)
    (hstep : ∀ s a rest, inv (a :: rest) s → Ensures (f s a) (inv rest)) :
    Ensures (l.foldlM f s) (inv []) := by
  induction l generalizing s with
  | nil => exact pure hs
  | cons a l ih =>
      rw [List.foldlM_cons]
      exact bind (hstep s a l hs) fun s' hs' => ih hs'

/-- A loop whose results project to the elements it runs over. -/
theorem mapM_map {f : α → Except ε β} {g : β → α} {l : List α}
    (h : ∀ a, Ensures (f a) (fun b => g b = a)) :
    Ensures (l.mapM f) (fun bs => bs.map g = l) := by
  induction l with
  | nil => exact pure rfl
  | cons a l ih =>
      rw [List.mapM_cons]
      refine bind (h a) fun b hb => ?_
      refine bind ih fun bs hbs => ?_
      apply pure
      rw [List.map_cons, hb, hbs]

end Ensures

end PartialCorrectness
