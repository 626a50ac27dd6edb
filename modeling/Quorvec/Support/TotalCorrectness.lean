import Mathlib

/-!
# Total correctness of fallible programs

`Returns x P` says that the fallible program `x` returns a value, and that the
value satisfies `P`.  The rules follow the program: one for `return`, one for
sequencing, and one for a loop over a list with its invariant.
-/

namespace TotalCorrectness

variable {ε α β σ : Type}

def Returns (x : Except ε α) (P : α → Prop) : Prop := ∃ a, x = .ok a ∧ P a

namespace Returns

variable {P : α → Prop} {Q : β → Prop}

theorem ok {a : α} (h : P a) : Returns (.ok a : Except ε α) P := ⟨a, rfl, h⟩

theorem pure {a : α} (h : P a) : Returns (Pure.pure a : Except ε α) P :=
  ⟨a, rfl, h⟩

theorem bind {x : Except ε α} {f : α → Except ε β} (hx : Returns x P)
    (hf : ∀ a, P a → Returns (f a) Q) : Returns (x >>= f) Q := by
  obtain ⟨a, rfl, ha⟩ := hx
  exact hf a ha

theorem mono {P' : α → Prop} {x : Except ε α} (hx : Returns x P)
    (h : ∀ a, P a → P' a) : Returns x P' := by
  obtain ⟨a, ha, hP⟩ := hx
  exact ⟨a, ha, h a hP⟩

theorem of_eq_ok {x : Except ε α} {a : α} (hx : Returns x P) (h : x = .ok a) :
    P a := by
  obtain ⟨b, hb, hP⟩ := hx
  rw [h, Except.ok.injEq] at hb
  exact hb ▸ hP

/-- The invariant may use that the elements come from the list. -/
theorem foldlM {f : σ → α → Except ε σ} {l : List α} (inv : σ → Prop) {s : σ}
    (hs : inv s) (hstep : ∀ s, ∀ a ∈ l, inv s → Returns (f s a) inv) :
    Returns (l.foldlM f s) inv := by
  induction l generalizing s with
  | nil => exact Returns.pure hs
  | cons a l ih =>
      rw [List.foldlM_cons]
      refine Returns.bind (hstep s a List.mem_cons_self hs) fun s' hs' => ?_
      exact ih hs' fun s b hb => hstep s b (List.mem_cons_of_mem a hb)

/-- The invariant may speak about the elements that are still to come. -/
theorem foldlM_rest {f : σ → α → Except ε σ} {l : List α}
    (inv : List α → σ → Prop) {s : σ} (hs : inv l s)
    (hstep : ∀ s a rest, inv (a :: rest) s → Returns (f s a) (inv rest)) :
    Returns (l.foldlM f s) (inv []) := by
  induction l generalizing s with
  | nil => exact Returns.pure hs
  | cons a l ih =>
      rw [List.foldlM_cons]
      exact Returns.bind (hstep s a l hs) fun s' hs' => ih hs'

theorem mapM_eq_map {f : α → Except ε β} {g : α → β} {l : List α}
    (h : ∀ a ∈ l, f a = .ok (g a)) : l.mapM f = .ok (l.map g) := by
  induction l with
  | nil => rfl
  | cons a l ih =>
      rw [List.mapM_cons, h a List.mem_cons_self,
        ih fun b hb => h b (List.mem_cons_of_mem a hb)]
      rfl

theorem mapM {f : α → Except ε β} {l : List α}
    (h : ∀ a ∈ l, Returns (f a) Q) :
    Returns (l.mapM f) (fun bs => ∀ b ∈ bs, Q b) := by
  induction l with
  | nil => exact Returns.pure (by simp)
  | cons a l ih =>
      rw [List.mapM_cons]
      refine Returns.bind (h a List.mem_cons_self) fun b hb => ?_
      refine Returns.bind (ih fun a ha => h a (List.mem_cons_of_mem _ ha))
        fun bs hbs => Returns.pure ?_
      intro b' hb'
      rcases List.mem_cons.mp hb' with rfl | hb'
      · exact hb
      · exact hbs b' hb'

end Returns

end TotalCorrectness
