import Mathlib

/-!
# Machines that answer calls

A machine answers each call and moves to its next state.  When two machines
give equal replies in related states and every call keeps the relation, they
give equal replies to every sequence of calls.
-/

namespace CallMachine

variable {σ τ C R : Type*}

/-- The state after a sequence of calls, and the replies to them. -/
def run (call : σ → C → σ × R) : σ → List C → σ × List R
  | s, [] => (s, [])
  | s, c :: calls =>
      let (s, r) := call s c
      let (s, replies) := run call s calls
      (s, r :: replies)

/-- Related states answer alike and stay related. -/
def Simulates (rel : σ → τ → Prop) (impl : σ → C → σ × R)
    (spec : τ → C → τ × R) : Prop :=
  ∀ s t c, rel s t →
    (impl s c).2 = (spec t c).2 ∧ rel (impl s c).1 (spec t c).1

theorem Simulates.run {rel : σ → τ → Prop} {impl : σ → C → σ × R}
    {spec : τ → C → τ × R} (h : Simulates rel impl spec) {s : σ} {t : τ}
    (hrel : rel s t) (calls : List C) :
    (run impl s calls).2 = (run spec t calls).2 ∧
      rel (run impl s calls).1 (run spec t calls).1 := by
  induction calls generalizing s t with
  | nil => exact ⟨rfl, hrel⟩
  | cons c calls ih =>
      obtain ⟨hreply, hnext⟩ := h s t c hrel
      obtain ⟨hreplies, hlast⟩ := ih hnext
      constructor
      · exact congrArg₂ List.cons hreply hreplies
      · exact hlast

/-- An invariant holds after every sequence of calls, and what it says about
one reply holds of all. -/
theorem run_invariant {call : σ → C → σ × R} (inv : σ → Prop) (good : R → Prop)
    (hstep : ∀ s c, inv s → inv (call s c).1 ∧ good (call s c).2) {s : σ}
    (hs : inv s) (calls : List C) :
    inv (run call s calls).1 ∧ ∀ r ∈ (run call s calls).2, good r := by
  induction calls generalizing s with
  | nil =>
      refine ⟨hs, fun r hr => ?_⟩
      simp [CallMachine.run] at hr
  | cons c calls ih =>
      obtain ⟨hnext, hgood⟩ := hstep s c hs
      obtain ⟨hlast, hgoods⟩ := ih hnext
      refine ⟨hlast, fun r hr => ?_⟩
      rcases List.mem_cons.mp hr with rfl | hr
      · exact hgood
      · exact hgoods r hr

theorem run_cons (call : σ → C → σ × R) (s : σ) (c : C) (calls : List C) :
    run call s (c :: calls) =
      ((run call (call s c).1 calls).1,
        (call s c).2 :: (run call (call s c).1 calls).2) :=
  rfl

theorem run_append (call : σ → C → σ × R) (s : σ) (cs ds : List C) :
    run call s (cs ++ ds) =
      ((run call (run call s cs).1 ds).1,
        (run call s cs).2 ++ (run call (run call s cs).1 ds).2) := by
  induction cs generalizing s with
  | nil => rfl
  | cons c cs ih =>
      rw [List.cons_append, run_cons, run_cons, ih]
      rfl

theorem run_map {D : Type*} (call : σ → C → σ × R) (f : D → C) (s : σ)
    (calls : List D) :
    run call s (calls.map f) = run (fun s c => call s (f c)) s calls := by
  induction calls generalizing s with
  | nil => rfl
  | cons c calls ih =>
      rw [List.map_cons, run_cons, run_cons, ih]

/-- Machines that agree in every state of an invariant, which their calls
keep. -/
theorem run_congr {call call' : σ → C → σ × R} (inv : σ → Prop)
    {calls : List C}
    (hstep : ∀ s, ∀ c ∈ calls, inv s →
      call' s c = call s c ∧ inv (call s c).1) {s : σ} (hs : inv s) :
    run call' s calls = run call s calls ∧ inv (run call s calls).1 := by
  induction calls generalizing s with
  | nil => exact ⟨rfl, hs⟩
  | cons c calls ih =>
      obtain ⟨heq, hnext⟩ := hstep s c List.mem_cons_self hs
      obtain ⟨hrest, hlast⟩ :=
        ih (fun s c hc => hstep s c (List.mem_cons_of_mem _ hc)) hnext
      rw [run_cons, run_cons, heq, hrest]
      exact ⟨rfl, hlast⟩

end CallMachine
