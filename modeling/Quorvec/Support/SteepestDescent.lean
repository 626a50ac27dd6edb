import Mathlib

/-!
# Steepest descent

A walk on a graph hops from a vertex to a neighbour that is closer to some goal,
to one than which no other neighbour is closer, until no neighbour is closer.
The graph may have cycles, and edges in one direction only: being closer is a
strict order, so no walk within finitely many vertices goes on for ever.
-/

namespace SteepestDescent

variable {V : Type*} {edge closer : V → V → Prop} {v w u : V}

def IsLocalMin (edge closer : V → V → Prop) (v : V) : Prop :=
  ∀ n, edge v n → ¬ closer n v

/-- A hop to a closest neighbour, if that one is closer. -/
structure Hop (edge closer : V → V → Prop) (v w : V) : Prop where
  along : edge v w
  nearer : closer w v
  least : ∀ n, edge v n → ¬ closer n w

/-- A whole walk. -/
structure Descent (edge closer : V → V → Prop) (v w : V) : Prop where
  hops : Relation.ReflTransGen (Hop edge closer) v w
  isLocalMin : IsLocalMin edge closer w

theorem Descent.stay (h : IsLocalMin edge closer v) :
    Descent edge closer v v :=
  ⟨.refl, h⟩

theorem Hop.descent (h : Hop edge closer v w)
    (hrest : Descent edge closer w u) : Descent edge closer v u :=
  ⟨hrest.hops.head h, hrest.isLocalMin⟩

theorem Descent.reachable (h : Descent edge closer v w) :
    Relation.ReflTransGen edge v w :=
  Relation.ReflTransGen.mono (fun _ _ hop => hop.along) _ _ h.hops

theorem Descent.eq_or_closer [IsTrans V closer] (h : Descent edge closer v w) :
    w = v ∨ closer w v := by
  obtain ⟨hops, -⟩ := h
  induction hops with
  | refl => exact .inl rfl
  | tail _ hop ih =>
      rcases ih with rfl | hcloser
      · exact .inr hop.nearer
      · exact .inr (IsTrans.trans _ _ _ hop.nearer hcloser)

theorem Descent.not_closer [IsStrictOrder V closer]
    (h : Descent edge closer v w) : ¬ closer v w := by
  rcases h.eq_or_closer with rfl | hcloser
  · exact irrefl w
  · exact asymm hcloser

/-- Induction along the hops, within a finite set that is closed under the
edges. -/
theorem hop_induction (edge closer : V → V → Prop) [IsStrictOrder V closer]
    {S : Set V} (hS : S.Finite) (hclosed : ∀ v ∈ S, ∀ n, edge v n → n ∈ S)
    {motive : V → Prop}
    (hstep : ∀ v ∈ S, (∀ w, Hop edge closer v w → motive w) → motive v)
    (hv : v ∈ S) : motive v := by
  have hwf : S.WellFoundedOn closer := hS.wellFoundedOn
  refine hwf.induction hv fun v hv ih => ?_
  exact hstep v hv fun w hop =>
    ih w (hclosed v hv w hop.along) hop.nearer

end SteepestDescent
