import Mathlib

/-!
# Last-writer-wins registers

A register holds at most one stamped value.  An offered value is accepted when
its stamp beats the stored one; a lenient register also accepts an equal stamp.
Either way the register ends up with a value of maximal stamp among all that it
was ever offered, so that two registers which were offered the same values
agree, in whatever order and however often, as soon as equal stamps carry equal
values.
-/

namespace LastWriterWins

variable {κ τ ν : Type} [LinearOrder τ]

/-- The stamp is strictly greater than the stored one. -/
def Beats (t : τ) (r : Option (τ × ν)) : Prop := ∀ p, r = some p → p.1 < t

/-- The register holds a stamp that is at least `t`. -/
def AtLeast (r : Option (τ × ν)) (t : τ) : Prop := ∃ p, r = some p ∧ t ≤ p.1

instance (t : τ) (r : Option (τ × ν)) : Decidable (Beats t r) :=
  match r with
  | none => isTrue fun p hp => by simp at hp
  | some p => decidable_of_iff (p.1 < t)
      ⟨fun h q hq => Option.some.inj hq ▸ h, fun h => h p rfl⟩

/-- Accept strictly greater stamps. -/
def offer (r : Option (τ × ν)) (p : τ × ν) : Option (τ × ν) :=
  if Beats p.1 r then some p else r

/-- Accept stamps that are not smaller. -/
def offerLenient (r : Option (τ × ν)) (p : τ × ν) : Option (τ × ν) :=
  match r with
  | none => some p
  | some q => if p.1 < q.1 then some q else some p

/-- `r` holds a value of maximal stamp of `S`. -/
structure IsWinner (S : Set (τ × ν)) (r : Option (τ × ν)) : Prop where
  mem : ∀ p, r = some p → p ∈ S
  atLeast : ∀ q ∈ S, AtLeast r q.1

/-- Equal stamps carry equal values. -/
def Agree (S : Set (τ × ν)) : Prop := ∀ p ∈ S, ∀ q ∈ S, p.1 = q.1 → p = q

theorem not_beats_iff {t : τ} {r : Option (τ × ν)} :
    ¬ Beats t r ↔ AtLeast r t := by
  simp only [Beats, AtLeast, not_forall, not_lt, exists_prop]

theorem AtLeast.mono {r : Option (τ × ν)} {t t' : τ} (h : AtLeast r t)
    (ht : t' ≤ t) : AtLeast r t' := by
  obtain ⟨p, hp, hle⟩ := h
  exact ⟨p, hp, ht.trans hle⟩

theorem offer_of_beats {r : Option (τ × ν)} {p : τ × ν} (h : Beats p.1 r) :
    offer r p = some p :=
  if_pos h

theorem atLeast_offer (r : Option (τ × ν)) (p : τ × ν) :
    AtLeast (offer r p) p.1 := by
  by_cases h : Beats p.1 r
  · exact ⟨p, offer_of_beats h, le_rfl⟩
  · rw [offer, if_neg h]
    exact not_beats_iff.mp h

theorem AtLeast.offer {r : Option (τ × ν)} {t : τ} (h : AtLeast r t)
    (p : τ × ν) : AtLeast (offer r p) t := by
  by_cases hbeats : Beats p.1 r
  · obtain ⟨q, hq, hle⟩ := h
    exact ⟨p, offer_of_beats hbeats, hle.trans (hbeats q hq).le⟩
  · rwa [LastWriterWins.offer, if_neg hbeats]

theorem isWinner_empty : IsWinner (∅ : Set (τ × ν)) none where
  mem p hp := by simp at hp
  atLeast q hq := hq.elim

theorem isWinner_stored (r : Option (τ × ν)) : IsWinner {p | r = some p} r where
  mem _ hp := hp
  atLeast q hq := ⟨q, hq, le_rfl⟩

namespace IsWinner

variable {S : Set (τ × ν)} {r r' : Option (τ × ν)}

theorem beats_iff (h : IsWinner S r) {t : τ} :
    Beats t r ↔ ∀ q ∈ S, q.1 < t := by
  constructor
  · intro hbeats q hq
    obtain ⟨p, hp, hle⟩ := h.atLeast q hq
    exact hle.trans_lt (hbeats p hp)
  · exact fun hall p hp => hall p (h.mem p hp)

theorem eq_empty (h : IsWinner S none) : S = ∅ := by
  refine Set.eq_empty_of_forall_notMem fun p hp => ?_
  obtain ⟨q, hq, -⟩ := h.atLeast p hp
  simp at hq

theorem le {p q : τ × ν} (h : IsWinner S (some p)) (hq : q ∈ S) :
    q.1 ≤ p.1 := by
  obtain ⟨p', hp', hle⟩ := h.atLeast q hq
  rw [Option.some.inj hp']
  exact hle

theorem isGreatest {p : τ × ν} (h : IsWinner S (some p)) :
    IsGreatest {t | ∃ q ∈ S, q.1 = t} p.1 := by
  refine ⟨⟨p, h.mem p rfl, rfl⟩, ?_⟩
  rintro t ⟨q, hq, rfl⟩
  exact h.le hq

/-- When equal stamps carry equal values, the register holds the value of the
greatest stamp. -/
theorem eq_some_iff (h : IsWinner S r) (hS : Agree S) {p : τ × ν} :
    r = some p ↔ p ∈ S ∧ ∀ q ∈ S, q.1 ≤ p.1 := by
  constructor
  · rintro rfl
    exact ⟨h.mem p rfl, fun q hq => h.le hq⟩
  · rintro ⟨hp, hmax⟩
    obtain ⟨q, hq, hle⟩ := h.atLeast p hp
    have hqmem := h.mem q hq
    rw [hq, hS q hqmem p hp (le_antisymm (hmax q hqmem) hle)]

theorem stamp_eq (h : IsWinner S r) (h' : IsWinner S r') :
    r.map Prod.fst = r'.map Prod.fst := by
  have hle : ∀ {r r' : Option (τ × ν)}, IsWinner S r → IsWinner S r' →
      ∀ p, r = some p → ∃ q, r' = some q ∧ p.1 ≤ q.1 :=
    fun hr hr' p hp => hr'.atLeast p (hr.mem p hp)
  cases r with
  | none =>
      cases r' with
      | none => rfl
      | some q =>
          obtain ⟨p, hp, -⟩ := hle h' h q rfl
          simp at hp
  | some p =>
      obtain ⟨q, rfl, hpq⟩ := hle h h' p rfl
      obtain ⟨p', hp', hqp⟩ := hle h' h q rfl
      rw [← Option.some.inj hp'] at hqp
      simp [le_antisymm hpq hqp]

/-- The winner is unique when equal stamps carry equal values. -/
theorem unique (h : IsWinner S r) (h' : IsWinner S r') (hS : Agree S) :
    r = r' := by
  have hstamp := h.stamp_eq h'
  cases r with
  | none =>
      cases r' with
      | none => rfl
      | some q => simp at hstamp
  | some p =>
      cases r' with
      | none => simp at hstamp
      | some q =>
          rw [hS p (h.mem p rfl) q (h'.mem q rfl) (by simpa using hstamp)]

protected theorem offer (h : IsWinner S r) (p : τ × ν) :
    IsWinner (insert p S) (offer r p) where
  mem q hq := by
    by_cases hbeats : Beats p.1 r
    · rw [offer_of_beats hbeats, Option.some.injEq] at hq
      exact Or.inl hq.symm
    · rw [LastWriterWins.offer, if_neg hbeats] at hq
      exact Or.inr (h.mem q hq)
  atLeast q hq := by
    rcases hq with rfl | hq
    · exact atLeast_offer r q
    · exact (h.atLeast q hq).offer p

protected theorem offerLenient (h : IsWinner S r) (p : τ × ν) :
    IsWinner (insert p S) (offerLenient r p) := by
  cases r with
  | none =>
      refine ⟨fun q hq => Or.inl (Option.some.inj hq).symm, ?_⟩
      rintro q (rfl | hq)
      · exact ⟨q, rfl, le_rfl⟩
      · obtain ⟨q', hq', -⟩ := h.atLeast q hq
        simp at hq'
  | some r =>
      have hmax : ∀ q ∈ S, q.1 ≤ r.1 := by
        intro q hq
        obtain ⟨q', hq', hle⟩ := h.atLeast q hq
        rwa [← Option.some.inj hq'] at hle
      rw [LastWriterWins.offerLenient]
      split_ifs with hlt
      · refine ⟨fun q hq => Or.inr (h.mem q hq), ?_⟩
        rintro q (rfl | hq)
        · exact ⟨r, rfl, hlt.le⟩
        · exact ⟨r, rfl, hmax q hq⟩
      · refine ⟨fun q hq => Or.inl (Option.some.inj hq).symm, ?_⟩
        rintro q (rfl | hq)
        · exact ⟨q, rfl, le_rfl⟩
        · exact ⟨p, rfl, (hmax q hq).trans (not_lt.mp hlt)⟩

end IsWinner

/-! ## Keyed registers -/

section Keyed

variable [DecidableEq κ]

/-- Offer a value to the register of its key. -/
def deliverWith (accept : Option (τ × ν) → τ × ν → Option (τ × ν))
    (s : κ → Option (τ × ν)) (w : κ × τ × ν) : κ → Option (τ × ν) :=
  Function.update s w.1 (accept (s w.1) w.2)

section Deliver

variable {s : κ → Option (τ × ν)} {k : κ}

theorem AtLeast.deliver {t : τ} (h : AtLeast (s k) t) (w : κ × τ × ν) :
    AtLeast (deliverWith LastWriterWins.offer s w k) t := by
  by_cases hk : k = w.1
  · subst hk
    rw [deliverWith, Function.update_self]
    exact h.offer w.2
  · rwa [deliverWith, Function.update_of_ne hk]

theorem atLeast_deliver (s : κ → Option (τ × ν)) (w : κ × τ × ν) :
    AtLeast (deliverWith offer s w w.1) w.2.1 := by
  rw [deliverWith, Function.update_self]
  exact atLeast_offer _ _

/-- What a register holds it held before, or was just offered. -/
theorem eq_or_of_deliver {w : κ × τ × ν} {p : τ × ν}
    (h : deliverWith offer s w k = some p) :
    s k = some p ∨ k = w.1 ∧ p = w.2 := by
  by_cases hk : k = w.1
  · subst hk
    rw [deliverWith, Function.update_self, offer] at h
    split_ifs at h
    · exact .inr ⟨rfl, (Option.some.inj h).symm⟩
    · exact .inl h
  · rw [deliverWith, Function.update_of_ne hk] at h
    exact .inl h

/-- A register changes to a greater stamp only. -/
theorem deliver_eq_or_lt {p : τ × ν} (h : s k = some p) (w : κ × τ × ν) :
    deliverWith offer s w k = some p ∨
      ∃ q, deliverWith offer s w k = some q ∧ p.1 < q.1 := by
  by_cases hk : k = w.1
  · subst hk
    rw [deliverWith, Function.update_self, offer]
    split_ifs with hbeats
    · exact .inr ⟨w.2, rfl, hbeats p h⟩
    · exact .inl h
  · rw [deliverWith, Function.update_of_ne hk]
    exact .inl h

end Deliver

/-- What the register of a key has been offered, the initial value included. -/
def offered (s : κ → Option (τ × ν)) (ws : List (κ × τ × ν)) (k : κ) :
    Set (τ × ν) :=
  {p | s k = some p ∨ (k, p) ∈ ws}

/-- One delivery, which is offered to its own key only. -/
theorem isWinner_deliverWith
    {accept : Option (τ × ν) → τ × ν → Option (τ × ν)}
    (haccept : ∀ S r p, IsWinner S r → IsWinner (insert p S) (accept r p))
    {S : κ → Set (τ × ν)} {s : κ → Option (τ × ν)}
    (hs : ∀ k, IsWinner (S k) (s k)) (w : κ × τ × ν) (k : κ) :
    IsWinner {p | p ∈ S k ∨ (k, p) = w} (deliverWith accept s w k) := by
  obtain ⟨k', p⟩ := w
  by_cases hk : k = k'
  · subst hk
    have hset : {q | q ∈ S k ∨ (k, q) = (k, p)} = insert p (S k) := by
      ext q
      simp [or_comm]
    rw [deliverWith, Function.update_self, hset]
    exact haccept _ _ _ (hs k)
  · have hset : {q | q ∈ S k ∨ (k, q) = (k', p)} = S k := by
      ext q
      simp [hk]
    rw [deliverWith, Function.update_of_ne hk, hset]
    exact hs k

/-- Delivering in any order leaves each key with a winner of what it was
offered. -/
theorem isWinner_foldl {accept : Option (τ × ν) → τ × ν → Option (τ × ν)}
    (haccept : ∀ S r p, IsWinner S r → IsWinner (insert p S) (accept r p))
    {S : κ → Set (τ × ν)} {s : κ → Option (τ × ν)}
    (hs : ∀ k, IsWinner (S k) (s k)) (ws : List (κ × τ × ν)) (k : κ) :
    IsWinner {p | p ∈ S k ∨ (k, p) ∈ ws}
      (ws.foldl (deliverWith accept) s k) := by
  induction ws generalizing S s with
  | nil => simpa using hs k
  | cons w ws ih =>
      have hset : {p | p ∈ S k ∨ (k, p) ∈ w :: ws} =
          {p | (p ∈ S k ∨ (k, p) = w) ∨ (k, p) ∈ ws} := by
        ext p
        simp only [List.mem_cons, Set.mem_ofPred_eq, or_assoc]
      rw [hset]
      exact ih (isWinner_deliverWith haccept hs w)

theorem isWinner_deliver (s : κ → Option (τ × ν)) (ws : List (κ × τ × ν))
    (k : κ) : IsWinner (offered s ws k) (ws.foldl (deliverWith offer) s k) :=
  isWinner_foldl (fun _ _ p h => h.offer p)
    (fun k => isWinner_stored (s k)) ws k

theorem isWinner_deliverLenient (s : κ → Option (τ × ν))
    (ws : List (κ × τ × ν)) (k : κ) :
    IsWinner (offered s ws k) (ws.foldl (deliverWith offerLenient) s k) :=
  isWinner_foldl (fun _ _ p h => h.offerLenient p)
    (fun k => isWinner_stored (s k)) ws k

end Keyed

end LastWriterWins
