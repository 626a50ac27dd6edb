import Mathlib

/-!
# Quorums

Two groups of the members of a list that are together longer than the list
share a member.  A reader that merges its answers by a greatest key gets at
least what each of them holds.
-/

namespace Quorum

/-! ## Intersection -/

section Intersection

variable {α : Type} [DecidableEq α]

/-- A quorum of size `w`: distinct members, at least `w` of them. -/
structure IsQuorum (members : List α) (w : ℕ) (q : List α) : Prop where
  nodup : q.Nodup
  subset : q ⊆ members
  le_length : w ≤ q.length

theorem IsQuorum.exists_common {members q q' : List α} {w r : ℕ}
    (hq : IsQuorum members w q) (hq' : IsQuorum members r q')
    (h : members.length < w + r) : ∃ a ∈ q, a ∈ q' := by
  have hsub : ∀ {l : List α}, l ⊆ members →
      l.toFinset ⊆ members.toFinset := fun hl a ha =>
    List.mem_toFinset.mpr (hl (List.mem_toFinset.mp ha))
  have hcard : members.toFinset.card <
      q.toFinset.card + q'.toFinset.card := by
    rw [List.toFinset_card_of_nodup hq.nodup,
      List.toFinset_card_of_nodup hq'.nodup]
    have hle := members.toFinset_card_le
    have hw := hq.le_length
    have hr := hq'.le_length
    omega
  obtain ⟨a, ha⟩ := Finset.inter_nonempty_of_card_lt_card_add_card
    (hsub hq.subset) (hsub hq'.subset) hcard
  rw [Finset.mem_inter, List.mem_toFinset, List.mem_toFinset] at ha
  exact ⟨a, ha⟩

end Intersection

/-! ## The greatest answer -/

section MaxByKey

variable {α κ : Type} [LinearOrder κ]

/-- `Iterator::max_by_key`: the last of the elements with the greatest key. -/
def maxByKey (key : α → κ) : List α → Option α
  | [] => none
  | a :: l => some (l.foldl (fun best b =>
      if key best ≤ key b then b else best) a)

variable {key : α → κ}

theorem foldl_max_spec (l : List α) (a : α) :
    let best := l.foldl (fun best b =>
      if key best ≤ key b then b else best) a
    best ∈ a :: l ∧ ∀ b ∈ a :: l, key b ≤ key best := by
  induction l generalizing a with
  | nil => simp
  | cons b l ih =>
      obtain ⟨hmem, hmax⟩ := ih (if key a ≤ key b then b else a)
      have hhead := hmax _ List.mem_cons_self
      refine ⟨?_, fun c hc => ?_⟩
      · rw [List.foldl_cons]
        rcases List.mem_cons.mp hmem with hbest | hbest
        · rw [hbest]
          split_ifs <;> simp
        · exact List.mem_cons_of_mem _ (List.mem_cons_of_mem _ hbest)
      · rw [List.foldl_cons]
        rcases List.mem_cons.mp hc with rfl | hc
        · refine le_trans ?_ hhead
          split_ifs with hle
          · exact hle
          · exact le_rfl
        · rcases List.mem_cons.mp hc with rfl | hc
          · refine le_trans ?_ hhead
            split_ifs with hle
            · exact le_rfl
            · exact (not_le.mp hle).le
          · exact hmax c (List.mem_cons_of_mem _ hc)

theorem maxByKey_spec {l : List α} {best : α}
    (h : maxByKey key l = some best) :
    best ∈ l ∧ ∀ a ∈ l, key a ≤ key best := by
  cases l with
  | nil => simp [maxByKey] at h
  | cons a l =>
      rw [maxByKey, Option.some.injEq] at h
      rw [← h]
      exact foldl_max_spec l a

theorem exists_maxByKey {l : List α} {a : α} (ha : a ∈ l) :
    ∃ best, maxByKey key l = some best ∧ key a ≤ key best := by
  cases hbest : maxByKey key l with
  | none =>
      cases l with
      | nil => simp at ha
      | cons b l => simp [maxByKey] at hbest
  | some best => exact ⟨best, rfl, (maxByKey_spec hbest).2 a ha⟩

end MaxByKey

end Quorum
