import Mathlib

/-!
# Sorted permutations

A comparison may be a total preorder on the elements of a list only.  Sorting
such a list sorts it, and two sorted permutations of one list agree up to ties.
-/

namespace SortedLists

variable {α β : Type*}

/-- The comparison is a total preorder on the members of `l`. -/
structure PreorderOn (le : α → α → Bool) (l : List α) : Prop where
  total : ∀ a ∈ l, ∀ b ∈ l, le a b || le b a
  trans : ∀ a ∈ l, ∀ b ∈ l, ∀ c ∈ l, le a b → le b c → le a c

theorem PreorderOn.mono {le : α → α → Bool} {l l' : List α}
    (h : PreorderOn le l) (hsub : l' ⊆ l) : PreorderOn le l' where
  total a ha b hb := h.total a (hsub ha) b (hsub hb)
  trans a ha b hb c hc := h.trans a (hsub ha) b (hsub hb) c (hsub hc)

theorem pairwise_mergeSort {le : α → α → Bool} {l : List α}
    (h : PreorderOn le l) : (l.mergeSort le).Pairwise (le · ·) := by
  have hmap : l.mergeSort le = (l.attach.mergeSort
      fun a b => le a.val b.val).map Subtype.val := by
    rw [List.map_mergeSort (s := le) fun _ _ _ _ => rfl,
      List.attach_map_subtype_val]
  rw [hmap, List.pairwise_map]
  apply List.pairwise_mergeSort
  · exact fun a b c => h.trans a a.2 b b.2 c c.2
  · exact fun a b => h.total a a.2 b b.2

section Ties

variable {le : α → α → Bool} {l l' : List α}

/-- The element at a place of one sorted permutation is at most the element at
the same place of another. -/
theorem le_of_perm (h : PreorderOn le l) (hperm : l.Perm l')
    (hsorted : l.Pairwise (le · ·)) (hsorted' : l'.Pairwise (le · ·)) {i : ℕ}
    (hi : i < l.length) (hi' : i < l'.length) : le l[i] l'[i] := by
  by_contra hnot
  have hmem' : l'[i] ∈ l := hperm.mem_iff.mpr (List.getElem_mem hi')
  -- the first `i + 1` elements of `l'` are at most `l'[i]`
  have hmany : i + 1 ≤ l'.countP (le · l'[i]) := by
    have htake : (l'.take (i + 1)).countP (le · l'[i]) = i + 1 := by
      rw [List.countP_eq_length.mpr, List.length_take]
      · omega
      · intro a ha
        obtain ⟨j, hj, rfl⟩ := List.mem_iff_getElem.mp ha
        rw [List.length_take] at hj
        rw [List.getElem_take]
        rcases Nat.lt_or_ge j i with hji | hij
        · exact List.pairwise_iff_getElem.mp hsorted' j i _ hi' hji
        · have hij' : j = i := by omega
          subst hij'
          simpa using h.total _ hmem' _ hmem'
    rw [← htake]
    exact (List.take_sublist _ _).countP_le
  -- from the place `i` on, no element of `l` is
  have hfew : l.countP (le · l'[i]) ≤ i := by
    have hdrop : (l.drop i).countP (le · l'[i]) = 0 := by
      rw [List.countP_eq_zero]
      intro a ha hle
      obtain ⟨j, hj, rfl⟩ := List.mem_iff_getElem.mp ha
      rw [List.length_drop] at hj
      rw [List.getElem_drop] at hle
      have hij : i + j < l.length := by omega
      apply hnot
      rcases Nat.eq_zero_or_pos j with rfl | hpos
      · exact hle
      · exact h.trans _ (List.getElem_mem hi) _ (List.getElem_mem hij) _ hmem'
          (List.pairwise_iff_getElem.mp hsorted i (i + j) hi hij (by omega))
          hle
    calc l.countP (le · l'[i])
        = (l.take i ++ l.drop i).countP (le · l'[i]) := by
          rw [List.take_append_drop]
      _ = (l.take i).countP (le · l'[i]) := by
          rw [List.countP_append, hdrop, Nat.add_zero]
      _ ≤ (l.take i).length := List.countP_le_length
      _ ≤ i := by
          rw [List.length_take]
          exact Nat.min_le_left _ _
  rw [hperm.countP_eq] at hfew
  omega

/-- Sorted permutations agree up to ties, place by place. -/
theorem forall₂_of_perm (h : PreorderOn le l) (hperm : l.Perm l')
    (hsorted : l.Pairwise (le · ·)) (hsorted' : l'.Pairwise (le · ·)) :
    List.Forall₂ (fun a b => le a b ∧ le b a) l l' := by
  have h' : PreorderOn le l' :=
    ⟨fun a ha b hb => h.total a (hperm.mem_iff.mpr ha) b
      (hperm.mem_iff.mpr hb),
    fun a ha b hb c hc => h.trans a (hperm.mem_iff.mpr ha) b
      (hperm.mem_iff.mpr hb) c (hperm.mem_iff.mpr hc)⟩
  rw [List.forall₂_iff_get]
  refine ⟨hperm.length_eq, fun i hi hi' => ?_⟩
  constructor
  · exact le_of_perm h hperm hsorted hsorted' hi hi'
  · exact le_of_perm h' hperm.symm hsorted' hsorted hi' hi

end Ties

end SortedLists
