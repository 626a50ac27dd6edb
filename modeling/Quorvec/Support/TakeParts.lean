import Quorvec.Support.SortedLists

/-!
# The first elements of the parts of a sorted list

A list is split into parts by a key.  The first `k` elements of each part have
among them the first `k` elements of the whole list, so sorting and truncating
them gives these.
-/

namespace SortedLists

variable {α β : Type*} {le : α → α → Bool} {l l' l'' : List α}

/-- The comparison is a total order on the members of `l`. -/
structure OrderOn (le : α → α → Bool) (l : List α) : Prop
    extends PreorderOn le l where
  antisymm : ∀ a ∈ l, ∀ b ∈ l, le a b → le b a → a = b

theorem OrderOn.mono (h : OrderOn le l) (hsub : l' ⊆ l) : OrderOn le l' where
  toPreorderOn := h.toPreorderOn.mono hsub
  antisymm a ha b hb := h.antisymm a (hsub ha) b (hsub hb)

theorem OrderOn.eq_of_perm (h : OrderOn le l) (hperm : l'.Perm l'')
    (hsub : l' ⊆ l) (hsorted : l'.Pairwise (le · ·))
    (hsorted' : l''.Pairwise (le · ·)) : l' = l'' :=
  hperm.eq_of_pairwise
    (fun a b ha hb => h.antisymm a (hsub ha) b (hsub (hperm.mem_iff.mpr hb)))
    hsorted hsorted'

theorem mem_take_filter {p : α → Bool} {a : α} {k : ℕ} (ha : a ∈ l.take k)
    (hp : p a) : a ∈ (l.filter p).take k := by
  induction l generalizing k with
  | nil => simp at ha
  | cons b l ih =>
      rcases k with _ | k
      · simp at ha
      · rw [List.take_succ_cons, List.mem_cons] at ha
        by_cases hb : p b
        · rw [List.filter_cons_of_pos hb, List.take_succ_cons, List.mem_cons]
          exact ha.imp_right ih
        · have hne : a ≠ b := fun heq => hb (heq ▸ hp)
          rw [List.filter_cons_of_neg hb]
          exact List.take_subset_take_left _ (Nat.le_succ k)
            (ih (ha.resolve_left hne))

theorem take_filter_of_take {p : α → Bool} {k : ℕ}
    (h : ∀ a ∈ l.take k, p a) : (l.filter p).take k = l.take k := by
  have hsplit : l.filter p = l.take k ++ (l.drop k).filter p := by
    conv_lhs => rw [← List.take_append_drop k l, List.filter_append,
      List.filter_eq_self.mpr h]
  rw [hsplit]
  rcases le_total k l.length with hk | hk
  · exact List.take_left' (List.length_take_of_le hk)
  · rw [List.drop_eq_nil_of_le hk, List.filter_nil, List.append_nil,
      List.take_take, min_self]

variable [DecidableEq β] {key : α → β} {parts : List β}

/-- The first `k` elements of each part. -/
def takeParts (key : α → β) (parts : List β) (l : List α) (k : ℕ) : List α :=
  parts.flatMap fun b => (l.filter fun a => key a = b).take k

theorem mem_takeParts {k : ℕ} {a : α} (h : a ∈ takeParts key parts l k) :
    ∃ b ∈ parts, a ∈ (l.filter fun a => key a = b).take k :=
  List.mem_flatMap.mp h

theorem takeParts_subset (k : ℕ) : takeParts key parts l k ⊆ l := by
  intro a ha
  obtain ⟨b, -, hmem⟩ := mem_takeParts ha
  exact List.mem_of_mem_filter (List.mem_of_mem_take hmem)

theorem takeParts_nodup (hparts : parts.Nodup) (hl : l.Nodup) (k : ℕ) :
    (takeParts key parts l k).Nodup := by
  rw [takeParts, List.nodup_flatMap]
  refine ⟨fun b _ => (hl.filter _).sublist (List.take_sublist _ _), ?_⟩
  refine hparts.imp fun {b b'} hne a ha ha' => hne ?_
  have hb := (List.mem_filter.mp (List.mem_of_mem_take ha)).2
  have hb' := (List.mem_filter.mp (List.mem_of_mem_take ha')).2
  rw [decide_eq_true_eq] at hb hb'
  exact hb.symm.trans hb'

/-- Sorting and truncating the first `k` elements of each part of a sorted list
gives the first `k` elements of the list. -/
theorem take_mergeSort_takeParts (h : OrderOn le l)
    (hsorted : l.Pairwise (le · ·)) (hl : l.Nodup) (hparts : parts.Nodup)
    (hkey : ∀ a ∈ l, key a ∈ parts) (k : ℕ) :
    ((takeParts key parts l k).mergeSort le).take k = l.take k := by
  classical
  set merged := takeParts key parts l k with hmerged
  have hsub : merged ⊆ l := takeParts_subset k
  have hperm : merged.Perm (l.filter (· ∈ merged)) := by
    rw [List.perm_ext_iff_of_nodup (takeParts_nodup hparts hl k) (hl.filter _)]
    intro a
    rw [List.mem_filter, decide_eq_true_eq]
    exact ⟨fun ha => ⟨hsub ha, ha⟩, And.right⟩
  have hsort : merged.mergeSort le = l.filter (· ∈ merged) := by
    have hperm' := List.mergeSort_perm merged le
    exact h.eq_of_perm (hperm'.trans hperm)
      (fun a ha => hsub (hperm'.subset ha))
      (pairwise_mergeSort (h.toPreorderOn.mono hsub)) (hsorted.filter _)
  rw [hsort]
  refine take_filter_of_take fun a ha => decide_eq_true ?_
  rw [hmerged, takeParts, List.mem_flatMap]
  exact ⟨key a, hkey a (List.mem_of_mem_take ha),
    mem_take_filter ha (decide_eq_true rfl)⟩

end SortedLists
