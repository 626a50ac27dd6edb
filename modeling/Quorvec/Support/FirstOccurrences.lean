import Mathlib

/-!
# First occurrences and sorted lists under a filter

`List.eraseDups` keeps the first occurrence of each element.  Leaving elements
out commutes with it, with sorting under a linear order, and with cutting a
sorted list at a threshold.
-/

namespace FirstOccurrences

section Distinct

variable {α : Type*} [DecidableEq α]

theorem nodup_eraseDups (l : List α) : l.eraseDups.Nodup := by
  induction hn : l.length using Nat.strong_induction_on generalizing l with
  | _ n ih =>
    rcases l with _ | ⟨a, l⟩
    · exact List.nodup_nil
    · have hlen := List.length_filter_le (fun b => !b == a) l
      rw [List.length_cons] at hn
      rw [List.eraseDups_cons, List.nodup_cons]
      refine ⟨?_, ih _ (by omega) _ rfl⟩
      rw [List.mem_eraseDups]
      simp

/-- Leaving elements out commutes with keeping first occurrences. -/
theorem eraseDups_filter (p : α → Bool) (l : List α) :
    (l.filter p).eraseDups = l.eraseDups.filter p := by
  induction hn : l.length using Nat.strong_induction_on generalizing l with
  | _ n ih =>
    rcases l with _ | ⟨a, l⟩
    · rfl
    · have hlen := List.length_filter_le (fun b => !b == a) l
      rw [List.length_cons] at hn
      have hrest := ih _ (by omega) (l.filter fun b => !b == a) rfl
      rw [List.eraseDups_cons]
      by_cases ha : p a
      · rw [List.filter_cons_of_pos ha, List.filter_cons_of_pos ha,
          List.eraseDups_cons, ← hrest, List.filter_filter, List.filter_filter]
        simp only [Bool.and_comm]
      · rw [List.filter_cons_of_neg ha, List.filter_cons_of_neg ha, ← hrest,
          List.filter_filter]
        congr 1
        apply List.filter_congr
        intro b _
        by_cases hb : b = a
        · subst hb
          simp [ha]
        · simp [hb]

/-- Some element of `l` with the label `a` is related to all elements with the
label `b`. -/
def LabelBefore {β : Type*} (r : β → β → Prop) (label : β → α) (l : List β)
    (a b : α) : Prop :=
  ∃ v ∈ l, label v = a ∧ ∀ w ∈ l, label w = b → r v w

/-- The labels of a sorted list are in the order of their first elements. -/
theorem pairwise_labelBefore {β : Type*} {r : β → β → Prop} {label : β → α}
    {l : List β} (h : l.Pairwise r) :
    (l.map label).eraseDups.Pairwise (LabelBefore r label l) := by
  induction hn : l.length using Nat.strong_induction_on generalizing l with
  | _ n ih =>
    rcases l with _ | ⟨v, l⟩
    · exact List.Pairwise.nil
    · have hlen := List.length_filter_le (fun w => !label w == label v) l
      rw [List.length_cons] at hn
      obtain ⟨hhead, htail⟩ := List.pairwise_cons.mp h
      have hrest : (l.map label).filter (fun b => !b == label v) =
          (l.filter fun w => !label w == label v).map label :=
        List.filter_map
      rw [List.map_cons, List.eraseDups_cons, hrest, List.pairwise_cons]
      have hnew : ∀ b ∈ ((l.filter fun w => !label w == label v).map
          label).eraseDups, b ≠ label v := by
        intro b hb
        obtain ⟨w, hw, rfl⟩ := List.mem_map.mp (List.mem_eraseDups.mp hb)
        simpa using (List.mem_filter.mp hw).2
      constructor
      · intro b hb
        refine ⟨v, List.mem_cons_self, rfl, fun w hw hwb => ?_⟩
        rcases List.mem_cons.mp hw with rfl | hw
        · exact absurd hwb.symm (hnew b hb)
        · exact hhead w hw
      · refine List.Pairwise.imp_of_mem ?_
          (ih _ (by omega) (htail.filter _) rfl)
        rintro a b - hb ⟨u, hu, rfl, hbefore⟩
        refine ⟨u, List.mem_cons_of_mem _ (List.mem_of_mem_filter hu), rfl,
          fun w hw hwb => hbefore w ?_ hwb⟩
        subst hwb
        rcases List.mem_cons.mp hw with rfl | hw
        · exact absurd rfl (hnew _ hb)
        · exact List.mem_filter.mpr ⟨hw, by simpa using hnew _ hb⟩

/-- Taking one more element and leaving one out shortens a list without
repetitions by at most one. -/
theorem take_filter_eq_append {l : List α} (hl : l.Nodup) (x : α)
    {want want' : ℕ} (hle : want ≤ want') (hsucc : want' ≤ want + 1)
    (hsame : x ∉ l.take want' → want' = want) :
    ∃ added, (l.filter (· != x)).take want = (l.take want').erase x ++ added ∧
      added.length ≤ 1 ∧ (x ∉ l.take want' → added = []) := by
  have hnodup : (l.take want').Nodup := hl.sublist (List.take_sublist _ _)
  have herase : (l.take want').erase x = (l.take want').filter (· != x) := by
    exact hnodup.erase_eq_filter x
  have hpre : (l.take want').erase x <+: l.filter (· != x) := by
    rw [herase]
    exact (List.take_prefix _ _).filter _
  have hlenFilter : (l.filter (· != x)).length = (l.erase x).length := by
    rw [hl.erase_eq_filter]
  have hlen : ((l.take want').erase x).length ≤ want ∧
      min want (l.filter (· != x)).length ≤
        ((l.take want').erase x).length + 1 ∧
      (x ∉ l.take want' →
        min want (l.filter (· != x)).length ≤
          ((l.take want').erase x).length) := by
    by_cases hx : x ∈ l.take want'
    · have hin : x ∈ l := List.mem_of_mem_take hx
      rw [hlenFilter, List.length_erase_of_mem hx, List.length_erase_of_mem hin,
        List.length_take]
      refine ⟨by omega, by omega, fun hnot => absurd hx hnot⟩
    · have hwant := hsame hx
      have hshort : (l.filter (· != x)).length ≤ l.length :=
        List.length_filter_le _ _
      rw [List.erase_of_not_mem hx, List.length_take]
      refine ⟨by omega, by omega, fun _ => by omega⟩
  obtain ⟨hfit, hone, hnone⟩ := hlen
  obtain ⟨added, hadded⟩ : (l.take want').erase x <+:
      (l.filter (· != x)).take want := by
    rw [List.prefix_take_iff]
    exact ⟨hpre, hfit⟩
  have hlength := congrArg List.length hadded
  rw [List.length_append, List.length_take] at hlength
  refine ⟨added, hadded.symm, by omega, fun hx => ?_⟩
  have hshort := hnone hx
  exact List.eq_nil_of_length_eq_zero (by omega)

end Distinct

section Sorted

variable {α : Type*}

/-- A sorted list is cut at a threshold by two filters. -/
theorem takeWhile_eq_filter {p : α → Bool} {l : List α}
    (h : l.Pairwise fun a b => p b → p a) :
    l.takeWhile p = l.filter p ∧ l.dropWhile p = l.filter (!p ·) := by
  induction l with
  | nil => exact ⟨rfl, rfl⟩
  | cons a l ih =>
    obtain ⟨hhead, htail⟩ := List.pairwise_cons.mp h
    obtain ⟨htake, hdrop⟩ := ih htail
    by_cases ha : p a
    · simp [ha, htake, hdrop]
    · have hnone : ∀ b ∈ l, ¬ p b := fun b hb hp => ha (hhead b hb hp)
      have hempty : l.filter p = [] := List.filter_eq_nil_iff.mpr hnone
      have hall : l.filter (!p ·) = l := by
        rw [List.filter_eq_self]
        intro b hb
        simpa using hnone b hb
      simp [ha, hempty, hall]

/-- Sorting under a linear order commutes with leaving elements out. -/
theorem filter_mergeSort {le : α → α → Bool}
    (htrans : ∀ a b c, le a b → le b c → le a c)
    (htotal : ∀ a b, le a b || le b a)
    (hantisymm : ∀ a b, le a b → le b a → a = b) {l l' : List α}
    {p : α → Bool} (h : l'.Perm (l.filter p)) :
    l'.mergeSort le = (l.mergeSort le).filter p := by
  have hsorted := List.pairwise_mergeSort htrans htotal
  refine List.Perm.eq_of_pairwise (fun a b _ _ => hantisymm a b) (hsorted l')
    ((hsorted l).filter p) ?_
  exact (List.mergeSort_perm _ _).trans
    (h.trans ((List.mergeSort_perm l le).symm.filter p))

end Sorted

end FirstOccurrences
