import Mathlib

/-!
# Greedy selection

A greedy selection goes through a list once and keeps an element unless as many
as wanted have been kept or the element clashes with one of them.  A marked list
records what became of each element, so that equal elements at different places
are told apart.
-/

namespace GreedySelection

variable {α : Type*}

/-- The elements that are marked as kept, in order. -/
def kept (marks : List (α × Bool)) : List α :=
  (marks.filter Prod.snd).map Prod.fst

/-- Each mark says whether there was room for the element after those in
`before` and those marked before it, and none of them clashed with it. -/
def Marked (clash : α → α → Prop) (m : ℕ) (before : List α)
    (marks : List (α × Bool)) : Prop :=
  ∀ pre c keep post, marks = pre ++ (c, keep) :: post →
    (keep = true ↔ (before ++ kept pre).length < m ∧
      ∀ s ∈ before ++ kept pre, ¬ clash c s)

variable {clash : α → α → Prop} {m : ℕ} {before : List α}
variable {marks : List (α × Bool)}

theorem kept_append (marks marks' : List (α × Bool)) :
    kept (marks ++ marks') = kept marks ++ kept marks' := by
  rw [kept, List.filter_append, List.map_append]
  rfl

theorem kept_sublist (marks : List (α × Bool)) :
    (kept marks).Sublist (marks.map Prod.fst) :=
  List.filter_sublist.map _

theorem Marked.nil : Marked clash m before [] := by
  intro pre c keep post h
  simp at h

theorem kept_dropped (l : List α) : kept (l.map (·, false)) = [] := by
  rw [kept, List.filter_eq_nil_iff.mpr, List.map_nil]
  intro a ha
  obtain ⟨c, -, rfl⟩ := List.mem_map.mp ha
  simp

/-- When there is no more room, nothing is kept. -/
theorem Marked.of_full (h : m ≤ before.length) (l : List α) :
    Marked clash m before (l.map (·, false)) := by
  intro pre c keep post hsplit
  have hmem : (c, keep) ∈ l.map (·, false) := by
    rw [hsplit]
    simp
  obtain ⟨c', -, heq⟩ := List.mem_map.mp hmem
  obtain rfl : false = keep := (Prod.ext_iff.mp heq).2
  rw [List.length_append]
  simp only [Bool.false_eq_true, false_iff, not_and]
  intro hlt
  omega

theorem Marked.drop {c : α} (h : Marked clash m before marks)
    (hclash : ∃ s ∈ before, clash c s) :
    Marked clash m before ((c, false) :: marks) := by
  intro pre c' keep post hsplit
  rcases pre with _ | ⟨p, pre⟩
  · obtain ⟨rfl, rfl⟩ := Prod.ext_iff.mp (List.cons.inj hsplit).1
    obtain ⟨s, hs, hc⟩ := hclash
    simp only [kept, List.filter_nil, List.map_nil, List.append_nil,
      Bool.false_eq_true, false_iff, not_and]
    exact fun _ hall => hall s hs hc
  · obtain ⟨rfl, hrest⟩ := List.cons.inj hsplit
    exact h pre c' keep post hrest

theorem Marked.keep {c : α} (h : Marked clash m (before ++ [c]) marks)
    (hroom : before.length < m) (hfree : ∀ s ∈ before, ¬ clash c s) :
    Marked clash m before ((c, true) :: marks) := by
  intro pre c' keep post hsplit
  rcases pre with _ | ⟨p, pre⟩
  · obtain ⟨rfl, rfl⟩ := Prod.ext_iff.mp (List.cons.inj hsplit).1
    simp only [kept, List.filter_nil, List.map_nil, List.append_nil, true_iff]
    exact ⟨hroom, hfree⟩
  · obtain ⟨rfl, hrest⟩ := List.cons.inj hsplit
    have hkept : before ++ kept ((c, true) :: pre) =
        (before ++ [c]) ++ kept pre := by
      rw [List.append_assoc]
      rfl
    rw [hkept]
    exact h pre c' keep post hrest

theorem Marked.of_append {marks' : List (α × Bool)}
    (h : Marked clash m before (marks ++ marks')) :
    Marked clash m before marks := by
  intro pre c keep post hsplit
  apply h pre c keep (post ++ marks')
  rw [hsplit, List.append_assoc, List.cons_append]

section Kept

variable (h : Marked clash m [] marks)
include h

theorem Marked.length_le : (kept marks).length ≤ m := by
  induction marks using List.reverseRecOn with
  | nil => exact Nat.zero_le m
  | append_singleton marks mark ih =>
    rcases mark with ⟨c, keep⟩
    have hkeep := h marks c keep [] rfl
    rw [kept_append, List.length_append]
    cases keep with
    | false => exact ih h.of_append
    | true =>
      have hlt := (hkeep.mp rfl).1
      simp only [List.nil_append] at hlt
      exact hlt

/-- No element that is kept clashes with one that was kept before it. -/
theorem Marked.pairwise_kept :
    (kept marks).Pairwise fun s c => ¬ clash c s := by
  induction marks using List.reverseRecOn with
  | nil => exact List.Pairwise.nil
  | append_singleton marks mark ih =>
    rcases mark with ⟨c, keep⟩
    have hkeep := h marks c keep [] rfl
    rw [kept_append]
    cases keep with
    | false =>
      have hnone : kept [(c, false)] = [] := rfl
      rw [hnone, List.append_nil]
      exact ih h.of_append
    | true =>
      have hone : kept [(c, true)] = [c] := rfl
      have hfree := (hkeep.mp rfl).2
      simp only [List.nil_append] at hfree
      rw [hone, List.pairwise_append]
      refine ⟨ih h.of_append, List.pairwise_singleton _ _, ?_⟩
      intro s hs c' hc'
      rw [List.mem_singleton.mp hc']
      exact hfree s hs

theorem Marked.head?_kept (hm : 1 ≤ m) :
    (kept marks).head? = (marks.map Prod.fst).head? := by
  rcases marks with _ | ⟨⟨c, keep⟩, rest⟩
  · rfl
  · obtain rfl : keep = true := (h [] c keep rest rfl).mpr ⟨hm, by simp [kept]⟩
    rfl

/-- Whatever is dropped clashes with an element kept before it, or comes after
as many as are wanted. -/
theorem Marked.dropped {pre post : List (α × Bool)} {c : α}
    (hsplit : marks = pre ++ (c, false) :: post) :
    (∃ s ∈ kept pre, clash c s) ∨ (kept pre).length = m := by
  have hnot := (h pre c false post hsplit).not.mp (by simp)
  have hpre : Marked clash m [] pre := by
    rw [hsplit] at h
    exact h.of_append
  have hle := hpre.length_le
  simp only [List.nil_append, not_and, not_forall, not_not] at hnot
  rcases hle.lt_or_eq with hlt | heq
  · obtain ⟨s, hs, hclash⟩ := hnot hlt
    exact .inl ⟨s, hs, hclash⟩
  · exact .inr heq

end Kept

end GreedySelection
