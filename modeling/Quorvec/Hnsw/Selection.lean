import Quorvec.Hnsw.Linked
import Quorvec.Hnsw.ScoreLaws
import Quorvec.Support.GreedySelection

/-!
# What the pruning heuristic selects

The heuristic is a greedy selection from the candidates in sorted order: a
candidate clashes with one selected before it when it is closer to that one than
to the base.  So it keeps a maximal prefix of neighbours that are diverse.
-/

namespace Quorvec

open TotalCorrectness GreedySelection SortedLists

variable {K : Kernel} {metric : Metric} {nodes : Nodes}

/-- The vector of a node, empty where there is no such node. -/
def vectorOf (nodes : Nodes) (n : ℕ) : List F32 :=
  ((nodes[n]?).map Node.vector).getD []

/-- Distance of two candidates to each other. -/
def Candidate.between (K : Kernel) (metric : Metric) (nodes : Nodes)
    (c s : Candidate) : F32 :=
  K.distance metric (vectorOf nodes c.node) (vectorOf nodes s.node)

/-- The candidate is closer to `s` than to the base. -/
def Candidate.CloserTo (K : Kernel) (metric : Metric) (nodes : Nodes)
    (c s : Candidate) : Prop :=
  K.lt (c.between K metric nodes s) c.dist

theorem nodeAt_of_lt {n : ℕ} (h : n < nodes.length) :
    nodeAt nodes n = .ok nodes[n] ∧ nodes[n].vector = vectorOf nodes n := by
  refine ⟨nodeAt_of_getElem? (List.getElem?_eq_getElem h), ?_⟩
  rw [vectorOf, List.getElem?_eq_getElem h, Option.map_some, Option.getD_some]

theorem keeps_eq {c : Candidate} (hc : c.node < nodes.length)
    {selected : List Candidate} (hs : ∀ s ∈ selected, s.node < nodes.length) :
    ∃ b, keeps K metric nodes c.dist c.node (selected.map Candidate.node) =
        .ok b ∧
      (b = true ↔ ∀ s ∈ selected, ¬ c.CloserTo K metric nodes s) := by
  induction selected with
  | nil => exact ⟨true, rfl, by simp⟩
  | cons s selected ih =>
      obtain ⟨b, hkeeps, hb⟩ := ih fun x hx => hs x (List.mem_cons_of_mem s hx)
      obtain ⟨hat, hvec⟩ := nodeAt_of_lt hc
      obtain ⟨hat', hvec'⟩ := nodeAt_of_lt (hs s List.mem_cons_self)
      rw [List.map_cons, keeps, hat, hat']
      simp only [bind, Except.bind, hvec, hvec']
      by_cases hclose : c.CloserTo K metric nodes s
      · refine ⟨false, if_pos hclose, ?_⟩
        simp only [Bool.false_eq_true, false_iff]
        exact fun hall => hall s List.mem_cons_self hclose
      · refine ⟨b, (if_neg hclose).trans hkeeps, hb.trans ?_⟩
        rw [List.forall_mem_cons, and_iff_right hclose]

/-- The loop marks the candidates in order. -/
theorem selectLoop_eq {m : ℕ} {cands selected : List Candidate}
    (hcands : ∀ c ∈ cands, c.node < nodes.length)
    (hselected : ∀ s ∈ selected, s.node < nodes.length) :
    ∃ marks, marks.map Prod.fst = cands ∧
      Marked (Candidate.CloserTo K metric nodes) m selected marks ∧
      selectLoop K metric nodes m cands (selected.map Candidate.node) =
        .ok ((selected ++ kept marks).map Candidate.node) := by
  induction cands generalizing selected with
  | nil =>
      refine ⟨[], rfl, .nil, ?_⟩
      rw [selectLoop, kept, List.filter_nil, List.map_nil, List.append_nil]
      rfl
  | cons c cands ih =>
      have hc := hcands c List.mem_cons_self
      have hrest := fun x hx => hcands x (List.mem_cons_of_mem c hx)
      rw [selectLoop, List.length_map]
      by_cases hfull : selected.length ≥ m
      · refine ⟨(c :: cands).map (·, false), ?_, .of_full hfull _, ?_⟩
        · rw [List.map_map]
          exact List.map_id _
        · rw [if_pos hfull, kept_dropped, List.append_nil]
          rfl
      · obtain ⟨b, hkeeps, hb⟩ := keeps_eq hc hselected
        rw [if_neg hfull, hkeeps]
        simp only [bind, Except.bind]
        cases b with
        | false =>
            have hclash := hb.not.mp (by simp)
            simp only [not_forall, not_not] at hclash
            obtain ⟨s, hs, hclose⟩ := hclash
            obtain ⟨marks, hfst, hmarked, hloop⟩ := ih hrest hselected
            exact ⟨(c, false) :: marks, by rw [List.map_cons, hfst],
              hmarked.drop ⟨s, hs, hclose⟩, hloop⟩
        | true =>
            have hgrown : ∀ s ∈ selected ++ [c], s.node < nodes.length := by
              intro s hs
              rcases List.mem_append.mp hs with hs | hs
              · exact hselected s hs
              · exact List.mem_singleton.mp hs ▸ hc
            obtain ⟨marks, hfst, hmarked, hloop⟩ := ih hrest hgrown
            refine ⟨(c, true) :: marks, by rw [List.map_cons, hfst],
              hmarked.keep (not_le.mp hfull) (hb.mp rfl), ?_⟩
            rw [List.map_append, List.append_assoc] at hloop
            exact hloop

/-- The first candidate in sorted order is a nearest one. -/
theorem exists_head_sortByDist {S : Set F32} (hK : K.PreordersOn S)
    {cands : List Candidate} (hdist : ∀ c ∈ cands, c.dist ∈ S)
    (hne : cands ≠ []) :
    ∃ first, (Candidate.sortByDist K cands).head? = some first ∧
      ∀ c ∈ cands, (K.cmp first.dist c.dist).isLE := by
  have hperm := Candidate.sortByDist_perm K cands
  have hsorted : (Candidate.sortByDist K cands).Pairwise
      fun a b => (K.cmp a.dist b.dist).isLE :=
    pairwise_mergeSort (hK.preorderOn hdist)
  rcases hcons : Candidate.sortByDist K cands with _ | ⟨first, rest⟩
  · rw [hcons] at hperm
    exact absurd hperm.nil_eq.symm hne
  · refine ⟨first, rfl, fun c hc => ?_⟩
    rw [hcons] at hsorted hperm
    have hfirst := hdist first (hperm.subset List.mem_cons_self)
    rcases List.mem_cons.mp (hperm.mem_iff.mpr hc) with rfl | hrest
    · simpa using hK.total hfirst hfirst
    · exact List.rel_of_pairwise_cons hsorted hrest

/-- Every drop and every selection is accounted for: of the candidates in sorted
order each is marked as kept or dropped, and what is returned are the kept ones,
at most `m`, nearest first and beginning with a nearest one; a kept one is no
farther from the base than from any kept before it, and a dropped one is closer
to some kept before it, at no greater distance from the base, or comes after `m`
kept ones. -/
theorem selectNeighborsHeuristic_maximal {S : Set F32} (hK : K.PreordersOn S)
    {cands : List Candidate} (hcands : ∀ c ∈ cands, c.node < nodes.length)
    (hdist : ∀ c ∈ cands, c.dist ∈ S)
    (hbetween : ∀ c ∈ cands, ∀ s ∈ cands, c.between K metric nodes s ∈ S)
    {m : ℕ} (hm : 1 ≤ m) (hfits : m < 2 ^ 61) :
    ∃ marks : List (Candidate × Bool),
      marks.map Prod.fst = Candidate.sortByDist K cands ∧
      selectNeighborsHeuristic K metric nodes cands m =
        .ok ((kept marks).map Candidate.node) ∧
      (kept marks).length ≤ m ∧
      (marks.map Prod.fst).Pairwise (fun a b => (K.cmp a.dist b.dist).isLE) ∧
      (kept marks).Pairwise (fun a b => (K.cmp a.dist b.dist).isLE) ∧
      (cands ≠ [] → ∃ first, (kept marks).head? = some first ∧
        ∀ c ∈ cands, (K.cmp first.dist c.dist).isLE) ∧
      (kept marks).Pairwise (fun s c =>
        (K.cmp c.dist (c.between K metric nodes s)).isLE) ∧
      ∀ pre c post, marks = pre ++ (c, false) :: post →
        (∃ s ∈ kept pre, c.CloserTo K metric nodes s ∧
          (K.cmp s.dist c.dist).isLE) ∨ (kept pre).length = m := by
  have hperm := Candidate.sortByDist_perm K cands
  have hsorted : (Candidate.sortByDist K cands).Pairwise
      fun a b => (K.cmp a.dist b.dist).isLE :=
    pairwise_mergeSort (hK.preorderOn hdist)
  obtain ⟨marks, hfst, hmarked, hloop⟩ := @selectLoop_eq K metric nodes m
    (Candidate.sortByDist K cands) []
    (fun c hc => hcands c (hperm.subset hc)) (fun s hs => by simp at hs)
  have hsub := kept_sublist marks
  have hmem : ∀ c ∈ kept marks, c ∈ cands := by
    intro c hc
    have hin := hsub.subset hc
    rw [hfst] at hin
    exact hperm.subset hin
  refine ⟨marks, hfst, ?_, hmarked.length_le, hfst ▸ hsorted,
    (hfst ▸ hsorted).sublist hsub, fun hne => ?_, ?_,
    fun pre c post hsplit => ?_⟩
  · rw [List.nil_append] at hloop
    rw [selectNeighborsHeuristic_of_lt K metric nodes (by omega)]
    exact hloop
  · rw [hmarked.head?_kept hm, hfst]
    exact exists_head_sortByDist hK hdist hne
  · refine hmarked.pairwise_kept.imp_of_mem fun {s c} hs hc hfar => ?_
    exact hK.le_of_not_lt (hbetween c (hmem c hc) s (hmem s hs))
      (hdist c (hmem c hc)) hfar
  · refine (hmarked.dropped hsplit).imp_left ?_
    rintro ⟨s, hs, hclose⟩
    refine ⟨s, hs, hclose, ?_⟩
    rw [← hfst, hsplit, List.map_append, List.pairwise_append] at hsorted
    exact hsorted.2.2 s ((kept_sublist pre).subset hs) c List.mem_cons_self

/-- Two candidates, the farther one first, and room for one. -/
theorem selectNeighborsHeuristic_line :
    ∃ marks : List (Candidate × Bool), (kept marks).length ≤ 1 ∧
      selectNeighborsHeuristic .onLine .l2
        [⟨1, [F32.zero], [[]]⟩, ⟨2, [F32.one], [[]]⟩]
        [⟨F32.one, 1⟩, ⟨F32.zero, 0⟩] 1 =
          .ok ((kept marks).map Candidate.node) := by
  have hnumbers : ∀ c ∈ ([⟨F32.one, 1⟩, ⟨F32.zero, 0⟩] : List Candidate),
      c.dist ∈ {s | F32.place s ≠ none} := by
    decide +kernel
  obtain ⟨marks, -, hselect, hlength, -⟩ :=
    @selectNeighborsHeuristic_maximal .onLine .l2
      [⟨1, [F32.zero], [[]]⟩, ⟨2, [F32.one], [[]]⟩] _
      (Kernel.preordersOn_numbers Kernel.onLine_partialCmp)
      [⟨F32.one, 1⟩, ⟨F32.zero, 0⟩] (by decide) hnumbers (by decide +kernel) 1
      (le_refl 1) (by norm_num)
  exact ⟨marks, hlength, hselect⟩

/-- One candidate, and a capacity of `2 ^ 61` neighbours. -/
theorem selectNeighborsHeuristic_overflow :
    ¬ ∀ m, 1 ≤ m → ∃ selected,
      selectNeighborsHeuristic .onLine .l2 [⟨1, [F32.zero], [[]]⟩]
        [⟨F32.zero, 0⟩] m = .ok selected := by
  intro hall
  obtain ⟨selected, hselect⟩ := hall (2 ^ 61) (by norm_num)
  rw [selectNeighborsHeuristic_of_not_lt _ _ _ (by norm_num)] at hselect
  simp at hselect

end Quorvec
