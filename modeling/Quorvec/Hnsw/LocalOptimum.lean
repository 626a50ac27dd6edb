import Quorvec.Hnsw.Recall
import Quorvec.Hnsw.ScoreOrder
import Quorvec.Hnsw.Survey
import Quorvec.Support.HeapOrder

/-!
# The search of a layer ends at a local optimum

If the distances are totally preordered, a node that the search has seen and
that is not among its results is at least as far as each of them: it was no
nearer than the worst result when it was seen, or it was the worst when it was
dropped, and the worst result only comes nearer.  When the search ends, no
result is left to be expanded, so every neighbour of a result has been seen.
-/

namespace Quorvec

open TotalCorrectness SortedLists BinaryHeap

variable {K : Kernel} {metric : Metric} {nodes : Nodes} {layer : ℕ}
variable {query : List F32} {entry ef : ℕ}

/-- The distances of the nodes that can be reached. -/
def layerScores (K : Kernel) (metric : Metric) (nodes : Nodes)
    (query : List F32) (layer entry : ℕ) : Set F32 :=
  {d | ∃ n, ReachableOn nodes layer entry n ∧
    dist K metric nodes n query = .ok d}

/-- The node is at least as far as each of the results. -/
def NoNearer (K : Kernel) (metric : Metric) (nodes : Nodes)
    (query : List F32) (results : List Candidate) (n : ℕ) : Prop :=
  ∃ d, dist K metric nodes n query = .ok d ∧
    ∀ c ∈ results, (K.cmp c.dist d).isLE

/-- Both heaps are ordered, and what was seen and is no result is no nearer. -/
structure SearchState.Sorted (K : Kernel) (metric : Metric) (nodes : Nodes)
    (query : List F32) (st : SearchState) : Prop where
  candidates : IsHeap (Candidate.minLe K) st.candidates
  results : IsHeap (Candidate.maxLe K) st.results
  outside : ∀ n ∈ st.visited, n ∉ st.results.map Candidate.node →
    NoNearer K metric nodes query st.results n

/-- What the search of a layer finds, having expanded `expanded`. -/
structure LocalOptimum (K : Kernel) (metric : Metric) (nodes : Nodes)
    (query : List F32) (layer entry ef : ℕ) (found : List Candidate)
    (expanded : Finset ℕ) : Prop where
  pos : 0 < found.length
  length_le : found.length ≤ ef
  nodup : (found.map Candidate.node).Nodup
  reachable : ∀ c ∈ found, ReachableOn nodes layer entry c.node
  dist_eq : ∀ c ∈ found, dist K metric nodes c.node query = .ok c.dist
  expanded : ∀ c ∈ found, c.node ∈ expanded
  /-- A neighbour is found, too, or no nearer than the farthest of `ef`. -/
  closed : ∀ c ∈ found, ∀ n, Lists nodes layer c.node n →
    n ∈ found.map Candidate.node ∨
      found.length = ef ∧ NoNearer K metric nodes query found n
  complete : {n | ReachableOn nodes layer entry n}.ncard ≤ ef →
    ∀ n, n ∈ found.map Candidate.node ↔ ReachableOn nodes layer entry n

/-! ## Dropping the farthest result -/

theorem dropFarthest_cases (K : Kernel) (ef : ℕ) (results : List Candidate) :
    results.length ≤ ef ∧ dropFarthest K ef results = results ∨
      ef < results.length ∧ ∃ e, pop (Candidate.maxLe K) results =
        some (e, dropFarthest K ef results) := by
  rw [dropFarthest]
  split_ifs with hfull
  · right
    cases hpop : pop (Candidate.maxLe K) results with
    | none =>
        rw [pop_eq_none_iff.mp hpop] at hfull
        simp at hfull
    | some popped => exact ⟨hfull, popped.1, rfl⟩
  · exact .inl ⟨not_lt.mp hfull, rfl⟩

namespace Surveys

variable {rest : List ℕ} {st : SearchState} {expanded : Finset ℕ}

theorem results_scores
    (h : Surveys K metric nodes query layer entry ef rest st expanded) :
    ∀ c ∈ st.results, c.dist ∈ layerScores K metric nodes query layer entry :=
  fun c hc => ⟨c.node, h.reachable _ (.inl (h.results c hc).1),
    (h.results c hc).2⟩

theorem candidates_scores
    (h : Surveys K metric nodes query layer entry ef rest st expanded) :
    ∀ c ∈ st.candidates,
      c.dist ∈ layerScores K metric nodes query layer entry :=
  fun c hc => ⟨c.node, h.reachable _ (.inl (h.candidates c hc).1),
    (h.candidates c hc).2⟩

theorem length_results_pos (hef : 0 < ef)
    (h : Surveys K metric nodes query layer entry ef rest st expanded) :
    0 < st.results.length := by
  have hcard := Finset.card_pos.mpr ⟨entry, h.started⟩
  rw [h.length_results]
  omega

theorem exists_worst (hef : 0 < ef)
    (h : Surveys K metric nodes query layer entry ef rest st expanded) :
    ∃ worst ∈ st.results, peek st.results = some worst := by
  obtain ⟨worst, hworst⟩ := Option.isSome_iff_exists.mp (List.isSome_head?.mpr
    (List.ne_nil_of_length_pos (h.length_results_pos hef)))
  exact ⟨worst, List.mem_of_head? hworst, hworst⟩

theorem mem_results_of_room
    (h : Surveys K metric nodes query layer entry ef rest st expanded)
    (hroom : st.results.length < ef) {n : ℕ} (hn : n ∈ st.visited) :
    n ∈ st.results.map Candidate.node := by
  have hsub : (st.results.map Candidate.node).toFinset ⊆ st.visited := by
    intro i hi
    obtain ⟨c, hc, rfl⟩ := List.mem_map.mp (List.mem_toFinset.mp hi)
    exact (h.results c hc).1
  have hlength := h.length_results
  have hcard : (st.results.map Candidate.node).toFinset.card =
      st.results.length := by
    rw [List.toFinset_card_of_nodup h.nodup, List.length_map]
  have hall := Finset.eq_of_subset_of_card_le hsub (by omega)
  rwa [← hall, List.mem_toFinset] at hn

end Surveys

/-! ## One neighbour -/

section Visit

variable {rest : List ℕ} {st : SearchState} {expanded : Finset ℕ} {nbr : ℕ}
  {d : F32}

theorem SearchState.Sorted.leave (hef : 0 < ef)
    (hK : K.PreordersOn (layerScores K metric nodes query layer entry))
    (h : Surveys K metric nodes query layer entry ef (nbr :: rest) st expanded)
    (hst : st.Sorted K metric nodes query)
    (hd : dist K metric nodes nbr query = .ok d)
    (hfar : ¬ K.lt d (((peek st.results).map Candidate.dist).getD
      K.infinity)) :
    SearchState.Sorted K metric nodes query
      { st with visited := insert nbr st.visited } := by
  refine ⟨hst.candidates, hst.results, fun n hn hout => ?_⟩
  rcases Finset.mem_insert.mp hn with rfl | hn
  · have hdS : d ∈ layerScores K metric nodes query layer entry :=
      ⟨n, h.reachable n (.inr List.mem_cons_self), hd⟩
    refine ⟨d, hd, fun c hc => ?_⟩
    obtain ⟨worst, hmem, hworst⟩ := h.exists_worst hef
    rw [hworst, Option.map_some, Option.getD_some] at hfar
    have hle := hst.results.le_peek
      (Candidate.preorderOn_maxLe hK h.results_scores) hworst hc
    have hworstS := h.results_scores worst hmem
    exact hK.trans _ (h.results_scores c hc) _ hworstS _ hdS
      (Candidate.cmp_le_of_maxLe hle) (hK.le_of_not_lt hdS hworstS hfar)
  · exact hst.outside n hn hout

theorem Surveys.scores_cons
    (h : Surveys K metric nodes query layer entry ef (nbr :: rest) st expanded)
    (hd : dist K metric nodes nbr query = .ok d) {heap : List Candidate}
    (hheap : ∀ c ∈ heap,
      c.dist ∈ layerScores K metric nodes query layer entry) :
    ∀ c ∈ (⟨d, nbr⟩ : Candidate) :: heap,
      c.dist ∈ layerScores K metric nodes query layer entry := by
  intro c hc
  rcases List.mem_cons.mp hc with rfl | hc
  · exact ⟨nbr, h.reachable nbr (.inr List.mem_cons_self), hd⟩
  · exact hheap c hc

theorem SearchState.Sorted.push_results
    (hK : K.PreordersOn (layerScores K metric nodes query layer entry))
    (h : Surveys K metric nodes query layer entry ef (nbr :: rest) st expanded)
    (hst : st.Sorted K metric nodes query)
    (hd : dist K metric nodes nbr query = .ok d) :
    PreorderOn (Candidate.maxLe K)
        (push (Candidate.maxLe K) st.results ⟨d, nbr⟩) ∧
      IsHeap (Candidate.maxLe K)
        (push (Candidate.maxLe K) st.results ⟨d, nbr⟩) := by
  have hgrown := Candidate.preorderOn_maxLe hK
    (h.scores_cons hd h.results_scores)
  have hperm := @push_perm _ (Candidate.maxLe K) st.results ⟨d, nbr⟩
  exact ⟨hgrown.mono hperm.subset, isHeap_push hgrown hst.results⟩

/-- A result is dropped: every node that was seen and is no result is at least
as far as all that are kept. -/
theorem SearchState.Sorted.outside_of_pop (hef : 0 < ef)
    (hK : K.PreordersOn (layerScores K metric nodes query layer entry))
    (h : Surveys K metric nodes query layer entry ef (nbr :: rest) st expanded)
    (hst : st.Sorted K metric nodes query)
    (hd : dist K metric nodes nbr query = .ok d)
    (hnear : K.lt d (((peek st.results).map Candidate.dist).getD
      K.infinity) ∨ st.results.length < ef)
    (hfull : ef ≤ st.results.length) {e : Candidate} {kept : List Candidate}
    (hpop : pop (Candidate.maxLe K)
      (push (Candidate.maxLe K) st.results ⟨d, nbr⟩) = some (e, kept))
    {n : ℕ} (hn : n ∈ insert nbr st.visited)
    (hout : n ∉ kept.map Candidate.node) :
    ∃ f, dist K metric nodes n query = .ok f ∧
      ∀ c ∈ kept, (K.cmp c.dist f).isLE := by
  have hdS : d ∈ layerScores K metric nodes query layer entry :=
    ⟨nbr, h.reachable nbr (.inr List.mem_cons_self), hd⟩
  obtain ⟨hordered, hpushed⟩ := hst.push_results hK h hd
  have hperm := @push_perm _ (Candidate.maxLe K) st.results ⟨d, nbr⟩
  have hpeek := (isHeap_pop hordered hpushed hpop).1
  have hparts := pop_perm hpop
  -- the node was dropped now, or it was no result before
  by_cases hin : n ∈ (push (Candidate.maxLe K) st.results
      ⟨d, nbr⟩).map Candidate.node
  · rw [← (hparts.map _).mem_iff, List.map_cons, List.mem_cons] at hin
    have hne : n = e.node := hin.resolve_right hout
    have he := hparts.subset List.mem_cons_self
    refine ⟨e.dist, ?_, fun c hc => ?_⟩
    · rw [hne]
      exact (h.results.push hd e he).2
    · exact Candidate.cmp_le_of_maxLe (hpushed.le_peek
        hordered hpeek
        (hparts.subset (List.mem_cons_of_mem e hc)))
  · rw [(hperm.map _).mem_iff, List.map_cons, List.mem_cons, not_or] at hin
    have hseen := (Finset.mem_insert.mp hn).resolve_left hin.1
    obtain ⟨f, hf, hfar⟩ := hst.outside n hseen hin.2
    have hfS : f ∈ layerScores K metric nodes query layer entry :=
      ⟨n, h.reachable n (.inl hseen), hf⟩
    refine ⟨f, hf, fun c hc => ?_⟩
    rcases mem_push.mp (hparts.subset (List.mem_cons_of_mem e hc)) with
      rfl | hc
    · obtain ⟨worst, hmem, hworst⟩ := h.exists_worst hef
      rw [hworst, Option.map_some, Option.getD_some,
        Kernel.lt_iff_cmp] at hnear
      have hlt := hnear.resolve_right (by omega)
      exact hK.trans _ hdS _ (h.results_scores worst hmem) _ hfS
        (by rw [hlt]; rfl) (hfar worst hmem)
    · exact hfar c hc

theorem SearchState.Sorted.enter (hef : 0 < ef)
    (hK : K.PreordersOn (layerScores K metric nodes query layer entry))
    (h : Surveys K metric nodes query layer entry ef (nbr :: rest) st expanded)
    (hst : st.Sorted K metric nodes query)
    (hd : dist K metric nodes nbr query = .ok d)
    (hnear : K.lt d (((peek st.results).map Candidate.dist).getD
      K.infinity) ∨ st.results.length < ef) :
    SearchState.Sorted K metric nodes query
      { visited := insert nbr st.visited
        candidates := push (Candidate.minLe K) st.candidates ⟨d, nbr⟩
        results := dropFarthest K ef
          (push (Candidate.maxLe K) st.results ⟨d, nbr⟩) } := by
  obtain ⟨hordered, hpushed⟩ := hst.push_results hK h hd
  have hperm := @push_perm _ (Candidate.maxLe K) st.results ⟨d, nbr⟩
  have hcandidates : IsHeap (Candidate.minLe K)
      (push (Candidate.minLe K) st.candidates ⟨d, nbr⟩) :=
    isHeap_push (Candidate.preorderOn_minLe hK
      (h.scores_cons hd h.candidates_scores)) hst.candidates
  rcases dropFarthest_cases K ef
    (push (Candidate.maxLe K) st.results ⟨d, nbr⟩) with
    ⟨hroom, hdrop⟩ | ⟨hover, e, hpop⟩
  · -- there was room, so every node that was seen is a result
    rw [hdrop]
    refine ⟨hcandidates, hpushed, fun n hn hout => absurd ?_ hout⟩
    rw [length_push] at hroom
    rw [(hperm.map _).mem_iff, List.map_cons, List.mem_cons]
    exact (Finset.mem_insert.mp hn).imp_right
      (h.mem_results_of_room (by omega))
  · rw [length_push] at hover
    have hheap := (isHeap_pop hordered hpushed hpop).2
    exact ⟨hcandidates, hheap, fun n hn hout =>
      hst.outside_of_pop hef hK h hd hnear (by omega) hpop hn hout⟩

theorem SearchState.Sorted.visit (hef : 0 < ef)
    (hlt : ∀ n, ReachableOn nodes layer entry n → n < nodes.length)
    (hK : K.PreordersOn (layerScores K metric nodes query layer entry))
    (h : Surveys K metric nodes query layer entry ef (nbr :: rest) st expanded)
    (hst : st.Sorted K metric nodes query) :
    Returns (visitNeighbor K metric nodes query ef st nbr)
      (SearchState.Sorted K metric nodes query) := by
  have hnbr := hlt nbr (h.reachable nbr (.inr List.mem_cons_self))
  refine (visitNeighbor_cases st hnbr).mono ?_
  rintro st' (⟨-, rfl⟩ | ⟨-, d, hd, ⟨hnear, rfl⟩ | ⟨hfar, -, rfl⟩⟩)
  · exact hst
  · exact hst.enter hef hK h hd hnear
  · exact hst.leave hef hK h hd hfar

end Visit

/-! ## The end of a search -/

section End

variable {st : SearchState} {expanded : Finset ℕ}

/-- When the search ends, no result is still a candidate: a candidate is at
least as far as the nearest one, and that is farther than every result. -/
theorem Surveys.expanded_of_result (hef : 0 < ef)
    (hK : K.PreordersOn (layerScores K metric nodes query layer entry))
    (h : Surveys K metric nodes query layer entry ef [] st expanded)
    (hst : st.Sorted K metric nodes query) (hend : st.Ended K ef)
    {c : Candidate} (hc : c ∈ st.results) : c.node ∈ expanded := by
  have hnode := List.mem_map_of_mem (f := Candidate.node) hc
  rcases h.pending c.node (h.results c hc).1 with hcand | hdone | ⟨hout, -⟩
  · exfalso
    obtain ⟨x, hx, hxc⟩ := List.mem_map.mp hcand
    have hsame : x.dist = c.dist := by
      have hxd := (h.candidates x hx).2
      rw [hxc, (h.results c hc).2, Except.ok.injEq] at hxd
      exact hxd.symm
    cases hpop : pop (Candidate.minLe K) st.candidates with
    | none =>
        rw [pop_eq_none_iff.mp hpop] at hx
        simp at hx
    | some popped =>
        obtain ⟨next, candidates⟩ := popped
        have hmin := Candidate.preorderOn_minLe hK h.candidates_scores
        have hnext := (pop_perm hpop).subset List.mem_cons_self
        have hpeek := (isHeap_pop hmin hst.candidates hpop).1
        have hnearest := Candidate.cmp_le_of_minLe
          (hst.candidates.le_peek hmin hpeek hx)
        obtain ⟨worst, hworst, hpeekWorst⟩ := h.exists_worst hef
        have hlast := Candidate.cmp_le_of_maxLe (hst.results.le_peek
          (Candidate.preorderOn_maxLe hK h.results_scores) hpeekWorst hc)
        have hle := hK.trans _ (h.candidates_scores next hnext) _
          (h.candidates_scores x hx) _ (h.results_scores worst hworst)
          hnearest (hsame ▸ hlast)
        have hfar := hend next candidates hpop
        rw [isFarther, hpeekWorst] at hfar
        dsimp only at hfar
        rw [Bool.and_eq_true, Kernel.gt_iff_cmp] at hfar
        rw [hfar.1] at hle
        simp at hle
  · exact hdone
  · exact absurd hnode hout

theorem Surveys.localOptimum (hef : 0 < ef)
    (hlt : ∀ n, ReachableOn nodes layer entry n → n < nodes.length)
    (hK : K.PreordersOn (layerScores K metric nodes query layer entry))
    (h : Surveys K metric nodes query layer entry ef [] st expanded)
    (hst : st.Sorted K metric nodes query) (hend : st.Ended K ef) :
    LocalOptimum K metric nodes query layer entry ef st.results expanded where
  pos := h.length_results_pos hef
  length_le := h.length_results_le
  nodup := h.nodup
  reachable c hc := h.reachable _ (.inl (h.results c hc).1)
  dist_eq c hc := (h.results c hc).2
  expanded c hc := h.expanded_of_result hef hK hst hend hc
  closed c hc n hn := by
    have hseen := (h.closed _ (h.expanded_of_result hef hK hst hend hc) n
      hn).resolve_right (by simp)
    by_cases hout : n ∈ st.results.map Candidate.node
    · exact .inl hout
    · refine .inr ⟨?_, hst.outside n hseen hout⟩
      by_contra hroom
      exact hout (h.mem_results_of_room
        (lt_of_le_of_ne h.length_results_le hroom) hseen)
  complete hfew := by
    have hlength := h.length_found hlt hend
    rw [min_eq_left hfew] at hlength
    have hsub : ((st.results.map Candidate.node).toFinset : Set ℕ) ⊆
        {n | ReachableOn nodes layer entry n} := by
      intro n hn
      obtain ⟨c, hc, rfl⟩ := List.mem_map.mp (List.mem_toFinset.mp hn)
      exact h.reachable _ (.inl (h.results c hc).1)
    have hall := Set.eq_of_subset_of_ncard_le hsub (by
      rw [Set.ncard_coe_finset, List.toFinset_card_of_nodup h.nodup,
        List.length_map, hlength])
      ((Set.finite_lt_nat nodes.length).subset hlt)
    intro n
    rw [← List.mem_toFinset, ← Finset.mem_coe, hall]
    rfl

end End

theorem sorted_start (K : Kernel) (metric : Metric) (nodes : Nodes)
    (query : List F32) (entry : ℕ) (d : F32) :
    (startState K entry d).Sorted K metric nodes query := by
  have hsingle : ∀ le : Candidate → Candidate → Bool,
      IsHeap le (push le [] ⟨d, entry⟩) := fun le i hi =>
    cellLe_of_length_le (by rw [length_push]; exact hi) _
  refine ⟨hsingle _, hsingle _, fun n hn hout => absurd ?_ hout⟩
  rw [startState, ((push_perm [] _).map _).mem_iff]
  simpa [startState] using hn

theorem searchInvariant_sorted (hef : 0 < ef)
    (hlt : ∀ n, ReachableOn nodes layer entry n → n < nodes.length)
    (hK : K.PreordersOn (layerScores K metric nodes query layer entry)) :
    SearchInvariant K metric nodes query ef layer (fun rest st expanded =>
      Surveys K metric nodes query layer entry ef rest st expanded ∧
        st.Sorted K metric nodes query) := by
  have hsurveys := @searchInvariant_surveys K metric nodes layer query entry ef
    hlt
  constructor
  · rintro st expanded c candidates ⟨hst, hsorted⟩ hpop
    obtain ⟨node, hnode, hpopped⟩ :=
      hsurveys.pop st expanded c candidates hst hpop
    have hmin := Candidate.preorderOn_minLe hK hst.candidates_scores
    exact ⟨node, hnode, hpopped, (isHeap_pop hmin hsorted.candidates hpop).2,
      hsorted.results, hsorted.outside⟩
  · rintro st expanded nbr rest ⟨hst, hsorted⟩
    obtain ⟨st', hvisit, hst'⟩ := hsurveys.visit st expanded nbr rest hst
    exact ⟨st', hvisit, hst', (hsorted.visit hef hlt hK hst).of_eq_ok hvisit⟩

theorem tracedLayer_localOptimum (hlinked : Linked nodes)
    (hentry : entry < nodes.length) (hef : 0 < ef)
    (hK : K.PreordersOn (layerScores K metric nodes query layer entry)) :
    Returns (tracedLayer K metric nodes query entry ef layer) (fun r =>
      LocalOptimum K metric nodes query layer entry ef r.1 r.2) := by
  have hlt : ∀ n, ReachableOn nodes layer entry n → n < nodes.length :=
    fun n hn => hlinked.neighborsExist.lt_of_reachable hentry hn
  refine (tracedLayer_returns (searchInvariant_sorted hef hlt hK) hentry
    fun d hd => ⟨surveys_start hd hef,
      sorted_start K metric nodes query entry d⟩).mono ?_
  rintro ⟨found, expanded⟩ ⟨st, ⟨hsurveys, hsorted⟩, hend, rfl⟩
  exact hsurveys.localOptimum hef hlt hK hsorted hend

/-- On a linked graph the search of a layer ends, whatever the fuel beyond the
number of nodes, and it ends at a local optimum. -/
theorem searchLayer_localOptimum (hlinked : Linked nodes)
    (hentry : entry < nodes.length) (hef : 1 ≤ ef)
    (hK : K.PreordersOn (layerScores K metric nodes query layer entry)) :
    ∃ found expanded,
      tracedLayer K metric nodes query entry ef layer =
        .ok (found, expanded) ∧
      searchLayer K metric nodes query entry ef layer = .ok found ∧
      (∀ more, searchLayerIn K metric nodes (nodes.length + 1 + more) query
        entry ef layer = .ok found) ∧
      LocalOptimum K metric nodes query layer entry ef found expanded := by
  obtain ⟨⟨found, expanded⟩, htraced, hoptimum⟩ :=
    tracedLayer_localOptimum hlinked hentry hef hK
  have hsearch := searchLayer_of_traced htraced
  refine ⟨found, expanded, htraced, hsearch, fun more => ?_, hoptimum⟩
  exact (searchLayer_add_fuel more).symm.trans hsearch

/-- Two equal points that list each other, and one result. -/
theorem searchLayer_localOptimum_twins :
    ∃ found expanded, searchLayer .equalPoints .l2
        (EqualPoints.twins [[1], [0]]) [0] 0 1 0 = .ok found ∧
      LocalOptimum .equalPoints .l2 (EqualPoints.twins [[1], [0]]) [0] 0 0 1
        found expanded := by
  obtain ⟨idx, hidx, -⟩ := @HnswIndex.withParams_returns 1 .l2
    EqualPoints.params 0 one_pos le_rfl le_rfl (by decide)
  have hholds := EqualPoints.holds_second hidx
  obtain ⟨found, expanded, -, hfound, -, hoptimum⟩ :=
    @searchLayer_localOptimum .equalPoints .l2 (EqualPoints.twins [[1], [0]])
      0 [0] 0 1 (hholds.nodes_eq ▸ hholds.wellFormed.valid.linked)
      (by decide) le_rfl
      ⟨fun _ _ _ _ => rfl, fun _ _ _ _ _ _ _ _ => rfl⟩
  exact ⟨found, expanded, hfound, hoptimum⟩

end Quorvec
