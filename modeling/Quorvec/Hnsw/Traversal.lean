import Quorvec.Hnsw.Linked
import Quorvec.Support.PartialCorrectness

/-!
# What the searches visit and select

A search stays within every set of nodes that is closed under the neighbours
of its layer, and finds each node at most once.  The heuristic selects some of
its candidates, each at most once, and no more than asked for.
-/

namespace Quorvec

open PartialCorrectness

/-- Neighbours of members on the layer are members. -/
def ClosedOn (nodes : Nodes) (layer : ℕ) (P : ℕ → Prop) : Prop :=
  ∀ i node, P i → nodes[i]? = some node → ∀ n ∈ node.layerOrEmpty layer, P n

variable {K : Kernel} {metric : Metric} {nodes : Nodes} {layer : ℕ}
variable {query : List F32} {P : ℕ → Prop}

theorem nodeAt_ensures (i : ℕ) :
    Ensures (nodeAt nodes i) (fun node => nodes[i]? = some node) := by
  intro node hnode
  rw [nodeAt] at hnode
  split at hnode
  · next heq => rw [heq, Except.ok.inj hnode]
  · simp at hnode

theorem layerAt_ensures (node : Node) (layer : ℕ) :
    Ensures (node.layerAt layer)
      (fun adj => node.neighbors[layer]? = some adj) := by
  intro adj hadj
  rw [Node.layerAt] at hadj
  split at hadj
  · next heq => rw [heq, Except.ok.inj hadj]
  · simp at hadj

/-! ## Greedy descent -/

theorem greedyPass_ensures {nbrs : List ℕ} {current : ℕ} {currentDist : F32}
    (hnbrs : ∀ n ∈ nbrs, P n) (hcurrent : P current) :
    Ensures (greedyPass K metric nodes query nbrs current currentDist)
      (fun r => P r.1) := by
  refine (Ensures.foldlM
    (fun rest (r : ℕ × F32 × Bool) => (∀ n ∈ rest, P n) ∧ P r.1)
    ⟨hnbrs, hcurrent⟩ ?_).mono fun r hr => hr.2
  rintro ⟨best, bestDist, improved⟩ nbr rest ⟨hrest, hbest⟩
  have hnext : ∀ n ∈ rest, P n :=
    fun n hn => hrest n (List.mem_cons_of_mem _ hn)
  refine (Ensures.intro _).bind fun d _ => ?_
  split_ifs
  · exact Ensures.pure ⟨hnext, hrest nbr List.mem_cons_self⟩
  · exact Ensures.pure ⟨hnext, hbest⟩

theorem greedyLoop_ensures (hclosed : ClosedOn nodes layer P)
    {fuel current : ℕ} {currentDist : F32} (hcurrent : P current) :
    Ensures (greedyLoop K metric nodes query layer fuel current currentDist)
      P := by
  induction fuel generalizing current currentDist with
  | zero => exact Ensures.pure hcurrent
  | succ fuel ih =>
      rw [greedyLoop]
      refine (nodeAt_ensures current).bind fun node hnode => ?_
      refine (greedyPass_ensures (hclosed current node hcurrent hnode)
        hcurrent).bind ?_
      rintro ⟨best, bestDist, improved⟩ hbest
      dsimp only
      split_ifs
      · exact ih hbest
      · exact Ensures.pure hbest

theorem greedySearchLayer_ensures (hclosed : ClosedOn nodes layer P)
    {entry : ℕ} (hentry : P entry) :
    Ensures (greedySearchLayer K metric nodes query entry layer) P :=
  (Ensures.intro _).bind fun _ _ => greedyLoop_ensures hclosed hentry

theorem descend_ensures (hclosed : ∀ layer, ClosedOn nodes layer P)
    {floor top curr : ℕ} (hcurr : P curr) :
    Ensures (descend K metric nodes query floor top curr) P := by
  induction top generalizing curr with
  | zero => exact Ensures.pure hcurr
  | succ top ih =>
      rw [descend]
      split_ifs
      · exact (greedySearchLayer_ensures (hclosed _) hcurr).bind
          fun r hr => ih hr
      · exact Ensures.pure hcurr

/-! ## The search of a layer -/

/-- The heaps hold visited members, and no result twice. -/
structure SearchState.Inside (P : ℕ → Prop) (st : SearchState) : Prop where
  visited : ∀ n ∈ st.visited, P n
  candidates : ∀ c ∈ st.candidates, c.node ∈ st.visited
  results : ∀ c ∈ st.results, c.node ∈ st.visited
  nodup : (st.results.map Candidate.node).Nodup

theorem dropFarthest_subperm (ef : ℕ) (results : List Candidate) :
    (dropFarthest K ef results).Subperm results := by
  rw [dropFarthest]
  split_ifs
  · split
    · next x rest hpop =>
        exact (List.sublist_cons_self x rest).subperm.trans
          (BinaryHeap.pop_perm hpop).subperm
    · exact List.Subperm.refl results
  · exact List.Subperm.refl results

theorem nodup_map_of_subperm {α β : Type} {f : α → β} {l l' : List α}
    (h : l.Subperm l') (hl' : (l'.map f).Nodup) : (l.map f).Nodup := by
  obtain ⟨mid, hperm, hsub⟩ := h
  exact (hperm.map f).nodup_iff.mp (hl'.sublist (hsub.map f))

theorem visitNeighbor_ensures {ef nbr : ℕ} {st : SearchState} (hnbr : P nbr)
    (hst : st.Inside P) :
    Ensures (visitNeighbor K metric nodes query ef st nbr)
      (SearchState.Inside P) := by
  rw [visitNeighbor]
  split_ifs with hseen
  · exact Ensures.pure hst
  · refine (Ensures.intro _).bind fun d _ => ?_
    have hvisited : ∀ n ∈ insert nbr st.visited, P n := by
      intro n hn
      rcases Finset.mem_insert.mp hn with rfl | hn
      · exact hnbr
      · exact hst.visited n hn
    have hpush : ∀ (le : Candidate → Candidate → Bool) (heap : List Candidate),
        (∀ c ∈ heap, c.node ∈ st.visited) →
        ∀ c ∈ BinaryHeap.push le heap ⟨d, nbr⟩,
          c.node ∈ insert nbr st.visited := by
      intro le heap hheap c hc
      rcases BinaryHeap.mem_push.mp hc with rfl | hc
      · exact Finset.mem_insert_self _ _
      · exact Finset.mem_insert_of_mem (hheap c hc)
    have hnodup : ((BinaryHeap.push (Candidate.maxLe K) st.results
        ⟨d, nbr⟩).map Candidate.node).Nodup := by
      rw [((BinaryHeap.push_perm st.results _).map _).nodup_iff,
        List.map_cons, List.nodup_cons]
      refine ⟨fun hmem => ?_, hst.nodup⟩
      obtain ⟨c, hc, rfl⟩ := List.mem_map.mp hmem
      exact hseen (hst.results c hc)
    dsimp only
    split_ifs
    · have hdrop := dropFarthest_subperm (K := K) ef
        (BinaryHeap.push (Candidate.maxLe K) st.results ⟨d, nbr⟩)
      refine Ensures.pure ⟨hvisited, hpush _ _ hst.candidates, ?_, ?_⟩
      · exact fun c hc => hpush _ _ hst.results c (hdrop.subset hc)
      · exact nodup_map_of_subperm hdrop hnodup
    · refine Ensures.pure ⟨hvisited, ?_, ?_, hst.nodup⟩
      · exact fun c hc => Finset.mem_insert_of_mem (hst.candidates c hc)
      · exact fun c hc => Finset.mem_insert_of_mem (hst.results c hc)

theorem searchLoop_ensures (hclosed : ClosedOn nodes layer P) {ef fuel : ℕ}
    {st : SearchState} (hst : st.Inside P) :
    Ensures (searchLoop K metric nodes query ef layer fuel st)
      (SearchState.Inside P) := by
  induction fuel generalizing st with
  | zero => exact Ensures.pure hst
  | succ fuel ih =>
      rw [searchLoop]
      cases hpop : BinaryHeap.pop (Candidate.minLe K) st.candidates with
      | none => exact Ensures.pure hst
      | some r =>
          obtain ⟨c, candidates⟩ := r
          have hmem : ∀ x ∈ c :: candidates, x.node ∈ st.visited :=
            fun x hx => hst.candidates x
              ((BinaryHeap.pop_perm hpop).mem_iff.mp hx)
          have hrest : SearchState.Inside P { st with candidates } :=
            ⟨hst.visited, fun x hx => hmem x (List.mem_cons_of_mem c hx),
              hst.results, hst.nodup⟩
          dsimp only
          split_ifs
          · exact Ensures.pure hrest
          · refine (nodeAt_ensures c.node).bind fun node hnode => ?_
            have hadj := hclosed c.node node
              (hst.visited _ (hmem c List.mem_cons_self)) hnode
            refine Ensures.bind (Ensures.foldlM
              (fun rest st => (∀ n ∈ rest, P n) ∧ SearchState.Inside P st)
              ⟨hadj, hrest⟩ ?_) fun st hst => ih hst.2
            rintro st nbr rest ⟨hnbrs, hst⟩
            exact (visitNeighbor_ensures (hnbrs nbr List.mem_cons_self)
              hst).mono fun st hst =>
                ⟨fun n hn => hnbrs n (List.mem_cons_of_mem _ hn), hst⟩

theorem searchLayer_ensures (hclosed : ClosedOn nodes layer P)
    {entry ef : ℕ} (hentry : P entry) :
    Ensures (searchLayer K metric nodes query entry ef layer)
      (fun found => (∀ c ∈ found, P c.node) ∧
        (found.map Candidate.node).Nodup) := by
  refine (Ensures.intro _).bind fun d _ => ?_
  refine (searchLoop_ensures hclosed ⟨?_, ?_, ?_, ?_⟩).bind fun st hst =>
    Ensures.pure ⟨fun c hc => hst.visited _ (hst.results c hc), hst.nodup⟩
  · simpa using hentry
  · intro c hc
    rcases BinaryHeap.mem_push.mp hc with rfl | hc
    · simp
    · simp at hc
  · intro c hc
    rcases BinaryHeap.mem_push.mp hc with rfl | hc
    · simp
    · simp at hc
  · rw [((BinaryHeap.push_perm [] _).map _).nodup_iff]
    simp

/-! ## The selection -/

theorem selectLoop_ensures {m : ℕ} {cands : List Candidate}
    {selected : List ℕ} :
    Ensures (selectLoop K metric nodes m cands selected)
      (fun out => (∃ kept : List ℕ,
        kept.Sublist (cands.map Candidate.node) ∧ out = selected ++ kept) ∧
          out.length ≤ max m selected.length) := by
  induction cands generalizing selected with
  | nil =>
      refine Ensures.pure ⟨⟨[], List.Sublist.refl _, ?_⟩, le_max_right _ _⟩
      exact (List.append_nil _).symm
  | cons c cands ih =>
      rw [selectLoop]
      split_ifs with hfull
      · refine Ensures.pure ⟨⟨[], List.nil_sublist _, ?_⟩, le_max_right _ _⟩
        exact (List.append_nil _).symm
      · refine (Ensures.intro _).bind fun keep _ => ?_
        split_ifs
        · refine ih.mono fun out hout => ?_
          obtain ⟨⟨kept, hsub, rfl⟩, hlength⟩ := hout
          refine ⟨⟨c.node :: kept, hsub.cons_cons _, by simp⟩, ?_⟩
          rw [@List.length_append _ selected, List.length_singleton] at hlength
          omega
        · refine ih.mono fun out hout => ?_
          obtain ⟨⟨kept, hsub, rfl⟩, hlength⟩ := hout
          exact ⟨⟨kept, hsub.cons _, rfl⟩, hlength⟩

/-- The selected nodes are among the candidates, at most `m` of them. -/
theorem selectNeighborsHeuristic_ensures {cands : List Candidate} {m : ℕ} :
    Ensures (selectNeighborsHeuristic K metric nodes cands m)
      (fun out => out.Subperm (cands.map Candidate.node) ∧
        out.length ≤ m) := by
  refine (Ensures.intro _).bind fun _ _ => ?_
  refine selectLoop_ensures.mono fun out hout => ?_
  obtain ⟨⟨kept, hsub, rfl⟩, hlength⟩ := hout
  constructor
  · exact hsub.subperm.trans
      ((Candidate.sortByDist_perm K cands).map _).subperm
  · simpa using hlength

end Quorvec
