import Quorvec.Hnsw.ScoreOrder
import Quorvec.Hnsw.Structure

/-!
# Exhaustive searches

A search whose breadth is at least the number of nodes drops nothing and stops
early only when it has found every node, so it finds exactly the nodes that can
be reached from its entry along the lists of its layer.

The loops of the model have fuel.  More fuel never changes the result: a layer
search expands each node at most once, and every improving pass of a greedy
descent lowers the distance.
-/

namespace Quorvec

open TotalCorrectness PartialCorrectness

/-- `n` is listed by `i` on the layer. -/
def Lists (nodes : Nodes) (layer i n : ℕ) : Prop :=
  ∃ node, nodes[i]? = some node ∧ n ∈ node.layerOrEmpty layer

def ReachableOn (nodes : Nodes) (layer : ℕ) : ℕ → ℕ → Prop :=
  Relation.ReflTransGen (Lists nodes layer)

/-- Every neighbour listed on some layer is a node. -/
def NeighborsExist (nodes : Nodes) : Prop :=
  ∀ node ∈ nodes, ∀ adj ∈ node.neighbors, ∀ n ∈ adj, n < nodes.length

section Layer

variable {K : Kernel} {metric : Metric} {nodes : Nodes} {layer : ℕ}
variable {query : List F32} {entry : ℕ}

theorem Linked.hasLayer_of_reachable (h : Linked nodes)
    (hentry : HasLayer nodes entry layer) {n : ℕ}
    (hn : ReachableOn nodes layer entry n) : HasLayer nodes n layer := by
  induction hn with
  | refl => exact hentry
  | tail _ hlists _ =>
      obtain ⟨node, hnode, hmem⟩ := hlists
      exact h.layerOrEmpty (List.mem_of_getElem? hnode) layer _ hmem

theorem HasLayer.lt_length {i : ℕ} (h : HasLayer nodes i layer) :
    i < nodes.length := by
  obtain ⟨node, hnode, -⟩ := h
  exact (List.getElem?_eq_some_iff.mp hnode).1

theorem Linked.neighborsExist (h : Linked nodes) : NeighborsExist nodes := by
  intro node hnode adj hadj n hn
  obtain ⟨layer, hlayer⟩ := List.mem_iff_getElem?.mp hadj
  exact (h node hnode layer adj hlayer n hn).lt_length

theorem NeighborsExist.lt_of_lists (h : NeighborsExist nodes) {i n : ℕ}
    (hn : Lists nodes layer i n) : n < nodes.length := by
  obtain ⟨node, hnode, hmem⟩ := hn
  obtain ⟨adj, hadj, hmem⟩ := Node.exists_of_mem_layerOrEmpty hmem
  exact h node (List.mem_of_getElem? hnode) adj (List.mem_of_getElem? hadj) n
    hmem

theorem NeighborsExist.lt_of_reachable (h : NeighborsExist nodes)
    (hentry : entry < nodes.length) {n : ℕ}
    (hn : ReachableOn nodes layer entry n) : n < nodes.length := by
  induction hn with
  | refl => exact hentry
  | tail _ hlists _ => exact h.lt_of_lists hlists

/-- Everything visited is a result, and every neighbour of a visited node that
is no candidate any more has been visited or is among `rest`. -/
structure Sweeps (K : Kernel) (metric : Metric) (nodes : Nodes)
    (query : List F32) (layer entry : ℕ) (rest : List ℕ) (st : SearchState) :
    Prop where
  started : entry ∈ st.visited
  reachable : ∀ n ∈ st.visited, ReachableOn nodes layer entry n
  results : ∀ n, n ∈ st.results.map Candidate.node ↔ n ∈ st.visited
  nodup : (st.results.map Candidate.node).Nodup
  dist_eq : ∀ c ∈ st.results, dist K metric nodes c.node query = .ok c.dist
  candidates : ∀ c ∈ st.candidates, c.node ∈ st.visited
  expanded : ∀ i ∈ st.visited, i ∈ st.candidates.map Candidate.node ∨
    ∀ n, Lists nodes layer i n → n ∈ st.visited ∨ n ∈ rest

namespace Sweeps

variable {rest : List ℕ} {st : SearchState}

theorem length_results (h : Sweeps K metric nodes query layer entry rest st) :
    st.results.length = st.visited.card := by
  have hset : (st.results.map Candidate.node).toFinset = st.visited := by
    ext n
    rw [List.mem_toFinset, h.results]
  rw [← hset, List.toFinset_card_of_nodup h.nodup, List.length_map]

theorem visited_subset (h : Sweeps K metric nodes query layer entry rest st)
    (hlt : ∀ n, ReachableOn nodes layer entry n → n < nodes.length) :
    st.visited ⊆ Finset.range nodes.length :=
  fun n hn => Finset.mem_range.mpr (hlt n (h.reachable n hn))

/-- Nothing reachable is missing once the candidates are used up, or once as
many nodes have been visited as there are. -/
theorem complete (h : Sweeps K metric nodes query layer entry [] st)
    (hlt : ∀ n, ReachableOn nodes layer entry n → n < nodes.length)
    (hend : st.candidates = [] ∨ nodes.length ≤ st.visited.card) {n : ℕ}
    (hn : ReachableOn nodes layer entry n) : n ∈ st.visited := by
  rcases hend with hempty | hall
  · induction hn with
    | refl => exact h.started
    | tail _ hlists ih =>
        rcases h.expanded _ ih with hcand | hnbrs
        · simp [hempty] at hcand
        · simpa using hnbrs _ hlists
  · have hrange : st.visited = Finset.range nodes.length :=
      Finset.eq_of_subset_of_card_le (h.visited_subset hlt)
        (by rwa [Finset.card_range])
    rw [hrange, Finset.mem_range]
    exact hlt n hn

theorem card_visited_le
    (h : Sweeps K metric nodes query layer entry rest st)
    (hlt : ∀ n, ReachableOn nodes layer entry n → n < nodes.length) :
    st.visited.card ≤ nodes.length := by
  rw [← Finset.card_range nodes.length]
  exact Finset.card_le_card (h.visited_subset hlt)

/-- A neighbour that was seen before. -/
theorem skip {nbr : ℕ}
    (h : Sweeps K metric nodes query layer entry (nbr :: rest) st)
    (hseen : nbr ∈ st.visited) :
    Sweeps K metric nodes query layer entry rest st := by
  refine ⟨h.started, h.reachable, h.results, h.nodup, h.dist_eq,
    h.candidates, fun i hi => ?_⟩
  refine (h.expanded i hi).imp_right fun hnbrs n hn => ?_
  rcases hnbrs n hn with hold | hrest
  · exact Or.inl hold
  · rcases List.mem_cons.mp hrest with rfl | hrest
    · exact Or.inl hseen
    · exact Or.inr hrest

/-- A neighbour that is seen for the first time. -/
theorem enter {nbr : ℕ}
    (h : Sweeps K metric nodes query layer entry (nbr :: rest) st)
    (hnew : nbr ∉ st.visited) (hnbr : ReachableOn nodes layer entry nbr)
    {d : F32} (hd : dist K metric nodes nbr query = .ok d) :
    Sweeps K metric nodes query layer entry rest
      { visited := insert nbr st.visited
        candidates :=
          BinaryHeap.push (Candidate.minLe K) st.candidates ⟨d, nbr⟩
        results :=
          BinaryHeap.push (Candidate.maxLe K) st.results ⟨d, nbr⟩ } := by
  have hperm := @BinaryHeap.push_perm _ (Candidate.maxLe K) st.results
    ⟨d, nbr⟩
  refine ⟨?_, ?_, ?_, ?_, ?_, ?_, ?_⟩
  · exact Finset.mem_insert_of_mem h.started
  · intro n hn
    rcases Finset.mem_insert.mp hn with rfl | hn
    · exact hnbr
    · exact h.reachable n hn
  · intro n
    rw [(hperm.map _).mem_iff, List.map_cons, List.mem_cons, h.results,
      Finset.mem_insert]
  · rw [(hperm.map _).nodup_iff, List.map_cons, List.nodup_cons, h.results]
    exact ⟨hnew, h.nodup⟩
  · intro c hc
    rcases BinaryHeap.mem_push.mp hc with rfl | hc
    · exact hd
    · exact h.dist_eq c hc
  · intro c hc
    rcases BinaryHeap.mem_push.mp hc with rfl | hc
    · exact Finset.mem_insert_self _ _
    · exact Finset.mem_insert_of_mem (h.candidates c hc)
  · intro i hi
    rw [((BinaryHeap.push_perm st.candidates _).map _).mem_iff,
      List.map_cons, List.mem_cons]
    rcases Finset.mem_insert.mp hi with rfl | hi
    · exact Or.inl (Or.inl rfl)
    · refine (h.expanded i hi).imp Or.inr fun hnbrs n hn => ?_
      rcases hnbrs n hn with hold | hrest
      · exact Or.inl (Finset.mem_insert_of_mem hold)
      · rcases List.mem_cons.mp hrest with rfl | hrest
        · exact Or.inl (Finset.mem_insert_self _ _)
        · exact Or.inr hrest

/-- Visiting one neighbour. -/
theorem visit {ef nbr : ℕ}
    (h : Sweeps K metric nodes query layer entry (nbr :: rest) st)
    (hlt : ∀ n, ReachableOn nodes layer entry n → n < nodes.length)
    (hef : nodes.length ≤ ef) (hnbr : ReachableOn nodes layer entry nbr)
    {fuel : ℕ}
    (hfuel : st.candidates.length + nodes.length ≤ fuel + st.visited.card) :
    Ensures (visitNeighbor K metric nodes query ef st nbr) (fun st' =>
      Sweeps K metric nodes query layer entry rest st' ∧
        st'.candidates.length + nodes.length ≤
          fuel + st'.visited.card) := by
  rw [visitNeighbor]
  split_ifs with hseen
  · exact Ensures.pure ⟨h.skip hseen, hfuel⟩
  · refine (Ensures.intro _).bind fun d hd => ?_
    have hentered := h.enter hseen hnbr hd
    have hcard : (insert nbr st.visited).card = st.visited.card + 1 :=
      Finset.card_insert_of_notMem hseen
    -- there is room for another result
    have hroom : (insert nbr st.visited).card ≤ nodes.length :=
      hentered.card_visited_le hlt
    have hlength := h.length_results
    have hdrop : dropFarthest K ef
        (BinaryHeap.push (Candidate.maxLe K) st.results ⟨d, nbr⟩) =
        BinaryHeap.push (Candidate.maxLe K) st.results ⟨d, nbr⟩ := by
      rw [dropFarthest, if_neg]
      rw [BinaryHeap.length_push]
      omega
    dsimp only
    rw [if_pos (Or.inr (by omega)), hdrop]
    refine Ensures.pure ⟨hentered, ?_⟩
    rw [BinaryHeap.length_push, hcard]
    omega

/-- The nearest candidate is taken; its neighbours are still to be visited. -/
theorem popped (h : Sweeps K metric nodes query layer entry [] st)
    {c : Candidate} {candidates : List Candidate}
    (hpop : BinaryHeap.pop (Candidate.minLe K) st.candidates =
      some (c, candidates)) {node : Node}
    (hnode : nodes[c.node]? = some node) :
    Sweeps K metric nodes query layer entry (node.layerOrEmpty layer)
      { st with candidates } := by
  have hperm := BinaryHeap.pop_perm hpop
  refine ⟨h.started, h.reachable, h.results, h.nodup, h.dist_eq,
    fun x hx => h.candidates x
      (hperm.mem_iff.mp (List.mem_cons_of_mem c hx)), ?_⟩
  intro i hi
  by_cases hic : i = c.node
  · right
    rintro n ⟨node', hnode', hn⟩
    rw [hic, hnode, Option.some.injEq] at hnode'
    exact Or.inr (hnode' ▸ hn)
  · rcases h.expanded i hi with hcand | hnbrs
    · rw [← (hperm.map _).mem_iff, List.map_cons, List.mem_cons] at hcand
      exact Or.inl (hcand.resolve_left hic)
    · right
      intro n hn
      exact Or.inl (by simpa using hnbrs n hn)

end Sweeps

/-- What an exhaustive search finds. -/
structure FindsAll (K : Kernel) (metric : Metric) (nodes : Nodes)
    (query : List F32) (layer entry : ℕ) (found : List Candidate) : Prop where
  nodup : (found.map Candidate.node).Nodup
  mem_iff : ∀ n, n ∈ found.map Candidate.node ↔
    ReachableOn nodes layer entry n
  dist_eq : ∀ c ∈ found, dist K metric nodes c.node query = .ok c.dist

theorem Sweeps.findsAll {st : SearchState}
    (h : Sweeps K metric nodes query layer entry [] st)
    (hlt : ∀ n, ReachableOn nodes layer entry n → n < nodes.length)
    (hend : st.candidates = [] ∨ nodes.length ≤ st.visited.card) :
    FindsAll K metric nodes query layer entry st.results := by
  refine ⟨h.nodup, fun n => (h.results n).trans ⟨?_, ?_⟩, h.dist_eq⟩
  · exact h.reachable n
  · exact h.complete hlt hend

theorem searchLoop_findsAll {ef fuel : ℕ} {st : SearchState}
    (hlt : ∀ n, ReachableOn nodes layer entry n → n < nodes.length)
    (hef : nodes.length ≤ ef)
    (hst : Sweeps K metric nodes query layer entry [] st)
    (hfuel : st.candidates.length + nodes.length ≤ fuel + st.visited.card) :
    Ensures (searchLoop K metric nodes query ef layer fuel st)
      (fun st' => FindsAll K metric nodes query layer entry st'.results) := by
  induction fuel generalizing st with
  | zero =>
      have hcard := hst.card_visited_le hlt
      refine Ensures.pure (hst.findsAll hlt (Or.inl ?_))
      rw [← List.length_eq_zero_iff]
      omega
  | succ fuel ih =>
      rw [searchLoop]
      cases hpop : BinaryHeap.pop (Candidate.minLe K) st.candidates with
      | none =>
          exact Ensures.pure (hst.findsAll hlt
            (Or.inl (BinaryHeap.pop_eq_none_iff.mp hpop)))
      | some r =>
          obtain ⟨c, candidates⟩ := r
          have hlength := BinaryHeap.length_of_pop hpop
          dsimp only
          split_ifs with hfar
          · -- every node has been found
            refine Ensures.pure (hst.findsAll hlt (Or.inr ?_))
            rw [isFarther] at hfar
            split at hfar
            · rw [Bool.and_eq_true, decide_eq_true_eq] at hfar
              rw [← hst.length_results]
              omega
            · simp at hfar
          · refine (nodeAt_ensures c.node).bind fun node hnode => ?_
            have hc : c.node ∈ st.visited := hst.candidates c
              ((BinaryHeap.pop_perm hpop).mem_iff.mp List.mem_cons_self)
            refine Ensures.bind (Ensures.foldlM (fun rest st' =>
              (∀ n ∈ rest, ReachableOn nodes layer entry n) ∧
                Sweeps K metric nodes query layer entry rest st' ∧
                st'.candidates.length + nodes.length ≤
                  fuel + st'.visited.card)
              ⟨?_, hst.popped hpop hnode, ?_⟩ ?_) fun st' hst' => ?_
            · intro n hn
              exact (hst.reachable _ hc).tail ⟨node, hnode, hn⟩
            · dsimp only
              omega
            · rintro st' nbr rest ⟨hrest, hsweeps, hfuel'⟩
              exact (hsweeps.visit hlt hef (hrest nbr List.mem_cons_self)
                hfuel').mono fun st'' h => ⟨fun n hn =>
                  hrest n (List.mem_cons_of_mem _ hn), h⟩
            · exact ih hst'.2.1 hst'.2.2

/-- An exhaustive search finds exactly the reachable nodes. -/
theorem searchLayer_findsAll {ef : ℕ} (hlinked : Linked nodes)
    (hentry : HasLayer nodes entry layer) (hef : nodes.length ≤ ef) :
    Returns (searchLayer K metric nodes query entry ef layer)
      (FindsAll K metric nodes query layer entry) := by
  obtain ⟨found, hfound, -⟩ := searchLayer_returns hlinked hentry
  refine ⟨found, hfound, ?_⟩
  have hlt : ∀ n, ReachableOn nodes layer entry n → n < nodes.length :=
    fun n hn => (hlinked.hasLayer_of_reachable hentry hn).lt_length
  have hensures : Ensures (searchLayer K metric nodes query entry ef layer)
      (FindsAll K metric nodes query layer entry) := by
    refine (Ensures.intro _).bind fun d hd => ?_
    refine (searchLoop_findsAll hlt hef ⟨?_, ?_, ?_, ?_, ?_, ?_, ?_⟩
      ?_).bind fun st hst => Ensures.pure hst
    · exact Finset.mem_singleton_self entry
    · intro n hn
      rw [Finset.mem_singleton.mp hn]
      exact Relation.ReflTransGen.refl
    · intro n
      rw [((BinaryHeap.push_perm [] _).map _).mem_iff]
      simp
    · rw [((BinaryHeap.push_perm [] _).map _).nodup_iff]
      simp
    · intro c hc
      rcases BinaryHeap.mem_push.mp hc with rfl | hc
      · exact hd
      · simp at hc
    · intro c hc
      rcases BinaryHeap.mem_push.mp hc with rfl | hc
      · exact Finset.mem_singleton_self entry
      · simp at hc
    · intro i hi
      left
      rw [((BinaryHeap.push_perm [] _).map _).mem_iff]
      simpa using hi
    · simp
      omega
  exact hensures found hfound

end Layer

/-! ## Fuel -/

section Fuel

variable {K : Kernel} {metric : Metric} {nodes : Nodes} {layer : ℕ}
variable {query : List F32}

theorem dist_ensures (a : ℕ) :
    Ensures (dist K metric nodes a query) (fun _ => a < nodes.length) :=
  (nodeAt_ensures a).bind fun _ hnode =>
    Ensures.pure (List.getElem?_eq_some_iff.mp hnode).1

/-- The candidates and the unvisited nodes are no more than the fuel. -/
structure Fuelled (nodes : Nodes) (fuel : ℕ) (st : SearchState) : Prop where
  visited : st.visited ⊆ Finset.range nodes.length
  enough : st.candidates.length + nodes.length ≤ fuel + st.visited.card

theorem visitNeighbor_fuelled {ef nbr fuel : ℕ} {st : SearchState}
    (hst : Fuelled nodes fuel st) :
    Ensures (visitNeighbor K metric nodes query ef st nbr)
      (Fuelled nodes fuel) := by
  have henough := hst.enough
  rw [visitNeighbor]
  split_ifs with hseen
  · exact Ensures.pure hst
  · refine (dist_ensures nbr).bind fun d hd => ?_
    have hvisited : insert nbr st.visited ⊆ Finset.range nodes.length := by
      rw [Finset.insert_subset_iff, Finset.mem_range]
      exact ⟨hd, hst.visited⟩
    have hcard : (insert nbr st.visited).card = st.visited.card + 1 :=
      Finset.card_insert_of_notMem hseen
    dsimp only
    split_ifs
    · refine Ensures.pure ⟨hvisited, ?_⟩
      rw [BinaryHeap.length_push, hcard]
      omega
    · refine Ensures.pure ⟨hvisited, ?_⟩
      dsimp only
      omega

/-- The fuel of a layer search is enough. -/
theorem searchLoop_add_fuel {ef fuel : ℕ} {st : SearchState}
    (hst : Fuelled nodes fuel st) (more : ℕ) :
    searchLoop K metric nodes query ef layer (fuel + more) st =
      searchLoop K metric nodes query ef layer fuel st := by
  induction fuel generalizing st with
  | zero =>
      have hcard := Finset.card_le_card hst.visited
      rw [Finset.card_range] at hcard
      have hempty : st.candidates = [] := by
        rw [← List.length_eq_zero_iff]
        have henough := hst.enough
        omega
      cases more with
      | zero => rfl
      | succ more =>
          rw [Nat.zero_add, searchLoop, searchLoop,
            BinaryHeap.pop_eq_none_iff.mpr hempty]
  | succ fuel ih =>
      rw [Nat.succ_add, searchLoop, searchLoop]
      cases hpop : BinaryHeap.pop (Candidate.minLe K) st.candidates with
      | none => rfl
      | some r =>
          obtain ⟨c, candidates⟩ := r
          have hlength := BinaryHeap.length_of_pop hpop
          have henough := hst.enough
          dsimp only
          split_ifs
          · rfl
          · refine (nodeAt_ensures c.node).bind_congr fun node _ => ?_
            refine Ensures.bind_congr (Ensures.foldlM
              (fun _ st => Fuelled nodes fuel st) ⟨hst.visited, ?_⟩
              fun st nbr rest hst => visitNeighbor_fuelled hst)
              fun st hst => ih hst
            dsimp only
            omega

theorem searchLayer_add_fuel {entry ef : ℕ} (more : ℕ) :
    searchLayer K metric nodes query entry ef layer = (do
      let entryDist ← dist K metric nodes entry query
      let st ← searchLoop K metric nodes query ef layer
        (nodes.length + 1 + more)
        { visited := {entry}
          candidates :=
            BinaryHeap.push (Candidate.minLe K) [] ⟨entryDist, entry⟩
          results := BinaryHeap.push (Candidate.maxLe K) [] ⟨entryDist, entry⟩ }
      return st.results) := by
  refine (dist_ensures entry).bind_congr fun d hd => ?_
  have hstart : Fuelled nodes (nodes.length + 1)
      { visited := {entry}
        candidates := BinaryHeap.push (Candidate.minLe K) [] ⟨d, entry⟩
        results := BinaryHeap.push (Candidate.maxLe K) [] ⟨d, entry⟩ } := by
    constructor
    · rwa [Finset.singleton_subset_iff, Finset.mem_range]
    · simp
      omega
  rw [searchLoop_add_fuel hstart more]

/-- The nodes closer to the query than `d`. -/
def closer (K : Kernel) (metric : Metric) (nodes : Nodes) (query : List F32)
    (d : F32) : Set ℕ :=
  {i | ∃ e, dist K metric nodes i query = .ok e ∧ K.lt e d}

theorem closer_subset (d : F32) :
    closer K metric nodes query d ⊆ Finset.range nodes.length := by
  rintro i ⟨e, he, -⟩
  rw [Finset.coe_range]
  exact dist_ensures i e he

theorem ncard_closer_le (d : F32) :
    (closer K metric nodes query d).ncard ≤ nodes.length := by
  refine (Set.ncard_le_ncard (closer_subset d)
    (Finset.finite_toSet _)).trans ?_
  rw [Set.ncard_coe_finset, Finset.card_range]

/-- The distances of the nodes to the query. -/
def nodeScores (K : Kernel) (metric : Metric) (nodes : Nodes)
    (query : List F32) : Set F32 :=
  {d | ∃ i, dist K metric nodes i query = .ok d}

variable (horder : K.StrictOn (nodeScores K metric nodes query))

include horder in
/-- A pass that improves ends on a closer node. -/
theorem greedyPass_improves (nbrs : List ℕ) (current : ℕ) {d : F32}
    (hd : d ∈ nodeScores K metric nodes query) :
    Ensures (greedyPass K metric nodes query nbrs current d)
      (fun r => r.2.2 = true →
        dist K metric nodes r.1 query = .ok r.2.1 ∧ K.lt r.2.1 d) := by
  refine (Ensures.foldlM (fun _ (r : ℕ × F32 × Bool) =>
    (r.2.2 = true → dist K metric nodes r.1 query = .ok r.2.1 ∧
      K.lt r.2.1 d) ∧ (r.2.2 = false → r.2.1 = d))
    ⟨by simp, fun _ => rfl⟩ ?_).mono fun r hr => hr.1
  rintro ⟨best, bestDist, improved⟩ nbr rest ⟨himproved, hsame⟩
  refine (Ensures.intro _).bind fun e he => ?_
  split_ifs with hlt
  · refine Ensures.pure ⟨fun _ => ⟨he, ?_⟩, by simp⟩
    cases improved with
    | true =>
        obtain ⟨hbest, hcloser⟩ := himproved rfl
        exact horder.trans ⟨e, nbr, he⟩ ⟨bestDist, best, hbest⟩ ⟨d, hd⟩ hlt
          hcloser
    | false => exact hsame rfl ▸ hlt
  · exact Ensures.pure ⟨himproved, hsame⟩

include horder in
theorem ncard_closer_lt {i : ℕ} {d e : F32}
    (hd : d ∈ nodeScores K metric nodes query)
    (he : dist K metric nodes i query = .ok e) (hlt : K.lt e d) :
    (closer K metric nodes query e).ncard <
      (closer K metric nodes query d).ncard := by
  apply Set.ncard_lt_ncard
  · rw [Set.ssubset_iff_of_subset]
    · refine ⟨i, ⟨e, he, hlt⟩, ?_⟩
      rintro ⟨e', he', hlt'⟩
      rw [he, Except.ok.injEq] at he'
      rw [← he'] at hlt'
      exact horder.irrefl ⟨e, i, he⟩ hlt'
    · rintro j ⟨e', he', hlt'⟩
      exact ⟨e', he', horder.trans ⟨e', j, he'⟩ ⟨e, i, he⟩ ⟨d, hd⟩ hlt' hlt⟩
  · exact (Finset.finite_toSet _).subset (closer_subset d)

include horder in
/-- The fuel of a greedy descent is enough. -/
theorem greedyLoop_add_fuel {fuel current : ℕ} {d : F32}
    (hd : d ∈ nodeScores K metric nodes query)
    (hfuel : (closer K metric nodes query d).ncard < fuel) (more : ℕ) :
    greedyLoop K metric nodes query layer (fuel + more) current d =
      greedyLoop K metric nodes query layer fuel current d := by
  induction fuel generalizing current d with
  | zero => simp at hfuel
  | succ fuel ih =>
      rw [Nat.succ_add, greedyLoop, greedyLoop]
      refine (nodeAt_ensures current).bind_congr fun node _ => ?_
      refine (greedyPass_improves horder _ current hd).bind_congr ?_
      rintro ⟨best, bestDist, improved⟩ himproved
      dsimp only
      split_ifs with himp
      · obtain ⟨hbest, hlt⟩ := himproved himp
        have hless := ncard_closer_lt horder hd hbest hlt
        dsimp only at hless
        exact ih ⟨best, hbest⟩ (by omega)
      · rfl

include horder in
theorem greedySearchLayer_add_fuel {entry : ℕ} (more : ℕ) :
    greedySearchLayer K metric nodes query entry layer = (do
      let currentDist ← dist K metric nodes entry query
      greedyLoop K metric nodes query layer (nodes.length + 1 + more) entry
        currentDist) := by
  refine (Ensures.intro _).bind_congr fun d hd => ?_
  exact (greedyLoop_add_fuel horder ⟨entry, hd⟩
    (Nat.lt_succ_of_le (ncard_closer_le d)) more).symm

end Fuel

end Quorvec
