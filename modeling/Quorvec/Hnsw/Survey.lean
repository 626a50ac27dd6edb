import Quorvec.Hnsw.Exhaustive

/-!
# What the search of a layer has seen

The search of a layer is run next to the set of nodes that it has expanded.
Every node that it has visited waits to be expanded, has been expanded, or has
been left out of a full set of results, and the results are as many as the
nodes visited, up to `ef`.  None of this depends on the order of the distances:
a search whose `ef` results are not full when it ends has seen everything that
can be reached.
-/

namespace Quorvec

open TotalCorrectness PartialCorrectness

/-! ## The expanded nodes -/

section Traced

variable (K : Kernel) (metric : Metric) (nodes : Nodes)

/-- `searchLoop`, with the nodes that it expands. -/
def tracedLoop (query : List F32) (ef layer : ℕ) :
    ℕ → SearchState → Finset ℕ → Except IndexError (SearchState × Finset ℕ)
  | 0, st, expanded => return (st, expanded)
  | fuel + 1, st, expanded =>
      match BinaryHeap.pop (Candidate.minLe K) st.candidates with
      | none => return (st, expanded)
      | some (c, candidates) =>
          if isFarther K ef st.results c then
            return ({ st with candidates }, expanded)
          else do
            let node ← nodeAt nodes c.node
            let st ← (node.layerOrEmpty layer).foldlM
              (visitNeighbor K metric nodes query ef) { st with candidates }
            tracedLoop query ef layer fuel st (insert c.node expanded)

/-- A search starts from its entry. -/
def startState (entry : ℕ) (entryDist : F32) : SearchState where
  visited := {entry}
  candidates := BinaryHeap.push (Candidate.minLe K) [] ⟨entryDist, entry⟩
  results := BinaryHeap.push (Candidate.maxLe K) [] ⟨entryDist, entry⟩

/-- `searchLayer` with any fuel. -/
def searchLayerIn (fuel : ℕ) (query : List F32) (entry ef layer : ℕ) :
    Except IndexError (List Candidate) := do
  let entryDist ← dist K metric nodes entry query
  let st ← searchLoop K metric nodes query ef layer fuel
    (startState K entry entryDist)
  return st.results

/-- `searchLayer`, with the nodes that it expands. -/
def tracedLayer (query : List F32) (entry ef layer : ℕ) :
    Except IndexError (List Candidate × Finset ℕ) := do
  let entryDist ← dist K metric nodes entry query
  let (st, expanded) ← tracedLoop K metric nodes query ef layer
    (nodes.length + 1) (startState K entry entryDist) ∅
  return (st.results, expanded)

variable {K metric nodes} {query : List F32} {entry ef layer : ℕ}

/-- Leaving the expanded nodes out gives the search. -/
theorem searchLoop_of_traced {fuel : ℕ} {st : SearchState}
    {expanded : Finset ℕ} {r : SearchState × Finset ℕ}
    (h : tracedLoop K metric nodes query ef layer fuel st expanded = .ok r) :
    searchLoop K metric nodes query ef layer fuel st = .ok r.1 := by
  induction fuel generalizing st expanded with
  | zero =>
      rw [← Except.ok.inj h]
      rfl
  | succ fuel ih =>
      rw [tracedLoop] at h
      rw [searchLoop]
      cases hpop : BinaryHeap.pop (Candidate.minLe K) st.candidates with
      | none =>
          rw [hpop] at h
          rw [← Except.ok.inj h]
          rfl
      | some popped =>
          obtain ⟨c, candidates⟩ := popped
          rw [hpop] at h
          dsimp only at h ⊢
          split_ifs at h ⊢
          · rw [← Except.ok.inj h]
            rfl
          · cases hnode : nodeAt nodes c.node with
            | error e => simp [hnode, bind, Except.bind] at h
            | ok node =>
                rw [hnode] at h
                simp only [bind, Except.bind] at h ⊢
                split at h
                · simp at h
                · exact ih h

theorem searchLayer_of_traced {r : List Candidate × Finset ℕ}
    (h : tracedLayer K metric nodes query entry ef layer = .ok r) :
    searchLayer K metric nodes query entry ef layer = .ok r.1 := by
  rw [tracedLayer] at h
  rw [searchLayer]
  cases hdist : dist K metric nodes entry query with
  | error e => simp [hdist, bind, Except.bind] at h
  | ok d =>
      rw [hdist] at h
      simp only [bind, Except.bind] at h ⊢
      split at h
      · simp at h
      · next hloop =>
          have hsearch := searchLoop_of_traced hloop
          rw [startState] at hsearch
          rw [hsearch, ← Except.ok.inj h]
          rfl

/-- Nothing is left to expand, or the nearest candidate is farther than the
worst of `ef` results. -/
def SearchState.Ended (K : Kernel) (ef : ℕ) (st : SearchState) : Prop :=
  ∀ c candidates, BinaryHeap.pop (Candidate.minLe K) st.candidates =
    some (c, candidates) → isFarther K ef st.results c

/-- What holds throughout the search of a layer, of the neighbours still to be
visited, the state and the expanded nodes. -/
structure SearchInvariant (K : Kernel) (metric : Metric) (nodes : Nodes)
    (query : List F32) (ef layer : ℕ)
    (Inv : List ℕ → SearchState → Finset ℕ → Prop) : Prop where
  pop : ∀ st expanded c candidates, Inv [] st expanded →
    BinaryHeap.pop (Candidate.minLe K) st.candidates = some (c, candidates) →
    ∃ node, nodes[c.node]? = some node ∧
      Inv (node.layerOrEmpty layer) { st with candidates }
        (insert c.node expanded)
  visit : ∀ st expanded nbr rest, Inv (nbr :: rest) st expanded →
    Returns (visitNeighbor K metric nodes query ef st nbr)
      (fun st' => Inv rest st' expanded)

/-- The rule of the search loop. -/
theorem tracedLoop_returns {Inv : List ℕ → SearchState → Finset ℕ → Prop}
    (hinv : SearchInvariant K metric nodes query ef layer Inv) {fuel : ℕ}
    {st : SearchState} {expanded : Finset ℕ}
    (hst : Inv [] st expanded) (hfuel : Fuelled nodes fuel st) :
    Returns (tracedLoop K metric nodes query ef layer fuel st expanded)
      (fun r => ∃ st', Inv [] st' r.2 ∧ st'.Ended K ef ∧
        r.1.results = st'.results) := by
  induction fuel generalizing st expanded with
  | zero =>
      have hcard := Finset.card_le_card hfuel.visited
      rw [Finset.card_range] at hcard
      have hempty : st.candidates = [] := by
        rw [← List.length_eq_zero_iff]
        have henough := hfuel.enough
        omega
      refine Returns.pure ⟨st, hst, fun c candidates hnext => ?_, rfl⟩
      rw [BinaryHeap.pop_eq_none_iff.mpr hempty] at hnext
      simp at hnext
  | succ fuel ih =>
      rw [tracedLoop]
      cases hnext : BinaryHeap.pop (Candidate.minLe K) st.candidates with
      | none =>
          refine Returns.pure ⟨st, hst, fun c candidates hsome => ?_, rfl⟩
          rw [hnext] at hsome
          simp at hsome
      | some popped =>
          obtain ⟨c, candidates⟩ := popped
          dsimp only
          split_ifs with hfar
          · refine Returns.pure ⟨st, hst, fun c' candidates' hsome => ?_, rfl⟩
            rw [hnext, Option.some.injEq, Prod.mk.injEq] at hsome
            rwa [← hsome.1]
          · obtain ⟨node, hnode, hpopped⟩ := hinv.pop st expanded c candidates
              hst hnext
            have hnodeAt : Returns (nodeAt nodes c.node) (· = node) :=
              ⟨node, nodeAt_of_getElem? hnode, rfl⟩
            refine hnodeAt.bind ?_
            rintro _ rfl
            have hlength := BinaryHeap.length_of_pop hnext
            have henough := hfuel.enough
            refine Returns.bind (Returns.foldlM_rest (fun rest st' =>
              Inv rest st' (insert c.node expanded) ∧
                Fuelled nodes fuel st') ⟨hpopped, hfuel.visited, ?_⟩ ?_)
              fun st' hst' => ih hst'.1 hst'.2
            · dsimp only
              omega
            · rintro st' nbr rest ⟨hst', hfuel'⟩
              obtain ⟨st'', hvisited, hst''⟩ := hinv.visit st' _ nbr rest hst'
              exact ⟨st'', hvisited, hst'',
                visitNeighbor_fuelled hfuel' st'' hvisited⟩

end Traced

/-! ## Counting the results -/

section Layer

variable {K : Kernel} {metric : Metric} {nodes : Nodes} {layer : ℕ}
variable {query : List F32} {entry ef : ℕ}

/-- The candidates have been visited, with their distances. -/
def Measured (K : Kernel) (metric : Metric) (nodes : Nodes) (query : List F32)
    (visited : Finset ℕ) (heap : List Candidate) : Prop :=
  ∀ c ∈ heap, c.node ∈ visited ∧
    dist K metric nodes c.node query = .ok c.dist

/-- The neighbours in `rest` are still to be visited. -/
structure Surveys (K : Kernel) (metric : Metric) (nodes : Nodes)
    (query : List F32) (layer entry ef : ℕ) (rest : List ℕ) (st : SearchState)
    (expanded : Finset ℕ) : Prop where
  started : entry ∈ st.visited
  reachable : ∀ n, n ∈ st.visited ∨ n ∈ rest → ReachableOn nodes layer entry n
  candidates : Measured K metric nodes query st.visited st.candidates
  results : Measured K metric nodes query st.visited st.results
  nodup : (st.results.map Candidate.node).Nodup
  length_results : st.results.length = min st.visited.card ef
  pending : ∀ i ∈ st.visited, i ∈ st.candidates.map Candidate.node ∨
    i ∈ expanded ∨ i ∉ st.results.map Candidate.node ∧ st.results.length = ef
  closed : ∀ i ∈ expanded, ∀ n, Lists nodes layer i n →
    n ∈ st.visited ∨ n ∈ rest

theorem Measured.push {visited : Finset ℕ} {heap : List Candidate}
    (h : Measured K metric nodes query visited heap)
    {le : Candidate → Candidate → Bool} {nbr : ℕ} {d : F32}
    (hd : dist K metric nodes nbr query = .ok d) :
    Measured K metric nodes query (insert nbr visited)
      (BinaryHeap.push le heap ⟨d, nbr⟩) := by
  intro c hc
  rcases BinaryHeap.mem_push.mp hc with rfl | hc
  · exact ⟨Finset.mem_insert_self _ _, hd⟩
  · exact ⟨Finset.mem_insert_of_mem (h c hc).1, (h c hc).2⟩

theorem Measured.mono {visited visited' : Finset ℕ} {heap : List Candidate}
    (h : Measured K metric nodes query visited heap)
    (hsub : visited ⊆ visited') :
    Measured K metric nodes query visited' heap :=
  fun c hc => ⟨hsub (h c hc).1, (h c hc).2⟩

theorem length_dropFarthest (results : List Candidate)
    (hlength : results.length ≤ ef + 1) :
    (dropFarthest K ef results).length = min results.length ef := by
  rw [dropFarthest]
  split_ifs with hfull
  · split
    · next x rest hpop =>
        have hless := BinaryHeap.length_of_pop hpop
        omega
    · next hpop =>
        rw [BinaryHeap.pop_eq_none_iff.mp hpop] at hfull
        simp at hfull
  · omega

namespace Surveys

variable {rest : List ℕ} {st : SearchState} {expanded : Finset ℕ}

theorem skip {nbr : ℕ} (h : Surveys K metric nodes query layer entry ef
    (nbr :: rest) st expanded) (hseen : nbr ∈ st.visited) :
    Surveys K metric nodes query layer entry ef rest st expanded where
  started := h.started
  reachable n hn := h.reachable n (hn.imp_right (List.mem_cons_of_mem _))
  candidates := h.candidates
  results := h.results
  nodup := h.nodup
  length_results := h.length_results
  pending := h.pending
  closed i hi n hn := by
    rcases h.closed i hi n hn with hold | hrest
    · exact .inl hold
    · rcases List.mem_cons.mp hrest with rfl | hrest
      · exact .inl hseen
      · exact .inr hrest

theorem reachable_insert {nbr : ℕ} (h : Surveys K metric nodes query layer
    entry ef (nbr :: rest) st expanded) (n : ℕ)
    (hn : n ∈ insert nbr st.visited ∨ n ∈ rest) :
    ReachableOn nodes layer entry n := by
  rcases hn with hn | hn
  · rcases Finset.mem_insert.mp hn with rfl | hn
    · exact h.reachable n (.inr List.mem_cons_self)
    · exact h.reachable n (.inl hn)
  · exact h.reachable n (.inr (List.mem_cons_of_mem nbr hn))

theorem closed_insert {nbr : ℕ} (h : Surveys K metric nodes query layer
    entry ef (nbr :: rest) st expanded) (i : ℕ) (hi : i ∈ expanded) (n : ℕ)
    (hn : Lists nodes layer i n) : n ∈ insert nbr st.visited ∨ n ∈ rest := by
  rcases h.closed i hi n hn with hold | hrest
  · exact .inl (Finset.mem_insert_of_mem hold)
  · rcases List.mem_cons.mp hrest with rfl | hrest
    · exact .inl (Finset.mem_insert_self _ _)
    · exact .inr hrest

theorem length_results_le (h : Surveys K metric nodes query layer entry ef rest
    st expanded) : st.results.length ≤ ef := by
  rw [h.length_results]
  exact min_le_right _ _

/-- A neighbour that becomes a candidate and a result. -/
theorem enter {nbr : ℕ} (h : Surveys K metric nodes query layer entry ef
    (nbr :: rest) st expanded) (hnew : nbr ∉ st.visited) {d : F32}
    (hd : dist K metric nodes nbr query = .ok d) :
    Surveys K metric nodes query layer entry ef rest
      { visited := insert nbr st.visited
        candidates :=
          BinaryHeap.push (Candidate.minLe K) st.candidates ⟨d, nbr⟩
        results := dropFarthest K ef
          (BinaryHeap.push (Candidate.maxLe K) st.results ⟨d, nbr⟩) }
      expanded := by
  have hsub := Finset.subset_insert nbr st.visited
  have hdrop := dropFarthest_subperm (K := K) ef
    (BinaryHeap.push (Candidate.maxLe K) st.results ⟨d, nbr⟩)
  have hperm := (@BinaryHeap.push_perm _ (Candidate.maxLe K) st.results
    ⟨d, nbr⟩).map Candidate.node
  have hlength := h.length_results
  have hle := h.length_results_le
  have hcard : (insert nbr st.visited).card = st.visited.card + 1 :=
    Finset.card_insert_of_notMem hnew
  have hcount := @length_dropFarthest K ef
    (BinaryHeap.push (Candidate.maxLe K) st.results ⟨d, nbr⟩)
    (by rw [BinaryHeap.length_push]; omega)
  rw [BinaryHeap.length_push] at hcount
  refine ⟨hsub h.started, h.reachable_insert, h.candidates.push hd,
    fun c hc => h.results.push hd c (hdrop.subset hc), ?_, ?_,
    fun i hi => ?_, h.closed_insert⟩
  · apply nodup_map_of_subperm hdrop
    rw [hperm.nodup_iff, List.map_cons, List.nodup_cons]
    refine ⟨fun hmem => ?_, h.nodup⟩
    obtain ⟨c, hc, rfl⟩ := List.mem_map.mp hmem
    exact hnew (h.results c hc).1
  · rw [hcount, hcard]
    omega
  · rw [((BinaryHeap.push_perm st.candidates _).map _).mem_iff,
      List.map_cons, List.mem_cons]
    rcases Finset.mem_insert.mp hi with rfl | hi'
    · exact .inl (.inl rfl)
    · rcases h.pending i hi' with hcand | hdone | ⟨hout, hfull⟩
      · exact .inl (.inr hcand)
      · exact .inr (.inl hdone)
      · refine .inr (.inr ⟨fun hmem => ?_, by rw [hcount]; omega⟩)
        have hold := List.map_subset Candidate.node hdrop.subset hmem
        rw [hperm.mem_iff, List.map_cons, List.mem_cons] at hold
        rcases hold with rfl | hold
        · exact hnew hi'
        · exact hout hold

/-- A neighbour that is left out of a full set of results. -/
theorem leave {nbr : ℕ} (h : Surveys K metric nodes query layer entry ef
    (nbr :: rest) st expanded) (hnew : nbr ∉ st.visited)
    (hfull : st.results.length = ef) :
    Surveys K metric nodes query layer entry ef rest
      { st with visited := insert nbr st.visited } expanded := by
  have hsub := Finset.subset_insert nbr st.visited
  have hlength := h.length_results
  have hcard : (insert nbr st.visited).card = st.visited.card + 1 :=
    Finset.card_insert_of_notMem hnew
  refine ⟨hsub h.started, h.reachable_insert, h.candidates.mono hsub,
    h.results.mono hsub, h.nodup, ?_, fun i hi => ?_, h.closed_insert⟩
  · rw [hcard]
    dsimp only
    omega
  · rcases Finset.mem_insert.mp hi with rfl | hi
    · refine .inr (.inr ⟨fun hmem => ?_, hfull⟩)
      obtain ⟨c, hc, rfl⟩ := List.mem_map.mp hmem
      exact hnew (h.results c hc).1
    · exact h.pending i hi

/-- The nearest candidate is expanded. -/
theorem popped (h : Surveys K metric nodes query layer entry ef [] st expanded)
    {c : Candidate} {candidates : List Candidate}
    (hpop : BinaryHeap.pop (Candidate.minLe K) st.candidates =
      some (c, candidates)) {node : Node}
    (hnode : nodes[c.node]? = some node) :
    Surveys K metric nodes query layer entry ef (node.layerOrEmpty layer)
      { st with candidates } (insert c.node expanded) := by
  have hperm := BinaryHeap.pop_perm hpop
  have hc := h.candidates c (hperm.subset List.mem_cons_self)
  refine ⟨h.started, fun n hn => ?_,
    fun x hx => h.candidates x (hperm.subset (List.mem_cons_of_mem c hx)),
    h.results, h.nodup, h.length_results, fun i hi => ?_, fun i hi n hn => ?_⟩
  · rcases hn with hn | hn
    · exact h.reachable n (.inl hn)
    · exact (h.reachable c.node (.inl hc.1)).tail ⟨node, hnode, hn⟩
  · rcases h.pending i hi with hcand | hdone | hout
    · rw [← (hperm.map _).mem_iff, List.map_cons, List.mem_cons] at hcand
      rcases hcand with rfl | hcand
      · exact .inr (.inl (Finset.mem_insert_self _ _))
      · exact .inl hcand
    · exact .inr (.inl (Finset.mem_insert_of_mem hdone))
    · exact .inr (.inr hout)
  · rcases Finset.mem_insert.mp hi with rfl | hi
    · obtain ⟨node', hnode', hmem⟩ := hn
      rw [hnode, Option.some.injEq] at hnode'
      exact .inr (hnode' ▸ hmem)
    · exact .inl ((h.closed i hi n hn).resolve_right (by simp))

end Surveys

/-- A neighbour has been seen, or it becomes a candidate and a result, or it is
left out because it is no nearer than the worst of a full set of results. -/
theorem visitNeighbor_cases {nbr : ℕ} (st : SearchState)
    (hnbr : nbr < nodes.length) :
    Returns (visitNeighbor K metric nodes query ef st nbr) (fun st' =>
      nbr ∈ st.visited ∧ st' = st ∨
      nbr ∉ st.visited ∧ ∃ d, dist K metric nodes nbr query = .ok d ∧
        ((K.lt d (((BinaryHeap.peek st.results).map Candidate.dist).getD
              K.infinity) ∨ st.results.length < ef) ∧
            st' = {
              visited := insert nbr st.visited
              candidates :=
                BinaryHeap.push (Candidate.minLe K) st.candidates ⟨d, nbr⟩
              results := dropFarthest K ef
                (BinaryHeap.push (Candidate.maxLe K) st.results ⟨d, nbr⟩) } ∨
          ¬ K.lt d (((BinaryHeap.peek st.results).map Candidate.dist).getD
              K.infinity) ∧ ef ≤ st.results.length ∧
            st' = { st with visited := insert nbr st.visited })) := by
  rw [visitNeighbor]
  split_ifs with hseen
  · exact Returns.pure (.inl ⟨hseen, rfl⟩)
  · refine (dist_returns_of_lt hnbr).bind fun d hd => ?_
    dsimp only
    split_ifs with hnear
    · exact Returns.pure (.inr ⟨hseen, d, hd, .inl ⟨hnear, rfl⟩⟩)
    · rw [not_or, not_lt] at hnear
      exact Returns.pure (.inr ⟨hseen, d, hd, .inr ⟨hnear.1, hnear.2, rfl⟩⟩)

theorem Surveys.visit {nbr : ℕ} {rest : List ℕ} {st : SearchState}
    {expanded : Finset ℕ}
    (hlt : ∀ n, ReachableOn nodes layer entry n → n < nodes.length)
    (h : Surveys K metric nodes query layer entry ef (nbr :: rest) st
      expanded) :
    Returns (visitNeighbor K metric nodes query ef st nbr) (fun st' =>
      Surveys K metric nodes query layer entry ef rest st' expanded) := by
  have hnbr := hlt nbr (h.reachable nbr (.inr List.mem_cons_self))
  refine (visitNeighbor_cases st hnbr).mono ?_
  rintro st' (⟨hseen, rfl⟩ |
    ⟨hnew, d, hd, ⟨-, rfl⟩ | ⟨-, hfull, rfl⟩⟩)
  · exact h.skip hseen
  · exact h.enter hnew hd
  · exact h.leave hnew (le_antisymm h.length_results_le hfull)

/-- The start of a search. -/
theorem surveys_start {d : F32} (hd : dist K metric nodes entry query = .ok d)
    (hef : 0 < ef) :
    Surveys K metric nodes query layer entry ef [] (startState K entry d)
      ∅ := by
  have hmeasured : ∀ le : Candidate → Candidate → Bool,
      Measured K metric nodes query {entry}
        (BinaryHeap.push le [] ⟨d, entry⟩) := by
    intro le c hc
    rcases BinaryHeap.mem_push.mp hc with rfl | hc
    · exact ⟨Finset.mem_singleton_self entry, hd⟩
    · simp at hc
  refine ⟨Finset.mem_singleton_self entry, fun n hn => ?_,
    hmeasured (Candidate.minLe K), hmeasured (Candidate.maxLe K), ?_, ?_,
    fun i hi => .inl ?_, by simp⟩
  · rw [startState, Finset.mem_singleton, List.mem_nil_iff, or_false] at hn
    rw [hn]
    exact Relation.ReflTransGen.refl
  · rw [startState, ((BinaryHeap.push_perm [] _).map _).nodup_iff]
    simp
  · rw [startState, BinaryHeap.length_push, Finset.card_singleton]
    simp
    omega
  · rw [startState, ((BinaryHeap.push_perm [] _).map _).mem_iff]
    simpa [startState] using hi

/-- The rule of the search of a layer. -/
theorem tracedLayer_returns {Inv : List ℕ → SearchState → Finset ℕ → Prop}
    (hinv : SearchInvariant K metric nodes query ef layer Inv)
    (hentry : entry < nodes.length)
    (hstart : ∀ d, dist K metric nodes entry query = .ok d →
      Inv [] (startState K entry d) ∅) :
    Returns (tracedLayer K metric nodes query entry ef layer) (fun r =>
      ∃ st, Inv [] st r.2 ∧ st.Ended K ef ∧ r.1 = st.results) := by
  refine (dist_returns_of_lt hentry).bind fun d hd => ?_
  have hfuel : Fuelled nodes (nodes.length + 1) (startState K entry d) := by
    constructor
    · rwa [startState, Finset.singleton_subset_iff, Finset.mem_range]
    · simp [startState]
      omega
  refine (tracedLoop_returns hinv (hstart d hd) hfuel).bind ?_
  rintro ⟨st, expanded⟩ ⟨st', hst', hended, hresults⟩
  exact Returns.pure ⟨st', hst', hended, hresults⟩

theorem exists_of_candidate
    (hlt : ∀ n, ReachableOn nodes layer entry n → n < nodes.length)
    {st : SearchState} {rest : List ℕ} {expanded : Finset ℕ}
    (h : Surveys K metric nodes query layer entry ef rest st expanded)
    {c : Candidate} {candidates : List Candidate}
    (hpop : BinaryHeap.pop (Candidate.minLe K) st.candidates =
      some (c, candidates)) : ∃ node, nodes[c.node]? = some node := by
  have hc := h.candidates c
    ((BinaryHeap.pop_perm hpop).subset List.mem_cons_self)
  exact ⟨_, List.getElem?_eq_getElem (hlt _ (h.reachable _ (.inl hc.1)))⟩

theorem searchInvariant_surveys
    (hlt : ∀ n, ReachableOn nodes layer entry n → n < nodes.length) :
    SearchInvariant K metric nodes query ef layer
      (Surveys K metric nodes query layer entry ef) where
  pop st expanded c candidates hst hpop := by
    obtain ⟨node, hnode⟩ := exists_of_candidate hlt hst hpop
    exact ⟨node, hnode, hst.popped hpop hnode⟩
  visit st expanded nbr rest hst := hst.visit hlt

theorem le_length_of_isFarther {results : List Candidate} {c : Candidate}
    (h : isFarther K ef results c) : ef ≤ results.length := by
  rw [isFarther] at h
  split at h
  · rw [Bool.and_eq_true, decide_eq_true_eq] at h
    exact h.2
  · simp at h

namespace Surveys

variable {st : SearchState} {expanded : Finset ℕ}

/-- Results that are not full at the end are all reachable nodes. -/
theorem visited_of_reachable
    (h : Surveys K metric nodes query layer entry ef [] st expanded)
    (hend : st.Ended K ef) (hroom : st.results.length < ef) {n : ℕ}
    (hn : ReachableOn nodes layer entry n) : n ∈ st.visited := by
  have hempty : st.candidates = [] := by
    rw [← BinaryHeap.pop_eq_none_iff,
      Option.eq_none_iff_forall_ne_some]
    rintro ⟨c, candidates⟩ hpop
    have hfull := le_length_of_isFarther (hend c candidates hpop)
    omega
  induction hn with
  | refl => exact h.started
  | tail _ hlists ih =>
      rcases h.pending _ ih with hcand | hdone | ⟨-, hfull⟩
      · simp [hempty] at hcand
      · exact (h.closed _ hdone _ hlists).resolve_right (by simp)
      · omega

/-- A search ends with all reachable nodes or with `ef` of them. -/
theorem length_found
    (hlt : ∀ n, ReachableOn nodes layer entry n → n < nodes.length)
    (h : Surveys K metric nodes query layer entry ef [] st expanded)
    (hend : st.Ended K ef) :
    st.results.length =
      min {n | ReachableOn nodes layer entry n}.ncard ef := by
  have hfinite : {n | ReachableOn nodes layer entry n}.Finite :=
    (Set.finite_lt_nat nodes.length).subset hlt
  have hsub : (st.visited : Set ℕ) ⊆ {n | ReachableOn nodes layer entry n} :=
    fun n hn => h.reachable n (.inl hn)
  have hcard := Set.ncard_le_ncard hsub hfinite
  rw [Set.ncard_coe_finset] at hcard
  have hlength := h.length_results
  by_cases hroom : st.results.length < ef
  · have hall : {n | ReachableOn nodes layer entry n} ⊆ (st.visited : Set ℕ) :=
      fun n hn => h.visited_of_reachable hend hroom hn
    have hcard' := Set.ncard_le_ncard hall (Finset.finite_toSet _)
    rw [Set.ncard_coe_finset] at hcard'
    omega
  · omega

end Surveys

end Layer

end Quorvec
