import Quorvec.Hnsw.Recall
import Quorvec.Hnsw.Survey

/-!
# What a search returns

A search sorts the nodes that the base layer yields and returns the first `k`
live ones, so every result is a live point with the distance of its current
vector.  Tombstones are dropped after the search has been bounded: the results
are as many as the live nodes among those found, up to `k`.
-/

namespace Quorvec

open TotalCorrectness SortedLists

namespace HnswIndex

variable {K : Kernel} {idx : HnswIndex} {query : List F32}

/-- The node has no tombstone. -/
def IsLive (idx : HnswIndex) (i : ℕ) : Prop := idx.deleted[i]? = some false

instance (idx : HnswIndex) : DecidablePred idx.IsLive :=
  fun _ => inferInstanceAs (Decidable (_ = _))

/-- The live candidates, as results. -/
def liveResults (idx : HnswIndex) (found : List Candidate) :
    List (UInt64 × F32) :=
  (found.filter (idx.IsLive ·.node)).map (resultOf idx.nodes)

/-- The distances of all nodes to the query. -/
def nodeScores (K : Kernel) (idx : HnswIndex) (query : List F32) : Set F32 :=
  {d | ∃ node ∈ idx.nodes, d = K.distance idx.metric node.vector query}

/-- Every node can be reached from where the base layer is searched. -/
def Connected (K : Kernel) (idx : HnswIndex) (query : List F32) : Prop :=
  ∀ start, idx.Starts K query start →
    ∀ i < idx.nodes.length, ReachableOn idx.nodes 0 start i

/-! ## The result loop -/

theorem exists_dead (h : idx.Valid) {i : ℕ} {node : Node}
    (hnode : idx.nodes[i]? = some node) :
    ∃ dead, idx.deleted[i]? = some dead ∧
      idx.idToNode[node.id]? = some i ∧
      idx.store node.id = if dead then none else some node.vector := by
  have hid : idx.idToNode[node.id]? = some i :=
    (h.coherent.index_iff node.id i).mpr ⟨node.vector, by simp [table, hnode]⟩
  obtain ⟨node', dead, hnode', -, hdead, hstore⟩ := exists_node h hid
  rw [hnode, Option.some.injEq] at hnode'
  exact ⟨dead, hdead, hid, hnode' ▸ hstore⟩

/-- The result loop takes the first live candidates. -/
theorem collect_live (h : idx.Valid) {k : ℕ} {found : List Candidate}
    {out : List (UInt64 × F32)}
    (hfound : ∀ c ∈ found, c.node < idx.nodes.length) (hout : out.length < k) :
    idx.collect k found out =
      .ok (out ++ (idx.liveResults found).take (k - out.length)) := by
  induction found generalizing out with
  | nil => simp [collect, liveResults, pure, Except.pure]
  | cons c found ih =>
      obtain ⟨node, hnode⟩ : ∃ node, idx.nodes[c.node]? = some node :=
        ⟨_, List.getElem?_eq_getElem (hfound c List.mem_cons_self)⟩
      have hrest := fun x hx => hfound x (List.mem_cons_of_mem c hx)
      obtain ⟨dead, hdead, -⟩ := exists_dead h hnode
      rw [collect, hdead]
      cases dead with
      | true =>
          have hskip : idx.liveResults (c :: found) = idx.liveResults found := by
            rw [liveResults, List.filter_cons_of_neg, liveResults]
            simp [IsLive, hdead]
          rw [hskip]
          exact ih hrest hout
      | false =>
          have hkeep : idx.liveResults (c :: found) =
              (node.id, c.dist) :: idx.liveResults found := by
            rw [liveResults, List.filter_cons_of_pos, List.map_cons,
              resultOf_of_node hnode, liveResults]
            simp [IsLive, hdead]
          have hnodeAt := nodeAt_of_getElem? hnode
          obtain ⟨n, hn⟩ := Nat.exists_eq_add_one_of_ne_zero
            (Nat.sub_ne_zero_of_lt hout)
          have hlength : (out ++ [(node.id, c.dist)]).length =
              out.length + 1 := List.length_append
          rw [hkeep, hn, List.take_succ_cons, List.append_cons]
          simp only [hnodeAt, bind, Except.bind]
          split_ifs with hfull
          · have hzero : n = 0 := by omega
            rw [hzero, List.take_zero, List.append_nil]
            rfl
          · have hroom : k - (out ++ [(node.id, c.dist)]).length =
                n := by omega
            rw [ih hrest (by omega), hroom]

/-! ## The search -/

theorem exists_start (h : idx.WellFormed) (hnodes : idx.nodes ≠ []) :
    ∃ start, idx.Starts K query start := by
  obtain ⟨entry, hentry⟩ := Option.ne_none_iff_exists'.mp
    fun hnone => hnodes (h.entry_none hnone)
  obtain ⟨node, hnode, -⟩ := h.entry_top entry hentry
  obtain ⟨level, hlevel, hlt⟩ := topLayer_returns
    (h.valid.heights node (List.mem_of_getElem? hnode))
  obtain ⟨start, hdescend, -⟩ := descend_returns (K := K)
    h.valid.linked
    ⟨node, hnode, hlt⟩
  exact ⟨start, entry, node, level, hentry, hnode, hlevel, hdescend⟩

theorem Starts.lt_length (h : idx.WellFormed) {start : ℕ}
    (hstart : idx.Starts K query start) : start < idx.nodes.length := by
  obtain ⟨entry, node, level, -, hnode, hlevel, hdescend⟩ := hstart
  have htop := topLayer_ensures node level hlevel
  have hcurr := (descend_returns (K := K)
    h.valid.linked
    ⟨node, hnode, htop ▸ Nat.lt_succ_self level⟩).of_eq_ok hdescend
  exact hcurr.lt_length

/-- What the search finds on the base layer. -/
structure Found (K : Kernel) (idx : HnswIndex) (query : List F32) (k ef : ℕ)
    (start : ℕ) (found : List Candidate) : Prop where
  search_eq : searchLayer K idx.metric idx.nodes query start (max ef k) 0 =
    .ok found
  nodup : (found.map Candidate.node).Nodup
  node : ∀ c ∈ found, ∃ node, idx.nodes[c.node]? = some node ∧
    c.dist = K.distance idx.metric node.vector query
  length_eq : found.length =
    min {n | ReachableOn idx.nodes 0 start n}.ncard (max ef k)

theorem Starts.found (h : idx.WellFormed) {start : ℕ}
    (hstart : idx.Starts K query start) {k : ℕ} (hk : 0 < k) (ef : ℕ) :
    ∃ found, Found K idx query k ef start found := by
  have hentry := hstart.lt_length h
  have hlt : ∀ n, ReachableOn idx.nodes 0 start n → n < idx.nodes.length :=
    fun n hn => h.valid.linked.neighborsExist.lt_of_reachable hentry hn
  obtain ⟨⟨found, expanded⟩, htraced, st, hsurveys, hend, rfl⟩ :=
    tracedLayer_returns (searchInvariant_surveys hlt) hentry
      fun d hd => surveys_start hd (lt_of_lt_of_le hk (le_max_right _ _))
  refine ⟨st.results, searchLayer_of_traced htraced, hsurveys.nodup,
    fun c hc => ?_, hsurveys.length_found hlt hend⟩
  obtain ⟨hvisited, hdist⟩ := hsurveys.results c hc
  have hnode := List.getElem?_eq_getElem
    (hlt _ (hsurveys.reachable _ (.inl hvisited)))
  refine ⟨_, hnode, ?_⟩
  rw [dist_of_getElem? hnode] at hdist
  exact (Except.ok.inj hdist).symm

theorem Found.sorted {k ef start : ℕ} {found : List Candidate}
    (h : Found K idx query k ef start found) :
    ∀ c ∈ Candidate.sortByDist K found, ∃ node,
      idx.nodes[c.node]? = some node ∧
        c.dist = K.distance idx.metric node.vector query :=
  fun c hc => h.node c ((Candidate.sortByDist_perm K found).subset hc)

/-- The search returns the first live nodes that it finds. -/
theorem Found.search (h : idx.WellFormed) (hdim : query.length = idx.dim)
    {start : ℕ} (hstart : idx.Starts K query start) {k ef : ℕ} (hk : 0 < k)
    (hfits : k < 2 ^ 59) {found : List Candidate}
    (hfound : Found K idx query k ef start found) :
    idx.search K query k ef =
      .ok ((idx.liveResults (Candidate.sortByDist K found)).take k) := by
  have hcollect := @collect_live idx h.valid k _ []
    (fun c hc => (List.getElem?_eq_some_iff.mp
      (hfound.sorted c hc).choose_spec.1).1) hk
  rw [HnswIndex.search, if_neg (not_not_intro hdim)]
  split_ifs with hempty
  · have hlive : idx.live = 0 := hempty.resolve_left hk.ne'
    have hnone : idx.liveResults (Candidate.sortByDist K found) = [] := by
      rw [liveResults, List.map_eq_nil_iff, List.filter_eq_nil_iff]
      intro c _ hc
      have hcount := List.count_pos_iff.mpr
        (List.mem_of_getElem? (of_decide_eq_true hc))
      rw [← h.structured.live_eq, hlive] at hcount
      exact lt_irrefl _ hcount
    rw [hnone, List.take_nil]
    rfl
  · obtain ⟨entry, node, level, hentry, hnode, hlevel, hdescend⟩ := hstart
    have hnodeAt := nodeAt_of_getElem? hnode
    have hcapacity : withCapacity 16 k = .ok () :=
      withCapacity_of_lt (by omega)
    simp only [hentry, hnodeAt, hlevel, hdescend, hfound.search_eq, bind,
      Except.bind, hcapacity, hcollect, List.nil_append, List.length_nil,
      Nat.sub_zero]

theorem search_of_zero (hdim : query.length = idx.dim) (ef : ℕ) :
    idx.search K query 0 ef = .ok [] := by
  rw [HnswIndex.search, if_neg (not_not_intro hdim), if_pos (.inl rfl)]
  rfl

theorem search_of_no_nodes (h : idx.WellFormed) (hdim : query.length = idx.dim)
    (hnodes : idx.nodes = []) (k ef : ℕ) :
    idx.search K query k ef = .ok [] := by
  have hlive : idx.live = 0 := by
    have hdeleted := h.structured.length_deleted
    rw [hnodes, List.length_nil, List.length_eq_zero_iff] at hdeleted
    rw [h.structured.live_eq, hdeleted, List.count_nil]
  rw [HnswIndex.search, if_neg (not_not_intro hdim), if_pos (.inr hlive)]
  rfl

/-! ## Soundness -/

/-- At most `k` distinct live ids with their distances, nearest first. -/
structure SoundHits (K : Kernel) (idx : HnswIndex) (query : List F32) (k : ℕ)
    (hits : List (UInt64 × F32)) : Prop where
  length_le : hits.length ≤ k
  nodup : (hits.map Prod.fst).Nodup
  live : ∀ hit ∈ hits, ∃ v, idx.getVector hit.1 = .ok (some v) ∧
    hit.2 = K.distance idx.metric v query
  sorted : hits.Pairwise fun a b => (K.cmp a.2 b.2).isLE

theorem soundHits_nil (K : Kernel) (idx : HnswIndex) (query : List F32)
    (k : ℕ) : SoundHits K idx query k [] :=
  ⟨Nat.zero_le k, List.nodup_nil, by simp, List.Pairwise.nil⟩

/-- Different live nodes have different ids. -/
theorem Found.nodup_liveResults (h : idx.WellFormed) {k ef start : ℕ}
    {found : List Candidate} (hfound : Found K idx query k ef start found) :
    ((idx.liveResults (Candidate.sortByDist K found)).map Prod.fst).Nodup := by
  have hnodes : ((Candidate.sortByDist K found).map Candidate.node).Nodup :=
    ((Candidate.sortByDist_perm K found).map _).nodup_iff.mpr hfound.nodup
  rw [liveResults, List.map_map]
  refine List.Nodup.map_on ?_ ((List.Nodup.of_map _ hnodes).filter _)
  intro c hc c' hc' heq
  have hmem := List.mem_of_mem_filter hc
  have hmem' := List.mem_of_mem_filter hc'
  obtain ⟨node, hnode, -⟩ := hfound.sorted c hmem
  obtain ⟨node', hnode', -⟩ := hfound.sorted c' hmem'
  simp only [Function.comp_apply, resultOf_of_node hnode,
    resultOf_of_node hnode'] at heq
  obtain ⟨-, -, hid, -⟩ := exists_dead h.valid hnode
  obtain ⟨-, -, hid', -⟩ := exists_dead h.valid hnode'
  rw [heq, hid', Option.some.injEq] at hid
  exact List.inj_on_of_nodup_map hnodes hmem hmem' hid.symm

/-- A live result has the distance of the vector that is stored now. -/
theorem Found.live_liveResults (h : idx.WellFormed) {k ef start : ℕ}
    {found : List Candidate} (hfound : Found K idx query k ef start found)
    {hit : UInt64 × F32}
    (hhit : hit ∈ idx.liveResults (Candidate.sortByDist K found)) :
    ∃ v, idx.getVector hit.1 = .ok (some v) ∧
      hit.2 = K.distance idx.metric v query := by
  obtain ⟨c, hc, rfl⟩ := List.mem_map.mp hhit
  obtain ⟨hmem, hlive⟩ := List.mem_filter.mp hc
  obtain ⟨node, hnode, hdist⟩ := hfound.sorted c hmem
  obtain ⟨dead, hdead, -, hstore⟩ := exists_dead h.valid hnode
  have hfalse : dead = false := by
    have hlive' : idx.deleted[c.node]? = some false := of_decide_eq_true hlive
    rw [hdead, Option.some.injEq] at hlive'
    exact hlive'
  rw [resultOf_of_node hnode, getVector_eq h.valid, hstore, hfalse]
  exact ⟨node.vector, rfl, hdist⟩

theorem Found.sorted_liveResults {k ef start : ℕ} {found : List Candidate}
    (hK : K.PreordersOn (idx.nodeScores K query))
    (hfound : Found K idx query k ef start found) :
    (idx.liveResults (Candidate.sortByDist K found)).Pairwise
      fun a b => (K.cmp a.2 b.2).isLE := by
  have hscores : ∀ c ∈ found, c.dist ∈ idx.nodeScores K query := by
    intro c hc
    obtain ⟨node, hnode, hdist⟩ := hfound.node c hc
    exact ⟨node, List.mem_of_getElem? hnode, hdist⟩
  have hsorted : (Candidate.sortByDist K found).Pairwise
      fun a b => (K.cmp a.dist b.dist).isLE :=
    pairwise_mergeSort (hK.preorderOn hscores)
  exact List.pairwise_map.mpr (hsorted.filter _)

theorem search_of_overflow (hdim : query.length = idx.dim)
    {start : ℕ} (hstart : idx.Starts K query start) {k ef : ℕ}
    (hover : ¬ k < 2 ^ 59) {found : List Candidate}
    (hfound : Found K idx query k ef start found) :
    idx.search K query k ef = .ok [] ∨
      idx.search K query k ef = .error .panic := by
  rw [HnswIndex.search, if_neg (not_not_intro hdim)]
  split_ifs with hempty
  · exact .inl rfl
  · obtain ⟨entry, node, level, hentry, hnode, hlevel, hdescend⟩ := hstart
    have hnodeAt := nodeAt_of_getElem? hnode
    have hcapacity : withCapacity 16 k = .error .panic :=
      withCapacity_of_not_lt (by omega)
    right
    simp only [hentry, hnodeAt, hlevel, hdescend, hfound.search_eq, bind,
      Except.bind, hcapacity]

/-- A search answers nothing, or the first live nodes that it finds, or asks
for too much room. -/
theorem WellFormed.search_cases (h : idx.WellFormed)
    (hdim : query.length = idx.dim) (k ef : ℕ) :
    idx.search K query k ef = .ok [] ∨
      (∃ start found, Found K idx query k ef start found ∧
        idx.search K query k ef =
          .ok ((idx.liveResults (Candidate.sortByDist K found)).take k)) ∨
      2 ^ 59 ≤ k ∧ idx.search K query k ef = .error .panic := by
  rcases Nat.eq_zero_or_pos k with rfl | hk
  · exact .inl (search_of_zero hdim ef)
  by_cases hnodes : idx.nodes = []
  · exact .inl (search_of_no_nodes h hdim hnodes k ef)
  obtain ⟨start, hstart⟩ := exists_start (K := K) h hnodes
  obtain ⟨found, hfound⟩ := hstart.found h hk ef
  by_cases hfits : k < 2 ^ 59
  · exact .inr (.inl ⟨start, found, hfound,
      hfound.search h hdim hstart hk hfits⟩)
  · exact (search_of_overflow hdim hstart hfits hfound).imp_right
      fun hpanic => .inr ⟨not_lt.mp hfits, hpanic⟩

/-- Whatever the distances are, every result is live and has the distance of
its vector. -/
theorem WellFormed.search_distances (h : idx.WellFormed)
    (hdim : query.length = idx.dim) {k : ℕ} (hfits : k < 2 ^ 59) (ef : ℕ) :
    Returns (idx.search K query k ef) (fun hits => ∀ hit ∈ hits,
      ∃ v, idx.getVector hit.1 = .ok (some v) ∧
        hit.2 = K.distance idx.metric v query) := by
  rcases h.search_cases (K := K) hdim k ef with
    hsearch | ⟨start, found, hfound, hsearch⟩ | ⟨hover, -⟩
  · exact ⟨[], hsearch, by simp⟩
  · exact ⟨_, hsearch, fun hit hhit =>
      hfound.live_liveResults h (List.mem_of_mem_take hhit)⟩
  · exact absurd hfits (not_lt.mpr hover)

theorem WellFormed.search_soundHits (h : idx.WellFormed)
    (hdim : query.length = idx.dim)
    (hK : K.PreordersOn (idx.nodeScores K query)) {k : ℕ} (hfits : k < 2 ^ 59)
    (ef : ℕ) :
    Returns (idx.search K query k ef) (SoundHits K idx query k) := by
  obtain ⟨hits, hhits, hlive⟩ := h.search_distances (K := K) hdim hfits ef
  rcases h.search_cases (K := K) hdim k ef with
    hsearch | ⟨start, found, hfound, hsearch⟩ | ⟨hover, -⟩
  · exact ⟨[], hsearch, soundHits_nil K idx query k⟩
  · rw [hsearch, Except.ok.injEq] at hhits
    subst hhits
    refine ⟨_, hsearch, List.length_take_le _ _, ?_, hlive, ?_⟩
    · rw [List.map_take]
      exact (hfound.nodup_liveResults h).sublist (List.take_sublist _ _)
    · exact (hfound.sorted_liveResults hK).sublist (List.take_sublist _ _)
  · exact absurd hfits (not_lt.mpr hover)

theorem run_wellFormed {dim : ℕ} {metric : Metric} {params : HnswParams}
    {seed : UInt64} (hidx : withParams dim metric params seed = .ok idx)
    (calls : List (Kernel × VectorIndexCall)) :
    (CallMachine.run callUnder idx calls).1.WellFormed :=
  (CallMachine.run_invariant WellFormed (fun _ => True)
    (fun _ c h => ⟨(call_wellFormed h c.2).1, trivial⟩)
    (withParams_wellFormed hidx) calls).1

/-- After every sequence of calls, every search is sound. -/
theorem search_sound_of_calls {dim : ℕ} {metric : Metric}
    {params : HnswParams} {seed : UInt64}
    (hidx : withParams dim metric params seed = .ok idx)
    (calls : List (Kernel × VectorIndexCall)) (K : Kernel) (query : List F32)
    (hdim : query.length = (CallMachine.run callUnder idx calls).1.dim)
    (hK : K.PreordersOn
      ((CallMachine.run callUnder idx calls).1.nodeScores K query))
    {k : ℕ} (hk : k < 2 ^ 59) (efSearch : ℕ) :
    ∃ hits, (CallMachine.run callUnder idx calls).1.search K query k efSearch =
        .ok hits ∧
      SoundHits K (CallMachine.run callUnder idx calls).1 query k hits :=
  (run_wellFormed hidx calls).search_soundHits hdim hK hk efSearch

/-- The index of two equal points. -/
theorem search_sound_of_calls_twins :
    ∃ idx hits, withParams 1 .l2 EqualPoints.params 0 = .ok idx ∧
      (CallMachine.run callUnder idx
          [(.equalPoints, .insert 0 [0]), (.equalPoints, .insert 1 [0])]).1.search
        .equalPoints [0] 1 1 = .ok hits ∧
      SoundHits .equalPoints (CallMachine.run callUnder idx
          [(.equalPoints, .insert 0 [0]), (.equalPoints, .insert 1 [0])]).1
        [0] 1 hits := by
  obtain ⟨idx, hidx, -⟩ := @withParams_returns 1 .l2
    EqualPoints.params 0 one_pos le_rfl le_rfl (by decide)
  have hdim := (EqualPoints.holds_second hidx).dim_eq
  obtain ⟨hits, hsearch, hhits⟩ := search_sound_of_calls hidx
    [(.equalPoints, .insert 0 [0]), (.equalPoints, .insert 1 [0])]
    .equalPoints [0] hdim.symm
    ⟨fun _ _ _ _ => rfl, fun _ _ _ _ _ _ _ _ => rfl⟩ (k := 1) (by norm_num) 1
  exact ⟨idx, hits, hidx, hsearch, hhits⟩

/-- A search for `2 ^ 59` results of one point returns none. -/
theorem not_search_sound_of_calls :
    ¬ ∀ idx, withParams 1 .l2 .default 0 = .ok idx → ∀ k, ∃ hits,
      (CallMachine.run callUnder idx
        [(.equalPoints, .insert 0 [0])]).1.search .equalPoints [0] k 1 =
          .ok hits := by
  intro hall
  obtain ⟨idx, hidx, hpanic⟩ := search_overflow
  obtain ⟨hits, hhits⟩ := hall idx hidx (2 ^ 59)
  rw [hpanic] at hhits
  simp at hhits

/-! ## Counting the results -/

/-- The places of a value are as many as its occurrences. -/
theorem length_filter_range (l : List Bool) (b : Bool) :
    ((List.range l.length).filter (fun i => l[i]? = some b)).length =
      l.count b := by
  induction l using List.reverseRecOn with
  | nil => rfl
  | append_singleton l a ih =>
      have hfront : (List.range l.length).filter
          (fun i => (l ++ [a])[i]? = some b) =
          (List.range l.length).filter (fun i => l[i]? = some b) := by
        apply List.filter_congr
        intro i hi
        rw [List.getElem?_append_left (List.mem_range.mp hi)]
      rw [List.length_append, List.length_singleton, List.range_succ,
        List.filter_append, hfront, List.length_append, ih, List.count_append,
        List.count_singleton, List.filter_singleton,
        List.getElem?_concat_length]
      by_cases hab : a = b <;> simp [hab]

/-- Distinct nodes with a mark are no more than the marks. -/
theorem countP_le_count {found : List Candidate}
    (hnodup : (found.map Candidate.node).Nodup) (b : Bool) :
    found.countP (fun c => idx.deleted[c.node]? = some b) ≤
      idx.deleted.count b := by
  have hnodes : ((found.filter (fun c => idx.deleted[c.node]? =
      some b)).map Candidate.node).Nodup :=
    hnodup.sublist (List.filter_sublist.map _)
  have hsub : (found.filter (fun c => idx.deleted[c.node]? =
      some b)).map Candidate.node ⊆ (List.range idx.deleted.length).filter
        (fun i => idx.deleted[i]? = some b) := by
    intro i hi
    obtain ⟨c, hc, rfl⟩ := List.mem_map.mp hi
    have hmark := (List.mem_filter.mp hc).2
    rw [List.mem_filter, List.mem_range]
    exact ⟨(List.getElem?_eq_some_iff.mp (of_decide_eq_true hmark)).1, hmark⟩
  have hlength := (hnodes.subperm hsub).length_le
  rwa [List.length_map, ← List.countP_eq_length_filter,
    length_filter_range] at hlength

/-- The results are as many as the live nodes among those found, up to `k`, and
those found are as many as the search has room for; with room for all tombstones
no live point is missing. -/
structure CountedHits (K : Kernel) (idx : HnswIndex) (query : List F32)
    (k ef : ℕ) (hits : List (UInt64 × F32)) : Prop where
  found : 0 < k → ∀ start, idx.Starts K query start → ∃ found,
    searchLayer K idx.metric idx.nodes query start (max ef k) 0 = .ok found ∧
      (found.map Candidate.node).Nodup ∧
      found.length = min (max ef k) idx.nodes.length ∧
      hits.length = min k (found.countP (idx.IsLive ·.node))
  length_eq : min k idx.len + idx.deleted.count true ≤ max ef k →
    hits.length = min k idx.len

theorem Found.length_of_connected (h : idx.WellFormed)
    (hconnected : idx.Connected K query) {k ef start : ℕ}
    (hstart : idx.Starts K query start) {found : List Candidate}
    (hfound : Found K idx query k ef start found) :
    found.length = min (max ef k) idx.nodes.length := by
  have hall : {n | ReachableOn idx.nodes 0 start n} =
      ↑(Finset.range idx.nodes.length) := by
    ext n
    rw [Set.mem_ofPred_eq, Finset.mem_coe, Finset.mem_range]
    exact ⟨h.valid.linked.neighborsExist.lt_of_reachable (hstart.lt_length h),
      hconnected start hstart n⟩
  rw [hfound.length_eq, hall, Set.ncard_coe_finset, Finset.card_range,
    min_comm]

theorem length_liveResults (found : List Candidate) :
    (idx.liveResults (Candidate.sortByDist K found)).length =
      found.countP (idx.IsLive ·.node) := by
  rw [liveResults, List.length_map, ← List.countP_eq_length_filter]
  exact (Candidate.sortByDist_perm K found).countP_eq _

/-- A search of a well-formed index all of whose nodes can be reached. -/
theorem WellFormed.search_countedHits (h : idx.WellFormed)
    (hdim : query.length = idx.dim) (hconnected : idx.Connected K query)
    {k : ℕ} (hfits : k < 2 ^ 59) (ef : ℕ) :
    Returns (idx.search K query k ef) (CountedHits K idx query k ef) := by
  rcases Nat.eq_zero_or_pos k with rfl | hk
  · refine ⟨[], search_of_zero hdim ef, fun hk => absurd hk (by simp), ?_⟩
    simp
  by_cases hnodes : idx.nodes = []
  · refine ⟨[], search_of_no_nodes h hdim hnodes k ef, fun _ start hstart => ?_,
      fun _ => ?_⟩
    · have hlt := hstart.lt_length h
      simp [hnodes] at hlt
    · have hdeleted := h.structured.length_deleted
      rw [hnodes, List.length_nil, List.length_eq_zero_iff] at hdeleted
      rw [len, h.structured.live_eq, hdeleted, List.count_nil]
      simp
  obtain ⟨start, hstart⟩ := exists_start (K := K) h hnodes
  obtain ⟨found, hfound⟩ := hstart.found h hk ef
  have hlength := hfound.length_of_connected h hconnected hstart
  have hhits : ((idx.liveResults (Candidate.sortByDist K found)).take
      k).length = min k (found.countP (idx.IsLive ·.node)) := by
    rw [List.length_take, length_liveResults]
  refine ⟨_, hfound.search h hdim hstart hk hfits, fun _ start' hstart' => ?_,
    fun hroom => ?_⟩
  · rw [hstart.unique hstart']
    exact ⟨found, hfound.search_eq, hfound.nodup, hlength, hhits⟩
  · -- at most all tombstones are among the nodes found
    have hlive : found.countP (idx.IsLive ·.node) ≤ idx.len := by
      rw [len, h.structured.live_eq]
      exact countP_le_count hfound.nodup false
    have hdead := @countP_le_count idx _ hfound.nodup true
    have hsplit : found.length = found.countP (idx.IsLive ·.node) +
        found.countP (fun c => idx.deleted[c.node]? = some true) := by
      rw [List.length_eq_countP_add_countP (idx.IsLive ·.node)]
      congr 1
      refine List.countP_congr fun c hc => ?_
      obtain ⟨node, hnode, -⟩ := hfound.node c hc
      obtain ⟨dead, hdead, -⟩ := exists_dead h.valid hnode
      cases dead <;> simp [IsLive, hdead]
    have hall : idx.nodes.length = idx.len + idx.deleted.count true := by
      rw [len, h.structured.live_eq, ← h.structured.length_deleted]
      exact (List.count_false_add_count_true _).symm
    rw [hhits]
    omega

/-- Two nodes that list each other are connected. -/
theorem connected_twins (hnodes : idx.nodes = EqualPoints.twins [[1], [0]])
    (hentry : idx.entryPoint = some 0) : idx.Connected K query := by
  rintro start ⟨entry, node, level, hentry', hnode, hlevel, hdescend⟩ i hi
  rw [hentry, Option.some.injEq] at hentry'
  subst hentry'
  rw [hnodes] at hnode hi ⊢
  have hstart : start = 0 := by
    rw [← Option.some.inj hnode] at hlevel
    rw [← Except.ok.inj hlevel] at hdescend
    exact (Except.ok.inj hdescend).symm
  rw [hstart]
  have hi' : i = 0 ∨ i = 1 := by
    have hlt : i < 2 := hi
    omega
  rcases hi' with rfl | rfl
  · exact Relation.ReflTransGen.refl
  · exact Relation.ReflTransGen.single ⟨_, rfl, by decide⟩

/-- After every sequence of calls that leaves every node reachable, a search
returns the live ones among the nodes that it has room for, nearest first. -/
theorem search_length_of_calls {dim : ℕ} {metric : Metric}
    {params : HnswParams} {seed : UInt64}
    (hidx : withParams dim metric params seed = .ok idx)
    (calls : List (Kernel × VectorIndexCall)) (K : Kernel) (query : List F32)
    (hdim : query.length = (CallMachine.run callUnder idx calls).1.dim)
    (hconnected : (CallMachine.run callUnder idx calls).1.Connected K query)
    (hK : K.PreordersOn
      ((CallMachine.run callUnder idx calls).1.nodeScores K query))
    {k : ℕ} (hk : k < 2 ^ 59) (efSearch : ℕ) :
    ∃ hits, (CallMachine.run callUnder idx calls).1.search K query k efSearch =
        .ok hits ∧
      CountedHits K (CallMachine.run callUnder idx calls).1 query k efSearch
        hits ∧
      hits.Pairwise (fun a b => (K.cmp a.2 b.2).isLE) := by
  have hwell := run_wellFormed hidx calls
  obtain ⟨hits, hsearch, hcounted⟩ :=
    hwell.search_countedHits hdim hconnected hk efSearch
  have hsound := (hwell.search_soundHits hdim hK hk efSearch).of_eq_ok hsearch
  exact ⟨hits, hsearch, hcounted, hsound.sorted⟩

/-- Two equal points without tombstones. -/
theorem search_length_of_calls_twins :
    ∃ idx hits, withParams 1 .l2 EqualPoints.params 0 = .ok idx ∧
      (CallMachine.run callUnder idx
          [(.equalPoints, .insert 0 [0]), (.equalPoints, .insert 1 [0])]).1.search
        .equalPoints [0] 1 1 = .ok hits ∧
      CountedHits .equalPoints (CallMachine.run callUnder idx
          [(.equalPoints, .insert 0 [0]), (.equalPoints, .insert 1 [0])]).1
        [0] 1 1 hits := by
  obtain ⟨idx, hidx, -⟩ := @withParams_returns 1 .l2
    EqualPoints.params 0 one_pos le_rfl le_rfl (by decide)
  have hholds := EqualPoints.holds_second hidx
  obtain ⟨hits, hsearch, hhits, -⟩ := search_length_of_calls hidx
    [(.equalPoints, .insert 0 [0]), (.equalPoints, .insert 1 [0])]
    .equalPoints [0] hholds.dim_eq.symm
    (connected_twins hholds.nodes_eq hholds.entry_eq)
    ⟨fun _ _ _ _ => rfl, fun _ _ _ _ _ _ _ _ => rfl⟩ (k := 1) (by norm_num) 1
  exact ⟨idx, hits, hidx, hsearch, hhits⟩

/-- The two equal points, after a delete of the first. -/
theorem exists_deleted_twin :
    ∃ idx idx', withParams 1 .l2 EqualPoints.params 0 = .ok idx ∧
      (CallMachine.run callUnder idx
        [(.equalPoints, .insert 0 [0]), (.equalPoints, .insert 1 [0]),
          (.equalPoints, .delete 0)]).1 = idx' ∧
      idx'.dim = 1 ∧ idx'.metric = .l2 ∧ idx'.entryPoint = some 0 ∧
      idx'.nodes = EqualPoints.twins [[1], [0]] ∧
      idx'.deleted = [true, false] ∧ idx'.live = 1 := by
  obtain ⟨idx, hidx, -⟩ := @withParams_returns 1 .l2
    EqualPoints.params 0 one_pos le_rfl le_rfl (by decide)
  have hholds := EqualPoints.holds_second hidx
  have hbuilt := insertAll_built hidx (by decide)
    [EqualPoints.insertTwin 0, EqualPoints.insertTwin 1]
  set idx₂ := idx.insertAll
    [EqualPoints.insertTwin 0, EqualPoints.insertTwin 1]
  have hstructured := hholds.wellFormed.structured
  have hdeleted : idx₂.deleted = [false, false] := by
    have hlength : idx₂.deleted.length = 2 := by
      rw [hstructured.length_deleted, hholds.nodes_eq]
      rfl
    obtain ⟨a, b, hab⟩ := List.length_eq_two.mp hlength
    have hlive := hbuilt.allLive
    rw [AllLive, hab] at hlive
    rw [hab, hlive a (by simp), hlive b (by simp)]
  have hlive : idx₂.live = 2 := by
    rw [hstructured.live_eq, hdeleted]
    rfl
  have hid : idx₂.idToNode[(0 : UInt64)]? = some 0 := by
    rw [hstructured.idToNode, hholds.nodes_eq]
    exact ⟨_, rfl, rfl⟩
  have hcall : (callUnder idx₂ (.equalPoints, .delete 0)).1 =
      { idx₂ with deleted := [true, false], live := 1 } := by
    have hdelete : (vectorIndex .equalPoints).delete idx₂ 0 =
        .ok ({ idx₂ with deleted := [true, false], live := 1 }, true) := by
      show idx₂.delete 0 = _
      rw [HnswIndex.delete, hid, hdeleted, hlive]
      rfl
    rw [callUnder, VectorIndex.call, hdelete]
  refine ⟨idx, _, hidx, hcall, hholds.dim_eq, hholds.metric_eq,
    hholds.entry_eq, hholds.nodes_eq, rfl, rfl⟩

/-- With room for one node only, the search finds the tombstone and returns
nothing, though a live point can be reached. -/
theorem not_search_length_of_calls :
    ∃ idx idx', withParams 1 .l2 EqualPoints.params 0 = .ok idx ∧
      (CallMachine.run callUnder idx
        [(.equalPoints, .insert 0 [0]), (.equalPoints, .insert 1 [0]),
          (.equalPoints, .delete 0)]).1 = idx' ∧
      idx'.Connected .equalPoints [0] ∧ idx'.len = 1 ∧
      idx'.search .equalPoints [0] 1 1 = .ok [] := by
  obtain ⟨idx, idx', hidx, hrun, hdim, hmetric, hentry, hnodes, hdeleted,
    hlive⟩ := exists_deleted_twin
  refine ⟨idx, idx', hidx, hrun, ?_, hlive, ?_⟩
  · exact connected_twins hnodes hentry
  · have hsearch : searchLayer .equalPoints .l2
        (EqualPoints.twins [[1], [0]]) [0] 0 1 0 = .ok [⟨0, 0⟩] := rfl
    have hsort : Candidate.sortByDist .equalPoints [⟨0, 0⟩] = [⟨0, 0⟩] :=
      List.mergeSort_singleton _
    have hdescend : descend .equalPoints .l2 (EqualPoints.twins [[1], [0]])
        [0] 0 0 0 = .ok 0 := rfl
    have hcollect : idx'.collect 1 [⟨0, 0⟩] [] = .ok [] := by
      rw [collect, hdeleted]
      rfl
    have hnodeAt : nodeAt (EqualPoints.twins [[1], [0]]) 0 =
        .ok { id := 0, vector := [0], neighbors := [[1]] } := rfl
    have hlength : [(0 : F32)].length = idx'.dim := hdim.symm
    rw [HnswIndex.search, if_neg (not_not_intro hlength), if_neg (by omega),
      hentry, hnodes, hmetric]
    simp only [hnodeAt, Node.topLayer, List.length_singleton, bind,
      Except.bind, hdescend]
    rw [show max 1 1 = 1 from rfl, hsearch]
    dsimp only
    rw [withCapacity_of_lt (by norm_num), hsort]
    exact hcollect

end HnswIndex

end Quorvec
