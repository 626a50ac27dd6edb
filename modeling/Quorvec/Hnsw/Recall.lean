import Quorvec.Hnsw.Oracle

/-!
# The recall of exhaustive searches

After inserts only, an exhaustive search agrees with the exact index that was
given those of the points whose nodes the search can reach.  It agrees with the
exact index of all points when every node can be reached, and only then.
-/

namespace Quorvec

open TotalCorrectness PartialCorrectness

/-- One insert, under its own kernel so that it may draw any level. -/
structure IndexInsert where
  kernel : Kernel
  id : UInt64
  vector : List F32

def IndexInsert.call (x : IndexInsert) : VectorIndexCall :=
  .insert x.id x.vector

def HnswIndex.insertAll (idx : HnswIndex) (inserts : List IndexInsert) :
    HnswIndex :=
  inserts.foldl (fun idx x => ((vectorIndex x.kernel).call idx x.call).1) idx

def BruteForceIndex.insertAll (idx : BruteForceIndex)
    (inserts : List IndexInsert) : BruteForceIndex :=
  inserts.foldl (fun idx x => (vectorIndex.call idx x.call).1) idx

noncomputable def VectorStore.insertAll (dim : ℕ) (m : VectorStore)
    (inserts : List IndexInsert) : VectorStore :=
  inserts.foldl (fun m x => (VectorStore.call dim m x.call).1) m

/-- Both fail alike, or both return with equal scores. -/
def SameResult (K : Kernel)
    (h b : Except IndexError (List (UInt64 × F32))) : Prop :=
  match h, b with
  | .ok hs, .ok bs => SameScores K hs bs
  | .error e, .error e' => e = e'
  | _, _ => False

/-! ## The store after inserts -/

namespace VectorStore

variable {dim : ℕ} {inserts : List IndexInsert}

theorem call_insert (m : VectorStore) (x : IndexInsert) (id : UInt64) :
    (VectorStore.call dim m x.call).1 id =
      if x.vector.length = dim ∧ id = x.id then some x.vector else m id := by
  rw [IndexInsert.call, VectorStore.call]
  by_cases hdim : x.vector.length = dim
  · rw [if_pos hdim]
    dsimp only
    rw [Function.update_apply]
    simp only [hdim, true_and]
  · rw [if_neg hdim, if_neg fun h => hdim h.1]

theorem insertAll_cons (m : VectorStore) (x : IndexInsert) :
    insertAll dim m (x :: inserts) =
      insertAll dim (VectorStore.call dim m x.call).1 inserts := rfl

theorem insertAll_mem {V : Set (List F32)} {m : VectorStore}
    (hm : ∀ id v, m id = some v → v ∈ V) (hV : ∀ x ∈ inserts, x.vector ∈ V) :
    ∀ id v, insertAll dim m inserts id = some v → v ∈ V := by
  induction inserts generalizing m with
  | nil => exact hm
  | cons x inserts ih =>
      apply ih
      · intro id v hv
        dsimp only at hv
        rw [call_insert] at hv
        split_ifs at hv
        · rw [← Option.some.inj hv]
          exact hV x List.mem_cons_self
        · exact hm id v hv
      · exact fun y hy => hV y (List.mem_cons_of_mem x hy)

/-- Leaving out the inserts of some ids leaves out these ids. -/
theorem insertAll_filter (p : UInt64 → Bool) (m : VectorStore) :
    insertAll dim (fun id => if p id then m id else none)
        (inserts.filter fun x => p x.id) =
      fun id => if p id then insertAll dim m inserts id else none := by
  induction inserts generalizing m with
  | nil => rfl
  | cons x inserts ih =>
      rw [insertAll_cons m, ← ih]
      by_cases hx : p x.id
      · rw [List.filter_cons, if_pos hx, insertAll_cons]
        apply congrArg fun m => insertAll dim m
          (inserts.filter fun x => p x.id)
        funext id
        rw [call_insert, call_insert]
        by_cases hid : id = x.id
        · rw [hid, if_pos hx]
          simp [hx]
        · simp [hid]
      · rw [List.filter_cons, if_neg hx]
        apply congrArg fun m => insertAll dim m
          (inserts.filter fun x => p x.id)
        funext id
        rw [call_insert]
        by_cases hid : id = x.id
        · rw [hid, if_neg hx, if_neg hx]
        · simp [hid]

end VectorStore

/-! ## The indexes after inserts -/

/-- The graph index holds `m`, without tombstones. -/
structure HnswIndex.Built (dim : ℕ) (metric : Metric) (idx : HnswIndex)
    (m : VectorStore) : Prop where
  wellFormed : idx.WellFormed
  allLive : idx.AllLive
  fits : idx.params.Fits
  dim_eq : idx.dim = dim
  metric_eq : idx.metric = metric
  store_eq : idx.store = m

/-- The exact index holds `m`. -/
structure BruteForceIndex.Built (dim : ℕ) (metric : Metric)
    (idx : BruteForceIndex) (m : VectorStore) : Prop where
  valid : idx.Valid
  dim_eq : idx.dim = dim
  metric_eq : idx.metric = metric
  store_eq : idx.store = m

section Build

variable {dim : ℕ} {metric : Metric}

namespace HnswIndex

variable {K : Kernel} {idx : HnswIndex}

theorem connect_allLive (entry nodeLevel newIdx : ℕ) (vector : List F32) :
    Ensures (idx.connect K entry nodeLevel newIdx vector)
      (fun idx' => idx'.deleted = idx.deleted) := by
  refine (Ensures.intro _).bind fun node _ => ?_
  refine (Ensures.intro _).bind fun entryLevel _ => ?_
  refine (Ensures.intro _).bind fun curr _ => ?_
  refine (Ensures.intro _).bind fun nodes _ => ?_
  exact Ensures.pure rfl

/-- Inserts set no tombstone. -/
theorem insert_allLive (h : idx.AllLive) (id : UInt64) (vector : List F32) :
    Ensures (idx.insert K id vector) AllLive := by
  have hnew : ∀ d ∈ idx.deleted ++ [false], d = false := by
    intro d hd
    rcases List.mem_append.mp hd with hold | hnew
    · exact h d hold
    · exact List.mem_singleton.mp hnew
  rw [insert]
  split_ifs
  · exact Ensures.error
  · cases idx.idToNode[id]? with
    | some i =>
        refine (nodeAt_ensures i).bind fun node _ => ?_
        split_ifs
        · exact Ensures.error
        · dsimp only
          split
          · exact Ensures.error
          · refine Ensures.pure fun d hd => ?_
            rcases List.mem_or_eq_of_mem_set hd with hold | hset
            · exact h d hold
            · exact hset
          · exact Ensures.pure h
    | none =>
        cases hentry : idx.entryPoint with
        | none =>
            dsimp only
            rw [insertNew_of_none hentry]
            exact Ensures.pure hnew
        | some entry =>
            dsimp only
            rw [insertNew_of_some hentry]
            refine (connect_allLive _ _ _ _).mono fun idx' hidx' => ?_
            rw [AllLive, hidx']
            exact hnew

theorem Built.insert {m : VectorStore} (h : idx.Built dim metric m)
    (x : IndexInsert) :
    ((vectorIndex x.kernel).call idx x.call).1.Built dim metric
      (VectorStore.call dim m x.call).1 := by
  obtain ⟨hwell, hlive, hfits, rfl, rfl, rfl⟩ := h
  rw [IndexInsert.call]
  by_cases hdim : x.vector.length = idx.dim
  · obtain ⟨idx', hinsert, hupdated⟩ :=
      insert_returns (K := x.kernel) hfits hwell.valid x.id hdim
    have hinsert' : (vectorIndex x.kernel).insert idx x.id x.vector =
        (idx', .ok ()) := insertChecked_of_ok hdim hinsert
    have hwell' := insert_wellFormed (K := x.kernel) hwell x.id hdim idx'
      hinsert
    rw [VectorIndex.call, hinsert', VectorStore.call, if_pos hdim]
    exact ⟨hwell', insert_allLive hlive x.id x.vector idx' hinsert,
      hupdated.kind.params ▸ hfits, hupdated.kind.dim, hupdated.kind.metric,
      hupdated.store_eq⟩
  · have herror : (vectorIndex x.kernel).insert idx x.id x.vector =
        (idx, .error (.dimMismatch idx.dim x.vector.length)) :=
      insertChecked_mismatch hdim _
    rw [VectorIndex.call, herror, VectorStore.call, if_neg hdim]
    exact ⟨hwell, hlive, hfits, rfl, rfl, rfl⟩

theorem insertAll_built {params : HnswParams} {seed : UInt64}
    (hidx : withParams dim metric params seed = .ok idx)
    (hfits : params.m0 < 2 ^ 61) (inserts : List IndexInsert) :
    (idx.insertAll inserts).Built dim metric
      (VectorStore.insertAll dim (fun _ => none) inserts) := by
  have hwell := withParams_wellFormed hidx
  have hparams := fits_of_withParams hidx hfits
  obtain ⟨hdim, hm, hm0, hef⟩ := admissible_of_withParams hidx
  obtain ⟨-, hdim_eq, hmetric, hstore⟩ :=
    (withParams_returns hdim hm hm0 hef).of_eq_ok hidx
  have hlive : idx.AllLive := by
    rw [withParams, if_pos ⟨hdim, hm, hm0, hef⟩, Except.ok.injEq] at hidx
    subst hidx
    intro d hd
    simp at hd
  exact List.foldl_rel (r := HnswIndex.Built dim metric)
    ⟨hwell, hlive, hparams, hdim_eq, hmetric, hstore⟩
    fun x _ idx m h => h.insert x

end HnswIndex

namespace BruteForceIndex

variable {idx : BruteForceIndex}

theorem Built.insert {m : VectorStore} (h : idx.Built dim metric m)
    (x : IndexInsert) :
    (vectorIndex.call idx x.call).1.Built dim metric
      (VectorStore.call dim m x.call).1 := by
  obtain ⟨hvalid, rfl, rfl, rfl⟩ := h
  rw [IndexInsert.call]
  by_cases hdim : x.vector.length = idx.dim
  · obtain ⟨idx', hinsert, hupdated⟩ := insert_returns hvalid x.id hdim
    have hinsert' : vectorIndex.insert idx x.id x.vector = (idx', .ok ()) :=
      insertChecked_of_ok hdim hinsert
    rw [VectorIndex.call, hinsert', VectorStore.call, if_pos hdim]
    exact ⟨hupdated.valid, hupdated.dim_eq, hupdated.metric_eq,
      hupdated.store_eq⟩
  · have herror : vectorIndex.insert idx x.id x.vector =
        (idx, .error (.dimMismatch idx.dim x.vector.length)) :=
      insertChecked_mismatch hdim _
    rw [VectorIndex.call, herror, VectorStore.call, if_neg hdim]
    exact ⟨hvalid, rfl, rfl, rfl⟩

theorem insertAll_built (hidx : new dim metric = .ok idx)
    (inserts : List IndexInsert) :
    (idx.insertAll inserts).Built dim metric
      (VectorStore.insertAll dim (fun _ => none) inserts) := by
  have hdim : 0 < dim := by
    by_contra hnot
    rw [new, if_neg hnot] at hidx
    simp at hidx
  obtain ⟨hvalid, hdim_eq, hmetric, hstore⟩ :=
    (new_returns metric hdim).of_eq_ok hidx
  exact List.foldl_rel (r := BruteForceIndex.Built dim metric)
    ⟨hvalid, hdim_eq, hmetric, hstore⟩ fun x _ idx m h => h.insert x

end BruteForceIndex

end Build

/-! ## Agreement with the exact index -/

section Agreement

variable {K : Kernel} {V : Set (List F32)} {dim : ℕ} {metric : Metric}
variable {idx : HnswIndex} {brute : BruteForceIndex} {m : VectorStore}
variable {query : List F32}

/-- The search can reach every live point. -/
def HnswIndex.ReachesAll (K : Kernel) (idx : HnswIndex) (query : List F32) :
    Prop :=
  ∀ id, (idx.store id).isSome → idx.Reaches K query id

theorem HnswIndex.ReachesAll.reached_eq (h : idx.ReachesAll K query) :
    idx.reached K query = idx.store := by
  funext id
  rw [HnswIndex.reached]
  split_ifs with hreaches
  · rfl
  · by_contra hne
    exact hreaches (h id (Option.isSome_iff_ne_none.mpr (Ne.symm hne)))

theorem HnswIndex.Built.search_of_mismatch (h : idx.Built dim metric m)
    (hdim : query.length ≠ dim) (k ef : ℕ) :
    idx.search K query k ef = .error (.dimMismatch dim query.length) := by
  rw [← h.dim_eq] at hdim ⊢
  exact if_pos hdim

theorem BruteForceIndex.Built.search_of_mismatch
    (h : brute.Built dim metric m) (hdim : query.length ≠ dim) (k : ℕ) :
    brute.search K query k = .error (.dimMismatch dim query.length) := by
  rw [← h.dim_eq] at hdim ⊢
  exact if_pos hdim

variable (hK : K.Ordered metric V) (hidx : idx.Built dim metric m)
  (hV : ∀ id v, m id = some v → v ∈ V) (hquery : query ∈ V)

include hK hidx hV hquery

theorem HnswIndex.Built.search_sorted (hdim : query.length = dim) {k : ℕ}
    (hk : k < 2 ^ 59) {ef : ℕ} (hef : idx.nodes.length ≤ ef) :
    Returns (idx.search K query k ef) (fun hs => ∃ L,
      IsScored K metric query (idx.reached K query) L ∧
        L.Pairwise (K.scoreOrder · ·) ∧ hs = L.take k) := by
  obtain ⟨hwell, hlive, -, rfl, rfl, rfl⟩ := hidx
  exact HnswIndex.search_sorted hwell hlive hK hV hquery hdim hk hef

omit hidx in
theorem BruteForceIndex.Built.search_sorted (hb : brute.Built dim metric m)
    (hdim : query.length = dim) (k : ℕ) :
    Returns (brute.search K query k) (fun bs => ∃ L,
      IsScored K metric query m L ∧ L.Pairwise (K.scoreOrder · ·) ∧
        bs = L.take k) := by
  obtain ⟨hvalid, rfl, rfl, rfl⟩ := hb
  exact BruteForceIndex.search_sorted hvalid hK hV hquery hdim k

theorem sameResult_of_reached
    (hb : brute.Built dim metric (idx.reached K query)) {k : ℕ}
    (hk : k < 2 ^ 59) {ef : ℕ} (hef : idx.nodes.length ≤ ef) :
    SameResult K (idx.search K query k ef) (brute.search K query k) := by
  by_cases hdim : query.length = dim
  · have hVreached : ∀ id v, idx.reached K query id = some v → v ∈ V :=
      fun id v hv => hV id v (hidx.store_eq ▸ HnswIndex.store_of_reached hv)
    obtain ⟨hs, hsearch, L, hL, hsorted, rfl⟩ :=
      hidx.search_sorted hK hV hquery hdim hk hef
    obtain ⟨bs, hbsearch, L', hL', hsorted', rfl⟩ :=
      hb.search_sorted hK hVreached hquery hdim k
    rw [hsearch, hbsearch]
    exact hK.sameScores (hL.mem_scores hVreached hquery) (hL.perm hL') hsorted
      hsorted' k
  · rw [hidx.search_of_mismatch hdim, hb.search_of_mismatch hdim]
    exact rfl

/-- When the exact index of all points gives the same scores for every `k`,
all points are reached. -/
theorem reachesAll_of_sameResult (hb : brute.Built dim metric m)
    (hdim : query.length = dim) (hlen : idx.len < 2 ^ 59)
    (hsame : ∀ k < 2 ^ 59,
      SameResult K (idx.search K query k idx.nodes.length)
        (brute.search K query k)) : idx.ReachesAll K query := by
  rw [HnswIndex.len_eq hidx.wellFormed.valid, hidx.store_eq] at hlen
  obtain ⟨hs, hsearch, L, hL, -, rfl⟩ := hidx.search_sorted hK hV hquery hdim
    hlen le_rfl
  obtain ⟨bs, hbsearch, L', hL', -, rfl⟩ :=
    hb.search_sorted hK hV hquery hdim {id | (m id).isSome}.ncard
  have hscores := hsame {id | (m id).isSome}.ncard hlen
  rw [hsearch, hbsearch] at hscores
  have hlength := List.Forall₂.length_eq hscores
  rw [List.length_take, List.length_take, hL'.length_eq, min_self,
    hL.length_eq, min_eq_left_iff] at hlength
  have hsub : {id | (idx.reached K query id).isSome} ⊆
      {id | (m id).isSome} := by
    intro id hid
    obtain ⟨v, hv⟩ := Option.isSome_iff_exists.mp hid
    rw [Set.mem_ofPred_eq, ← hidx.store_eq, HnswIndex.store_of_reached hv]
    rfl
  have hset := Set.eq_of_subset_of_ncard_le hsub hlength
  intro id hid
  rw [hidx.store_eq] at hid
  have hmem : id ∈ {id | (idx.reached K query id).isSome} := hset ▸ hid
  obtain ⟨v, hv⟩ := Option.isSome_iff_exists.mp hmem
  rw [HnswIndex.reached] at hv
  split_ifs at hv with hreaches
  exact hreaches

theorem mem_of_reachesAll (hall : idx.ReachesAll K query)
    (hdim : query.length = dim) {k ef : ℕ} (hfits : k < 2 ^ 59)
    (hef : idx.nodes.length ≤ ef) (hk : idx.len ≤ k) :
    Returns (idx.search K query k ef) (fun hs =>
      ∀ id, (m id).isSome → id ∈ hs.map Prod.fst) := by
  obtain ⟨hs, hsearch, L, hL, -, rfl⟩ :=
    hidx.search_sorted hK hV hquery hdim hfits hef
  refine ⟨_, hsearch, fun id hid => ?_⟩
  rw [hall.reached_eq] at hL
  rw [List.take_of_length_le]
  · obtain ⟨v, hv⟩ := Option.isSome_iff_exists.mp hid
    rw [← hidx.store_eq] at hv
    exact List.mem_map_of_mem ((hL.mem_iff id _).mpr ⟨v, hv, rfl⟩)
  · rw [hL.length_eq, ← HnswIndex.len_eq hidx.wellFormed.valid]
    exact hk

end Agreement

/-! ## Equal points -/

namespace EqualPoints

open Kernel

theorem ordered (metric : Metric) (V : Set (List F32)) :
    equalPoints.Ordered metric V :=
  ⟨fun _ _ _ _ => rfl, fun _ _ _ _ => rfl, fun _ _ _ _ _ _ _ _ => rfl⟩

theorem selectNeighborsHeuristic_eq (metric : Metric) (nodes : Nodes)
    (cands : List Candidate) (m : ℕ) :
    selectNeighborsHeuristic equalPoints metric nodes cands m = (do
      withCapacity 4 m
      selectLoop equalPoints metric nodes m cands []) := by
  have hsort : Candidate.sortByDist equalPoints cands = cands :=
    List.mergeSort_of_pairwise (List.pairwise_of_forall fun _ _ => rfl)
  rw [selectNeighborsHeuristic, hsort]

/-- Two neighbours on every layer. -/
def params : HnswParams := { m := 2, m0 := 2, efConstruction := 200 }

/-- Equal points with the given lists on the base layer. -/
def twins (lists : List (List ℕ)) : Nodes :=
  lists.zipIdx.map fun (adj, i) =>
    { id := UInt64.ofNat i, vector := [0], neighbors := [adj] }

structure Holds (lists : List (List ℕ)) (idx : HnswIndex) : Prop where
  wellFormed : idx.WellFormed
  dim_eq : idx.dim = 1
  metric_eq : idx.metric = .l2
  params_eq : idx.params = params
  nodes_eq : idx.nodes = twins lists
  entry_eq : idx.entryPoint = some 0

/-- The fourth insert finds three nodes whose lists are full, and is pruned
from both that it links to. -/
theorem connect_fourth :
    connectLayers equalPoints .l2 200 (HnswIndex.mMax params) [0] 3 1
      (twins [[1, 2], [0, 2], [1, 0], []]) 0 =
        .ok (twins [[1, 2], [0, 2], [1, 0], [2, 0]]) := by
  simp only [connectLayers, connectLayer, selectNeighborsHeuristic_eq]
  delta linkBack pruneNeighbors
  simp only [selectNeighborsHeuristic_eq]
  rfl

theorem connect_third :
    connectLayers equalPoints .l2 200 (HnswIndex.mMax params) [0] 2 1
      (twins [[1], [0], []]) 0 = .ok (twins [[1, 2], [0, 2], [1, 0]]) := by
  simp only [connectLayers, connectLayer, selectNeighborsHeuristic_eq]
  delta linkBack pruneNeighbors
  simp only [selectNeighborsHeuristic_eq]
  rfl

theorem connect_second :
    connectLayers equalPoints .l2 200 (HnswIndex.mMax params) [0] 1 1
      (twins [[], []]) 0 = .ok (twins [[1], [0]]) := by
  simp only [connectLayers, connectLayer, selectNeighborsHeuristic_eq]
  delta linkBack pruneNeighbors
  simp only [selectNeighborsHeuristic_eq]
  rfl

theorem twins_concat (lists : List (List ℕ)) :
    twins (lists ++ [[]]) = twins lists ++
      [{ id := UInt64.ofNat lists.length, vector := [0], neighbors := [[]] }]
    := by
  simp [twins, List.zipIdx_append]

def insertTwin (i : ℕ) : IndexInsert := ⟨equalPoints, UInt64.ofNat i, [0]⟩

/-- Wiring one more point. -/
theorem connect_ensures {idx : HnswIndex} {lists lists' : List (List ℕ)}
    (h : Holds lists idx) (hne : 0 < lists.length)
    (hconnect : connectLayers equalPoints .l2 200 (HnswIndex.mMax params) [0]
      lists.length 1 (twins (lists ++ [[]])) 0 = .ok (twins lists'))
    (rng : SplitMix64) :
    Ensures ((idx.allocate 0 rng (UInt64.ofNat lists.length) [0]).connect
      equalPoints 0 0 idx.nodes.length [0]) (fun idx' =>
        idx'.dim = idx.dim ∧ idx'.metric = idx.metric ∧
          idx'.params = idx.params ∧ idx'.nodes = twins lists' ∧
            idx'.entryPoint = some 0) := by
  obtain ⟨l, ls, rfl⟩ := List.exists_cons_of_length_pos hne
  have hnodes : (idx.allocate 0 rng (UInt64.ofNat (l :: ls).length)
      [0]).nodes = twins (l :: ls ++ [[]]) := by
    rw [twins_concat, ← h.nodes_eq]
    rfl
  have hlength : idx.nodes.length = (l :: ls).length := by
    rw [h.nodes_eq, twins, List.length_map, List.length_zipIdx]
  refine (nodeAt_ensures 0).bind fun node hnode => ?_
  rw [hnodes] at hnode
  refine (topLayer_ensures node).bind fun level hlevel => ?_
  have hzero : level = 0 := by
    rw [← Option.some.inj hnode] at hlevel
    exact (Nat.succ.inj hlevel).symm
  subst hzero
  refine (Ensures.intro _).bind fun curr hcurr => ?_
  rw [← Except.ok.inj hcurr, hnodes, hlength]
  refine Ensures.bind (P := (· = twins lists')) ?_ fun nodes hwired => ?_
  · intro nodes hwired
    rw [HnswIndex.allocate, h.metric_eq, h.params_eq] at hwired
    exact Except.ok.inj (hwired.symm.trans hconnect)
  · exact Ensures.pure ⟨rfl, rfl, rfl, hwired, h.entry_eq⟩

/-- One more point. -/
theorem Holds.insert {idx : HnswIndex} {lists lists' : List (List ℕ)}
    (h : Holds lists idx) (hne : 0 < lists.length)
    (hnew : ∀ node ∈ twins lists, node.id ≠ UInt64.ofNat lists.length)
    (hconnect : connectLayers equalPoints .l2 200 (HnswIndex.mMax params) [0]
      lists.length 1 (twins (lists ++ [[]])) 0 = .ok (twins lists')) :
    Holds lists' ((HnswIndex.vectorIndex equalPoints).call idx
      (insertTwin lists.length).call).1 := by
  have hid : idx.idToNode[UInt64.ofNat lists.length]? = none := by
    by_contra hsome
    obtain ⟨i, hi⟩ := Option.ne_none_iff_exists'.mp hsome
    obtain ⟨node, hnode, heq⟩ := (h.wellFormed.structured.idToNode _ i).mp hi
    rw [h.nodes_eq] at hnode
    exact hnew node (List.mem_of_getElem? hnode) heq
  have hdim : [(0 : F32)].length = idx.dim := h.dim_eq.symm
  have hfits : idx.params.Fits := by
    rw [h.params_eq]
    decide
  obtain ⟨idx', hinsert, -⟩ := HnswIndex.insert_returns
    (K := equalPoints) hfits h.wellFormed.valid (UInt64.ofNat lists.length)
      hdim
  have hwell := HnswIndex.insert_wellFormed h.wellFormed _ hdim idx' hinsert
  have hcall : ((HnswIndex.vectorIndex equalPoints).call idx
      (insertTwin lists.length).call).1 = idx' := by
    have hinsert' : (HnswIndex.vectorIndex equalPoints).insert idx
        (UInt64.ofNat lists.length) [0] = (idx', .ok ()) :=
      insertChecked_of_ok hdim hinsert
    rw [IndexInsert.call, insertTwin, VectorIndex.call, hinsert']
  rw [HnswIndex.insert, if_neg (not_not_intro hdim), hid] at hinsert
  dsimp only at hinsert
  rw [HnswIndex.insertNew_of_some h.entry_eq] at hinsert
  obtain ⟨hdim_eq, hmetric, hparams, hnodes, hentry⟩ :=
    connect_ensures h hne hconnect _ idx' hinsert
  rw [hcall]
  exact ⟨hwell, hdim_eq.trans h.dim_eq, hmetric.trans h.metric_eq,
    hparams.trans h.params_eq, hnodes, hentry⟩

theorem holds_first {idx : HnswIndex}
    (hidx : HnswIndex.withParams 1 .l2 params 0 = .ok idx) :
    Holds [[]] ((HnswIndex.vectorIndex equalPoints).call idx
      (insertTwin 0).call).1 := by
  have hwell := (HnswIndex.call_wellFormed (K := equalPoints)
    (HnswIndex.withParams_wellFormed hidx) (insertTwin 0).call).1
  cases hidx
  exact ⟨hwell, rfl, rfl, rfl, rfl, rfl⟩

theorem holds_second {idx : HnswIndex}
    (hidx : HnswIndex.withParams 1 .l2 params 0 = .ok idx) :
    Holds [[1], [0]] (idx.insertAll [insertTwin 0, insertTwin 1]) :=
  (holds_first hidx).insert (by decide) (by decide) connect_second

def fourTwins : List IndexInsert :=
  [insertTwin 0, insertTwin 1, insertTwin 2, insertTwin 3]

theorem holds_fourth {idx : HnswIndex}
    (hidx : HnswIndex.withParams 1 .l2 params 0 = .ok idx) :
    Holds [[1, 2], [0, 2], [1, 0], [2, 0]] (idx.insertAll fourTwins) := by
  have hthird := (holds_second hidx).insert (by decide) (by decide) connect_third
  exact hthird.insert (by decide) (by decide) connect_fourth

/-- The last of the four points cannot be reached. -/
theorem not_reaches_fourth {idx : HnswIndex} {query : List F32}
    (h : Holds [[1, 2], [0, 2], [1, 0], [2, 0]] idx) :
    ¬ idx.Reaches equalPoints query 3 := by
  rintro ⟨start, i, ⟨entry, node, level, hentry, hnode, hlevel, hdescend⟩,
    hid, hreach⟩
  rw [h.entry_eq, Option.some.injEq] at hentry
  subst hentry
  rw [h.nodes_eq] at hnode
  have hstart : start = 0 := by
    rw [← Option.some.inj hnode] at hlevel
    rw [← Except.ok.inj hlevel] at hdescend
    exact (Except.ok.inj hdescend).symm
  have hlast : i = 3 := by
    obtain ⟨last, hlast, heq⟩ := (h.wellFormed.structured.idToNode 3 i).mp hid
    rw [h.nodes_eq] at hlast
    have hlt : i < 4 := (List.getElem?_eq_some_iff.mp hlast).1
    have hids : ∀ i < 4, (twins [[1, 2], [0, 2], [1, 0], [2, 0]])[i]?.map
        Node.id = some 3 → i = 3 := by decide
    exact hids i hlt (by rw [hlast, Option.map_some, heq])
  rw [hlast, hstart] at hreach
  rcases Relation.ReflTransGen.cases_tail hreach with heq | ⟨b, -, hlists⟩
  · exact absurd heq (by decide)
  · obtain ⟨other, hother, hmem⟩ := hlists
    rw [h.nodes_eq] at hother
    have hunlisted : ∀ node ∈ twins [[1, 2], [0, 2], [1, 0], [2, 0]],
        3 ∉ node.layerOrEmpty 0 := by decide
    exact hunlisted other (List.mem_of_getElem? hother) hmem

end EqualPoints

/-! ## The searches after inserts -/

open Classical in
/-- An exhaustive search after inserts gives the scores of the exact index that
got the inserts of the reached ids.  It gives those of the exact index that got
all inserts, for every `k`, if and only if it reaches all points, and then it
returns every point when `k` is large enough.  There are no more nodes than
indices, and every list fits its capacity. -/
theorem exhaustive_search {K : Kernel} {V : Set (List F32)} {dim : ℕ}
    {metric : Metric} {params : HnswParams} {seed : UInt64} {hnsw : HnswIndex}
    {brute : BruteForceIndex} (hK : K.Ordered metric V)
    (hhnsw : HnswIndex.withParams dim metric params seed = .ok hnsw)
    (hfits : params.m0 < 2 ^ 61)
    (hbrute : BruteForceIndex.new dim metric = .ok brute)
    {inserts : List IndexInsert} (hV : ∀ x ∈ inserts, x.vector ∈ V)
    (hnodes : (hnsw.insertAll inserts).nodes.length ≤ 2 ^ 32)
    {query : List F32} (hquery : query ∈ V) :
    let idx := hnsw.insertAll inserts
    (∀ k < 2 ^ 59, ∀ ef, idx.nodes.length ≤ ef →
      SameResult K (idx.search K query k ef)
        ((brute.insertAll (inserts.filter fun x =>
          decide (idx.Reaches K query x.id))).search K query k)) ∧
    ((∀ k < 2 ^ 59, ∀ ef, idx.nodes.length ≤ ef →
      SameResult K (idx.search K query k ef)
        ((brute.insertAll inserts).search K query k)) ↔
      (query.length = dim → idx.ReachesAll K query)) ∧
    (query.length = dim → idx.ReachesAll K query →
      ∀ k < 2 ^ 59, ∀ ef, idx.nodes.length ≤ ef → idx.len ≤ k →
        Returns (idx.search K query k ef) (fun hs =>
          ∀ id, (idx.store id).isSome → id ∈ hs.map Prod.fst)) := by
  intro idx
  have hidx := HnswIndex.insertAll_built hhnsw hfits inserts
  have hall := BruteForceIndex.insertAll_built hbrute inserts
  have hVstore : ∀ id v, VectorStore.insertAll dim (fun _ => none) inserts
      id = some v → v ∈ V :=
    VectorStore.insertAll_mem (by simp) hV
  have hreached : idx.reached K query = VectorStore.insertAll dim
      (fun _ => none)
      (inserts.filter fun x => decide (idx.Reaches K query x.id)) := by
    have hfilter := @VectorStore.insertAll_filter dim inserts
      (fun id => decide (idx.Reaches K query id)) fun _ => none
    simp only [ite_self] at hfilter
    rw [hfilter, ← hidx.store_eq]
    funext id
    rw [HnswIndex.reached]
    simp only [decide_eq_true_eq]
    rfl
  have hlen : idx.len < 2 ^ 59 := by
    have hlive := hidx.wellFormed.structured.live_eq
    have hdeleted := hidx.wellFormed.structured.length_deleted
    have hcount := List.count_le_length (a := false) (l := idx.deleted)
    calc idx.len
        = idx.deleted.count false := hlive
      _ ≤ idx.deleted.length := hcount
      _ = idx.nodes.length := hdeleted
      _ ≤ 2 ^ 32 := hnodes
      _ < 2 ^ 59 := by norm_num
  refine ⟨fun k hk ef hef => ?_,
    ⟨fun hsame hdim => ?_, fun hreach k hk ef hef => ?_⟩,
    fun hdim hreach k hfits ef hef hk => ?_⟩
  · apply sameResult_of_reached hK hidx hVstore hquery ?_ hk hef
    rw [hreached]
    exact BruteForceIndex.insertAll_built hbrute _
  · exact reachesAll_of_sameResult hK hidx hVstore hquery hall hdim hlen
      fun k hk => hsame k hk _ le_rfl
  · by_cases hdim : query.length = dim
    · apply sameResult_of_reached hK hidx hVstore hquery ?_ hk hef
      rw [(hreach hdim).reached_eq, hidx.store_eq]
      exact hall
    · rw [hidx.search_of_mismatch hdim, hall.search_of_mismatch hdim]
      exact rfl
  · rw [hidx.store_eq]
    exact mem_of_reachesAll hK hidx hVstore hquery hreach hdim hfits hef hk

namespace EqualPoints

theorem fourTwins_mem :
    ∀ x ∈ fourTwins, x.vector ∈ ({[0]} : Set (List F32)) := by
  intro x hx
  simp only [fourTwins, List.mem_cons, List.not_mem_nil, or_false] at hx
  rcases hx with rfl | rfl | rfl | rfl <;> rfl

end EqualPoints

open Classical in
/-- Four points, the last of which no search reaches. -/
theorem exhaustive_search_four :
    ∃ hnsw brute, HnswIndex.withParams 1 .l2 EqualPoints.params 0 = .ok hnsw ∧
      BruteForceIndex.new 1 .l2 = .ok brute ∧ ∀ k < 2 ^ 59,
        SameResult .equalPoints
          ((hnsw.insertAll EqualPoints.fourTwins).search .equalPoints [0] k 4)
          ((brute.insertAll (EqualPoints.fourTwins.filter fun x =>
            decide ((hnsw.insertAll EqualPoints.fourTwins).Reaches
              .equalPoints [0] x.id))).search .equalPoints [0] k) := by
  obtain ⟨hnsw, hhnsw, -⟩ := @HnswIndex.withParams_returns 1 .l2
    EqualPoints.params 0 (by decide) (by decide) (by decide) (by decide)
  obtain ⟨brute, hbrute, -⟩ := @BruteForceIndex.new_returns 1 .l2 (by decide)
  have hlength : (hnsw.insertAll EqualPoints.fourTwins).nodes.length = 4 :=
    congrArg List.length (EqualPoints.holds_fourth hhnsw).nodes_eq
  exact ⟨hnsw, brute, hhnsw, hbrute, fun k hk =>
    (exhaustive_search (EqualPoints.ordered .l2 {[0]}) hhnsw (by decide) hbrute
      EqualPoints.fourTwins_mem (by omega) rfl).1 k hk 4 hlength.le⟩

/-- Four equal points with two neighbours each: the last is not found, and the
exact index finds it.  A search for too many results panics. -/
theorem not_exhaustive_search :
    (¬ ∀ (K : Kernel) (V : Set (List F32)) (dim : ℕ) (metric : Metric)
      (params : HnswParams) (seed : UInt64) (hnsw : HnswIndex)
      (brute : BruteForceIndex), K.Ordered metric V →
      HnswIndex.withParams dim metric params seed = .ok hnsw →
      BruteForceIndex.new dim metric = .ok brute →
      ∀ inserts : List IndexInsert, (∀ x ∈ inserts, x.vector ∈ V) →
      ∀ query ∈ V, ∀ k < 2 ^ 59, ∀ ef,
        (hnsw.insertAll inserts).nodes.length ≤ ef →
        SameResult K ((hnsw.insertAll inserts).search K query k ef)
          ((brute.insertAll inserts).search K query k)) ∧
    ∃ idx, HnswIndex.withParams 1 .l2 .default 0 = .ok idx ∧
      (CallMachine.run HnswIndex.callUnder idx
        [(.equalPoints, .insert 0 [0])]).1.search .equalPoints [0] (2 ^ 59) 1 =
          .error .panic := by
  refine ⟨fun hall => ?_, HnswIndex.search_overflow⟩
  obtain ⟨hnsw, hhnsw, -⟩ := @HnswIndex.withParams_returns 1 .l2
    EqualPoints.params 0 (by decide) (by decide) (by decide) (by decide)
  obtain ⟨brute, hbrute, -⟩ := @BruteForceIndex.new_returns 1 .l2 (by decide)
  have hK := EqualPoints.ordered .l2 {[0]}
  have hidx := HnswIndex.insertAll_built hhnsw (by decide)
    EqualPoints.fourTwins
  have hholds := EqualPoints.holds_fourth hhnsw
  have hlen : (hnsw.insertAll EqualPoints.fourTwins).len < 2 ^ 59 := by
    have hcount := List.count_le_length (a := false)
      (l := (hnsw.insertAll EqualPoints.fourTwins).deleted)
    rw [hholds.wellFormed.structured.length_deleted] at hcount
    rw [HnswIndex.len, hholds.wellFormed.structured.live_eq]
    have hlength : (hnsw.insertAll EqualPoints.fourTwins).nodes.length = 4 :=
      congrArg List.length hholds.nodes_eq
    omega
  have hreaches := reachesAll_of_sameResult hK hidx
    (VectorStore.insertAll_mem (by simp) EqualPoints.fourTwins_mem) rfl
    (BruteForceIndex.insertAll_built hbrute EqualPoints.fourTwins) rfl hlen
    fun k hk => hall .equalPoints {[0]} 1 .l2 EqualPoints.params 0 hnsw brute
      hK hhnsw hbrute EqualPoints.fourTwins EqualPoints.fourTwins_mem [0] rfl
      k hk _ le_rfl
  apply EqualPoints.not_reaches_fourth hholds
  apply hreaches
  rw [hidx.store_eq]
  rfl

end Quorvec
