import Quorvec.Hnsw.Exhaustive
import Quorvec.Hnsw.ScoreOrder

/-!
# Exhaustive search against the exact index

The exact index lists the nearest of all its points.  An exhaustive search of
the graph lists the nearest of those points whose nodes can be reached on the
base layer from where the descent ends, and so agrees with the exact index on
these points.  Pruning may leave a node that no list leads to.
-/

namespace Quorvec

open TotalCorrectness PartialCorrectness SortedLists

namespace Kernel

/-- Distances within `V` are symmetric, and the comparison is a total preorder
on them. -/
structure Ordered (K : Kernel) (metric : Metric) (V : Set (List F32)) :
    Prop where
  symm : ∀ v ∈ V, ∀ w ∈ V, K.distance metric v w = K.distance metric w v
  swap : ∀ a ∈ K.scores metric V, ∀ b ∈ K.scores metric V,
    K.cmp b a = (K.cmp a b).swap
  trans : ∀ a ∈ K.scores metric V, ∀ b ∈ K.scores metric V,
    ∀ c ∈ K.scores metric V, (K.cmp a b).isLE → (K.cmp b c).isLE →
      (K.cmp a c).isLE

/-- The order of scored points by their scores alone. -/
def scoreOrder (K : Kernel) (a b : UInt64 × F32) : Bool := (K.cmp a.2 b.2).isLE

variable {K : Kernel} {metric : Metric} {V : Set (List F32)}

theorem Ordered.preordersOn (h : K.Ordered metric V) :
    K.PreordersOn (K.scores metric V) :=
  ⟨h.swap, h.trans⟩

theorem Ordered.preorderOn {α : Type} (h : K.Ordered metric V) {f : α → F32}
    {l : List α} (hl : ∀ a ∈ l, f a ∈ K.scores metric V) :
    PreorderOn (fun a b => (K.cmp (f a) (f b)).isLE) l :=
  h.preordersOn.preorderOn hl

theorem Ordered.preorderOn_scoreLe (h : K.Ordered metric V)
    {L : List (UInt64 × F32)} (hL : ∀ x ∈ L, x.2 ∈ K.scores metric V) :
    PreorderOn (BruteForceIndex.scoreLe K) L :=
  h.preordersOn.preorderOn_then Prod.fst hL

end Kernel

/-- The points of `m` with their distances to the query. -/
structure IsScored (K : Kernel) (metric : Metric) (query : List F32)
    (m : VectorStore) (L : List (UInt64 × F32)) : Prop where
  nodup : (L.map Prod.fst).Nodup
  mem_iff : ∀ id s, (id, s) ∈ L ↔
    ∃ v, m id = some v ∧ s = K.distance metric v query

section Scored

variable {K : Kernel} {metric : Metric} {query : List F32}
variable {m : VectorStore} {L L' : List (UInt64 × F32)}

theorem IsScored.perm (h : IsScored K metric query m L)
    (h' : IsScored K metric query m L') : L.Perm L' := by
  rw [List.perm_ext_iff_of_nodup (.of_map _ h.nodup) (.of_map _ h'.nodup)]
  rintro ⟨id, s⟩
  rw [h.mem_iff, h'.mem_iff]

theorem IsScored.of_perm (h : IsScored K metric query m L)
    (hperm : L'.Perm L) : IsScored K metric query m L' where
  nodup := (hperm.map _).nodup_iff.mpr h.nodup
  mem_iff id s := hperm.mem_iff.trans (h.mem_iff id s)

theorem IsScored.length_eq (h : IsScored K metric query m L) :
    L.length = {id | (m id).isSome}.ncard := by
  have hset : {id | (m id).isSome} = ↑(L.map Prod.fst).toFinset := by
    ext id
    rw [Set.mem_ofPred_eq, Finset.mem_coe, List.mem_toFinset, List.mem_map]
    constructor
    · intro hsome
      obtain ⟨v, hv⟩ := Option.isSome_iff_exists.mp hsome
      exact ⟨(id, K.distance metric v query),
        (h.mem_iff _ _).mpr ⟨v, hv, rfl⟩, rfl⟩
    · rintro ⟨⟨id', s⟩, hmem, rfl⟩
      obtain ⟨v, hv, -⟩ := (h.mem_iff _ _).mp hmem
      rw [hv]
      rfl
  rw [hset, Set.ncard_coe_finset, List.toFinset_card_of_nodup h.nodup,
    List.length_map]

theorem IsScored.eq_nil (h : IsScored K metric query m L)
    (hm : ∀ id, m id = none) : L = [] := by
  rw [List.eq_nil_iff_forall_not_mem]
  rintro ⟨id, s⟩ hmem
  obtain ⟨v, hv, -⟩ := (h.mem_iff id s).mp hmem
  rw [hm] at hv
  simp at hv

theorem IsScored.mem_scores {V : Set (List F32)}
    (h : IsScored K metric query m L) (hm : ∀ id v, m id = some v → v ∈ V)
    (hquery : query ∈ V) : ∀ x ∈ L, x.2 ∈ K.scores metric V := by
  rintro ⟨id, s⟩ hmem
  obtain ⟨v, hv, rfl⟩ := (h.mem_iff id s).mp hmem
  exact ⟨v, hm id v hv, query, hquery, rfl⟩

end Scored

/-! ## The exact search -/

namespace BruteForceIndex

variable {K : Kernel} {idx : BruteForceIndex} {query : List F32}

/-- The scores of the slots from `slot` on. -/
theorem scoreFrom_returns (h : idx.Valid) {slot : ℕ}
    {ids : List (Option UInt64)} (hlength : slot + ids.length ≤ idx.ids.length) :
    Returns (idx.scoreFrom K query slot ids) (fun L =>
      L.map Prod.fst = ids.reduceOption ∧
        ∀ id s, (id, s) ∈ L ↔ ∃ j, ids[j]? = some (some id) ∧
          s = K.distance idx.metric query
            (RowMajor.row idx.dim idx.vectors (slot + j))) := by
  induction ids generalizing slot with
  | nil =>
      refine Returns.pure ⟨rfl, fun id s => ?_⟩
      simp
  | cons o ids ih =>
      rw [List.length_cons] at hlength
      have hshift : ∀ (id : UInt64) (s : F32), (∃ j,
          ids[j]? = some (some id) ∧ s = K.distance idx.metric query
            (RowMajor.row idx.dim idx.vectors (slot + 1 + j))) ↔
          ∃ j, (o :: ids)[j + 1]? = some (some id) ∧
            s = K.distance idx.metric query
              (RowMajor.row idx.dim idx.vectors (slot + (j + 1))) := by
        intro id s
        simp only [List.getElem?_cons_succ, Nat.add_assoc, Nat.add_comm 1]
      have hsplit : ∀ (id : UInt64) (s : F32), (∃ j,
          (o :: ids)[j]? = some (some id) ∧ s = K.distance idx.metric query
            (RowMajor.row idx.dim idx.vectors (slot + j))) ↔
          (o = some id ∧ s = K.distance idx.metric query
            (RowMajor.row idx.dim idx.vectors slot)) ∨
          ∃ j, (o :: ids)[j + 1]? = some (some id) ∧
            s = K.distance idx.metric query
              (RowMajor.row idx.dim idx.vectors (slot + (j + 1))) := by
        intro id s
        rw [← Nat.or_exists_add_one]
        simp
      cases o with
      | none =>
          rw [scoreFrom]
          refine (ih (by omega)).mono fun L hL => ⟨hL.1, fun id s => ?_⟩
          rw [hL.2, hshift, hsplit]
          simp
      | some id₀ =>
          rw [scoreFrom]
          have hrow : idx.row slot =
              .ok (RowMajor.row idx.dim idx.vectors slot) :=
            if_pos (row_le h (by omega))
          obtain ⟨L, hL, hfst, hmem⟩ := @ih (slot + 1) (by omega)
          rw [hrow, hL]
          refine Returns.pure ⟨?_, fun id s => ?_⟩
          · rw [List.map_cons, hfst]
            rfl
          · rw [List.mem_cons, hmem, hshift, hsplit, Prod.mk.injEq]
            simp only [Option.some.injEq, @eq_comm _ id₀]

/-- No id has two slots. -/
theorem nodup_ids (h : idx.Valid) : idx.ids.reduceOption.Nodup := by
  rw [List.reduceOption, List.Nodup, List.pairwise_filterMap,
    List.pairwise_iff_getElem]
  intro i j hi hj hij id hid id' hid' heq
  have hslot := (h.index_iff id i).mpr
    (hid ▸ List.getElem?_eq_getElem hi)
  have hslot' := (h.index_iff id j).mpr
    (heq ▸ hid' ▸ List.getElem?_eq_getElem hj)
  rw [hslot, Option.some.injEq] at hslot'
  omega

/-- Scoring every slot gives every point with its distance to the query. -/
theorem isScored_scoreFrom (h : idx.Valid) {V : Set (List F32)}
    (hK : K.Ordered idx.metric V)
    (hV : ∀ id v, idx.store id = some v → v ∈ V) (hquery : query ∈ V) :
    Returns (idx.scoreFrom K query 0 idx.ids)
      (IsScored K idx.metric query idx.store) := by
  refine (scoreFrom_returns h (by omega)).mono ?_
  rintro L ⟨hfst, hmem⟩
  refine ⟨hfst ▸ nodup_ids h, fun id s => ?_⟩
  rw [hmem]
  constructor
  · rintro ⟨slot, hslot, rfl⟩
    have hstore : idx.store id =
        some (RowMajor.row idx.dim idx.vectors slot) := by
      rw [store, (h.index_iff id slot).mpr hslot, Option.map_some]
    refine ⟨_, hstore, ?_⟩
    rw [Nat.zero_add]
    exact hK.symm _ hquery _ (hV id _ hstore)
  · rintro ⟨v, hv, rfl⟩
    have hvV := hV id v hv
    obtain ⟨slot, hslot, rfl⟩ := Option.map_eq_some_iff.mp hv
    refine ⟨slot, (h.index_iff id slot).mp hslot, ?_⟩
    rw [Nat.zero_add]
    exact hK.symm _ hvV _ hquery

theorem store_eq_none_of_live (h : idx.Valid) (hlive : idx.live = 0)
    (id : UInt64) : idx.store id = none := by
  have hsize := h.live_eq.symm.trans hlive
  have hids : idx.idToSlot = ∅ := by
    rwa [← Std.ExtTreeMap.isEmpty_iff,
      Std.ExtTreeMap.isEmpty_eq_size_beq_zero, beq_iff_eq]
  rw [store, hids]
  simp

/-- The exact search returns the first `k` of all points in order. -/
theorem search_sorted (h : idx.Valid) {V : Set (List F32)}
    (hK : K.Ordered idx.metric V)
    (hV : ∀ id v, idx.store id = some v → v ∈ V) (hquery : query ∈ V)
    (hdim : query.length = idx.dim) (k : ℕ) :
    Returns (idx.search K query k) (fun bs => ∃ L,
      IsScored K idx.metric query idx.store L ∧
        L.Pairwise (K.scoreOrder · ·) ∧ bs = L.take k) := by
  obtain ⟨L, hL, hscored⟩ := isScored_scoreFrom h hK hV hquery
  have horder := hK.preorderOn_scoreLe (hscored.mem_scores hV hquery)
  refine ⟨_, ?_, L.mergeSort (scoreLe K),
    hscored.of_perm (List.mergeSort_perm _ _), ?_, rfl⟩
  · rw [search, if_neg (not_not_intro hdim)]
    split_ifs with hempty
    · rcases hempty with rfl | hlive
      · rfl
      · rw [hscored.eq_nil (store_eq_none_of_live h hlive),
          List.mergeSort_nil, List.take_nil]
        rfl
    · rw [hL]
      rfl
  · refine (pairwise_mergeSort horder).imp fun hab => ?_
    rw [scoreLe] at hab
    rw [Kernel.scoreOrder]
    revert hab
    cases K.cmp _ _ <;> simp

end BruteForceIndex

/-! ## The graph search -/

/-- Equal scores, place by place, up to ties of the comparison. -/
def SameScores (K : Kernel) (hs bs : List (UInt64 × F32)) : Prop :=
  List.Forall₂ (fun a b => K.cmp a.2 b.2 = .eq) hs bs

theorem Kernel.Ordered.sameScores {K : Kernel} {metric : Metric}
    {V : Set (List F32)} (h : K.Ordered metric V) {L L' : List (UInt64 × F32)}
    (hL : ∀ x ∈ L, x.2 ∈ K.scores metric V) (hperm : L.Perm L')
    (hsorted : L.Pairwise (K.scoreOrder · ·))
    (hsorted' : L'.Pairwise (K.scoreOrder · ·)) (k : ℕ) :
    SameScores K (L.take k) (L'.take k) := by
  have hties := forall₂_of_perm (h.preorderOn hL) hperm hsorted hsorted'
  apply List.forall₂_take
  rw [List.forall₂_iff_get] at hties ⊢
  refine ⟨hties.1, fun i hi hi' => ?_⟩
  obtain ⟨hle, hge⟩ := hties.2 i hi hi'
  rw [h.swap _ (hL _ (List.get_mem L ⟨i, hi⟩)) _
    (hL _ (hperm.mem_iff.mpr (List.get_mem L' ⟨i, hi'⟩)))] at hge
  revert hle hge
  cases K.cmp _ _ <;> simp

namespace HnswIndex

variable {K : Kernel} {idx : HnswIndex} {query : List F32}

/-- The node from which the base layer is searched. -/
def Starts (K : Kernel) (idx : HnswIndex) (query : List F32) (start : ℕ) :
    Prop :=
  ∃ entry node entryLevel, idx.entryPoint = some entry ∧
    idx.nodes[entry]? = some node ∧ node.topLayer = .ok entryLevel ∧
    descend K idx.metric idx.nodes query 0 entryLevel entry = .ok start

theorem Starts.unique {start start' : ℕ} (h : idx.Starts K query start)
    (h' : idx.Starts K query start') : start' = start := by
  obtain ⟨entry, node, level, hentry, hget, hlevel, hdescend⟩ := h
  obtain ⟨entry', node', level', hentry', hget', hlevel', hdescend'⟩ := h'
  rw [hentry, Option.some.injEq] at hentry'
  subst hentry'
  rw [hget, Option.some.injEq] at hget'
  subst hget'
  rw [hlevel, Except.ok.injEq] at hlevel'
  subst hlevel'
  rw [hdescend, Except.ok.injEq] at hdescend'
  exact hdescend'.symm

/-- The node of the id can be reached on the base layer from where the descent
for the query ends. -/
def Reaches (K : Kernel) (idx : HnswIndex) (query : List F32) (id : UInt64) :
    Prop :=
  ∃ start i, idx.Starts K query start ∧ idx.idToNode[id]? = some i ∧
    ReachableOn idx.nodes 0 start i

open Classical in
/-- The points whose nodes can be reached. -/
noncomputable def reached (K : Kernel) (idx : HnswIndex) (query : List F32) :
    VectorStore :=
  fun id => if idx.Reaches K query id then idx.store id else none

/-- No node has a tombstone. -/
def AllLive (idx : HnswIndex) : Prop := ∀ d ∈ idx.deleted, d = false

theorem store_of_node (h : idx.WellFormed) (hlive : idx.AllLive) {i : ℕ}
    {node : Node} (hnode : idx.nodes[i]? = some node) :
    idx.idToNode[node.id]? = some i ∧ idx.deleted[i]? = some false ∧
      idx.store node.id = some node.vector := by
  have hid : idx.idToNode[node.id]? = some i :=
    (h.structured.idToNode node.id i).mpr ⟨node, hnode, rfl⟩
  obtain ⟨node', dead, hnode', -, hdead, hstore⟩ := exists_node h.valid hid
  rw [hnode, Option.some.injEq] at hnode'
  subst hnode'
  have hfalse := hlive dead (List.mem_of_getElem? hdead)
  subst hfalse
  exact ⟨hid, hdead, by simpa using hstore⟩

/-- The result for a candidate. -/
def resultOf (nodes : Nodes) (c : Candidate) : UInt64 × F32 :=
  ((nodes[c.node]?.map Node.id).getD 0, c.dist)

theorem resultOf_of_node {nodes : Nodes} {c : Candidate} {node : Node}
    (hnode : nodes[c.node]? = some node) :
    resultOf nodes c = (node.id, c.dist) := by
  rw [resultOf, hnode]
  rfl

/-- Without tombstones the result loop takes the first candidates. -/
theorem collect_eq (h : idx.WellFormed) (hlive : idx.AllLive) {k : ℕ}
    {found : List Candidate} {out : List (UInt64 × F32)}
    (hfound : ∀ c ∈ found, ∃ node, idx.nodes[c.node]? = some node)
    (hout : out.length < k) :
    idx.collect k found out =
      .ok (out ++ (found.map (resultOf idx.nodes)).take (k - out.length)) := by
  induction found generalizing out with
  | nil =>
      rw [List.map_nil, List.take_nil, List.append_nil]
      rfl
  | cons c found ih =>
      obtain ⟨node, hnode⟩ := hfound c List.mem_cons_self
      have hrest := fun x hx => hfound x (List.mem_cons_of_mem c hx)
      obtain ⟨n, hn⟩ := Nat.exists_eq_add_one_of_ne_zero
        (Nat.sub_ne_zero_of_lt hout)
      have hnodeAt := nodeAt_of_getElem? hnode
      rw [collect, (store_of_node h hlive hnode).2.1, List.map_cons, hn,
        List.take_succ_cons, resultOf_of_node hnode, List.append_cons]
      simp only [hnodeAt, bind, Except.bind]
      have hlength : (out ++ [(node.id, c.dist)]).length = out.length + 1 :=
        List.length_append
      split_ifs with hfull
      · have hzero : n = 0 := by omega
        rw [hzero, List.take_zero, List.append_nil]
        rfl
      · rw [ih hrest (by omega)]
        have hroom : k - (out ++ [(node.id, c.dist)]).length = n := by omega
        rw [hroom]

/-- What an exhaustive search finds, as results, are the points whose nodes can
be reached. -/
theorem isScored_of_findsAll (h : idx.WellFormed) (hlive : idx.AllLive)
    {start : ℕ} (hstart : idx.Starts K query start)
    (hreach : ∀ n, ReachableOn idx.nodes 0 start n → n < idx.nodes.length)
    {found : List Candidate}
    (hfound : FindsAll K idx.metric idx.nodes query 0 start found) :
    IsScored K idx.metric query (idx.reached K query)
      (found.map (resultOf idx.nodes)) := by
  have hnode : ∀ c ∈ found, ∃ node, idx.nodes[c.node]? = some node ∧
      c.dist = K.distance idx.metric node.vector query := by
    intro c hc
    have hlt := hreach c.node
      ((hfound.mem_iff c.node).mp (List.mem_map_of_mem hc))
    have hget := List.getElem?_eq_getElem hlt
    refine ⟨_, hget, ?_⟩
    have hdist := hfound.dist_eq c hc
    rw [dist_of_getElem? hget] at hdist
    exact (Except.ok.inj hdist).symm
  constructor
  · rw [List.map_map]
    apply List.Nodup.map_on ?_ (List.Nodup.of_map _ hfound.nodup)
    intro c hc c' hc' heq
    obtain ⟨node, hget, hdist⟩ := hnode c hc
    obtain ⟨node', hget', hdist'⟩ := hnode c' hc'
    simp only [Function.comp_apply, resultOf_of_node hget,
      resultOf_of_node hget'] at heq
    have hid := (store_of_node h hlive hget).1
    rw [heq, (store_of_node h hlive hget').1, Option.some.injEq] at hid
    rw [← hid, hget', Option.some.injEq] at hget
    cases c
    cases c'
    simp_all
  · intro id s
    rw [List.mem_map]
    constructor
    · rintro ⟨c, hc, heq⟩
      obtain ⟨node, hget, hdist⟩ := hnode c hc
      rw [resultOf_of_node hget, Prod.mk.injEq] at heq
      obtain ⟨rfl, rfl⟩ := heq
      obtain ⟨hid, -, hstore⟩ := store_of_node h hlive hget
      refine ⟨node.vector, ?_, hdist⟩
      rw [reached, if_pos, hstore]
      exact ⟨start, c.node, hstart, hid,
        (hfound.mem_iff c.node).mp (List.mem_map_of_mem hc)⟩
    · rintro ⟨v, hv, rfl⟩
      rw [reached] at hv
      split_ifs at hv with hreaches
      obtain ⟨start', i, hstart', hid, hi⟩ := hreaches
      rw [hstart.unique hstart'] at hi
      obtain ⟨c, hc, rfl⟩ := List.mem_map.mp ((hfound.mem_iff i).mpr hi)
      obtain ⟨node, hget, hdist⟩ := hnode c hc
      obtain ⟨node', hget', rfl⟩ := (h.structured.idToNode id c.node).mp hid
      rw [hget, Option.some.injEq] at hget'
      subst hget'
      rw [(store_of_node h hlive hget).2.2, Option.some.injEq] at hv
      refine ⟨c, hc, ?_⟩
      rw [resultOf_of_node hget, hdist, hv]

theorem store_of_reached {id : UInt64} {v : List F32}
    (hv : idx.reached K query id = some v) : idx.store id = some v := by
  rw [reached] at hv
  split_ifs at hv
  exact hv

theorem reached_of_no_entry (hentry : idx.entryPoint = none) (id : UInt64) :
    idx.reached K query id = none := by
  rw [reached, if_neg]
  rintro ⟨start, i, ⟨entry, node, level, hentry', -⟩, -⟩
  rw [hentry] at hentry'
  simp at hentry'

theorem reached_of_len (h : idx.Valid) (hlen : idx.len = 0) (id : UInt64) :
    idx.reached K query id = none := by
  by_contra hsome
  obtain ⟨v, hv⟩ := Option.ne_none_iff_exists'.mp hsome
  rw [len_eq h, Set.ncard_eq_zero] at hlen
  have hmem : id ∈ {id | (idx.store id).isSome} := by
    rw [Set.mem_ofPred_eq, store_of_reached hv]
    rfl
  rw [hlen] at hmem
  exact hmem

/-- An exhaustive search returns the first `k` of the reached points in
order. -/
theorem search_sorted (h : idx.WellFormed) (hlive : idx.AllLive)
    {V : Set (List F32)} (hK : K.Ordered idx.metric V)
    (hV : ∀ id v, idx.store id = some v → v ∈ V) (hquery : query ∈ V)
    (hdim : query.length = idx.dim) {k : ℕ} (hfits : k < 2 ^ 59) {ef : ℕ}
    (hef : idx.nodes.length ≤ ef) :
    Returns (idx.search K query k ef) (fun hs => ∃ L,
      IsScored K idx.metric query (idx.reached K query) L ∧
        L.Pairwise (K.scoreOrder · ·) ∧ hs = L.take k) := by
  rw [search, if_neg (not_not_intro hdim)]
  cases hentry : idx.entryPoint with
  | none =>
      have hscored : IsScored K idx.metric query (idx.reached K query) [] :=
        ⟨List.nodup_nil, fun id s => by simp [reached_of_no_entry hentry]⟩
      refine ⟨[], ?_, [], hscored, List.Pairwise.nil, List.take_nil.symm⟩
      split_ifs <;> rfl
  | some entry =>
      have hlinked := h.valid.linked
      obtain ⟨node, hnode, -⟩ := h.entry_top entry hentry
      have hnodeAt := nodeAt_of_getElem? hnode
      obtain ⟨level, hlevel, hlt⟩ := topLayer_returns
        (h.valid.heights node (List.mem_of_getElem? hnode))
      obtain ⟨start, hdescend, hstart⟩ := @descend_returns K idx.metric
        idx.nodes query hlinked 0 level entry ⟨node, hnode, hlt⟩
      rw [Nat.zero_min] at hstart
      obtain ⟨found, hsearch, hfound⟩ := @searchLayer_findsAll K idx.metric
        idx.nodes 0 query start (max ef k) hlinked hstart
        (hef.trans (le_max_left _ _))
      have hreach : ∀ n, ReachableOn idx.nodes 0 start n →
          n < idx.nodes.length :=
        fun n hn => (hlinked.hasLayer_of_reachable hstart hn).lt_length
      have hsort := Candidate.sortByDist_perm K found
      have hscored := (isScored_of_findsAll h hlive
        ⟨entry, node, level, hentry, hnode, hlevel, hdescend⟩ hreach
        hfound).of_perm (hsort.map (resultOf idx.nodes))
      have hscores := hscored.mem_scores
        (fun id v hv => hV id v (store_of_reached hv)) hquery
      have hordered := pairwise_mergeSort (hK.preorderOn fun c hc =>
        hscores _ (List.mem_map_of_mem (hsort.mem_iff.mpr hc)))
      refine ⟨_, ?_, _, hscored, List.pairwise_map.mpr hordered, rfl⟩
      split_ifs with hempty
      · rcases hempty with rfl | hlen
        · rfl
        · rw [hscored.eq_nil (reached_of_len h.valid hlen), List.take_nil]
          rfl
      · rw [not_or] at hempty
        have hcollect := @collect_eq idx h hlive k
          (Candidate.sortByDist K found) [] ?_ (Nat.pos_of_ne_zero hempty.1)
        · have hcapacity : withCapacity 16 k = .ok () :=
            withCapacity_of_lt (by omega)
          simp only [hnodeAt, hlevel, hdescend, hsearch, bind, Except.bind,
            hcapacity, hcollect]
          rfl
        · intro c hc
          have hlt := hreach c.node ((hfound.mem_iff c.node).mp
            (List.mem_map_of_mem (hsort.mem_iff.mp hc)))
          exact ⟨_, List.getElem?_eq_getElem hlt⟩

end HnswIndex

end Quorvec
