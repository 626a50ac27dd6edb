import Quorvec.Hnsw.Index
import Quorvec.Hnsw.Linked
import Quorvec.Support.PartialCorrectness
import Quorvec.Support.SlotTable

/-!
# The index as a keyed store

A valid index is a linked graph whose keyed part is a coherent slot table.  On
a valid index no operation panics, every operation keeps validity, and the
operations are those of a partial map from ids to vectors.
-/

namespace Quorvec

open TotalCorrectness PartialCorrectness

namespace HnswIndex

/-- The keyed part of the index. -/
def table (idx : HnswIndex) : SlotTable UInt64 (List F32) where
  slots := idx.nodes.map fun node => (node.id, node.vector)
  index := fun id => idx.idToNode[id]?
  deleted := idx.deleted
  live := idx.live

/-- The partial map from live ids to vectors. -/
def store (idx : HnswIndex) : UInt64 → Option (List F32) := idx.table.lookup

/-- What every operation keeps. -/
structure Valid (idx : HnswIndex) : Prop where
  coherent : idx.table.Coherent
  linked : Linked idx.nodes
  dims : ∀ node ∈ idx.nodes, node.vector.length = idx.dim
  heights : ∀ node ∈ idx.nodes, 0 < node.neighbors.length
  entry_lt : ∀ e, idx.entryPoint = some e → e < idx.nodes.length

/-- The fields that no operation changes. -/
structure SameKind (idx idx' : HnswIndex) : Prop where
  dim : idx'.dim = idx.dim
  metric : idx'.metric = idx.metric
  params : idx'.params = idx.params

/-- The outcome of an operation that updates the store at `id`. -/
structure Updated (idx : HnswIndex) (id : UInt64) (v : Option (List F32))
    (idx' : HnswIndex) : Prop where
  valid : idx'.Valid
  kind : idx.SameKind idx'
  store_eq : idx'.store = Function.update idx.store id v

/-! ## The empty index -/

theorem withParams_returns {dim : ℕ} {metric : Metric} {params : HnswParams}
    {seed : UInt64} (hdim : 0 < dim) (hm : 2 ≤ params.m)
    (hm0 : params.m ≤ params.m0) (hef : 1 ≤ params.efConstruction) :
    Returns (withParams dim metric params seed) (fun idx =>
      idx.Valid ∧ idx.dim = dim ∧ idx.metric = metric ∧
        idx.store = fun _ => none) := by
  rw [withParams, if_pos ⟨hdim, hm, hm0, hef⟩]
  refine Returns.ok ⟨⟨?_, ?_, ?_, ?_, ?_⟩, rfl, rfl, ?_⟩
  · exact
      { length_deleted := rfl
        index_iff := fun k i => by simp [table]
        live_eq := rfl }
  · intro node hnode
    simp at hnode
  · intro node hnode
    simp at hnode
  · intro node hnode
    simp at hnode
  · intro e he
    simp at he
  · funext id
    simp [store, SlotTable.lookup, table]

theorem admissible_of_withParams {dim : ℕ} {metric : Metric}
    {params : HnswParams} {seed : UInt64} {idx : HnswIndex}
    (h : withParams dim metric params seed = .ok idx) :
    0 < dim ∧ 2 ≤ params.m ∧ params.m ≤ params.m0 ∧
      1 ≤ params.efConstruction := by
  by_contra hnot
  rw [withParams, if_neg hnot] at h
  simp at h

theorem fits_of_withParams {dim : ℕ} {metric : Metric}
    {params : HnswParams} {seed : UInt64} {idx : HnswIndex}
    (h : withParams dim metric params seed = .ok idx)
    (hm0 : params.m0 < 2 ^ 61) : idx.params.Fits := by
  have hadmissible := admissible_of_withParams h
  rw [withParams, if_pos hadmissible, Except.ok.injEq] at h
  rw [← h]
  exact ⟨hadmissible.2.2.1.trans_lt hm0, hm0⟩

theorem new_returns {dim : ℕ} (metric : Metric) (hdim : 0 < dim) :
    Returns (new dim metric) (fun idx =>
      idx.Valid ∧ idx.dim = dim ∧ idx.metric = metric ∧
        idx.store = fun _ => none) :=
  withParams_returns hdim (by decide) (by decide) (by decide)

/-! ## Inserting a new id -/

theorem table_allocate (idx : HnswIndex) (nodeLevel : ℕ) (rng : SplitMix64)
    (id : UInt64) (vector : List F32) :
    (idx.allocate nodeLevel rng id vector).table =
      idx.table.push id vector := by
  simp only [table, allocate, SlotTable.push, List.map_append, List.map_cons,
    List.map_nil, List.length_map, SlotTable.mk.injEq, and_true, true_and]
  funext k
  rw [Std.ExtTreeMap.getElem?_insert, Function.update_apply]
  by_cases hk : k = id
  · simp [hk]
  · simp [hk, Ne.symm hk]

/-- Everything but the entry point is in place after the allocation. -/
theorem allocate_valid {idx : HnswIndex} (h : idx.Valid) {id : UInt64}
    (hid : idx.idToNode[id]? = none) {vector : List F32}
    (hdim : vector.length = idx.dim) (nodeLevel : ℕ) (rng : SplitMix64) :
    Updated idx id (some vector) (idx.allocate nodeLevel rng id vector) := by
  refine ⟨⟨?_, ?_, ?_, ?_, ?_⟩, ⟨rfl, rfl, rfl⟩, ?_⟩
  · rw [table_allocate]
    exact SlotTable.coherent_push h.coherent hid vector
  · exact h.linked.append_isolated id vector (nodeLevel + 1)
  · intro node hnode
    rcases List.mem_append.mp hnode with hold | hnew
    · exact h.dims node hold
    · rw [List.mem_singleton.mp hnew]
      exact hdim
  · intro node hnode
    rcases List.mem_append.mp hnode with hold | hnew
    · exact h.heights node hold
    · rw [List.mem_singleton.mp hnew]
      simp
  · intro e he
    have hlt := h.entry_lt e he
    simp only [allocate, List.length_append, List.length_singleton]
    omega
  · rw [store, table_allocate, SlotTable.lookup_push h.coherent]
    rfl

theorem slots_of_shape_eq {nodes nodes' : Nodes}
    (h : shape nodes' = shape nodes) :
    nodes'.map (fun node => (node.id, node.vector)) =
      nodes.map fun node => (node.id, node.vector) := by
  have hproj := congrArg (List.map fun s : UInt64 × List F32 × ℕ =>
    (s.1, s.2.1)) h
  simpa [shape, Function.comp_def] using hproj

theorem forall_of_shape_eq {nodes nodes' : Nodes}
    (h : shape nodes' = shape nodes) {P : List F32 → ℕ → Prop}
    (hP : ∀ node ∈ nodes, P node.vector node.neighbors.length) :
    ∀ node ∈ nodes', P node.vector node.neighbors.length := by
  intro node hnode
  have hmem : (node.id, node.vector, node.neighbors.length) ∈ shape nodes := by
    rw [← h]
    exact List.mem_map_of_mem hnode
  obtain ⟨old, hold, heq⟩ := List.mem_map.mp hmem
  simp only [Prod.mk.injEq] at heq
  rw [← heq.2.1, ← heq.2.2]
  exact hP old hold

/-- Wiring keeps validity and the store. -/
theorem Updated.wired {idx idx' : HnswIndex} {id : UInt64}
    {v : Option (List F32)} (h : Updated idx id v idx') {nodes : Nodes}
    (hnodes : Wired idx'.nodes nodes) {entry : Option ℕ}
    (hentry : ∀ e, entry = some e → e < idx'.nodes.length) :
    Updated idx id v { idx' with nodes, entryPoint := entry } := by
  have htable : ({ idx' with nodes, entryPoint := entry } : HnswIndex).table =
      idx'.table := by
    simp only [table, slots_of_shape_eq hnodes.shape_eq]
  refine ⟨⟨?_, hnodes.linked, ?_, ?_, ?_⟩,
    ⟨h.kind.dim, h.kind.metric, h.kind.params⟩, ?_⟩
  · rw [htable]
    exact h.valid.coherent
  · exact forall_of_shape_eq (P := fun v _ => v.length = idx'.dim)
      hnodes.shape_eq h.valid.dims
  · exact forall_of_shape_eq (P := fun _ n => 0 < n) hnodes.shape_eq
      h.valid.heights
  · intro e he
    rw [length_eq_of_shape_eq hnodes.shape_eq]
    exact hentry e he
  · rw [store, htable]
    exact h.store_eq

section Operations

variable {K : Kernel} {idx : HnswIndex}

theorem hasLayer_zero (h : idx.Valid) {e : ℕ} (he : e < idx.nodes.length) :
    HasLayer idx.nodes e 0 :=
  ⟨idx.nodes[e], List.getElem?_eq_getElem he,
    h.heights _ (List.getElem_mem he)⟩

/-- The node of an id. -/
theorem exists_node (h : idx.Valid) {id : UInt64} {i : ℕ}
    (hid : idx.idToNode[id]? = some i) :
    ∃ node dead, idx.nodes[i]? = some node ∧ node.id = id ∧
      idx.deleted[i]? = some dead ∧
      idx.store id = if dead then none else some node.vector := by
  obtain ⟨v, hslot, dead, hdead, hlookup⟩ := h.coherent.exists_slot hid
  obtain ⟨node, hnode, heq⟩ := List.getElem?_map .. ▸ hslot |>
    Option.map_eq_some_iff.mp
  rw [Prod.mk.injEq] at heq
  exact ⟨node, dead, hnode, heq.1, hdead, by rw [store, hlookup, heq.2]⟩

theorem store_of_absent {id : UInt64} (hid : idx.idToNode[id]? = none) :
    idx.store id = none :=
  SlotTable.lookup_of_index_none hid

/-- Stored vectors have the index's dimension. -/
theorem length_of_store (h : idx.Valid) {id : UInt64} {v : List F32}
    (hv : idx.store id = some v) : v.length = idx.dim := by
  cases hid : idx.idToNode[id]? with
  | none =>
      rw [store_of_absent hid] at hv
      simp at hv
  | some i =>
      obtain ⟨node, dead, hnode, -, -, hstore⟩ := exists_node h hid
      rw [hstore] at hv
      split_ifs at hv
      rw [← Option.some.inj hv]
      exact h.dims node (List.mem_of_getElem? hnode)

/-- Wiring the node that has just been allocated. -/
theorem connect_returns {idx₀ : HnswIndex} {id : UInt64} {vector : List F32}
    (h : Updated idx₀ id (some vector) idx) (hfits : idx.params.Fits)
    {entry nodeLevel newIdx : ℕ}
    (hentry : entry < idx.nodes.length)
    (hnew : HasLayer idx.nodes newIdx nodeLevel) :
    Returns (idx.connect K entry nodeLevel newIdx vector)
      (Updated idx₀ id (some vector)) := by
  have hlinked := h.valid.linked
  refine (nodeAt_returns (hasLayer_zero h.valid hentry)).bind
    fun node hnode => ?_
  refine (topLayer_returns hnode.2).bind fun entryLevel hlevel => ?_
  have htop : HasLayer idx.nodes entry entryLevel := ⟨node, hnode.1, hlevel⟩
  refine (descend_returns hlinked htop).bind fun curr hcurr => ?_
  refine (connectLayers_returns (fun l _ => mMax_fits hfits l) hlinked ?_
    ?_).bind fun nodes hnodes => ?_
  · intro l hl
    exact hnew.mono (by omega)
  · intro l hl
    exact hcurr.mono (by omega)
  · refine Returns.pure (h.wired hnodes fun e he => ?_)
    split_ifs at he
    · rw [← Option.some.inj he]
      obtain ⟨new, hnewNode, -⟩ := hnew
      exact (List.getElem?_eq_some_iff.mp hnewNode).1
    · exact h.valid.entry_lt e he

/-- The first node is the entry point. -/
theorem insertNew_of_none (hentry : idx.entryPoint = none) (id : UInt64)
    (vector : List F32) :
    idx.insertNew K id vector =
      .ok { idx.allocate (idx.randomLevel K).1 (idx.randomLevel K).2 id vector
        with entryPoint := some idx.nodes.length } := by
  have hallocated : (idx.allocate (idx.randomLevel K).1 (idx.randomLevel K).2
      id vector).entryPoint = none := hentry
  simp only [insertNew, hallocated]
  rfl

/-- Later nodes are wired from the entry point. -/
theorem insertNew_of_some {entry : ℕ} (hentry : idx.entryPoint = some entry)
    (id : UInt64) (vector : List F32) :
    idx.insertNew K id vector =
      (idx.allocate (idx.randomLevel K).1 (idx.randomLevel K).2 id
        vector).connect K entry (idx.randomLevel K).1 idx.nodes.length
          vector := by
  have hallocated : (idx.allocate (idx.randomLevel K).1 (idx.randomLevel K).2
      id vector).entryPoint = some entry := hentry
  simp only [insertNew, hallocated]

theorem getElem?_allocate (nodeLevel : ℕ) (rng : SplitMix64) (id : UInt64)
    (vector : List F32) :
    (idx.allocate nodeLevel rng id vector).nodes[idx.nodes.length]? =
      some { id, vector, neighbors := List.replicate (nodeLevel + 1) [] } :=
  List.getElem?_concat_length ..

/-- The first node is not wired, so that it needs no capacity. -/
theorem insertNew_returns (hfits : idx.entryPoint ≠ none → idx.params.Fits)
    (h : idx.Valid) {id : UInt64}
    (hid : idx.idToNode[id]? = none) {vector : List F32}
    (hdim : vector.length = idx.dim) :
    Returns (idx.insertNew K id vector) (Updated idx id (some vector)) := by
  have halloc := allocate_valid h hid hdim (idx.randomLevel K).1
    (idx.randomLevel K).2
  cases hentry : idx.entryPoint with
  | none =>
      rw [insertNew_of_none hentry]
      refine Returns.ok (halloc.wired (Wired.refl halloc.valid.linked)
        fun e he => ?_)
      rw [← Option.some.inj he]
      simp [allocate]
  | some entry =>
      rw [insertNew_of_some hentry]
      refine connect_returns halloc (hfits (by simp [hentry])) ?_
        ⟨_, getElem?_allocate .., by simp⟩
      have hlt := h.entry_lt entry hentry
      simp only [allocate, List.length_append, List.length_singleton]
      omega

/-! ## Replacing, deleting and reading -/

theorem linked_set_vector {nodes : Nodes} (h : Linked nodes) {i : ℕ}
    {node : Node} (hnode : nodes[i]? = some node) (vector : List F32) :
    Linked (nodes.set i { node with vector }) := by
  have hi := (List.getElem?_eq_some_iff.mp hnode).1
  have hlayer : ∀ {n layer}, HasLayer nodes n layer →
      HasLayer (nodes.set i { node with vector }) n layer := by
    rintro n layer ⟨old, hold, hlt⟩
    by_cases hin : i = n
    · subst hin
      rw [hnode, Option.some.injEq] at hold
      exact ⟨_, List.getElem?_set_self hi, hold ▸ hlt⟩
    · exact ⟨old, by rw [List.getElem?_set_ne hin, hold], hlt⟩
  intro node' hnode' layer adj hadj n hn
  rcases List.mem_or_eq_of_mem_set hnode' with hold | rfl
  · exact hlayer (h node' hold layer adj hadj n hn)
  · exact hlayer (h node (List.mem_of_getElem? hnode) layer adj hadj n hn)

/-- Any index in which just the node's vector is another. -/
theorem updated_of_overwrite (h : idx.Valid) {i : ℕ} {node : Node}
    (hid : idx.idToNode[node.id]? = some i) (hnode : idx.nodes[i]? = some node)
    {vector : List F32} (hdim : vector.length = idx.dim) {idx' : HnswIndex}
    (htable : idx'.table = idx.table.overwrite i node.id vector)
    (hnodes : idx'.nodes = idx.nodes.set i { node with vector })
    (hkind : idx.SameKind idx') (hentry : idx'.entryPoint = idx.entryPoint) :
    Updated idx node.id (some vector) idx' := by
  have hset : ∀ node' ∈ idx.nodes.set i { node with vector },
      node'.vector.length = idx.dim ∧ 0 < node'.neighbors.length := by
    intro node' hnode'
    rcases List.mem_or_eq_of_mem_set hnode' with hold | rfl
    · exact ⟨h.dims node' hold, h.heights node' hold⟩
    · exact ⟨hdim, h.heights node (List.mem_of_getElem? hnode)⟩
  refine ⟨⟨?_, ?_, ?_, ?_, ?_⟩, hkind, ?_⟩
  · rw [htable]
    exact SlotTable.coherent_overwrite h.coherent hid vector
  · rw [hnodes]
    exact linked_set_vector h.linked hnode vector
  · rw [hnodes, hkind.dim]
    exact fun node' hnode' => (hset node' hnode').1
  · rw [hnodes]
    exact fun node' hnode' => (hset node' hnode').2
  · rw [hentry, hnodes, List.length_set]
    exact h.entry_lt
  · rw [store, htable, SlotTable.lookup_overwrite h.coherent hid]
    rfl

theorem overwrite_returns (h : idx.Valid) {id : UInt64} {i : ℕ}
    (hid : idx.idToNode[id]? = some i) {vector : List F32}
    (hdim : vector.length = idx.dim) :
    Returns (idx.overwrite i vector) (Updated idx id (some vector)) := by
  obtain ⟨node, dead, hnode, rfl, hdead, -⟩ := exists_node h hid
  have hlen : node.vector.length = vector.length :=
    (h.dims node (List.mem_of_getElem? hnode)).trans hdim.symm
  refine (nodeAt_returns (hasLayer_zero h
    (List.getElem?_eq_some_iff.mp hnode).1)).bind fun node' hnode' => ?_
  rw [hnode, Option.some.injEq] at hnode'
  rw [← hnode'.1, if_neg (not_not_intro hlen)]
  have hslots : (idx.nodes.set i { node with vector }).map
      (fun node => (node.id, node.vector)) =
      (idx.nodes.map fun node => (node.id, node.vector)).set i
        (node.id, vector) :=
    List.map_set
  cases dead with
  | true =>
      simp only [hdead]
      refine Returns.pure (updated_of_overwrite h hid hnode hdim ?_ rfl
        ⟨rfl, rfl, rfl⟩ rfl)
      simp [table, SlotTable.overwrite, hdead, hslots]
  | false =>
      simp only [hdead]
      refine Returns.pure (updated_of_overwrite h hid hnode hdim ?_ rfl
        ⟨rfl, rfl, rfl⟩ rfl)
      have hself : idx.deleted.set i false = idx.deleted := by
        obtain ⟨hi, hd⟩ := List.getElem?_eq_some_iff.mp hdead
        rw [← hd, List.set_getElem_self]
      simp [table, SlotTable.overwrite, hdead, hslots, hself]

theorem insert_returns (hfits : idx.params.Fits) (h : idx.Valid)
    (id : UInt64) {vector : List F32} (hdim : vector.length = idx.dim) :
    Returns (idx.insert K id vector) (Updated idx id (some vector)) := by
  rw [insert, if_neg (not_not_intro hdim)]
  cases hid : idx.idToNode[id]? with
  | some i => exact overwrite_returns h hid hdim
  | none => exact insertNew_returns (fun _ => hfits) h hid hdim

/-- A delete removes the id from the store, and says whether it was there. -/
theorem delete_returns (h : idx.Valid) (id : UInt64) :
    Returns (idx.delete id) (fun r =>
      Updated idx id none r.1 ∧ r.2 = (idx.store id).isSome) := by
  unfold delete
  have hself : idx.store id = none → Updated idx id none idx := by
    intro hnone
    refine ⟨h, ⟨rfl, rfl, rfl⟩, ?_⟩
    rw [← hnone, Function.update_eq_self]
  cases hid : idx.idToNode[id]? with
  | none =>
      have hnone := store_of_absent hid
      exact Returns.pure ⟨hself hnone, by rw [hnone]; rfl⟩
  | some i =>
      obtain ⟨node, dead, hnode, -, hdead, hstore⟩ := exists_node h hid
      cases dead with
      | true =>
          have hnone : idx.store id = none := by simpa using hstore
          simp only [hdead]
          exact Returns.pure ⟨hself hnone, by rw [hnone]; rfl⟩
      | false =>
          simp only [hdead]
          refine Returns.pure ⟨⟨⟨?_, h.linked, h.dims, h.heights,
            h.entry_lt⟩, ⟨rfl, rfl, rfl⟩, ?_⟩, ?_⟩
          · exact SlotTable.coherent_tombstone h.coherent hdead
          · exact SlotTable.lookup_tombstone h.coherent hid
          · simp [hstore]

theorem getVector_eq (h : idx.Valid) (id : UInt64) :
    idx.getVector id = .ok (idx.store id) := by
  unfold getVector
  cases hid : idx.idToNode[id]? with
  | none => rw [store_of_absent hid]; rfl
  | some i =>
      obtain ⟨node, dead, hnode, -, hdead, hstore⟩ := exists_node h hid
      rw [hstore]
      cases dead with
      | true =>
          simp only [hdead]
          rfl
      | false =>
          simp only [hdead, nodeAt, hnode]
          rfl

theorem len_eq (h : idx.Valid) :
    idx.len = {id | (idx.store id).isSome}.ncard :=
  h.coherent.live_eq_ncard

/-! ## Searching -/

theorem collect_returns (h : idx.Valid) {k : ℕ} {found : List Candidate}
    {out : List (UInt64 × F32)}
    (hfound : ∀ c ∈ found, HasLayer idx.nodes c.node 0)
    (hout : ∀ r ∈ out, (idx.store r.1).isSome) :
    Returns (idx.collect k found out)
      (fun out => ∀ r ∈ out, (idx.store r.1).isSome) := by
  induction found generalizing out with
  | nil => exact Returns.pure hout
  | cons c found ih =>
      have hc := hfound c List.mem_cons_self
      have hrest := fun x hx => hfound x (List.mem_cons_of_mem c hx)
      obtain ⟨node, hnode, hheight⟩ := hc
      have hid : idx.idToNode[node.id]? = some c.node :=
        (h.coherent.index_iff node.id c.node).mpr
          ⟨node.vector, by simp [table, hnode]⟩
      obtain ⟨node', dead, hnode', -, hdead, hstore⟩ := exists_node h hid
      rw [collect]
      cases dead with
      | true =>
          simp only [hdead]
          exact ih hrest hout
      | false =>
          simp only [hdead]
          refine (nodeAt_returns ⟨node, hnode, hheight⟩).bind
            fun node'' hnode'' => ?_
          rw [hnode, Option.some.injEq] at hnode''
          have hnext : ∀ r ∈ out ++ [(node''.id, c.dist)],
              (idx.store r.1).isSome := by
            intro r hr
            rcases List.mem_append.mp hr with hr | hr
            · exact hout r hr
            · rw [List.mem_singleton.mp hr, ← hnode''.1, hstore]
              rfl
          split_ifs
          · exact Returns.pure hnext
          · exact ih hrest hnext

/-- A search on a valid index finds live points only. -/
theorem search_returns (h : idx.Valid) {query : List F32}
    (hdim : query.length = idx.dim) {k : ℕ} (hk : 16 * k < 2 ^ 63)
    (efSearch : ℕ) :
    Returns (idx.search K query k efSearch)
      (fun out => ∀ r ∈ out, (idx.store r.1).isSome) := by
  rw [search, if_neg (not_not_intro hdim)]
  split_ifs with hempty
  · exact Returns.pure (by simp)
  cases hentry : idx.entryPoint with
  | none => exact Returns.pure (by simp)
  | some entry =>
      have hlinked := h.linked
      refine (nodeAt_returns (hasLayer_zero h
        (h.entry_lt entry hentry))).bind fun node hnode => ?_
      refine (topLayer_returns hnode.2).bind fun entryLevel hlevel => ?_
      have htop : HasLayer idx.nodes entry entryLevel :=
        ⟨node, hnode.1, hlevel⟩
      refine (descend_returns hlinked htop).bind fun curr hcurr => ?_
      refine (searchLayer_returns hlinked
        (hcurr.mono (Nat.zero_le _))).bind fun found hfound => ?_
      rw [withCapacity_of_lt hk]
      refine collect_returns h (fun c hc => ?_) (by simp)
      exact hfound c ((Candidate.sortByDist_perm K found).mem_iff.mp hc)

/-- A search that returns has found live points only, for every `k`. -/
theorem search_ensures (h : idx.Valid) (query : List F32) (k efSearch : ℕ) :
    Ensures (idx.search K query k efSearch)
      (fun out => ∀ r ∈ out, (idx.store r.1).isSome) := by
  by_cases hdim : query.length = idx.dim
  · by_cases hk : 16 * k < 2 ^ 63
    · exact fun out hout => (search_returns h hdim hk efSearch).of_eq_ok hout
    · rw [search, if_neg (not_not_intro hdim)]
      split_ifs
      · exact Ensures.pure (by simp)
      cases idx.entryPoint with
      | none => exact Ensures.pure (by simp)
      | some entry =>
          simp only [withCapacity_of_not_lt hk]
          exact (Ensures.intro _).bind fun _ _ => (Ensures.intro _).bind
            fun _ _ => (Ensures.intro _).bind fun _ _ =>
              (Ensures.intro _).bind fun _ _ => Ensures.error
  · rw [search, if_pos hdim]
    exact Ensures.error

end Operations

end HnswIndex

end Quorvec
