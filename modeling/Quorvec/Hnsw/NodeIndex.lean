import Quorvec.Hnsw.Structure

/-!
# Node indices of 32 bits

A new node gets the number of nodes as its index, cut to 32 bits.  Up to
`2 ^ 32` nodes this is the index that the graph counts with, and then both
implementations of the index answer every sequence of calls as the store does.
The next new id is mapped to the node of another id.
-/

namespace Quorvec

open TotalCorrectness PartialCorrectness CallMachine

namespace HnswIndex

variable {K : Kernel} {idx : HnswIndex}

section Insert

variable (K)

/-- `insert_new`, with `self.nodes.len() as u32` for the index of the node. -/
def insertNewU32 (idx : HnswIndex) (id : UInt64) (vector : List F32) :
    Except IndexError HnswIndex :=
  let (nodeLevel, rng) := idx.randomLevel K
  let newIdx := idx.nodes.length % 2 ^ 32
  let idx := { idx.allocate nodeLevel rng id vector with
    idToNode := idx.idToNode.insert id newIdx }
  match idx.entryPoint with
  | none => return { idx with entryPoint := some newIdx }
  | some entry => idx.connect K entry nodeLevel newIdx vector

/-- `VectorIndex::insert` with indices of 32 bits. -/
def insertU32 (idx : HnswIndex) (id : UInt64) (vector : List F32) :
    Except IndexError HnswIndex :=
  if vector.length ≠ idx.dim then
    .error (.dimMismatch idx.dim vector.length)
  else match idx.idToNode[id]? with
    | some i => idx.overwrite i vector
    | none => idx.insertNewU32 K id vector

def vectorIndexU32 : VectorIndex HnswIndex :=
  { vectorIndex K with
    insert := fun idx id vector =>
      insertChecked idx.dim idx vector (idx.insertU32 K id vector) }

end Insert

/-- One call under its own kernel, with indices of 32 bits. -/
def callUnderU32 (idx : HnswIndex) (c : Kernel × VectorIndexCall) :
    HnswIndex × VectorIndexResult :=
  (vectorIndexU32 c.1).call idx c.2

theorem insertNewU32_of_lt (h : idx.nodes.length < 2 ^ 32) (id : UInt64)
    (vector : List F32) :
    idx.insertNewU32 K id vector = idx.insertNew K id vector := by
  rw [insertNewU32, Nat.mod_eq_of_lt h]
  rfl

theorem insertU32_of_lt {id : UInt64}
    (h : idx.idToNode[id]? = none → idx.nodes.length < 2 ^ 32)
    (vector : List F32) :
    idx.insertU32 K id vector = idx.insert K id vector := by
  rw [insertU32, insert]
  split_ifs
  · rfl
  · cases hid : idx.idToNode[id]? with
    | some i => rfl
    | none => exact insertNewU32_of_lt (h hid) id vector

/-! ## The ids of the nodes -/

/-- Only ids of `S` have nodes. -/
structure IdsWithin (S : Finset UInt64) (idx : HnswIndex) : Prop where
  wellFormed : idx.WellFormed
  ids : ∀ (id : UInt64) (i : ℕ), idx.idToNode[id]? = some i → id ∈ S

/-- Different nodes have different ids. -/
theorem IdsWithin.length_le {S : Finset UInt64} (h : idx.IdsWithin S) :
    idx.nodes.length ≤ S.card := by
  have hstructured := h.wellFormed.structured
  have hindex : ∀ i (hi : i < idx.nodes.length),
      idx.idToNode[idx.nodes[i].id]? = some i := by
    intro i hi
    exact (hstructured.idToNode _ i).mpr
      ⟨_, List.getElem?_eq_getElem hi, rfl⟩
  have hcard := Finset.card_le_card_of_injOn
    (s := (Finset.univ : Finset (Fin idx.nodes.length))) (t := S)
    (fun i => idx.nodes[i.val].id) (fun i _ => h.ids _ i (hindex i i.isLt))
    (fun i _ j _ heq => ?_)
  · simpa using hcard
  · have hi := hindex i i.isLt
    have hsame : idx.nodes[i.val].id = idx.nodes[j.val].id := heq
    rw [hsame, hindex j j.isLt, Option.some.injEq] at hi
    exact Fin.ext hi.symm

theorem IdsWithin.length_lt {S : Finset UInt64} (h : idx.IdsWithin S)
    {id : UInt64} (hmem : id ∈ S) (hid : idx.idToNode[id]? = none) :
    idx.nodes.length < S.card := by
  have herased : idx.IdsWithin (S.erase id) :=
    { wellFormed := h.wellFormed
      ids := by
        intro k i hk
        refine Finset.mem_erase.mpr ⟨?_, h.ids k i hk⟩
        rintro rfl
        rw [hid] at hk
        simp at hk }
  have hle := herased.length_le
  have hpos := Finset.card_pos.mpr ⟨id, hmem⟩
  rw [Finset.card_erase_of_mem hmem] at hle
  omega

/-- An insert gives a node to its own id only. -/
theorem insert_idToNode (id : UInt64) (vector : List F32) :
    Ensures (idx.insert K id vector) (fun idx' =>
      ∀ (k : UInt64) (i : ℕ), idx'.idToNode[k]? = some i →
        k = id ∨ idx.idToNode[k]? = some i) := by
  have hnew : ∀ nodeLevel rng (k : UInt64) (i : ℕ),
      (idx.allocate nodeLevel rng id vector).idToNode[k]? = some i →
        k = id ∨ idx.idToNode[k]? = some i := by
    intro nodeLevel rng k i hk
    by_cases hsame : k = id
    · exact .inl hsame
    · rw [allocate, Std.ExtTreeMap.getElem?_insert] at hk
      rw [if_neg (by simpa using Ne.symm hsame)] at hk
      exact .inr hk
  rw [insert]
  split_ifs
  · exact Ensures.error
  cases hid : idx.idToNode[id]? with
  | some i =>
      refine (nodeAt_ensures i).bind fun node _ => ?_
      split_ifs
      · exact Ensures.error
      · dsimp only
        split
        · exact Ensures.error
        · exact Ensures.pure fun k i hk => .inr hk
        · exact Ensures.pure fun k i hk => .inr hk
  | none =>
      cases hentry : idx.entryPoint with
      | none =>
          dsimp only
          rw [insertNew_of_none hentry]
          exact Ensures.pure
            (hnew (idx.randomLevel K).1 (idx.randomLevel K).2)
      | some entry =>
          dsimp only
          rw [insertNew_of_some hentry]
          refine (Ensures.intro _).bind fun _ _ => (Ensures.intro _).bind
            fun _ _ => (Ensures.intro _).bind fun _ _ =>
              (Ensures.intro _).bind fun _ _ => ?_
          exact Ensures.pure
            (hnew (idx.randomLevel K).1 (idx.randomLevel K).2)

/-- The ids that the calls insert with a vector of the dimension. -/
def insertedIds (dim : ℕ) (calls : List (Kernel × VectorIndexCall)) :
    Finset UInt64 :=
  (calls.filterMap fun c => match c.2 with
    | .insert id vector => if vector.length = dim then some id else none
    | _ => none).toFinset

theorem mem_insertedIds {dim : ℕ} {calls : List (Kernel × VectorIndexCall)}
    {K : Kernel} {id : UInt64} {vector : List F32}
    (hmem : (K, .insert id vector) ∈ calls) (hdim : vector.length = dim) :
    id ∈ insertedIds dim calls := by
  rw [insertedIds, List.mem_toFinset, List.mem_filterMap]
  exact ⟨_, hmem, if_pos hdim⟩

/-- A call leaves nodes of its own id and of old ones. -/
theorem IdsWithin.call {S : Finset UInt64} (h : idx.IdsWithin S)
    {c : VectorIndexCall}
    (hc : ∀ id vector, c = .insert id vector → vector.length = idx.dim →
      id ∈ S) :
    ((vectorIndex K).call idx c).1.IdsWithin S := by
  refine ⟨(call_wellFormed h.wellFormed c).1, fun k i hk => ?_⟩
  cases c with
  | insert id vector =>
      by_cases hdim : vector.length = idx.dim
      · cases hinsert : idx.insert K id vector with
        | ok idx' =>
            have hcall : (vectorIndex K).insert idx id vector =
                (idx', .ok ()) := insertChecked_of_ok hdim hinsert
            rw [VectorIndex.call, hcall] at hk
            rcases insert_idToNode id vector idx' hinsert k i hk with rfl | hold
            · exact hc k vector rfl hdim
            · exact h.ids k i hold
        | error e =>
            have hcall : (vectorIndex K).insert idx id vector =
                (idx, .error e) := insertChecked_of_error hdim hinsert
            rw [VectorIndex.call, hcall] at hk
            exact h.ids k i hk
      · have hcall : (vectorIndex K).insert idx id vector =
            (idx, .error (.dimMismatch idx.dim vector.length)) :=
          insertChecked_mismatch hdim _
        rw [VectorIndex.call, hcall] at hk
        exact h.ids k i hk
  | delete id =>
      have hdelete : Ensures (idx.delete id)
          (fun r => r.1.idToNode = idx.idToNode) := by
        rw [delete]
        split
        · exact Ensures.pure rfl
        · split
          · exact Ensures.error
          · exact Ensures.pure rfl
          · exact Ensures.pure rfl
      cases hout : idx.delete id with
      | ok r =>
          have hcall : (vectorIndex K).delete idx id = .ok r := hout
          rw [VectorIndex.call, hcall] at hk
          exact h.ids k i (hdelete r hout ▸ hk)
      | error e =>
          have hcall : (vectorIndex K).delete idx id = .error e := hout
          rw [VectorIndex.call, hcall] at hk
          exact h.ids k i hk
  | getVector id => exact h.ids k i hk
  | len => exact h.ids k i hk

/-- While there are indices left, the call does not see their width. -/
theorem IdsWithin.callU32_eq {S : Finset UInt64} (h : idx.IdsWithin S)
    (hS : S.card ≤ 2 ^ 32) {c : VectorIndexCall}
    (hc : ∀ id vector, c = .insert id vector → vector.length = idx.dim →
      id ∈ S) :
    (vectorIndexU32 K).call idx c = (vectorIndex K).call idx c := by
  cases c with
  | insert id vector =>
      have hinsert : (vectorIndexU32 K).insert idx id vector =
          (vectorIndex K).insert idx id vector := by
        by_cases hdim : vector.length = idx.dim
        · have hroom : idx.idToNode[id]? = none → idx.nodes.length < 2 ^ 32 :=
            fun hid => (h.length_lt (hc id vector rfl hdim) hid).trans_le hS
          show insertChecked idx.dim idx vector (idx.insertU32 K id vector) = _
          rw [insertU32_of_lt hroom]
          rfl
        · exact (insertChecked_mismatch hdim _).trans
            (insertChecked_mismatch hdim _).symm
      rw [VectorIndex.call, VectorIndex.call, hinsert]
  | delete id => rfl
  | getVector id => rfl
  | len => rfl

theorem connect_shape {entry nodeLevel newIdx : ℕ} {vector : List F32} :
    Ensures (idx.connect K entry nodeLevel newIdx vector) (fun idx' =>
      shape idx'.nodes = shape idx.nodes ∧ idx'.deleted = idx.deleted ∧
        idx'.idToNode = idx.idToNode) :=
  (Ensures.intro _).bind fun _ _ => (Ensures.intro _).bind fun _ _ =>
    (Ensures.intro _).bind fun _ _ => connectLayers_shape.bind
      fun _ hshape => Ensures.pure ⟨hshape, rfl, rfl⟩

/-- A new node behind the old ones, and the index that its id is given. -/
theorem insertNewU32_ensures (id : UInt64) (vector : List F32) :
    Ensures (idx.insertNewU32 K id vector) (fun idx' =>
      idx'.idToNode[id]? = some (idx.nodes.length % 2 ^ 32) ∧
        idx'.deleted = idx.deleted ++ [false] ∧
        ∃ s, shape idx'.nodes = shape idx.nodes ++ [s]) := by
  have hnew : ∀ nodeLevel rng,
      shape (idx.allocate nodeLevel rng id vector).nodes =
        shape idx.nodes ++ [(id, vector, nodeLevel + 1)] := by
    intro nodeLevel rng
    simp [allocate, shape]
  rw [insertNewU32]
  dsimp only
  split
  · exact Ensures.pure ⟨by simp, rfl, _,
      hnew (idx.randomLevel K).1 (idx.randomLevel K).2⟩
  · refine connect_shape.mono fun idx' h => ?_
    obtain ⟨hshape, hdeleted, hids⟩ := h
    exact ⟨by simp [hids], hdeleted, _, hshape.trans
      (hnew (idx.randomLevel K).1 (idx.randomLevel K).2)⟩

/-- The id that follows `2 ^ 32` others is given the node of the first. -/
theorem insertNewU32_wraps (h : idx.WellFormed)
    (hlength : idx.nodes.length = 2 ^ 32) (id : UInt64) (vector : List F32) :
    Ensures (idx.insertNewU32 K id vector) (fun idx' =>
      ∃ old, idx'.getVector id = .ok (idx.store old)) := by
  intro idx' hinsert
  obtain ⟨hid, hdeleted, s, hshape⟩ := insertNewU32_ensures id vector idx'
    hinsert
  have hpos : 0 < idx.nodes.length := by
    rw [hlength]
    exact Nat.two_pow_pos 32
  have hfirst := List.getElem?_eq_getElem hpos
  obtain ⟨node, dead, hnode, -, hdead, hstore⟩ := exists_node h.valid
    ((h.structured.idToNode _ 0).mpr ⟨_, hfirst, rfl⟩)
  rw [hlength, Nat.mod_self] at hid
  have hdead' : idx'.deleted[0]? = some dead := by
    rw [hdeleted, List.getElem?_append_left, hdead]
    exact (List.getElem?_eq_some_iff.mp hdead).1
  obtain ⟨node', hnode', hvector⟩ : ∃ node', idx'.nodes[0]? = some node' ∧
      node'.vector = node.vector := by
    have hmap : (shape idx'.nodes)[0]? =
        some (node.id, node.vector, node.neighbors.length) := by
      rw [hshape, List.getElem?_append_left (by simpa using hpos), shape,
        List.getElem?_map, hnode]
      rfl
    rw [shape, List.getElem?_map] at hmap
    obtain ⟨node', hnode', heq⟩ := Option.map_eq_some_iff.mp hmap
    exact ⟨node', hnode', congrArg (fun t => t.2.1) heq⟩
  refine ⟨idx.nodes[0].id, ?_⟩
  rw [hstore, getVector, hid]
  cases dead with
  | true =>
      simp only [hdead']
      rfl
  | false =>
      simp only [hdead', nodeAt, hnode', ← hvector]
      rfl

end HnswIndex

section Agreement

variable {dim : ℕ} {metric : Metric} {params : HnswParams} {seed : UInt64}
  {hnsw : HnswIndex} {brute : BruteForceIndex}

/-- The graph index with indices of 32 bits, while it has room. -/
theorem HnswIndex.runU32 (hhnsw : withParams dim metric params seed = .ok hnsw)
    (hfits : params.m0 < 2 ^ 61) {calls : List (Kernel × VectorIndexCall)}
    (hids : (insertedIds dim calls).card ≤ 2 ^ 32) :
    let h := run callUnderU32 hnsw calls
    let m := run (VectorStore.call dim) (fun _ => none) (calls.map Prod.snd)
    h.2 = m.2 ∧ h.1.IdsWithin (insertedIds dim calls) ∧
      h.1.params.Fits ∧ h.1.dim = dim ∧ h.1.store = m.1 := by
  intro h m
  obtain ⟨hdim, hm, hm0, hef⟩ := admissible_of_withParams hhnsw
  obtain ⟨hvalid, hdim_eq, -, hstore⟩ :=
    (withParams_returns hdim hm hm0 hef).of_eq_ok hhnsw
  have hsim : Simulates
      (fun idx m => (idx.Valid ∧ idx.params.Fits) ∧ idx.dim = dim ∧
        idx.store = m)
      callUnder fun m c => VectorStore.call dim m c.2 :=
    fun idx m c hrel => (implements c.1 dim).simulates idx m c.2 hrel
  obtain ⟨hreplies, hlast⟩ := hsim.run
    ⟨⟨hvalid, fits_of_withParams hhnsw hfits⟩, hdim_eq, hstore⟩ calls
  rw [← run_map (VectorStore.call dim) Prod.snd] at hreplies hlast
  have hwithin : ∀ idx, ∀ c ∈ calls,
      (idx.IdsWithin (insertedIds dim calls) ∧ idx.dim = dim) →
        callUnderU32 idx c = callUnder idx c ∧
          (callUnder idx c).1.IdsWithin (insertedIds dim calls) ∧
            (callUnder idx c).1.dim = dim := by
    rintro idx ⟨K, c⟩ hc ⟨hidx, rfl⟩
    have hmem : ∀ id vector, c = .insert id vector →
        vector.length = idx.dim → id ∈ insertedIds idx.dim calls := by
      rintro id vector rfl hlen
      exact mem_insertedIds hc hlen
    exact ⟨hidx.callU32_eq hids hmem, hidx.call hmem,
      (call_wellFormed hidx.wellFormed c).2.dim⟩
  have hempty : hnsw.IdsWithin (insertedIds dim calls) := by
    refine ⟨withParams_wellFormed hhnsw, fun id i hid => ?_⟩
    rw [withParams, if_pos ⟨hdim, hm, hm0, hef⟩, Except.ok.injEq] at hhnsw
    rw [← hhnsw] at hid
    simp at hid
  obtain ⟨heq, hidx, -⟩ := run_congr _ hwithin ⟨hempty, hdim_eq⟩
  have hsame : h = run callUnder hnsw calls := heq
  rw [hsame]
  exact ⟨hreplies, hidx, hlast.1.2, hlast.2.1, hlast.2.2⟩

/-- A call that the store refuses changes nothing, whatever the width. -/
theorem HnswIndex.callUnderU32_of_error {idx : HnswIndex} {m : VectorStore}
    {K : Kernel} {c : VectorIndexCall} {e : IndexError}
    (hdim : idx.dim = dim) (he : (VectorStore.call dim m c).2 = .error e) :
    callUnderU32 idx (K, c) = (idx, .error e) := by
  cases c with
  | insert id vector =>
      by_cases hlen : vector.length = dim
      · simp [VectorStore.call, hlen] at he
      · have hcall : (vectorIndexU32 K).insert idx id vector =
            (idx, .error (.dimMismatch idx.dim vector.length)) :=
          insertChecked_mismatch (hdim ▸ hlen) _
        simp only [VectorStore.call, if_neg hlen, Except.error.injEq] at he
        rw [callUnderU32, VectorIndex.call, hcall, hdim, ← he]
        rfl
  | delete id => simp [VectorStore.call] at he
  | getVector id => simp [VectorStore.call] at he
  | len => simp [VectorStore.call] at he

/-- Two fresh indexes of one dimension give the replies of the store to every
sequence of calls, end with its contents, and change nothing when a further
call fails. -/
theorem vectorIndexes_agree
    (hhnsw : HnswIndex.withParams dim metric params seed = .ok hnsw)
    (hfits : params.m0 < 2 ^ 61)
    (hbrute : BruteForceIndex.new dim metric = .ok brute)
    (calls : HnswIndex.OrderedCalls metric)
    (hids : (HnswIndex.insertedIds dim calls.calls).card ≤ 2 ^ 32) :
    let h := run HnswIndex.callUnderU32 hnsw calls.calls
    let b := run BruteForceIndex.vectorIndex.call brute
      (calls.calls.map Prod.snd)
    let m := run (VectorStore.call dim) (fun _ => none)
      (calls.calls.map Prod.snd)
    (h.2 = m.2 ∧ b.2 = m.2) ∧ (h.1.store = m.1 ∧ b.1.store = m.1) ∧
      ∀ K c e, (VectorStore.call dim m.1 c).2 = .error e →
        HnswIndex.callUnderU32 h.1 (K, c) = (h.1, .error e) ∧
          BruteForceIndex.vectorIndex.call b.1 c = (b.1, .error e) := by
  intro h b m
  obtain ⟨hreplies, -, -, hdim_eq, hstore⟩ :=
    HnswIndex.runU32 hhnsw hfits hids
  have hdim := (HnswIndex.admissible_of_withParams hhnsw).1
  obtain ⟨bvalid, bdim_eq, -, bstore⟩ :=
    (BruteForceIndex.new_returns metric hdim).of_eq_ok hbrute
  obtain ⟨breplies, blast⟩ := (BruteForceIndex.implements dim).simulates.run
    ⟨bvalid, bdim_eq, bstore⟩ (calls.calls.map Prod.snd)
  refine ⟨⟨hreplies, breplies⟩, ⟨hstore, blast.2.2⟩, fun K c e he => ⟨?_, ?_⟩⟩
  · exact HnswIndex.callUnderU32_of_error hdim_eq he
  · exact (BruteForceIndex.implements dim).call_of_error blast he

/-- Two inserts, a delete, a revival and reads. -/
theorem vectorIndexes_agree_two :
    ∃ hnsw brute, HnswIndex.withParams 1 .l2 .default 0 = .ok hnsw ∧
      BruteForceIndex.new 1 .l2 = .ok brute ∧
      let calls : List VectorIndexCall := [.insert 7 [0], .insert 8 [1, 2],
        .insert 9 [1], .delete 7, .getVector 7, .insert 7 [1], .getVector 7,
        .len]
      (run HnswIndex.callUnderU32 hnsw
        (HnswIndex.OrderedCalls.ofEqual calls).calls).2 =
          (run BruteForceIndex.vectorIndex.call brute calls).2 := by
  refine ⟨_, _, rfl, rfl, ?_⟩
  intro calls
  have h := @vectorIndexes_agree 1 .l2 .default 0 _ _ rfl (by decide) rfl
    (HnswIndex.OrderedCalls.ofEqual calls) (by decide)
  have hcalls : (HnswIndex.OrderedCalls.ofEqual calls).calls.map Prod.snd =
      calls := by
    simp [HnswIndex.OrderedCalls.ofEqual]
  rw [hcalls] at h
  exact h.1.1.trans h.1.2.symm

/-! ## One id too many -/

/-- The first `n` ids. -/
def firstIds (n : ℕ) : List UInt64 := (List.range n).map UInt64.ofNat

theorem ofNat_inj {i j : ℕ} (hi : i < 2 ^ 64) (hj : j < 2 ^ 64)
    (h : UInt64.ofNat i = UInt64.ofNat j) : i = j := by
  have hnat := congrArg UInt64.toNat h
  rwa [UInt64.toNat_ofNat_of_lt' hi, UInt64.toNat_ofNat_of_lt' hj] at hnat

theorem nodup_firstIds {n : ℕ} (hn : n < 2 ^ 64) : (firstIds n).Nodup :=
  List.Nodup.map_on (fun _ hi _ hj => ofNat_inj
    ((List.mem_range.mp hi).trans hn) ((List.mem_range.mp hj).trans hn))
    List.nodup_range

theorem not_mem_firstIds {n : ℕ} (hn : n < 2 ^ 64) :
    UInt64.ofNat n ∉ firstIds n := by
  intro hmem
  obtain ⟨i, hi, heq⟩ := List.mem_map.mp hmem
  have hlt := List.mem_range.mp hi
  exact hlt.ne (ofNat_inj (hlt.trans hn) hn heq)

/-- Inserts of one vector. -/
def insertsOf (ids : List UInt64) : List VectorIndexCall :=
  ids.map fun id => .insert id [0]

theorem mem_insertedIds_insertsOf {ids : List UInt64} {id : UInt64} :
    id ∈ HnswIndex.insertedIds 1
        (HnswIndex.OrderedCalls.ofEqual (insertsOf ids)).calls ↔
      id ∈ ids := by
  simp [HnswIndex.insertedIds, HnswIndex.OrderedCalls.ofEqual, insertsOf]

theorem VectorStore.run_inserts (ids : List UInt64) (m : VectorStore) :
    (run (VectorStore.call 1) m (insertsOf ids)).1 =
      fun id => if id ∈ ids then some [0] else m id := by
  rw [insertsOf]
  induction ids generalizing m with
  | nil => simp [CallMachine.run]
  | cons first ids ih =>
      rw [List.map_cons, run_cons]
      simp only [VectorStore.call, List.length_singleton, if_true, ih]
      funext id
      by_cases hid : id = first
      · subst hid
        simp
      · simp [hid]

/-- The index after inserts of `2 ^ 32` ids. -/
structure Full (idx : HnswIndex) (ids : List UInt64) : Prop where
  wellFormed : idx.WellFormed
  dim_eq : idx.dim = 1
  length_eq : idx.nodes.length = 2 ^ 32
  known : ∀ (id : UInt64) (i : ℕ), idx.idToNode[id]? = some i → id ∈ ids
  store_eq : idx.store = fun id => if id ∈ ids then some [0] else none

theorem full_of_inserts {n : ℕ} (hn : n = 2 ^ 32)
    (hhnsw : HnswIndex.withParams 1 .l2 .default 0 = .ok hnsw) :
    let calls := HnswIndex.OrderedCalls.ofEqual (insertsOf (firstIds n))
    let h := run HnswIndex.callUnderU32 hnsw calls.calls
    h.2 = (run (VectorStore.call 1) (fun _ => none)
      (calls.calls.map Prod.snd)).2 ∧ Full h.1 (firstIds n) := by
  intro calls h
  have hnodup := nodup_firstIds (n := n) (by omega)
  have hset : HnswIndex.insertedIds 1 calls.calls = (firstIds n).toFinset := by
    ext id
    rw [mem_insertedIds_insertsOf, List.mem_toFinset]
  have hcard : (HnswIndex.insertedIds 1 calls.calls).card = n := by
    rw [hset, List.toFinset_card_of_nodup hnodup, firstIds, List.length_map,
      List.length_range]
  have hmap : calls.calls.map Prod.snd = insertsOf (firstIds n) := by
    simp [calls, HnswIndex.OrderedCalls.ofEqual]
  obtain ⟨hreplies, hwithin, -, hdim, hstore⟩ :=
    HnswIndex.runU32 hhnsw (by decide) (hcard.trans hn).le
  rw [hmap, VectorStore.run_inserts] at hstore
  refine ⟨hreplies, hwithin.wellFormed, hdim, le_antisymm ?_ ?_,
    fun id i hid => mem_insertedIds_insertsOf.mp (hwithin.ids id i hid), hstore⟩
  · exact hwithin.length_le.trans (hcard.trans hn).le
  · -- every id is live, and live points have nodes
    have hstructured := hwithin.wellFormed.structured
    have hlive : h.1.len = n := by
      rw [HnswIndex.len_eq hwithin.wellFormed.valid, ← hcard, hset,
        ← Set.ncard_coe_finset]
      congr 1
      ext id
      by_cases hid : id ∈ firstIds n <;> simp [hstore, hid]
    have hcount := List.count_le_length (a := false) (l := h.1.deleted)
    rw [hstructured.length_deleted, ← hstructured.live_eq] at hcount
    exact (hn.symm.trans hlive.symm).le.trans hcount

/-- A new id in a full index is answered with the vector of another one, or not
inserted at all. -/
theorem Full.replies_ne {idx : HnswIndex} {ids : List UInt64}
    (h : Full idx ids) {K : Kernel} {id : UInt64} (hid : id ∉ ids) :
    (run HnswIndex.callUnderU32 idx
      [(K, .insert id [1]), (K, .getVector id)]).2 ≠
        [.ok .inserted, .ok (.vector (some [1]))] := by
  intro heq
  have hnone : idx.idToNode[id]? = none := by
    by_contra hsome
    obtain ⟨i, hi⟩ := Option.ne_none_iff_exists'.mp hsome
    exact hid (h.known id i hi)
  have hlen : ([1] : List F32).length = idx.dim := h.dim_eq.symm
  have hinsert : idx.insertU32 K id [1] = idx.insertNewU32 K id [1] := by
    rw [HnswIndex.insertU32, if_neg (not_not_intro hlen), hnone]
  cases hout : idx.insertNewU32 K id [1] with
  | error e =>
      have hcall : (HnswIndex.vectorIndexU32 K).insert idx id [1] =
          (idx, .error e) :=
        insertChecked_of_error hlen (hinsert.trans hout)
      simp [CallMachine.run, HnswIndex.callUnderU32, VectorIndex.call, hcall,
        Except.map] at heq
  | ok idx' =>
      have hcall : (HnswIndex.vectorIndexU32 K).insert idx id [1] =
          (idx', .ok ()) :=
        insertChecked_of_ok hlen (hinsert.trans hout)
      obtain ⟨old, hget⟩ := HnswIndex.insertNewU32_wraps h.wellFormed
        h.length_eq id [1] idx' hout
      have hget' : (HnswIndex.vectorIndexU32 K).getVector idx' id =
          .ok (idx.store old) := hget
      simp only [CallMachine.run, HnswIndex.callUnderU32, VectorIndex.call,
        hcall, hget', h.store_eq, Except.map, List.cons.injEq, and_true,
        Except.ok.injEq, VectorIndexReply.vector.injEq] at heq
      have hsome := heq.2
      split_ifs at hsome
      simp at hsome

/-- The next id after `2 ^ 32` others is mapped to the node of the first: its
vector is not the one inserted. -/
theorem not_vectorIndexes_agree :
    ¬ ∀ (hnsw : HnswIndex) (brute : BruteForceIndex),
      HnswIndex.withParams 1 .l2 .default 0 = .ok hnsw →
      BruteForceIndex.new 1 .l2 = .ok brute →
      ∀ calls : HnswIndex.OrderedCalls .l2,
        (run HnswIndex.callUnderU32 hnsw calls.calls).2 =
          (run BruteForceIndex.vectorIndex.call brute
            (calls.calls.map Prod.snd)).2 := by
  intro hall
  obtain ⟨n, hn⟩ : ∃ n, n = 2 ^ 32 := ⟨_, rfl⟩
  obtain ⟨hnsw, hhnsw⟩ : ∃ idx,
      HnswIndex.withParams 1 .l2 .default 0 = .ok idx := ⟨_, rfl⟩
  obtain ⟨brute, hbrute, bvalid, bdim_eq, -, bstore⟩ :=
    BruteForceIndex.new_returns .l2 one_pos
  let id := UInt64.ofNat n
  let last : List VectorIndexCall := [.insert id [1], .getVector id]
  have heq := hall hnsw brute hhnsw hbrute
    (.ofEqual (insertsOf (firstIds n) ++ last))
  have hbrute' := ((BruteForceIndex.implements 1).simulates.run
    ⟨bvalid, bdim_eq, bstore⟩ ((HnswIndex.OrderedCalls.ofEqual
      (insertsOf (firstIds n) ++ last)).calls.map Prod.snd)).1
  obtain ⟨hreplies, hfull⟩ := full_of_inserts hn hhnsw
  rw [hbrute'] at heq
  simp only [HnswIndex.OrderedCalls.ofEqual,
    List.map_append] at heq hreplies hfull
  rw [run_append, run_append, hreplies, List.append_cancel_left_eq] at heq
  apply hfull.replies_ne (K := .equalPoints) (not_mem_firstIds (by omega))
  rw [show [(Kernel.equalPoints, VectorIndexCall.insert (UInt64.ofNat n) [1]),
    (Kernel.equalPoints, VectorIndexCall.getVector (UInt64.ofNat n))] =
      last.map fun c => (Kernel.equalPoints, c) from rfl, heq]
  simp [last, CallMachine.run, VectorStore.call, id]

end Agreement

end Quorvec
