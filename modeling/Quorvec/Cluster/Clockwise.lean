import Quorvec.Cluster.RingChange

/-!
# The clockwise walk

From a home position the virtual nodes come in clockwise order: those at or
after the home, then, around the end of the ring, those before it.  A shard's
replicas are the nodes in the order of their first virtual nodes, as many as
are wanted and there are.
-/

namespace Quorvec

open ByteCodec FirstOccurrences

namespace Ring

/-- The virtual nodes of a set of nodes. -/
def virtualNodes (xxh64 : Bytes → UInt64) (nodes : List NodeId) (vnodes : ℕ) :
    Set (UInt64 × NodeId) :=
  {v | v.2 ∈ nodes ∧ ∃ vi < vnodes, v.1 = position xxh64 v.2 vi}

/-- `v` comes no later than `w` on the way clockwise from `home`. -/
def Clockwise (home : UInt64) (v w : UInt64 × NodeId) : Prop :=
  (home ≤ v.1 ∧ w.1 < home) ∨ ((home ≤ v.1 ↔ home ≤ w.1) ∧ before v w)

/-- The first virtual node of `a` comes no later than any of `b`. -/
def FirstBefore (V : Set (UInt64 × NodeId)) (home : UInt64) (a b : NodeId) :
    Prop :=
  ∃ v ∈ V, v.2 = a ∧ ∀ w ∈ V, w.2 = b → Clockwise home v w

variable {xxh64 : Bytes → UInt64} {nodes : List NodeId} {vnodes : ℕ}
variable {collection : String} {shardIdx replicationN : UInt32}

theorem mem_vnodes_iff {v : UInt64 × NodeId} :
    v ∈ (new xxh64 nodes vnodes).vnodes ↔
      v ∈ virtualNodes xxh64 nodes vnodes := by
  simp only [new, List.mem_mergeSort, List.mem_flatMap, List.mem_map,
    List.mem_range, virtualNodes, Set.mem_ofPred_eq]
  constructor
  · rintro ⟨node, hnode, vi, hvi, rfl⟩
    exact ⟨hnode, vi, hvi, rfl⟩
  · rintro ⟨hnode, vi, hvi, hpos⟩
    exact ⟨v.2, hnode, vi, hvi, Prod.ext hpos.symm rfl⟩

/-- The virtual nodes in the order in which the walk meets them. -/
def vnodesFrom (ring : Ring) (home : UInt64) : List (UInt64 × NodeId) :=
  ring.vnodes.filter (home ≤ ·.1) ++ ring.vnodes.filter (·.1 < home)

theorem pathFrom_eq (ring : Ring) (home : UInt64) :
    ring.pathFrom home = (ring.vnodesFrom home).map Prod.snd := rfl

theorem mem_vnodesFrom_iff {home : UInt64} {v : UInt64 × NodeId} :
    v ∈ (new xxh64 nodes vnodes).vnodesFrom home ↔
      v ∈ virtualNodes xxh64 nodes vnodes := by
  rw [← mem_vnodes_iff, vnodesFrom, List.mem_append, List.mem_filter,
    List.mem_filter, ← and_or_left, and_iff_left]
  simpa using UInt64.le_or_lt home v.1

theorem clockwise_vnodesFrom {home : UInt64} :
    ((new xxh64 nodes vnodes).vnodesFrom home).Pairwise (Clockwise home) := by
  have hsorted := pairwise_vnodes xxh64 nodes vnodes
  rw [vnodesFrom, List.pairwise_append]
  refine ⟨?_, ?_, ?_⟩
  · refine (hsorted.filter _).imp_of_mem fun hv hw hbefore => .inr ⟨?_, hbefore⟩
    have hv := of_decide_eq_true (List.mem_filter.mp hv).2
    have hw := of_decide_eq_true (List.mem_filter.mp hw).2
    exact iff_of_true hv hw
  · refine (hsorted.filter _).imp_of_mem fun hv hw hbefore => .inr ⟨?_, hbefore⟩
    have hv := of_decide_eq_true (List.mem_filter.mp hv).2
    have hw := of_decide_eq_true (List.mem_filter.mp hw).2
    exact iff_of_false (UInt64.not_le.mpr hv) (UInt64.not_le.mpr hw)
  · intro v hv w hw
    exact .inl ⟨of_decide_eq_true (List.mem_filter.mp hv).2,
      of_decide_eq_true (List.mem_filter.mp hw).2⟩

/-- All nodes, in the order of their first virtual nodes. -/
def clockwiseNodes (xxh64 : Bytes → UInt64) (nodes : List NodeId) (vnodes : ℕ)
    (home : UInt64) : List NodeId :=
  ((new xxh64 nodes vnodes).pathFrom home).eraseDups

theorem perm_clockwiseNodes (hnodup : nodes.Nodup) (hvnodes : 1 ≤ vnodes)
    (home : UInt64) : (clockwiseNodes xxh64 nodes vnodes home).Perm nodes := by
  rw [clockwiseNodes,
    List.perm_ext_iff_of_nodup (nodup_eraseDups _) hnodup]
  intro node
  rw [List.mem_eraseDups]
  exact mem_pathFrom_iff hvnodes home node

theorem pairwise_clockwiseNodes (home : UInt64) :
    (clockwiseNodes xxh64 nodes vnodes home).Pairwise
      (FirstBefore (virtualNodes xxh64 nodes vnodes) home) := by
  rw [clockwiseNodes, pathFrom_eq]
  refine (pairwise_labelBefore clockwise_vnodesFrom).imp ?_
  rintro a b ⟨v, hv, hva, hfirst⟩
  exact ⟨v, mem_vnodesFrom_iff.mp hv, hva,
    fun w hw hwb => hfirst w (mem_vnodesFrom_iff.mpr hw) hwb⟩

/-- The first node has the first virtual node. -/
theorem head_clockwiseNodes {home : UInt64} {node : NodeId}
    (h : (clockwiseNodes xxh64 nodes vnodes home).head? = some node) :
    ∃ v ∈ virtualNodes xxh64 nodes vnodes, v.2 = node ∧
      ∀ w ∈ virtualNodes xxh64 nodes vnodes, Clockwise home v w := by
  have hsorted := @clockwise_vnodesFrom xxh64 nodes vnodes home
  have hmem : ∀ {v}, v ∈ (new xxh64 nodes vnodes).vnodesFrom home ↔
    v ∈ virtualNodes xxh64 nodes vnodes := mem_vnodesFrom_iff
  rw [clockwiseNodes, pathFrom_eq] at h
  rcases hl : (new xxh64 nodes vnodes).vnodesFrom home with _ | ⟨v, rest⟩
  · simp [hl] at h
  · rw [hl] at h hsorted
    simp only [hl] at hmem
    rw [List.map_cons, List.eraseDups_cons, List.head?_cons,
      Option.some.injEq] at h
    refine ⟨v, hmem.mp List.mem_cons_self, h, fun w hw => ?_⟩
    rcases List.mem_cons.mp (hmem.mpr hw) with rfl | hw
    · exact .inr ⟨Iff.rfl, by simpa using before_total w w⟩
    · exact List.rel_of_pairwise_cons hsorted hw

/-- The replicas of a shard are the distinct nodes met first on the way
clockwise from its home, and asking for one more appends to the list. -/
theorem replicasForShard_clockwise (xxh64 : Bytes → UInt64)
    (hnodup : nodes.Nodup) (hvnodes : 1 ≤ vnodes) (hn : 1 ≤ replicationN) :
    let V := virtualNodes xxh64 nodes vnodes
    let home := homePosition xxh64 collection shardIdx
    let replicas := (new xxh64 nodes vnodes).replicasForShard xxh64 collection
      shardIdx replicationN
    replicas.length = min replicationN.toNat nodes.length ∧ replicas.Nodup ∧
    (∀ node ∈ replicas, node ∈ nodes) ∧
    (∀ node, replicas.head? = some node →
      ∃ v ∈ V, v.2 = node ∧ ∀ w ∈ V, Clockwise home v w) ∧
    replicas.Pairwise (FirstBefore V home) ∧
    (∀ node ∈ replicas, ∀ other ∈ nodes, other ∉ replicas →
      FirstBefore V home node other) ∧
    ∀ more : UInt32, more.toNat = replicationN.toNat + 1 →
      replicas <+: (new xxh64 nodes vnodes).replicasForShard xxh64 collection
        shardIdx more := by
  intro V home replicas
  have hreplicas : replicas = (clockwiseNodes xxh64 nodes vnodes home).take
      (min replicationN.toNat nodes.length) :=
    replicasForShard_eq hn hvnodes
  have hperm := @perm_clockwiseNodes xxh64 nodes vnodes hnodup hvnodes home
  have hsorted := @pairwise_clockwiseNodes xxh64 nodes vnodes home
  have htake := List.take_sublist (min replicationN.toNat nodes.length)
    (clockwiseNodes xxh64 nodes vnodes home)
  rw [hreplicas]
  refine ⟨?_, (hperm.nodup_iff.mpr hnodup).sublist htake,
    fun node hnode => hperm.subset (htake.subset hnode), fun node hnode => ?_,
    hsorted.sublist htake, fun node hnode other hother hout => ?_,
    fun more hmore => ?_⟩
  · rw [List.length_take, hperm.length_eq]
    omega
  · apply head_clockwiseNodes
    rw [List.head?_take] at hnode
    split_ifs at hnode
    exact hnode
  · rw [← List.take_append_drop (min replicationN.toNat nodes.length)
      (clockwiseNodes xxh64 nodes vnodes home), List.pairwise_append] at hsorted
    refine hsorted.2.2 node hnode other ?_
    have hin := hperm.mem_iff.mpr hother
    rw [← List.take_append_drop (min replicationN.toNat nodes.length)
      (clockwiseNodes xxh64 nodes vnodes home), List.mem_append] at hin
    exact hin.resolve_left hout
  · have hmore' : 1 ≤ more := by
      rw [UInt32.le_iff_toNat_le, UInt32.toNat_one]
      omega
    rw [replicasForShard_eq hmore' hvnodes]
    exact List.take_prefix_take_left (by omega)

/-- Three nodes at one position, with the home past it. -/
theorem replicasForShard_tie :
    let xxh64 := fun b : Bytes => if b.length = 12 then 0 else 1
    ((new xxh64 [3, 1, 2] 1).replicasForShard xxh64 "c" 0 2).Pairwise
      (FirstBefore (virtualNodes xxh64 [3, 1, 2] 1)
        (homePosition xxh64 "c" 0)) := by
  intro xxh64
  exact (replicasForShard_clockwise xxh64 (by decide) (by decide)
    (by decide)).2.2.2.2.1

end Ring

end Quorvec
