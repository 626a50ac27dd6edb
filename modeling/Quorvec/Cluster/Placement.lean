import Quorvec.Support.ByteCodec

/-!
# Two-layer placement

A point belongs to the shard that its hashed id names, and a shard to the
nodes that follow its home position on a consistent-hash ring.  Placement is a
function of the membership alone.

The hash is a parameter: nothing here depends on which function of the bytes it
is, and two positions may coincide.
-/

namespace Quorvec

open ByteCodec

abbrev NodeId := UInt64

/-- Virtual nodes per physical node on the ring. -/
def defaultVnodes : ℕ := 64

/-- The shard that a point lands in. -/
def shardForId (xxh64 : Bytes → UInt64) (id : UInt64) (shardCount : UInt32) :
    UInt32 :=
  UInt32.ofNat ((xxh64 (toLeBytes 8 id.toNat)).toNat % shardCount.toNat)

/-- Ring positions and their physical nodes, in clockwise order. -/
structure Ring where
  vnodes : List (UInt64 × NodeId)
  nodeCount : ℕ

namespace Ring

variable (xxh64 : Bytes → UInt64)

/-- The ring position of a virtual node. -/
def position (node : NodeId) (vi : ℕ) : UInt64 :=
  xxh64 (toLeBytes 8 node.toNat ++ toLeBytes 4 vi)

/-- By position, and by node id to break exact ties. -/
def before (a b : UInt64 × NodeId) : Bool :=
  a.1 < b.1 || a.1 == b.1 && a.2 ≤ b.2

/-- The ring of a set of nodes, given as a list without repetitions. -/
def new (nodes : List NodeId) (vnodes : ℕ) : Ring where
  vnodes := (nodes.flatMap fun node =>
    (List.range vnodes).map fun vi => (position xxh64 node vi, node)).mergeSort
      before
  nodeCount := nodes.length

def homePosition (collection : String) (shardIdx : UInt32) : UInt64 :=
  xxh64 (utf8 collection ++ toLeBytes 4 shardIdx.toNat)

/-- The loop of `replicas_for_shard`: take nodes that are new until there are
`want` of them. -/
def walk (want : ℕ) : List NodeId → List NodeId → List NodeId
  | replicas, [] => replicas
  | replicas, node :: rest =>
      if node ∈ replicas then walk want replicas rest
      else if (replicas ++ [node]).length = want then replicas ++ [node]
      else walk want (replicas ++ [node]) rest

/-- The replicas of a shard: the distinct nodes clockwise from its home. -/
def replicasForShard (ring : Ring) (collection : String) (shardIdx : UInt32)
    (replicationN : UInt32) : List NodeId :=
  if ring.vnodes.isEmpty then []
  else
    let want := min replicationN.toNat ring.nodeCount
    let home := homePosition xxh64 collection shardIdx
    -- the first virtual node at or after `home`, wrapping around
    let start := (ring.vnodes.takeWhile fun v => v.1 < home).length %
      ring.vnodes.length
    walk want [] ((ring.vnodes.rotate start).map Prod.snd)

/-! ## The walk -/

section Walk

variable {want : ℕ} {replicas path : List NodeId}

theorem walk_nodup (h : replicas.Nodup) : (walk want replicas path).Nodup := by
  induction path generalizing replicas with
  | nil => exact h
  | cons node path ih =>
      have hgrown : node ∉ replicas → (replicas ++ [node]).Nodup := by
        intro hnew
        apply h.append (List.nodup_singleton node)
        rwa [List.disjoint_singleton]
      rw [walk]
      split_ifs with hold hfull
      · exact ih h
      · exact hgrown hold
      · exact ih (hgrown hold)

theorem mem_of_mem_walk {node : NodeId} (h : node ∈ walk want replicas path) :
    node ∈ replicas ∨ node ∈ path := by
  induction path generalizing replicas with
  | nil => exact .inl h
  | cons next path ih =>
      have hgrown : node ∈ replicas ++ [next] → node ∈ replicas ∨
          node ∈ next :: path := by
        simp only [List.mem_append, List.mem_cons]
        tauto
      rw [walk] at h
      split_ifs at h with hold hfull
      · exact (ih h).imp_right (List.mem_cons_of_mem _)
      · exact hgrown h
      · exact (ih h).elim hgrown (.inr ∘ List.mem_cons_of_mem _)

theorem subset_walk : replicas ⊆ walk want replicas path := by
  induction path generalizing replicas with
  | nil => exact List.Subset.refl _
  | cons node path ih =>
      have hgrown : replicas ⊆ replicas ++ [node] :=
        List.subset_append_left _ _
      rw [walk]
      split_ifs with hold hfull
      · exact ih
      · exact hgrown
      · exact List.Subset.trans hgrown ih

theorem path_subset_walk_or_full :
    path ⊆ walk want replicas path ∨
      (walk want replicas path).length = want := by
  induction path generalizing replicas with
  | nil => exact .inl (List.nil_subset _)
  | cons node path ih =>
      rw [walk]
      split_ifs with hold hfull
      · exact ih.imp_left (List.cons_subset.mpr ⟨subset_walk hold, ·⟩)
      · exact .inr hfull
      · have hnode : node ∈ walk want (replicas ++ [node]) path :=
          subset_walk (by simp)
        exact ih.imp_left (List.cons_subset.mpr ⟨hnode, ·⟩)

end Walk

/-! ## The replicas of a shard -/

section Replicas

variable {xxh64 : Bytes → UInt64} {nodes : List NodeId} {vnodes : ℕ}
variable {collection : String} {shardIdx replicationN : UInt32}

/-- The nodes that a walk over the ring meets. -/
theorem mem_path_iff (xxh64 : Bytes → UInt64) (hvnodes : 0 < vnodes)
    (start : ℕ) (node : NodeId) :
    node ∈ ((new xxh64 nodes vnodes).vnodes.rotate start).map Prod.snd ↔
      node ∈ nodes := by
  simp only [new, List.mem_map, List.mem_rotate, List.mem_mergeSort,
    List.mem_flatMap, List.mem_range, Prod.exists]
  constructor
  · rintro ⟨pos, node', ⟨n, hn, vi, hvi, heq⟩, rfl⟩
    have hnode : n = node' := (Prod.ext_iff.mp heq).2
    exact hnode ▸ hn
  · intro hn
    exact ⟨_, _, ⟨node, hn, 0, hvnodes, rfl⟩, rfl⟩

theorem vnodes_not_isEmpty (xxh64 : Bytes → UInt64) (hvnodes : 0 < vnodes)
    {node : NodeId} (hnode : node ∈ nodes) :
    ¬ (new xxh64 nodes vnodes).vnodes.isEmpty = true := by
  intro hempty
  have hpath := (mem_path_iff xxh64 hvnodes 0 node).mpr hnode
  rw [List.isEmpty_iff.mp hempty] at hpath
  simp at hpath

theorem replicas_nodup (ring : Ring) :
    (ring.replicasForShard xxh64 collection shardIdx replicationN).Nodup := by
  unfold replicasForShard
  split_ifs
  · exact List.nodup_nil
  · exact walk_nodup List.nodup_nil

theorem mem_of_mem_replicas (hvnodes : 0 < vnodes) {node : NodeId}
    (h : node ∈ (new xxh64 nodes vnodes).replicasForShard xxh64 collection
      shardIdx replicationN) : node ∈ nodes := by
  unfold replicasForShard at h
  split_ifs at h
  · simp at h
  · apply (mem_path_iff xxh64 hvnodes _ node).mp
    exact (mem_of_mem_walk h).resolve_left (List.not_mem_nil)

/-- With at least as many replicas as nodes, every node is a replica. -/
theorem mem_replicas_iff (hvnodes : 0 < vnodes)
    (hn : nodes.length ≤ replicationN.toNat) (node : NodeId) :
    node ∈ (new xxh64 nodes vnodes).replicasForShard xxh64 collection
      shardIdx replicationN ↔ node ∈ nodes := by
  refine ⟨mem_of_mem_replicas hvnodes, fun hnode => ?_⟩
  have hsub : ∀ x ∈ (new xxh64 nodes vnodes).replicasForShard xxh64
      collection shardIdx replicationN, x ∈ nodes :=
    fun x => mem_of_mem_replicas hvnodes
  have hdup := @replicas_nodup xxh64 collection shardIdx replicationN
    (new xxh64 nodes vnodes)
  have hring := vnodes_not_isEmpty xxh64 hvnodes hnode
  unfold replicasForShard at hsub hdup ⊢
  rw [if_neg hring] at hsub hdup ⊢
  rcases path_subset_walk_or_full with hall | hfull
  · exact hall ((mem_path_iff xxh64 hvnodes _ node).mpr hnode)
  · -- a full list without repetitions is as long as the membership
    have hlen : nodes.length ≤ _ := (min_eq_right hn).symm.le.trans hfull.symm.le
    exact ((hdup.subperm hsub).perm_of_length_le hlen).mem_iff.mpr hnode

end Replicas

end Ring

end Quorvec
