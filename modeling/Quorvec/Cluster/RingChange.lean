import Quorvec.Cluster.Meta
import Quorvec.Support.FirstOccurrences

/-!
# Placement under a membership change

The ring of more nodes is the ring of fewer nodes with positions put in
between.  The walk from a home position therefore meets the other nodes in the
same order, and a replica list changes by one node at most.
-/

namespace Quorvec

open ByteCodec FirstOccurrences

namespace Ring

/-- The walk takes the first `want` distinct nodes on its way. -/
theorem walk_eq {want : ℕ} {replicas path : List NodeId}
    (h : replicas.length < want) :
    walk want replicas path =
      (replicas ++ (path.removeAll replicas).eraseDups).take want := by
  induction path generalizing replicas with
  | nil =>
    rw [walk, List.take_of_length_le]
    · simp
    · simpa using h.le
  | cons node path ih =>
    rw [walk]
    by_cases hold : node ∈ replicas
    · have hskip : (node :: path).removeAll replicas =
          path.removeAll replicas :=
        List.filter_cons_of_neg (by simpa using hold)
      rw [if_pos hold, hskip]
      exact ih h
    · have hkeep : (node :: path).removeAll replicas =
          node :: path.removeAll replicas :=
        List.filter_cons_of_pos (by simpa using hold)
      rw [if_neg hold, hkeep, List.eraseDups_cons]
      have hrest : (path.removeAll replicas).filter (fun b => !b == node) =
          path.removeAll (replicas ++ [node]) := by
        simp only [List.removeAll, List.filter_filter]
        apply List.filter_congr
        intro b _
        by_cases hb : b = node <;> simp [hb]
      have hlength : (replicas ++ [node]).length = replicas.length + 1 := by
        simp
      rw [hrest, List.append_cons replicas node
        (path.removeAll (replicas ++ [node])).eraseDups]
      split_ifs with hfull
      · rw [List.take_left' hfull]
      · exact ih (by omega)

theorem before_trans (a b c : UInt64 × NodeId) :
    before a b → before b c → before a c := by
  simp only [before, Bool.or_eq_true, Bool.and_eq_true, decide_eq_true_eq,
    beq_iff_eq]
  grind

theorem before_total (a b : UInt64 × NodeId) : before a b || before b a := by
  simp only [before, Bool.or_eq_true, Bool.and_eq_true, decide_eq_true_eq,
    beq_iff_eq]
  grind

theorem before_antisymm (a b : UInt64 × NodeId) :
    before a b → before b a → a = b := by
  simp only [before, Bool.or_eq_true, Bool.and_eq_true, decide_eq_true_eq,
    beq_iff_eq, Prod.ext_iff]
  grind

/-- The nodes in the order in which the walk from a position meets them. -/
def pathFrom (ring : Ring) (home : UInt64) : List NodeId :=
  (ring.vnodes.filter (home ≤ ·.1) ++ ring.vnodes.filter (·.1 < home)).map
    Prod.snd

variable {xxh64 : Bytes → UInt64} {nodes nodes' : List NodeId} {vnodes : ℕ}
variable {collection : String} {shardIdx replicationN : UInt32}

theorem pairwise_vnodes (xxh64 : Bytes → UInt64) (nodes : List NodeId)
    (vnodes : ℕ) :
    (new xxh64 nodes vnodes).vnodes.Pairwise (before · ·) :=
  List.pairwise_mergeSort before_trans before_total _

/-- Turning the ring to the first position at or after `home`. -/
theorem rotate_eq_pathFrom (home : UInt64) :
    ((new xxh64 nodes vnodes).vnodes.rotate
      (((new xxh64 nodes vnodes).vnodes.takeWhile (·.1 < home)).length %
        (new xxh64 nodes vnodes).vnodes.length)).map Prod.snd =
      (new xxh64 nodes vnodes).pathFrom home := by
  have hsorted : (new xxh64 nodes vnodes).vnodes.Pairwise
      fun a b => decide (b.1 < home) → decide (a.1 < home) := by
    refine (pairwise_vnodes xxh64 nodes vnodes).imp fun {a b} hab => ?_
    simp only [before, Bool.or_eq_true, Bool.and_eq_true, decide_eq_true_eq,
      beq_iff_eq] at hab ⊢
    grind
  obtain ⟨htake, hdrop⟩ := takeWhile_eq_filter hsorted
  rw [pathFrom]
  congr 1
  set l := (new xxh64 nodes vnodes).vnodes
  have hsplit : l.takeWhile (fun v => decide (v.1 < home)) ++
      l.dropWhile (fun v => decide (v.1 < home)) = l :=
    List.takeWhile_append_dropWhile
  have hcut : l.rotate (l.takeWhile fun v => decide (v.1 < home)).length =
      l.dropWhile (fun v => decide (v.1 < home)) ++
        l.takeWhile fun v => decide (v.1 < home) := by
    have hrotate := List.rotate_append_length_eq
      (l.takeWhile fun v => decide (v.1 < home))
      (l.dropWhile fun v => decide (v.1 < home))
    rwa [hsplit] at hrotate
  have hnot : (fun v : UInt64 × NodeId => !decide (v.1 < home)) =
      fun v => decide (home ≤ v.1) := by
    funext v
    simp only [← UInt64.not_lt, decide_not]
  rw [List.rotate_mod, hcut, hdrop, htake, hnot]

/-- The replicas are the first distinct nodes on the path from the home. -/
theorem replicasForShard_eq (hn : 1 ≤ replicationN) (hvnodes : 1 ≤ vnodes) :
    (new xxh64 nodes vnodes).replicasForShard xxh64 collection shardIdx
        replicationN =
      ((new xxh64 nodes vnodes).pathFrom
        (homePosition xxh64 collection shardIdx)).eraseDups.take
          (min replicationN.toNat nodes.length) := by
  rcases nodes.eq_nil_or_concat with rfl | hconcat
  · simp [replicasForShard, pathFrom, new]
  obtain ⟨node, hnode⟩ : ∃ node, node ∈ nodes := by
    obtain ⟨rest, node, rfl⟩ := hconcat
    exact ⟨node, by simp⟩
  have hring := vnodes_not_isEmpty xxh64 hvnodes hnode
  have hwant : ([] : List NodeId).length <
      min replicationN.toNat (new xxh64 nodes vnodes).nodeCount := by
    have hcount : 0 < nodes.length := List.length_pos_of_mem hnode
    have hone : 1 ≤ replicationN.toNat := hn
    exact lt_min hone hcount
  rw [replicasForShard, if_neg hring]
  dsimp only
  rw [rotate_eq_pathFrom, walk_eq hwant]
  simp [new]

/-- A ring without a node is the ring with it, less its positions. -/
theorem vnodes_insert {x : NodeId} (hx : x ∉ nodes)
    (hperm : nodes'.Perm (x :: nodes)) :
    (new xxh64 nodes vnodes).vnodes =
      (new xxh64 nodes' vnodes).vnodes.filter (·.2 != x) := by
  refine filter_mergeSort before_trans before_total before_antisymm ?_
  refine List.Perm.trans ?_ ((hperm.flatMap_right _).symm.filter _)
  rw [List.flatMap_cons, List.filter_append]
  have hown : ((List.range vnodes).map fun vi =>
      (position xxh64 x vi, x)).filter (·.2 != x) = [] := by
    rw [List.filter_eq_nil_iff]
    intro v hv
    obtain ⟨vi, -, rfl⟩ := List.mem_map.mp hv
    simp
  have hother : (nodes.flatMap fun node => (List.range vnodes).map fun vi =>
      (position xxh64 node vi, node)).filter (·.2 != x) =
        nodes.flatMap fun node => (List.range vnodes).map fun vi =>
          (position xxh64 node vi, node) := by
    rw [List.filter_eq_self]
    intro v hv
    obtain ⟨node, hnode, hv⟩ := List.mem_flatMap.mp hv
    obtain ⟨vi, -, rfl⟩ := List.mem_map.mp hv
    have hne : node ≠ x := fun heq => hx (heq ▸ hnode)
    simpa using hne
  rw [hown, hother, List.nil_append]

theorem pathFrom_insert {x : NodeId} (hx : x ∉ nodes)
    (hperm : nodes'.Perm (x :: nodes)) (home : UInt64) :
    (new xxh64 nodes vnodes).pathFrom home =
      ((new xxh64 nodes' vnodes).pathFrom home).filter (· != x) := by
  have hsnd : (fun v : UInt64 × NodeId => v.2 != x) =
      (fun node => node != x) ∘ Prod.snd := rfl
  simp only [pathFrom, vnodes_insert hx hperm, List.map_append,
    List.filter_append, List.filter_map, List.filter_filter, hsnd,
    Bool.and_comm]

theorem mem_pathFrom_iff (hvnodes : 1 ≤ vnodes) (home : UInt64)
    (node : NodeId) :
    node ∈ (new xxh64 nodes vnodes).pathFrom home ↔ node ∈ nodes := by
  rw [← rotate_eq_pathFrom]
  exact mem_path_iff xxh64 hvnodes _ node

/-- A collection that asks for one replica has its shard on one node. -/
theorem exists_replicas_eq_singleton (hvnodes : 1 ≤ vnodes)
    (hnodes : nodes ≠ []) :
    ∃ node ∈ nodes, (new xxh64 nodes vnodes).replicasForShard xxh64 collection
      shardIdx 1 = [node] := by
  have hlength : 1 ≤ nodes.length := List.length_pos_iff.mpr hnodes
  obtain ⟨first, hfirst⟩ := List.exists_mem_of_ne_nil nodes hnodes
  rw [replicasForShard_eq (by decide) hvnodes, UInt32.toNat_one,
    min_eq_left hlength]
  rcases hpath : ((new xxh64 nodes vnodes).pathFrom
    (homePosition xxh64 collection shardIdx)).eraseDups with _ | ⟨node, rest⟩
  · rw [← mem_pathFrom_iff hvnodes
      (homePosition xxh64 collection shardIdx), ← List.mem_eraseDups,
      hpath] at hfirst
    simp at hfirst
  · refine ⟨node, ?_, rfl⟩
    rw [← mem_pathFrom_iff hvnodes
      (homePosition xxh64 collection shardIdx), ← List.mem_eraseDups, hpath]
    exact List.mem_cons_self

/-- The replicas `old` of a shard before, and `new` after the node `x` has
joined: without `x` the new list starts the old one and is at most one node
shorter, and a list that `x` is not on stays. -/
def JoinedBy (x : NodeId) (old new : List NodeId) : Prop :=
  ∃ added, old = new.erase x ++ added ∧ added.length ≤ 1 ∧
    (x ∉ new → old = new)

theorem JoinedBy.of_added {x : NodeId} {old new added : List NodeId}
    (hadded : old = new.erase x ++ added) (hone : added.length ≤ 1)
    (hnone : x ∉ new → added = []) : JoinedBy x old new := by
  refine ⟨added, hadded, hone, fun hout => ?_⟩
  rw [hadded, hnone hout, List.append_nil, List.erase_of_not_mem hout]

/-- The replicas after a node has joined, and what it has replaced. -/
theorem exists_added_of_insert {x : NodeId} (hnodup : nodes.Nodup)
    (hx : x ∉ nodes) (hperm : nodes'.Perm (x :: nodes))
    (hvnodes : 1 ≤ vnodes) (hn : 1 ≤ replicationN) :
    ∃ added, (new xxh64 nodes vnodes).replicasForShard xxh64 collection
        shardIdx replicationN =
        ((new xxh64 nodes' vnodes).replicasForShard xxh64 collection shardIdx
          replicationN).erase x ++ added ∧
      added.length ≤ 1 ∧
      (x ∉ (new xxh64 nodes' vnodes).replicasForShard xxh64 collection shardIdx
        replicationN → added = []) := by
  have hnodup' : nodes'.Nodup := by
    rw [hperm.nodup_iff, List.nodup_cons]
    exact ⟨hx, hnodup⟩
  have hlength' : nodes'.length = nodes.length + 1 := by
    rw [hperm.length_eq, List.length_cons]
  simp only [replicasForShard_eq hn hvnodes, pathFrom_insert hx hperm,
    eraseDups_filter, hlength']
  set met := ((new xxh64 nodes' vnodes).pathFrom
    (homePosition xxh64 collection shardIdx)).eraseDups with hmet
  have hdistinct : met.Nodup := nodup_eraseDups _
  have hall : met.Perm nodes' := by
    rw [List.perm_ext_iff_of_nodup hdistinct hnodup']
    intro node
    rw [hmet, List.mem_eraseDups]
    exact mem_pathFrom_iff hvnodes _ node
  exact take_filter_eq_append hdistinct x (by omega) (by omega)
    (fun hout => by
      -- a list of all members has `x`
      by_contra hne
      have hmem : x ∈ met := hall.mem_iff.mpr (hperm.mem_iff.mpr (by simp))
      have hmetLength := hall.length_eq
      rw [List.take_of_length_le (by omega)] at hout
      exact hout hmem)

/-- A membership change moves at most one replica of each shard.  When the node
leaves again, only the lists that it is on change, and each gets at most one
node appended. -/
theorem replicas_insert {x : NodeId} (hnodup : nodes.Nodup)
    (hx : x ∉ nodes) (hperm : nodes'.Perm (x :: nodes))
    (hvnodes : 1 ≤ vnodes) (hn : 1 ≤ replicationN) :
    JoinedBy x
      ((new xxh64 nodes vnodes).replicasForShard xxh64 collection shardIdx
        replicationN)
      ((new xxh64 nodes' vnodes).replicasForShard xxh64 collection shardIdx
        replicationN) := by
  obtain ⟨added, hadded, hone, hnone⟩ := exists_added_of_insert hnodup hx hperm
    hvnodes hn
  exact .of_added hadded hone hnone

/-- On a ring whose positions all coincide, the new node takes the place of the
other one. -/
theorem replicas_insert_tie : JoinedBy 1
    ((new (fun _ => 0) [2] 1).replicasForShard (fun _ => 0) "c" 0 1)
    ((new (fun _ => 0) [1, 2] 1).replicasForShard (fun _ => 0) "c" 0 1) :=
  replicas_insert (by decide) (by decide) (List.Perm.refl _) (by decide)
    (by decide)

end Ring

namespace MetaState

variable {xxh64 : Bytes → UInt64} {s : MetaState} {node : NodeId}

theorem keys_registerNode (addr : String) (hnode : node ∉ s.nodes) :
    (s.apply (.registerNode node addr)).1.nodes.keys.Perm
      (node :: s.nodes.keys) := by
  rw [List.perm_ext_iff_of_nodup Std.ExtTreeMap.nodup_keys]
  · intro other
    rw [apply, Std.ExtTreeMap.mem_keys, Std.ExtTreeMap.mem_insert,
      List.mem_cons, Std.ExtTreeMap.mem_keys, Std.compare_eq_iff_eq]
    exact or_congr_left eq_comm
  · rw [List.nodup_cons]
    exact ⟨mt Std.ExtTreeMap.mem_keys.mp hnode, Std.ExtTreeMap.nodup_keys⟩

theorem replicas_registerNode (addr : String) (hnode : node ∉ s.nodes)
    {collection : String} {schema : CollectionSchema}
    (hschema : s.collections[collection]? = some schema)
    (hn : 1 ≤ schema.replicationN) (shardIdx : UInt32) :
    Ring.JoinedBy node (s.replicasForShard xxh64 collection shardIdx)
      ((s.apply (.registerNode node addr)).1.replicasForShard xxh64 collection
        shardIdx) := by
  have hschema' : (s.apply (.registerNode node addr)).1.collections[
      collection]? = some schema := hschema
  rw [replicasForShard, replicasForShard, hschema, hschema']
  obtain ⟨added, hadded, hone, hnone⟩ := @Ring.exists_added_of_insert xxh64
    _ _ defaultVnodes collection shardIdx _ node Std.ExtTreeMap.nodup_keys
    (mt Std.ExtTreeMap.mem_keys.mp hnode) (keys_registerNode addr hnode)
    (by decide) hn
  exact .of_added hadded hone hnone

end MetaState

end Quorvec
