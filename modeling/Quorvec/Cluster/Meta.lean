import Quorvec.Cluster.Placement
import Quorvec.Hnsw.Distance

/-!
# The metadata plane

The replicated state machine holds the node directory, the collection schemas
and the shard-state overrides.  The shard map is derived from these, so that
a membership change moves shards at once; only what has become of their data is
said by the overrides.
-/

namespace Quorvec

open ByteCodec

/-- The state of one shard replica. -/
inductive ShardState
  | active
  /-- Receiving a shard transfer. -/
  | syncing
  | dead
deriving DecidableEq, Repr

structure CollectionSchema where
  dim : UInt32
  metric : Metric
  shardCount : UInt32
  replicationN : UInt32
deriving DecidableEq

/-- The key of a shard-state override. -/
structure ReplicaKey where
  collection : String
  shardIdx : UInt32
  nodeId : NodeId
deriving DecidableEq

namespace ReplicaKey

/-- The order of the tuple. -/
instance : Ord ReplicaKey where
  compare := compareLex (compareOn collection)
    (compareLex (compareOn shardIdx) (compareOn nodeId))

instance : Std.TransOrd ReplicaKey :=
  inferInstanceAs (Std.TransCmp (compareLex (compareOn collection)
    (compareLex (compareOn shardIdx) (compareOn nodeId))))

instance : Std.LawfulEqOrd ReplicaKey where
  compare_self := Std.ReflCmp.compare_self
  eq_of_compare {a b} h := by
    simp only [compare, compareLex_eq_eq, compareOn] at h
    obtain ⟨hcollection, hshard, hnode⟩ := h
    rw [ReplicaKey.mk.injEq]
    exact ⟨Std.LawfulEqOrd.eq_of_compare hcollection,
      Std.LawfulEqOrd.eq_of_compare hshard,
      Std.LawfulEqOrd.eq_of_compare hnode⟩

end ReplicaKey

/-- A mutation applied through the log. -/
inductive MetaRequest
  | registerNode (nodeId : NodeId) (advertiseAddr : String)
  | deregisterNode (nodeId : NodeId)
  | createCollection (name : String) (schema : CollectionSchema)
  | dropCollection (name : String)
  | setShardState (collection : String) (shardIdx : UInt32) (nodeId : NodeId)
      (state : ShardState)
  | noop
deriving DecidableEq

structure MetaState where
  /-- Advertise addresses: the data-plane routing directory. -/
  nodes : Std.ExtTreeMap NodeId String
  collections : Std.ExtTreeMap String CollectionSchema
  /-- Overrides; a replica without one is active. -/
  shardStates : Std.ExtTreeMap ReplicaKey ShardState

namespace MetaState

def empty : MetaState := { nodes := ∅, collections := ∅, shardStates := ∅ }

/-- Apply a committed request; the note says what happened. -/
def apply (s : MetaState) : MetaRequest → MetaState × String
  | .registerNode nodeId advertiseAddr =>
      ({ s with nodes := s.nodes.insert nodeId advertiseAddr }, "registered")
  | .deregisterNode nodeId =>
      ({ s with
          nodes := s.nodes.erase nodeId
          -- overrides of the gone node go with it
          shardStates := s.shardStates.filter fun key _ =>
            key.nodeId != nodeId }, "deregistered")
  | .createCollection name schema =>
      if name ∈ s.collections then (s, "exists")
      else
        ({ s with collections := s.collections.insert name schema }, "created")
  | .dropCollection name =>
      ({ s with
          collections := s.collections.erase name
          shardStates := s.shardStates.filter fun key _ =>
            key.collection != name },
        if name ∈ s.collections then "dropped" else "absent")
  | .setShardState collection shardIdx nodeId state =>
      let key : ReplicaKey := { collection, shardIdx, nodeId }
      ({ s with
          shardStates :=
            if state = .active then s.shardStates.erase key
            else s.shardStates.insert key state }, "shard-state-set")
  | .noop => (s, "noop")

/-- The state of a replica: active unless overridden. -/
def shardState (s : MetaState) (collection : String) (shardIdx : UInt32)
    (nodeId : NodeId) : ShardState :=
  s.shardStates[({ collection, shardIdx, nodeId } : ReplicaKey)]?.getD .active

section Placement

variable (xxh64 : Bytes → UInt64)

def ring (s : MetaState) : Ring := Ring.new xxh64 s.nodes.keys defaultVnodes

/-- The replicas of a shard; none if the collection is unknown. -/
def replicasForShard (s : MetaState) (collection : String)
    (shardIdx : UInt32) : List NodeId :=
  match s.collections[collection]? with
  | some schema =>
      (s.ring xxh64).replicasForShard xxh64 collection shardIdx
        schema.replicationN
  | none => []

end Placement

/-! ## Placement -/

section Replicas

variable {xxh64 : Bytes → UInt64} {s : MetaState} {collection : String}
variable {shardIdx : UInt32}

theorem replicas_nodup :
    (s.replicasForShard xxh64 collection shardIdx).Nodup := by
  unfold replicasForShard
  split
  · exact Ring.replicas_nodup _
  · exact List.nodup_nil

theorem mem_nodes_of_mem_replicas {node : NodeId}
    (h : node ∈ s.replicasForShard xxh64 collection shardIdx) :
    node ∈ s.nodes := by
  unfold replicasForShard at h
  split at h
  · apply Std.ExtTreeMap.mem_keys.mp
    exact Ring.mem_of_mem_replicas (by decide) h
  · simp at h

theorem replicas_congr {s' : MetaState} (hnodes : s'.nodes.keys = s.nodes.keys)
    (hschema : s'.collections[collection]? = s.collections[collection]?) :
    s'.replicasForShard xxh64 collection shardIdx =
      s.replicasForShard xxh64 collection shardIdx := by
  rw [replicasForShard, replicasForShard, hschema, ring, ring, hnodes]

theorem mem_replicas_iff {schema : CollectionSchema}
    (hschema : s.collections[collection]? = some schema)
    (hn : s.nodes.size ≤ schema.replicationN.toNat) (node : NodeId) :
    node ∈ s.replicasForShard xxh64 collection shardIdx ↔
      node ∈ s.nodes := by
  rw [replicasForShard, hschema, ← Std.ExtTreeMap.mem_keys]
  apply Ring.mem_replicas_iff (by decide)
  rwa [Std.ExtTreeMap.length_keys]

end Replicas

/-! ## What the requests change -/

section Apply

variable {s : MetaState}

theorem shardState_setShardState (collection collection' : String)
    (shardIdx shardIdx' : UInt32) (node node' : NodeId) (state : ShardState) :
    (s.apply (.setShardState collection shardIdx node state)).1.shardState
        collection' shardIdx' node' =
      if collection = collection' ∧ shardIdx = shardIdx' ∧ node = node' then
        state
      else s.shardState collection' shardIdx' node' := by
  have hkey : compare (ReplicaKey.mk collection shardIdx node)
      (ReplicaKey.mk collection' shardIdx' node') = .eq ↔
      collection = collection' ∧ shardIdx = shardIdx' ∧ node = node' := by
    rw [Std.compare_eq_iff_eq, ReplicaKey.mk.injEq]
  simp only [apply, shardState]
  by_cases hactive : state = .active
  · rw [if_pos hactive, Std.ExtTreeMap.getElem?_erase, ite_cond_congr
      (propext hkey)]
    split_ifs
    · exact hactive.symm
    · rfl
  · rw [if_neg hactive, Std.ExtTreeMap.getElem?_insert, ite_cond_congr
      (propext hkey)]
    split_ifs <;> rfl

/-- Dropping overrides of others leaves the state of a replica. -/
theorem shardState_filter {collection : String} {shardIdx : UInt32}
    {node : NodeId} {keep : ReplicaKey → ShardState → Bool}
    (hkeep : ∀ state, keep { collection, shardIdx, nodeId := node } state) :
    ({ s with shardStates := s.shardStates.filter keep } : MetaState).shardState
        collection shardIdx node = s.shardState collection shardIdx node := by
  simp only [shardState, Std.ExtTreeMap.getElem?_filter']
  cases s.shardStates[({ collection, shardIdx, nodeId := node } :
    ReplicaKey)]? with
  | none => rfl
  | some state => simp [Option.filter, hkeep]

end Apply

end MetaState

end Quorvec
