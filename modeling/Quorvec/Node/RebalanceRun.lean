import Quorvec.Node.Reconcile

/-!
# Runs of the rebalancing

Membership changes go through the log, and every node applies its entries in
its own time.  Each node runs one pass after another on the metadata that it
has applied when the pass begins.  Between any two steps of a pass other nodes
move, and writes and reads arrive.

The run is followed for one shard of a collection that exists throughout.
-/

namespace Quorvec

open ByteCodec

/-- Where a node is in its pass, as far as the shard is concerned. -/
inductive Stage
  | idle
  /-- The pass has begun, and has not come to the shard. -/
  | begun (snapshot : MetaState)
  /-- `Syncing` is committed; these sources have not been tried. -/
  | acquiring (sources : List (NodeId × String))
  /-- A source has answered; these records are still to be applied. -/
  | pulling (sources : List (NodeId × String))
      (rows : List Shard.ShardRecordRow)

/-- What has happened to a node since it last became a replica. -/
inductive Tenure
  /-- No membership change has made it one. -/
  | original
  /-- It has not completed a pull. -/
  | joined
  /-- It has completed a pull. -/
  | pulled
  /-- It has dropped the shard that it had from the beginning or by a pull. -/
  | dropped
deriving DecidableEq

/-- The tenure after a drop. -/
def Tenure.drop : Tenure → Tenure
  | joined => joined
  | _ => dropped

/-- The nodes, as far as the shard is concerned. -/
structure Rebalance where
  world : World
  /-- The metadata of the log. -/
  committed : MetaState
  /-- The entries that a node has not applied, oldest first. -/
  inbox : NodeId → List MetaRequest
  stage : NodeId → Stage
  /-- History: how each node became a replica. -/
  tenure : NodeId → Tenure

inductive RebalanceStep
  /-- A membership change is committed. -/
  | member (req : MetaRequest)
  /-- An entry about other shards is committed. -/
  | entry (req : MetaRequest)
  /-- A node applies the next entry of the log. -/
  | learn (node : NodeId)
  /-- A write to the shard arrives at a node. -/
  | write (node : NodeId) (reading : ℕ) (req : ReplicaWriteRequest)
  /-- A coordinator writes to its own replica. -/
  | writeLocal (node : NodeId) (req : ReplicaWriteRequest)
  /-- A node is asked for something in the shard, and opens it. -/
  | read (node : NodeId)
  | beginPass (node : NodeId)
  /-- The node is a replica and its shard is settled. -/
  | settled (node : NodeId)
  /-- The node finds no source, and takes the shard for a new one. -/
  | found (node : NodeId) (fate : ChangeFate)
  | syncing (node : NodeId) (fate : ChangeFate)
  /-- The call of the next source fails. -/
  | unreachable (node : NodeId)
  /-- The next source answers. -/
  | stream (node : NodeId)
  /-- The next record is applied. -/
  | record (node : NodeId) (reading : ℕ)
  /-- All records are applied. -/
  | cutOver (node : NodeId) (fate : ChangeFate)
  /-- No source is left to be tried. -/
  | giveUp (node : NodeId)
  | dropShard (node : NodeId)
  /-- The node is no replica and drops nothing. -/
  | leave (node : NodeId)
  /-- Anything at a node that touches neither its metadata nor the shard. -/
  | elsewhere (node : NodeId) (state : NodeState)

/-- A membership change. -/
inductive MetaRequest.Membership : MetaRequest → Prop
  | registerNode (nodeId : NodeId) (addr : String) :
      Membership (.registerNode nodeId addr)
  | deregisterNode (nodeId : NodeId) : Membership (.deregisterNode nodeId)

/-- An entry that is not about the shard, and changes no membership. -/
inductive MetaRequest.Elsewhere (collection : String) (shardIdx : UInt32) :
    MetaRequest → Prop
  | createCollection {name : String} (schema : CollectionSchema) :
      name ≠ collection →
      Elsewhere collection shardIdx (.createCollection name schema)
  | dropCollection {name : String} : name ≠ collection →
      Elsewhere collection shardIdx (.dropCollection name)
  | setShardState {name : String} {idx : UInt32} (node : NodeId)
      (state : ShardState) : ¬ (name = collection ∧ idx = shardIdx) →
      Elsewhere collection shardIdx (.setShardState name idx node state)
  | noop : Elsewhere collection shardIdx .noop

namespace Rebalance

section Step

variable (R : Runtime) (xxh64 : Bytes → UInt64) (collection : String)
variable (shardIdx : UInt32) (schema : CollectionSchema)

def setNode (s : Rebalance) (node : NodeId) (state : NodeState) : Rebalance :=
  { s with world := Function.update s.world node state }

def setStage (s : Rebalance) (node : NodeId) (stage : Stage) : Rebalance :=
  { s with stage := Function.update s.stage node stage }

/-- The shard of a node. -/
def slot (s : Rebalance) (node : NodeId) : ShardSlot :=
  (s.world node).shards.slots { collection, shardIdx }

/-- The replicas in the metadata of the log. -/
def replicas (s : Rebalance) : List NodeId :=
  s.committed.replicasForShard xxh64 collection shardIdx

/-- The node becomes a replica by the entry. -/
def Enters (s : Rebalance) (req : MetaRequest) (node : NodeId) : Prop :=
  node ∉ s.replicas xxh64 collection shardIdx ∧
    node ∈ (s.committed.apply req).1.replicasForShard xxh64 collection
      shardIdx

instance (s : Rebalance) (req : MetaRequest) (node : NodeId) :
    Decidable (s.Enters xxh64 collection shardIdx req node) :=
  inferInstanceAs (Decidable (_ ∧ _))

/-- An entry is committed; nodes that become replicas by it start a tenure. -/
def commit (s : Rebalance) (req : MetaRequest) : Rebalance :=
  { s with
    committed := (s.committed.apply req).1
    inbox := fun node => s.inbox node ++ [req]
    tenure := fun node =>
      if s.Enters xxh64 collection shardIdx req node then .joined
      else s.tenure node }

/-- A node requests a state of its replica. -/
def setState (s : Rebalance) (node : NodeId) (state : ShardState) :
    ChangeFate → Rebalance
  | .refused => s
  | _ => s.commit xxh64 collection shardIdx
      (.setShardState collection shardIdx node state)

/-- A pass on the snapshot finds the shard of the node settled. -/
def Settled (s : Rebalance) (snapshot : MetaState) (node : NodeId) : Prop :=
  snapshot.shardState collection shardIdx node = .active ∧
    (s.slot collection shardIdx node).materialized = true

/-- What a step can do. -/
inductive Step (s : Rebalance) : RebalanceStep → Rebalance → Prop
  | member {req : MetaRequest} : req.Membership →
      Step s (.member req) (s.commit xxh64 collection shardIdx req)
  | entry {req : MetaRequest} : req.Elsewhere collection shardIdx →
      Step s (.entry req) (s.commit xxh64 collection shardIdx req)
  | learn {node : NodeId} {req : MetaRequest} {rest : List MetaRequest} :
      s.inbox node = req :: rest →
      Step s (.learn node)
        { s.setNode node { s.world node with
            metadata := ((s.world node).metadata.apply req).1 } with
          inbox := Function.update s.inbox node rest }
  | write {node : NodeId} {reading : ℕ} {req : ReplicaWriteRequest} :
      req.key = { collection, shardIdx } →
      Step s (.write node reading req)
        (s.setNode node
          ((s.world node).applyReplicaWrite R reading req schema).1)
  | writeLocal {node : NodeId} {req : ReplicaWriteRequest} :
      req.key = { collection, shardIdx } →
      Step s (.writeLocal node req)
        (s.setNode node { s.world node with
          shards := ((s.world node).shards.write R
            (shardRef collection shardIdx schema) req.op (Hlc.unpack req.hlc)
            req.id req.vector req.payload).1 })
  | read {node : NodeId} :
      Step s (.read node)
        (s.setNode node { s.world node with
          shards := ((s.world node).shards.getOrOpen R
            (shardRef collection shardIdx schema)).1 })
  | beginPass {node : NodeId} : s.stage node = .idle →
      Step s (.beginPass node)
        (s.setStage node (.begun (s.world node).metadata))
  | settled {node : NodeId} {snapshot : MetaState} :
      s.stage node = .begun snapshot →
      node ∈ snapshot.replicasForShard xxh64 collection shardIdx →
      s.Settled collection shardIdx snapshot node →
      Step s (.settled node) (s.setStage node .idle)
  | found {node : NodeId} {snapshot : MetaState} {fate : ChangeFate} :
      s.stage node = .begun snapshot →
      node ∈ snapshot.replicasForShard xxh64 collection shardIdx →
      ¬ s.Settled collection shardIdx snapshot node →
      transferSources xxh64 snapshot node collection shardIdx = [] →
      Step s (.found node fate)
        (((s.setNode node { s.world node with
            shards := ((s.world node).shards.shardLen R
              (shardRef collection shardIdx schema)).1 }).setState xxh64
          collection shardIdx node .active fate).setStage node .idle)
  | syncing {node : NodeId} {snapshot : MetaState} {fate : ChangeFate} :
      s.stage node = .begun snapshot →
      node ∈ snapshot.replicasForShard xxh64 collection shardIdx →
      ¬ s.Settled collection shardIdx snapshot node →
      transferSources xxh64 snapshot node collection shardIdx ≠ [] →
      Step s (.syncing node fate)
        ((s.setState xxh64 collection shardIdx node .syncing fate).setStage
          node (match fate with
            | .committed => .acquiring
                (transferSources xxh64 snapshot node collection shardIdx)
            | _ => .idle))
  | unreachable {node : NodeId} {source : NodeId × String}
      {sources : List (NodeId × String)} :
      s.stage node = .acquiring (source :: sources) →
      Step s (.unreachable node) (s.setStage node (.acquiring sources))
  | stream {node : NodeId} {source : NodeId × String}
      {sources : List (NodeId × String)} {state : NodeState}
      {rows : List Shard.ShardRecordRow} :
      s.stage node = .acquiring (source :: sources) →
      (s.world source.1).streamShard R collection shardIdx schema =
        (state, .ok rows) →
      Step s (.stream node)
        ((s.setNode source.1 state).setStage node (.pulling sources rows))
  | record {node : NodeId} {reading : ℕ} {sources : List (NodeId × String)}
      {row : Shard.ShardRecordRow} {rows : List Shard.ShardRecordRow} :
      s.stage node = .pulling sources (row :: rows) →
      Step s (.record node reading)
        ((s.setNode node ((s.world node).pullRecord R reading collection
            shardIdx schema row).1).setStage node
          (match ((s.world node).pullRecord R reading collection shardIdx
              schema row).2 with
            | .ok _ => .pulling sources rows
            | .error _ => .acquiring sources))
  | cutOver {node : NodeId} {fate : ChangeFate}
      {sources : List (NodeId × String)} :
      s.stage node = .pulling sources [] →
      Step s (.cutOver node fate)
        (({ s with tenure := Function.update s.tenure node .pulled }.setState
          xxh64 collection shardIdx node .active fate).setStage node .idle)
  | giveUp {node : NodeId} : s.stage node = .acquiring [] →
      Step s (.giveUp node) (s.setStage node .idle)
  | dropShard {node : NodeId} {snapshot : MetaState} :
      s.stage node = .begun snapshot →
      node ∉ snapshot.replicasForShard xxh64 collection shardIdx →
      (s.world node).shards.hasShard collection shardIdx = true →
      desiredAllActive snapshot collection shardIdx
        (snapshot.replicasForShard xxh64 collection shardIdx) = true →
      Step s (.dropShard node)
        ({ s.setNode node { s.world node with
              shards := (s.world node).shards.dropShard collection shardIdx }
            with
            tenure := Function.update s.tenure node
              (s.tenure node).drop }.setStage node .idle)
  | leave {node : NodeId} {snapshot : MetaState} :
      s.stage node = .begun snapshot →
      node ∉ snapshot.replicasForShard xxh64 collection shardIdx →
      ¬ ((s.world node).shards.hasShard collection shardIdx = true ∧
        desiredAllActive snapshot collection shardIdx
          (snapshot.replicasForShard xxh64 collection shardIdx) = true) →
      Step s (.leave node) (s.setStage node .idle)
  | elsewhere {node : NodeId} {state : NodeState} :
      state.metadata = (s.world node).metadata →
      state.shards.slots { collection, shardIdx } =
        s.slot collection shardIdx node →
      Step s (.elsewhere node state) (s.setNode node state)

/-- A new collection: all nodes have applied its log, and no directory of the
shard was ever used. -/
structure Initial (s : Rebalance) : Prop where
  dim_pos : 0 < schema.dim.toNat
  known : s.committed.collections[collection]? = some schema
  active : ∀ node, s.committed.shardState collection shardIdx node = .active
  metadata_eq : ∀ node, (s.world node).metadata = s.committed
  unused : ∀ node, s.slot collection shardIdx node = .closed .empty
  inbox : ∀ node, s.inbox node = []
  idle : ∀ node, s.stage node = .idle
  original : ∀ node, s.tenure node = .original

/-- The runs whose steps are all admitted. -/
inductive Run (Admits : Rebalance → RebalanceStep → Prop) : Rebalance → Prop
  | init {s : Rebalance} : Initial collection shardIdx schema s → Run Admits s
  | step {s s' : Rebalance} (e : RebalanceStep) : Run Admits s → Admits s e →
      Step R xxh64 collection shardIdx schema s e s' → Run Admits s'

end Step

/-- What holds at the start and is kept by admitted steps holds throughout. -/
theorem Run.invariant {R : Runtime} {xxh64 : Bytes → UInt64}
    {collection : String} {shardIdx : UInt32} {schema : CollectionSchema}
    {Admits : Rebalance → RebalanceStep → Prop} {P : Rebalance → Prop}
    {s : Rebalance} (hrun : Run R xxh64 collection shardIdx schema Admits s)
    (hinit : ∀ s, s.Initial collection shardIdx schema → P s)
    (hstep : ∀ s e s', P s → Admits s e →
      Step R xxh64 collection shardIdx schema s e s' → P s') : P s := by
  induction hrun with
  | init h => exact hinit _ h
  | step e _ hadmits h ih => exact hstep _ e _ ih hadmits h

/-! ## What the steps change -/

section Fields

variable {xxh64 : Bytes → UInt64} {collection : String} {shardIdx : UInt32}
variable {s : Rebalance} {node : NodeId}

@[simp] theorem world_setNode_self (s : Rebalance) (node : NodeId)
    (state : NodeState) : (s.setNode node state).world node = state :=
  Function.update_self _ _ _

theorem world_setNode_of_ne (s : Rebalance) {other : NodeId}
    (h : other ≠ node) (state : NodeState) :
    (s.setNode node state).world other = s.world other :=
  Function.update_of_ne h _ _

@[simp] theorem slot_setNode_self (state : NodeState) :
    (s.setNode node state).slot collection shardIdx node =
      state.shards.slots { collection, shardIdx } :=
  congrArg (fun state => state.shards.slots { collection, shardIdx })
    (world_setNode_self s node state)

theorem slot_setNode_of_ne {other : NodeId} (h : other ≠ node)
    (state : NodeState) :
    (s.setNode node state).slot collection shardIdx other =
      s.slot collection shardIdx other :=
  congrArg (fun state => state.shards.slots { collection, shardIdx })
    (world_setNode_of_ne s h state)

@[simp] theorem stage_setNode (state : NodeState) :
    (s.setNode node state).stage = s.stage := rfl

@[simp] theorem tenure_setNode (state : NodeState) :
    (s.setNode node state).tenure = s.tenure := rfl

@[simp] theorem slot_setStage (stage : Stage) (other : NodeId) :
    (s.setStage node stage).slot collection shardIdx other =
      s.slot collection shardIdx other := rfl

@[simp] theorem stage_setStage_self (stage : Stage) :
    (s.setStage node stage).stage node = stage := Function.update_self _ _ _

theorem stage_setStage_of_ne {other : NodeId} (h : other ≠ node)
    (stage : Stage) : (s.setStage node stage).stage other = s.stage other :=
  Function.update_of_ne h _ _

@[simp] theorem tenure_setStage (stage : Stage) :
    (s.setStage node stage).tenure = s.tenure := rfl

theorem replicas_setShardState (m : MetaState) (state : ShardState) :
    (m.apply (.setShardState collection shardIdx node
      state)).1.replicasForShard xxh64 collection shardIdx =
        m.replicasForShard xxh64 collection shardIdx :=
  MetaState.replicas_congr rfl rfl

/-- An entry about other shards does not move a replica of the shard. -/
theorem replicas_elsewhere {req : MetaRequest}
    (h : req.Elsewhere collection shardIdx) (m : MetaState) :
    (m.apply req).1.replicasForShard xxh64 collection shardIdx =
      m.replicasForShard xxh64 collection shardIdx := by
  cases h with
  | @createCollection name schema hname =>
      rw [MetaState.apply]
      split
      · rfl
      · refine MetaState.replicas_congr rfl ?_
        rw [Std.ExtTreeMap.getElem?_insert, if_neg]
        rwa [Std.compare_eq_iff_eq]
  | @dropCollection name hname =>
      refine MetaState.replicas_congr rfl ?_
      rw [MetaState.apply, Std.ExtTreeMap.getElem?_erase, if_neg]
      rwa [Std.compare_eq_iff_eq]
  | setShardState => exact MetaState.replicas_congr rfl rfl
  | noop => rfl

/-- Nor does it change the state of one. -/
theorem shardState_elsewhere {req : MetaRequest}
    (h : req.Elsewhere collection shardIdx) (m : MetaState) (node : NodeId) :
    (m.apply req).1.shardState collection shardIdx node =
      m.shardState collection shardIdx node := by
  cases h with
  | createCollection =>
      rw [MetaState.apply]
      split <;> rfl
  | @dropCollection name hname =>
      exact MetaState.shardState_filter fun _ => by
          simp [Ne.symm hname]
  | setShardState _ _ hother =>
      rw [MetaState.shardState_setShardState, if_neg]
      exact fun hsame => hother ⟨hsame.1, hsame.2.1⟩
  | noop => rfl

theorem slot_setState (state : ShardState) (fate : ChangeFate)
    (other : NodeId) :
    (s.setState xxh64 collection shardIdx node state fate).slot collection
      shardIdx other = s.slot collection shardIdx other := by
  cases fate <;> rfl

theorem stage_setState (state : ShardState) (fate : ChangeFate) :
    (s.setState xxh64 collection shardIdx node state fate).stage =
      s.stage := by
  cases fate <;> rfl

/-- An entry that moves no replica starts no tenure. -/
theorem tenure_commit {req : MetaRequest}
    (h : (s.committed.apply req).1.replicasForShard xxh64 collection shardIdx =
      s.replicas xxh64 collection shardIdx) :
    (s.commit xxh64 collection shardIdx req).tenure = s.tenure := by
  funext other
  apply if_neg
  rintro ⟨hold, hnew⟩
  rw [h] at hnew
  exact hold hnew

theorem tenure_setState (state : ShardState) (fate : ChangeFate) :
    (s.setState xxh64 collection shardIdx node state fate).tenure =
      s.tenure := by
  cases fate with
  | refused => rfl
  | _ => exact tenure_commit (replicas_setShardState _ _)

theorem replicas_setState (state : ShardState) (fate : ChangeFate) :
    (s.setState xxh64 collection shardIdx node state fate).replicas xxh64
      collection shardIdx = s.replicas xxh64 collection shardIdx := by
  cases fate with
  | refused => rfl
  | committed => exact replicas_setShardState _ _
  | answerLost => exact replicas_setShardState _ _

end Fields

/-! ## Nodes that apply the log -/

section Applied

variable {R : Runtime} {xxh64 : Bytes → UInt64} {collection : String}
variable {shardIdx : UInt32} {schema : CollectionSchema} {s s' : Rebalance}

variable (collection shardIdx) in
/-- Nothing but the metadata of the nodes has changed, and a node that had
applied the log still has. -/
structure Applied (s s' : Rebalance) : Prop where
  committed : s'.committed = s.committed
  tenure : s'.tenure = s.tenure
  stage : s'.stage = s.stage
  slot : ∀ node, s'.slot collection shardIdx node =
    s.slot collection shardIdx node
  inbox : ∀ node, s.inbox node = [] → s'.inbox node = []

/-- A node can apply the whole log. -/
theorem Run.catchUp {Admits : Rebalance → RebalanceStep → Prop}
    (hlearn : ∀ s node, Admits s (.learn node))
    (hrun : Run R xxh64 collection shardIdx schema Admits s) (node : NodeId) :
    ∃ s', Run R xxh64 collection shardIdx schema Admits s' ∧
      Applied collection shardIdx s s' ∧ s'.inbox node = [] ∧
      (s'.world node).metadata = (s.inbox node).foldl
        (fun m req => (m.apply req).1) (s.world node).metadata := by
  induction hinbox : s.inbox node generalizing s with
  | nil =>
      exact ⟨s, hrun, ⟨rfl, rfl, rfl, fun _ => rfl, fun _ => id⟩, hinbox, rfl⟩
  | cons req rest ih =>
      obtain ⟨s', hrun', happlied, hempty, hmeta⟩ :=
        ih (hrun.step (.learn node) (hlearn s node) (.learn hinbox))
          (Function.update_self _ _ _)
      refine ⟨s', hrun', ⟨happlied.committed, happlied.tenure,
        happlied.stage, fun other => (happlied.slot other).trans ?_,
        fun other hother => happlied.inbox other ?_⟩, hempty, hmeta.trans ?_⟩
      · by_cases hnode : other = node
        · rw [hnode]
          exact slot_setNode_self _
        · exact slot_setNode_of_ne hnode _
      · have hne : other ≠ node := by
          rintro rfl
          rw [hinbox] at hother
          simp at hother
        exact (Function.update_of_ne hne _ _).trans hother
      · rw [List.foldl_cons]
        exact congrArg (fun state : NodeState => rest.foldl
          (fun m req => (m.apply req).1) state.metadata)
            (world_setNode_self s node _)

/-- All nodes can apply the whole log. -/
theorem Run.catchUpAll {Admits : Rebalance → RebalanceStep → Prop}
    (hlearn : ∀ s node, Admits s (.learn node))
    (hrun : Run R xxh64 collection shardIdx schema Admits s)
    (nodes : List NodeId) :
    ∃ s', Run R xxh64 collection shardIdx schema Admits s' ∧
      Applied collection shardIdx s s' ∧
      ∀ node ∈ nodes, s'.inbox node = [] := by
  induction nodes with
  | nil => exact ⟨s, hrun, ⟨rfl, rfl, rfl, fun _ => rfl, fun _ => id⟩, by simp⟩
  | cons node nodes ih =>
      obtain ⟨s₁, hrun₁, h₁, hnodes⟩ := ih
      obtain ⟨s₂, hrun₂, h₂, hnode, -⟩ := hrun₁.catchUp hlearn node
      refine ⟨s₂, hrun₂, ⟨h₂.committed.trans h₁.committed,
        h₂.tenure.trans h₁.tenure, h₂.stage.trans h₁.stage,
        fun other => (h₂.slot other).trans (h₁.slot other),
        fun other h => h₂.inbox other (h₁.inbox other h)⟩, ?_⟩
      intro other hother
      rcases List.mem_cons.mp hother with rfl | hother
      · exact hnode
      · exact h₂.inbox other (hnodes other hother)

end Applied

end Rebalance

end Quorvec
