import Quorvec.Node.Transfer

/-!
# One reconcile pass

A node compares the shards that it has open with the placement that its
metadata gives.  A shard that it should hold is acquired from an active peer,
and a shard that it should not hold is closed once all replicas are active.  A
pass works on the metadata that it has read at its start.
-/

namespace Quorvec

open ByteCodec

/-- What becomes of a change that is requested of the log. -/
inductive ChangeFate
  | committed
  | refused
  /-- It is committed, but the node is not told so. -/
  | answerLost

/-- What a pass meets outside its node. -/
structure ReconcileEnv where
  change : ShardKey → ShardState → ChangeFate
  /-- Whether the calls of a node are answered. -/
  reaches : NodeId → Bool
  /-- What the system clock shows when a record is applied. -/
  reading : Shard.ShardRecordRow → ℕ

/-- The nodes in the course of a pass, and what the pass has asked of the log,
latest first. -/
structure Pass where
  world : World
  requested : List MetaRequest
  committed : List MetaRequest

/-- The shards of a node change. -/
def Pass.setShards (p : Pass) (node : NodeId) (shards : ShardStore) : Pass :=
  { p with
      world := Function.update p.world node { p.world node with shards } }

/-- The active peers of a shard that have an address, in the order of the
ring. -/
def transferSources (xxh64 : Bytes → UInt64) (snapshot : MetaState)
    (me : NodeId) (collection : String) (shardIdx : UInt32) :
    List (NodeId × String) :=
  (((snapshot.replicasForShard xxh64 collection shardIdx).filter
      fun id => id ≠ me).filter fun id =>
        snapshot.shardState collection shardIdx id = .active).filterMap
    fun id => snapshot.nodes[id]?.map fun addr => (id, addr)

/-- Whether every replica of a shard is active. -/
def desiredAllActive (snapshot : MetaState) (collection : String)
    (shardIdx : UInt32) (desired : List NodeId) : Bool :=
  !desired.isEmpty && desired.all fun id =>
    snapshot.shardState collection shardIdx id = .active

section Pull

variable (R : Runtime)

/-- Apply records in order; returns how many won. -/
def NodeState.pullRecords (reading : Shard.ShardRecordRow → ℕ)
    (collection : String) (shardIdx : UInt32) (schema : CollectionSchema) :
    List Shard.ShardRecordRow → NodeState → NodeState × Except RouterError ℕ
  | [], s => (s, .ok 0)
  | row :: rows, s =>
      match s.pullRecord R (reading row) collection shardIdx schema row with
      | (s, .error e) => (s, .error e)
      | (s, .ok outcome) =>
          match pullRecords reading collection shardIdx schema rows s with
          | (s, .ok n) => (s, .ok (if outcome = .applied then n + 1 else n))
          | (s, .error e) => (s, .error e)

variable (env : ReconcileEnv) (me : NodeId) (collection : String)
variable (shardIdx : UInt32) (schema : CollectionSchema)

/-- Pull the records of a shard from a source. -/
def pullShard (source : NodeId) (w : World) :
    World × Except RouterError ℕ :=
  if env.reaches source then
    match (w source).metadata.collections[collection]? with
    | none => (w, .error (.noReplica collection shardIdx))
    | some known =>
        match (w source).streamShard R collection shardIdx known with
        | (state, .error _) =>
            (Function.update w source state,
              .error (.noReplica collection shardIdx))
        | (state, .ok rows) =>
            let w := Function.update w source state
            match (w me).pullRecords R env.reading collection shardIdx schema
                rows with
            | (target, res) => (Function.update w me target, res)
  else (w, .error (.noReplica collection shardIdx))

/-- Pull from the first source that does not fail. -/
def pullFirst : List (NodeId × String) → World → World × Bool
  | [], w => (w, false)
  | (source, _) :: sources, w =>
      match pullShard R env me collection shardIdx schema source w with
      | (w, .ok _) => (w, true)
      | (w, .error _) => pullFirst sources w

end Pull

namespace Pass

section Reconcile

variable (R : Runtime) (xxh64 : Bytes → UInt64) (env : ReconcileEnv)
variable (me : NodeId)

/-- Request a shard-state change; says whether it is known to be committed. -/
def setState (p : Pass) (key : ShardKey) (state : ShardState) : Pass × Bool :=
  let req := MetaRequest.setShardState key.collection key.shardIdx me state
  match env.change key state with
  | .committed =>
      ({ p with
          requested := req :: p.requested
          committed := req :: p.committed }, true)
  | .refused => ({ p with requested := req :: p.requested }, false)
  | .answerLost =>
      ({ p with
          requested := req :: p.requested
          committed := req :: p.committed }, false)

variable (snapshot : MetaState) (collection : String)
variable (schema : CollectionSchema) (shardIdx : UInt32)

/-- The length of a shard, which is opened for it; `none` on an error. -/
def shardLen (p : Pass) : Pass × Option ℕ :=
  match (p.world me).shards.shardLen R (shardRef collection shardIdx schema)
    with
  | (shards, .ok n) => (p.setShards me shards, some n)
  | (shards, .error _) => (p.setShards me shards, none)

/-- Acquire a shard; says whether a transfer was completed. -/
def acquireShard (p : Pass) : Pass × Bool :=
  match transferSources xxh64 snapshot me collection shardIdx with
  | [] =>
      -- no active peer: the shard is taken for a new one
      let p := (p.shardLen R me collection schema shardIdx).1
      ((p.setState env me { collection, shardIdx } .active).1, false)
  | source :: sources =>
      match p.setState env me { collection, shardIdx } .syncing with
      | (p, false) => (p, false)
      | (p, true) =>
          match pullFirst R env me collection shardIdx schema
              (source :: sources) p.world with
          | (world, false) => ({ p with world }, false)
          | (world, true) =>
              (({ p with world }.setState env me { collection, shardIdx }
                .active).1, true)

/-- One shard of a pass; returns the number of transfers. -/
def reconcileShard (p : Pass) : Pass × ℕ :=
  let desired := snapshot.replicasForShard xxh64 collection shardIdx
  let hold := (p.world me).shards.hasShard collection shardIdx
  if me ∈ desired then
    let (p, len) :=
      if hold then p.shardLen R me collection schema shardIdx else (p, none)
    if snapshot.shardState collection shardIdx me = .active ∧
        0 < len.getD 0 then (p, 0)
    else
      match p.acquireShard R xxh64 env me snapshot collection schema shardIdx
        with
      | (p, transferred) => (p, if transferred then 1 else 0)
  else if hold ∧ desiredAllActive snapshot collection shardIdx desired then
    (p.setShards me ((p.world me).shards.dropShard collection shardIdx), 0)
  else (p, 0)

end Reconcile

end Pass

/-- A shard is open and has a live point: `materialized_nonempty`. -/
def ShardSlot.materialized : ShardSlot → Bool
  | .opened s => 0 < s.len
  | .closed _ => false

section Spec

variable {R : Runtime} {xxh64 : Bytes → UInt64} {env : ReconcileEnv}
variable {me : NodeId} {snapshot : MetaState} {collection : String}
variable {schema : CollectionSchema} {shardIdx : UInt32} {p : Pass}

namespace Pass

theorem setShards_self : p.setShards me (p.world me).shards = p := by
  rw [setShards, Function.update_eq_self]

theorem world_setState (key : ShardKey) (state : ShardState) :
    (p.setState env me key state).1.world = p.world := by
  unfold setState
  split <;> rfl

theorem setState_snd (key : ShardKey) (state : ShardState) :
    (p.setState env me key state).2 = true ↔
      env.change key state = .committed := by
  unfold setState
  split <;> simp_all

theorem shardLen_of_opened {s : Shard}
    (hslot : (p.world me).shards.slots { collection, shardIdx } =
      .opened s) :
    p.shardLen R me collection schema shardIdx = (p, some s.len) := by
  have hread := @ShardStore.read_of_opened R (p.world me).shards
    (shardRef collection shardIdx schema) _ s hslot fun s => .ok s.len
  simp only [shardLen, ShardStore.shardLen, hread, Except.mapError]
  rw [setShards_self]

/-- A replica that is active and has a live point in memory is left alone, and
any other one acquires the shard. -/
theorem reconcileShard_of_mem
    (hme : me ∈ snapshot.replicasForShard xxh64 collection shardIdx) :
    p.reconcileShard R xxh64 env me snapshot collection schema shardIdx =
      if snapshot.shardState collection shardIdx me = .active ∧
          ((p.world me).shards.slots
            { collection, shardIdx }).materialized = true then (p, 0)
      else
        ((p.acquireShard R xxh64 env me snapshot collection schema shardIdx).1,
          if (p.acquireShard R xxh64 env me snapshot collection schema
            shardIdx).2 then 1 else 0) := by
  unfold reconcileShard
  rcases hslot : (p.world me).shards.slots { collection, shardIdx } with
    dir | s
  · simp [hme, ShardStore.hasShard, hslot, ShardSlot.materialized]
  · simp [hme, ShardStore.hasShard, hslot, ShardSlot.materialized,
      shardLen_of_opened hslot]

end Pass

end Spec

/-- The shards of all collections. -/
def MetaState.allShards (s : MetaState) :
    List (String × CollectionSchema × UInt32) :=
  s.collections.toList.flatMap fun (name, schema) =>
    (List.range schema.shardCount.toNat).map fun i =>
      (name, schema, UInt32.ofNat i)

section Once

variable (R : Runtime) (xxh64 : Bytes → UInt64) (env : ReconcileEnv)
variable (me : NodeId)

/-- The loop over the shards. -/
def Pass.reconcileAll (snapshot : MetaState) :
    List (String × CollectionSchema × UInt32) → Pass → Pass × ℕ
  | [], p => (p, 0)
  | (collection, schema, shardIdx) :: shards, p =>
      match p.reconcileShard R xxh64 env me snapshot collection schema shardIdx
        with
      | (p, n) =>
          match reconcileAll snapshot shards p with
          | (p, transfers) => (p, n + transfers)

/-- One full pass of a node; returns the number of transfers. -/
def reconcileOnce (w : World) : Pass × ℕ :=
  Pass.reconcileAll R xxh64 env me (w me).metadata (w me).metadata.allShards
    { world := w, requested := [], committed := [] }

end Once

end Quorvec
