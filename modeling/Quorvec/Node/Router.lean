import Quorvec.Cluster.Meta
import Quorvec.Node.HintReplay
import Quorvec.Node.ShardStore

/-!
# Coordinating a write

The coordinator sends a stamped write to every replica of the shard, itself
included, and acknowledges it when enough replicas have taken it.  For every
replica that has not answered it buffers a hint.

What the network, the disks and the clocks do while a write is coordinated is
an argument of the model, so that statements about it hold for every pattern of
failures.
-/

namespace Quorvec

open ByteCodec LastWriterWins

/-- The tunable consistency level. -/
inductive Consistency
  | one
  | quorum
  | all
deriving DecidableEq, Repr

namespace Consistency

/-- The answers required of a replica set of size `n`, clamped to `1 ..
max n 1`. -/
def count (c : Consistency) (n : ℕ) : ℕ :=
  let wanted := match c with
    | .one => 1
    | .quorum => n / 2 + 1
    | .all => n
  max 1 (min wanted (max n 1))

end Consistency

inductive RouterError
  | notFound (collection : String)
  | noReplica (collection : String) (shardIdx : UInt32)
  | dimMismatch (expected got : ℕ)
  | writeQuorum (collection : String) (shardIdx : UInt32) (needed got : ℕ)
  | readQuorum (collection : String) (shardIdx : UInt32) (needed got : ℕ)
  | shard (e : ShardStoreError)
  /-- The hint store could not be written. -/
  | hint
deriving DecidableEq, Repr

/-- The marker for a peer that could not be reached, or that answered with an
error. -/
inductive ConnError
  | connError

/-- The runtime state of a node. -/
structure NodeState where
  /-- The metadata that the node has applied. -/
  metadata : MetaState
  shards : ShardStore
  /-- The last timestamp of the node's clock. -/
  clock : Hlc
  hintLog : Option Bytes

/-- A point operation on one shard; the wire form packs the timestamp. -/
structure ReplicaWriteRequest where
  collection : String
  shardIdx : UInt32
  op : UInt32
  id : UInt64
  hlc : UInt64
  vector : List F32
  payload : Bytes
deriving DecidableEq

/-- The push of a winner to a replica that is behind it. -/
def StoredPoint.repair (winner : StoredPoint) (collection : String)
    (shardIdx : UInt32) : ReplicaWriteRequest where
  collection := collection
  shardIdx := shardIdx
  op := if winner.tombstone then ShardStore.opDelete else ShardStore.opUpsert
  id := winner.id
  hlc := winner.hlc.pack
  vector := winner.vector
  payload := winner.payload

/-- The error status of an internal call. -/
inductive Status
  | notFound (collection : String)
  | internal (e : RouterError)
deriving DecidableEq, Repr

/-- The shard of a request. -/
def ReplicaWriteRequest.key (req : ReplicaWriteRequest) : ShardKey :=
  { collection := req.collection, shardIdx := req.shardIdx }

/-! ## The view of the replicas -/

section View

variable (xxh64 : Bytes → UInt64) (metadata : MetaState) (collection : String)
variable (shardIdx : UInt32)

/-- The write view: the replicas whose address is known. -/
def replicasWithAddrs : List (NodeId × String) :=
  (metadata.replicasForShard xxh64 collection shardIdx).filterMap fun id =>
    metadata.nodes[id]?.map fun addr => (id, addr)

/-- The search view: only the active ones. -/
def activeReplicasWithAddrs : List (NodeId × String) :=
  ((metadata.replicasForShard xxh64 collection shardIdx).filter fun id =>
    metadata.shardState collection shardIdx id = .active).filterMap fun id =>
      metadata.nodes[id]?.map fun addr => (id, addr)

end View

/-- What opens the shard of a request. -/
def shardRef (collection : String) (shardIdx : UInt32)
    (schema : CollectionSchema) : ShardRef :=
  { collection, shardIdx, dim := schema.dim.toNat, metric := schema.metric }

/-! ## The receiving side -/

namespace NodeState

variable (R : Runtime)

/-- Apply a write that a peer forwarded; returns whether it won. -/
def applyReplicaWrite (reading : ℕ) (s : NodeState)
    (req : ReplicaWriteRequest) (schema : CollectionSchema) :
    NodeState × Except RouterError Bool :=
  let hlc := Hlc.unpack req.hlc
  -- the receive rule of the clock
  let s := { s with clock := HlcClock.update s.clock reading hlc }
  match s.shards.write R (shardRef req.collection req.shardIdx schema) req.op
      hlc req.id req.vector req.payload with
  | (shards, .ok outcome) => ({ s with shards }, .ok (outcome = .applied))
  | (shards, .error e) => ({ s with shards }, .error (.shard e))

/-- One point of `coordinate_upsert`: the request that is replicated. -/
def stampUpsert (xxh64 : Bytes → UInt64) (reading : ℕ) (s : NodeState)
    (collection : String) (id : UInt64) (vector : List F32)
    (payload : Bytes) : NodeState × Except RouterError ReplicaWriteRequest :=
  match s.metadata.collections[collection]? with
  | none => (s, .error (.notFound collection))
  | some schema =>
      if vector.length ≠ schema.dim.toNat then
        (s, .error (.dimMismatch schema.dim.toNat vector.length))
      else
        let hlc := HlcClock.now s.clock reading
        ({ s with clock := hlc }, .ok
          { collection
            shardIdx := shardForId xxh64 id schema.shardCount
            op := ShardStore.opUpsert, id, hlc := hlc.pack, vector, payload })

/-- One id of `coordinate_delete`. -/
def stampDelete (xxh64 : Bytes → UInt64) (reading : ℕ) (s : NodeState)
    (collection : String) (id : UInt64) :
    NodeState × Except RouterError ReplicaWriteRequest :=
  match s.metadata.collections[collection]? with
  | none => (s, .error (.notFound collection))
  | some schema =>
      let hlc := HlcClock.now s.clock reading
      ({ s with clock := hlc }, .ok
        { collection
          shardIdx := shardForId xxh64 id schema.shardCount
          op := ShardStore.opDelete, id, hlc := hlc.pack, vector := []
          payload := [] })

/-- The version of an id, read from this node's own replica. -/
def readLocal (s : NodeState) (collection : String) (shardIdx : UInt32)
    (schema : CollectionSchema) (id : UInt64) :
    NodeState × Except RouterError (Option StoredPoint) :=
  match s.shards.getVersioned R (shardRef collection shardIdx schema) id with
  | (shards, .ok p) => ({ s with shards }, .ok p)
  | (shards, .error e) => ({ s with shards }, .error (.shard e))

/-- The handler that reads the version of an id. -/
def replicaGet (s : NodeState) (collection : String) (shardIdx : UInt32)
    (id : UInt64) : NodeState × Except Status (Option StoredPoint) :=
  match s.metadata.collections[collection]? with
  | none => (s, .error (.notFound collection))
  | some schema =>
      match s.readLocal R collection shardIdx schema id with
      | (s, .ok p) => (s, .ok p)
      | (s, .error e) => (s, .error (.internal e))

/-- The handler of the internal call. -/
def replicaWrite (reading : ℕ) (s : NodeState) (req : ReplicaWriteRequest) :
    NodeState × Except Status Bool :=
  match s.metadata.collections[req.collection]? with
  | none => (s, .error (.notFound req.collection))
  | some schema =>
      match s.applyReplicaWrite R reading req schema with
      | (s, .ok applied) => (s, .ok applied)
      | (s, .error e) => (s, .error (.internal e))

end NodeState

/-! ## The coordinating side -/

/-- The nodes by id; an address in the directory reaches the node that
registered it. -/
abbrev World := NodeId → NodeState

/-- What becomes of one replica's part of a write. -/
inductive ReplicaFate
  /-- The write runs and its answer arrives. -/
  | answered
  /-- A remote replica is never reached. -/
  | unreachable
  /-- The write runs at a remote replica, but no answer arrives in time. -/
  | answerLost
  /-- Storage fails and leaves some state behind. -/
  | storageFault (shards : ShardStore)

/-- What the environment does while one write is coordinated. -/
structure Env where
  fate : NodeId → ReplicaFate
  /-- What the system clocks show. -/
  reading : NodeId → ℕ
  /-- The log that a failing `buffer_hint` leaves behind; `none` if it does
  not fail. -/
  hintFault : Hint → Option (Option Bytes)

/-- The write of a request as a hint for a replica. -/
def ReplicaWriteRequest.hintFor (req : ReplicaWriteRequest)
    (target : NodeId) : Hint where
  targetNode := target
  collection := req.collection
  shardIdx := req.shardIdx
  op := if req.op = ShardStore.opDelete then .delete else .upsert
  hlc := Hlc.unpack req.hlc
  id := req.id
  vector := req.vector
  payload := req.payload

section Coordinate

variable (R : Runtime) (env : Env) (self : NodeId)

/-- Apply one write to a replica.  `ok true` says that the replica holds the
write or a newer one. -/
def writeOneReplica (w : World) (node : NodeId) (req : ReplicaWriteRequest)
    (schema : CollectionSchema) : World × Except ConnError Bool :=
  if node = self then
    match env.fate node with
    | .storageFault shards =>
        (Function.update w node { w node with shards }, .ok false)
    | _ =>
        match (w node).shards.write R
            (shardRef req.collection req.shardIdx schema) req.op
            (Hlc.unpack req.hlc) req.id req.vector req.payload with
        | (shards, .ok _) =>
            (Function.update w node { w node with shards }, .ok true)
        | (shards, .error _) =>
            (Function.update w node { w node with shards }, .ok false)
  else
    match env.fate node with
    | .unreachable => (w, .error .connError)
    | .storageFault shards =>
        (Function.update w node { w node with shards }, .error .connError)
    | .answerLost =>
        (Function.update w node
          ((w node).replicaWrite R (env.reading node) req).1,
          .error .connError)
    | .answered =>
        match (w node).replicaWrite R (env.reading node) req with
        | (s, .ok _) => (Function.update w node s, .ok true)
        | (s, .error _) => (Function.update w node s, .error .connError)

/-- The loop over the replicas: the number of acknowledgements and the
replicas without one, in order. -/
def writeReplicas (req : ReplicaWriteRequest) (schema : CollectionSchema) :
    List (NodeId × String) → World → World × ℕ × List NodeId
  | [], w => (w, 0, [])
  | (node, _) :: replicas, w =>
      match writeOneReplica R env self w node req schema with
      | (w, res) =>
          match writeReplicas req schema replicas w with
          | (w, acks, unreachable) =>
              match res with
              | .ok true => (w, acks + 1, unreachable)
              | _ => (w, acks, node :: unreachable)

/-- The loop over the replicas without an acknowledgement.  Returns the hints
that were reported durable; the first failure ends the loop. -/
def bufferHints (req : ReplicaWriteRequest) :
    List NodeId → Option Bytes → Option Bytes × List Hint × Except RouterError Unit
  | [], log => (log, [], .ok ())
  | target :: targets, log =>
      let hint := req.hintFor target
      match env.hintFault hint with
      | some log => (log, [], .error .hint)
      | none =>
          match bufferHints req targets (bufferHint R.crc32 log hint) with
          | (log, reported, res) => (log, hint :: reported, res)

/-- The outcome of a coordinated write. -/
structure WriteReport where
  world : World
  /-- The hints that `buffer_hint` reported durable. -/
  hinted : List Hint
  result : Except RouterError Unit

/-- Replicate one write to all replicas, acknowledge at `W`, hint the
rest. -/
def replicateWrite (xxh64 : Bytes → UInt64) (w : World) (metadata : MetaState)
    (schema : CollectionSchema) (req : ReplicaWriteRequest)
    (consistency : Consistency) : WriteReport :=
  let replicas := replicasWithAddrs xxh64 metadata req.collection req.shardIdx
  if replicas.isEmpty then
    { world := w, hinted := []
      result := .error (.noReplica req.collection req.shardIdx) }
  else
    let needed := consistency.count replicas.length
    let written := writeReplicas R env self req schema replicas w
    let hints := bufferHints R env req written.2.2 (written.1 self).hintLog
    { world := Function.update written.1 self
        { written.1 self with hintLog := hints.1 }
      hinted := hints.2.1
      result :=
        match hints.2.2 with
        | .error e => .error e
        | .ok () =>
            if written.2.1 ≥ needed then .ok ()
            else .error (.writeQuorum req.collection req.shardIdx needed
              written.2.1) }

end Coordinate

end Quorvec
