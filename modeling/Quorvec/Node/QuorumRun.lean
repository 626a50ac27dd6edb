import Quorvec.Node.DurableSlot
import Quorvec.Node.Reads

/-!
# Concurrent coordination on one shard

Any number of writes and reads of one shard are coordinated at once, each
trying its replicas one after the other.  In between requests arrive late,
hints are replayed, repairs are pushed, and nodes crash and restart.

The replicas of the shard stay the same and its collection is not dropped; all
else that the nodes do is left open.
-/

namespace Quorvec

open TotalCorrectness LastWriterWins ByteCodec Quorum

/-- A shard with its replicas. -/
structure FixedShard where
  collection : String
  shardIdx : UInt32
  schema : CollectionSchema
  nodes : List NodeId

namespace FixedShard

def key (f : FixedShard) : ShardKey :=
  { collection := f.collection, shardIdx := f.shardIdx }

def sref (f : FixedShard) : ShardRef :=
  shardRef f.collection f.shardIdx f.schema

def n (f : FixedShard) : ℕ := f.nodes.length

/-- Metadata that knows the collection has this schema and these replicas. -/
def Pinned (xxh64 : Bytes → UInt64) (f : FixedShard)
    (metadata : MetaState) : Prop :=
  ∀ schema, metadata.collections[f.collection]? = some schema →
    schema = f.schema ∧
      (replicasWithAddrs xxh64 metadata f.collection f.shardIdx).map
        Prod.fst = f.nodes

end FixedShard

/-- The environment of one call to a replica. -/
def CallFate.env (fate : CallFate) (reading : ℕ) : Env where
  fate _ :=
    match fate with
    | .answered => .answered
    | .unreachable => .unreachable
    | .answerLost => .answerLost
  reading _ := reading
  hintFault _ := none

/-! ## Calls in progress -/

/-- A write that is being coordinated. -/
structure WriteCall where
  coordinator : NodeId
  req : ReplicaWriteRequest
  schema : CollectionSchema
  consistency : Consistency
  /-- The size of the replica set. -/
  n : ℕ
  /-- The replicas that are still to be tried. -/
  remaining : List (NodeId × String)
  acks : ℕ
  unreachable : List NodeId

/-- The loop body of `replicate_write`, after the replica was tried. -/
def WriteCall.tried (call : WriteCall) (node : NodeId)
    (remaining : List (NodeId × String)) (res : Except ConnError Bool) :
    WriteCall :=
  match res with
  | .ok true => { call with remaining, acks := call.acks + 1 }
  | _ => { call with remaining, unreachable := call.unreachable ++ [node] }

/-- The result after the loop; `hints` is what buffering the hints came to. -/
def WriteCall.result (call : WriteCall) (hints : Except RouterError Unit) :
    Except RouterError Unit :=
  let needed := call.consistency.count call.n
  match if call.unreachable.isEmpty then .ok () else hints with
  | .error e => .error e
  | .ok () =>
      if call.acks ≥ needed then .ok ()
      else .error (.writeQuorum call.req.collection call.req.shardIdx needed
        call.acks)

/-- A read of one id that is being coordinated. -/
structure GetCall where
  coordinator : NodeId
  id : UInt64
  schema : CollectionSchema
  consistency : Consistency
  n : ℕ
  remaining : List (NodeId × String)
  responses : Responses
  /-- The writes that were acknowledged before the read began. -/
  ackedBefore : List (ReplicaWriteRequest × Consistency)

/-- The loop body of `coordinate_get`, after the replica was tried. -/
def GetCall.tried (call : GetCall) (node : NodeId)
    (remaining : List (NodeId × String))
    (res : Except ConnError (Option StoredPoint)) : GetCall :=
  match res with
  | .ok p => { call with remaining, responses := call.responses ++ [(node, p)] }
  | .error _ => { call with remaining }

structure QuorumState where
  world : World
  /-- Every request for the shard that was ever sent. -/
  sent : List ReplicaWriteRequest
  /-- The writes that coordinators have stamped. -/
  issued : List ReplicaWriteRequest
  writes : ℕ → Option WriteCall
  gets : ℕ → Option GetCall
  /-- The writes that were acknowledged, with their level. -/
  acked : List (ReplicaWriteRequest × Consistency)

inductive QuorumStep
  | startUpsert (call : ℕ) (node : NodeId) (reading : ℕ) (id : UInt64)
      (vector : List F32) (payload : Bytes) (consistency : Consistency)
  | startDelete (call : ℕ) (node : NodeId) (reading : ℕ) (id : UInt64)
      (consistency : Consistency)
  /-- A write tries its next replica. -/
  | tryWrite (call : ℕ) (fate : CallFate) (reading : ℕ)
  /-- A write ends; its hints were buffered or not. -/
  | endWrite (call : ℕ) (hints : Except RouterError Unit)
  | startGet (call : ℕ) (node : NodeId) (id : UInt64)
      (consistency : Consistency)
  /-- A read tries its next replica. -/
  | tryGet (call : ℕ) (fate : CallFate)
  | endGet (call : ℕ)
  /-- A request arrives: a hint, a repair, or one that was given up. -/
  | deliver (node : NodeId) (reading : ℕ) (req : ReplicaWriteRequest)
  /-- A node repairs its own replica. -/
  | deliverLocal (node : NodeId) (req : ReplicaWriteRequest)

namespace QuorumState

section Step

variable (R : Runtime) (xxh64 : Bytes → UInt64) (f : FixedShard)

def setNode (s : QuorumState) (node : NodeId) (state : NodeState) :
    QuorumState :=
  { s with world := Function.update s.world node state }

/-- A coordinator has stamped a write to the shard. -/
def startWrite (s : QuorumState) (call : ℕ) (node : NodeId)
    (consistency : Consistency)
    (out : NodeState × Except RouterError ReplicaWriteRequest) :
    Option QuorumState :=
  match out, (s.world node).metadata.collections[f.collection]? with
  | (state, .ok req), some schema =>
      let replicas := replicasWithAddrs xxh64 (s.world node).metadata
        f.collection f.shardIdx
      if req.key = f.key then
        some { s with
          world := Function.update s.world node state
          sent := req :: s.sent
          issued := req :: s.issued
          writes := Function.update s.writes call (some
            { coordinator := node, req, schema, consistency
              n := replicas.length, remaining := replicas, acks := 0
              unreachable := [] }) }
      else none
  | _, _ => none

/-- One step; `none` if it cannot happen. -/
def step (s : QuorumState) : QuorumStep → Option QuorumState
  | .startUpsert call node reading id vector payload consistency =>
      s.startWrite xxh64 f call node consistency
        ((s.world node).stampUpsert xxh64 reading f.collection id vector
          payload)
  | .startDelete call node reading id consistency =>
      s.startWrite xxh64 f call node consistency
        ((s.world node).stampDelete xxh64 reading f.collection id)
  | .tryWrite i fate reading => do
      let call ← s.writes i
      match call.remaining with
      | [] => none
      | (node, _) :: remaining =>
          match writeOneReplica R (fate.env reading) call.coordinator s.world
              node call.req call.schema with
          | (world, res) => some { s with
              world
              writes := Function.update s.writes i
                (some (call.tried node remaining res)) }
  | .endWrite i hints => do
      let call ← s.writes i
      match call.remaining, call.result hints with
      | [], .ok () => some { s with
          writes := Function.update s.writes i none
          acked := (call.req, call.consistency) :: s.acked }
      | [], .error _ =>
          some { s with writes := Function.update s.writes i none }
      | _ :: _, _ => none
  | .startGet i node id consistency =>
      match (s.world node).metadata.collections[f.collection]? with
      | some schema =>
          let replicas := replicasWithAddrs xxh64 (s.world node).metadata
            f.collection f.shardIdx
          if shardForId xxh64 id schema.shardCount = f.shardIdx ∧
              replicas ≠ [] then
            some { s with gets := Function.update s.gets i (some
              { coordinator := node, id, schema, consistency
                n := replicas.length, remaining := replicas, responses := []
                ackedBefore := s.acked }) }
          else none
      | none => none
  | .tryGet i fate => do
      let call ← s.gets i
      match call.remaining with
      | [] => none
      | (node, _) :: remaining =>
          match readOneReplica R call.coordinator fate s.world node
              f.collection f.shardIdx call.id call.schema with
          | (world, res) => some { s with
              world
              gets := Function.update s.gets i
                (some (call.tried node remaining res)) }
  | .endGet i => do
      let call ← s.gets i
      match call.remaining, call.responses.outcome f.collection f.shardIdx
          call.consistency call.n with
      | [], .ok (some win) => some { s with
          gets := Function.update s.gets i none
          sent := (call.responses.stale win).map
            (fun _ => win.repair f.collection f.shardIdx) ++ s.sent }
      | [], _ => some { s with gets := Function.update s.gets i none }
      | _ :: _, _ => none
  | .deliver node reading req =>
      if req ∈ s.sent then
        some (s.setNode node ((s.world node).replicaWrite R reading req).1)
      else none
  | .deliverLocal node req =>
      if req ∈ s.sent then
        some (s.setNode node { s.world node with
          shards := ((s.world node).shards.write R f.sref req.op
            (Hlc.unpack req.hlc) req.id req.vector req.payload).1 })
      else none

/-- A node restarts with what its disk holds of the shard. -/
structure Restarts (sent : List ReplicaWriteRequest) (old new : NodeState) :
    Prop where
  pinned : f.Pinned xxh64 new.metadata
  fsync : new.shards.walBatchMs = 0
  crashed : ShardSlot.Crashed R f.sref.dim f.sref.metric
    (fun c => ∃ req ∈ sent, ShardStore.callOf req.op (Hlc.unpack req.hlc)
      req.id req.vector req.payload = c)
    (old.shards.slots f.key) (new.shards.slots f.key)

/-- The calls that a node coordinates end with it. -/
def crash (s : QuorumState) (node : NodeId) (state : NodeState) :
    QuorumState :=
  { s with
    world := Function.update s.world node state
    writes := fun i => (s.writes i).filter fun call =>
      call.coordinator != node
    gets := fun i => (s.gets i).filter fun call =>
      call.coordinator != node }

/-- Whatever else a node does, the shard is not touched. -/
structure Elsewhere (old new : NodeState) : Prop where
  pinned : f.Pinned xxh64 new.metadata
  fsync : new.shards.walBatchMs = 0
  slot_eq : new.shards.slots f.key = old.shards.slots f.key

/-- Nodes in fsync mode that have not used the shard yet. -/
structure Initial (s : QuorumState) : Prop where
  dim_pos : 0 < f.sref.dim
  pinned : ∀ node, f.Pinned xxh64 (s.world node).metadata
  fsync : ∀ node, (s.world node).shards.walBatchMs = 0
  unused : ∀ node, (s.world node).shards.slots f.key = .closed .empty
  sent : s.sent = []
  issued : s.issued = []
  writes : ∀ i, s.writes i = none
  gets : ∀ i, s.gets i = none
  acked : s.acked = []

/-- The runs whose steps are all admitted. -/
inductive Run (Admits : QuorumState → QuorumStep → Prop) :
    QuorumState → Prop
  | init {s : QuorumState} : Initial xxh64 f s → Run Admits s
  | step {s s' : QuorumState} (e : QuorumStep) : Run Admits s →
      Admits s e → s.step R xxh64 f e = some s' → Run Admits s'
  | crash {s : QuorumState} {node : NodeId} {state : NodeState} :
      Run Admits s → Restarts R xxh64 f s.sent (s.world node) state →
      Run Admits (s.crash node state)
  | elsewhere {s : QuorumState} {node : NodeId} {state : NodeState} :
      Run Admits s → Elsewhere xxh64 f (s.world node) state →
      Run Admits (s.setNode node state)

end Step

end QuorumState

/-- What a read returns when a write wins. -/
def returnedOf (id : UInt64) (w : Hlc × Content) : List (UInt64 × List F32) :=
  match w.2 with
  | none => []
  | some vector => [(id, vector)]

/-- In every admitted run, a read that succeeds with enough answers, and that
began after a write was acknowledged, returns that write or one with a higher
stamp. -/
def ReadsAcknowledged (R : Runtime) (xxh64 : Bytes → UInt64) (f : FixedShard)
    (Admits : QuorumState → QuorumStep → Prop) : Prop :=
  ∀ s, QuorumState.Run R xxh64 f Admits s →
    ∀ i call, s.gets i = some call → call.remaining = [] →
    ∀ winner, call.responses.outcome f.collection f.shardIdx call.consistency
      call.n = .ok winner →
    ∀ req level, (req, level) ∈ call.ackedBefore → req.id = call.id →
      f.n < level.count f.n + call.consistency.count f.n →
      ∃ win, winner = some win ∧ req.written.1 ≤ win.hlc ∧
        ∃ source ∈ s.issued, source.id = req.id ∧
          (source.written = req.written ∨
            req.written.1 < source.written.1) ∧
          returned winner = returnedOf req.id source.written

/-- The request that a coordinator stamps. -/
def QuorumStep.stamps (xxh64 : Bytes → UInt64) (f : FixedShard)
    (s : QuorumState) : QuorumStep → Option ReplicaWriteRequest
  | .startUpsert _ node reading id vector payload _ =>
      ((s.world node).stampUpsert xxh64 reading f.collection id vector
        payload).2.toOption
  | .startDelete _ node reading id _ =>
      ((s.world node).stampDelete xxh64 reading f.collection id).2.toOption
  | _ => none

/-- A write that is started fits its frame, and is stamped apart from the
writes before. -/
def QuorumStep.FitsApart (xxh64 : Bytes → UInt64) (f : FixedShard)
    (s : QuorumState) (e : QuorumStep) : Prop :=
  ∀ req, e.stamps xxh64 f s = some req →
    req.FitsFrame ∧ req.Apart s.issued

end Quorvec
