import Quorvec.Node.WrittenSlot

/-!
# The life of a collection name

A name is created and dropped through the log, and every node applies the
entries in its own time.  Operations that took the schema before a drop, and
requests and hints that were sent before, may still run after it.  The node that
serves a drop closes its shards of the name; the directories stay.
-/

namespace Quorvec

open ByteCodec

/-- The nodes, as far as one name is concerned. -/
structure NameState where
  world : World
  /-- The schema that the log gives the name. -/
  committed : Option CollectionSchema
  /-- The entries for the name that a node has not applied, oldest first. -/
  inbox : NodeId → List (Option CollectionSchema)
  /-- The schemas that operations in progress have taken. -/
  views : List CollectionSchema
  /-- Requests and hints for the name that may still arrive. -/
  pending : List ReplicaWriteRequest
  /-- The writes to the name that were stamped since it was last dropped. -/
  since : List ReplicaWriteRequest

inductive NameStep
  | create (schema : CollectionSchema)
  | drop
  /-- A node applies the next entry of the log. -/
  | learn (node : NodeId) (metadata : MetaState)
  /-- The node that served a drop closes its shards. -/
  | dropLocal (node : NodeId)
  /-- An operation takes the schema that its node knows. -/
  | begin (node : NodeId)
  /-- An operation stamps a write with the metadata that it has taken. -/
  | upsert (node : NodeId) (reading : ℕ) (taken : MetaState) (id : UInt64)
      (vector : List F32) (payload : Bytes)
  | delete (node : NodeId) (reading : ℕ) (taken : MetaState) (id : UInt64)
  /-- A request arrives at a replica. -/
  | receive (node : NodeId) (reading : ℕ) (req : ReplicaWriteRequest)
  /-- An operation applies a request to its own replica. -/
  | applyLocal (node : NodeId) (schema : CollectionSchema)
      (req : ReplicaWriteRequest)
  /-- A replica is asked for the version of an id. -/
  | get (node : NodeId) (shardIdx : UInt32) (id : UInt64)
  /-- An operation reads its own replica. -/
  | readLocal (node : NodeId) (schema : CollectionSchema) (shardIdx : UInt32)
      (id : UInt64)
  | search (node : NodeId) (schema : CollectionSchema) (shardIdx : UInt32)
      (query : List F32) (k efSearch : ℕ)
  /-- A source enumerates its records. -/
  | stream (node : NodeId) (schema : CollectionSchema) (shardIdx : UInt32)
  /-- A target applies a record that was enumerated. -/
  | pull (node : NodeId) (reading : ℕ) (schema : CollectionSchema)
      (shardIdx : UInt32) (row : Shard.ShardRecordRow)
  /-- Requests are delivered for the last time or given up, and operations
  end. -/
  | settle (pending : List ReplicaWriteRequest)
      (views : List CollectionSchema)
  /-- Anything at a node that does not touch the name. -/
  | elsewhere (node : NodeId) (state : NodeState)

namespace NameState

section Step

variable (R : Runtime) (xxh64 : Bytes → UInt64) (name : String)

def setNode (s : NameState) (node : NodeId) (state : NodeState) :
    NameState :=
  { s with world := Function.update s.world node state }

/-- An entry for the name is committed. -/
def commit (s : NameState) (entry : Option CollectionSchema) : NameState :=
  { s with committed := entry, inbox := fun node => s.inbox node ++ [entry] }

/-- A coordinator has stamped a request, or refused the operation.  Stamping
reads the metadata that was taken and moves the clock only. -/
def stamped (s : NameState) (node : NodeId) :
    NodeState × Except RouterError ReplicaWriteRequest → NameState
  | (state, .ok req) => { s.setNode node { s.world node with
        clock := state.clock } with
      pending := req :: s.pending, since := req :: s.since }
  | (_, .error _) => s

/-- A replica has answered a read; what was read is pushed to replicas that are
behind. -/
def answered {ε : Type} (s : NameState) (node : NodeId) (shardIdx : UInt32) :
    NodeState × Except ε (Option StoredPoint) → NameState
  | (state, .ok (some p)) => { s.setNode node state with
      pending := p.repair name shardIdx :: s.pending }
  | (state, _) => s.setNode node state

/-- A source has enumerated its records. -/
def streamed {ε : Type} (s : NameState) (node : NodeId) (shardIdx : UInt32) :
    NodeState × Except ε (List Shard.ShardRecordRow) → NameState
  | (state, .ok rows) => { s.setNode node state with
      pending := rows.map (·.request name shardIdx) ++ s.pending }
  | (state, .error _) => s.setNode node state

/-- A node changes, but neither its schema nor its shards of the name. -/
structure Elsewhere (old new : NodeState) : Prop where
  schema_eq : new.metadata.collections[name]? = old.metadata.collections[name]?
  slots_eq : ∀ shardIdx, new.shards.slots { collection := name, shardIdx } =
    old.shards.slots { collection := name, shardIdx }

/-- What a step can do. -/
inductive Step (s : NameState) : NameStep → NameState → Prop
  | create {schema : CollectionSchema} : s.committed = none →
      0 < schema.dim.toNat → Step s (.create schema) (s.commit (some schema))
  | drop : s.committed.isSome →
      Step s .drop { s.commit none with since := [] }
  | learn {node : NodeId} {entry : Option CollectionSchema}
      {rest : List (Option CollectionSchema)} {metadata : MetaState} :
      s.inbox node = entry :: rest → metadata.collections[name]? = entry →
      Step s (.learn node metadata)
        { s.setNode node { s.world node with metadata } with
          inbox := Function.update s.inbox node rest }
  | dropLocal {node : NodeId} :
      Step s (.dropLocal node) (s.setNode node { s.world node with
        shards := (s.world node).shards.dropCollection name })
  | begin {node : NodeId} {schema : CollectionSchema} :
      (s.world node).metadata.collections[name]? = some schema →
      Step s (.begin node) { s with views := schema :: s.views }
  | upsert {node : NodeId} {reading : ℕ} {taken : MetaState}
      {schema : CollectionSchema} {id : UInt64} {vector : List F32}
      {payload : Bytes} :
      taken.collections[name]? = some schema → schema ∈ s.views →
      Step s (.upsert node reading taken id vector payload)
        (s.stamped node ({ s.world node with
          metadata := taken }.stampUpsert xxh64 reading name id vector
            payload))
  | delete {node : NodeId} {reading : ℕ} {taken : MetaState}
      {schema : CollectionSchema} {id : UInt64} :
      taken.collections[name]? = some schema → schema ∈ s.views →
      Step s (.delete node reading taken id)
        (s.stamped node ({ s.world node with
          metadata := taken }.stampDelete xxh64 reading name id))
  | receive {node : NodeId} {reading : ℕ} {req : ReplicaWriteRequest} :
      req ∈ s.pending →
      Step s (.receive node reading req)
        (s.setNode node ((s.world node).replicaWrite R reading req).1)
  | applyLocal {node : NodeId} {schema : CollectionSchema}
      {req : ReplicaWriteRequest} : req ∈ s.pending → schema ∈ s.views →
      Step s (.applyLocal node schema req)
        (s.setNode node { s.world node with
          shards := ((s.world node).shards.write R
            (shardRef req.collection req.shardIdx schema) req.op
            (Hlc.unpack req.hlc) req.id req.vector req.payload).1 })
  | get {node : NodeId} {shardIdx : UInt32} {id : UInt64} :
      Step s (.get node shardIdx id)
        (s.answered name node shardIdx
          ((s.world node).replicaGet R name shardIdx id))
  | readLocal {node : NodeId} {schema : CollectionSchema}
      {shardIdx : UInt32} {id : UInt64} : schema ∈ s.views →
      Step s (.readLocal node schema shardIdx id)
        (s.answered name node shardIdx
          ((s.world node).readLocal R name shardIdx schema id))
  | search {node : NodeId} {schema : CollectionSchema} {shardIdx : UInt32}
      {query : List F32} {k efSearch : ℕ} : schema ∈ s.views →
      Step s (.search node schema shardIdx query k efSearch)
        (s.setNode node { s.world node with
          shards := ((s.world node).shards.searchShard R
            (shardRef name shardIdx schema) query k efSearch).1 })
  | stream {node : NodeId} {schema : CollectionSchema}
      {shardIdx : UInt32} : schema ∈ s.views →
      Step s (.stream node schema shardIdx)
        (s.streamed name node shardIdx
          ((s.world node).streamShard R name shardIdx schema))
  | pull {node : NodeId} {reading : ℕ} {schema : CollectionSchema}
      {shardIdx : UInt32} {row : Shard.ShardRecordRow} : schema ∈ s.views →
      row.request name shardIdx ∈ s.pending →
      Step s (.pull node reading schema shardIdx row)
        (s.setNode node ((s.world node).pullRecord R reading name shardIdx
          schema row).1)
  | settle {pending : List ReplicaWriteRequest}
      {views : List CollectionSchema} : pending ⊆ s.pending →
      views ⊆ s.views → Step s (.settle pending views)
        { s with pending, views }
  | elsewhere {node : NodeId} {state : NodeState} :
      Elsewhere name (s.world node) state →
      Step s (.elsewhere node state) (s.setNode node state)

/-- Nodes on which the name was never used. -/
structure Initial (s : NameState) : Prop where
  unknown : ∀ node, (s.world node).metadata.collections[name]? = none
  unused : ∀ node shardIdx, (s.world node).shards.slots
    { collection := name, shardIdx } = .closed .empty
  committed : s.committed = none
  inbox : ∀ node, s.inbox node = []
  views : s.views = []
  pending : s.pending = []
  since : s.since = []

/-- The runs whose steps are all admitted. -/
inductive Run (Admits : NameState → NameStep → Prop) : NameState → Prop
  | init {s : NameState} : Initial name s → Run Admits s
  | step {s s' : NameState} (e : NameStep) : Run Admits s → Admits s e →
      Step R xxh64 name s e s' → Run Admits s'

end Step

end NameState

/-- In every admitted run, while the name exists, what a replica returns for an
id or finds in a search was written since the name was last dropped. -/
def DropEndsData (R : Runtime) (xxh64 : Bytes → UInt64) (name : String)
    (Admits : NameState → NameStep → Prop) : Prop :=
  ∀ s, NameState.Run R xxh64 name Admits s →
    ∀ schema, s.committed = some schema →
    ∀ (node : NodeId) (shardIdx : UInt32) (known : CollectionSchema),
      known = schema ∨
        (s.world node).metadata.collections[name]? = some known →
      (∀ id p, ((s.world node).readLocal R name shardIdx known id).2 =
          .ok (some p) →
        ∃ req ∈ s.since, req.key = { collection := name, shardIdx } ∧
          req.id = id ∧ p = pointOf id req.written) ∧
      ∀ query k efSearch hits, ((s.world node).shards.searchShard R
          (shardRef name shardIdx known) query k efSearch).2 = .ok hits →
        ∀ hit ∈ hits, ∃ req ∈ s.since,
          req.key = { collection := name, shardIdx } ∧ req.id = hit.1 ∧
            req.written.2.isSome

/-- The request that a coordinator stamps. -/
def NameStep.stamps (xxh64 : Bytes → UInt64) (name : String)
    (s : NameState) : NameStep → Option ReplicaWriteRequest
  | .upsert node reading taken id vector payload =>
      ({ s.world node with metadata := taken }.stampUpsert xxh64 reading name
        id vector payload).2.toOption
  | .delete node reading taken id =>
      ({ s.world node with metadata := taken }.stampDelete xxh64 reading name
        id).2.toOption
  | _ => none

/-- Nothing of the name is left: no request or hint is pending, and no shard,
open or on disk, holds a version, whatever it was opened as. -/
structure NameState.NothingLeft (R : Runtime) (name : String)
    (s : NameState) : Prop where
  pending : s.pending = []
  blank : ∀ node shardIdx, ((s.world node).shards.slots
    { collection := name, shardIdx }).Within R fun _ _ => False

/-- The name is created when nothing of it is left, and the writes that are
stamped fit their frames. -/
structure NameStep.Clean (R : Runtime) (xxh64 : Bytes → UInt64)
    (name : String) (s : NameState) (e : NameStep) : Prop where
  nothing_left : ∀ schema, e = .create schema → s.NothingLeft R name
  fits : ∀ req, e.stamps xxh64 name s = some req → req.FitsFrame

end Quorvec
