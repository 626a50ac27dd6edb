import Quorvec.Node.Router
import Quorvec.Support.Quorum

/-!
# Coordinating a read

A read of an id asks all replicas, needs `R` answers, and merges them by the
greatest timestamp.  A tombstone that wins is returned as nothing.  Replicas
that are behind the winner get it pushed.
-/

namespace Quorvec

open ByteCodec Quorum

/-- What becomes of one call to a remote replica. -/
inductive CallFate
  | answered
  | unreachable
  /-- The call runs, but no answer arrives in time. -/
  | answerLost
deriving DecidableEq

/-- The answers of the replicas, in order. -/
abbrev Responses := List (NodeId × Option StoredPoint)

section Read

variable (R : Runtime) (self : NodeId) (fate : CallFate)

/-- Read one replica's versioned point. -/
def readOneReplica (w : World) (node : NodeId) (collection : String)
    (shardIdx : UInt32) (id : UInt64) (schema : CollectionSchema) :
    World × Except ConnError (Option StoredPoint) :=
  if node = self then
    match (w node).readLocal R collection shardIdx schema id with
    | (s, .ok p) => (Function.update w node s, .ok p)
    | (s, .error _) => (Function.update w node s, .error .connError)
  else
    match fate with
    | .unreachable => (w, .error .connError)
    | .answerLost =>
        (Function.update w node
          ((w node).replicaGet R collection shardIdx id).1,
          .error .connError)
    | .answered =>
        match (w node).replicaGet R collection shardIdx id with
        | (s, .ok p) => (Function.update w node s, .ok p)
        | (s, .error _) => (Function.update w node s, .error .connError)

end Read

/-- The loop over the replicas: the answers that arrive, in order. -/
def readReplicas (R : Runtime) (self : NodeId) (fate : NodeId → CallFate)
    (collection : String) (shardIdx : UInt32) (id : UInt64)
    (schema : CollectionSchema) :
    List (NodeId × String) → World → World × Responses
  | [], w => (w, [])
  | (node, _) :: replicas, w =>
      match readOneReplica R self (fate node) w node collection shardIdx id
          schema with
      | (w, .ok p) =>
          match readReplicas R self fate collection shardIdx id schema
              replicas w with
          | (w, responses) => (w, (node, p) :: responses)
      | (w, .error _) =>
          readReplicas R self fate collection shardIdx id schema replicas w

namespace Responses

/-- The highest version wins, tombstone or value. -/
def winner (responses : Responses) : Option StoredPoint :=
  maxByKey StoredPoint.hlc (responses.filterMap Prod.snd)

/-- The replicas with an older version, or none. -/
def stale (responses : Responses) (win : StoredPoint) : List NodeId :=
  (responses.filter fun response =>
    match response.2 with
    | some p => p.hlc < win.hlc
    | none => true).map Prod.fst

/-- The merge of the answers, if there are enough of them. -/
def outcome (responses : Responses) (collection : String) (shardIdx : UInt32)
    (consistency : Consistency) (n : ℕ) :
    Except RouterError (Option StoredPoint) :=
  let needed := consistency.count n
  if responses.length < needed then
    .error (.readQuorum collection shardIdx needed responses.length)
  else .ok responses.winner

end Responses

/-- One id of `coordinate_get`: the answers, and what they merge to. -/
def coordinateGet (R : Runtime) (xxh64 : Bytes → UInt64) (self : NodeId)
    (fate : NodeId → CallFate) (w : World) (collection : String)
    (id : UInt64) (consistency : Consistency) :
    World × Responses × Except RouterError (Option StoredPoint) :=
  match (w self).metadata.collections[collection]? with
  | none => (w, [], .error (.notFound collection))
  | some schema =>
      let shardIdx := shardForId xxh64 id schema.shardCount
      let replicas :=
        replicasWithAddrs xxh64 (w self).metadata collection shardIdx
      if replicas.isEmpty then
        (w, [], .error (.noReplica collection shardIdx))
      else
        match readReplicas R self fate collection shardIdx id schema replicas
            w with
        | (w, responses) =>
            (w, responses, responses.outcome collection shardIdx consistency
              replicas.length)

/-- What a read returns for an id: the live winner. -/
def returned (winner : Option StoredPoint) : List (UInt64 × List F32) :=
  match winner with
  | some win => if win.tombstone then [] else [(win.id, win.vector)]
  | none => []

end Quorvec
