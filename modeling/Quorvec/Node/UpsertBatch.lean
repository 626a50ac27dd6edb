import Quorvec.Node.QuorumIntersection

/-!
# Batches of upserts

A batch is checked point by point, between the writes: the length of a vector
is compared with the dimension only after all points before it are stamped and
replicated.  So a batch that is rejected for its dimension leaves behind what
the points before the bad one do when they are upserted alone, and it has no
effect exactly when its first point is the bad one.
-/

namespace Quorvec

open ByteCodec LastWriterWins

/-- One point of the request. -/
structure UpsertPoint where
  id : UInt64
  vector : List F32
  payload : Bytes

/-- What a batch has done when it returns. -/
structure BatchReport where
  world : World
  /-- The requests that were stamped, in order. -/
  stamped : List ReplicaWriteRequest
  /-- The hints that `buffer_hint` reported durable. -/
  hinted : List Hint
  /-- The number of points that were accepted. -/
  result : Except RouterError ℕ

namespace BatchReport

/-- Nothing is done, and the batch ends. -/
def idle (w : World) (result : Except RouterError ℕ) : BatchReport :=
  { world := w, stamped := [], hinted := [], result }

/-- The report of a batch whose first point was accepted. -/
def after (req : ReplicaWriteRequest) (written : WriteReport)
    (rest : BatchReport) : BatchReport where
  world := rest.world
  stamped := req :: rest.stamped
  hinted := written.hinted ++ rest.hinted
  result := rest.result.map (· + 1)

/-- The same effects under another answer. -/
def answering (report : BatchReport) (result : Except RouterError ℕ) :
    BatchReport :=
  { report with result }

/-- No shard has changed, no hint was buffered, and no stamp was issued. -/
structure NoEffect (w : World) (report : BatchReport) : Prop where
  shards : ∀ node, (report.world node).shards = (w node).shards
  hintLog : ∀ node, (report.world node).hintLog = (w node).hintLog
  hinted : report.hinted = []
  stamped : report.stamped = []

theorem noEffect_idle (w : World) (result : Except RouterError ℕ) :
    (idle w result).NoEffect w :=
  ⟨fun _ => rfl, fun _ => rfl, rfl, rfl⟩

end BatchReport

section Upsert

variable (R : Runtime) (self : NodeId) (xxh64 : Bytes → UInt64)
variable (metadata : MetaState) (schema : CollectionSchema)
variable (collection : String) (consistency : Consistency)

/-- The stamped request of a point. -/
def UpsertPoint.request (point : UpsertPoint) (hlc : Hlc) :
    ReplicaWriteRequest where
  collection := collection
  shardIdx := shardForId xxh64 point.id schema.shardCount
  op := ShardStore.opUpsert
  id := point.id
  hlc := hlc.pack
  vector := point.vector
  payload := point.payload

/-- Stamp a point of the right length and replicate it. -/
def upsertPoint (env : Env) (w : World) (point : UpsertPoint) :
    ReplicaWriteRequest × WriteReport :=
  let hlc := HlcClock.now (w self).clock (env.reading self)
  let req := point.request xxh64 schema collection hlc
  (req, replicateWrite R env self xxh64
    (Function.update w self { w self with clock := hlc }) metadata schema req
    consistency)

/-- The loop over the points.  Each write has its own environment. -/
def upsertPoints (envs : ℕ → Env) (w : World) : List UpsertPoint → BatchReport
  | [] => .idle w (.ok 0)
  | point :: points =>
      if point.vector.length ≠ schema.dim.toNat then
        .idle w (.error (.dimMismatch schema.dim.toNat point.vector.length))
      else
        match upsertPoint R self xxh64 metadata schema collection consistency
            (envs 0) w point with
        | (req, written) =>
            match written.result with
            | .error e =>
                { world := written.world, stamped := [req]
                  hinted := written.hinted, result := .error e }
            | .ok () => .after req written
                (upsertPoints (fun i => envs (i + 1)) written.world points)

/-- Upsert a batch.  The metadata is read once, before the loop. -/
def coordinateUpsert (envs : ℕ → Env) (w : World) (points : List UpsertPoint) :
    BatchReport :=
  match (w self).metadata.collections[collection]? with
  | none => .idle w (.error (.notFound collection))
  | some schema =>
      upsertPoints R self xxh64 (w self).metadata schema collection consistency
        envs w points

/-- The length of the first vector is not the dimension of the collection. -/
def FirstMismatches (metadata : MetaState) (points : List UpsertPoint) : Prop :=
  ∃ schema point, metadata.collections[collection]? = some schema ∧
    points.head? = some point ∧ point.vector.length ≠ schema.dim.toNat

end Upsert

section Batch

variable {R : Runtime} {self : NodeId} {xxh64 : Bytes → UInt64}
variable {metadata : MetaState} {schema : CollectionSchema}
variable {collection : String} {consistency : Consistency}
variable {envs : ℕ → Env} {w : World} {point : UpsertPoint}
variable {points : List UpsertPoint} {expected got : ℕ}

theorem stampUpsert_request {s : NodeState} (reading : ℕ)
    (hschema : s.metadata.collections[collection]? = some schema)
    (hlength : point.vector.length = schema.dim.toNat) :
    s.stampUpsert xxh64 reading collection point.id point.vector
        point.payload =
      ({ s with clock := HlcClock.now s.clock reading },
        .ok (point.request xxh64 schema collection
          (HlcClock.now s.clock reading))) := by
  simp only [NodeState.stampUpsert, hschema, hlength, ne_eq, not_true_eq_false,
    if_false, UpsertPoint.request]

/-- A point of a batch is stamped and replicated as a single upsert is. -/
theorem upsertPoint_of_stampUpsert {env : Env} {state : NodeState}
    {req : ReplicaWriteRequest}
    (hschema : (w self).metadata.collections[collection]? = some schema)
    (hlength : point.vector.length = schema.dim.toNat)
    (hstamp : (w self).stampUpsert xxh64 (env.reading self) collection point.id
      point.vector point.payload = (state, .ok req)) :
    upsertPoint R self xxh64 metadata schema collection consistency env w
        point =
      (req, replicateWrite R env self xxh64 (Function.update w self state)
        metadata schema req consistency) := by
  rw [stampUpsert_request (env.reading self) hschema hlength, Prod.mk.injEq,
    Except.ok.injEq] at hstamp
  obtain ⟨rfl, rfl⟩ := hstamp
  rfl

/-- A write does not fail for a dimension: a replica that rejects it has not
acknowledged, and no more. -/
theorem replicateWrite_ne_dimMismatch {env : Env} {req : ReplicaWriteRequest} :
    (replicateWrite R env self xxh64 w metadata schema req
      consistency).result ≠ .error (.dimMismatch expected got) := by
  rw [replicateWrite]
  split_ifs with hnone
  · simp
  · dsimp only
    split
    · rename_i e hhints
      rw [bufferHints_error hhints]
      simp
    · split_ifs
      · simp
      · simp

/-! ## The first point of a batch -/

theorem upsertPoints_mismatch
    (hlength : point.vector.length ≠ schema.dim.toNat) :
    upsertPoints R self xxh64 metadata schema collection consistency envs w
        (point :: points) =
      .idle w (.error (.dimMismatch schema.dim.toNat point.vector.length)) := by
  rw [upsertPoints, if_pos hlength]

section First

variable (hlength : point.vector.length = schema.dim.toNat)

include hlength

/-- A point that is accepted is followed by the others. -/
theorem upsertPoints_accepted {req : ReplicaWriteRequest}
    {written : WriteReport}
    (hpoint : upsertPoint R self xxh64 metadata schema collection consistency
      (envs 0) w point = (req, written))
    (hok : written.result = .ok ()) :
    upsertPoints R self xxh64 metadata schema collection consistency envs w
        (point :: points) =
      .after req written (upsertPoints R self xxh64 metadata schema collection
        consistency (fun i => envs (i + 1)) written.world points) := by
  rw [upsertPoints, if_neg (not_not_intro hlength), hpoint]
  simp only [hok]

/-- A batch that is rejected has accepted each point of the right length that
it began with. -/
theorem upsertPoint_accepted
    (hresult : (upsertPoints R self xxh64 metadata schema collection
      consistency envs w (point :: points)).result =
        .error (.dimMismatch expected got)) :
    (upsertPoint R self xxh64 metadata schema collection consistency (envs 0) w
      point).2.result = .ok () := by
  rw [upsertPoints, if_neg (not_not_intro hlength)] at hresult
  rcases hwritten : (upsertPoint R self xxh64 metadata schema collection
      consistency (envs 0) w point).2.result with e | u
  · simp only [hwritten, Except.error.injEq] at hresult
    rw [hresult] at hwritten
    exact absurd hwritten replicateWrite_ne_dimMismatch
  · rfl

/-- A stamp is issued for each point of the right length that a batch begins
with. -/
theorem upsertPoints_stamped_ne_nil :
    (upsertPoints R self xxh64 metadata schema collection consistency envs w
      (point :: points)).stamped ≠ [] := by
  rw [upsertPoints, if_neg (not_not_intro hlength)]
  dsimp only
  split
  · simp
  · simp [BatchReport.after]

end First

/-! ## What a rejected batch leaves behind -/

/-- A batch is rejected at its first point of another length.  All points
before it were accepted, and what is left behind is what these do. -/
theorem upsertPoints_rejected
    (hresult : (upsertPoints R self xxh64 metadata schema collection
      consistency envs w points).result =
        .error (.dimMismatch expected got)) :
    expected = schema.dim.toNat ∧ ∃ accepted bad rest,
      points = accepted ++ bad :: rest ∧ bad.vector.length = got ∧
      got ≠ expected ∧
      (upsertPoints R self xxh64 metadata schema collection consistency envs w
        accepted).result = .ok accepted.length ∧
      upsertPoints R self xxh64 metadata schema collection consistency envs w
        points = (upsertPoints R self xxh64 metadata schema collection
          consistency envs w accepted).answering
            (.error (.dimMismatch expected got)) := by
  induction points generalizing envs w with
  | nil => simp [upsertPoints, BatchReport.idle] at hresult
  | cons point points ih =>
      by_cases hlength : point.vector.length = schema.dim.toNat
      · obtain ⟨req, written, hpoint⟩ : ∃ req written,
            upsertPoint R self xxh64 metadata schema collection consistency
              (envs 0) w point = (req, written) := ⟨_, _, rfl⟩
        have hok := upsertPoint_accepted hlength hresult
        rw [hpoint] at hok
        have hrest : (upsertPoints R self xxh64 metadata schema collection
            consistency (fun i => envs (i + 1)) written.world points).result =
            .error (.dimMismatch expected got) := by
          rw [upsertPoints_accepted hlength hpoint hok] at hresult
          rcases hcase : (upsertPoints R self xxh64 metadata schema collection
              consistency (fun i => envs (i + 1)) written.world
              points).result with e | n
          · simpa [BatchReport.after, hcase, Except.map] using hresult
          · simp [BatchReport.after, hcase, Except.map] at hresult
        obtain ⟨hexpected, accepted, bad, rest, rfl, hgot, hne, haccepted,
          hreport⟩ := ih hrest
        refine ⟨hexpected, point :: accepted, bad, rest, rfl, hgot, hne, ?_, ?_⟩
        · rw [upsertPoints_accepted hlength hpoint hok]
          simp [BatchReport.after, haccepted, Except.map]
        · rw [upsertPoints_accepted hlength hpoint hok,
            upsertPoints_accepted hlength hpoint hok, hreport]
          rfl
      · -- the first point is the bad one
        rw [upsertPoints_mismatch hlength] at hresult ⊢
        obtain ⟨rfl, rfl⟩ : schema.dim.toNat = expected ∧
            point.vector.length = got := by
          simpa [BatchReport.idle] using hresult
        exact ⟨rfl, [], point, points, rfl, rfl, hlength, rfl, rfl⟩

/-- A batch that is rejected for a dimension has no effect if and only if its
first point is the one of another length. -/
theorem coordinateUpsert_noEffect_iff (R : Runtime) (self : NodeId)
    (xxh64 : Bytes → UInt64) (collection : String) (consistency : Consistency)
    (envs : ℕ → Env) (w : World) (points : List UpsertPoint)
    (expected got : ℕ)
    (hresult : (coordinateUpsert R self xxh64 collection consistency envs w
      points).result = .error (.dimMismatch expected got)) :
    (coordinateUpsert R self xxh64 collection consistency envs w
        points).NoEffect w ↔
      FirstMismatches collection (w self).metadata points := by
  rw [coordinateUpsert] at hresult ⊢
  rcases hschema : (w self).metadata.collections[collection]? with _ | schema
  · simp [hschema, BatchReport.idle] at hresult
  · simp only [hschema] at hresult ⊢
    rcases points with _ | ⟨point, points⟩
    · simp [upsertPoints, BatchReport.idle] at hresult
    · constructor
      · intro hidle
        refine ⟨schema, point, hschema, rfl, fun hlength => ?_⟩
        exact upsertPoints_stamped_ne_nil hlength hidle.stamped
      · rintro ⟨schema', first, hschema', hfirst, hlength⟩
        obtain rfl : schema = schema' :=
          Option.some.inj (hschema.symm.trans hschema')
        obtain rfl : point = first := Option.some.inj hfirst
        rw [upsertPoints_mismatch hlength]
        exact BatchReport.noEffect_idle w _

end Batch

/-- The empty vector is rejected as the only point of a batch; nothing is
done. -/
theorem coordinateUpsert_noEffect_pair :
    (coordinateUpsert .constant 1 (fun _ => 0) "c" .one
      (fun _ => CallFate.answered.env 5) (fun _ => OneReplica.fresh)
      [⟨8, [], []⟩, ⟨9, [0], []⟩]).NoEffect fun _ => OneReplica.fresh := by
  have hknown : OneReplica.fresh.metadata.collections["c"]? =
      some OneReplica.schema := OneReplica.schema_eq
  have hlength : ([] : List F32).length ≠ OneReplica.schema.dim.toNat := by
    decide
  rw [coordinateUpsert_noEffect_iff .constant 1 (fun _ => 0) "c" .one
    (fun _ => CallFate.answered.env 5) (fun _ => OneReplica.fresh)
    [⟨8, [], []⟩, ⟨9, [0], []⟩] 1 0 (by
      simp only [coordinateUpsert, hknown, upsertPoints, if_pos hlength]
      rfl)]
  exact ⟨_, _, hknown, rfl, hlength⟩

namespace OneReplica

/-- A point of the right length, coordinated by the replica itself, is
accepted, and the replica then holds it. -/
theorem upsertPoint_accepted (x : F32) :
    ∃ state, upsertPoint .constant 1 (fun _ => 0) metadata schema "c" .one
        (CallFate.answered.env 5) (fun _ => fresh) ⟨7, [x], []⟩ =
      (req x, { world := Function.update (fun _ => fresh) 1 state
                hinted := [], result := .ok () }) ∧
      state.Replica .constant (fun _ => 0) shard
        ((req x).offerTo fun _ => none) := by
  let ticked : World := Function.update (fun _ => fresh) 1
    { fresh with clock := stamp }
  have hreplica : (ticked 1).Replica .constant (fun _ => 0) shard
      fun _ => none :=
    ⟨pinned, rfl, ShardSlot.durable_unused Nat.one_pos⟩
  obtain ⟨state, hwrite, htaken, -⟩ :=
    hreplica.writeOneReplica_answered 1 (fits_req x) schema_eq
      (CallFate.answered.env 5) rfl
  refine ⟨{ state with hintLog := state.hintLog }, ?_, htaken⟩
  have hreq : UpsertPoint.request (fun _ => 0) schema "c" ⟨7, [x], []⟩ stamp =
      req x := by
    simp only [UpsertPoint.request, shardForId_eq, req]
  have hstamp : HlcClock.now fresh.clock ((CallFate.answered.env 5).reading 1) =
      stamp := rfl
  have hwritten : writeReplicas .constant (CallFate.answered.env 5) 1 (req x)
      schema [(1, "a")] ticked = (Function.update ticked 1 state, 1, []) := by
    rw [writeReplicas, show schema = shard.schema from rfl, hwrite]
    rfl
  have hview : replicasWithAddrs (fun _ => 0) metadata (req x).collection
      (req x).shardIdx = [(1, "a")] := replicas_eq
  have hreplicated : replicateWrite .constant (CallFate.answered.env 5) 1
      (fun _ => 0) ticked metadata schema (req x) .one =
        { world := Function.update (fun _ => fresh) 1 state
          hinted := [], result := .ok () } := by
    rw [replicateWrite, hview, hwritten]
    simp [ticked, bufferHints, Consistency.count]
  simp only [upsertPoint, hstamp, hreq]
  exact congrArg (Prod.mk (req x)) hreplicated

/-- The batch of that point and of an empty vector is rejected after the
point. -/
theorem coordinateUpsert_second {x : F32} {state : NodeState}
    (hpoint : upsertPoint .constant 1 (fun _ => 0) metadata schema "c" .one
      (CallFate.answered.env 5) (fun _ => fresh) ⟨7, [x], []⟩ =
        (req x, { world := Function.update (fun _ => fresh) 1 state
                  hinted := [], result := .ok () })) :
    coordinateUpsert .constant 1 (fun _ => 0) "c" .one
        (fun _ => CallFate.answered.env 5) (fun _ => fresh)
        [⟨7, [x], []⟩, ⟨8, [], []⟩] =
      { world := Function.update (fun _ => fresh) 1 state
        stamped := [req x], hinted := []
        result := .error (.dimMismatch 1 0) } := by
  have hknown : fresh.metadata.collections["c"]? = some schema := schema_eq
  have hlength : [x].length = schema.dim.toNat := rfl
  have hmismatch : ([] : List F32).length ≠ schema.dim.toNat := by decide
  have hfirst := @upsertPoints_accepted _ _ _ _ _ _ _
    (fun _ => CallFate.answered.env 5) _ ⟨7, [x], []⟩ [⟨8, [], []⟩] hlength _ _
    hpoint rfl
  have hsecond := @upsertPoints_mismatch .constant 1 (fun _ => 0) metadata
    schema "c" .one (fun _ => CallFate.answered.env 5)
    (Function.update (fun _ => fresh) 1 state) ⟨8, [], []⟩ [] hmismatch
  simp only [hsecond] at hfirst
  simp only [coordinateUpsert, hknown]
  exact hfirst

/-- A replica that holds a point has not the shards of a fresh node. -/
theorem shards_ne_of_holds {x : F32} {state : NodeState}
    (h : state.Replica .constant (fun _ => 0) shard
      ((req x).offerTo fun _ => none)) : state.shards ≠ fresh.shards := by
  intro hshards
  have hfresh : fresh.Replica .constant (fun _ => 0) shard fun _ => none :=
    ⟨pinned, rfl, ShardSlot.durable_unused Nat.one_pos⟩
  have hholds : fresh.Replica .constant (fun _ => 0) shard
      ((req x).offerTo fun _ => none) := by
    refine ⟨pinned, rfl, ?_⟩
    rw [← hshards]
    exact h.durable
  -- a read would give two answers
  obtain ⟨before, hbefore, -⟩ := hfresh.readLocal 7
  obtain ⟨after, hafter, -⟩ := hholds.readLocal 7
  have hanswer := (congrArg Prod.snd hbefore).symm.trans
    (congrArg Prod.snd hafter)
  simp [ReplicaWriteRequest.offerTo, deliverWith, offer, Beats, req] at hanswer

end OneReplica

open OneReplica in
/-- The second point of the batch is rejected, after the first is stamped and
stored at its replica. -/
theorem not_noEffect_second : ¬ ∀ R self xxh64 collection consistency envs w
    points expected got,
    (coordinateUpsert R self xxh64 collection consistency envs w
      points).result = .error (.dimMismatch expected got) →
    (coordinateUpsert R self xxh64 collection consistency envs w
      points).NoEffect w := by
  intro hall
  obtain ⟨state, hpoint, hreplica⟩ := OneReplica.upsertPoint_accepted 0
  have hbatch := coordinateUpsert_second hpoint
  have hidle := hall _ _ _ _ _ _ _ _ 1 0 (congrArg BatchReport.result hbatch)
  rw [hbatch] at hidle
  have hshards : state.shards = fresh.shards := by
    simpa using hidle.shards 1
  exact shards_ne_of_holds hreplica hshards

end Quorvec
