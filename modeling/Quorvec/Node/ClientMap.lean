import Quorvec.Node.Handoff
import Quorvec.Node.ReadRepair
import Quorvec.Node.UpsertBatch
import Quorvec.Node.ClockRun

/-!
# What a client sees

As long as its replicas answer, a collection is a map from ids to vectors for
the clients of one coordinator: an upsert inserts, a delete erases, and a get
returns what is there, at every consistency level.  Behind the map there are the
shards of the collection with their replicas, the stamps of the writes, and the
answers that a get merges.
-/

namespace Quorvec

open LastWriterWins ByteCodec Quorum

/-! ## The other calls of a coordinator -/

section Delete

variable (R : Runtime) (self : NodeId) (xxh64 : Bytes → UInt64)
variable (metadata : MetaState) (schema : CollectionSchema)
variable (collection : String) (consistency : Consistency)

/-- The stamped delete of an id. -/
def deleteRequest (id : UInt64) (hlc : Hlc) : ReplicaWriteRequest where
  collection := collection
  shardIdx := shardForId xxh64 id schema.shardCount
  op := ShardStore.opDelete
  id := id
  hlc := hlc.pack
  vector := []
  payload := []

/-- Stamp a request and replicate it. -/
def stampedWrite (env : Env) (w : World)
    (request : Hlc → ReplicaWriteRequest) : ReplicaWriteRequest × WriteReport :=
  let hlc := HlcClock.now (w self).clock (env.reading self)
  (request hlc, replicateWrite R env self xxh64
    (Function.update w self { w self with clock := hlc }) metadata schema
    (request hlc) consistency)

/-- The loop over the ids.  Each write has its own environment. -/
def deletePoints (envs : ℕ → Env) (w : World) : List UInt64 → BatchReport
  | [] => .idle w (.ok 0)
  | id :: ids =>
      match stampedWrite R self xxh64 metadata schema consistency (envs 0) w
          (deleteRequest xxh64 schema collection id) with
      | (req, written) =>
          match written.result with
          | .error e =>
              { world := written.world, stamped := [req]
                hinted := written.hinted, result := .error e }
          | .ok () => .after req written
              (deletePoints (fun i => envs (i + 1)) written.world ids)

/-- Delete a list of ids; returns how many there were. -/
def coordinateDelete (envs : ℕ → Env) (w : World) (ids : List UInt64) :
    BatchReport :=
  match (w self).metadata.collections[collection]? with
  | none => .idle w (.error (.notFound collection))
  | some schema =>
      deletePoints R self xxh64 (w self).metadata schema collection consistency
        envs w ids

theorem upsertPoint_eq (env : Env) (w : World) (point : UpsertPoint) :
    upsertPoint R self xxh64 metadata schema collection consistency env w
        point =
      stampedWrite R self xxh64 metadata schema consistency env w
        (point.request xxh64 schema collection) := rfl

end Delete

/-! ## The map -/

/-- What a client takes a collection for. -/
abbrev PointMap := UInt64 → Option (List F32)

namespace PointMap

/-- Points are inserted up to the first one of another length. -/
def upsert (dim : ℕ) :
    List UpsertPoint → PointMap → PointMap × Except RouterError ℕ
  | [], m => (m, .ok 0)
  | point :: points, m =>
      if point.vector.length ≠ dim then
        (m, .error (.dimMismatch dim point.vector.length))
      else
        match upsert dim points
            (Function.update m point.id (some point.vector)) with
        | (m, res) => (m, res.map (· + 1))

def delete (ids : List UInt64) (m : PointMap) : PointMap :=
  ids.foldl (fun m id => Function.update m id none) m

/-- The points of the ids that are there, in the order asked for. -/
def get (ids : List UInt64) (m : PointMap) : List (UInt64 × List F32) :=
  ids.filterMap fun id => (m id).map fun vector => (id, vector)

end PointMap

/-! ## Runs -/

/-- The clock and what it will read stay `n` milliseconds away from the end of
the range. -/
structure HasRoom (clock : Hlc) (reading : ℕ → ℕ) (n : ℕ) : Prop where
  clock : clock.wallMs + n < 2 ^ 48
  reading : ∀ i, HlcClock.wallNowMs (reading i) + n < 2 ^ 48

/-- A shard of the collection, with the replicas of the view. -/
def shardOf (xxh64 : Bytes → UInt64) (metadata : MetaState)
    (collection : String) (schema : CollectionSchema) (shardIdx : UInt32) :
    FixedShard where
  collection := collection
  shardIdx := shardIdx
  schema := schema
  nodes := (replicasWithAddrs xxh64 metadata collection shardIdx).map Prod.fst

/-- The metadata knows the collection, and a replica of each of its shards. -/
structure Placed (xxh64 : Bytes → UInt64) (metadata : MetaState)
    (collection : String) (schema : CollectionSchema) : Prop where
  known : metadata.collections[collection]? = some schema
  nonempty : ∀ id, replicasWithAddrs xxh64 metadata collection
    (shardForId xxh64 id schema.shardCount) ≠ []

section Statement

variable (R : Runtime) (xxh64 : Bytes → UInt64) (metadata : MetaState)
variable (collection : String) (schema : CollectionSchema) (me : NodeId)

/-- The nodes have these registers, and the replicas of the shard of an id hold
the same of it: what the map has, under a stamp that the coordinator's clock has
reached. -/
structure Holding (regs : UInt32 → NodeId → Registers) (held : Registers)
    (m : PointMap) (w : World) : Prop where
  serves : ∀ shardIdx, w.Serves R xxh64
    (shardOf xxh64 metadata collection schema shardIdx) (regs shardIdx)
  own : (w me).metadata = metadata
  known : ∀ node, (w node).metadata.collections[collection]? = some schema
  even : ∀ id, ∀ node ∈ (shardOf xxh64 metadata collection schema
    (shardForId xxh64 id schema.shardCount)).nodes,
      regs (shardForId xxh64 id schema.shardCount) node id = held id
  content : ∀ id, (held id).bind Prod.snd = m id
  stamps : ∀ id p, held id = some p → p.1 ≤ (w me).clock

/-- Nodes in fsync mode that have not used the collection yet. -/
structure Unused (w : World) : Prop where
  dim_pos : 0 < schema.dim.toNat
  metadata_eq : ∀ node, (w node).metadata = metadata
  fsync : ∀ node, (w node).shards.walBatchMs = 0
  slots : ∀ node shardIdx,
    (w node).shards.slots { collection, shardIdx } = .closed .empty

/-- Calls of clients to the coordinator, one after another.  Its replicas
answer; in between they may restart and serve other collections, and the
coordinator's clock may advance. -/
inductive ClientRun : World → PointMap → Prop
  | init {w : World} : Unused metadata collection schema w →
      ClientRun w fun _ => none
  | upsert {w : World} {m : PointMap} (envs : ℕ → Env)
      (consistency : Consistency) (points : List UpsertPoint) :
      ClientRun w m → (∀ i node, (envs i).fate node = .answered) →
      HasRoom (w me).clock (fun i => (envs i).reading me) points.length →
      (∀ point ∈ points, ∀ hlc,
        (point.request xxh64 schema collection hlc).FitsFrame) →
      ClientRun
        (coordinateUpsert R me xxh64 collection consistency envs w
          points).world
        (m.upsert schema.dim.toNat points).1
  | delete {w : World} {m : PointMap} (envs : ℕ → Env)
      (consistency : Consistency) (ids : List UInt64) :
      ClientRun w m → (∀ i node, (envs i).fate node = .answered) →
      HasRoom (w me).clock (fun i => (envs i).reading me) ids.length →
      ClientRun
        (coordinateDelete R me xxh64 collection consistency envs w ids).world
        (m.delete ids)
  | get {w : World} {m : PointMap} (fate : ℕ → NodeId → CallFate)
      (consistency : Consistency) (ids : List UInt64) :
      ClientRun w m → (∀ i node, fate i node = .answered) →
      ClientRun
        (coordinateGetPoints R xxh64 me fate w collection ids consistency).1 m
  | elsewhere {w w' : World} {m : PointMap} : ClientRun w m →
      (∀ shardIdx regs, w.Serves R xxh64
          (shardOf xxh64 metadata collection schema shardIdx) regs →
        w'.Serves R xxh64
          (shardOf xxh64 metadata collection schema shardIdx) regs) →
      (w' me).metadata = metadata →
      (∀ node, (w' node).metadata.collections[collection]? = some schema) →
      (w me).clock ≤ (w' me).clock → ClientRun w' m

/-- In every run, each further call is answered as by the map, and a get finds
no replica behind. -/
def ServesAsMap : Prop :=
  ∀ w m, ClientRun R xxh64 metadata collection schema me w m →
    (∀ (envs : ℕ → Env) consistency points,
      (∀ i node, (envs i).fate node = .answered) →
      HasRoom (w me).clock (fun i => (envs i).reading me) points.length →
      (∀ point ∈ points, ∀ hlc,
        (point.request xxh64 schema collection hlc).FitsFrame) →
      (coordinateUpsert R me xxh64 collection consistency envs w
        points).result = (m.upsert schema.dim.toNat points).2) ∧
    (∀ (envs : ℕ → Env) consistency ids,
      (∀ i node, (envs i).fate node = .answered) →
      HasRoom (w me).clock (fun i => (envs i).reading me) ids.length →
      (coordinateDelete R me xxh64 collection consistency envs w
        ids).result = .ok ids.length) ∧
    ∀ (fate : ℕ → NodeId → CallFate) consistency ids,
      (∀ i node, fate i node = .answered) →
      (coordinateGetPoints R xxh64 me fate w collection ids
        consistency).2 = ([], .ok (m.get ids))

end Statement

/-! ## Stamps -/

theorem HasRoom.step {clock : Hlc} {reading : ℕ → ℕ} {n : ℕ}
    (h : HasRoom clock reading (n + 1)) :
    clock < HlcClock.now clock (reading 0) ∧
      HasRoom (HlcClock.now clock (reading 0)) (fun i => reading (i + 1))
        n := by
  have hclock := h.clock
  have hreading := h.reading 0
  constructor
  · refine HlcClock.lt_now_iff.mpr ⟨?_, .inl le_rfl⟩
    rintro rfl
    simp only [Hlc.greatest] at hclock
    omega
  · constructor
    · rcases HlcClock.now_cases clock (reading 0) with ⟨-, hwall, -⟩ |
        ⟨-, -, hwall, -⟩ | ⟨-, -, hwall, -⟩
      · rw [hwall]
        omega
      · rw [hwall]
        omega
      · rw [hwall]
        have hmod := Nat.mod_le (clock.wallMs + 1) (2 ^ 48)
        omega
    · intro i
      have hnext := h.reading (i + 1)
      omega

theorem Consistency.count_le (c : Consistency) {n : ℕ} (h : 0 < n) :
    c.count n ≤ n := by
  unfold Consistency.count
  cases c <;> simp only <;> omega

/-! ## A write at all replicas -/

section Write

variable {R : Runtime} {xxh64 : Bytes → UInt64} {metadata : MetaState}
variable {collection : String} {schema : CollectionSchema} {me : NodeId}
variable {regs : UInt32 → NodeId → Registers} {w : World}
variable {req : ReplicaWriteRequest} {env : Env}

theorem clock_writeOneReplica_self (henv : env.fate me = .answered) :
    ((writeOneReplica R env me w me req schema).1 me).clock =
      (w me).clock := by
  simp only [writeOneReplica, if_true, henv]
  split <;> simp only [Function.update_self]

theorem writeOneReplica_everywhere
    (hserves : ∀ shardIdx, w.Serves R xxh64
      (shardOf xxh64 metadata collection schema shardIdx) (regs shardIdx))
    (hknown : ∀ node,
      (w node).metadata.collections[collection]? = some schema)
    (hreq : (shardOf xxh64 metadata collection schema req.shardIdx).Fits req)
    {node : NodeId} (henv : env.fate node = .answered) :
    ∃ state, writeOneReplica R env me w node req schema =
        (Function.update w node state, .ok true) ∧
      state.metadata = (w node).metadata ∧
      (node = me → state.clock = (w node).clock) ∧
      ∀ shardIdx, World.Serves R xxh64
        (shardOf xxh64 metadata collection schema shardIdx)
        (if shardIdx = req.shardIdx then
            Function.update (regs shardIdx) node
              (req.offerTo (regs shardIdx node))
          else regs shardIdx)
        (Function.update w node state) := by
  have hcollection : req.collection = collection :=
    congrArg ShardKey.collection hreq.key_eq
  have hknown' : (w node).metadata.collections[req.collection]? =
      some schema := by rw [hcollection]; exact hknown node
  obtain ⟨state, hwrite, hreplica, hmeta⟩ :=
    (hserves req.shardIdx node).writeOneReplica_answered me hreq hknown' env
      henv
  refine ⟨state, hwrite, hmeta, ?_, fun shardIdx => ?_⟩
  · rintro rfl
    have hclock := @clock_writeOneReplica_self R schema node w req env henv
    have hworld : (writeOneReplica R env node w node req schema).1 =
        Function.update w node state := congrArg Prod.fst hwrite
    rwa [hworld, Function.update_self] at hclock
  · split_ifs with hidx
    · subst hidx
      exact ((hserves _).update hreplica fun _ _ ht => ht.deliver _).1
    · -- another shard of the node is left as it was
      have hother : req.key ≠
          (shardOf xxh64 metadata collection schema shardIdx).key := by
        intro hkey
        exact hidx (congrArg ShardKey.shardIdx hkey).symm
      obtain ⟨state', res, own, hwrite', -, -, hreplica', hoffered, -⟩ :=
        @World.Serves.writeOneReplica R xxh64
          (shardOf xxh64 metadata collection schema shardIdx) env me node req
          schema (regs shardIdx) w (hserves shardIdx)
          (fun hkey => absurd hkey hother)
          (fun shards hfate => by simp [henv] at hfate)
      obtain ⟨hworlds, -⟩ := Prod.mk.inj (hwrite.symm.trans hwrite')
      have hstates := congrFun hworlds node
      simp only [Function.update_self] at hstates
      subst hstates
      obtain rfl := hoffered.resolve_right fun h => hother h.1
      exact (hserves shardIdx).update_same hreplica'

/-- What the loop over the replicas does when all of them answer. -/
structure WrittenAt (R : Runtime) (xxh64 : Bytes → UInt64)
    (metadata : MetaState) (collection : String) (schema : CollectionSchema)
    (me : NodeId) (req : ReplicaWriteRequest) (nodes : List NodeId)
    (w w' : World) (regs regs' : UInt32 → NodeId → Registers) : Prop where
  serves : ∀ shardIdx, w'.Serves R xxh64
    (shardOf xxh64 metadata collection schema shardIdx) (regs' shardIdx)
  metadata_eq : ∀ node, (w' node).metadata = (w node).metadata
  clock_eq : (w' me).clock = (w me).clock
  others : ∀ shardIdx ≠ req.shardIdx, regs' shardIdx = regs shardIdx
  offered : ∀ node ∈ nodes, regs' req.shardIdx node =
    req.offerTo (regs req.shardIdx node)
  untouched : ∀ node ∉ nodes,
    regs' req.shardIdx node = regs req.shardIdx node

theorem writeReplicas_everywhere
    (hserves : ∀ shardIdx, w.Serves R xxh64
      (shardOf xxh64 metadata collection schema shardIdx) (regs shardIdx))
    (hknown : ∀ node,
      (w node).metadata.collections[collection]? = some schema)
    (hreq : (shardOf xxh64 metadata collection schema req.shardIdx).Fits req)
    (henv : ∀ node, env.fate node = .answered)
    {replicas : List (NodeId × String)}
    (hnodup : (replicas.map Prod.fst).Nodup) :
    ∃ w' regs', writeReplicas R env me req schema replicas w =
        (w', replicas.length, []) ∧
      WrittenAt R xxh64 metadata collection schema me req
        (replicas.map Prod.fst) w w' regs regs' := by
  induction replicas generalizing w regs with
  | nil =>
      exact ⟨w, regs, rfl, hserves, fun _ => rfl, rfl, fun _ _ => rfl,
        by simp, fun _ _ => rfl⟩
  | cons r replicas ih =>
      obtain ⟨node, addr⟩ := r
      rw [List.map_cons, List.nodup_cons] at hnodup
      obtain ⟨state, hwrite, hmeta, hclock, hserves'⟩ :=
        writeOneReplica_everywhere hserves hknown hreq (henv node)
      have hsame : ∀ other, (Function.update w node state other).metadata =
          (w other).metadata := by
        intro other
        by_cases hnode : other = node
        · subst hnode
          rw [Function.update_self, hmeta]
        · rw [Function.update_of_ne hnode]
      have hsameClock : (Function.update w node state me).clock =
          (w me).clock := by
        by_cases hnode : me = node
        · rw [hnode, Function.update_self, hclock hnode.symm]
        · rw [Function.update_of_ne hnode]
      obtain ⟨w', regs', hrest, hdone⟩ := ih hserves'
        (fun other => by rw [hsame]; exact hknown other) hnodup.2
      have hhere := hdone.untouched node hnodup.1
      rw [if_pos rfl, Function.update_self] at hhere
      refine ⟨w', regs', ?_, hdone.serves,
        fun other => (hdone.metadata_eq other).trans (hsame other),
        hdone.clock_eq.trans hsameClock, fun shardIdx hidx => ?_,
        fun other hother => ?_, fun other hother => ?_⟩
      · simp only [writeReplicas, hwrite, hrest, List.length_cons]
      · rw [hdone.others shardIdx hidx, if_neg hidx]
      · rcases List.mem_cons.mp hother with rfl | hother
        · exact hhere
        · have hne : other ≠ node := ne_of_mem_of_not_mem hother hnodup.1
          rw [hdone.offered other hother, if_pos rfl,
            Function.update_of_ne hne]
      · rw [List.map_cons, List.mem_cons, not_or] at hother
        rw [hdone.untouched other hother.2, if_pos rfl,
          Function.update_of_ne hother.1]

end Write

/-! ## One stamped write -/

section Stamped

variable {R : Runtime} {xxh64 : Bytes → UInt64} {metadata : MetaState}
variable {collection : String} {schema : CollectionSchema} {me : NodeId}
variable {regs : UInt32 → NodeId → Registers} {held : Registers}
variable {m : PointMap} {w : World} {req : ReplicaWriteRequest} {env : Env}
variable {consistency : Consistency}

theorem replicateWrite_of_answered {w' : World}
    (hwrite : writeReplicas R env me req schema
      (replicasWithAddrs xxh64 metadata req.collection req.shardIdx) w =
        (w', (replicasWithAddrs xxh64 metadata req.collection
          req.shardIdx).length, []))
    (hnonempty : replicasWithAddrs xxh64 metadata req.collection
      req.shardIdx ≠ []) :
    replicateWrite R env me xxh64 w metadata schema req consistency =
      { world := w', hinted := [], result := .ok () } := by
  have hcount := consistency.count_le
    (List.length_pos_of_ne_nil hnonempty)
  have hsame : Function.update w' me
      { w' me with hintLog := (w' me).hintLog } = w' :=
    Function.update_eq_self _ _
  simp only [replicateWrite, List.isEmpty_iff, hnonempty, if_false, hwrite,
    bufferHints, hsame, ge_iff_le, hcount, if_true]

namespace Holding

/-- The clock of the coordinator advances. -/
theorem tick (h : Holding R xxh64 metadata collection schema me regs held m w)
    {hlc : Hlc} (hclock : (w me).clock ≤ hlc) :
    Holding R xxh64 metadata collection schema me regs held m
      (Function.update w me { w me with clock := hlc }) where
  serves shardIdx := (h.serves shardIdx).update_same
    ((h.serves shardIdx me).of_eq rfl rfl)
  own := by
    rw [Function.update_self]
    exact h.own
  known node := by
    by_cases hnode : node = me
    · rw [hnode, Function.update_self]
      exact h.known me
    · rw [Function.update_of_ne hnode]
      exact h.known node
  even := h.even
  content := h.content
  stamps id p hp := by
    rw [Function.update_self]
    exact (h.stamps id p hp).trans hclock

/-- A write with a new stamp is taken by all replicas of its id. -/
theorem write (h : Holding R xxh64 metadata collection schema me regs held m w)
    (hplaced : Placed xxh64 metadata collection schema)
    (hreq : (shardOf xxh64 metadata collection schema req.shardIdx).Fits req)
    (hidx : req.shardIdx = shardForId xxh64 req.id schema.shardCount)
    (hbeats : Beats req.written.1 (held req.id))
    (hclock : req.written.1 ≤ (w me).clock)
    (henv : ∀ node, env.fate node = .answered) :
    ∃ w' regs', replicateWrite R env me xxh64 w metadata schema req
        consistency = { world := w', hinted := [], result := .ok () } ∧
      (w' me).clock = (w me).clock ∧
      Holding R xxh64 metadata collection schema me regs'
        (Function.update held req.id (some req.written))
        (Function.update m req.id req.written.2) w' := by
  have hcollection : req.collection = collection :=
    congrArg ShardKey.collection hreq.key_eq
  obtain ⟨w', regs', hwrite, hdone⟩ := writeReplicas_everywhere h.serves h.known
    hreq henv replicasWithAddrs_nodup
  refine ⟨w', regs', replicateWrite_of_answered hwrite ?_, hdone.clock_eq,
    hdone.serves, ?_, fun node => ?_, fun id node hnode => ?_, fun id => ?_,
    fun id p hp => ?_⟩
  · rw [hcollection, hidx]
    exact hplaced.nonempty req.id
  · rw [hdone.metadata_eq]
    exact h.own
  · rw [hdone.metadata_eq]
    exact h.known node
  · have hbefore := h.even id node hnode
    by_cases hshard : shardForId xxh64 id schema.shardCount = req.shardIdx
    · have hmem : node ∈ (replicasWithAddrs xxh64 metadata req.collection
          req.shardIdx).map Prod.fst := by
        rw [hcollection, ← hshard]
        exact hnode
      rw [hshard] at hbefore ⊢
      rw [hdone.offered node hmem, ReplicaWriteRequest.offerTo, deliverWith]
      by_cases hid : id = req.id
      · subst hid
        rw [Function.update_self, Function.update_self, hbefore, offer,
          if_pos hbeats]
      · rw [Function.update_of_ne hid, Function.update_of_ne hid, hbefore]
    · have hid : id ≠ req.id := by
        rintro rfl
        exact hshard hidx.symm
      rw [hdone.others _ hshard, Function.update_of_ne hid, hbefore]
  · by_cases hid : id = req.id
    · rw [hid, Function.update_self, Function.update_self]
      rfl
    · rw [Function.update_of_ne hid, Function.update_of_ne hid]
      exact h.content id
  · rw [hdone.clock_eq]
    by_cases hid : id = req.id
    · rw [hid, Function.update_self, Option.some.injEq] at hp
      rw [← hp]
      exact hclock
    · rw [Function.update_of_ne hid] at hp
      exact h.stamps id p hp

/-- A write of the coordinator. -/
theorem stampedWrite
    (h : Holding R xxh64 metadata collection schema me regs held m w)
    (hplaced : Placed xxh64 metadata collection schema)
    (henv : ∀ node, env.fate node = .answered)
    (hroom : (w me).clock <
      HlcClock.now (w me).clock (env.reading me))
    {request : Hlc → ReplicaWriteRequest} {id : UInt64} {content : Content}
    (hid : ∀ hlc, (request hlc).id = id)
    (hwritten : ∀ hlc, (request hlc).written = (hlc, content))
    (hreq : ∀ hlc, (shardOf xxh64 metadata collection schema
      (shardForId xxh64 id schema.shardCount)).Fits (request hlc)) :
    ∃ req w' regs' held', Quorvec.stampedWrite R me xxh64 metadata schema
        consistency env w request =
          (req, { world := w', hinted := [], result := .ok () }) ∧
      (w' me).clock = HlcClock.now (w me).clock (env.reading me) ∧
      Holding R xxh64 metadata collection schema me regs' held'
        (Function.update m id content) w' := by
  obtain ⟨hlc, hnow⟩ : ∃ hlc,
      HlcClock.now (w me).clock (env.reading me) = hlc := ⟨_, rfl⟩
  have hidx : (request hlc).shardIdx =
      shardForId xxh64 (request hlc).id schema.shardCount := by
    rw [hid]
    exact congrArg ShardKey.shardIdx (hreq hlc).key_eq
  rw [hnow] at hroom ⊢
  obtain ⟨w', regs', hwrite, hclock, hholding⟩ := @write R xxh64 metadata
    collection schema me regs held m _ (request hlc) env consistency
    (h.tick hroom.le) hplaced (by rw [hidx, hid]; exact hreq hlc) hidx
    (fun p hp => by
      rw [hwritten]
      exact lt_of_le_of_lt (h.stamps _ p hp) hroom)
    (by rw [hwritten, Function.update_self]) henv
  rw [hid, hwritten] at hholding
  rw [Function.update_self] at hclock
  refine ⟨request hlc, w', regs', _, ?_, hclock, hholding⟩
  simp only [Quorvec.stampedWrite, hnow, hwrite]

end Holding

end Stamped

/-! ## The calls -/

section Calls

variable {R : Runtime} {xxh64 : Bytes → UInt64} {metadata : MetaState}
variable {collection : String} {schema : CollectionSchema} {me : NodeId}
variable {regs : UInt32 → NodeId → Registers} {held : Registers}
variable {m : PointMap} {w : World} {consistency : Consistency}

theorem UpsertPoint.fits {point : UpsertPoint}
    (hdim : point.vector.length = schema.dim.toNat)
    (hframe : ∀ hlc, (point.request xxh64 schema collection hlc).FitsFrame)
    (hlc : Hlc) :
    (shardOf xxh64 metadata collection schema
      (shardForId xxh64 point.id schema.shardCount)).Fits
        (point.request xxh64 schema collection hlc) := by
  refine ⟨rfl, fun v hv => ?_, hframe hlc⟩
  have hvector : some point.vector = some v := hv
  rw [← Option.some.inj hvector, hdim]
  rfl

theorem deleteRequest_fits (id : UInt64) (hlc : Hlc) :
    (shardOf xxh64 metadata collection schema
      (shardForId xxh64 id schema.shardCount)).Fits
        (deleteRequest xxh64 schema collection id hlc) := by
  refine ⟨rfl, fun v hv => ?_, ?_⟩
  · have hnone : (none : Content) = some v := hv
    simp at hnone
  · simp [ReplicaWriteRequest.FitsFrame, deleteRequest, ShardStore.callOf,
      ShardCall.record, WalRecord.ofDelete, WalRecord.FitsFrame,
      WalRecord.length_encodeBody]

namespace Holding

/-- The loop of an upsert. -/
theorem upsertPoints (hplaced : Placed xxh64 metadata collection schema)
    {points : List UpsertPoint} {envs : ℕ → Env}
    (h : Holding R xxh64 metadata collection schema me regs held m w)
    (henv : ∀ i node, (envs i).fate node = .answered)
    (hroom : HasRoom (w me).clock (fun i => (envs i).reading me)
      points.length)
    (hframe : ∀ point ∈ points, ∀ hlc,
      (point.request xxh64 schema collection hlc).FitsFrame) :
    let report := Quorvec.upsertPoints R me xxh64 metadata schema collection
      consistency envs w points
    report.result = (m.upsert schema.dim.toNat points).2 ∧
      ∃ regs' held', Holding R xxh64 metadata collection schema me regs' held'
        (m.upsert schema.dim.toNat points).1 report.world := by
  induction points generalizing w m regs held envs with
  | nil => exact ⟨rfl, regs, held, h⟩
  | cons point points ih =>
      by_cases hdim : point.vector.length = schema.dim.toNat
      · obtain ⟨hahead, hrest⟩ := HasRoom.step hroom
        obtain ⟨req, w', regs', held', hwrite, hclock, hholding⟩ :=
          @stampedWrite R xxh64 metadata collection schema me regs held m w
            (envs 0) consistency h hplaced (henv 0) hahead
            (point.request xxh64 schema collection) point.id
            (some point.vector) (fun _ => rfl)
            (fun hlc => Prod.ext (Hlc.unpack_pack hlc) rfl)
            (UpsertPoint.fits hdim (hframe point List.mem_cons_self))
        rw [← upsertPoint_eq] at hwrite
        have hnext := @upsertPoints_accepted _ _ _ _ _ _ _ _ _ _ points hdim _
          _ hwrite rfl
        have hlater := @ih regs' held' _ w' (fun i => envs (i + 1)) hholding
          (fun i => henv (i + 1)) (by rw [hclock]; exact hrest)
          fun x hx => hframe x (List.mem_cons_of_mem _ hx)
        simp only [hnext, BatchReport.after, PointMap.upsert, hdim, ne_eq,
          not_true_eq_false, if_false]
        exact ⟨congrArg (Except.map (· + 1)) hlater.1, hlater.2⟩
      · have hrejected := @upsertPoints_mismatch R me xxh64 metadata schema
          collection consistency envs w point points hdim
        simp only [hrejected, BatchReport.idle, PointMap.upsert, ne_eq, hdim,
          not_false_eq_true, if_true]
        exact ⟨trivial, regs, held, h⟩

/-- The loop of a delete. -/
theorem deletePoints (hplaced : Placed xxh64 metadata collection schema)
    {ids : List UInt64} {envs : ℕ → Env}
    (h : Holding R xxh64 metadata collection schema me regs held m w)
    (henv : ∀ i node, (envs i).fate node = .answered)
    (hroom : HasRoom (w me).clock (fun i => (envs i).reading me) ids.length) :
    let report := Quorvec.deletePoints R me xxh64 metadata schema collection
      consistency envs w ids
    report.result = .ok ids.length ∧
      ∃ regs' held', Holding R xxh64 metadata collection schema me regs' held'
        (m.delete ids) report.world := by
  induction ids generalizing w m regs held envs with
  | nil => exact ⟨rfl, regs, held, h⟩
  | cons id ids ih =>
      obtain ⟨hahead, hrest⟩ := HasRoom.step hroom
      obtain ⟨req, w', regs', held', hwrite, hclock, hholding⟩ :=
        @stampedWrite R xxh64 metadata collection schema me regs held m w
          (envs 0) consistency h hplaced (henv 0) hahead
          (deleteRequest xxh64 schema collection id) id none (fun _ => rfl)
          (fun hlc => Prod.ext (Hlc.unpack_pack hlc) rfl)
          (deleteRequest_fits id)
      have hlater := @ih regs' held' _ w' (fun i => envs (i + 1)) hholding
        (fun i => henv (i + 1)) (by rw [hclock]; exact hrest)
      simp only [Quorvec.deletePoints, hwrite, BatchReport.after]
      refine ⟨?_, hlater.2⟩
      rw [hlater.1]
      rfl

/-- All replicas answer. -/
theorem readReplicas_answered
    (h : Holding R xxh64 metadata collection schema me regs held m w)
    {fate : NodeId → CallFate} (hfate : ∀ node, fate node = .answered)
    (shardIdx : UInt32) (id : UInt64) (replicas : List (NodeId × String)) :
    (readReplicas R me fate collection shardIdx id schema replicas w).2.map
      Prod.fst = replicas.map Prod.fst := by
  have hserves := h.serves shardIdx
  have hknown := h.known
  clear h
  generalize regs shardIdx = own at hserves
  induction replicas generalizing w with
  | nil => rfl
  | cons r replicas ih =>
      obtain ⟨node, addr⟩ := r
      obtain ⟨state, p, hread, hmeta, hreplica⟩ : ∃ state p,
          readOneReplica R me (fate node) w node collection shardIdx id
            schema = (Function.update w node state, .ok p) ∧
          state.metadata = (w node).metadata ∧
          state.Replica R xxh64
            (shardOf xxh64 metadata collection schema shardIdx) (own node) := by
        obtain ⟨state, hread, hreplica⟩ := (hserves node).readLocal id
        have hmeta := NodeState.metadata_readLocal R (w node) collection
          shardIdx schema id
        have hlocal : (w node).readLocal R collection shardIdx schema id =
            (state, .ok ((own node id).map (pointOf id))) := hread
        rw [hlocal] at hmeta
        refine ⟨state, (own node id).map (pointOf id), ?_, hmeta, hreplica⟩
        unfold readOneReplica
        split_ifs with hself
        · rw [hlocal]
        · simp only [hfate, NodeState.replicaGet, hknown node, hlocal]
      have hrest := @ih (Function.update w node state) (fun other => by
        by_cases hnode : other = node
        · rw [hnode, Function.update_self, hmeta]
          exact hknown node
        · rw [Function.update_of_ne hnode]
          exact hknown other) (hserves.update_same hreplica)
      rw [readReplicas, hread]
      exact congrArg (node :: ·) hrest

/-- A read finds what the replicas hold of the id, and none of them behind. -/
theorem getPoint
    (h : Holding R xxh64 metadata collection schema me regs held m w)
    (hplaced : Placed xxh64 metadata collection schema)
    {fate : NodeId → CallFate} (hfate : ∀ node, fate node = .answered)
    (id : UInt64) :
    ∃ w' responses, Quorvec.getPoint R xxh64 me metadata schema collection
        consistency fate id w =
          (w', [], responses, .ok ((held id).map (pointOf id))) ∧
      Holding R xxh64 metadata collection schema me regs held m w' := by
  obtain ⟨shardIdx, hidx⟩ : ∃ shardIdx,
      shardForId xxh64 id schema.shardCount = shardIdx := ⟨_, rfl⟩
  obtain ⟨replicas, hview⟩ : ∃ replicas,
      replicasWithAddrs xxh64 metadata collection shardIdx = replicas :=
    ⟨_, rfl⟩
  have hnonempty := hplaced.nonempty id
  have heven := h.even id
  rw [hidx, hview] at hnonempty
  rw [hidx] at heven
  have hasked : ∀ other, ReplicasAsked R xxh64
      (shardOf xxh64 metadata collection schema other) ⟨collection, shardIdx⟩
      id replicas w (regs other) (readReplicas R me fate collection shardIdx id
        schema replicas w) :=
    fun other => (h.serves other).readReplicas (fun _ => rfl) fate replicas
  have hall := h.readReplicas_answered hfate shardIdx id replicas
  have hclock := @clock_readReplicas R me fate collection shardIdx id schema
    replicas w me
  rcases hread : readReplicas R me fate collection shardIdx id schema replicas
    w with ⟨w', responses⟩
  rw [hread] at hall hclock
  -- every replica of the view gives the same answer
  have hanswers : ∀ node p, (node, p) ∈ responses →
      p = (held id).map (pointOf id) := by
    intro node p hp
    have hsame := (hasked shardIdx).answers rfl node p (by rw [hread]; exact hp)
    have hnode : node ∈ replicas.map Prod.fst := by
      rw [← hall]
      exact List.mem_map_of_mem hp
    rw [← hview] at hnode
    rw [hsame, heven node hnode]
  have hresponses : responses ≠ [] := by
    rintro rfl
    exact hnonempty (List.map_eq_nil_iff.mp hall.symm)
  have hwinner := Responses.winner_of_same hresponses hanswers
  have hlength : ¬ responses.length < consistency.count replicas.length := by
    have hcount := consistency.count_le (List.length_pos_of_ne_nil hnonempty)
    have hlen : responses.length = replicas.length := by
      have hboth := congrArg List.length hall
      rwa [List.length_map, List.length_map] at hboth
    omega
  have hserves : ∀ other, w'.Serves R xxh64
      (shardOf xxh64 metadata collection schema other) (regs other) := by
    intro other
    have hother := (hasked other).serves
    rwa [hread] at hother
  have hmeta : ∀ node, (w' node).metadata = (w node).metadata := by
    intro node
    have hnode := (hasked shardIdx).keeps.metadata_eq node
    rwa [hread] at hnode
  refine ⟨w', responses, ?_, hserves, (hmeta me).trans h.own, fun node => ?_,
    h.even, h.content, fun other p hp => ?_⟩
  · simp only [Quorvec.getPoint, hidx, hview, List.isEmpty_iff, hnonempty,
      if_false, hread, Responses.outcome, hlength, hwinner]
    rcases hheld : held id with _ | q
    · rfl
    · rw [hheld] at hanswers
      have hstale := Responses.stale_of_same hanswers
      simp only [Option.map_some, spawnReadRepair, hstale, List.filter_nil,
        List.foldl_nil, List.map_nil]
  · rw [hmeta]
    exact h.known node
  · rw [hclock]
    exact h.stamps other p hp

/-- The loop of a get. -/
theorem getPoints
    (h : Holding R xxh64 metadata collection schema me regs held m w)
    (hplaced : Placed xxh64 metadata collection schema)
    {fate : ℕ → NodeId → CallFate}
    (hfate : ∀ i node, fate i node = .answered) (ids : List UInt64) :
    ∃ w', Quorvec.getPoints R xxh64 me metadata schema collection consistency
        fate ids w = (w', [], .ok (m.get ids)) ∧
      Holding R xxh64 metadata collection schema me regs held m w' := by
  induction ids generalizing w fate with
  | nil => exact ⟨w, rfl, h⟩
  | cons id ids ih =>
      obtain ⟨w₁, responses, hget, hholding⟩ := @getPoint R xxh64 metadata
        collection schema me regs held m w consistency h hplaced (fate 0)
        (hfate 0) id
      obtain ⟨w₂, hrest, hdone⟩ := ih hholding fun i => hfate (i + 1)
      refine ⟨w₂, ?_, hdone⟩
      have hcontent := h.content id
      simp only [Quorvec.getPoints, hget, hrest, List.append_nil, Except.map,
        PointMap.get]
      rcases hheld : held id with _ | ⟨t, _ | vector⟩
      · rw [hheld] at hcontent
        simp [returned, ← hcontent]
      · rw [hheld] at hcontent
        simp [returned, pointOf, ← hcontent]
      · rw [hheld] at hcontent
        simp [returned, pointOf, ← hcontent]

/-- What goes on between the calls. -/
theorem elsewhere
    (h : Holding R xxh64 metadata collection schema me regs held m w)
    {w' : World}
    (hserves : ∀ shardIdx regs, w.Serves R xxh64
        (shardOf xxh64 metadata collection schema shardIdx) regs →
      w'.Serves R xxh64
        (shardOf xxh64 metadata collection schema shardIdx) regs)
    (hown : (w' me).metadata = metadata)
    (hknown : ∀ node,
      (w' node).metadata.collections[collection]? = some schema)
    (hclock : (w me).clock ≤ (w' me).clock) :
    Holding R xxh64 metadata collection schema me regs held m w' :=
  ⟨fun shardIdx => hserves shardIdx _ (h.serves shardIdx), hown, hknown,
    h.even, h.content, fun id p hp => (h.stamps id p hp).trans hclock⟩

end Holding

end Calls

/-! ## Every run -/

section Run

variable {R : Runtime} {xxh64 : Bytes → UInt64} {metadata : MetaState}
variable {collection : String} {schema : CollectionSchema} {me : NodeId}
variable {m : PointMap} {w : World}

/-- A collection that is not used yet is empty. -/
theorem Unused.holding (hplaced : Placed xxh64 metadata collection schema)
    (h : Unused metadata collection schema w) :
    Holding R xxh64 metadata collection schema me (fun _ _ _ => none)
      (fun _ => none) (fun _ => none) w where
  serves shardIdx node := by
    refine ⟨fun known hknown => ?_, h.fsync node, ?_⟩
    · have hsome : metadata.collections[collection]? = some known := by
        rw [← h.metadata_eq node]
        exact hknown
      rw [h.metadata_eq]
      exact ⟨Option.some.inj (hsome.symm.trans hplaced.known), rfl⟩
    · have hslot : (w node).shards.slots (shardOf xxh64 metadata collection
          schema shardIdx).key = .closed .empty := h.slots node shardIdx
      rw [hslot]
      exact ShardSlot.durable_unused h.dim_pos
  own := h.metadata_eq me
  known node := by
    rw [h.metadata_eq]
    exact hplaced.known
  even _ _ _ := rfl
  content _ := rfl
  stamps _ _ hp := by simp at hp

theorem ClientRun.holding
    (hplaced : Placed xxh64 metadata collection schema)
    (h : ClientRun R xxh64 metadata collection schema me w m) :
    ∃ regs held,
      Holding R xxh64 metadata collection schema me regs held m w := by
  induction h with
  | init h => exact ⟨_, _, h.holding hplaced⟩
  | upsert envs consistency points _ henv hroom hframe ih =>
      obtain ⟨regs, held, hholding⟩ := ih
      have hknown := hholding.own ▸ hplaced.known
      simp only [coordinateUpsert, hholding.own, hplaced.known]
      exact (hholding.upsertPoints hplaced henv hroom hframe).2
  | delete envs consistency ids _ henv hroom ih =>
      obtain ⟨regs, held, hholding⟩ := ih
      simp only [coordinateDelete, hholding.own, hplaced.known]
      exact (hholding.deletePoints hplaced henv hroom).2
  | get fate consistency ids _ hfate ih =>
      obtain ⟨regs, held, hholding⟩ := ih
      obtain ⟨w', hget, hdone⟩ := @Holding.getPoints R xxh64 metadata collection
        schema me regs held _ _ consistency hholding hplaced fate hfate ids
      simp only [coordinateGetPoints, hholding.own, hplaced.known, hget]
      exact ⟨regs, held, hdone⟩
  | elsewhere _ hserves hown hknown hclock ih =>
      obtain ⟨regs, held, hholding⟩ := ih
      exact ⟨regs, held, hholding.elsewhere hserves hown hknown hclock⟩

end Run

/-- A collection whose replicas answer serves the clients of a coordinator as a
map. -/
theorem servesAsMap_of_placed (R : Runtime) {xxh64 : Bytes → UInt64}
    {metadata : MetaState} {collection : String} {schema : CollectionSchema}
    (me : NodeId) (hplaced : Placed xxh64 metadata collection schema) :
    ServesAsMap R xxh64 metadata collection schema me := by
  intro w m hrun
  obtain ⟨regs, held, hholding⟩ := hrun.holding hplaced
  refine ⟨fun envs consistency points henv hroom hframe => ?_,
    fun envs consistency ids henv hroom => ?_,
    fun fate consistency ids hfate => ?_⟩
  · simp only [coordinateUpsert, hholding.own, hplaced.known]
    exact (hholding.upsertPoints hplaced henv hroom hframe).1
  · simp only [coordinateDelete, hholding.own, hplaced.known]
    exact (hholding.deletePoints hplaced henv hroom).1
  · obtain ⟨w', hget, -⟩ := @Holding.getPoints R xxh64 metadata collection
      schema me regs held m w consistency hholding hplaced fate hfate ids
    simp only [coordinateGetPoints, hholding.own, hplaced.known, hget]

open OneReplica in
/-- A point that a fresh node has upserted is got from it. -/
theorem servesAsMap_of_placed_single :
    (coordinateGetPoints .constant (fun _ => 0) 1 (fun _ _ => .answered)
      (coordinateUpsert .constant 1 (fun _ => 0) "c" .all
        (fun _ => CallFate.answered.env 5) (fun _ => fresh)
        [⟨7, [0], []⟩]).world "c" [8, 7] .one).2 = ([], .ok [(7, [0])]) := by
  have hplaced : Placed (fun _ => 0) metadata "c" schema := by
    refine ⟨schema_eq, fun id => ?_⟩
    have hidx : shardForId (fun _ => 0) id schema.shardCount = 0 := by
      simp [shardForId, schema]
    rw [hidx, replicas_eq]
    simp
  have hunused : Unused metadata "c" schema fun _ => fresh :=
    ⟨by decide, fun _ => rfl, fun _ => rfl, fun _ _ => rfl⟩
  have hroom : HasRoom fresh.clock (fun _ => 5) 1 :=
    ⟨by decide, fun _ => by decide⟩
  have hrun := @ClientRun.upsert .constant (fun _ => 0) metadata "c" schema 1
    _ _ (fun _ => CallFate.answered.env 5) .all [⟨7, [0], []⟩]
    (.init hunused) (fun _ _ => rfl) hroom (by
      rintro point hpoint hlc
      obtain rfl := List.mem_singleton.mp hpoint
      simp [ReplicaWriteRequest.FitsFrame, WalRecord.FitsFrame,
        WalRecord.length_encodeBody, UpsertPoint.request, ShardStore.callOf,
        ShardStore.opUpsert, ShardStore.opDelete, ShardCall.record,
        WalRecord.ofUpsert])
  exact (servesAsMap_of_placed .constant 1 hplaced _ _ hrun).2.2 _ .one [8, 7]
    fun _ _ => rfl

end Quorvec
