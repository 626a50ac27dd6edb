import Quorvec.Node.ReplicaState

/-!
# Convergence of replicas

Coordinators stamp writes with their own clocks and send them to replicas.  A
request may arrive at any time, in any order and any number of times, be it the
write itself, a replayed hint or a read repair; what a repair pushes is what
some replica was seen to hold.

Replicas that have received the same writes hold the same, provided that no two
coordinators stamp different contents for one id alike.  A timestamp carries no
node id, so nothing in the code rules that out.
-/

namespace Quorvec

open LastWriterWins ByteCodec

/-- The writes to an id among some requests. -/
def writesOf (received : List ReplicaWriteRequest) (key : ShardKey)
    (id : UInt64) : Set (Hlc × Content) :=
  {p | ∃ req ∈ received, req.key = key ∧ req.id = id ∧ req.written = p}

/-- The schemas that `create_collection` lets through. -/
def MetaState.Admissible (metadata : MetaState) : Prop :=
  ∀ (collection : String) schema,
    metadata.collections[collection]? = some schema → 0 < schema.dim.toNat

/-- The nodes and the requests between them. -/
structure DataPlane where
  world : World
  /-- Every request that was ever sent. -/
  sent : List ReplicaWriteRequest
  /-- The writes that coordinators have stamped. -/
  issued : List ReplicaWriteRequest
  /-- The requests that a replica has taken. -/
  received : NodeId → List ReplicaWriteRequest

inductive DataStep
  /-- A coordinator stamps an upsert. -/
  | upsert (node : NodeId) (reading : ℕ) (collection : String) (id : UInt64)
      (vector : List F32) (payload : Bytes)
  /-- A coordinator stamps a delete. -/
  | delete (node : NodeId) (reading : ℕ) (collection : String) (id : UInt64)
  /-- A request arrives at a replica. -/
  | receive (node : NodeId) (reading : ℕ) (req : ReplicaWriteRequest)
  /-- A node applies a request to its own replica. -/
  | receiveLocal (node : NodeId) (req : ReplicaWriteRequest)
  /-- A read sees what a replica holds and pushes it on. -/
  | repair (source : NodeId) (collection : String) (shardIdx : UInt32)
      (id : UInt64)

namespace DataPlane

section Step

variable (R : Runtime) (xxh64 : Bytes → UInt64)

/-- A coordinator has stamped a request, or refused the operation. -/
def stamped (s : DataPlane) (node : NodeId) :
    NodeState × Except RouterError ReplicaWriteRequest → DataPlane
  | (state, .ok req) =>
      { s with
        world := Function.update s.world node state
        sent := req :: s.sent
        issued := req :: s.issued }
  | (state, .error _) =>
      { s with world := Function.update s.world node state }

/-- A replica has taken a request. -/
def taken (s : DataPlane) (node : NodeId) (req : ReplicaWriteRequest)
    (state : NodeState) : DataPlane :=
  { s with
    world := Function.update s.world node state
    received := Function.update s.received node (req :: s.received node) }

/-- One step; `none` if it cannot happen. -/
def step (s : DataPlane) : DataStep → Option DataPlane
  | .upsert node reading collection id vector payload =>
      some (s.stamped node ((s.world node).stampUpsert xxh64 reading
        collection id vector payload))
  | .delete node reading collection id =>
      some (s.stamped node ((s.world node).stampDelete xxh64 reading
        collection id))
  | .receive node reading req =>
      if req ∈ s.sent then
        match (s.world node).replicaWrite R reading req with
        | (state, .ok _) => some (s.taken node req state)
        | (state, .error _) =>
            some { s with world := Function.update s.world node state }
      else none
  | .receiveLocal node req =>
      if req ∈ s.sent then
        match (s.world node).metadata.collections[req.collection]? with
        | none => none
        | some schema =>
            match (s.world node).shards.write R
                (shardRef req.collection req.shardIdx schema) req.op
                (Hlc.unpack req.hlc) req.id req.vector req.payload with
            | (shards, .ok _) =>
                some (s.taken node req { s.world node with shards })
            | (shards, .error _) =>
                some { s with world :=
                  Function.update s.world node { s.world node with shards } }
      else none
  | .repair source collection shardIdx id =>
      match (s.world source).replicaGet R collection shardIdx id with
      | (state, .ok (some winner)) =>
          some { s with
            world := Function.update s.world source state
            sent := winner.repair collection shardIdx :: s.sent }
      | (state, _) =>
          some { s with world := Function.update s.world source state }

/-- A cluster whose nodes know the collections and hold no data. -/
structure Initial (metadata : MetaState) (s : DataPlane) : Prop where
  admissible : metadata.Admissible
  metadata_eq : ∀ node, (s.world node).metadata = metadata
  fresh : ∀ node, ∃ mb batchMs, (s.world node).shards = .new mb batchMs
  sent : s.sent = []
  issued : s.issued = []
  received : s.received = fun _ => []

/-- The runs whose steps are all admitted. -/
inductive Run (metadata : MetaState) (Admits : DataPlane → DataStep → Prop) :
    DataPlane → Prop
  | init {s : DataPlane} : Initial metadata s → Run metadata Admits s
  | step {s s' : DataPlane} (e : DataStep) : Run metadata Admits s →
      Admits s e → s.step R xxh64 e = some s' → Run metadata Admits s'

end Step

/-- The writes to an id that a node has received. -/
def writes (s : DataPlane) (node : NodeId) (key : ShardKey) (id : UInt64) :
    Set (Hlc × Content) :=
  writesOf (s.received node) key id

end DataPlane

/-- In every admitted run, replicas that have received the same writes to an
id return the same point for it. -/
def Converges (R : Runtime) (xxh64 : Bytes → UInt64) (metadata : MetaState)
    (Admits : DataPlane → DataStep → Prop) : Prop :=
  ∀ s, DataPlane.Run R xxh64 metadata Admits s →
    ∀ (a b : NodeId) (collection : String) (shardIdx : UInt32)
      (schema : CollectionSchema) (id : UInt64),
      metadata.collections[collection]? = some schema →
      s.writes a { collection, shardIdx } id =
        s.writes b { collection, shardIdx } id →
      ((s.world a).readLocal R collection shardIdx schema id).2 =
        ((s.world b).readLocal R collection shardIdx schema id).2

/-- The request that a coordinator stamps. -/
def DataStep.stamps (xxh64 : Bytes → UInt64) (s : DataPlane) :
    DataStep → Option ReplicaWriteRequest
  | .upsert node reading collection id vector payload =>
      ((s.world node).stampUpsert xxh64 reading collection id vector
        payload).2.toOption
  | .delete node reading collection id =>
      ((s.world node).stampDelete xxh64 reading collection id).2.toOption
  | _ => none

/-- No stamp is given out for an id that another content already has. -/
def DataStep.StampsApart (xxh64 : Bytes → UInt64) (s : DataPlane)
    (e : DataStep) : Prop :=
  ∀ req, e.stamps xxh64 s = some req → req.Apart s.issued

/-! ## What a step does to the data of a node -/

/-- The vector of an upsert fits the schema of its collection. -/
def ReplicaWriteRequest.Fits (metadata : MetaState)
    (req : ReplicaWriteRequest) : Prop :=
  ∃ schema, metadata.collections[req.collection]? = some schema ∧
    ∀ v, req.written.2 = some v → v.length = schema.dim.toNat

theorem ReplicaWriteRequest.From.fits {metadata : MetaState}
    {issued : List ReplicaWriteRequest} {req : ReplicaWriteRequest}
    (h : req.From issued) (hissued : ∀ old ∈ issued, old.Fits metadata) :
    req.Fits metadata := by
  obtain ⟨old, hold, hkey, -, hwritten⟩ := h
  obtain ⟨schema, hschema, hdim⟩ := hissued old hold
  have hcollection : old.collection = req.collection :=
    congrArg ShardKey.collection hkey
  refine ⟨schema, hcollection ▸ hschema, ?_⟩
  rwa [← hwritten]

namespace NodeState

/-- The shards of the collections are valid. -/
def ValidShards (metadata : MetaState) (s : NodeState) : Prop :=
  ∀ (collection : String) schema (shardIdx : UInt32),
    metadata.collections[collection]? = some schema →
    (s.shards.slots { collection, shardIdx }).Valid schema.dim.toNat

/-- Validity after a change of one slot. -/
theorem ValidShards.update {metadata : MetaState} {old new : NodeState}
    (h : old.ValidShards metadata) {collection : String}
    {schema : CollectionSchema} {shardIdx : UInt32}
    (hschema : metadata.collections[collection]? = some schema)
    (hslot : (new.shards.slots { collection, shardIdx }).Valid
      schema.dim.toNat)
    (hother : ∀ key, key ≠ { collection, shardIdx } →
      new.shards.slots key = old.shards.slots key) :
    new.ValidShards metadata := by
  intro collection' schema' shardIdx' hschema'
  by_cases hkey : ({ collection := collection', shardIdx := shardIdx' } :
      ShardKey) = { collection, shardIdx }
  · have hcollection : collection' = collection :=
      congrArg ShardKey.collection hkey
    rw [hcollection, hschema, Option.some.injEq] at hschema'
    rw [hkey, ← hschema']
    exact hslot
  · rw [hother _ hkey]
    exact h collection' schema' shardIdx' hschema'

/-- Two states of a node that differ in nothing that reads see. -/
structure SameData (metadata : MetaState) (old new : NodeState) : Prop where
  metadata_eq : new.metadata = old.metadata
  valid : new.ValidShards metadata
  registers_eq : ∀ key,
    (new.shards.slots key).registers = (old.shards.slots key).registers

/-- A request is taken: an offer to its register, and nothing else. -/
structure Takes (metadata : MetaState) (old : NodeState)
    (req : ReplicaWriteRequest) (new : NodeState) : Prop where
  metadata_eq : new.metadata = old.metadata
  valid : new.ValidShards metadata
  registers_eq : (new.shards.slots req.key).registers =
    deliverWith offer (old.shards.slots req.key).registers
      (req.id, req.written)
  other : ∀ key, key ≠ req.key →
    new.shards.slots key = old.shards.slots key

variable {R : Runtime} {metadata : MetaState} {s : NodeState}

theorem takes_write (hM : metadata.Admissible)
    (hvalid : s.ValidShards metadata) {req : ReplicaWriteRequest}
    (hreq : req.Fits metadata) {schema : CollectionSchema}
    (hschema : metadata.collections[req.collection]? = some schema)
    (clock : Hlc) :
    ∃ shards out, s.shards.write R
        (shardRef req.collection req.shardIdx schema) req.op
        (Hlc.unpack req.hlc) req.id req.vector req.payload =
          (shards, .ok out) ∧
      Takes metadata s req { s with shards, clock } := by
  obtain ⟨schema', hschema', hdim⟩ := hreq
  rw [hschema, Option.some.injEq] at hschema'
  subst hschema'
  let sref := shardRef req.collection req.shardIdx schema
  have hslot : (s.shards.slots sref.key).Valid sref.dim :=
    hvalid req.collection schema req.shardIdx hschema
  obtain ⟨hout, hwritten⟩ :=
    ShardStore.write_of_valid (hM _ _ hschema) hslot hdim
  exact ⟨_, _, Prod.ext rfl hout, rfl,
    hvalid.update hschema hwritten.valid hwritten.other,
    hwritten.registers_eq, hwritten.other⟩

theorem takes_replicaWrite (hM : metadata.Admissible)
    (hmeta : s.metadata = metadata) (hvalid : s.ValidShards metadata)
    {req : ReplicaWriteRequest} (hreq : req.Fits metadata) (reading : ℕ) :
    ∃ state applied, s.replicaWrite R reading req = (state, .ok applied) ∧
      Takes metadata s req state := by
  obtain ⟨schema, hschema, -⟩ := id hreq
  obtain ⟨shards, out, hwrite, htakes⟩ := takes_write (R := R) hM hvalid hreq
    hschema (HlcClock.update s.clock reading (Hlc.unpack req.hlc))
  refine ⟨_, out = .applied, ?_, htakes⟩
  rw [← hmeta] at hschema
  simp only [replicaWrite, hschema, applyReplicaWrite, hwrite]

theorem readLocal_of_valid (hM : metadata.Admissible)
    (hvalid : s.ValidShards metadata) {collection : String}
    {schema : CollectionSchema}
    (hschema : metadata.collections[collection]? = some schema)
    (shardIdx : UInt32) (id : UInt64) :
    ∃ state, s.readLocal R collection shardIdx schema id =
        (state, .ok (((s.shards.slots { collection, shardIdx }).registers
          id).map (pointOf id))) ∧
      SameData metadata s state := by
  let sref := shardRef collection shardIdx schema
  have hslot : (s.shards.slots sref.key).Valid sref.dim :=
    hvalid collection schema shardIdx hschema
  obtain ⟨hpoint, hread⟩ := ShardStore.getVersioned_of_valid (R := R)
    (hM _ _ hschema) hslot id
  have hlocal : s.readLocal R collection shardIdx schema id =
      ({ s with shards := (s.shards.getVersioned R sref id).1 },
        .ok (((s.shards.slots sref.key).registers id).map (pointOf id))) := by
    have hpair : s.shards.getVersioned R sref id =
        ((s.shards.getVersioned R sref id).1,
          .ok (((s.shards.slots sref.key).registers id).map (pointOf id))) :=
      Prod.ext rfl hpoint
    rw [readLocal, hpair]
  refine ⟨_, hlocal, rfl, hvalid.update hschema hread.valid hread.other, ?_⟩
  intro key
  by_cases hkey : key = sref.key
  · rw [hkey]
    exact hread.registers_eq
  · exact congrArg ShardSlot.registers (hread.other key hkey)

end NodeState

/-! ## Invariants of a run -/

theorem writesOf_congr {received received' : List ReplicaWriteRequest}
    (h : ∀ req, req ∈ received ↔ req ∈ received') (key : ShardKey)
    (id : UInt64) : writesOf received key id = writesOf received' key id := by
  simp only [writesOf, h]

theorem writesOf_cons_self (received : List ReplicaWriteRequest)
    (req : ReplicaWriteRequest) :
    writesOf (req :: received) req.key req.id =
      insert req.written (writesOf received req.key req.id) := by
  ext p
  simp [writesOf, eq_comm]

theorem writesOf_cons_of_ne {received : List ReplicaWriteRequest}
    {req : ReplicaWriteRequest} {key : ShardKey} {id : UInt64}
    (h : ¬ (req.key = key ∧ req.id = id)) :
    writesOf (req :: received) key id = writesOf received key id := by
  ext p
  simp only [writesOf, List.mem_cons, exists_eq_or_imp, Set.mem_ofPred_eq]
  tauto

/-- A replica holds winners among what it has received, and that was all
issued. -/
structure ReplicaSound (metadata : MetaState)
    (issued received : List ReplicaWriteRequest) (state : NodeState) :
    Prop where
  metadata_eq : state.metadata = metadata
  valid : state.ValidShards metadata
  winner : ∀ key id, IsWinner (writesOf received key id)
    ((state.shards.slots key).registers id)
  from_issued : ∀ req ∈ received, req.From issued

namespace ReplicaSound

variable {metadata : MetaState} {issued received : List ReplicaWriteRequest}
variable {old new : NodeState}

theorem takes (h : ReplicaSound metadata issued received old)
    {req : ReplicaWriteRequest} (hreq : req.From issued)
    (htakes : NodeState.Takes metadata old req new) :
    ReplicaSound metadata issued (req :: received) new := by
  refine ⟨htakes.metadata_eq.trans h.metadata_eq, htakes.valid, ?_, ?_⟩
  · intro key id
    by_cases hkey : key = req.key
    · subst hkey
      rw [htakes.registers_eq, deliverWith]
      by_cases hid : id = req.id
      · subst hid
        rw [writesOf_cons_self, Function.update_self]
        exact (h.winner req.key req.id).offer req.written
      · rw [writesOf_cons_of_ne (fun hsame => hid hsame.2.symm),
          Function.update_of_ne hid]
        exact h.winner req.key id
    · rw [writesOf_cons_of_ne (fun hsame => hkey hsame.1.symm),
        htakes.other key hkey]
      exact h.winner key id
  · intro x hx
    rcases List.mem_cons.mp hx with rfl | hx
    · exact hreq
    · exact h.from_issued x hx

theorem held_from_issued (h : ReplicaSound metadata issued received old)
    {key : ShardKey} {id : UInt64} {p : Hlc × Content}
    (hp : (old.shards.slots key).registers id = some p) :
    ∃ req ∈ issued, req.key = key ∧ req.id = id ∧ req.written = p := by
  obtain ⟨req, hreq, rfl, rfl, rfl⟩ := (h.winner key id).mem p hp
  exact h.from_issued req hreq

theorem sameData (h : ReplicaSound metadata issued received old)
    (hsame : NodeState.SameData metadata old new) :
    ReplicaSound metadata issued received new := by
  refine ⟨hsame.metadata_eq.trans h.metadata_eq, hsame.valid, ?_,
    h.from_issued⟩
  intro key id
  rw [hsame.registers_eq]
  exact h.winner key id

theorem mono (h : ReplicaSound metadata issued received old)
    {issued' : List ReplicaWriteRequest} (hsub : issued ⊆ issued') :
    ReplicaSound metadata issued' received old :=
  ⟨h.metadata_eq, h.valid, h.winner, fun req hreq =>
    (h.from_issued req hreq).mono hsub⟩

end ReplicaSound

namespace DataPlane

/-- Every replica is sound, and every request stands for a write that was
issued. -/
structure Sound (metadata : MetaState) (s : DataPlane) : Prop where
  admissible : metadata.Admissible
  replica : ∀ node,
    ReplicaSound metadata s.issued (s.received node) (s.world node)
  fits : ∀ req ∈ s.issued, req.Fits metadata
  sent : ∀ req ∈ s.sent, req.From s.issued

section Invariant

variable {R : Runtime} {xxh64 : Bytes → UInt64} {metadata : MetaState}
variable {s : DataPlane}

theorem Initial.sound (h : Initial metadata s) : Sound metadata s := by
  have hslot : ∀ node key,
      (s.world node).shards.slots key = .closed .empty := by
    intro node key
    obtain ⟨mb, batchMs, hnew⟩ := h.fresh node
    rw [hnew]
    rfl
  refine ⟨h.admissible, fun node => ⟨h.metadata_eq node, ?_, ?_, ?_⟩, ?_, ?_⟩
  · intro collection schema shardIdx _
    rw [hslot]
    exact .unused
  · intro key id
    have hnone : writesOf (s.received node) key id = ∅ := by
      simp [writesOf, h.received]
    rw [hslot, hnone]
    exact isWinner_empty
  · simp [h.received]
  · simp [h.issued]
  · simp [h.sent]

theorem Sound.taken (h : Sound metadata s) {node : NodeId}
    {req : ReplicaWriteRequest} (hreq : req.From s.issued) {state : NodeState}
    (htakes : NodeState.Takes metadata (s.world node) req state) :
    Sound metadata (DataPlane.taken s node req state) := by
  refine ⟨h.admissible, fun node' => ?_, h.fits, h.sent⟩
  by_cases hnode : node' = node
  · subst hnode
    simp only [DataPlane.taken, Function.update_self]
    exact (h.replica node').takes hreq htakes
  · simp only [DataPlane.taken, Function.update_of_ne hnode]
    exact h.replica node'

/-- A change of a node that reads do not see. -/
theorem Sound.update (h : Sound metadata s) {node : NodeId}
    {state : NodeState}
    (hsame : NodeState.SameData metadata (s.world node) state) :
    Sound metadata { s with
      world := Function.update s.world node state } := by
  refine ⟨h.admissible, fun node' => ?_, h.fits, h.sent⟩
  by_cases hnode : node' = node
  · subst hnode
    simp only [Function.update_self]
    exact (h.replica node').sameData hsame
  · simp only [Function.update_of_ne hnode]
    exact h.replica node'

theorem Sound.issue (h : Sound metadata s) {req : ReplicaWriteRequest}
    (hreq : req.Fits metadata) :
    Sound metadata { s with
      sent := req :: s.sent, issued := req :: s.issued } := by
  have hsub : s.issued ⊆ req :: s.issued := List.subset_cons_self _ _
  refine ⟨h.admissible, fun node => (h.replica node).mono hsub, ?_, ?_⟩
  · intro old hold
    rcases List.mem_cons.mp hold with rfl | hold
    · exact hreq
    · exact h.fits old hold
  · intro old hold
    rcases List.mem_cons.mp hold with rfl | hold
    · exact ⟨old, List.mem_cons_self, rfl, rfl, rfl⟩
    · exact (h.sent old hold).mono hsub

theorem Sound.send (h : Sound metadata s) {req : ReplicaWriteRequest}
    (hreq : req.From s.issued) :
    Sound metadata { s with sent := req :: s.sent } := by
  refine ⟨h.admissible, h.replica, h.fits, ?_⟩
  intro old hold
  rcases List.mem_cons.mp hold with rfl | hold
  · exact hreq
  · exact h.sent old hold

/-! ### Stamping -/

/-- What a coordinator stamps fits, and only its clock changes. -/
structure Stamps (metadata : MetaState) (old : NodeState)
    (out : NodeState × Except RouterError ReplicaWriteRequest) : Prop where
  clock : ∃ clock, out.1 = { old with clock }
  fits : ∀ req, out.2 = .ok req → req.Fits metadata

theorem stamps_upsert {state : NodeState} (hmeta : state.metadata = metadata)
    (reading : ℕ) (collection : String) (id : UInt64) (vector : List F32)
    (payload : Bytes) :
    Stamps metadata state (state.stampUpsert xxh64 reading collection id
      vector payload) := by
  unfold NodeState.stampUpsert
  rcases hschema : state.metadata.collections[collection]? with _ | schema
  · exact ⟨⟨state.clock, rfl⟩, fun req hreq => by simp at hreq⟩
  · dsimp only
    split_ifs with hdim
    · exact ⟨⟨state.clock, rfl⟩, fun req hreq => by simp at hreq⟩
    · refine ⟨⟨_, rfl⟩, fun req hreq => ?_⟩
      rw [← Except.ok.inj hreq]
      refine ⟨schema, hmeta ▸ hschema, fun v hv => ?_⟩
      have hvector : some vector = some v := hv
      rw [← Option.some.inj hvector]
      exact not_not.mp hdim

theorem stamps_delete {state : NodeState} (hmeta : state.metadata = metadata)
    (reading : ℕ) (collection : String) (id : UInt64) :
    Stamps metadata state (state.stampDelete xxh64 reading collection
      id) := by
  unfold NodeState.stampDelete
  rcases hschema : state.metadata.collections[collection]? with _ | schema
  · exact ⟨⟨state.clock, rfl⟩, fun req hreq => by simp at hreq⟩
  · refine ⟨⟨_, rfl⟩, fun req hreq => ?_⟩
    rw [← Except.ok.inj hreq]
    refine ⟨schema, hmeta ▸ hschema, fun v hv => ?_⟩
    have hnone : (none : Content) = some v := hv
    simp at hnone

theorem Sound.stamped (h : Sound metadata s) {node : NodeId}
    {out : NodeState × Except RouterError ReplicaWriteRequest}
    (hout : Stamps metadata (s.world node) out) :
    Sound metadata (DataPlane.stamped s node out) := by
  obtain ⟨clock, hclock⟩ := hout.clock
  have hsame : NodeState.SameData metadata (s.world node) out.1 := by
    rw [hclock]
    exact ⟨rfl, (h.replica node).valid, fun _ => rfl⟩
  rcases out with ⟨state, e | req⟩
  · exact h.update hsame
  · exact (h.update hsame).issue (hout.fits req rfl)

/-! ### Receiving -/

theorem Sound.receive (h : Sound metadata s) (node : NodeId) (reading : ℕ)
    {req : ReplicaWriteRequest} (hreq : req ∈ s.sent) :
    ∃ state, s.step R xxh64 (.receive node reading req) =
        some (s.taken node req state) ∧
      NodeState.Takes metadata (s.world node) req state := by
  obtain ⟨state, applied, hwrite, htakes⟩ :=
    NodeState.takes_replicaWrite (R := R) h.admissible
      (h.replica node).metadata_eq (h.replica node).valid
      ((h.sent req hreq).fits h.fits) reading
  exact ⟨state, by simp only [step, if_pos hreq, hwrite], htakes⟩

theorem Sound.receiveLocal (h : Sound metadata s) (node : NodeId)
    {req : ReplicaWriteRequest} (hreq : req ∈ s.sent) :
    ∃ state, s.step R xxh64 (.receiveLocal node req) =
        some (s.taken node req state) ∧
      NodeState.Takes metadata (s.world node) req state := by
  have hfits := (h.sent req hreq).fits h.fits
  obtain ⟨schema, hschema, -⟩ := id hfits
  obtain ⟨shards, out, hwrite, htakes⟩ := NodeState.takes_write (R := R)
    h.admissible (h.replica node).valid hfits hschema (s.world node).clock
  have hlocal := hschema
  rw [← (h.replica node).metadata_eq] at hlocal
  exact ⟨_, by simp only [step, if_pos hreq, hlocal, hwrite], htakes⟩

/-- A request that is received was sent, and the replica takes it. -/
theorem Sound.receive_cases (h : Sound metadata s) {node : NodeId}
    {reading : ℕ} {req : ReplicaWriteRequest} {s' : DataPlane}
    (hstep : s.step R xxh64 (.receive node reading req) = some s') :
    req ∈ s.sent ∧ ∃ state, s' = s.taken node req state ∧
      NodeState.Takes metadata (s.world node) req state := by
  by_cases hreq : req ∈ s.sent
  · obtain ⟨state, hreceive, htakes⟩ :=
      @Sound.receive R xxh64 metadata s h node reading req hreq
    rw [hreceive, Option.some.injEq] at hstep
    exact ⟨hreq, state, hstep.symm, htakes⟩
  · simp [step, hreq] at hstep

theorem Sound.receiveLocal_cases (h : Sound metadata s) {node : NodeId}
    {req : ReplicaWriteRequest} {s' : DataPlane}
    (hstep : s.step R xxh64 (.receiveLocal node req) = some s') :
    req ∈ s.sent ∧ ∃ state, s' = s.taken node req state ∧
      NodeState.Takes metadata (s.world node) req state := by
  by_cases hreq : req ∈ s.sent
  · obtain ⟨state, hreceive, htakes⟩ :=
      h.receiveLocal node hreq
    rw [hreceive, Option.some.injEq] at hstep
    exact ⟨hreq, state, hstep.symm, htakes⟩
  · simp [step, hreq] at hstep

/-! ### Read repair -/

theorem written_repair (id : UInt64) (p : Hlc × Content)
    (collection : String) (shardIdx : UInt32) :
    ((pointOf id p).repair collection shardIdx).written = p := by
  rcases p with ⟨t, _ | vector⟩ <;>
    simp [StoredPoint.repair, pointOf, ReplicaWriteRequest.written, contentOf,
      ShardStore.opDelete, ShardStore.opUpsert]

/-- A repair changes nothing that reads see, and sends what the replica
holds. -/
theorem Sound.repair_cases (h : Sound metadata s) {source : NodeId}
    {collection : String} {shardIdx : UInt32} {id : UInt64} {s' : DataPlane}
    (hstep : s.step R xxh64 (.repair source collection shardIdx id) =
      some s') :
    ∃ state sent, NodeState.SameData metadata (s.world source) state ∧
      (∀ req ∈ sent, req.From s.issued) ∧
      s' = { s with world := Function.update s.world source state, sent } := by
  have hsource := h.replica source
  rcases hschema : (s.world source).metadata.collections[collection]? with
    _ | schema
  · simp only [step, NodeState.replicaGet, hschema, Option.some.injEq]
      at hstep
    exact ⟨_, _, ⟨rfl, hsource.valid, fun _ => rfl⟩, h.sent, hstep.symm⟩
  · have hknown := hschema
    rw [hsource.metadata_eq] at hknown
    obtain ⟨state, hread, hsame⟩ := NodeState.readLocal_of_valid (R := R)
      h.admissible hsource.valid hknown shardIdx id
    rcases hreg : ((s.world source).shards.slots
        { collection, shardIdx }).registers id with _ | p
    · rw [hreg, Option.map_none] at hread
      simp only [step, NodeState.replicaGet, hschema, hread,
        Option.some.injEq] at hstep
      exact ⟨_, _, hsame, h.sent, hstep.symm⟩
    · rw [hreg, Option.map_some] at hread
      simp only [step, NodeState.replicaGet, hschema, hread,
        Option.some.injEq] at hstep
      refine ⟨_, _, hsame, fun req hreq => ?_, hstep.symm⟩
      rcases List.mem_cons.mp hreq with rfl | hreq
      · -- the replica holds what it has received
        obtain ⟨old, hold, hkey, hid, hwritten⟩ :=
          hsource.held_from_issued hreg
        exact ⟨old, hold, hkey, hid,
          hwritten.trans (written_repair id p _ _).symm⟩
      · exact h.sent req hreq

theorem Sound.repair (h : Sound metadata s) {source : NodeId}
    {collection : String} {shardIdx : UInt32} {id : UInt64} {s' : DataPlane}
    (hstep : s.step R xxh64 (.repair source collection shardIdx id) =
      some s') : Sound metadata s' ∧ s'.issued = s.issued := by
  obtain ⟨state, sent, hsame, hsent, rfl⟩ := h.repair_cases hstep
  have hupdate := h.update hsame
  exact ⟨⟨hupdate.admissible, hupdate.replica, hupdate.fits, hsent⟩, rfl⟩

/-! ### Runs -/

/-- What a replica returns for an id. -/
theorem Sound.readLocal (h : Sound metadata s) (node : NodeId)
    {collection : String} {schema : CollectionSchema}
    (hschema : metadata.collections[collection]? = some schema)
    (shardIdx : UInt32) (id : UInt64) :
    ((s.world node).readLocal R collection shardIdx schema id).2 =
      .ok ((((s.world node).shards.slots
        { collection, shardIdx }).registers id).map (pointOf id)) := by
  obtain ⟨state, hread, -⟩ := NodeState.readLocal_of_valid (R := R)
    h.admissible (h.replica node).valid hschema shardIdx id
  rw [hread]

theorem Sound.step (h : Sound metadata s) {e : DataStep} {s' : DataPlane}
    (hstep : s.step R xxh64 e = some s') : Sound metadata s' := by
  rcases e with ⟨node, reading, collection, id, vector, payload⟩ |
    ⟨node, reading, collection, id⟩ | ⟨node, reading, req⟩ | ⟨node, req⟩ |
    ⟨source, collection, shardIdx, id⟩
  · rw [← Option.some.inj hstep]
    exact h.stamped (stamps_upsert (h.replica node).metadata_eq _ _ _ _ _)
  · rw [← Option.some.inj hstep]
    exact h.stamped (stamps_delete (h.replica node).metadata_eq _ _ _)
  · obtain ⟨hreq, state, rfl, htakes⟩ := h.receive_cases hstep
    exact h.taken (h.sent req hreq) htakes
  · obtain ⟨hreq, state, rfl, htakes⟩ := h.receiveLocal_cases hstep
    exact h.taken (h.sent req hreq) htakes
  · exact (h.repair hstep).1

theorem Run.sound {Admits : DataPlane → DataStep → Prop}
    (h : Run R xxh64 metadata Admits s) : Sound metadata s := by
  induction h with
  | init hinit => exact hinit.sound
  | step e _ _ hstep ih => exact ih.step hstep

/-- A replica that holds nothing for an id and takes two writes to it with one
stamp keeps the first. -/
theorem Run.receive_two (hrun : Run R xxh64 metadata (fun _ _ => True) s)
    (node : NodeId) {a b : ReplicaWriteRequest} (ha : a ∈ s.sent)
    (hb : b ∈ s.sent) (hkey : b.key = a.key) (hid : b.id = a.id)
    (hstamp : b.written.1 = a.written.1)
    (hnone : ((s.world node).shards.slots a.key).registers a.id = none) :
    ∃ s', Run R xxh64 metadata (fun _ _ => True) s' ∧ s'.sent = s.sent ∧
      s'.received = Function.update s.received node
        (b :: a :: s.received node) ∧
      ((s'.world node).shards.slots a.key).registers a.id =
        some a.written ∧
      ∀ other, other ≠ node → s'.world other = s.world other := by
  have hsound := hrun.sound
  obtain ⟨state, hstep, htakes⟩ :=
    @Sound.receive R xxh64 metadata s hsound node 0 a ha
  have hsound' := hsound.taken (hsound.sent a ha) htakes
  obtain ⟨state', hstep', htakes'⟩ :=
    @Sound.receive R xxh64 metadata _ hsound' node 0 b hb
  refine ⟨_, (hrun.step _ trivial hstep).step _ trivial hstep', rfl, ?_, ?_,
    ?_⟩
  · simp [taken]
  · have hfirst : (state.shards.slots a.key).registers a.id =
        some a.written := by
      rw [htakes.registers_eq, deliverWith, Function.update_self, hnone]
      rfl
    have hold : ((s.taken node a state).world node) = state := by
      simp [taken]
    rw [hold] at htakes'
    simp only [taken, Function.update_self]
    rw [← hkey, htakes'.registers_eq, hkey, deliverWith, hid,
      Function.update_self, hfirst]
    simp [offer, Beats, hstamp]
  · intro other hother
    simp [taken, Function.update_of_ne hother]

theorem issued_stamped (s : DataPlane) (node : NodeId)
    (out : NodeState × Except RouterError ReplicaWriteRequest) :
    (DataPlane.stamped s node out).issued = s.issued ∨
      ∃ req, out.2.toOption = some req ∧
        (DataPlane.stamped s node out).issued = req :: s.issued := by
  rcases out with ⟨state, e | req⟩
  · exact .inl rfl
  · exact .inr ⟨req, rfl, rfl⟩

/-- A step issues at most the request that it stamps. -/
theorem issued_step (h : Sound metadata s) {e : DataStep} {s' : DataPlane}
    (hstep : s.step R xxh64 e = some s') :
    s'.issued = s.issued ∨
      ∃ req, e.stamps xxh64 s = some req ∧ s'.issued = req :: s.issued := by
  rcases e with ⟨node, reading, collection, id, vector, payload⟩ |
    ⟨node, reading, collection, id⟩ | ⟨node, reading, req⟩ | ⟨node, req⟩ |
    ⟨source, collection, shardIdx, id⟩
  · rw [← Option.some.inj hstep]
    exact issued_stamped s node _
  · rw [← Option.some.inj hstep]
    exact issued_stamped s node _
  · by_cases hreq : req ∈ s.sent
    · obtain ⟨state, hreceive, -⟩ :=
        @Sound.receive R xxh64 metadata s h node reading req hreq
      rw [hreceive, Option.some.injEq] at hstep
      rw [← hstep]
      exact .inl rfl
    · simp [DataPlane.step, hreq] at hstep
  · by_cases hreq : req ∈ s.sent
    · obtain ⟨state, hreceive, -⟩ :=
        h.receiveLocal node hreq
      rw [hreceive, Option.some.injEq] at hstep
      rw [← hstep]
      exact .inl rfl
    · simp [DataPlane.step, hreq] at hstep
  · exact .inl (h.repair hstep).2

theorem Run.agreeing
    (h : Run R xxh64 metadata (fun s e => e.StampsApart xxh64 s) s) :
    Agreeing s.issued := by
  induction h with
  | init hinit =>
      rw [hinit.issued]
      exact agreeing_nil
  | step e hrun he hstep ih =>
      rcases issued_step hrun.sound hstep with hsame | ⟨req, hreq, hgrown⟩
      · rwa [hsame]
      · rw [hgrown]
        exact ih.cons (he req hreq)

end Invariant

end DataPlane

/-- Replicas converge in every run in which no coordinator gives a stamp to an
id that another content of the id already has. -/
theorem converges_of_stampsApart (R : Runtime) (xxh64 : Bytes → UInt64)
    (metadata : MetaState) :
    Converges R xxh64 metadata fun s e => e.StampsApart xxh64 s := by
  intro s hrun a b collection shardIdx schema id hschema hwrites
  have hsound := hrun.sound
  have hagree : Agree (s.writes a { collection, shardIdx } id) := by
    rintro p ⟨x, hx, hxkey, hxid, rfl⟩ q ⟨y, hy, hykey, hyid, rfl⟩ hstamp
    obtain ⟨x', hx', hxk, hxi, hxw⟩ := (hsound.replica a).from_issued x hx
    obtain ⟨y', hy', hyk, hyi, hyw⟩ := (hsound.replica a).from_issued y hy
    rw [← hxw, ← hyw] at hstamp ⊢
    apply hrun.agreeing x' hx' y' hy' _ _ hstamp
    · rw [hxk, hyk, hxkey, hykey]
    · rw [hxi, hyi, hxid, hyid]
  have hwinner : IsWinner (s.writes a { collection, shardIdx } id)
      (((s.world b).shards.slots { collection, shardIdx }).registers id) := by
    rw [hwrites]
    exact (hsound.replica b).winner _ _
  rw [hsound.readLocal a hschema, hsound.readLocal b hschema,
    ((hsound.replica a).winner { collection, shardIdx } id).unique hwinner
      hagree]

/-- Two coordinators stamp different vectors for one id in the same
millisecond; the replica that takes one first keeps it, and so does the replica
that takes the other first. -/
theorem not_converges : ¬ ∃ R xxh64, ∀ metadata,
    Converges R xxh64 metadata fun _ _ => True := by
  rintro ⟨R, xxh64, hall⟩
  let schema : CollectionSchema :=
    { dim := 1, metric := .l2, shardCount := 1, replicationN := 2 }
  let metadata : MetaState :=
    { nodes := (∅ : Std.ExtTreeMap NodeId String).insert 1 "a" |>.insert 2 "b"
      collections :=
        (∅ : Std.ExtTreeMap String CollectionSchema).insert "c" schema
      shardStates := ∅ }
  have hschema : metadata.collections["c"]? = some schema :=
    Std.ExtTreeMap.getElem?_insert_self
  let state : NodeState :=
    { metadata, shards := .new 0 0, clock := Hlc.zero, hintLog := none }
  let stamp := HlcClock.now Hlc.zero 5
  let req (x : F32) : ReplicaWriteRequest :=
    { collection := "c", shardIdx := 0, op := ShardStore.opUpsert, id := 7
      hlc := stamp.pack, vector := [x], payload := [] }
  have hshard : shardForId xxh64 7 schema.shardCount = 0 := by
    simp [shardForId, schema, Nat.mod_one]
  have hstamp : ∀ x, state.stampUpsert xxh64 5 "c" 7 [x] [] =
      ({ state with clock := stamp }, .ok (req x)) := by
    intro x
    simp only [NodeState.stampUpsert, state, hschema]
    simp [hshard, req, stamp, schema]
  let s₀ : DataPlane :=
    { world := fun _ => state, sent := [], issued := []
      received := fun _ => [] }
  have hinit : DataPlane.Initial metadata s₀ := by
    refine ⟨?_, fun _ => rfl, fun _ => ⟨0, 0, rfl⟩, rfl, rfl, rfl⟩
    intro collection schema' hmem
    have hname : collection = "c" := by
      by_contra hne
      simp [metadata, Ne.symm hne] at hmem
    rw [hname, hschema, Option.some.injEq] at hmem
    rw [← hmem]
    decide
  -- nodes 1 and 2 stamp their writes
  let s₁ := s₀.stamped 1 (state.stampUpsert xxh64 5 "c" 7 [0] [])
  have hworld : s₁.world 2 = state := by
    simp [s₁, s₀, DataPlane.stamped, hstamp]
  let s₂ := s₁.stamped 2 ((s₁.world 2).stampUpsert xxh64 5 "c" 7 [1] [])
  have hrun : DataPlane.Run R xxh64 metadata (fun _ _ => True) s₂ :=
    ((DataPlane.Run.init hinit).step (.upsert 1 5 "c" 7 [0] []) trivial
      rfl).step (.upsert 2 5 "c" 7 [1] []) trivial rfl
  have hsent : s₂.sent = [req 1, req 0] := by
    simp [s₂, s₁, s₀, DataPlane.stamped, hstamp]
  have hreceived : s₂.received = fun _ => [] := by
    simp [s₂, s₁, s₀, DataPlane.stamped, hstamp]
  have hnone : ∀ node, ((s₂.world node).shards.slots (req 0).key).registers
      7 = none := by
    intro node
    rcases hreg : ((s₂.world node).shards.slots (req 0).key).registers 7 with
      _ | p
    · rfl
    · obtain ⟨x, hx, -⟩ := ((hrun.sound.replica node).winner _ 7).mem p hreg
      simp [hreceived] at hx
  -- each replica takes them, in different orders
  obtain ⟨s₃, hrun₃, hsent₃, hreceived₃, hheld₁, hother₃⟩ :=
    hrun.receive_two 1 (a := req 0) (b := req 1)
      (by simp [hsent]) (by simp [hsent]) rfl rfl rfl (hnone 1)
  have hnone₃ : ((s₃.world 2).shards.slots (req 1).key).registers 7 =
      none := by
    rw [hother₃ 2 (by decide)]
    exact hnone 2
  obtain ⟨s₄, hrun₄, -, hreceived₄, hheld₂, hother₄⟩ :=
    hrun₃.receive_two 2 (a := req 1) (b := req 0)
      (by simp [hsent₃, hsent]) (by simp [hsent₃, hsent]) rfl rfl rfl hnone₃
  have hsame := hall metadata s₄ hrun₄ 1 2 "c" 0 schema 7 hschema
    (writesOf_congr (by
      simp [hreceived₄, hreceived₃, hreceived, or_comm]) _ _)
  rw [hrun₄.sound.readLocal 1 hschema, hrun₄.sound.readLocal 2 hschema]
    at hsame
  have hreg₁ : ((s₄.world 1).shards.slots { collection := "c", shardIdx := 0
      }).registers 7 = some (req 0).written := by
    rw [hother₄ 1 (by decide)]
    exact hheld₁
  have hreg₂ : ((s₄.world 2).shards.slots { collection := "c", shardIdx := 0
      }).registers 7 = some (req 1).written := hheld₂
  rw [hreg₁, hreg₂, Except.ok.injEq, Option.map_some, Option.map_some,
    Option.some.injEq] at hsame
  have hvector : ([0] : List F32) = [1] := congrArg StoredPoint.vector hsame
  exact absurd hvector (by decide)

end Quorvec
