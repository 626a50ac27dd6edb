import Quorvec.Node.Convergence
import Quorvec.Node.QuorumRun

/-!
# One replica of a shard under concurrent calls

In fsync mode a replica of the shard is a family of registers, whether it is
open, closed or has just been restarted.  Requests are offers to the registers,
and reads see them.  Whatever happens to the node, its registers stay as they
are or take one request that was sent.
-/

namespace Quorvec

open TotalCorrectness LastWriterWins ByteCodec

/-- A request for the shard that every replica can take. -/
structure FixedShard.Fits (f : FixedShard) (req : ReplicaWriteRequest) :
    Prop where
  key_eq : req.key = f.key
  dim : ∀ v, req.written.2 = some v → v.length = f.sref.dim
  frame : req.FitsFrame

/-- The registers after a request was taken. -/
def ReplicaWriteRequest.offerTo (req : ReplicaWriteRequest)
    (regs : Registers) : Registers :=
  deliverWith offer regs (req.id, req.written)

/-- The registers are the same, or have taken one of the requests. -/
def Advances (sent : List ReplicaWriteRequest) (regs regs' : Registers) :
    Prop :=
  regs' = regs ∨ ∃ req ∈ sent, regs' = req.offerTo regs

/-- A node in fsync mode whose replica has these registers. -/
structure NodeState.Replica (R : Runtime) (xxh64 : Bytes → UInt64)
    (f : FixedShard) (regs : Registers) (s : NodeState) : Prop where
  pinned : f.Pinned xxh64 s.metadata
  fsync : s.shards.walBatchMs = 0
  durable : (s.shards.slots f.key).Durable R f.sref.dim f.sref.metric regs

section Advances

variable {sent : List ReplicaWriteRequest} {regs regs' : Registers}
variable {req : ReplicaWriteRequest}

theorem Advances.atLeast (h : Advances sent regs regs') {id : UInt64}
    {t : Hlc} (ht : AtLeast (regs id) t) : AtLeast (regs' id) t := by
  rcases h with rfl | ⟨req, -, rfl⟩
  · exact ht
  · exact ht.deliver _

theorem Advances.of_mem (hreq : req ∈ sent)
    (h : regs' = regs ∨ regs' = req.offerTo regs) :
    Advances sent regs regs' :=
  h.imp_right fun hoffer => ⟨req, hreq, hoffer⟩

theorem ReplicaWriteRequest.atLeast_offerTo (req : ReplicaWriteRequest)
    (regs : Registers) :
    AtLeast (req.offerTo regs req.id) req.written.1 :=
  atLeast_deliver _ _

theorem Advances.held (h : Advances sent regs regs') {id : UInt64}
    {p : Hlc × Content} (hp : regs' id = some p) :
    regs id = some p ∨ ∃ req ∈ sent, req.id = id ∧ req.written = p := by
  rcases h with rfl | ⟨req, hreq, rfl⟩
  · exact .inl hp
  · exact (eq_or_of_deliver hp).imp_right fun ⟨hid, heq⟩ =>
      ⟨req, hreq, hid.symm, heq.symm⟩

end Advances

namespace NodeState.Replica

variable {R : Runtime} {xxh64 : Bytes → UInt64} {f : FixedShard}
variable {regs : Registers} {s : NodeState} {req : ReplicaWriteRequest}

/-- The clock and the hints are not part of the replica. -/
theorem of_eq (h : Replica R xxh64 f regs s) {s' : NodeState}
    (hmeta : s'.metadata = s.metadata) (hshards : s'.shards = s.shards) :
    Replica R xxh64 f regs s' := by
  constructor
  · rw [hmeta]
    exact h.pinned
  · rw [hshards]
    exact h.fsync
  · rw [hshards]
    exact h.durable

/-- The shard takes a request. -/
theorem write (h : Replica R xxh64 f regs s) (hreq : f.Fits req)
    (clock : Hlc) :
    ∃ shards out, s.shards.write R
        (shardRef req.collection req.shardIdx f.schema) req.op
        (Hlc.unpack req.hlc) req.id req.vector req.payload =
          (shards, .ok out) ∧
      Replica R xxh64 f (req.offerTo regs) { s with shards, clock } := by
  have hsref : shardRef req.collection req.shardIdx f.schema = f.sref := by
    have hcollection : req.collection = f.collection :=
      congrArg ShardKey.collection hreq.key_eq
    have hidx : req.shardIdx = f.shardIdx :=
      congrArg ShardKey.shardIdx hreq.key_eq
    rw [hcollection, hidx, FixedShard.sref]
  rw [hsref]
  obtain ⟨⟨out, hout⟩, hdurable⟩ :=
    ShardStore.write_of_durable h.fsync h.durable hreq.dim hreq.frame
  refine ⟨_, out, Prod.ext rfl hout, h.pinned, ?_, hdurable⟩
  exact ShardStore.walBatchMs_write.trans h.fsync

/-- The handler takes a request, or does not know the collection. -/
theorem replicaWrite (h : Replica R xxh64 f regs s) (hreq : f.Fits req)
    (reading : ℕ) :
    ∃ regs', Replica R xxh64 f regs' (s.replicaWrite R reading req).1 ∧
      (regs' = regs ∨ regs' = req.offerTo regs) ∧
      ∀ applied, (s.replicaWrite R reading req).2 = .ok applied →
        regs' = req.offerTo regs := by
  have hcollection : req.collection = f.collection :=
    congrArg ShardKey.collection hreq.key_eq
  rcases hschema : s.metadata.collections[req.collection]? with _ | schema
  · refine ⟨regs, ?_, .inl rfl, ?_⟩
    · simpa only [NodeState.replicaWrite, hschema] using h
    · intro applied hok
      simp [NodeState.replicaWrite, hschema] at hok
  · have hknown : schema = f.schema := by
      rw [hcollection] at hschema
      exact (h.pinned schema hschema).1
    subst hknown
    obtain ⟨shards, out, hwrite, hreplica⟩ := h.write hreq
      (HlcClock.update s.clock reading (Hlc.unpack req.hlc))
    refine ⟨req.offerTo regs, ?_, .inr rfl, fun _ _ => rfl⟩
    simpa only [NodeState.replicaWrite, hschema, applyReplicaWrite, hwrite]
      using hreplica

/-- A read of the shard sees the register of the id. -/
theorem readLocal (h : Replica R xxh64 f regs s) (id : UInt64) :
    ∃ state, s.readLocal R f.collection f.shardIdx f.schema id =
        (state, .ok ((regs id).map (pointOf id))) ∧
      Replica R xxh64 f regs state := by
  obtain ⟨hpoint, hdurable⟩ :=
    ShardStore.getVersioned_of_durable h.fsync h.durable id
  have hpair : s.shards.getVersioned R f.sref id =
      ((s.shards.getVersioned R f.sref id).1,
        .ok ((regs id).map (pointOf id))) := Prod.ext rfl hpoint
  refine ⟨{ s with shards := (s.shards.getVersioned R f.sref id).1 }, ?_,
    h.pinned, ?_, hdurable⟩
  · rw [NodeState.readLocal, ← FixedShard.sref, hpair]
  · exact (ShardStore.walBatchMs_access _).trans h.fsync

/-- The handler returns the register of the id, or does not know the
collection. -/
theorem replicaGet (h : Replica R xxh64 f regs s) (id : UInt64) :
    Replica R xxh64 f regs
        (s.replicaGet R f.collection f.shardIdx id).1 ∧
      ∀ p, (s.replicaGet R f.collection f.shardIdx id).2 = .ok p →
        p = (regs id).map (pointOf id) := by
  rcases hschema : s.metadata.collections[f.collection]? with _ | schema
  · constructor
    · simpa only [NodeState.replicaGet, hschema] using h
    · intro p hok
      simp [NodeState.replicaGet, hschema] at hok
  · have hknown := (h.pinned schema hschema).1
    subst hknown
    obtain ⟨state, hread, hreplica⟩ := h.readLocal id
    constructor
    · simpa only [NodeState.replicaGet, hschema, hread] using hreplica
    · intro p hok
      simp only [NodeState.replicaGet, hschema, hread, Except.ok.injEq]
        at hok
      exact hok.symm

/-! ## Calls to a replica -/

section Calls

variable {w : World} {node : NodeId}

/-- One try of a write changes the node that is tried, and its answer says that
the write was taken. -/
theorem writeOneReplica (h : Replica R xxh64 f regs (w node))
    (self : NodeId) (hreq : f.Fits req) {env : Env}
    (hfate : ∀ shards, env.fate node ≠ .storageFault shards) :
    ∃ state regs' res, Quorvec.writeOneReplica R env self w node req
        f.schema = (Function.update w node state, res) ∧
      Replica R xxh64 f regs' state ∧
      (regs' = regs ∨ regs' = req.offerTo regs) ∧
      (res = .ok true → regs' = req.offerTo regs) := by
  obtain ⟨regs', hwritten, hcases, hok⟩ :=
    h.replicaWrite hreq (env.reading node)
  by_cases hself : node = self
  · obtain ⟨shards, out, hwrite, hreplica⟩ := h.write hreq (w node).clock
    refine ⟨{ w node with shards }, _, .ok true, ?_, hreplica, .inr rfl,
      fun _ => rfl⟩
    simp only [Quorvec.writeOneReplica, if_pos hself]
    rcases hcase : env.fate node with _ | _ | _ | shards
    case storageFault => exact absurd hcase (hfate shards)
    all_goals simp only [hwrite]
  · simp only [Quorvec.writeOneReplica, if_neg hself]
    rcases hcase : env.fate node with _ | _ | _ | shards
    case storageFault => exact absurd hcase (hfate shards)
    case unreachable =>
      refine ⟨w node, regs, .error .connError, ?_, h, .inl rfl,
        fun hres => ?_⟩
      · rw [Function.update_eq_self]
      · simp at hres
    case answerLost =>
      exact ⟨_, regs', _, rfl, hwritten, hcases, fun hres => by simp at hres⟩
    case answered =>
      rcases hreply : (w node).replicaWrite R (env.reading node) req with
        ⟨state, e | applied⟩
      · rw [hreply] at hwritten
        exact ⟨state, regs', _, rfl, hwritten, hcases,
          fun hres => by simp at hres⟩
      · rw [hreply] at hwritten hok
        exact ⟨state, regs', _, rfl, hwritten, hcases,
          fun _ => hok applied rfl⟩

/-- A replica that is reached and knows the collection acknowledges. -/
theorem writeOneReplica_answered (h : Replica R xxh64 f regs (w node))
    (self : NodeId) (hreq : f.Fits req)
    (hknown : (w node).metadata.collections[req.collection]? = some f.schema)
    (env : Env) (hfate : env.fate node = .answered) :
    ∃ state, Quorvec.writeOneReplica R env self w node req f.schema =
        (Function.update w node state, .ok true) ∧
      Replica R xxh64 f (req.offerTo regs) state ∧
      state.metadata = (w node).metadata := by
  by_cases hself : node = self
  · obtain ⟨shards, out, hwrite, hreplica⟩ := h.write hreq (w node).clock
    refine ⟨_, ?_, hreplica, rfl⟩
    simp only [Quorvec.writeOneReplica, if_pos hself, hfate, hwrite]
  · obtain ⟨shards, out, hwrite, hreplica⟩ := h.write hreq
      (HlcClock.update (w node).clock (env.reading node)
        (Hlc.unpack req.hlc))
    refine ⟨_, ?_, hreplica, rfl⟩
    simp only [Quorvec.writeOneReplica, if_neg hself, hfate,
      NodeState.replicaWrite, hknown, applyReplicaWrite, hwrite]

/-- One try of a read changes no register, and its answer is the register of
the id. -/
theorem readOneReplica (h : Replica R xxh64 f regs (w node))
    (self : NodeId) (fate : CallFate) (id : UInt64) :
    ∃ state res, Quorvec.readOneReplica R self fate w node f.collection
        f.shardIdx id f.schema = (Function.update w node state, res) ∧
      Replica R xxh64 f regs state ∧
      ∀ p, res = .ok p → p = (regs id).map (pointOf id) := by
  obtain ⟨hget, hok⟩ := h.replicaGet id
  by_cases hself : node = self
  · obtain ⟨state, hread, hreplica⟩ := h.readLocal id
    refine ⟨state, .ok ((regs id).map (pointOf id)), ?_, hreplica, ?_⟩
    · simp only [Quorvec.readOneReplica, if_pos hself, hread]
    · intro p hp
      exact (Except.ok.inj hp).symm
  · simp only [Quorvec.readOneReplica, if_neg hself]
    rcases fate with _ | _ | _
    · rcases hreply : (w node).replicaGet R f.collection f.shardIdx id with
        ⟨state, e | p⟩
      · rw [hreply] at hget
        exact ⟨state, _, rfl, hget, fun p hp => by simp at hp⟩
      · rw [hreply] at hget hok
        refine ⟨state, _, rfl, hget, fun q hq => ?_⟩
        rw [← Except.ok.inj hq]
        exact hok p rfl
    · refine ⟨w node, .error .connError, ?_, h, fun p hp => by simp at hp⟩
      rw [Function.update_eq_self]
    · exact ⟨_, _, rfl, hget, fun p hp => by simp at hp⟩

end Calls

/-! ## Stamps, restarts, and everything else -/

/-- A coordinator that stamps an upsert changes its clock only, and what it
stamps has the dimension. -/
theorem stampUpsert (h : Replica R xxh64 f regs s) (reading : ℕ)
    (id : UInt64) (vector : List F32) (payload : Bytes) :
    Replica R xxh64 f regs (s.stampUpsert xxh64 reading f.collection id
        vector payload).1 ∧
      ∀ req, (s.stampUpsert xxh64 reading f.collection id vector
          payload).2 = .ok req →
        ∀ v, req.written.2 = some v → v.length = f.sref.dim := by
  unfold NodeState.stampUpsert
  rcases hschema : s.metadata.collections[f.collection]? with _ | schema
  · exact ⟨h, fun req hreq => by simp at hreq⟩
  · have hknown := (h.pinned schema hschema).1
    subst hknown
    dsimp only
    split_ifs with hdim
    · exact ⟨h, fun req hreq => by simp at hreq⟩
    · refine ⟨h.of_eq rfl rfl, fun req hreq v hv => ?_⟩
      rw [← Except.ok.inj hreq] at hv
      have hvector : some vector = some v := hv
      rw [← Option.some.inj hvector]
      exact not_not.mp hdim

theorem stampDelete (h : Replica R xxh64 f regs s) (reading : ℕ)
    (id : UInt64) :
    Replica R xxh64 f regs (s.stampDelete xxh64 reading f.collection id).1 ∧
      ∀ req, (s.stampDelete xxh64 reading f.collection id).2 = .ok req →
        ∀ v, req.written.2 = some v → v.length = f.sref.dim := by
  unfold NodeState.stampDelete
  rcases hschema : s.metadata.collections[f.collection]? with _ | schema
  · exact ⟨h, fun req hreq => by simp at hreq⟩
  · refine ⟨h.of_eq rfl rfl, fun req hreq v hv => ?_⟩
    rw [← Except.ok.inj hreq] at hv
    have hnone : (none : Content) = some v := hv
    simp at hnone

/-- A restart keeps the registers, up to a request that was being written. -/
theorem restarts (h : Replica R xxh64 f regs s)
    {sent : List ReplicaWriteRequest} (hsent : ∀ req ∈ sent, req.FitsFrame)
    {s' : NodeState} (hs' : QuorumState.Restarts R xxh64 f sent s s') :
    ∃ regs', Replica R xxh64 f regs' s' ∧ Advances sent regs regs' := by
  have hfits : ∀ c : ShardCall, (∃ req ∈ sent, ShardStore.callOf req.op
      (Hlc.unpack req.hlc) req.id req.vector req.payload = c) →
      c.record.FitsFrame := by
    rintro c ⟨req, hreq, rfl⟩
    exact hsent req hreq
  obtain ⟨regs', hdurable, hcases⟩ := hs'.crashed.durable hfits h.durable
  refine ⟨regs', ⟨hs'.pinned, hs'.fsync, hdurable⟩, hcases.imp_right ?_⟩
  rintro ⟨c, ⟨req, hreq, rfl⟩, rfl⟩
  refine ⟨req, hreq, ?_⟩
  rw [ShardStore.offered_callOf]
  rfl

theorem elsewhere (h : Replica R xxh64 f regs s) {s' : NodeState}
    (hs' : QuorumState.Elsewhere xxh64 f s s') :
    Replica R xxh64 f regs s' := by
  refine ⟨hs'.pinned, hs'.fsync, ?_⟩
  rw [hs'.slot_eq]
  exact h.durable

end NodeState.Replica

end Quorvec
