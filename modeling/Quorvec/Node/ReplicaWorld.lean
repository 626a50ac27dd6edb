import Quorvec.Node.NameLife
import Quorvec.Node.QuorumReads

/-!
# Nodes as replicas of one shard

Every node is a family of registers for the shard.  A request to the shard is an
offer to the registers of the node that it reaches, and a request to another
shard changes none of them.
-/

namespace Quorvec

open TotalCorrectness LastWriterWins ByteCodec

/-- The nodes have these registers of the shard. -/
def World.Serves (R : Runtime) (xxh64 : Bytes → UInt64) (f : FixedShard)
    (regs : NodeId → Registers) (w : World) : Prop :=
  ∀ node, (w node).Replica R xxh64 f (regs node)

/-- The registers of a node hold the write of a request, or a newer one. -/
def Taken (regs : NodeId → Registers) (req : ReplicaWriteRequest)
    (node : NodeId) : Prop := AtLeast (regs node req.id) req.written.1

/-- The registers are the same, or have been offered a request for the
shard. -/
def FixedShard.Offered (f : FixedShard) (req : ReplicaWriteRequest)
    (regs regs' : Registers) : Prop :=
  regs' = regs ∨ req.key = f.key ∧ regs' = req.offerTo regs

theorem FixedShard.Offered.atLeast {f : FixedShard}
    {req : ReplicaWriteRequest} {regs regs' : Registers}
    (h : f.Offered req regs regs') {id : UInt64} {t : Hlc}
    (ht : AtLeast (regs id) t) : AtLeast (regs' id) t := by
  rcases h with rfl | ⟨-, rfl⟩
  · exact ht
  · exact ht.deliver _

theorem Grows.refl (regs : NodeId → Registers) : Grows regs regs :=
  fun _ _ _ ht => ht

theorem Grows.trans {regs₁ regs₂ regs₃ : NodeId → Registers}
    (h : Grows regs₁ regs₂) (h' : Grows regs₂ regs₃) : Grows regs₁ regs₃ :=
  fun node id t ht => h' node id t (h node id t ht)

/-- Registers that have been offered some of the requests, and nothing
else. -/
structure FixedShard.Absorbs (f : FixedShard) (reqs : List ReplicaWriteRequest)
    (regs regs' : NodeId → Registers) : Prop where
  grows : Grows regs regs'
  held : ∀ node id p, regs' node id = some p → regs node id = some p ∨
    ∃ req ∈ reqs, req.key = f.key ∧ req.id = id ∧ req.written = p

namespace FixedShard.Absorbs

variable {f : FixedShard} {reqs reqs' : List ReplicaWriteRequest}
variable {req : ReplicaWriteRequest} {regs regs' regs'' : NodeId → Registers}

theorem refl : f.Absorbs reqs regs regs :=
  ⟨.refl _, fun _ _ _ hp => .inl hp⟩

theorem trans (h : f.Absorbs reqs regs regs')
    (h' : f.Absorbs reqs regs' regs'') : f.Absorbs reqs regs regs'' := by
  refine ⟨h.grows.trans h'.grows, fun node id p hp => ?_⟩
  rcases h'.held node id p hp with hold | hnew
  · exact h.held node id p hold
  · exact .inr hnew

theorem mono (h : f.Absorbs reqs regs regs') (hsub : reqs ⊆ reqs') :
    f.Absorbs reqs' regs regs' :=
  ⟨h.grows, fun node id p hp => (h.held node id p hp).imp_right
    fun ⟨req, hreq, hsame⟩ => ⟨req, hsub hreq, hsame⟩⟩

/-- A node is offered a request. -/
theorem of_offered {node : NodeId} {own : Registers}
    (h : f.Offered req (regs node) own) :
    f.Absorbs [req] regs (Function.update regs node own) := by
  constructor
  · intro other id t ht
    by_cases hnode : other = node
    · subst hnode
      rw [Function.update_self]
      exact h.atLeast ht
    · rwa [Function.update_of_ne hnode]
  · intro other id p hp
    by_cases hnode : other = node
    · subst hnode
      rw [Function.update_self] at hp
      rcases h with rfl | ⟨hkey, rfl⟩
      · exact .inl hp
      · exact (eq_or_of_deliver hp).imp_right fun ⟨hid, heq⟩ =>
          ⟨req, List.mem_cons_self, hkey, hid.symm, heq.symm⟩
    · rw [Function.update_of_ne hnode] at hp
      exact .inl hp

end FixedShard.Absorbs

/-- The nodes keep their metadata and their hints. -/
structure World.Keeps (w w' : World) : Prop where
  metadata_eq : ∀ node, (w' node).metadata = (w node).metadata
  hintLog_eq : ∀ node, (w' node).hintLog = (w node).hintLog

namespace World.Keeps

variable {w w' w'' : World}

theorem refl (w : World) : w.Keeps w := ⟨fun _ => rfl, fun _ => rfl⟩

theorem trans (h : w.Keeps w') (h' : w'.Keeps w'') : w.Keeps w'' :=
  ⟨fun node => (h'.metadata_eq node).trans (h.metadata_eq node),
    fun node => (h'.hintLog_eq node).trans (h.hintLog_eq node)⟩

theorem update {node : NodeId} {state : NodeState}
    (hmeta : state.metadata = (w node).metadata)
    (hlog : state.hintLog = (w node).hintLog) :
    w.Keeps (Function.update w node state) := by
  constructor
  all_goals
    intro other
    by_cases hnode : other = node
    · subst hnode
      rwa [Function.update_self]
    · rw [Function.update_of_ne hnode]

end World.Keeps

section Unique

variable {R : Runtime} {dim : ℕ} {metric : Metric} {regs regs' : Registers}

theorem ShardSlot.durable_unique {slot : ShardSlot}
    (h : slot.Durable R dim metric regs)
    (h' : slot.Durable R dim metric regs') : regs = regs' := by
  cases slot with
  | opened s => exact h.2.symm.trans h'.2
  | closed dir =>
      obtain ⟨s, hopen, hs⟩ := h 0
      exact hs.2.symm.trans ((h' 0).of_eq_ok hopen).2

end Unique

section Node

variable {R : Runtime} {xxh64 : Bytes → UInt64} {f : FixedShard}
variable {regs : Registers} {s : NodeState} {req : ReplicaWriteRequest}

namespace NodeState.Replica

theorem write_of_ne (h : Replica R xxh64 f regs s) (hkey : req.key ≠ f.key)
    (schema : CollectionSchema) (clock : Hlc) :
    Replica R xxh64 f regs { s with
      shards := (s.shards.write R
        (shardRef req.collection req.shardIdx schema) req.op
        (Hlc.unpack req.hlc) req.id req.vector req.payload).1
      clock } := by
  refine h.elsewhere ⟨h.pinned, ?_, ?_⟩
  · exact ShardStore.walBatchMs_write.trans h.fsync
  · exact ShardStore.slots_write_of_ne hkey.symm

/-- The handler of a request to any shard. -/
theorem handles (h : Replica R xxh64 f regs s)
    (hfits : req.key = f.key → f.Fits req) (reading : ℕ) :
    ∃ regs', Replica R xxh64 f regs' (s.replicaWrite R reading req).1 ∧
      f.Offered req regs regs' ∧
      ∀ applied, (s.replicaWrite R reading req).2 = .ok applied →
        req.key = f.key → regs' = req.offerTo regs := by
  by_cases hkey : req.key = f.key
  · obtain ⟨regs', hreplica, hcases, hok⟩ :=
      h.replicaWrite (hfits hkey) reading
    exact ⟨regs', hreplica, hcases.imp_right fun heq => ⟨hkey, heq⟩,
      fun applied hres _ => hok applied hres⟩
  · refine ⟨regs, ?_, .inl rfl, fun _ _ hsame => absurd hsame hkey⟩
    rcases hknown : s.metadata.collections[req.collection]? with _ | known
    · rw [replicaWrite_of_unknown hknown]
      exact h
    · rw [replicaWrite_of_known hknown, applyReplicaWrite_fst]
      exact h.write_of_ne hkey known _

/-- A write of a node to its own shard, or to another one. -/
theorem writesLocally (h : Replica R xxh64 f regs s)
    {schema : CollectionSchema}
    (hfits : req.key = f.key → f.Fits req ∧ schema = f.schema) :
    ∃ regs', Replica R xxh64 f regs' { s with
        shards := (s.shards.write R
          (shardRef req.collection req.shardIdx schema) req.op
          (Hlc.unpack req.hlc) req.id req.vector req.payload).1 } ∧
      f.Offered req regs regs' ∧
      (req.key = f.key → regs' = req.offerTo regs) := by
  by_cases hkey : req.key = f.key
  · obtain ⟨hreq, rfl⟩ := hfits hkey
    obtain ⟨shards, out, hwrite, hreplica⟩ := h.write hreq s.clock
    refine ⟨req.offerTo regs, ?_, .inr ⟨hkey, rfl⟩, fun _ => rfl⟩
    rw [hwrite]
    exact hreplica
  · exact ⟨regs, h.write_of_ne hkey schema s.clock, .inl rfl,
      fun hsame => absurd hsame hkey⟩

theorem handles_ok (h : Replica R xxh64 f regs s) (hreq : f.Fits req)
    (hknown : s.metadata.collections[f.collection]? = some f.schema)
    (reading : ℕ) :
    ∃ applied, (s.replicaWrite R reading req).2 = .ok applied := by
  have hcollection : req.collection = f.collection :=
    congrArg ShardKey.collection hreq.key_eq
  have hschema : s.metadata.collections[req.collection]? = some f.schema := by
    rwa [hcollection]
  obtain ⟨shards, out, hwrite, -⟩ := h.write hreq
    (HlcClock.update s.clock reading (Hlc.unpack req.hlc))
  refine ⟨out = .applied, ?_⟩
  simp only [NodeState.replicaWrite, hschema, applyReplicaWrite, hwrite]

end NodeState.Replica

theorem NodeState.hintLog_replicaWrite (R : Runtime) (s : NodeState)
    (reading : ℕ) (req : ReplicaWriteRequest) :
    (s.replicaWrite R reading req).1.hintLog = s.hintLog := by
  rcases hknown : s.metadata.collections[req.collection]? with _ | known
  · rw [replicaWrite_of_unknown hknown]
  · rw [replicaWrite_of_known hknown, applyReplicaWrite_fst]

end Node

/-! ## One node of the world -/

section World

variable {R : Runtime} {xxh64 : Bytes → UInt64} {f : FixedShard}
variable {regs : NodeId → Registers} {w : World} {node : NodeId}

namespace World.Serves

theorem unique (h : w.Serves R xxh64 f regs) {regs' : NodeId → Registers}
    (h' : w.Serves R xxh64 f regs') : regs = regs' :=
  funext fun node => ShardSlot.durable_unique (h node).durable
    (h' node).durable

/-- A node changes. -/
theorem update (h : w.Serves R xxh64 f regs) {state : NodeState}
    {regs' : Registers} (hstate : state.Replica R xxh64 f regs')
    (hgrows : ∀ id t, AtLeast (regs node id) t → AtLeast (regs' id) t) :
    World.Serves R xxh64 f (Function.update regs node regs')
        (Function.update w node state) ∧
      Grows regs (Function.update regs node regs') := by
  constructor
  · intro other
    by_cases hnode : other = node
    · subst hnode
      simpa only [Function.update_self] using hstate
    · simpa only [Function.update_of_ne hnode] using h other
  · intro other id t ht
    by_cases hnode : other = node
    · subst hnode
      rw [Function.update_self]
      exact hgrows id t ht
    · rwa [Function.update_of_ne hnode]

theorem update_same (h : w.Serves R xxh64 f regs) {state : NodeState}
    (hstate : state.Replica R xxh64 f (regs node)) :
    World.Serves R xxh64 f regs (Function.update w node state) := by
  have hsame := (h.update hstate fun _ _ ht => ht).1
  rwa [Function.update_eq_self] at hsame

end World.Serves

end World

/-! ## Calls between nodes -/

/-- What an internal call meets. -/
structure PushEnv where
  fate : CallFate
  /-- What the system clock of the target shows. -/
  reading : ℕ

/-- One internal write call; says whether it was answered without an error. -/
def callReplicaWrite (R : Runtime) (env : PushEnv) (w : World) (node : NodeId)
    (req : ReplicaWriteRequest) : World × Bool :=
  match env.fate with
  | .unreachable => (w, false)
  | .answerLost =>
      (Function.update w node ((w node).replicaWrite R env.reading req).1,
        false)
  | .answered =>
      match (w node).replicaWrite R env.reading req with
      | (s, .ok _) => (Function.update w node s, true)
      | (s, .error _) => (Function.update w node s, false)

section Call

variable {R : Runtime} {xxh64 : Bytes → UInt64} {f : FixedShard}
variable {regs : NodeId → Registers} {w : World} {node : NodeId}
variable {req : ReplicaWriteRequest}

/-- What a call to a node makes of the node. -/
structure NodeState.Called (R : Runtime) (xxh64 : Bytes → UInt64)
    (f : FixedShard) (req : ReplicaWriteRequest) (old new : NodeState)
    (regs regs' : Registers) : Prop where
  metadata_eq : new.metadata = old.metadata
  hintLog_eq : new.hintLog = old.hintLog
  replica : new.Replica R xxh64 f regs'
  offered : f.Offered req regs regs'

/-- A call changes its target only, and a success means that the target has
taken the request. -/
theorem World.Serves.callReplicaWrite (h : w.Serves R xxh64 f regs)
    (env : PushEnv) (hfits : req.key = f.key → f.Fits req) :
    ∃ state regs', (Quorvec.callReplicaWrite R env w node req).1 =
        Function.update w node state ∧
      (w node).Called R xxh64 f req state (regs node) regs' ∧
      ((Quorvec.callReplicaWrite R env w node req).2 = true →
        req.key = f.key → regs' = req.offerTo (regs node)) := by
  obtain ⟨regs', hreplica, hoffered, hok⟩ :=
    (h node).handles hfits env.reading
  have hmeta := NodeState.metadata_replicaWrite R (w node) env.reading req
  have hlog := NodeState.hintLog_replicaWrite R (w node) env.reading req
  unfold Quorvec.callReplicaWrite
  split
  · refine ⟨w node, regs node, ?_, ⟨rfl, rfl, h node, .inl rfl⟩,
      fun hres => by simp at hres⟩
    rw [Function.update_eq_self]
  · exact ⟨_, regs', rfl, ⟨hmeta, hlog, hreplica, hoffered⟩,
      fun hres => by simp at hres⟩
  · split
    · next state applied hreply =>
        rw [hreply] at hmeta hlog hreplica hok
        exact ⟨_, regs', rfl, ⟨hmeta, hlog, hreplica, hoffered⟩,
          fun _ => hok applied rfl⟩
    · next state e hreply =>
        rw [hreply] at hmeta hlog hreplica
        exact ⟨_, regs', rfl, ⟨hmeta, hlog, hreplica, hoffered⟩,
          fun hres => by simp at hres⟩

/-- A call that is answered by a node that knows the collection. -/
theorem World.Serves.callReplicaWrite_answered (h : w.Serves R xxh64 f regs)
    {env : PushEnv} (henv : env.fate = .answered) (hreq : f.Fits req)
    (hknown : (w node).metadata.collections[f.collection]? = some f.schema) :
    (Quorvec.callReplicaWrite R env w node req).2 = true := by
  obtain ⟨applied, hok⟩ := (h node).handles_ok hreq hknown env.reading
  simp only [Quorvec.callReplicaWrite, henv]
  split
  · rfl
  · next hreply =>
      rw [hreply] at hok
      simp at hok

end Call

end Quorvec
