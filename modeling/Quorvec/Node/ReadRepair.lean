import Quorvec.Node.ReplicaWorld

/-!
# Read repair

A read pushes the version that has won to the replicas that answered with an
older one or with none: to the reader's own replica at once, to the others by a
task that it spawns.  Before the task gets there anything may happen, and a push
may fail.

Each replica that answered holds the winner or a newer version, except for those
whose push is still to be made or has failed.  So a later read that hears from
one of the others does not go back, whatever its consistency level.
-/

namespace Quorvec

open LastWriterWins ByteCodec Quorum

/-! ## Reads with their repairs -/

/-- A push that a read has spawned. -/
structure RepairPush where
  target : NodeId
  req : ReplicaWriteRequest
deriving DecidableEq

/-- The repair of the reader's own replica. -/
def ShardStore.repair (R : Runtime) (st : ShardStore) (sref : ShardRef)
    (winner : StoredPoint) : ShardStore :=
  if winner.tombstone then (st.delete R sref winner.hlc winner.id).1
  else
    (st.upsert R sref winner.hlc winner.id winner.vector winner.payload).1

/-- Repair the reader's own replica if it is behind; the pushes to the others
are returned for the task. -/
def spawnReadRepair (R : Runtime) (self : NodeId) (w : World)
    (collection : String) (shardIdx : UInt32) (schema : CollectionSchema)
    (responses : Responses) (winner : StoredPoint) :
    World × List RepairPush :=
  let stale := responses.stale winner
  ((stale.filter (· = self)).foldl (fun w node =>
      Function.update w node { w node with
        shards := (w node).shards.repair R
          (shardRef collection shardIdx schema) winner }) w,
    (stale.filter (· ≠ self)).map fun node =>
      { target := node, req := winner.repair collection shardIdx })

/-- The task of a read: its pushes, one after another.  No answer matters. -/
def pushRepairs (R : Runtime) :
    (ℕ → PushEnv) → List RepairPush → World → World
  | _, [], w => w
  | env, p :: pushes, w =>
      pushRepairs R (fun i => env (i + 1)) pushes
        (callReplicaWrite R (env 0) w p.target p.req).1

section Get

variable (R : Runtime) (xxh64 : Bytes → UInt64) (self : NodeId)
variable (metadata : MetaState) (schema : CollectionSchema)
variable (collection : String) (consistency : Consistency)

/-- The loop body of `coordinate_get`: the pushes that it spawns, the answers,
and what they merge to. -/
def getPoint (fate : NodeId → CallFate) (id : UInt64) (w : World) :
    World × List RepairPush × Responses ×
      Except RouterError (Option StoredPoint) :=
  let shardIdx := shardForId xxh64 id schema.shardCount
  let replicas := replicasWithAddrs xxh64 metadata collection shardIdx
  if replicas.isEmpty then
    (w, [], [], .error (.noReplica collection shardIdx))
  else
    match readReplicas R self fate collection shardIdx id schema replicas w with
    | (w, responses) =>
        match responses.outcome collection shardIdx consistency
            replicas.length with
        | .ok (some winner) =>
            match spawnReadRepair R self w collection shardIdx schema responses
                winner with
            | (w, pushes) => (w, pushes, responses, .ok (some winner))
        | res => (w, [], responses, res)

/-- The loop over the ids; the first error ends it, and what was spawned before
stays. -/
def getPoints : (ℕ → NodeId → CallFate) → List UInt64 → World →
    World × List RepairPush × Except RouterError (List (UInt64 × List F32))
  | _, [], w => (w, [], .ok [])
  | fate, id :: ids, w =>
      match getPoint R xxh64 self metadata schema collection consistency
          (fate 0) id w with
      | (w, pushes, _, .error e) => (w, pushes, .error e)
      | (w, pushes, _, .ok winner) =>
          match getPoints (fun i => fate (i + 1)) ids w with
          | (w, later, res) =>
              (w, pushes ++ later, res.map (returned winner ++ ·))

end Get

/-- Get points at a consistency level; the pushes are left to tasks. -/
def coordinateGetPoints (R : Runtime) (xxh64 : Bytes → UInt64) (self : NodeId)
    (fate : ℕ → NodeId → CallFate) (w : World) (collection : String)
    (ids : List UInt64) (consistency : Consistency) :
    World × List RepairPush × Except RouterError (List (UInt64 × List F32)) :=
  match (w self).metadata.collections[collection]? with
  | none => (w, [], .error (.notFound collection))
  | some schema =>
      getPoints R xxh64 self (w self).metadata schema collection consistency
        fate ids w

/-! ## Runs -/

/-- What a node holds can be pushed to every other. -/
def FixedShard.Fitting (f : FixedShard) (regs : NodeId → Registers) : Prop :=
  ∀ node id p, regs node id = some p →
    f.Fits ((pointOf id p).repair f.collection f.shardIdx)

/-- The nodes, and the reads of the shard that found its id. -/
structure RepairRun where
  world : World
  /-- The answers to a read, and what has won. -/
  merged : List (Responses × StoredPoint)
  /-- The pushes still to be made. -/
  pending : List RepairPush
  /-- The pushes that were not acknowledged. -/
  failed : List RepairPush

namespace RepairRun

/-- A loop body of a read has run. -/
def got (s : RepairRun) (ours : Prop) [Decidable ours]
    (out : World × List RepairPush × Responses ×
      Except RouterError (Option StoredPoint)) : RepairRun where
  world := out.1
  merged :=
    match out.2.2.2 with
    | .ok (some winner) =>
        if ours then (out.2.2.1, winner) :: s.merged else s.merged
    | _ => s.merged
  pending := s.pending ++ out.2.1
  failed := s.failed

/-- A push was made, or given up. -/
def pushed (R : Runtime) (env : PushEnv) (s : RepairRun) (p : RepairPush) :
    RepairRun where
  world := (callReplicaWrite R env s.world p.target p.req).1
  merged := s.merged
  pending := s.pending.erase p
  failed :=
    if (callReplicaWrite R env s.world p.target p.req).2 then s.failed
    else p :: s.failed

/-- The push of a winner to a node is still to be made, or has failed. -/
def Outstanding (f : FixedShard) (s : RepairRun) (winner : StoredPoint)
    (node : NodeId) : Prop :=
  { target := node, req := winner.repair f.collection f.shardIdx } ∈
    s.pending ++ s.failed

section Statement

variable (R : Runtime) (xxh64 : Bytes → UInt64) (f : FixedShard)

/-- Any coordinators read any ids, their pushes are made in any order, and in
between anything may happen that takes no register back. -/
inductive Run : RepairRun → Prop
  | init {w : World} {regs : NodeId → Registers} :
      w.Serves R xxh64 f regs → f.Fitting regs →
      Run { world := w, merged := [], pending := [], failed := [] }
  | get {s : RepairRun} {metadata : MetaState} {schema : CollectionSchema}
      {collection : String} (self : NodeId) (consistency : Consistency)
      (fate : NodeId → CallFate) (id : UInt64) : Run s →
      f.Pinned xxh64 metadata →
      metadata.collections[collection]? = some schema →
      Run (s.got
        (collection = f.collection ∧
          shardForId xxh64 id schema.shardCount = f.shardIdx)
        (getPoint R xxh64 self metadata schema collection consistency fate id
          s.world))
  | push {s : RepairRun} {p : RepairPush} (env : PushEnv) : Run s →
      p ∈ s.pending → Run (s.pushed R env p)
  | elsewhere {s : RepairRun} {w : World} {regs regs' : NodeId → Registers} :
      Run s → s.world.Serves R xxh64 f regs → w.Serves R xxh64 f regs' →
      Grows regs regs' → f.Fitting regs' → Run { s with world := w }

end Statement

end RepairRun

section Statement

variable (R : Runtime) (xxh64 : Bytes → UInt64) (f : FixedShard)

/-- A read that hears from a replica that answered an earlier read, and that has
no outstanding push from it, returns no older version. -/
def RepairRun.StaysAhead (s : RepairRun) : Prop :=
  ∀ metadata, f.Pinned xxh64 metadata →
    metadata.collections[f.collection]? = some f.schema →
    ∀ responses winner, (responses, winner) ∈ s.merged →
    ∀ self consistency fate w pushes responses' winner',
      getPoint R xxh64 self metadata f.schema f.collection consistency fate
        winner.id s.world = (w, pushes, responses', .ok winner') →
    ∀ node ∈ responses.map Prod.fst, node ∈ responses'.map Prod.fst →
      ¬ s.Outstanding f winner node →
      ∃ next, winner' = some next ∧ winner.hlc ≤ next.hlc

/-- A read whose pushes are answered at once leaves the replicas that answered
it with the same version of the id. -/
def RepairRun.Evens (s : RepairRun) : Prop :=
  ∀ metadata, f.Pinned xxh64 metadata →
    metadata.collections[f.collection]? = some f.schema →
    ∀ id, shardForId xxh64 id f.schema.shardCount = f.shardIdx →
    ∀ self consistency fate w pushes responses winner,
      getPoint R xxh64 self metadata f.schema f.collection consistency fate id
        s.world = (w, pushes, responses, .ok (some winner)) →
    (∀ node, (s.world node).metadata.collections[f.collection]? =
      some f.schema) →
    ∀ env : ℕ → PushEnv, (∀ i, (env i).fate = .answered) →
      ∃ regs, (pushRepairs R env pushes w).Serves R xxh64 f regs ∧
        ∀ node ∈ responses.map Prod.fst, ∃ content,
          regs node id = some (winner.hlc, content)

/-- In every run, a replica that answered a read holds what has won, or its push
is outstanding; no push carries a version that is newer than what some replica
holds; later reads do not go back; and a read evens the replicas out. -/
def ReadRepairs : Prop :=
  ∀ s, RepairRun.Run R xxh64 f s →
    (∃ regs, s.world.Serves R xxh64 f regs ∧
      (∀ responses winner, (responses, winner) ∈ s.merged →
        ∀ node ∈ responses.map Prod.fst,
          AtLeast (regs node winner.id) winner.hlc ∨
            s.Outstanding f winner node) ∧
      ∀ p ∈ s.pending ++ s.failed, p.req.key = f.key →
        ∃ node, AtLeast (regs node p.req.id) p.req.written.1) ∧
    s.StaysAhead R xxh64 f ∧ s.Evens R xxh64 f

end Statement

/-! ## Reads of one node -/

section Node

variable {R : Runtime} {xxh64 : Bytes → UInt64} {f : FixedShard}
variable {collection : String} {shardIdx : UInt32} {schema : CollectionSchema}

theorem NodeState.readLocal_fst (s : NodeState) (id : UInt64) :
    (s.readLocal R collection shardIdx schema id).1 =
      { s with shards := (s.shards.getVersioned R
          (shardRef collection shardIdx schema) id).1 } := by
  unfold NodeState.readLocal
  split <;> next h => rw [h]

theorem NodeState.hintLog_readLocal (s : NodeState) (id : UInt64) :
    (s.readLocal R collection shardIdx schema id).1.hintLog = s.hintLog := by
  rw [readLocal_fst]

theorem NodeState.hintLog_replicaGet (s : NodeState) (id : UInt64) :
    (s.replicaGet R collection shardIdx id).1.hintLog = s.hintLog := by
  unfold replicaGet
  split
  · rfl
  · next schema hschema =>
    rw [← hintLog_readLocal s id]
    rcases s.readLocal R collection shardIdx schema id with
      ⟨state, e | p⟩ <;> rfl

namespace NodeState.Replica

variable {regs : Registers} {s : NodeState}

/-- A read of any shard changes no register, and a read of the shard sees
them. -/
theorem readsLocally (h : Replica R xxh64 f regs s)
    (hschema : ShardKey.mk collection shardIdx = f.key → schema = f.schema)
    (id : UInt64) :
    Replica R xxh64 f regs
        (s.readLocal R collection shardIdx schema id).1 ∧
      (ShardKey.mk collection shardIdx = f.key →
        (s.readLocal R collection shardIdx schema id).2 =
          .ok ((regs id).map (pointOf id))) := by
  by_cases hkey : ShardKey.mk collection shardIdx = f.key
  · obtain rfl := hschema hkey
    obtain ⟨rfl, rfl⟩ := ShardKey.mk.inj hkey
    obtain ⟨state, hread, hreplica⟩ := h.readLocal id
    rw [hread]
    exact ⟨hreplica, fun _ => rfl⟩
  · refine ⟨?_, fun hsame => absurd hsame hkey⟩
    rw [readLocal_fst]
    refine h.elsewhere ⟨h.pinned, ?_, ?_⟩
    · exact (ShardStore.walBatchMs_access _).trans h.fsync
    · refine ShardStore.slots_access_of_ne ?_ _
      exact Ne.symm hkey

/-- The same for the handler. -/
theorem gets (h : Replica R xxh64 f regs s) (id : UInt64) :
    Replica R xxh64 f regs (s.replicaGet R collection shardIdx id).1 ∧
      (ShardKey.mk collection shardIdx = f.key →
        ∀ p, (s.replicaGet R collection shardIdx id).2 = .ok p →
          p = (regs id).map (pointOf id)) := by
  rcases hknown : s.metadata.collections[collection]? with _ | known
  · simp only [NodeState.replicaGet, hknown]
    exact ⟨h, fun _ p hp => by simp at hp⟩
  · have hschema : ShardKey.mk collection shardIdx = f.key →
        known = f.schema := by
      intro hkey
      obtain ⟨rfl, rfl⟩ := ShardKey.mk.inj hkey
      exact (h.pinned known hknown).1
    obtain ⟨hreplica, hsees⟩ := h.readsLocally hschema id
    simp only [NodeState.replicaGet, hknown]
    split
    · next state p hread =>
        rw [hread] at hreplica hsees
        refine ⟨hreplica, fun hkey q hq => ?_⟩
        rw [← Except.ok.inj hq]
        exact Except.ok.inj (hsees hkey)
    · next state e hread =>
        rw [hread] at hreplica
        exact ⟨hreplica, fun _ p hp => by simp at hp⟩

end NodeState.Replica

end Node

/-! ## The loop over the replicas -/

section Read

variable {R : Runtime} {xxh64 : Bytes → UInt64} {f : FixedShard}
variable {collection : String} {shardIdx : UInt32} {schema : CollectionSchema}
variable {regs : NodeId → Registers} {w : World} {self : NodeId} {id : UInt64}

/-- One try changes its node only, and no register. -/
theorem World.Serves.readOneReplica (h : w.Serves R xxh64 f regs)
    (hschema : ShardKey.mk collection shardIdx = f.key → schema = f.schema)
    (fate : CallFate) (node : NodeId) :
    ∃ state res, Quorvec.readOneReplica R self fate w node collection shardIdx
        id schema = (Function.update w node state, res) ∧
      state.metadata = (w node).metadata ∧
      state.hintLog = (w node).hintLog ∧
      state.Replica R xxh64 f (regs node) ∧
      (ShardKey.mk collection shardIdx = f.key →
        ∀ p, res = .ok p → p = (regs node id).map (pointOf id)) := by
  obtain ⟨hlocal, hsees⟩ := (h node).readsLocally hschema id
  obtain ⟨hremote, hgets⟩ := @NodeState.Replica.gets R xxh64 f collection
    shardIdx _ _ (h node) id
  have hmetaLocal := NodeState.metadata_readLocal R (w node) collection
    shardIdx schema id
  have hlogLocal := @NodeState.hintLog_readLocal R collection shardIdx schema
    (w node) id
  have hmeta := NodeState.metadata_replicaGet R (w node) collection shardIdx id
  have hlog := @NodeState.hintLog_replicaGet R collection shardIdx (w node) id
  unfold Quorvec.readOneReplica
  by_cases hself : node = self
  · rw [if_pos hself]
    split
    · next state p hread =>
        rw [hread] at hlocal hsees hmetaLocal hlogLocal
        refine ⟨state, .ok p, rfl, hmetaLocal, hlogLocal, hlocal,
          fun hkey q hq => ?_⟩
        rw [← Except.ok.inj hq]
        exact Except.ok.inj (hsees hkey)
    · next state e hread =>
        rw [hread] at hlocal hmetaLocal hlogLocal
        exact ⟨state, .error .connError, rfl, hmetaLocal, hlogLocal, hlocal,
          fun _ p hp => by simp at hp⟩
  · rw [if_neg hself]
    rcases fate with _ | _ | _
    · dsimp only
      split
      · next state p hread =>
          rw [hread] at hremote hgets hmeta hlog
          refine ⟨state, .ok p, rfl, hmeta, hlog, hremote,
            fun hkey q hq => ?_⟩
          rw [← Except.ok.inj hq]
          exact hgets hkey p rfl
      · next state e hread =>
          rw [hread] at hremote hmeta hlog
          exact ⟨state, .error .connError, rfl, hmeta, hlog, hremote,
            fun _ p hp => by simp at hp⟩
    · refine ⟨w node, .error .connError, ?_, rfl, rfl, h node,
        fun _ p hp => by simp at hp⟩
      rw [Function.update_eq_self]
    · exact ⟨_, .error .connError, rfl, hmeta, hlog, hremote,
        fun _ p hp => by simp at hp⟩

/-- What the loop over the replicas does. -/
structure ReplicasAsked (R : Runtime) (xxh64 : Bytes → UInt64) (f : FixedShard)
    (key : ShardKey) (id : UInt64) (replicas : List (NodeId × String))
    (w : World) (regs : NodeId → Registers) (out : World × Responses) :
    Prop where
  serves : out.1.Serves R xxh64 f regs
  keeps : w.Keeps out.1
  asked : out.2.map Prod.fst ⊆ replicas.map Prod.fst
  answers : key = f.key → ∀ node p, (node, p) ∈ out.2 →
    p = (regs node id).map (pointOf id)

theorem World.Serves.readReplicas (h : w.Serves R xxh64 f regs)
    (hschema : ShardKey.mk collection shardIdx = f.key → schema = f.schema)
    (fate : NodeId → CallFate) (replicas : List (NodeId × String)) :
    ReplicasAsked R xxh64 f ⟨collection, shardIdx⟩ id replicas w regs
      (Quorvec.readReplicas R self fate collection shardIdx id schema replicas
        w) := by
  induction replicas generalizing w with
  | nil => exact ⟨h, .refl w, List.Subset.refl _, fun _ node p hp => by
      simp [Quorvec.readReplicas] at hp⟩
  | cons r replicas ih =>
      obtain ⟨node, addr⟩ := r
      obtain ⟨state, res, htry, hmeta, hlog, hreplica, hsees⟩ :=
        h.readOneReplica hschema (fate node) node
      have hrest := ih (h.update_same hreplica)
      have hkeeps : w.Keeps (Quorvec.readReplicas R self fate collection
          shardIdx id schema replicas (Function.update w node state)).1 :=
        (World.Keeps.update hmeta hlog).trans hrest.keeps
      rw [Quorvec.readReplicas, htry]
      rcases res with e | p
      · exact ⟨hrest.serves, hkeeps,
          fun x hx => List.mem_cons_of_mem _ (hrest.asked hx), hrest.answers⟩
      · refine ⟨hrest.serves, hkeeps, List.cons_subset_cons _ hrest.asked,
          fun hkey other q hq => ?_⟩
        rcases List.mem_cons.mp hq with heq | hq
        · obtain ⟨rfl, rfl⟩ := Prod.mk.inj heq
          exact hsees hkey _ rfl
        · exact hrest.answers hkey other q hq

end Read

/-! ## Repairs -/

/-- What was offered can be pushed on. -/
theorem FixedShard.Absorbs.fitting {f : FixedShard} {req : ReplicaWriteRequest}
    {regs regs' : NodeId → Registers} (h : f.Absorbs [req] regs regs')
    (hfitting : f.Fitting regs) (hfits : req.key = f.key → f.Fits req) :
    f.Fitting regs' := by
  intro node id p hp
  rcases h.held node id p hp with hold | ⟨req, hreq, hkey, -, rfl⟩
  · exact hfitting node id p hold
  · obtain rfl := List.mem_singleton.mp hreq
    refine ⟨rfl, ?_, (hfits hkey).frame.repair _ _ _⟩
    rw [DataPlane.written_repair]
    exact (hfits hkey).dim

section Spawn

variable {R : Runtime} {xxh64 : Bytes → UInt64} {f : FixedShard}
variable {collection : String} {shardIdx : UInt32} {schema : CollectionSchema}
variable {regs : NodeId → Registers} {w : World} {self : NodeId}
variable {winner : StoredPoint}

theorem ShardStore.repair_eq (st : ShardStore) (sref : ShardRef)
    (collection : String) (shardIdx : UInt32) :
    st.repair R sref winner =
      let req := winner.repair collection shardIdx
      (st.write R sref req.op (Hlc.unpack req.hlc) req.id req.vector
        req.payload).1 := by
  have hupsert : ShardStore.opUpsert ≠ ShardStore.opDelete := by decide
  unfold ShardStore.repair ShardStore.write
  cases htombstone : winner.tombstone <;>
    simp [StoredPoint.repair, htombstone, hupsert, Hlc.unpack_pack]

theorem stamp_repair (collection : String) (shardIdx : UInt32) :
    (winner.repair collection shardIdx).written.1 = winner.hlc :=
  Hlc.unpack_pack _

/-- What the loop over the stale replicas on the reader's own node does. -/
structure RepairedLocally (R : Runtime) (xxh64 : Bytes → UInt64)
    (f : FixedShard) (req : ReplicaWriteRequest) (nodes : List NodeId)
    (w w' : World) (regs regs' : NodeId → Registers) : Prop where
  serves : w'.Serves R xxh64 f regs'
  keeps : w.Keeps w'
  absorbs : f.Absorbs [req] regs regs'
  taken : req.key = f.key → ∀ node ∈ nodes, Taken regs' req node

theorem World.Serves.repairLocally (h : w.Serves R xxh64 f regs)
    (hfits : ShardKey.mk collection shardIdx = f.key →
      f.Fits (winner.repair collection shardIdx) ∧ schema = f.schema)
    (nodes : List NodeId) :
    ∃ regs', RepairedLocally R xxh64 f (winner.repair collection shardIdx)
      nodes w (nodes.foldl (fun w node =>
        Function.update w node { w node with
          shards := (w node).shards.repair R
            (shardRef collection shardIdx schema) winner }) w) regs regs' := by
  induction nodes generalizing w regs with
  | nil => exact ⟨regs, h, .refl w, .refl, by simp⟩
  | cons node nodes ih =>
      obtain ⟨own, hreplica, hoffered, htaken⟩ :=
        @NodeState.Replica.writesLocally _ _ _ _ _
          (winner.repair collection shardIdx) (h node) schema hfits
      obtain ⟨hserves, -⟩ := h.update hreplica
        fun _ _ ht => hoffered.atLeast ht
      obtain ⟨regs', hrest⟩ := ih hserves
      rw [List.foldl_cons, ShardStore.repair_eq _ _ collection shardIdx]
      refine ⟨regs', hrest.serves, .trans (.update ?_ ?_) hrest.keeps,
        (FixedShard.Absorbs.of_offered hoffered).trans hrest.absorbs,
        fun hkey other hother => ?_⟩
      · rfl
      · rfl
      · rcases List.mem_cons.mp hother with rfl | hother
        · apply hrest.absorbs.grows
          rw [Function.update_self, htaken hkey]
          exact ReplicaWriteRequest.atLeast_offerTo _ _
        · exact hrest.taken hkey other hother

/-- What spawning the repairs does to the replicas. -/
theorem World.Serves.spawnReadRepair (h : w.Serves R xxh64 f regs)
    (hfits : ShardKey.mk collection shardIdx = f.key →
      f.Fits (winner.repair collection shardIdx) ∧ schema = f.schema)
    (responses : Responses) :
    ∃ regs', RepairedLocally R xxh64 f (winner.repair collection shardIdx)
      ((responses.stale winner).filter (· = self)) w
      (Quorvec.spawnReadRepair R self w collection shardIdx schema responses
        winner).1 regs regs' :=
  h.repairLocally hfits _

theorem mem_spawnReadRepair {p : RepairPush} {responses : Responses} :
    p ∈ (Quorvec.spawnReadRepair R self w collection shardIdx schema responses
        winner).2 ↔
      p.target ∈ responses.stale winner ∧ p.target ≠ self ∧
        p.req = winner.repair collection shardIdx := by
  simp only [Quorvec.spawnReadRepair, List.mem_map, List.mem_filter]
  constructor
  · rintro ⟨node, ⟨hstale, hne⟩, rfl⟩
    exact ⟨hstale, of_decide_eq_true hne, rfl⟩
  · rintro ⟨hstale, hne, hreq⟩
    refine ⟨p.target, ⟨hstale, decide_eq_true hne⟩, ?_⟩
    rw [← hreq]

end Spawn

/-! ## A read with its repairs -/

section Got

variable {R : Runtime} {xxh64 : Bytes → UInt64} {f : FixedShard}
variable {metadata : MetaState} {collection : String}
variable {schema : CollectionSchema} {consistency : Consistency}
variable {regs : NodeId → Registers} {w : World} {self : NodeId} {id : UInt64}

/-- What a loop body of a read does. -/
structure Got (R : Runtime) (xxh64 : Bytes → UInt64) (f : FixedShard)
    (collection : String) (shardIdx : UInt32) (id : UInt64) (w : World)
    (regs regs' : NodeId → Registers)
    (out : World × List RepairPush × Responses ×
      Except RouterError (Option StoredPoint)) : Prop where
  serves : out.1.Serves R xxh64 f regs'
  keeps : w.Keeps out.1
  absorbs : ∃ reqs, f.Absorbs reqs regs regs' ∧ ∀ req ∈ reqs, ∃ winner,
    out.2.2.2 = .ok (some winner) ∧ req = winner.repair collection shardIdx
  fitting : f.Fitting regs'
  asked : ShardKey.mk collection shardIdx = f.key →
    out.2.2.1.map Prod.fst ⊆ f.nodes
  answers : ShardKey.mk collection shardIdx = f.key →
    ∀ node p, (node, p) ∈ out.2.2.1 → p = (regs node id).map (pointOf id)
  merged : ∀ winner, out.2.2.2 = .ok winner →
    out.2.2.1 ≠ [] ∧ winner = out.2.2.1.winner
  pushes : ∀ p ∈ out.2.1, ∃ winner, out.2.2.2 = .ok (some winner) ∧
    p.target ∈ out.2.2.1.stale winner ∧
    p.req = winner.repair collection shardIdx
  spawned : ∀ winner, out.2.2.2 = .ok (some winner) →
    ShardKey.mk collection shardIdx = f.key →
      ∀ node ∈ out.2.2.1.stale winner,
        Taken regs' (winner.repair collection shardIdx) node ∨
          { target := node, req := winner.repair collection shardIdx } ∈
            out.2.1

theorem Consistency.count_pos (n : ℕ) : 0 < consistency.count n := by
  unfold Consistency.count
  cases consistency <;> simp only <;> omega

theorem Responses.outcome_eq_ok {responses : Responses}
    {shardIdx : UInt32} {n : ℕ} {winner : Option StoredPoint}
    (h : responses.outcome collection shardIdx consistency n = .ok winner) :
    responses ≠ [] ∧ winner = responses.winner := by
  simp only [Responses.outcome] at h
  split_ifs at h with hfew
  refine ⟨?_, (Except.ok.inj h).symm⟩
  rintro rfl
  exact hfew (consistency.count_pos n)

theorem Responses.exists_of_winner {responses : Responses}
    {winner : StoredPoint} (h : responses.winner = some winner) :
    ∃ node, (node, some winner) ∈ responses := by
  obtain ⟨hmem, -⟩ := maxByKey_spec h
  obtain ⟨⟨node, p⟩, hp, heq⟩ := List.mem_filterMap.mp hmem
  obtain rfl : p = some winner := heq
  exact ⟨node, hp⟩

theorem Responses.le_winner {responses : Responses} {winner p : StoredPoint}
    (h : responses.winner = some winner) {node : NodeId}
    (hp : (node, some p) ∈ responses) : p.hlc ≤ winner.hlc :=
  (maxByKey_spec h).2 p (List.mem_filterMap.mpr ⟨_, hp, rfl⟩)

theorem Responses.of_notMem_stale {responses : Responses}
    {winner : StoredPoint} {node : NodeId} {p : Option StoredPoint}
    (hp : (node, p) ∈ responses) (hstale : node ∉ responses.stale winner) :
    ∃ point, p = some point ∧ winner.hlc ≤ point.hlc := by
  rcases p with _ | point
  · exact absurd (List.mem_map.mpr ⟨_, List.mem_filter.mpr ⟨hp, rfl⟩, rfl⟩)
      hstale
  · refine ⟨point, rfl, not_lt.mp fun hlt => hstale ?_⟩
    exact List.mem_map.mpr
      ⟨_, List.mem_filter.mpr ⟨hp, decide_eq_true hlt⟩, rfl⟩

/-- Replicas that answer alike. -/
theorem Responses.winner_of_same {responses : Responses}
    {p : Option StoredPoint} (hnonempty : responses ≠ [])
    (hsame : ∀ node q, (node, q) ∈ responses → q = p) :
    responses.winner = p := by
  rcases hwinner : responses.winner with _ | winner
  · obtain ⟨⟨node, q⟩, hq⟩ := List.exists_mem_of_ne_nil _ hnonempty
    obtain rfl := hsame node q hq
    rcases q with _ | point
    · rfl
    · obtain ⟨best, hbest, -⟩ := @exists_maxByKey _ _ _ StoredPoint.hlc
        (responses.filterMap Prod.snd) _ (List.mem_filterMap.mpr ⟨_, hq, rfl⟩)
      have hsome : responses.winner = some best := hbest
      simp [hwinner] at hsome
  · obtain ⟨node, hmem⟩ := Responses.exists_of_winner hwinner
    exact hsame node _ hmem

theorem Responses.stale_of_same {responses : Responses} {winner : StoredPoint}
    (hsame : ∀ node q, (node, q) ∈ responses → q = some winner) :
    responses.stale winner = [] := by
  rw [Responses.stale, List.map_eq_nil_iff, List.filter_eq_nil_iff]
  rintro ⟨node, q⟩ hq
  simp [hsame node q hq]

theorem World.Serves.getPoint (h : w.Serves R xxh64 f regs)
    (hfitting : f.Fitting regs) (hpinned : f.Pinned xxh64 metadata)
    (hknown : metadata.collections[collection]? = some schema)
    (fate : NodeId → CallFate) :
    ∃ regs', Got R xxh64 f collection (shardForId xxh64 id schema.shardCount)
      id w regs regs' (Quorvec.getPoint R xxh64 self metadata schema collection
        consistency fate id w) := by
  have hschema : ShardKey.mk collection
      (shardForId xxh64 id schema.shardCount) = f.key → schema = f.schema := by
    intro hkey
    obtain ⟨rfl, -⟩ := ShardKey.mk.inj hkey
    exact (hpinned schema hknown).1
  simp only [Quorvec.getPoint]
  split
  · exact ⟨regs, h, .refl w, ⟨[], .refl, by simp⟩, hfitting,
      fun _ => List.nil_subset _, fun _ node p hp => by simp at hp,
      fun winner hres => by simp at hres, by simp,
      fun winner hres => by simp at hres⟩
  · have hasked := @World.Serves.readReplicas _ _ _ _ _ _ _ _ self id h
      hschema fate (replicasWithAddrs xxh64 metadata collection
        (shardForId xxh64 id schema.shardCount))
    rcases hread : Quorvec.readReplicas R self fate collection
      (shardForId xxh64 id schema.shardCount) id schema
      (replicasWithAddrs xxh64 metadata collection
        (shardForId xxh64 id schema.shardCount)) w with ⟨w₁, responses⟩
    rw [hread] at hasked
    have hnodes : ShardKey.mk collection
        (shardForId xxh64 id schema.shardCount) = f.key →
        responses.map Prod.fst ⊆ f.nodes := by
      intro hkey
      obtain ⟨rfl, hidx⟩ := ShardKey.mk.inj hkey
      rw [← (hpinned schema hknown).2, ← hidx]
      exact hasked.asked
    dsimp only
    split
    · next winner houtcome =>
        have hmerged := Responses.outcome_eq_ok houtcome
        have hfits : ShardKey.mk collection
            (shardForId xxh64 id schema.shardCount) = f.key →
            f.Fits (winner.repair collection
              (shardForId xxh64 id schema.shardCount)) ∧
              schema = f.schema := by
          intro hkey
          refine ⟨?_, hschema hkey⟩
          obtain ⟨node, hmem⟩ :=
            Responses.exists_of_winner hmerged.2.symm
          obtain ⟨p, hp, rfl⟩ := Option.map_eq_some_iff.mp
            (hasked.answers hkey node _ hmem).symm
          obtain ⟨hcollection, hidx⟩ := ShardKey.mk.inj hkey
          rw [hcollection, hidx]
          exact hfitting node id p hp
        obtain ⟨regs', hlocal⟩ :=
          hasked.serves.spawnReadRepair hfits responses
        have hpushes := fun p => @mem_spawnReadRepair R collection
          (shardForId xxh64 id schema.shardCount) schema w₁ self winner p
          responses
        refine ⟨regs', hlocal.serves, hasked.keeps.trans hlocal.keeps,
          ⟨_, hlocal.absorbs, fun req hreq => ?_⟩,
          hlocal.absorbs.fitting hfitting fun hkey => (hfits hkey).1, hnodes,
          hasked.answers, ?_, ?_, ?_⟩
        · exact ⟨winner, rfl, List.mem_singleton.mp hreq⟩
        · rintro _ hres
          rw [← Except.ok.inj hres]
          exact hmerged
        · intro p hp
          obtain ⟨hstale, -, hreq⟩ := (hpushes p).mp hp
          exact ⟨winner, rfl, hstale, hreq⟩
        · intro other hres hkey node hnode
          obtain rfl : winner = other := Option.some.inj (Except.ok.inj hres)
          by_cases hself : node = self
          · left
            refine hlocal.taken hkey node (List.mem_filter.mpr ⟨hnode, ?_⟩)
            exact decide_eq_true hself
          · exact .inr ((hpushes _).mpr ⟨hnode, hself, rfl⟩)
    · next res hother =>
        exact ⟨regs, hasked.serves, hasked.keeps, ⟨[], .refl, by simp⟩,
          hfitting, hnodes, hasked.answers,
          fun winner hres => Responses.outcome_eq_ok hres, by simp,
          fun winner hres => absurd hres (hother winner)⟩

namespace Got

variable {shardIdx : UInt32} {regs' : NodeId → Registers}
variable {winner : StoredPoint}
variable {out : World × List RepairPush × Responses ×
  Except RouterError (Option StoredPoint)}

theorem grows (h : Got R xxh64 f collection shardIdx id w regs regs' out) :
    Grows regs regs' := by
  obtain ⟨reqs, habsorbs, -⟩ := h.absorbs
  exact habsorbs.grows

theorem absorbsWinner
    (h : Got R xxh64 f collection shardIdx id w regs regs' out)
    (hres : out.2.2.2 = .ok (some winner)) :
    f.Absorbs [winner.repair collection shardIdx] regs regs' := by
  obtain ⟨reqs, habsorbs, hreqs⟩ := h.absorbs
  refine habsorbs.mono fun req hreq => ?_
  obtain ⟨other, hother, rfl⟩ := hreqs req hreq
  obtain rfl : winner = other :=
    Option.some.inj (Except.ok.inj (hres.symm.trans hother))
  exact List.mem_cons_self

/-- What wins is what some replica holds. -/
theorem source (h : Got R xxh64 f collection shardIdx id w regs regs' out)
    (hkey : ShardKey.mk collection shardIdx = f.key)
    (hres : out.2.2.2 = .ok (some winner)) :
    ∃ node p, regs node id = some p ∧ winner = pointOf id p := by
  obtain ⟨node, hmem⟩ :=
    Responses.exists_of_winner (h.merged _ hres).2.symm
  obtain ⟨p, hp, heq⟩ := Option.map_eq_some_iff.mp
    (h.answers hkey node _ hmem).symm
  exact ⟨node, p, hp, heq.symm⟩

/-- Each replica that answered holds what has won, or gets it pushed. -/
theorem reached (h : Got R xxh64 f collection shardIdx id w regs regs' out)
    (hkey : ShardKey.mk collection shardIdx = f.key)
    (hres : out.2.2.2 = .ok (some winner)) {node : NodeId}
    (hnode : node ∈ out.2.2.1.map Prod.fst) :
    AtLeast (regs' node winner.id) winner.hlc ∨
      { target := node, req := winner.repair collection shardIdx } ∈
        out.2.1 := by
  by_cases hstale : node ∈ out.2.2.1.stale winner
  · have hspawned := h.spawned winner hres hkey node hstale
    refine hspawned.imp_left fun htaken => ?_
    rwa [Taken, stamp_repair] at htaken
  · left
    obtain ⟨⟨node', p⟩, hp, rfl⟩ := List.mem_map.mp hnode
    obtain ⟨point, rfl, hle⟩ := Responses.of_notMem_stale hp hstale
    obtain ⟨q, hq, rfl⟩ := Option.map_eq_some_iff.mp
      (h.answers hkey _ _ hp).symm
    obtain ⟨_, _, -, rfl⟩ := h.source hkey hres
    exact h.grows _ _ _ ⟨q, hq, hle⟩

end Got

end Got

/-! ## The task of a read -/

section Task

variable {R : Runtime} {xxh64 : Bytes → UInt64} {f : FixedShard}
variable {req : ReplicaWriteRequest}

/-- Pushes of one request for the shard; those that are answered are taken. -/
theorem World.Serves.pushRepairs {w : World} {regs : NodeId → Registers}
    (h : w.Serves R xxh64 f regs) (hreq : f.Fits req) (env : ℕ → PushEnv)
    {pushes : List RepairPush} (hpushes : ∀ p ∈ pushes, p.req = req) :
    ∃ regs', (Quorvec.pushRepairs R env pushes w).Serves R xxh64 f regs' ∧
      f.Absorbs [req] regs regs' ∧
      ((∀ i, (env i).fate = .answered) →
        (∀ node, (w node).metadata.collections[f.collection]? =
          some f.schema) →
        ∀ p ∈ pushes, Taken regs' req p.target) := by
  induction pushes generalizing env w regs with
  | nil => exact ⟨regs, h, .refl, by simp⟩
  | cons p pushes ih =>
      have hp : p.req = req := hpushes p List.mem_cons_self
      obtain ⟨state, own, hworld, hcalled, hok⟩ :=
        h.callReplicaWrite (env 0)
          fun _ => hreq
      obtain ⟨hserves, -⟩ := h.update hcalled.replica
        fun _ _ ht => hcalled.offered.atLeast ht
      obtain ⟨regs', hserves', habsorbs, htaken⟩ := ih hserves
        (fun i => env (i + 1)) fun q hq => hpushes q (List.mem_cons_of_mem _ hq)
      rw [Quorvec.pushRepairs, hp, hworld]
      refine ⟨regs', hserves',
        (FixedShard.Absorbs.of_offered hcalled.offered).trans habsorbs,
        fun henv hknown q hq => ?_⟩
      rcases List.mem_cons.mp hq with rfl | hq
      · have hanswered :=
          h.callReplicaWrite_answered (henv 0) hreq (hknown q.target)
        apply habsorbs.grows
        rw [Function.update_self, hok hanswered hreq.key_eq]
        exact req.atLeast_offerTo _
      · refine htaken (fun i => henv (i + 1)) (fun node => ?_) q hq
        by_cases hnode : node = p.target
        · rw [hnode, Function.update_self, hcalled.metadata_eq]
          exact hknown p.target
        · rw [Function.update_of_ne hnode]
          exact hknown node

end Task

/-! ## Over a run -/

namespace RepairRun

variable {R : Runtime} {xxh64 : Bytes → UInt64} {f : FixedShard}
variable {regs : NodeId → Registers} {s : RepairRun}

structure Sound (R : Runtime) (xxh64 : Bytes → UInt64) (f : FixedShard)
    (regs : NodeId → Registers) (s : RepairRun) : Prop where
  serves : s.world.Serves R xxh64 f regs
  fitting : f.Fitting regs
  ids : ∀ responses winner, (responses, winner) ∈ s.merged →
    shardForId xxh64 winner.id f.schema.shardCount = f.shardIdx
  reached : ∀ responses winner, (responses, winner) ∈ s.merged →
    ∀ node ∈ responses.map Prod.fst,
      AtLeast (regs node winner.id) winner.hlc ∨ s.Outstanding f winner node
  fits : ∀ p ∈ s.pending ++ s.failed, p.req.key = f.key → f.Fits p.req
  held : ∀ p ∈ s.pending ++ s.failed, p.req.key = f.key →
    ∃ node, AtLeast (regs node p.req.id) p.req.written.1

namespace Sound

theorem get (h : Sound R xxh64 f regs s) {metadata : MetaState}
    {schema : CollectionSchema} {collection : String} (self : NodeId)
    (consistency : Consistency) (fate : NodeId → CallFate) (id : UInt64)
    (hpinned : f.Pinned xxh64 metadata)
    (hknown : metadata.collections[collection]? = some schema) :
    ∃ regs', Sound R xxh64 f regs' (s.got
      (collection = f.collection ∧
        shardForId xxh64 id schema.shardCount = f.shardIdx)
      (getPoint R xxh64 self metadata schema collection consistency fate id
        s.world)) := by
  obtain ⟨regs', hgot⟩ := h.serves.getPoint h.fitting hpinned hknown fate
  generalize getPoint R xxh64 self metadata schema collection consistency fate
    id s.world = out at hgot
  have hold : ∀ p ∈ s.pending ++ s.failed,
      p ∈ (s.pending ++ out.2.1) ++ s.failed := by
    intro p hp
    simp only [List.mem_append] at hp ⊢
    tauto
  have hspawned : ∀ p ∈ out.2.1, p.req.key = f.key →
      f.Fits p.req ∧ ∃ node, AtLeast (regs' node p.req.id) p.req.written.1 := by
    intro p hp hkey
    obtain ⟨winner, hres, -, hreq⟩ := hgot.pushes p hp
    rw [hreq] at hkey ⊢
    obtain ⟨node, q, hq, rfl⟩ := hgot.source hkey hres
    obtain ⟨rfl, hidx⟩ := ShardKey.mk.inj hkey
    have hidx : shardForId xxh64 id schema.shardCount = f.shardIdx := hidx
    refine ⟨?_, node, hgot.grows _ _ _ ⟨q, hq, ?_⟩⟩
    · rw [hidx]
      exact h.fitting node id q hq
    · rw [DataPlane.written_repair]
  have hcases : ∀ p ∈ (s.pending ++ out.2.1) ++ s.failed,
      p ∈ s.pending ++ s.failed ∨ p ∈ out.2.1 := by
    intro p hp
    simp only [List.mem_append] at hp ⊢
    tauto
  have hmerged : ∀ responses winner, (responses, winner) ∈ (s.got
      (collection = f.collection ∧
        shardForId xxh64 id schema.shardCount = f.shardIdx) out).merged →
      (responses, winner) ∈ s.merged ∨
        (collection = f.collection ∧
          shardForId xxh64 id schema.shardCount = f.shardIdx) ∧
        out.2.2.1 = responses ∧ out.2.2.2 = .ok (some winner) := by
    intro responses winner hmem
    simp only [got] at hmem
    split at hmem
    · next win hres =>
        split_ifs at hmem with hours
        · rcases List.mem_cons.mp hmem with heq | hmem
          · obtain ⟨rfl, rfl⟩ := Prod.mk.inj heq
            exact .inr ⟨hours, rfl, hres⟩
          · exact .inl hmem
        · exact .inl hmem
    · exact .inl hmem
  refine ⟨regs', hgot.serves, hgot.fitting, fun responses winner hmem => ?_,
    fun responses winner hmem node hnode => ?_, fun p hp hkey => ?_,
    fun p hp hkey => ?_⟩
  · rcases hmerged responses winner hmem with hmem | ⟨⟨rfl, hidx⟩, -, hres⟩
    · exact h.ids responses winner hmem
    · obtain ⟨_, _, -, rfl⟩ := hgot.source (by rw [hidx]; rfl) hres
      obtain rfl := (hpinned schema hknown).1
      exact hidx
  · rcases hmerged responses winner hmem with
      hmem | ⟨⟨rfl, hidx⟩, rfl, hres⟩
    · rcases h.reached responses winner hmem node hnode with hat | hout
      · exact .inl (hgot.grows _ _ _ hat)
      · exact .inr (hold _ hout)
    · rw [hidx] at hgot
      refine (hgot.reached rfl hres hnode).imp_right fun hpush => ?_
      simp only [Outstanding, got, List.mem_append]
      exact .inl (.inr hpush)
  · rcases hcases p hp with hp | hp
    · exact h.fits p hp hkey
    · exact (hspawned p hp hkey).1
  · rcases hcases p hp with hp | hp
    · obtain ⟨node, hat⟩ := h.held p hp hkey
      exact ⟨node, hgot.grows _ _ _ hat⟩
    · exact (hspawned p hp hkey).2

theorem push (h : Sound R xxh64 f regs s) {p : RepairPush} (env : PushEnv)
    (hp : p ∈ s.pending) :
    ∃ regs', Sound R xxh64 f regs' (s.pushed R env p) := by
  have hfits := h.fits p (List.mem_append_left _ hp)
  obtain ⟨state, own, hworld, hcalled, hok⟩ :=
    h.serves.callReplicaWrite env hfits
  obtain ⟨hserves, hgrows⟩ := h.serves.update hcalled.replica
    fun _ _ ht => hcalled.offered.atLeast ht
  have hsub : ∀ q ∈ (s.pushed R env p).pending ++ (s.pushed R env p).failed,
      q ∈ s.pending ++ s.failed := by
    intro q hq
    rcases List.mem_append.mp hq with hq | hq
    · exact List.mem_append_left _ (List.mem_of_mem_erase hq)
    · simp only [pushed] at hq
      split_ifs at hq
      · exact List.mem_append_right _ hq
      · rcases List.mem_cons.mp hq with rfl | hq
        · exact List.mem_append_left _ hp
        · exact List.mem_append_right _ hq
  have hkept : ∀ q ∈ s.pending ++ s.failed, q ≠ p →
      q ∈ (s.pushed R env p).pending ++ (s.pushed R env p).failed := by
    intro q hq hne
    rcases List.mem_append.mp hq with hq | hq
    · exact List.mem_append_left _ ((List.mem_erase_of_ne hne).mpr hq)
    · refine List.mem_append_right _ ?_
      simp only [pushed]
      split_ifs
      · exact hq
      · exact List.mem_cons_of_mem _ hq
  refine ⟨Function.update regs p.target own, ?_,
    (FixedShard.Absorbs.of_offered hcalled.offered).fitting h.fitting hfits,
    h.ids,
    fun responses winner hmem node hnode => ?_,
    fun q hq hkey => h.fits q (hsub q hq) hkey, fun q hq hkey => ?_⟩
  · simpa only [pushed, hworld] using hserves
  · rcases h.reached responses winner hmem node hnode with hat | hout
    · exact .inl (hgrows _ _ _ hat)
    · by_cases hthis :
          p = ⟨node, winner.repair f.collection f.shardIdx⟩
      · by_cases hres : (callReplicaWrite R env s.world p.target p.req).2 = true
        · left
          have htaken := hok hres (by rw [hthis]; rfl)
          subst hthis
          rw [Function.update_self, htaken]
          have hat := (winner.repair f.collection f.shardIdx).atLeast_offerTo
            (regs node)
          rwa [stamp_repair] at hat
        · right
          refine List.mem_append_right _ ?_
          simp only [pushed, if_neg hres, ← hthis]
          exact List.mem_cons_self
      · exact .inr (hkept _ hout (Ne.symm hthis))
  · obtain ⟨node, hat⟩ := h.held q (hsub q hq) hkey
    exact ⟨node, hgrows _ _ _ hat⟩

end Sound

theorem Run.sound (h : Run R xxh64 f s) : ∃ regs, Sound R xxh64 f regs s := by
  induction h with
  | init hserves hfitting =>
      exact ⟨_, hserves, hfitting, by simp, by simp, by simp, by simp⟩
  | get self consistency fate id _ hpinned hknown ih =>
      obtain ⟨regs, hsound⟩ := ih
      exact hsound.get self consistency fate id hpinned hknown
  | push env _ hp ih =>
      obtain ⟨regs, hsound⟩ := ih
      exact hsound.push env hp
  | elsewhere _ hserves hserves' hgrows hfitting ih =>
      obtain ⟨regs, hsound⟩ := ih
      obtain rfl := hsound.serves.unique hserves
      refine ⟨_, hserves', hfitting, hsound.ids,
        fun responses winner hmem node hnode => ?_, hsound.fits,
        fun p hp hkey => ?_⟩
      · exact (hsound.reached responses winner hmem node hnode).imp_left
          (hgrows _ _ _)
      · obtain ⟨node, hat⟩ := hsound.held p hp hkey
        exact ⟨node, hgrows _ _ _ hat⟩

/-- A whole call for ids of the shard goes through them one by one, and each
point that it returns has won a read. -/
theorem Run.getPoints (h : Run R xxh64 f s) {metadata : MetaState}
    {schema : CollectionSchema} (self : NodeId) (consistency : Consistency)
    (hpinned : f.Pinned xxh64 metadata)
    (hknown : metadata.collections[f.collection]? = some schema)
    (fate : ℕ → NodeId → CallFate) {ids : List UInt64}
    (hids : ∀ id ∈ ids,
      shardForId xxh64 id schema.shardCount = f.shardIdx) :
    let out := Quorvec.getPoints R xxh64 self metadata schema f.collection
      consistency fate ids s.world
    ∃ s', Run R xxh64 f s' ∧ s'.world = out.1 ∧
      s'.pending = s.pending ++ out.2.1 ∧ s'.failed = s.failed ∧
      s.merged ⊆ s'.merged ∧
      ∀ points, out.2.2 = .ok points → ∀ point ∈ points,
        ∃ responses winner, (responses, winner) ∈ s'.merged ∧
          point ∈ returned (some winner) := by
  induction ids generalizing fate s with
  | nil =>
      refine ⟨s, h, rfl, (List.append_nil _).symm, rfl, List.Subset.refl _,
        fun points hres point hpoint => ?_⟩
      obtain rfl : [] = points := Except.ok.inj hres
      simp at hpoint
  | cons id ids ih =>
      have hrun := @Run.get _ _ _ _ _ _ _ self consistency (fate 0) id h
        hpinned hknown
      have hidx := hids id List.mem_cons_self
      simp only [Quorvec.getPoints]
      rcases hout : getPoint R xxh64 self metadata schema f.collection
        consistency (fate 0) id s.world with ⟨w, pushes, responses, e | winner⟩
      · rw [hout] at hrun
        exact ⟨_, hrun, rfl, rfl, rfl, List.Subset.refl _,
          fun points hres => by simp at hres⟩
      · rw [hout] at hrun
        obtain ⟨s', hrun', hworld, hpending, hfailed, hmerged, hpoints⟩ :=
          ih hrun (fun i => fate (i + 1))
            fun x hx => hids x (List.mem_cons_of_mem _ hx)
        have hfirst : s.merged ⊆ s'.merged ∧ ∀ win, winner = some win →
            (responses, win) ∈ s'.merged := by
          rcases winner with _ | win
          · exact ⟨hmerged, by simp⟩
          · simp only [got, hidx, and_self, if_true, List.cons_subset]
              at hmerged
            refine ⟨hmerged.2, fun other hother => ?_⟩
            rw [← Option.some.inj hother]
            exact hmerged.1
        refine ⟨s', hrun', hworld, ?_, hfailed, hfirst.1, ?_⟩
        · rw [hpending]
          exact List.append_assoc _ _ _
        · intro points hres point hpoint
          rcases hrest : (Quorvec.getPoints R xxh64 self metadata schema
            f.collection consistency (fun i => fate (i + 1)) ids w).2.2 with
            e | later
          · simp [hrest, Except.map] at hres
          · simp only [hrest, Except.map, Except.ok.injEq] at hres
            rw [← hres] at hpoint
            rcases List.mem_append.mp hpoint with hhere | hlater
            · rcases winner with _ | win
              · simp [returned] at hhere
              · exact ⟨responses, win, hfirst.2 win rfl, hhere⟩
            · exact hpoints later hrest point hlater

theorem Run.coordinateGetPoints (h : Run R xxh64 f s) {self : NodeId}
    {schema : CollectionSchema} (consistency : Consistency)
    (hknown : (s.world self).metadata.collections[f.collection]? = some schema)
    (fate : ℕ → NodeId → CallFate) {ids : List UInt64}
    (hids : ∀ id ∈ ids,
      shardForId xxh64 id schema.shardCount = f.shardIdx) :
    let out := Quorvec.coordinateGetPoints R xxh64 self fate s.world
      f.collection ids consistency
    ∃ s', Run R xxh64 f s' ∧ s'.world = out.1 ∧
      s'.pending = s.pending ++ out.2.1 ∧ s'.failed = s.failed ∧
      s.merged ⊆ s'.merged ∧
      ∀ points, out.2.2 = .ok points → ∀ point ∈ points,
        ∃ responses winner, (responses, winner) ∈ s'.merged ∧
          point ∈ returned (some winner) := by
  obtain ⟨regs, hsound⟩ := h.sound
  simp only [Quorvec.coordinateGetPoints, hknown]
  exact h.getPoints self consistency (hsound.serves self).pinned hknown fate
    hids

theorem Sound.staysAhead (h : Sound R xxh64 f regs s) :
    s.StaysAhead R xxh64 f := by
  intro metadata hpinned hknown responses winner hmem self consistency fate w
    pushes responses' winner' hget node hnode hnode' hdone
  obtain ⟨regs', hgot⟩ := h.serves.getPoint h.fitting hpinned hknown fate
  rw [hget, h.ids responses winner hmem] at hgot
  have hat := (h.reached responses winner hmem node hnode).resolve_right hdone
  obtain ⟨⟨node', p⟩, hp, rfl⟩ := List.mem_map.mp hnode'
  have hanswer := hgot.answers rfl _ _ hp
  obtain ⟨q, hq, hle⟩ := hat
  rw [hq, Option.map_some] at hanswer
  subst hanswer
  obtain ⟨next, hnext, hmax⟩ := @exists_maxByKey _ _ _ StoredPoint.hlc
    (responses'.filterMap Prod.snd) _ (List.mem_filterMap.mpr ⟨_, hp, rfl⟩)
  exact ⟨next, (hgot.merged _ rfl).2.trans hnext, le_trans hle hmax⟩

theorem Sound.evens (h : Sound R xxh64 f regs s) : s.Evens R xxh64 f := by
  intro metadata hpinned hknown id hidx self consistency fate w pushes
    responses winner hget hall env henv
  obtain ⟨regs₁, hgot⟩ := h.serves.getPoint h.fitting hpinned hknown fate
  rw [hget, hidx] at hgot
  obtain ⟨source, p, hp, hwinner⟩ := hgot.source rfl rfl
  have hreq : f.Fits (winner.repair f.collection f.shardIdx) := by
    rw [hwinner]
    exact h.fitting source id p hp
  have hsame : ∀ q ∈ pushes, q.req =
      winner.repair f.collection f.shardIdx := by
    intro q hq
    obtain ⟨other, hother, -, heq⟩ := hgot.pushes q hq
    rw [heq, ← Option.some.inj (Except.ok.inj hother)]
  obtain ⟨regs₂, hserves, habsorbs, htaken⟩ :=
    hgot.serves.pushRepairs hreq env hsame
  have hboth := (hgot.absorbsWinner rfl).trans habsorbs
  have hid : winner.id = id := by rw [hwinner]; rfl
  refine ⟨regs₂, hserves, fun node hnode => ?_⟩
  have hat : AtLeast (regs₂ node id) winner.hlc := by
    rw [← hid]
    rcases hgot.reached rfl rfl hnode with hat | hpush
    · exact habsorbs.grows _ _ _ hat
    · have hpushed := htaken henv
        (fun other => by rw [hgot.keeps.metadata_eq]; exact hall other) _ hpush
      rwa [Taken, stamp_repair] at hpushed
  obtain ⟨q, hq, hle⟩ := hat
  have hle' : q.1 ≤ winner.hlc := by
    rcases hboth.held node id q hq with hold | ⟨req, hreq, -, -, rfl⟩
    · obtain ⟨⟨node', a⟩, ha, rfl⟩ := List.mem_map.mp hnode
      have hanswer := hgot.answers rfl _ _ ha
      rw [hold, Option.map_some] at hanswer
      subst hanswer
      exact Responses.le_winner (hgot.merged _ rfl).2.symm ha
    · rw [List.mem_singleton.mp hreq]
      exact (stamp_repair _ _).le
  exact ⟨q.2, hq.trans (congrArg some (Prod.ext (le_antisymm hle' hle) rfl))⟩

end RepairRun

/-- Reads repair the replicas that answer them, in every run. -/
theorem readRepairs (R : Runtime) (xxh64 : Bytes → UInt64) (f : FixedShard) :
    ReadRepairs R xxh64 f := by
  intro s hrun
  obtain ⟨regs, hsound⟩ := hrun.sound
  exact ⟨⟨regs, hsound.serves, hsound.reached, hsound.held⟩,
    hsound.staysAhead, hsound.evens⟩

namespace TwoCopies

def schema : CollectionSchema where
  dim := 1
  metric := .l2
  shardCount := 1
  replicationN := 2

/-- Two nodes, both replicas of the one shard of a collection. -/
def metadata : MetaState where
  nodes := (∅ : Std.ExtTreeMap NodeId String).insert 1 "a" |>.insert 2 "b"
  collections := (∅ : Std.ExtTreeMap String CollectionSchema).insert "c" schema
  shardStates := ∅

def shard : FixedShard where
  collection := "c"
  shardIdx := 0
  schema := schema
  nodes := [1, 2]

def fresh : NodeState where
  metadata := metadata
  shards := .new 0 0
  clock := Hlc.zero
  hintLog := none

/-- The registers that have taken a write of id 7. -/
def taken : Registers := (OneReplica.req 0).offerTo fun _ => none

theorem schema_eq : metadata.collections["c"]? = some schema :=
  Std.ExtTreeMap.getElem?_insert_self

theorem replicas_eq :
    replicasWithAddrs (fun _ => 0) metadata "c" 0 = [(1, "a"), (2, "b")] := by
  have hkeys : metadata.nodes.keys = [1, 2] := by decide +kernel
  have hvnodes : (Ring.new (fun _ => 0) [1, 2] defaultVnodes).vnodes =
      List.replicate 64 (0, 1) ++ List.replicate 64 (0, 2) := by
    rw [Ring.new]
    apply (List.mergeSort_of_pairwise (by decide +kernel)).trans
    decide +kernel
  rw [replicasWithAddrs, MetaState.replicasForShard, schema_eq]
  simp only [MetaState.ring, hkeys, Ring.replicasForShard, hvnodes]
  decide +kernel

theorem pinned : shard.Pinned (fun _ => 0) metadata := by
  intro known hknown
  have hreplicas : replicasWithAddrs (fun _ => 0) metadata shard.collection
      shard.shardIdx = [(1, "a"), (2, "b")] := replicas_eq
  refine ⟨Option.some.inj (hknown.symm.trans schema_eq), ?_⟩
  rw [hreplicas]
  rfl

theorem fits_req : shard.Fits (OneReplica.req 0) :=
  ⟨rfl, (OneReplica.fits_req 0).dim, (OneReplica.fits_req 0).frame⟩

theorem taken_eq (id : UInt64) :
    taken id = if id = 7 then some (OneReplica.stamp, some [0]) else none := by
  by_cases hid : id = 7
  · subst hid
    rfl
  · simp [taken, ReplicaWriteRequest.offerTo, deliverWith, OneReplica.req, hid]

theorem replica_fresh :
    fresh.Replica .constant (fun _ => 0) shard fun _ => none :=
  ⟨pinned, rfl, ShardSlot.durable_unused Nat.one_pos⟩

/-- A read of both copies, one of which has a write that the other misses. -/
theorem getPoint_eq {state : NodeState}
    (h : state.Replica .constant (fun _ => 0) shard taken) :
    ∃ w, getPoint .constant (fun _ => 0) 1 metadata schema "c" .all
      (fun _ => .answered) 7 (Function.update (fun _ => fresh) 1 state) =
        (w, [⟨2, (pointOf 7 (OneReplica.stamp, some [0])).repair "c" 0⟩],
          [(1, some (pointOf 7 (OneReplica.stamp, some [0]))), (2, none)],
          .ok (some (pointOf 7 (OneReplica.stamp, some [0])))) := by
  obtain ⟨state₁, hread₁, -⟩ := h.readLocal 7
  obtain ⟨state₂, hread₂, -⟩ := replica_fresh.readLocal 7
  rw [taken_eq, if_pos rfl] at hread₁
  have hshard : shardForId (fun _ => 0) 7 schema.shardCount = 0 := by
    simp [shardForId, schema]
  have hlocal : state.readLocal .constant "c" 0 schema 7 =
      (state₁, .ok (some (pointOf 7 (OneReplica.stamp, some [0])))) := hread₁
  have hget : fresh.replicaGet .constant "c" 0 7 = (state₂, .ok none) := by
    have hknown : fresh.metadata.collections["c"]? = some schema := schema_eq
    have hremote : fresh.readLocal .constant "c" 0 schema 7 =
        (state₂, .ok none) := hread₂
    simp only [NodeState.replicaGet, hknown, hremote]
  have hresponses : readReplicas .constant 1 (fun _ => .answered) "c" 0 7
      schema [(1, "a"), (2, "b")] (Function.update (fun _ => fresh) 1 state) =
        (Function.update (Function.update (fun _ => fresh) 1 state₁) 2 state₂,
          [(1, some (pointOf 7 (OneReplica.stamp, some [0]))), (2, none)]) := by
    have hne : (2 : NodeId) ≠ 1 := by decide
    simp only [readReplicas, readOneReplica, if_pos, if_neg hne,
      Function.update_self, Function.update_of_ne hne, Function.update_idem,
      hlocal, hget]
  simp only [getPoint, hshard, replicas_eq, hresponses]
  exact ⟨_, rfl⟩

end TwoCopies

open TwoCopies in
/-- One copy has taken a write and the other has not; a read of both, whose
push is answered, leaves both with it. -/
theorem readRepairs_evened : ∃ s : RepairRun,
    RepairRun.Run .constant (fun _ => 0) shard s ∧
      ∃ w pushes responses winner,
        getPoint .constant (fun _ => 0) 1 metadata schema "c" .all
          (fun _ => .answered) 7 s.world =
            (w, pushes, responses, .ok (some winner)) ∧
        pushes.map RepairPush.target = [2] ∧
        ∃ regs, (pushRepairs .constant
            (fun _ => { fate := .answered, reading := 5 }) pushes w).Serves
              .constant (fun _ => 0) shard regs ∧
          ∀ node ∈ [1, 2], ∃ content,
            regs node 7 = some (winner.hlc, content) := by
  let w₀ : World := fun _ => fresh
  have hfirst : (w₀ 1).Replica .constant (fun _ => 0) shard fun _ => none :=
    replica_fresh
  obtain ⟨state, -, hstate, hmeta⟩ := hfirst.writeOneReplica_answered 1
    fits_req schema_eq (CallFate.answered.env 5) rfl
  let w : World := Function.update (fun _ => fresh) 1 state
  let regs : NodeId → Registers := Function.update (fun _ _ => none) 1 taken
  have hserves : w.Serves .constant (fun _ => 0) shard regs := by
    intro node
    by_cases hnode : node = 1
    · subst hnode
      rw [show w 1 = state from Function.update_self _ _ _,
        show regs 1 = taken from Function.update_self _ _ _]
      exact hstate
    · simpa only [w, regs, Function.update_of_ne hnode] using replica_fresh
  have hfitting : shard.Fitting regs := by
    intro node id p hp
    by_cases hnode : node = 1
    · subst hnode
      rw [show regs 1 = taken from Function.update_self _ _ _, taken_eq] at hp
      obtain ⟨rfl, hp⟩ := Option.ite_none_right_eq_some.mp hp
      obtain rfl := Option.some.inj hp
      exact fits_req
    · rw [show regs node = _ from Function.update_of_ne hnode _ _] at hp
      cases hp
  have hrun : RepairRun.Run .constant (fun _ => 0) shard _ :=
    .init hserves hfitting
  have hknown : ∀ node, (w node).metadata.collections["c"]? = some schema := by
    intro node
    by_cases hnode : node = 1
    · subst hnode
      simp only [w, Function.update_self, hmeta]
      exact schema_eq
    · simp only [w, Function.update_of_ne hnode]
      exact schema_eq
  obtain ⟨w', hget⟩ := getPoint_eq hstate
  refine ⟨_, hrun, w', _, _, _, hget, rfl, ?_⟩
  obtain ⟨regs', hserves', heven⟩ :=
    (readRepairs .constant (fun _ => 0) shard _ hrun).2.2 metadata pinned
      schema_eq 7 (by simp [shardForId, shard, schema]) 1 .all
      (fun _ => .answered) _ _ _ _ hget hknown
      (fun _ => { fate := .answered, reading := 5 }) fun _ => rfl
  exact ⟨regs', hserves', heven⟩

end Quorvec
