import Quorvec.Node.Router

/-!
# An acknowledged write is everywhere applied or hinted

Whatever fails while a write is coordinated, each replica in the coordinator's
view either holds the write or a newer one, or is the target of a durable hint
for exactly this write.  The one way out is a hint that cannot be stored, and
then the client is told so.
-/

namespace Quorvec

open LastWriterWins ByteCodec

/-- The node holds a version of the id that is at least as new as `t`, in
memory. -/
def World.Holds (w : World) (node : NodeId) (key : ShardKey) (id : UInt64)
    (t : Hlc) : Prop :=
  AtLeast (((w node).shards.slots key).registers id) t

/-- The node holds the write of the request or a newer one. -/
def World.HasTaken (w : World) (req : ReplicaWriteRequest)
    (node : NodeId) : Prop :=
  w.Holds node req.key req.id (Hlc.unpack req.hlc)

section View

variable {xxh64 : Bytes → UInt64} {metadata : MetaState}
variable {collection : String} {shardIdx : UInt32}

/-- The view lists each replica once. -/
theorem replicasWithAddrs_nodup :
    ((replicasWithAddrs xxh64 metadata collection shardIdx).map
      Prod.fst).Nodup := by
  have hids : (replicasWithAddrs xxh64 metadata collection shardIdx).map
      Prod.fst =
      (metadata.replicasForShard xxh64 collection shardIdx).filterMap fun id =>
        metadata.nodes[id]?.map fun _ => id := by
    rw [replicasWithAddrs, List.map_filterMap]
    congr 1
    funext id
    rw [Option.map_map]
    rfl
  rw [hids]
  refine MetaState.replicas_nodup.filterMap fun a b id ha hb => ?_
  simp only [Option.mem_def, Option.map_eq_some_iff] at ha hb
  obtain ⟨-, -, rfl⟩ := ha
  obtain ⟨-, -, rfl⟩ := hb
  rfl

end View

section Replica

variable {R : Runtime} {env : Env} {self node : NodeId} {w : World}
variable {req : ReplicaWriteRequest} {schema : CollectionSchema}

/-- A handler that answers has applied the write, or holds a newer one. -/
theorem atLeast_replicaWrite {reading : ℕ} {s : NodeState} {applied : Bool}
    (h : (s.replicaWrite R reading req).2 = .ok applied) :
    AtLeast (((s.replicaWrite R reading req).1.shards.slots
      req.key).registers req.id) (Hlc.unpack req.hlc) := by
  unfold NodeState.replicaWrite at h ⊢
  rcases hschema : s.metadata.collections[req.collection]? with _ | schema
  · simp [hschema] at h
  · simp only [hschema, NodeState.applyReplicaWrite] at h ⊢
    rcases hwrite : s.shards.write R
        (shardRef req.collection req.shardIdx schema) req.op
        (Hlc.unpack req.hlc) req.id req.vector req.payload with
      ⟨shards, e | out⟩
    · simp [hwrite] at h
    · have hheld := ShardStore.atLeast_write_of_ok
        (congrArg Prod.snd hwrite)
      rw [hwrite] at hheld
      dsimp only
      exact hheld

/-- A replica that counts as an acknowledgement has taken the write. -/
theorem hasTaken_writeOneReplica
    (h : (writeOneReplica R env self w node req schema).2 = .ok true) :
    (writeOneReplica R env self w node req schema).1.HasTaken req node := by
  unfold writeOneReplica at h ⊢
  rw [World.HasTaken, World.Holds]
  by_cases hself : node = self
  · rw [if_pos hself] at h ⊢
    rcases hfate : env.fate node with _ | _ | _ | shards
    case storageFault => simp [hfate] at h
    all_goals
      rcases hwrite : (w node).shards.write R
          (shardRef req.collection req.shardIdx schema) req.op
          (Hlc.unpack req.hlc) req.id req.vector req.payload with
        ⟨shards, e | out⟩
      · simp [hfate, hwrite] at h
      · have hheld := ShardStore.atLeast_write_of_ok
          (congrArg Prod.snd hwrite)
        rw [hwrite] at hheld
        simp only [Function.update_self]
        exact hheld
  · rw [if_neg hself] at h ⊢
    rcases hfate : env.fate node with _ | _ | _ | shards
    case answered =>
      rcases hreply : (w node).replicaWrite R (env.reading node) req with
        ⟨s, e | applied⟩
      · simp [hfate, hreply] at h
      · have hheld := atLeast_replicaWrite (congrArg Prod.snd hreply)
        rw [hreply] at hheld
        simp only [Function.update_self]
        exact hheld
    all_goals simp [hfate] at h

/-- Writing to one replica leaves the other nodes alone. -/
theorem writeOneReplica_of_ne {other : NodeId} (h : other ≠ node) :
    (writeOneReplica R env self w node req schema).1 other = w other := by
  have hupdate : ∀ s, Function.update w node s other = w other :=
    fun s => Function.update_of_ne h s w
  unfold writeOneReplica
  split_ifs
  · rcases env.fate node with _ | _ | _ | shards
    case storageFault => exact hupdate _
    all_goals
      rcases hwrite : (w node).shards.write R
          (shardRef req.collection req.shardIdx schema) req.op
          (Hlc.unpack req.hlc) req.id req.vector req.payload with
        ⟨shards, e | out⟩ <;> dsimp only <;> exact hupdate _
  · rcases env.fate node with _ | _ | _ | shards
    case answered =>
      rcases hreply : (w node).replicaWrite R (env.reading node) req with
        ⟨s, e | applied⟩ <;> dsimp only <;> exact hupdate _
    all_goals first | exact hupdate _ | rfl

end Replica

section Replicas

variable {R : Runtime} {env : Env} {self : NodeId} {w : World}
variable {req : ReplicaWriteRequest} {schema : CollectionSchema}
variable {replicas : List (NodeId × String)}

theorem writeReplicas_of_notMem {node : NodeId}
    (h : node ∉ replicas.map Prod.fst) :
    (writeReplicas R env self req schema replicas w).1 node = w node := by
  induction replicas generalizing w with
  | nil => rfl
  | cons r replicas ih =>
      rw [List.map_cons, List.mem_cons, not_or] at h
      rw [writeReplicas]
      dsimp only
      split <;> exact (ih h.2).trans (writeOneReplica_of_ne h.1)

/-- Every replica has taken the write or is in the list of those without an
acknowledgement. -/
theorem hasTaken_or_mem_writeReplicas
    (hnodup : (replicas.map Prod.fst).Nodup) :
    ∀ r ∈ replicas,
      (writeReplicas R env self req schema replicas w).1.HasTaken req r.1 ∨
        r.1 ∈ (writeReplicas R env self req schema replicas w).2.2 := by
  induction replicas generalizing w with
  | nil => simp
  | cons r replicas ih =>
      rw [List.map_cons, List.nodup_cons] at hnodup
      let next := writeOneReplica R env self w r.1 req schema
      have hrest := ih (w := next.1) hnodup.2
      intro x hx
      rw [writeReplicas]
      dsimp only
      rcases List.mem_cons.mp hx with rfl | hx
      · split
        · next hok =>
            left
            have htaken := hasTaken_writeOneReplica hok
            rw [World.HasTaken, World.Holds] at htaken ⊢
            rwa [writeReplicas_of_notMem hnodup.1]
        · right
          exact List.mem_cons_self
      · split
        · exact hrest x hx
        · exact (hrest x hx).imp_right (List.mem_cons_of_mem _)

theorem bufferHints_of_ok {targets : List NodeId} {log : Option Bytes}
    (h : (bufferHints R env req targets log).2.2 = .ok ()) :
    (bufferHints R env req targets log).2.1 = targets.map req.hintFor := by
  induction targets generalizing log with
  | nil => rfl
  | cons target targets ih =>
      rw [bufferHints] at h ⊢
      rcases hfault : env.hintFault (req.hintFor target) with _ | broken
      · simp only [hfault] at h ⊢
        rw [List.map_cons, ih h]
      · simp [hfault] at h

/-- The only failure of the hint loop is that of the hint store. -/
theorem bufferHints_error {targets : List NodeId} {log : Option Bytes}
    {e : RouterError}
    (h : (bufferHints R env req targets log).2.2 = .error e) : e = .hint := by
  induction targets generalizing log with
  | nil => simp [bufferHints] at h
  | cons target targets ih =>
      rw [bufferHints] at h
      rcases hfault : env.hintFault (req.hintFor target) with _ | broken
      · simp only [hfault] at h
        exact ih h
      · simp only [hfault, Except.error.injEq] at h
        exact h.symm

end Replicas

/-- The shards of the nodes after a coordinated write are those after its
replica loop. -/
theorem hasTaken_update_hintLog {w : World} {self : NodeId}
    {req : ReplicaWriteRequest} {node : NodeId} (log : Option Bytes)
    (h : w.HasTaken req node) :
    World.HasTaken (Function.update w self { w self with hintLog := log })
      req node := by
  rw [World.HasTaken, World.Holds] at h ⊢
  by_cases hself : node = self
  · rw [hself] at h ⊢
    rwa [Function.update_self]
  · rwa [Function.update_of_ne hself]

/-- With a hint store that works, a coordinated write is acknowledged or misses
its quorum. -/
theorem replicateWrite_result {R : Runtime} {xxh64 : Bytes → UInt64}
    {env : Env} {self : NodeId} {w : World} {metadata : MetaState}
    {schema : CollectionSchema} {req : ReplicaWriteRequest}
    {consistency : Consistency} (hstore : ∀ hint, env.hintFault hint = none)
    (hview : replicasWithAddrs xxh64 metadata req.collection req.shardIdx ≠
      []) :
    (replicateWrite R env self xxh64 w metadata schema req
        consistency).result = .ok () ∨
      ∃ needed got, (replicateWrite R env self xxh64 w metadata schema req
        consistency).result =
          .error (.writeQuorum req.collection req.shardIdx needed got) := by
  have hhints : ∀ targets log,
      (bufferHints R env req targets log).2.2 = .ok () := by
    intro targets
    induction targets with
    | nil => exact fun log => rfl
    | cons target targets ih =>
        intro log
        rw [bufferHints, hstore]
        exact ih _
  have hne : ¬ (replicasWithAddrs xxh64 metadata req.collection
      req.shardIdx).isEmpty = true := by
    rwa [List.isEmpty_iff]
  rw [replicateWrite, if_neg hne]
  dsimp only
  rw [hhints]
  dsimp only
  split_ifs
  · left
    rfl
  · right
    exact ⟨_, _, rfl⟩

/-- When a coordinated write is acknowledged, and also when it misses its
quorum, each replica of the view has taken it or is the target of a hint for
exactly this write that was reported durable. -/
theorem replicateWrite_covers (R : Runtime) (xxh64 : Bytes → UInt64)
    (env : Env) (self : NodeId) (w : World) (metadata : MetaState)
    (schema : CollectionSchema) (req : ReplicaWriteRequest)
    (consistency : Consistency)
    (hresult : (replicateWrite R env self xxh64 w metadata schema req
        consistency).result = .ok () ∨
      ∃ needed got, (replicateWrite R env self xxh64 w metadata schema req
        consistency).result =
          .error (.writeQuorum req.collection req.shardIdx needed got)) :
    ∀ r ∈ replicasWithAddrs xxh64 metadata req.collection req.shardIdx,
      (replicateWrite R env self xxh64 w metadata schema req
        consistency).world.HasTaken req r.1 ∨
      req.hintFor r.1 ∈ (replicateWrite R env self xxh64 w metadata schema req
        consistency).hinted := by
  intro r hr
  have hne : ¬ (replicasWithAddrs xxh64 metadata req.collection
      req.shardIdx).isEmpty = true := by
    rw [List.isEmpty_iff]
    exact List.ne_nil_of_mem hr
  rw [replicateWrite, if_neg hne] at hresult ⊢
  let written := writeReplicas R env self req schema
    (replicasWithAddrs xxh64 metadata req.collection req.shardIdx) w
  have hhints : (bufferHints R env req written.2.2
      (written.1 self).hintLog).2.2 = .ok () := by
    rcases hres : (bufferHints R env req written.2.2
        (written.1 self).hintLog).2.2 with e | u
    · -- a hint that cannot be stored is reported as such
      rw [bufferHints_error hres] at hres
      simp [written, hres] at hresult
    · rfl
  rcases hasTaken_or_mem_writeReplicas (w := w) replicasWithAddrs_nodup r hr
    with htaken | hmissed
  · left
    exact hasTaken_update_hintLog _ htaken
  · right
    show req.hintFor r.1 ∈ (bufferHints R env req written.2.2
      (written.1 self).hintLog).2.1
    rw [bufferHints_of_ok hhints]
    exact List.mem_map_of_mem hmissed

/-- A write to a shard on nodes 1 and 2, coordinated by node 1 while node 2
cannot be reached: node 2 has taken it or is hinted. -/
theorem replicateWrite_covers_unreachable :
    let metadata : MetaState :=
      { nodes := (∅ : Std.ExtTreeMap NodeId String).insert 1 "a" |>.insert 2 "b"
        collections := (∅ : Std.ExtTreeMap String CollectionSchema).insert "c"
          { dim := 1, metric := .l2, shardCount := 1, replicationN := 2 }
        shardStates := ∅ }
    let schema : CollectionSchema :=
      { dim := 1, metric := .l2, shardCount := 1, replicationN := 2 }
    let env : Env :=
      { fate := fun _ => .unreachable, reading := fun _ => 0
        hintFault := fun _ => none }
    let w : World := fun _ =>
      { metadata, shards := .new 0 0, clock := Hlc.zero, hintLog := none }
    let req : ReplicaWriteRequest :=
      { collection := "c", shardIdx := 0, op := 0, id := 7, hlc := 1
        vector := [0], payload := [] }
    let report := replicateWrite .constant env 1 (fun _ => 0) w metadata schema
      req .quorum
    report.world.HasTaken req 2 ∨ req.hintFor 2 ∈ report.hinted := by
  intro metadata schema env w req report
  have hview : (2, "b") ∈ replicasWithAddrs (fun _ => 0) metadata "c" 0 := by
    have hmember : (2 : NodeId) ∈
        metadata.replicasForShard (fun _ => 0) "c" 0 := by
      have hschema : metadata.collections["c"]? = some schema :=
        Std.ExtTreeMap.getElem?_insert_self
      have hsize : metadata.nodes.size ≤ schema.replicationN.toNat := by
        decide
      rw [MetaState.mem_replicas_iff hschema hsize]
      decide
    rw [replicasWithAddrs, List.mem_filterMap]
    exact ⟨2, hmember, by decide⟩
  exact replicateWrite_covers .constant (fun _ => 0) env 1 w metadata schema
    req .quorum (replicateWrite_result (fun _ => rfl)
      (List.ne_nil_of_mem hview)) (2, "b") hview

end Quorvec
