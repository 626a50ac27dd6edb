import Quorvec.Cluster.RingChange
import Quorvec.Node.Carries
import Quorvec.Node.SettledShards

/-!
# Dropping a source

A node drops a shard when its snapshot shows every replica active, and a
replica that has just joined is active by default.  The drop loses nothing when
every replica has completed a transfer, and every transfer has come from a
replica that held what the dropped shard holds.
-/

namespace Quorvec

open LastWriterWins ByteCodec

namespace Rebalance

section Claim

variable (R : Runtime) (xxh64 : Bytes → UInt64) (collection : String)
variable (shardIdx : UInt32) (schema : CollectionSchema)

/-- Whole replicas hold the stamp, and transfers of replicas reach it. -/
def Covered (s : Rebalance) (id : UInt64) (t : Hlc) : Prop :=
  ∀ r ∈ s.replicas xxh64 collection shardIdx,
    s.Carries collection shardIdx r id t

/-- What the steps of a hand-over respect.  A membership change leaves what is
held outside the new replicas covered; outside the replicas nothing is written
that is not covered; a replica pulls from a whole replica; and a drop finds
every replica whole. -/
def HandsOver (s : Rebalance) : RebalanceStep → Prop
  | .member req => ∀ node ∉ (s.commit xxh64 collection shardIdx req).replicas
        xxh64 collection shardIdx,
      ∀ id p, s.Has R collection shardIdx schema node id p →
        (s.commit xxh64 collection shardIdx req).Covered xxh64 collection
          shardIdx id p.1
  | .write node _ req => req.FitsFrame ∧
      (node ∉ s.replicas xxh64 collection shardIdx →
        s.Covered xxh64 collection shardIdx req.id req.written.1)
  | .writeLocal node req => req.FitsFrame ∧
      (node ∉ s.replicas xxh64 collection shardIdx →
        s.Covered xxh64 collection shardIdx req.id req.written.1)
  | .stream node => node ∈ s.replicas xxh64 collection shardIdx →
      ∀ source sources, s.stage node = .acquiring (source :: sources) →
        source.1 ∈ s.replicas xxh64 collection shardIdx ∧ s.Whole source.1
  | .record node _ => node ∉ s.replicas xxh64 collection shardIdx →
      ∀ sources row rows, s.stage node = .pulling sources (row :: rows) →
        s.Covered xxh64 collection shardIdx row.id row.hlc
  | .dropShard node => node ∉ s.replicas xxh64 collection shardIdx ∧
      ∀ r ∈ s.replicas xxh64 collection shardIdx, s.Whole r
  | _ => True

/-- In every admitted run, when a node drops its shard, every replica then
holds each version of it in memory, or a newer one. -/
def DropsSafely (Admits : Rebalance → RebalanceStep → Prop) : Prop :=
  ∀ s, Run R xxh64 collection shardIdx schema Admits s →
    ∀ node s', Admits s (.dropShard node) →
      Step R xxh64 collection shardIdx schema s (.dropShard node) s' →
    ∀ shard, s.slot collection shardIdx node = .opened shard →
      ∀ r ∈ s'.replicas xxh64 collection shardIdx,
        ∀ id p, registers shard.mem id = some p →
          AtLeast ((s'.slot collection shardIdx r).registers id) p.1

end Claim

/-! ## The invariant -/

section Invariant

variable {R : Runtime} {xxh64 : Bytes → UInt64} {collection : String}
variable {shardIdx : UInt32} {schema : CollectionSchema}
variable {s s' : Rebalance} {node : NodeId}

variable {e : RebalanceStep}

variable (R xxh64 collection shardIdx schema)

/-- What holds in a run of hand-overs: what is held outside the replicas is
covered. -/
structure HandedOver (s : Rebalance) : Prop where
  kept : s.Kept R collection shardIdx schema
  covered : ∀ node ∉ s.replicas xxh64 collection shardIdx,
    ∀ id p, s.Has R collection shardIdx schema node id p →
      s.Covered xxh64 collection shardIdx id p.1

variable {R xxh64 collection shardIdx schema}

theorem HandsOver.fitsFrames
    (h : s.HandsOver R xxh64 collection shardIdx schema e) :
    FitsFrames e := by
  cases e with
  | write => exact h.1
  | writeLocal => exact h.1
  | _ => trivial

/-- Outside the replicas, what is offered is covered. -/
theorem HandsOver.covered
    (h : s.HandsOver R xxh64 collection shardIdx schema e)
    (hnode : node ∉ s.replicas xxh64 collection shardIdx)
    {req : ReplicaWriteRequest}
    (hoffers : s.Offers collection shardIdx node req e) :
    s.Covered xxh64 collection shardIdx req.id req.written.1 := by
  cases e with
  | write other reading req' =>
      obtain ⟨rfl, rfl⟩ := hoffers
      exact h.2 hnode
  | writeLocal other req' =>
      obtain ⟨rfl, rfl⟩ := hoffers
      exact h.2 hnode
  | record other reading =>
      obtain ⟨rfl, sources, row, rows, hstage, rfl⟩ := hoffers
      rw [row.written_request]
      exact h hnode sources row rows hstage
  | _ => exact hoffers.elim

/-- What is covered stays so while the replicas stay. -/
theorem Covered.step {id : UInt64} {t : Hlc}
    (h : s.Covered xxh64 collection shardIdx id t)
    (hkept : s.Kept R collection shardIdx schema)
    (hadmits : s.HandsOver R xxh64 collection shardIdx schema e)
    (hstep : Step R xxh64 collection shardIdx schema s e s')
    (hreplicas : s'.replicas xxh64 collection shardIdx =
      s.replicas xxh64 collection shardIdx) :
    s'.Covered xxh64 collection shardIdx id t := by
  intro r hr
  rw [hreplicas] at hr
  apply (h r hr).step hkept hstep
  rintro rfl source sources hstage
  obtain ⟨hsource, hwhole⟩ := hadmits hr source sources hstage
  exact (h source.1 hsource).1 hwhole

/-- One step. -/
theorem HandedOver.step
    (h : s.HandedOver R xxh64 collection shardIdx schema)
    (hadmits : s.HandsOver R xxh64 collection shardIdx schema e)
    (hstep : Step R xxh64 collection shardIdx schema s e s') :
    s'.HandedOver R xxh64 collection shardIdx schema := by
  refine ⟨h.kept.step hadmits.fitsFrames hstep, ?_⟩
  rcases replicas_step hstep with hreplicas | ⟨req, rfl, rfl⟩
  · intro node hnode id p hp
    rw [hreplicas] at hnode
    have hcovered : s.Covered xxh64 collection shardIdx id p.1 := by
      rcases h.kept.has_step hadmits.fitsFrames hstep hp with
        hold | ⟨req, hoffers, rfl, rfl⟩
      · exact h.covered node hnode id p hold
      · exact hadmits.covered hnode hoffers
    exact hcovered.step h.kept hadmits hstep hreplicas
  · exact hadmits

theorem Initial.handedOver (h : s.Initial collection shardIdx schema) :
    s.HandedOver R xxh64 collection shardIdx schema := by
  refine ⟨h.kept R, ?_⟩
  rintro node _ id p ⟨regs, hregs, hp⟩
  have hblank : (s.slot collection shardIdx node).Keeps R schema.dim.toNat
      schema.metric fun _ => none := by
    rw [h.unused]
    exact ShardSlot.blank_unused _ _ h.dim_pos
  rw [ShardSlot.keeps_unique hregs hblank] at hp
  simp at hp

theorem Run.handedOver
    (hrun : Run R xxh64 collection shardIdx schema
      (HandsOver R xxh64 collection shardIdx schema) s) :
    s.HandedOver R xxh64 collection shardIdx schema := by
  apply hrun.invariant
  · exact fun s hinit => hinit.handedOver
  · exact fun s e s' h hadmits hstep => h.step hadmits hstep

end Invariant

end Rebalance

/-- In runs of hand-overs no drop loses a version. -/
theorem dropsSafely_of_handsOver (R : Runtime) (xxh64 : Bytes → UInt64)
    (collection : String) (shardIdx : UInt32) (schema : CollectionSchema) :
    Rebalance.DropsSafely R xxh64 collection shardIdx schema
      (Rebalance.HandsOver R xxh64 collection shardIdx schema) := by
  intro s hrun node s' hadmits hstep shard hslot r hr id p hp
  have h := hrun.handedOver
  obtain ⟨hnode, hwhole⟩ := hadmits
  have hreplicas : s'.replicas xxh64 collection shardIdx =
      s.replicas xxh64 collection shardIdx := by
    rcases Rebalance.replicas_step hstep with hsame | ⟨req, heq, -⟩
    · exact hsame
    · simp at heq
  rw [hreplicas] at hr
  obtain ⟨regs, hkeeps, -⟩ := h.kept.kept node
  have hopened := hkeeps
  rw [hslot] at hopened
  have hhas : s.Has R collection shardIdx schema node id p :=
    ⟨regs, hkeeps, hopened.2 ▸ hp⟩
  have hheld := (h.covered node hnode id p hhas r hr).1 (hwhole r hr)
  apply h.kept.holds_step hstep _ hheld
  intro heq
  rw [RebalanceStep.dropShard.inj heq] at hnode
  exact hnode hr

/-! ## A drop before the first pull -/

namespace Rebalance

section Unpulled

variable {R : Runtime} {xxh64 : Bytes → UInt64}

theorem fitsFrame_pointReq : pointReq.FitsFrame := by
  simp [ReplicaWriteRequest.FitsFrame, pointReq, ShardStore.callOf,
    ShardStore.opUpsert, ShardStore.opDelete, ShardCall.record,
    WalRecord.ofUpsert, WalRecord.FitsFrame, WalRecord.length_encodeBody]

theorem admitsJoin_of_handsOver (R : Runtime) (xxh64 : Bytes → UInt64) :
    AdmitsJoin R xxh64 (HandsOver R xxh64 "c" 0 pairSchema) where
  write := ⟨fitsFrame_pointReq, fun hnot =>
    absurd ((mem_replicas_firstMeta 1).mpr rfl) hnot⟩
  member := by
    intro node hout id p hhas
    have hne : node ≠ 1 := by
      rintro rfl
      exact hout ((mem_replicas_pairMeta 1).mpr (.inl rfl))
    obtain ⟨regs, hkeeps, hp⟩ := hhas
    rw [pointTaken, slot_setNode_of_ne hne] at hkeeps
    have hblank : (firstStart.slot "c" 0 node).Keeps R pairSchema.dim.toNat
        pairSchema.metric fun _ => none :=
      ShardSlot.blank_unused _ _ (by decide)
    rw [ShardSlot.keeps_unique hkeeps hblank] at hp
    simp at hp
  learn _ _ := trivial
  beginPass _ := trivial
  syncing _ := trivial
  stream _ hstage hsource hwhole := by
    intro _ source sources hacquiring
    obtain ⟨rfl, -⟩ := List.cons.inj
      (Stage.acquiring.inj (hstage.symm.trans hacquiring))
    exact ⟨hsource, hwhole⟩
  record _ hreplica := fun hnot => absurd hreplica hnot
  cutOver _ := trivial

/-- A run in which a node joins, and has pulled. -/
theorem dropsSafely_of_handsOver_joined (R : Runtime)
    (xxh64 : Bytes → UInt64) :
    ∃ s : Rebalance, Run R xxh64 "c" 0 pairSchema
        (HandsOver R xxh64 "c" 0 pairSchema) s ∧
      2 ∉ firstStart.replicas xxh64 "c" 0 ∧ 2 ∈ s.replicas xxh64 "c" 0 ∧
      s.tenure 2 = .pulled := by
  obtain ⟨s, -, hrun, hreplica, htenure, -⟩ :=
    exists_joined (admitsJoin_of_handsOver R xxh64)
  exact ⟨s, hrun, fun h => absurd ((mem_replicas_firstMeta 2).mp h) (by decide),
    hreplica, htenure⟩

def singleSchema : CollectionSchema :=
  { pairSchema with replicationN := 1 }

/-- One node, and one collection of one shard on one replica. -/
def singleMeta (node : NodeId) : MetaState where
  nodes := (∅ : Std.ExtTreeMap NodeId String).insert node "a"
  collections :=
    (∅ : Std.ExtTreeMap String CollectionSchema).insert "c" singleSchema
  shardStates := ∅

def singleStart (node : NodeId) : Rebalance :=
  { firstStart with
    world := fun other =>
      { firstStart.world other with metadata := singleMeta node }
    committed := singleMeta node }

theorem initial_singleStart (node : NodeId) :
    (singleStart node).Initial "c" 0 singleSchema where
  dim_pos := by decide
  known := Std.ExtTreeMap.getElem?_insert_self
  active _ := rfl
  metadata_eq _ := rfl
  unused _ := rfl
  inbox _ := rfl
  idle _ := rfl
  original _ := rfl

/-- Of two nodes, one takes the shard of the other when it joins. -/
theorem exists_takeover (xxh64 : Bytes → UInt64) : ∃ old new : NodeId,
    old ≠ new ∧
      ((singleMeta old).apply (.registerNode new "b")).1.replicasForShard
        xxh64 "c" 0 = [new] := by
  have hreplicas : ∀ old new : NodeId,
      ((singleMeta old).apply (.registerNode new "b")).1.nodes.keys = [1, 2] →
      ((singleMeta old).apply (.registerNode new "b")).1.replicasForShard
          xxh64 "c" 0 =
        (Ring.new xxh64 [1, 2] defaultVnodes).replicasForShard xxh64 "c" 0
          1 := by
    intro old new hkeys
    have hschema : ((singleMeta old).apply (.registerNode new "b")).1
        |>.collections["c"]? = some singleSchema :=
      Std.ExtTreeMap.getElem?_insert_self
    rw [MetaState.replicasForShard, hschema, MetaState.ring, hkeys]
    rfl
  obtain ⟨node, hnode, hone⟩ := @Ring.exists_replicas_eq_singleton xxh64
    [1, 2] defaultVnodes "c" 0 (by decide) (by decide)
  rcases List.mem_pair.mp hnode with rfl | rfl
  · refine ⟨2, 1, by decide, ?_⟩
    rw [hreplicas 2 1 (by decide +kernel), hone]
  · refine ⟨1, 2, by decide, ?_⟩
    rw [hreplicas 1 2 (by decide +kernel), hone]

/-- The old replica has taken the point. -/
def written (R : Runtime) (old : NodeId) : Rebalance :=
  (singleStart old).setNode old
    (((singleStart old).world old).applyReplicaWrite R 0 pointReq
      singleSchema).1

/-- A node applies the entry by which the new one joins. -/
def learns (s : Rebalance) (new node : NodeId) : Rebalance :=
  { s.setNode node { s.world node with
      metadata := ((s.world node).metadata.apply
        (.registerNode new "b")).1 } with
    inbox := Function.update s.inbox node [] }

/-- The new node has joined, and the old one knows it. -/
def moved (R : Runtime) (xxh64 : Bytes → UInt64) (old new : NodeId) :
    Rebalance :=
  ((written R old).commit xxh64 "c" 0 (.registerNode new "b")).learns new old

theorem world_written (R : Runtime) (old : NodeId) :
    ((written R old).world old).shards = onePoint R ∧
      ((written R old).world old).metadata = singleMeta old := by
  rw [written, world_setNode_self, NodeState.metadata_applyReplicaWrite,
    NodeState.shards_applyReplicaWrite]
  exact ⟨rfl, rfl⟩

theorem world_moved (R : Runtime) (xxh64 : Bytes → UInt64)
    (old new : NodeId) :
    ((moved R xxh64 old new).world old).shards = onePoint R ∧
      ((moved R xxh64 old new).world old).metadata =
        ((singleMeta old).apply (.registerNode new "b")).1 := by
  obtain ⟨hshards, hmeta⟩ := world_written R old
  have hworld : (moved R xxh64 old new).world old =
      { (written R old).world old with
        metadata := (((written R old).world old).metadata.apply
          (.registerNode new "b")).1 } := Function.update_self _ _ _
  rw [hworld, ← hmeta]
  exact ⟨hshards, rfl⟩

theorem world_moved_of_ne (R : Runtime) (xxh64 : Bytes → UInt64)
    {old new node : NodeId} (h : node ≠ old) :
    (moved R xxh64 old new).world node = (singleStart old).world node :=
  (Function.update_of_ne h _ _).trans (Function.update_of_ne h _ _)

theorem run_written {Admits : Rebalance → RebalanceStep → Prop}
    (old : NodeId)
    (h : Admits (singleStart old) (.write old 0 pointReq)) :
    Run R xxh64 "c" 0 singleSchema Admits (written R old) :=
  .step (.write old 0 pointReq) (.init (initial_singleStart old)) h
    (.write rfl)

/-- A node drops its shard, and its pass ends. -/
def drops (s : Rebalance) (node : NodeId) : Rebalance :=
  { s.setNode node { s.world node with
      shards := (s.world node).shards.dropShard "c" 0 } with
    tenure := Function.update s.tenure node
      (s.tenure node).drop }.setStage node .idle

theorem world_drops_of_ne {s : Rebalance} {node other : NodeId}
    (h : other ≠ node) : (s.drops node).world other = s.world other :=
  world_setNode_of_ne s h _

/-- The pass of the old node drops the shard. -/
theorem step_drop {s : Rebalance} {old new : NodeId} (hne : old ≠ new)
    (hmoved : ((singleMeta old).apply (.registerNode new
      "b")).1.replicasForShard xxh64 "c" 0 = [new])
    (hstage : s.stage old =
      .begun ((singleMeta old).apply (.registerNode new "b")).1)
    (hshards : (s.world old).shards = onePoint R) :
    Step R xxh64 "c" 0 singleSchema s (.dropShard old) (s.drops old) := by
  apply Step.dropShard hstage
  · rw [hmoved, List.mem_singleton]
    exact hne
  · obtain ⟨shard, hslot, -⟩ := exists_onePoint R
    rw [hshards, ShardStore.hasShard, hslot]
  · rw [hmoved]
    rfl

/-- The node that has left finds the new replica active before its first pass,
and drops the only copy. -/
theorem not_dropsSafely : ¬ ∃ R xxh64, ∀ collection shardIdx schema,
    DropsSafely R xxh64 collection shardIdx schema fun _ _ => True := by
  rintro ⟨R, xxh64, hall⟩
  obtain ⟨old, new, hne, hmoved⟩ := exists_takeover xxh64
  obtain ⟨hshards, hmeta⟩ := world_moved R xxh64 old new
  let s : Rebalance := (moved R xxh64 old new).setStage old
    (.begun ((moved R xxh64 old new).world old).metadata)
  have hrun : Run R xxh64 "c" 0 singleSchema (fun _ _ => True) s := by
    apply Run.step (.beginPass old) _ trivial (.beginPass rfl)
    apply Run.step (.learn old) _ trivial
      (.learn (show _ = MetaRequest.registerNode new "b" :: [] from rfl))
    exact .step (.member (.registerNode new "b")) (run_written old trivial)
      trivial (.member (.registerNode new "b"))
  have hstage : s.stage old =
      .begun ((singleMeta old).apply (.registerNode new "b")).1 := by
    rw [stage_setStage_self, hmeta]
  have hdrop := step_drop hne hmoved hstage hshards
  obtain ⟨shard, hslot, hkeeps⟩ := exists_onePoint R
  have hopened : s.slot "c" 0 old = .opened shard := by
    rw [slot_setStage, slot, hshards, hslot]
  have hpoint : registers shard.mem 7 = some (Hlc.new 1 0, some [0]) := by
    rw [hkeeps.2]
    rfl
  have hreplica : new ∈ (s.drops old).replicas xxh64 "c" 0 := by
    show new ∈ MetaState.replicasForShard xxh64
      ((singleMeta old).apply (.registerNode new "b")).1 "c" 0
    rw [hmoved]
    exact List.mem_singleton_self _
  obtain ⟨p, hp, -⟩ := hall "c" 0 singleSchema s hrun old _ trivial hdrop
    shard hopened new hreplica 7 _ hpoint
  -- the new replica has never opened the shard
  have hworld : (s.drops old).world new = (singleStart old).world new := by
    rw [world_drops_of_ne hne.symm]
    exact world_moved_of_ne R xxh64 hne.symm
  rw [slot, hworld] at hp
  simp [singleStart, firstStart, ShardStore.new, ShardSlot.registers] at hp

end Unpulled

end Rebalance

end Quorvec
