import Quorvec.Node.KeptSlot
import Quorvec.Node.RebalanceRun

/-!
# What a node carries through a run

A step changes the shard of a node by a write, by opening it, or by dropping
it.  So a node that has been a replica from the beginning, or has completed a
pull, keeps what it holds until it drops the shard, and a transfer reaches what
its source holds.
-/

namespace Quorvec

open LastWriterWins ByteCodec

namespace Rebalance

section Claim

variable (R : Runtime) (xxh64 : Bytes → UInt64) (collection : String)
variable (shardIdx : UInt32) (schema : CollectionSchema)

/-- A version that a node has of an id, in memory or on disk. -/
def Has (s : Rebalance) (node : NodeId) (id : UInt64) (p : Hlc × Content) :
    Prop :=
  ∃ regs, (s.slot collection shardIdx node).Keeps R schema.dim.toNat
    schema.metric regs ∧ regs id = some p

/-- A node holds the stamp in memory, or a newer one. -/
def Holds (s : Rebalance) (node : NodeId) (id : UInt64) (t : Hlc) : Prop :=
  AtLeast ((s.slot collection shardIdx node).registers id) t

/-- The records that a transfer is still to apply. -/
def pending (s : Rebalance) (node : NodeId) : List Shard.ShardRecordRow :=
  match s.stage node with
  | .pulling _ rows => rows
  | _ => []

/-- A source has answered the transfer of the node. -/
def Pulling (s : Rebalance) (node : NodeId) : Prop :=
  ∃ sources rows, s.stage node = .pulling sources rows

/-- The node has been a replica from the beginning, or has completed a pull
since it became one, and has not dropped the shard. -/
def Whole (s : Rebalance) (node : NodeId) : Prop :=
  s.tenure node = .original ∨ s.tenure node = .pulled

/-- The node holds the stamp, or its transfer is to apply it. -/
def Reaches (s : Rebalance) (node : NodeId) (id : UInt64) (t : Hlc) : Prop :=
  s.Holds collection shardIdx node id t ∨
    ∃ row ∈ s.pending node, row.id = id ∧ t ≤ row.hlc

/-- The node holds the stamp if it is whole, and its transfer reaches it. -/
def Carries (s : Rebalance) (node : NodeId) (id : UInt64) (t : Hlc) : Prop :=
  (s.Whole node → s.Holds collection shardIdx node id t) ∧
    (s.Pulling node → s.Reaches collection shardIdx node id t)

/-- The node becomes a replica by the step. -/
def Joins (s : Rebalance) (node : NodeId) : RebalanceStep → Prop
  | .member req => s.Enters xxh64 collection shardIdx req node
  | _ => False

/-- What a step offers to the shard of a node. -/
def Offers (s : Rebalance) (node : NodeId) (req : ReplicaWriteRequest) :
    RebalanceStep → Prop
  | .write other _ req' => other = node ∧ req' = req
  | .writeLocal other req' => other = node ∧ req' = req
  | .record other _ => other = node ∧ ∃ sources row rows,
      s.stage node = .pulling sources (row :: rows) ∧
        req = row.request collection shardIdx
  | _ => False

/-- A write that arrives fits its frame in the log. -/
def FitsFrames : RebalanceStep → Prop
  | .write _ _ req => req.FitsFrame
  | .writeLocal _ req => req.FitsFrame
  | _ => True

end Claim

/-! ## What one step can do -/

section Inversion

variable (R : Runtime) (collection : String)
variable (shardIdx : UInt32) (schema : CollectionSchema)

/-- The shard of a node after a step. -/
inductive SlotStep (s : Rebalance) (e : RebalanceStep) (node : NodeId) :
    ShardSlot → Prop
  | same : SlotStep s e node (s.slot collection shardIdx node)
  | written {req : ReplicaWriteRequest} :
      s.Offers collection shardIdx node req e →
      SlotStep s e node (((s.world node).shards.write R
        (shardRef collection shardIdx schema) req.op (Hlc.unpack req.hlc)
        req.id req.vector req.payload).1.slots { collection, shardIdx })
  | opened {slot : ShardSlot} :
      (e = .read node ∨ ∃ fate, e = .found node fate) →
      (∀ regs, (s.slot collection shardIdx node).Keeps R schema.dim.toNat
        schema.metric regs → ∃ shard, slot = .opened shard ∧
          shard.Keeps R schema.dim.toNat schema.metric regs) →
      SlotStep s e node slot
  | dropped : e = .dropShard node →
      SlotStep s e node (((s.world node).shards.dropShard collection
        shardIdx).slots { collection, shardIdx })

/-- The transfer of a node after a step, if it is in one. -/
inductive PullStep (s s' : Rebalance) (e : RebalanceStep) (node : NodeId) :
    Prop
  | kept : s'.stage node = s.stage node → PullStep s s' e node
  | begun {source : NodeId × String} {sources : List (NodeId × String)}
      {rows : List Shard.ShardRecordRow} :
      e = .stream node → s.stage node = .acquiring (source :: sources) →
      (s.world source.1).streamShard R collection shardIdx schema =
        (s.world source.1, .ok rows) →
      s'.stage node = .pulling sources rows → PullStep s s' e node
  | applied {sources : List (NodeId × String)} {row : Shard.ShardRecordRow}
      {rows : List Shard.ShardRecordRow} :
      s.stage node = .pulling sources (row :: rows) →
      s'.stage node = .pulling sources rows →
      s'.Holds collection shardIdx node row.id row.hlc → PullStep s s' e node

/-- The tenure of a node after a step. -/
inductive TenureStep (xxh64 : Bytes → UInt64) (s : Rebalance)
    (e : RebalanceStep) (node : NodeId) : Tenure → Prop
  | same : e ≠ .dropShard node → TenureStep xxh64 s e node (s.tenure node)
  | joined : s.Joins xxh64 collection shardIdx node e →
      TenureStep xxh64 s e node .joined
  | pulled {fate : ChangeFate} {sources : List (NodeId × String)} :
      e = .cutOver node fate → s.stage node = .pulling sources [] →
      TenureStep xxh64 s e node .pulled
  | dropped : e = .dropShard node →
      TenureStep xxh64 s e node (s.tenure node).drop

variable {R collection shardIdx schema}
variable {xxh64 : Bytes → UInt64} {s s' : Rebalance} {node : NodeId}
variable {e : RebalanceStep}

theorem slotStep_setNode {changed : NodeId} {state : NodeState}
    (h : node = changed → SlotStep R collection shardIdx schema s e node
      (state.shards.slots { collection, shardIdx })) :
    SlotStep R collection shardIdx schema s e node
      ((s.setNode changed state).slot collection shardIdx node) := by
  by_cases hnode : node = changed
  · rw [hnode, slot_setNode_self, ← hnode]
    exact h hnode
  · rw [slot_setNode_of_ne hnode]
    exact .same

theorem slot_step (hstep : Step R xxh64 collection shardIdx schema s e s')
    (node : NodeId) : SlotStep R collection shardIdx schema s e node
      (s'.slot collection shardIdx node) := by
  cases hstep with
  | member => exact .same
  | entry => exact .same
  | @learn changed req rest hinbox =>
      apply slotStep_setNode (s := s)
      rintro rfl
      exact .same
  | @write changed reading req hkey =>
      apply slotStep_setNode
      rintro rfl
      have hcollection : req.collection = collection :=
        congrArg ShardKey.collection hkey
      have hshardIdx : req.shardIdx = shardIdx :=
        congrArg ShardKey.shardIdx hkey
      rw [NodeState.shards_applyReplicaWrite, hcollection, hshardIdx]
      exact .written ⟨rfl, rfl⟩
  | writeLocal =>
      apply slotStep_setNode
      rintro rfl
      exact .written ⟨rfl, rfl⟩
  | read =>
      apply slotStep_setNode
      rintro rfl
      apply SlotStep.opened (.inl rfl)
      intro regs hkeeps
      obtain ⟨shard, hshard, hopen⟩ := @ShardStore.getOrOpen_of_keeps R
        (s.world node).shards (shardRef collection shardIdx schema) regs hkeeps
      refine ⟨shard, ?_, hshard⟩
      rw [hopen]
      exact ShardStore.slots_put_self _ _
  | beginPass => exact .same
  | settled => exact .same
  | @found changed snapshot fate =>
      rw [slot_setStage, slot_setState]
      apply slotStep_setNode
      rintro rfl
      apply SlotStep.opened (.inr ⟨fate, rfl⟩)
      intro regs hkeeps
      obtain ⟨shard, hshard, haccess⟩ := @ShardStore.access_of_keeps R
        (s.world node).shards (shardRef collection shardIdx schema) regs ℕ
        hkeeps fun shard => (shard, .ok shard.len)
      refine ⟨shard, ?_, hshard⟩
      rw [ShardStore.shardLen, haccess]
      exact ShardStore.slots_put_self _ _
  | syncing =>
      rw [slot_setStage, slot_setState]
      exact .same
  | unreachable => exact .same
  | @stream changed source sources state rows hstage hstream =>
      rw [slot_setStage]
      apply slotStep_setNode
      rintro rfl
      have hstate : state = s.world source.1 := by
        rw [← @NodeState.streamShard_fst R (s.world source.1) collection
          shardIdx schema, hstream]
      rw [hstate]
      exact .same
  | @record changed reading sources row rows hstage =>
      rw [slot_setStage]
      apply slotStep_setNode
      rintro rfl
      have hrow := @SlotStep.written R collection shardIdx schema s
        (.record node reading) node (row.request collection shardIdx)
        ⟨rfl, _, _, _, hstage, rfl⟩
      rw [NodeState.shards_pullRecord]
      simpa [Shard.ShardRecordRow.request] using hrow
  | cutOver =>
      rw [slot_setStage, slot_setState]
      exact .same
  | giveUp => exact .same
  | dropShard =>
      rw [slot_setStage]
      apply slotStep_setNode (s := s)
      rintro rfl
      exact .dropped rfl
  | leave => exact .same
  | @elsewhere changed state hmeta hslot =>
      apply slotStep_setNode
      rintro rfl
      rw [hslot]
      exact .same

/-- Only a membership change moves a replica. -/
theorem replicas_step
    (hstep : Step R xxh64 collection shardIdx schema s e s') :
    s'.replicas xxh64 collection shardIdx =
        s.replicas xxh64 collection shardIdx ∨
      ∃ req, e = .member req ∧ s' = s.commit xxh64 collection shardIdx req := by
  cases hstep with
  | member => exact .inr ⟨_, rfl, rfl⟩
  | entry hreq => exact .inl (replicas_elsewhere hreq _)
  | found => exact .inl (replicas_setState _ _)
  | syncing => exact .inl (replicas_setState _ _)
  | cutOver => exact .inl (replicas_setState _ _)
  | _ => exact .inl rfl

theorem tenure_step (hstep : Step R xxh64 collection shardIdx schema s e s')
    (node : NodeId) :
    TenureStep collection shardIdx xxh64 s e node (s'.tenure node) := by
  have hsame : e ≠ .dropShard node → s'.tenure = s.tenure →
      TenureStep collection shardIdx xxh64 s e node (s'.tenure node) := by
    intro hdrop htenure
    rw [htenure]
    exact .same hdrop
  cases hstep with
  | @member req =>
      by_cases henters : s.Enters xxh64 collection shardIdx req node
      · simp only [commit, if_pos henters]
        exact .joined henters
      · simp only [commit, if_neg henters]
        exact .same (by simp)
  | entry hreq =>
      exact hsame (by simp) (tenure_commit (replicas_elsewhere hreq _))
  | found =>
      refine hsame (by simp) ?_
      rw [tenure_setStage, tenure_setState, tenure_setNode]
  | syncing =>
      refine hsame (by simp) ?_
      rw [tenure_setStage, tenure_setState]
  | @cutOver changed fate sources hstage =>
      rw [tenure_setStage, tenure_setState]
      by_cases hnode : node = changed
      · subst hnode
        simp only [Function.update_self]
        exact .pulled rfl hstage
      · simp only [Function.update_of_ne hnode]
        exact .same (by simp)
  | @dropShard changed =>
      rw [tenure_setStage]
      by_cases hnode : node = changed
      · subst hnode
        simp only [Function.update_self]
        exact .dropped rfl
      · simp only [Function.update_of_ne hnode]
        exact .same (by simp [Ne.symm hnode])
  | _ => exact hsame (by simp) rfl

theorem whole_step (hstep : Step R xxh64 collection shardIdx schema s e s')
    (h : s'.Whole node) :
    e ≠ .dropShard node ∧
      (s.Whole node ∨ ∃ sources, s.stage node = .pulling sources []) := by
  have htenure := tenure_step hstep node
  rw [Whole] at h
  generalize s'.tenure node = tenure at h htenure
  cases htenure with
  | same hdrop => exact ⟨hdrop, .inl h⟩
  | joined hjoins => simp at h
  | @pulled fate sources he hstage =>
      exact ⟨by simp [he], .inr ⟨sources, hstage⟩⟩
  | dropped =>
      exfalso
      revert h
      cases s.tenure node <;> decide

/-- A node that counts as joined did so before, or joins by the step. -/
theorem joined_step (hstep : Step R xxh64 collection shardIdx schema s e s')
    (h : s'.tenure node = .joined) :
    s.tenure node = .joined ∨
      s.Joins xxh64 collection shardIdx node e := by
  have htenure := tenure_step hstep node
  generalize s'.tenure node = tenure at h htenure
  cases htenure with
  | same => exact .inl h
  | joined hjoins => exact .inr hjoins
  | pulled => simp at h
  | dropped =>
      left
      revert h
      cases s.tenure node <;> decide

theorem pullStep_setStage {t : Rebalance} {changed : NodeId} {stage : Stage}
    (ht : t.stage = s.stage)
    (h : node = changed → (t.setStage changed stage).Pulling node →
      PullStep R collection shardIdx schema s (t.setStage changed stage) e
        node)
    (hpull : (t.setStage changed stage).Pulling node) :
    PullStep R collection shardIdx schema s (t.setStage changed stage) e
      node := by
  by_cases hnode : node = changed
  · exact h hnode hpull
  · apply PullStep.kept
    rw [stage_setStage_of_ne hnode, ht]

theorem not_pulling_setStage {stage : Stage}
    (hstage : ∀ sources rows, stage ≠ .pulling sources rows) :
    ¬ (s.setStage node stage).Pulling node := by
  rw [Pulling, stage_setStage_self]
  rintro ⟨sources, rows, heq⟩
  exact hstage sources rows heq

theorem pullStep_leave {t : Rebalance} {changed : NodeId} {stage : Stage}
    (ht : t.stage = s.stage)
    (hstage : ∀ sources rows, stage ≠ .pulling sources rows)
    (hpull : (t.setStage changed stage).Pulling node) :
    PullStep R collection shardIdx schema s (t.setStage changed stage) e
      node := by
  refine pullStep_setStage ht ?_ hpull
  rintro rfl hpull
  exact absurd hpull (not_pulling_setStage hstage)

theorem pull_step (hstep : Step R xxh64 collection shardIdx schema s e s')
    (h : s'.Pulling node) :
    e ≠ .dropShard node ∧
      PullStep R collection shardIdx schema s s' e node := by
  cases hstep with
  | beginPass => exact ⟨by simp, pullStep_leave rfl (by simp) h⟩
  | settled => exact ⟨by simp, pullStep_leave rfl (by simp) h⟩
  | found =>
      refine ⟨by simp, pullStep_leave ?_ (by simp) h⟩
      rw [stage_setState, stage_setNode]
  | @syncing changed snapshot fate =>
      refine ⟨by simp, pullStep_leave (stage_setState _ _) ?_ h⟩
      cases fate <;> simp
  | unreachable => exact ⟨by simp, pullStep_leave rfl (by simp) h⟩
  | @stream changed source sources state rows hstage hstream =>
      refine ⟨by simp, pullStep_setStage rfl ?_ h⟩
      rintro rfl -
      have hstate : state = s.world source.1 := by
        rw [← @NodeState.streamShard_fst R (s.world source.1) collection
          shardIdx schema, hstream]
      exact .begun rfl hstage (hstate ▸ hstream) (stage_setStage_self _)
  | @record changed reading sources row rows hstage =>
      refine ⟨by simp, pullStep_setStage rfl ?_ h⟩
      rintro rfl hpull
      rcases hout : ((s.world node).pullRecord R reading collection shardIdx
        schema row).2 with err | out
      · rw [hout] at hpull
        exact absurd hpull (not_pulling_setStage (by simp))
      · refine .applied hstage (stage_setStage_self _) ?_
        rw [Holds, slot_setStage, slot_setNode_self,
          NodeState.shards_pullRecord]
        exact ShardStore.atLeast_write_of_ok
          (NodeState.write_of_pullRecord hout)
  | cutOver =>
      refine ⟨by simp, pullStep_leave ?_ (by simp) h⟩
      rw [stage_setState]
  | giveUp => exact ⟨by simp, pullStep_leave rfl (by simp) h⟩
  | @dropShard changed snapshot hbegun =>
      refine ⟨?_, pullStep_leave rfl (by simp) h⟩
      rintro heq
      obtain rfl := RebalanceStep.dropShard.inj heq
      exact not_pulling_setStage (by simp) h
  | leave => exact ⟨by simp, pullStep_leave rfl (by simp) h⟩
  | _ => exact ⟨by simp, .kept rfl⟩

end Inversion

/-! ## What every run keeps -/

section Kept

variable {R : Runtime} {xxh64 : Bytes → UInt64} {collection : String}
variable {shardIdx : UInt32} {schema : CollectionSchema}
variable {s s' : Rebalance} {node : NodeId} {e : RebalanceStep}

/-- The push of each register fits its frame. -/
def PushesFit (collection : String) (shardIdx : UInt32) (regs : Registers) :
    Prop :=
  ∀ id p, regs id = some p →
    ((pointOf id p).repair collection shardIdx).FitsFrame

/-- A record that a transfer may apply. -/
structure Applicable (collection : String) (shardIdx : UInt32)
    (schema : CollectionSchema) (row : Shard.ShardRecordRow) : Prop where
  vector : ∀ v, row.written.2 = some v → v.length = schema.dim.toNat
  fits : (row.request collection shardIdx).FitsFrame

variable (R collection shardIdx schema)

/-- Every shard keeps its registers, and transfers apply what they bring. -/
structure Kept (s : Rebalance) : Prop where
  dim_pos : 0 < schema.dim.toNat
  kept : ∀ node, ∃ regs, (s.slot collection shardIdx node).Keeps R
    schema.dim.toNat schema.metric regs ∧ PushesFit collection shardIdx regs
  rows : ∀ node, ∀ row ∈ s.pending node,
    Applicable collection shardIdx schema row

variable {R collection shardIdx schema}

/-- What is offered fits its frame. -/
theorem Kept.fits (h : s.Kept R collection shardIdx schema)
    (hfits : FitsFrames e) {req : ReplicaWriteRequest}
    (hoffers : s.Offers collection shardIdx node req e) : req.FitsFrame := by
  cases e with
  | write other reading req' => exact hoffers.2 ▸ hfits
  | writeLocal other req' => exact hoffers.2 ▸ hfits
  | record other reading =>
      obtain ⟨-, sources, row, rows, hstage, rfl⟩ := hoffers
      apply (h.rows node row _).fits
      rw [pending, hstage]
      exact List.mem_cons_self
  | _ => exact hoffers.elim

/-- What a write leaves in the shard of a node. -/
theorem Kept.write (h : s.Kept R collection shardIdx schema) (node : NodeId)
    {req : ReplicaWriteRequest} (hfits : req.FitsFrame) :
    ∃ regs regs', (s.slot collection shardIdx node).Keeps R schema.dim.toNat
        schema.metric regs ∧
      ((((s.world node).shards.write R (shardRef collection shardIdx schema)
        req.op (Hlc.unpack req.hlc) req.id req.vector req.payload).1.slots
          { collection, shardIdx }).Keeps R schema.dim.toNat schema.metric
            regs') ∧
      PushesFit collection shardIdx regs' ∧
      ∀ id p, regs' id = some p →
        regs id = some p ∨ id = req.id ∧ p = req.written := by
  obtain ⟨regs, hkeeps, hpushes⟩ := h.kept node
  obtain ⟨regs', hkeeps', hcases⟩ := @ShardStore.write_of_keeps R
    (s.world node).shards (shardRef collection shardIdx schema) regs req.op
    (Hlc.unpack req.hlc) req.id req.vector req.payload hkeeps hfits
  have hfrom : ∀ id p, regs' id = some p →
      regs id = some p ∨ id = req.id ∧ p = req.written := by
    intro id p hp
    rcases hcases with rfl | rfl
    · exact .inl hp
    · exact eq_or_of_deliver hp
  refine ⟨regs, regs', hkeeps, hkeeps', fun id p hp => ?_, hfrom⟩
  rcases hfrom id p hp with hold | ⟨rfl, rfl⟩
  · exact hpushes id p hold
  · exact hfits.repair _ collection shardIdx

/-- The records of a transfer are what the source has in memory. -/
theorem Kept.streamed (h : s.Kept R collection shardIdx schema)
    {source : NodeId} {rows : List Shard.ShardRecordRow}
    (hstream : (s.world source).streamShard R collection shardIdx schema =
      (s.world source, .ok rows)) :
    (∀ row ∈ rows, Applicable collection shardIdx schema row) ∧
      ∀ id t, s.Holds collection shardIdx source id t →
        ∃ row ∈ rows, row.id = id ∧ t ≤ row.hlc := by
  obtain ⟨regs, hkeeps, hpushes⟩ := h.kept source
  rcases hslot : s.slot collection shardIdx source with dir | shard
  · have hclosed : (s.world source).shards.slots
        { collection, shardIdx } = .closed dir := hslot
    simp only [NodeState.streamShard, ShardStore.hasShard, hclosed,
      Bool.false_eq_true, if_false, Prod.mk.injEq, Except.ok.injEq,
      true_and] at hstream
    rw [← hstream]
    refine ⟨by simp, ?_⟩
    rintro id t ⟨p, hp, -⟩
    rw [hslot] at hp
    simp [ShardSlot.registers] at hp
  · have hopened : (s.world source).shards.slots
        { collection, shardIdx } = .opened shard := hslot
    rw [hslot] at hkeeps
    obtain ⟨shards, found, hfound, -, hmem, hdims⟩ :=
      @NodeState.streamShard_of_valid R (s.world source) collection
        shardIdx schema h.dim_pos
        (hopened ▸ .opened hkeeps.1.valid hkeeps.1.dim_eq)
    rw [hstream, Prod.mk.injEq, Except.ok.injEq] at hfound
    obtain ⟨-, rfl⟩ := hfound
    rw [hopened] at hmem
    constructor
    · intro row hrow
      obtain ⟨p, hp, heq⟩ := (hmem row).mp hrow
      refine ⟨hdims row hrow, ?_⟩
      have hfits := hpushes row.id p (hkeeps.2 ▸ hp)
      rw [heq]
      exact hfits
    · rintro id t ⟨p, hp, hle⟩
      rw [hslot] at hp
      exact ⟨Shard.rowOf id p, (hmem _).mpr ⟨p, hp, rfl⟩, rfl, hle⟩

theorem pending_of_pulling {sources : List (NodeId × String)}
    {rows : List Shard.ShardRecordRow}
    (h : s.stage node = .pulling sources rows) : s.pending node = rows := by
  rw [pending, h]

theorem pulling_of_mem_pending {row : Shard.ShardRecordRow}
    (h : row ∈ s.pending node) : s.Pulling node := by
  unfold pending at h
  split at h
  · next hpull => exact ⟨_, _, hpull⟩
  · simp at h

theorem Kept.step (h : s.Kept R collection shardIdx schema)
    (hfits : FitsFrames e)
    (hstep : Step R xxh64 collection shardIdx schema s e s') :
    s'.Kept R collection shardIdx schema := by
  refine ⟨h.dim_pos, fun node => ?_, fun node row hrow => ?_⟩
  · obtain ⟨regs, hkeeps, hpushes⟩ := h.kept node
    have hslot := slot_step hstep node
    generalize s'.slot collection shardIdx node = slot at hslot ⊢
    cases hslot with
    | same => exact ⟨regs, hkeeps, hpushes⟩
    | written hoffers =>
        obtain ⟨-, regs', -, hkeeps', hpushes', -⟩ :=
          h.write node (h.fits hfits hoffers)
        exact ⟨regs', hkeeps', hpushes'⟩
    | opened _ hopened =>
        obtain ⟨shard, rfl, hshard⟩ := hopened regs hkeeps
        exact ⟨regs, hshard, hpushes⟩
    | dropped =>
        exact ⟨regs, ShardStore.keeps_dropShard hkeeps, hpushes⟩
  · obtain ⟨-, hpull⟩ := pull_step hstep (pulling_of_mem_pending hrow)
    cases hpull with
    | kept hstage =>
        rw [pending, hstage] at hrow
        exact h.rows node row hrow
    | begun _ _ hstream hstage =>
        rw [pending_of_pulling hstage] at hrow
        exact (h.streamed hstream).1 row hrow
    | applied hbefore hstage =>
        rw [pending_of_pulling hstage] at hrow
        apply h.rows node
        rw [pending_of_pulling hbefore]
        exact List.mem_cons_of_mem _ hrow

theorem Initial.kept (h : s.Initial collection shardIdx schema) (R : Runtime) :
    s.Kept R collection shardIdx schema := by
  refine ⟨h.dim_pos, fun node => ⟨fun _ => none, ?_, ?_⟩,
    fun node row hrow => ?_⟩
  · rw [h.unused]
    exact ShardSlot.blank_unused _ _ h.dim_pos
  · intro id p hp
    simp at hp
  · rw [pending, h.idle] at hrow
    simp at hrow

/-- What a node has after a step it had before, or was offered. -/
theorem Kept.has_step (h : s.Kept R collection shardIdx schema)
    (hfits : FitsFrames e)
    (hstep : Step R xxh64 collection shardIdx schema s e s') {id : UInt64}
    {p : Hlc × Content} (hhas : s'.Has R collection shardIdx schema node id p) :
    s.Has R collection shardIdx schema node id p ∨
      ∃ req, s.Offers collection shardIdx node req e ∧ id = req.id ∧
        p = req.written := by
  obtain ⟨found, hfound, hp⟩ := hhas
  obtain ⟨regs, hkeeps, -⟩ := h.kept node
  have hslot := slot_step hstep node
  generalize s'.slot collection shardIdx node = slot at hslot hfound
  cases hslot with
  | same => exact .inl ⟨found, hfound, hp⟩
  | written hoffers =>
      obtain ⟨regs, regs', hkeeps, hkeeps', -, hfrom⟩ :=
        h.write node (h.fits hfits hoffers)
      rw [ShardSlot.keeps_unique hfound hkeeps'] at hp
      rcases hfrom id p hp with hold | hnew
      · exact .inl ⟨regs, hkeeps, hold⟩
      · exact .inr ⟨_, hoffers, hnew⟩
  | opened _ hopened =>
      obtain ⟨shard, rfl, hshard⟩ := hopened regs hkeeps
      rw [ShardSlot.keeps_unique hfound hshard] at hp
      exact .inl ⟨regs, hkeeps, hp⟩
  | dropped =>
      have hdropped := ShardStore.keeps_dropShard hkeeps
      rw [ShardSlot.keeps_unique hfound hdropped] at hp
      exact .inl ⟨regs, hkeeps, hp⟩

/-- A node holds on to a stamp until it drops the shard. -/
theorem Kept.holds_step (h : s.Kept R collection shardIdx schema)
    (hstep : Step R xxh64 collection shardIdx schema s e s')
    (hne : e ≠ .dropShard node) {id : UInt64} {t : Hlc}
    (hholds : s.Holds collection shardIdx node id t) :
    s'.Holds collection shardIdx node id t := by
  obtain ⟨regs, hkeeps, -⟩ := h.kept node
  have hslot := slot_step hstep node
  unfold Holds at hholds ⊢
  generalize s'.slot collection shardIdx node = slot at hslot ⊢
  cases hslot with
  | same => exact hholds
  | written => exact ShardStore.atLeast_write hholds
  | opened _ hopened =>
      obtain ⟨shard, rfl, hshard⟩ := hopened regs hkeeps
      have hregs := hkeeps.atLeast hholds
      rw [← hshard.2] at hregs
      exact hregs
  | dropped heq => exact absurd heq hne

/-- A node carries on what it carries, as long as it pulls from sources that
hold it. -/
theorem Carries.step {id : UInt64} {t : Hlc}
    (h : s.Carries collection shardIdx node id t)
    (hkept : s.Kept R collection shardIdx schema)
    (hstep : Step R xxh64 collection shardIdx schema s e s')
    (hsource : e = .stream node → ∀ source sources,
      s.stage node = .acquiring (source :: sources) →
        s.Holds collection shardIdx source.1 id t) :
    s'.Carries collection shardIdx node id t := by
  constructor
  · intro hwhole
    obtain ⟨hne, hbefore | ⟨sources, hstage⟩⟩ := whole_step hstep hwhole
    · exact hkept.holds_step hstep hne (h.1 hbefore)
    · -- all that the pull has reached is held
      apply hkept.holds_step hstep hne
      rcases h.2 ⟨_, _, hstage⟩ with hholds | ⟨row, hrow, -⟩
      · exact hholds
      · rw [pending_of_pulling hstage] at hrow
        simp at hrow
  · intro hpulling
    obtain ⟨hne, hpull⟩ := pull_step hstep hpulling
    have hholds : s.Holds collection shardIdx node id t →
        s'.Reaches collection shardIdx node id t :=
      fun hholds => .inl (hkept.holds_step hstep hne hholds)
    cases hpull with
    | kept hstage =>
        have hbefore : s.Pulling node := by
          rwa [Pulling, ← hstage]
        rcases h.2 hbefore with hmem | hrow
        · exact hholds hmem
        · right
          rwa [pending, hstage]
    | begun he hbefore hstream hstage =>
        obtain ⟨row, hrow, hreach⟩ := (hkept.streamed hstream).2 id t
          (hsource he _ _ hbefore)
        right
        rw [pending_of_pulling hstage]
        exact ⟨row, hrow, hreach⟩
    | applied hbefore hstage hrow =>
        rcases h.2 ⟨_, _, hbefore⟩ with hmem | ⟨row', hrow', hid, hle⟩
        · exact hholds hmem
        · rw [pending_of_pulling hbefore] at hrow'
          rcases List.mem_cons.mp hrow' with rfl | htail
          · left
            rw [← hid]
            exact AtLeast.mono hrow hle
          · right
            rw [pending_of_pulling hstage]
            exact ⟨row', htail, hid, hle⟩

end Kept

end Rebalance

end Quorvec
