import Quorvec.Node.Carries
import Quorvec.Node.CutOver
import Quorvec.Node.Quiescence

/-!
# Which shards a pass takes for settled

A node that becomes a replica is active until its pass commits `Syncing`.  A
write or a read that opens its shard before that makes the shard look settled,
and so does a shard that is left from an earlier tenure.
-/

namespace Quorvec

open LastWriterWins ByteCodec

theorem ShardStore.materialized_dropShard (st : ShardStore)
    {collection : String} {shardIdx : UInt32} :
    ((st.dropShard collection shardIdx).slots
      { collection, shardIdx }).materialized = false := by
  unfold dropShard
  split
  · rw [slots_put_self]
    rfl
  · next dir hslot =>
      rw [hslot]
      rfl

namespace Rebalance

section Claim

variable (R : Runtime) (xxh64 : Bytes → UInt64) (collection : String)
variable (shardIdx : UInt32) (schema : CollectionSchema)

/-- The node is between the commit of `Syncing` and the end of its
transfer. -/
def Transferring (s : Rebalance) (node : NodeId) : Prop :=
  (∃ sources, s.stage node = .acquiring sources) ∨
    ∃ sources rows, s.stage node = .pulling sources rows

/-- The node has become a replica, and has not begun to acquire its shard. -/
def Fresh (s : Rebalance) (node : NodeId) : Prop :=
  s.tenure node = .joined ∧ ¬ s.Transferring node

/-- All calls succeed, and a node becomes a replica of a shard of which an
active replica has a live point. -/
def JoinsHeldShards (s : Rebalance) : RebalanceStep → Prop
  | .member req => ∀ node, s.Enters xxh64 collection shardIdx req node →
      ∃ peer ∈ (s.committed.apply req).1.replicasForShard xxh64 collection
          shardIdx, peer ≠ node ∧
        s.committed.shardState collection shardIdx peer = .active ∧
        (s.slot collection shardIdx peer).materialized = true
  | .unreachable _ => False
  | .giveUp _ => False
  | .found _ fate => fate = .committed
  | .syncing _ fate => fate = .committed
  | .cutOver _ fate => fate = .committed
  | _ => True

/-- What finds a fresh node leaves its shard closed or without a live point:
it has none when it becomes a replica, no write or read gives it one, and its
pass finds an active peer. -/
def AcquiresFirst (s : Rebalance) : RebalanceStep → Prop
  | .member req => ∀ node, s.Enters xxh64 collection shardIdx req node →
      s.Transferring node ∨
        (s.slot collection shardIdx node).materialized = false
  | .write node reading req => s.Fresh node →
      (((s.world node).applyReplicaWrite R reading req schema).1.shards.slots
        { collection, shardIdx }).materialized = false
  | .writeLocal node req => s.Fresh node →
      (((s.world node).shards.write R (shardRef collection shardIdx schema)
        req.op (Hlc.unpack req.hlc) req.id req.vector req.payload).1.slots
          { collection, shardIdx }).materialized = false
  | .read node => s.Fresh node →
      (((s.world node).shards.getOrOpen R
        (shardRef collection shardIdx schema)).1.slots
          { collection, shardIdx }).materialized = false
  | .found node _ => s.tenure node ≠ .joined
  | _ => True

/-- In every admitted run, a shard that a pass finds settled has been pulled
since the node became a replica of it. -/
def SettledMeansPulled
    (Admits : Rebalance → RebalanceStep → Prop) : Prop :=
  ∀ s, Run R xxh64 collection shardIdx schema Admits s →
    ∀ node snapshot, s.stage node = .begun snapshot →
      node ∈ snapshot.replicasForShard xxh64 collection shardIdx →
      s.Settled collection shardIdx snapshot node → s.tenure node ≠ .joined

end Claim

section Invariant

variable {R : Runtime} {xxh64 : Bytes → UInt64} {collection : String}
variable {shardIdx : UInt32} {schema : CollectionSchema}
variable {s s' : Rebalance} {node : NodeId}

/-- The shard of a fresh node has no live point in memory. -/
def FreshUnopened (collection : String) (shardIdx : UInt32)
    (s : Rebalance) : Prop :=
  ∀ node, s.Fresh node →
    (s.slot collection shardIdx node).materialized = false

theorem not_transferring_of_idle (h : s.stage node = .idle) :
    ¬ s.Transferring node := by
  simp [Transferring, h]

theorem not_transferring_of_begun {snapshot : MetaState}
    (h : s.stage node = .begun snapshot) : ¬ s.Transferring node := by
  simp [Transferring, h]

theorem Transferring.setStage (h : s.Transferring node) {t : Rebalance}
    {changed : NodeId} {stage : Stage} (ht : t.stage = s.stage)
    (hsame : node = changed → (t.setStage changed stage).Transferring node) :
    (t.setStage changed stage).Transferring node := by
  by_cases hnode : node = changed
  · exact hsame hnode
  · rwa [Transferring, stage_setStage_of_ne hnode, ht]

/-- Without failing calls a transfer ends by cutting over only. -/
theorem transferring_step {e : RebalanceStep}
    (hjoins : s.JoinsHeldShards xxh64 collection shardIdx e)
    (hstep : Step R xxh64 collection shardIdx schema s e s')
    (hjoined : s'.tenure node = .joined) (h : s.Transferring node) :
    s'.Transferring node := by
  have hbegun : ∀ snapshot, s.stage node ≠ .begun snapshot :=
    fun snapshot hstage => not_transferring_of_begun hstage h
  cases hstep with
  | @beginPass changed hidle =>
      refine h.setStage rfl ?_
      rintro rfl
      exact absurd h (not_transferring_of_idle hidle)
  | @settled changed snapshot hstage =>
      refine h.setStage rfl ?_
      rintro rfl
      exact absurd hstage (hbegun snapshot)
  | @found changed snapshot fate hstage =>
      refine h.setStage ?_ ?_
      · rw [stage_setState, stage_setNode]
      · rintro rfl
        exact absurd hstage (hbegun snapshot)
  | @syncing changed snapshot fate hstage =>
      refine h.setStage (stage_setState _ _) ?_
      rintro rfl
      exact absurd hstage (hbegun snapshot)
  | unreachable => exact hjoins.elim
  | @stream changed source sources state rows hstage =>
      refine h.setStage rfl ?_
      rintro rfl
      exact .inr ⟨_, _, stage_setStage_self _⟩
  | @record changed reading sources row rows hstage =>
      refine h.setStage rfl ?_
      rintro rfl
      rw [Transferring, stage_setStage_self]
      split
      · exact .inr ⟨_, _, rfl⟩
      · exact .inl ⟨_, rfl⟩
  | @cutOver changed fate sources hstage =>
      refine h.setStage (stage_setState _ _) ?_
      rintro rfl
      rw [tenure_setStage, tenure_setState] at hjoined
      simp at hjoined
  | giveUp => exact hjoins.elim
  | @dropShard changed snapshot hstage =>
      refine h.setStage rfl ?_
      rintro rfl
      exact absurd hstage (hbegun snapshot)
  | @leave changed snapshot hstage =>
      refine h.setStage rfl ?_
      rintro rfl
      exact absurd hstage (hbegun snapshot)
  | _ => exact h

theorem unopened_setNode {changed : NodeId} {state : NodeState}
    (h : (s.slot collection shardIdx node).materialized = false)
    (hstate : node = changed →
      (state.shards.slots { collection, shardIdx }).materialized = false) :
    ((s.setNode changed state).slot collection shardIdx
      node).materialized = false := by
  by_cases hnode : node = changed
  · rw [hnode, slot_setNode_self]
    exact hstate hnode
  · rw [slot_setNode_of_ne hnode]
    exact h

/-- One step. -/
theorem FreshUnopened.step (h : s.FreshUnopened collection shardIdx)
    {e : RebalanceStep}
    (hjoins : s.JoinsHeldShards xxh64 collection shardIdx e)
    (hfirst : s.AcquiresFirst R xxh64 collection shardIdx schema e)
    (hstep : Step R xxh64 collection shardIdx schema s e s') :
    s'.FreshUnopened collection shardIdx := by
  rintro node ⟨hjoined, hstill'⟩
  have hstill : ¬ s.Transferring node :=
    mt (transferring_step hjoins hstep hjoined) hstill'
  have hslot := slot_step hstep node
  rcases joined_step hstep hjoined with hold | hnew
  · have hclosed := h node ⟨hold, hstill⟩
    have hkeeps : (∀ req, ¬ s.Offers collection shardIdx node req e) →
        e ≠ .read node →
        (s'.slot collection shardIdx node).materialized = false := by
      intro hoffers hread
      generalize s'.slot collection shardIdx node = slot at hslot ⊢
      cases hslot with
      | same => exact hclosed
      | written hreq => exact absurd hreq (hoffers _)
      | opened he =>
          rcases he with he | ⟨fate, rfl⟩
          · exact absurd he hread
          · exact absurd hold hfirst
      | dropped => exact ShardStore.materialized_dropShard _
    cases hstep with
    | write =>
        apply unopened_setNode hclosed
        rintro rfl
        exact hfirst ⟨hold, hstill⟩
    | writeLocal =>
        apply unopened_setNode hclosed
        rintro rfl
        exact hfirst ⟨hold, hstill⟩
    | read =>
        apply unopened_setNode hclosed
        rintro rfl
        exact hfirst ⟨hold, hstill⟩
    | record =>
        refine hkeeps ?_ (by simp)
        rintro req ⟨rfl, sources, row, rows, hstage, -⟩
        exact hstill (.inr ⟨_, _, hstage⟩)
    | _ => exact hkeeps (fun _ => id) (by simp)
  · cases hstep with
    | member => exact (hfirst node hnew).resolve_left hstill
    | _ => exact hnew.elim

theorem Run.freshUnopened
    (hrun : Run R xxh64 collection shardIdx schema (fun s e =>
      s.JoinsHeldShards xxh64 collection shardIdx e ∧
        s.AcquiresFirst R xxh64 collection shardIdx schema e) s) :
    s.FreshUnopened collection shardIdx := by
  apply hrun.invariant
  · rintro s hinit node ⟨hjoined, -⟩
    rw [hinit.original] at hjoined
    simp at hjoined
  · intro s e s' h hadmits hstep
    exact h.step hadmits.1 hadmits.2 hstep

end Invariant

end Rebalance

/-- Where a node acquires its shard before anything else opens it, what a pass
finds settled has been pulled. -/
theorem settledMeansPulled_of_acquiresFirst (R : Runtime)
    (xxh64 : Bytes → UInt64) (collection : String) (shardIdx : UInt32)
    (schema : CollectionSchema) :
    Rebalance.SettledMeansPulled R xxh64 collection shardIdx schema
      fun s e => s.JoinsHeldShards xxh64 collection shardIdx e ∧
        s.AcquiresFirst R xxh64 collection shardIdx schema e := by
  intro s hrun node snapshot hbegun _ hsettled hjoined
  have hclosed := hrun.freshUnopened node
    ⟨hjoined, Rebalance.not_transferring_of_begun hbegun⟩
  rw [hsettled.2] at hclosed
  simp at hclosed

/-! ## A write before the first pass -/

namespace Rebalance

section Overtaken

variable {R : Runtime} {xxh64 : Bytes → UInt64}

/-- The first node alone, with the collection of the pair. -/
def firstMeta : MetaState where
  nodes := (∅ : Std.ExtTreeMap NodeId String).insert 1 "a"
  collections :=
    (∅ : Std.ExtTreeMap String CollectionSchema).insert "c" pairSchema
  shardStates := ∅

def firstStart : Rebalance where
  world _ :=
    { metadata := firstMeta
      shards := ShardStore.new 0 0
      clock := Hlc.zero
      hintLog := none }
  committed := firstMeta
  inbox _ := []
  stage _ := .idle
  tenure _ := .original

/-- The upsert of the one point. -/
def pointReq : ReplicaWriteRequest where
  collection := "c"
  shardIdx := 0
  op := ShardStore.opUpsert
  id := 7
  hlc := (Hlc.new 1 0).pack
  vector := [0]
  payload := []

theorem materialized_pointReq (R : Runtime) (s : NodeState)
    (hunused : s.shards = ShardStore.new 0 0) :
    ((s.applyReplicaWrite R 0 pointReq pairSchema).1.shards.slots
      { collection := "c", shardIdx := 0 }).materialized = true := by
  obtain ⟨shard, hslot, hkeeps⟩ := exists_onePoint R
  have hpoint : (s.applyReplicaWrite R 0 pointReq pairSchema).1.shards =
      onePoint R := by
    rw [NodeState.shards_applyReplicaWrite, hunused]
    rfl
  rw [hpoint, hslot]
  apply decide_eq_true
  rw [Shard.len_pos_iff hkeeps.1.valid, hkeeps.2]
  exact ⟨7, (Hlc.new 1 0, some [0]), rfl, rfl⟩

theorem mem_replicas_firstMeta (node : NodeId) :
    node ∈ firstMeta.replicasForShard xxh64 "c" 0 ↔ node = 1 := by
  rw [@MetaState.mem_replicas_iff xxh64 firstMeta "c" 0 pairSchema
    (by decide +kernel) (by decide +kernel), firstMeta,
    Std.ExtTreeMap.mem_insert, Std.compare_eq_iff_eq]
  simp [eq_comm]

theorem mem_replicas_pairMeta (node : NodeId) :
    node ∈ pairMeta.replicasForShard xxh64 "c" 0 ↔ node = 1 ∨ node = 2 := by
  rw [@MetaState.mem_replicas_iff xxh64 pairMeta "c" 0 pairSchema
    (by decide +kernel) (by decide +kernel), pairMeta,
    Std.ExtTreeMap.mem_insert, Std.ExtTreeMap.mem_insert,
    Std.compare_eq_iff_eq, Std.compare_eq_iff_eq]
  simp [eq_comm, or_comm]

theorem initial_firstStart : firstStart.Initial "c" 0 pairSchema where
  dim_pos := by decide
  known := Std.ExtTreeMap.getElem?_insert_self
  active _ := rfl
  metadata_eq _ := rfl
  unused _ := rfl
  inbox _ := rfl
  idle _ := rfl
  original _ := rfl

/-! ### A node that pulls first -/

/-- The first node after it has taken the point. -/
def takenPoint (R : Runtime) : NodeState :=
  ((firstStart.world 1).applyReplicaWrite R 0 pointReq pairSchema).1

def pointTaken (R : Runtime) : Rebalance := firstStart.setNode 1 (takenPoint R)

/-- The steps by which the second node joins, records that it syncs, pulls from
the first one, and begins its next pass. -/
structure AdmitsJoin (R : Runtime) (xxh64 : Bytes → UInt64)
    (Admits : Rebalance → RebalanceStep → Prop) : Prop where
  write : Admits firstStart (.write 1 0 pointReq)
  member : Admits (pointTaken R) (.member (.registerNode 2 "b"))
  learn : ∀ s node, Admits s (.learn node)
  beginPass : ∀ s, Admits s (.beginPass 2)
  syncing : ∀ s, Admits s (.syncing 2 .committed)
  stream : ∀ s, s.stage 2 = .acquiring [(1, "a")] →
    1 ∈ s.replicas xxh64 "c" 0 → s.Whole 1 → Admits s (.stream 2)
  record : ∀ s, 2 ∈ s.replicas xxh64 "c" 0 → Admits s (.record 2 0)
  cutOver : ∀ s, Admits s (.cutOver 2 .committed)

/-- Nothing but the data of a node, and its stage, is another. -/
structure SameBut (node : NodeId) (s s' : Rebalance) : Prop where
  committed : s'.committed = s.committed
  inbox : s'.inbox = s.inbox
  tenure : s'.tenure = s.tenure
  metadata : (s'.world node).metadata = (s.world node).metadata

theorem SameBut.trans {node : NodeId} {s s' s'' : Rebalance}
    (h : SameBut node s s') (h' : SameBut node s' s'') : SameBut node s s'' :=
  ⟨h'.committed.trans h.committed, h'.inbox.trans h.inbox,
    h'.tenure.trans h.tenure, h'.metadata.trans h.metadata⟩

/-- The records of an answer are applied one after the other. -/
theorem Run.pullRows {collection : String} {shardIdx : UInt32}
    {schema : CollectionSchema} {Admits : Rebalance → RebalanceStep → Prop}
    (hdim : 0 < schema.dim.toNat) {node : NodeId}
    {sources : List (NodeId × String)} {rows : List Shard.ShardRecordRow}
    (hrows : ∀ row ∈ rows, ∀ v, row.written.2 = some v →
      v.length = schema.dim.toNat) {s : Rebalance}
    (hrecord : ∀ s', s'.committed = s.committed → Admits s' (.record node 0))
    (hrun : Run R xxh64 collection shardIdx schema Admits s)
    (hslot : (s.slot collection shardIdx node).Valid schema.dim.toNat)
    (hstage : s.stage node = .pulling sources rows) :
    ∃ s', Run R xxh64 collection shardIdx schema Admits s' ∧
      SameBut node s s' ∧ s'.stage node = .pulling sources [] ∧
      (s'.slot collection shardIdx node).registers =
        (rows.map fun row => (row.id, row.written)).foldl (deliverWith offer)
          (s.slot collection shardIdx node).registers ∧
      (s'.slot collection shardIdx node).Valid schema.dim.toNat := by
  induction rows generalizing s with
  | nil => exact ⟨s, hrun, ⟨rfl, rfl, rfl, rfl⟩, hstage, rfl, hslot⟩
  | cons row rows ih =>
      obtain ⟨shards, hpull, hvalid, hreg, -⟩ :=
        NodeState.pullRecord_of_valid (R := R) hdim hslot 0
          (hrows row List.mem_cons_self)
      let state : NodeState := { s.world node with
        shards
        clock := HlcClock.update (s.world node).clock 0 row.hlc }
      let next : Rebalance := (s.setNode node state).setStage node
        (.pulling sources rows)
      have hnext : Run R xxh64 collection shardIdx schema Admits next := by
        have hstep := hrun.step (.record node 0) (hrecord s rfl)
          (.record hstage)
        rwa [hpull] at hstep
      have hslot' : next.slot collection shardIdx node =
          shards.slots { collection, shardIdx } := by
        rw [slot_setStage, slot_setNode_self]
      obtain ⟨s', hrun', hsame, hstage', hreg', hvalid'⟩ :=
        ih (s := next) (fun r hr => hrows r (List.mem_cons_of_mem row hr))
          hrecord hnext (by rwa [hslot']) (stage_setStage_self _)
      have hworld : next.world node = state := world_setNode_self s node state
      have hfirst : SameBut node s next := ⟨rfl, rfl, rfl, by rw [hworld]⟩
      refine ⟨s', hrun', hfirst.trans hsame, hstage', ?_, hvalid'⟩
      · rw [hreg', hslot', hreg]
        rfl

/-- The records of a shard that has one point leave the point behind. -/
theorem registers_of_onePoint {rows : List Shard.ShardRecordRow}
    (hmem : ∀ row, row ∈ rows ↔ ∃ p, onePointRegs row.id = some p ∧
      row = Shard.rowOf row.id p) :
    (rows.map fun row => (row.id, row.written)).foldl (deliverWith offer)
      (fun _ => none) 7 = some (Hlc.new 1 0, some [0]) := by
  have hwinner := isWinner_deliver (fun _ => none)
    (rows.map fun row => (row.id, row.written)) (7 : UInt64)
  have hrow := (hmem (Shard.rowOf 7 (Hlc.new 1 0, some [0]))).mpr
    ⟨_, rfl, rfl⟩
  obtain ⟨q, hq, -⟩ := hwinner.atLeast (Hlc.new 1 0, some [0])
    (.inr (List.mem_map.mpr ⟨_, hrow, by rw [Shard.written_rowOf]; rfl⟩))
  rw [hq]
  rcases hwinner.mem q hq with hnone | hoffered
  · simp at hnone
  · obtain ⟨row, hrow', heq⟩ := List.mem_map.mp hoffered
    obtain ⟨p, hp, hrowOf⟩ := (hmem row).mp hrow'
    obtain ⟨hid, rfl⟩ := Prod.mk.inj heq
    rw [hid] at hp hrowOf
    rw [hrowOf, Shard.written_rowOf, ← hp]
    rfl

/-- A valid slot with a live point is materialized. -/
theorem materialized_of_valid {slot : ShardSlot} {dim : ℕ}
    (h : slot.Valid dim) {id : UInt64} {t : Hlc} {vector : List F32}
    (hlive : slot.registers id = some (t, some vector)) :
    slot.materialized = true := by
  cases h with
  | unused => simp [ShardSlot.registers] at hlive
  | opened hvalid hdim =>
      apply decide_eq_true
      rw [Shard.len_pos_iff hvalid]
      exact ⟨id, _, hlive, rfl⟩

/-- The second node joins, pulls the point, and finds its shard settled in its
next pass. -/
theorem exists_joined {Admits : Rebalance → RebalanceStep → Prop}
    (hadmits : AdmitsJoin R xxh64 Admits) :
    ∃ s snapshot, Run R xxh64 "c" 0 pairSchema Admits s ∧
      2 ∈ s.replicas xxh64 "c" 0 ∧ s.tenure 2 = .pulled ∧
      s.stage 2 = .begun snapshot ∧
      2 ∈ snapshot.replicasForShard xxh64 "c" 0 ∧
      s.Settled "c" 0 snapshot 2 := by
  let s₁ : Rebalance := (pointTaken R).commit xxh64 "c" 0 (.registerNode 2 "b")
  have hreplica : ∀ node, node ∈ s₁.replicas xxh64 "c" 0 ↔
      node = 1 ∨ node = 2 := mem_replicas_pairMeta
  have hrun₁ : Run R xxh64 "c" 0 pairSchema Admits s₁ :=
    ((Run.init initial_firstStart).step (.write 1 0 pointReq) hadmits.write
      (.write rfl)).step (.member (.registerNode 2 "b")) hadmits.member
        (.member (.registerNode 2 "b"))
  have hne : (2 : NodeId) ≠ 1 := by decide
  have hworld : s₁.world 2 = firstStart.world 2 :=
    world_setNode_of_ne firstStart hne (takenPoint R)
  let learned : NodeState := { s₁.world 2 with metadata := pairMeta }
  let s₂ : Rebalance :=
    { s₁.setNode 2 learned with inbox := Function.update s₁.inbox 2 [] }
  have hrun₂ : Run R xxh64 "c" 0 pairSchema Admits s₂ :=
    hrun₁.step (.learn 2) (hadmits.learn s₁ 2)
      (.learn (show s₁.inbox 2 = .registerNode 2 "b" :: [] from rfl))
  have hworld₂ : s₂.world 2 = learned := world_setNode_self s₁ 2 learned
  let s₃ : Rebalance := s₂.setStage 2 (.begun pairMeta)
  have hrun₃ : Run R xxh64 "c" 0 pairSchema Admits s₃ := by
    have hstep := hrun₂.step (.beginPass 2) (hadmits.beginPass s₂)
      (.beginPass rfl)
    rwa [hworld₂] at hstep
  have hslot : s₂.slot "c" 0 2 = .closed .empty := by
    show (s₂.world 2).shards.slots _ = _
    rw [hworld₂]
    show (s₁.world 2).shards.slots _ = _
    rw [hworld]
    rfl
  have hunsettled : ¬ s₃.Settled "c" 0 pairMeta 2 := by
    rintro ⟨-, hmaterialized⟩
    rw [show s₃.slot "c" 0 2 = .closed .empty from hslot] at hmaterialized
    simp [ShardSlot.materialized] at hmaterialized
  let s₄ : Rebalance := (s₃.setState xxh64 "c" 0 2 .syncing .committed).setStage
    2 (.acquiring [(1, "a")])
  have hrun₄ : Run R xxh64 "c" 0 pairSchema Admits s₄ := by
    have hstep := hrun₃.step (.syncing 2 .committed) (hadmits.syncing s₃)
      (.syncing (stage_setStage_self _) ((mem_replicas_pairMeta 2).mpr
        (.inr rfl)) hunsettled (by simp [transferSources_pairMeta_second]))
    rwa [transferSources_pairMeta_second] at hstep
  have hreplica₄ : ∀ node, node ∈ s₄.replicas xxh64 "c" 0 ↔
      node = 1 ∨ node = 2 := by
    intro node
    rw [replicas, show s₄.committed = (s₁.committed.apply (.setShardState "c" 0
      2 .syncing)).1 from rfl, replicas_setShardState]
    exact hreplica node
  have htenure : s₄.tenure 1 = .original := by
    rw [tenure_setStage, tenure_setState]
    apply if_neg
    exact fun henters => henters.1 ((mem_replicas_firstMeta 1).mpr rfl)
  -- the first node answers with its point
  obtain ⟨shard, hshard, hkeeps⟩ := exists_onePoint R
  have hfirst : (s₄.world 1).shards = onePoint R := by
    have hpoint : s₁.world 1 = takenPoint R :=
      world_setNode_self firstStart 1 (takenPoint R)
    have hsame : s₄.world 1 = s₁.world 1 :=
      world_setNode_of_ne s₁ hne.symm learned
    rw [hsame, hpoint, takenPoint, NodeState.shards_applyReplicaWrite]
    rfl
  have hregs : ((s₄.world 1).shards.slots
      { collection := "c", shardIdx := 0 }).registers = onePointRegs := by
    rw [hfirst, hshard]
    exact hkeeps.2
  have hdim : ((s₄.world 1).shards.slots
      { collection := "c", shardIdx := 0 }).HasDim R pairSchema.dim.toNat := by
    rw [hfirst, hshard]
    exact .opened hkeeps.1.valid hkeeps.1.dim_eq
  obtain ⟨rows, hstream, hmem, hdims⟩ :=
    NodeState.streamShard_of_hasDim (by decide) hdim
  let s₅ : Rebalance :=
    (s₄.setNode 1 (s₄.world 1)).setStage 2 (.pulling [] rows)
  have hrun₅ : Run R xxh64 "c" 0 pairSchema Admits s₅ :=
    hrun₄.step (.stream 2) (hadmits.stream s₄ (stage_setStage_self _)
      ((hreplica₄ 1).mpr (.inl rfl)) (.inl htenure))
      (.stream (stage_setStage_self _) hstream)
  have hslot₅ : s₅.slot "c" 0 2 = .closed .empty := by
    rw [slot_setStage, slot_setNode_of_ne hne, slot_setStage]
    exact hslot
  obtain ⟨s₆, hrun₆, hsame, hstage₆, hreg₆, hvalid₆⟩ := hrun₅.pullRows
    (by decide) hdims (fun s hcommitted => hadmits.record s (by
      rw [replicas, hcommitted]
      exact (hreplica₄ 2).mpr (.inr rfl)))
    (hslot₅ ▸ .unused) (stage_setStage_self _)
  have hpoint : (s₆.slot "c" 0 2).registers 7 =
      some (Hlc.new 1 0, some [0]) := by
    rw [hreg₆, hslot₅]
    exact registers_of_onePoint (fun row => (hmem row).trans (by rw [hregs]))
  let s₇ : Rebalance := ({ s₆ with
    tenure := Function.update s₆.tenure 2 .pulled }.setState xxh64 "c" 0 2
      .active .committed).setStage 2 .idle
  have hrun₇ : Run R xxh64 "c" 0 pairSchema Admits s₇ :=
    hrun₆.step (.cutOver 2 .committed) (hadmits.cutOver s₆) (.cutOver hstage₆)
  obtain ⟨s₈, hrun₈, happlied, -, hmeta⟩ := hrun₇.catchUp hadmits.learn 2
  have hsnapshot : (s₈.world 2).metadata = ((pairMeta.apply
      (.setShardState "c" 0 2 .syncing)).1.apply
        (.setShardState "c" 0 2 .active)).1 := by
    have hinbox : s₇.inbox 2 = [.setShardState "c" 0 2 .syncing,
        .setShardState "c" 0 2 .active] := by
      show s₆.inbox 2 ++ _ = _
      rw [hsame.inbox]
      rfl
    have hkept : s₅.world 2 = learned :=
      (world_setNode_of_ne s₄ hne (s₄.world 1)).trans hworld₂
    have hpair : (s₇.world 2).metadata = pairMeta := by
      show (s₆.world 2).metadata = pairMeta
      rw [hsame.metadata, hkept]
    rw [hmeta, hinbox, hpair]
    rfl
  have hrun₉ := hrun₈.step (.beginPass 2) (hadmits.beginPass s₈)
    (.beginPass (happlied.stage ▸ stage_setStage_self _))
  refine ⟨_, _, hrun₉, ?_, ?_, stage_setStage_self _, ?_, ?_, ?_⟩
  · have hreplicas : s₈.replicas xxh64 "c" 0 = s₄.replicas xxh64 "c" 0 := by
      rw [replicas, happlied.committed]
      apply (replicas_setShardState s₆.committed .active).trans
      rw [hsame.committed]
      rfl
    show 2 ∈ s₈.replicas xxh64 "c" 0
    rw [hreplicas]
    exact (hreplica₄ 2).mpr (.inr rfl)
  · rw [tenure_setStage, happlied.tenure, tenure_setStage, tenure_setState]
    exact Function.update_self 2 Tenure.pulled s₆.tenure
  · rw [hsnapshot, replicas_setShardState, replicas_setShardState]
    exact (mem_replicas_pairMeta 2).mpr (.inr rfl)
  · rw [hsnapshot]
    exact (MetaState.shardState_setShardState ..).trans (if_pos ⟨rfl, rfl, rfl⟩)
  · rw [slot_setStage, happlied.slot, slot_setStage, slot_setState]
    exact materialized_of_valid hvalid₆ hpoint

theorem admitsJoin_of_acquiresFirst (R : Runtime) (xxh64 : Bytes → UInt64) :
    AdmitsJoin R xxh64 fun s e => s.JoinsHeldShards xxh64 "c" 0 e ∧
      s.AcquiresFirst R xxh64 "c" 0 pairSchema e where
  write := ⟨trivial, fun hfresh => absurd hfresh.1 (by decide)⟩
  member := by
    constructor
    · rintro node ⟨hold, -⟩
      refine ⟨1, (mem_replicas_pairMeta 1).mpr (.inl rfl), ?_, rfl, ?_⟩
      · rintro rfl
        exact hold ((mem_replicas_firstMeta 1).mpr rfl)
      · rw [pointTaken, slot_setNode_self]
        exact materialized_pointReq R _ rfl
    · rintro node ⟨hold, -⟩
      right
      have hne : node ≠ 1 := by
        rintro rfl
        exact hold ((mem_replicas_firstMeta 1).mpr rfl)
      rw [pointTaken, slot_setNode_of_ne hne]
      rfl
  learn _ _ := ⟨trivial, trivial⟩
  beginPass _ := ⟨trivial, trivial⟩
  syncing _ := ⟨rfl, trivial⟩
  stream _ _ _ _ := ⟨trivial, trivial⟩
  record _ _ := ⟨trivial, trivial⟩
  cutOver _ := ⟨rfl, trivial⟩

/-- A pass finds the shard settled after the node has joined and pulled. -/
theorem settledMeansPulled_of_acquiresFirst_joined (R : Runtime)
    (xxh64 : Bytes → UInt64) :
    ∃ (s : Rebalance) (snapshot : MetaState), Run R xxh64 "c" 0 pairSchema
        (fun s e => s.JoinsHeldShards xxh64 "c" 0 e ∧
          s.AcquiresFirst R xxh64 "c" 0 pairSchema e) s ∧
      s.stage 2 = .begun snapshot ∧ s.Settled "c" 0 snapshot 2 ∧
      2 ∉ firstStart.replicas xxh64 "c" 0 ∧ 2 ∈ s.replicas xxh64 "c" 0 ∧
      s.tenure 2 ≠ .joined := by
  obtain ⟨s, snapshot, hrun, hreplica, -, hstage, hlisted, hsettled⟩ :=
    exists_joined (admitsJoin_of_acquiresFirst R xxh64)
  refine ⟨s, snapshot, hrun, hstage, hsettled, ?_, hreplica,
    settledMeansPulled_of_acquiresFirst R xxh64 "c" 0 pairSchema s hrun 2
      snapshot hstage hlisted hsettled⟩
  exact fun h => absurd ((mem_replicas_firstMeta 2).mp h) (by decide)

/-- A write reaches the second node after it has joined and before its first
pass, which then finds the shard settled. -/
theorem not_settledMeansPulled : ¬ ∃ R xxh64, ∀ collection shardIdx schema,
    SettledMeansPulled R xxh64 collection shardIdx schema
      fun s e => s.JoinsHeldShards xxh64 collection shardIdx e := by
  rintro ⟨R, xxh64, hall⟩
  -- the first node takes the point
  let taken : NodeState :=
    ((firstStart.world 1).applyReplicaWrite R 0 pointReq pairSchema).1
  let s₁ : Rebalance := firstStart.setNode 1 taken
  have hpoint : (s₁.slot "c" 0 1).materialized = true := by
    rw [slot_setNode_self]
    exact materialized_pointReq R _ rfl
  let s₂ : Rebalance := s₁.commit xxh64 "c" 0 (.registerNode 2 "b")
  have hjoins : s₁.JoinsHeldShards xxh64 "c" 0
      (.member (.registerNode 2 "b")) := by
    rintro node ⟨hold, -⟩
    refine ⟨1, (mem_replicas_pairMeta 1).mpr (.inl rfl), ?_, rfl, hpoint⟩
    rintro rfl
    exact hold ((mem_replicas_firstMeta 1).mpr rfl)
  let s₃ : Rebalance :=
    { s₂.setNode 2 { s₂.world 2 with
        metadata := ((s₂.world 2).metadata.apply (.registerNode 2 "b")).1 }
      with inbox := Function.update s₂.inbox 2 [] }
  have hlearn : Step R xxh64 "c" 0 pairSchema s₂ (.learn 2) s₃ :=
    .learn (show s₂.inbox 2 = .registerNode 2 "b" :: [] from rfl)
  have hother : s₂.world 2 = firstStart.world 2 :=
    @world_setNode_of_ne 1 firstStart 2 (by decide) taken
  have hworld : s₃.world 2 =
      { firstStart.world 2 with metadata := pairMeta } := by
    apply (world_setNode_self s₂ 2 _).trans
    rw [hother]
    rfl
  let s₄ : Rebalance := s₃.setNode 2
    ((s₃.world 2).applyReplicaWrite R 0 pointReq pairSchema).1
  let s₅ : Rebalance := s₄.setStage 2 (.begun (s₄.world 2).metadata)
  have hmeta : (s₄.world 2).metadata = pairMeta := by
    have hself : s₄.world 2 =
        ((s₃.world 2).applyReplicaWrite R 0 pointReq pairSchema).1 :=
      world_setNode_self s₃ 2 _
    rw [hself, NodeState.metadata_applyReplicaWrite, hworld]
  have hrun : Run R xxh64 "c" 0 pairSchema
      (fun s e => s.JoinsHeldShards xxh64 "c" 0 e) s₅ := by
    apply Run.step (.beginPass 2) _ trivial (.beginPass rfl)
    apply Run.step (.write 2 0 pointReq) _ trivial (.write rfl)
    apply Run.step (.learn 2) _ trivial hlearn
    apply Run.step (.member (.registerNode 2 "b")) _ hjoins
      (.member (.registerNode 2 "b"))
    exact .step (.write 1 0 pointReq) (.init initial_firstStart) trivial
      (.write rfl)
  have htenure : s₅.tenure 2 = .joined := by
    apply if_pos
    exact ⟨fun h => absurd ((mem_replicas_firstMeta 2).mp h) (by decide),
      (mem_replicas_pairMeta 2).mpr (.inr rfl)⟩
  refine hall "c" 0 pairSchema s₅ hrun 2 pairMeta ?_
    ((mem_replicas_pairMeta 2).mpr (.inr rfl)) ⟨rfl, ?_⟩ htenure
  · rw [stage_setStage_self, hmeta]
  · rw [slot_setStage, slot_setNode_self, hworld]
    exact materialized_pointReq R _ rfl

end Overtaken

end Rebalance

end Quorvec
