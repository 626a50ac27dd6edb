import Quorvec.Node.Reads
import Quorvec.Node.Transfer

/-!
# The clock of a node

Upserts and deletes take their stamps from the node's clock.  Writes of peers
and pulled records are fed to it before they are applied; the versions that the
node's own reads return are not, and the clock starts again at zero when the
node does.

In a run without restarts a stamp exceeds what was fed to the clock, until the
clock wraps around at the end of its range.  What was only read, or was stamped
or stored before a restart, it exceeds when the wall clock has passed it.
-/

namespace Quorvec

open ByteCodec LastWriterWins

/-- What happens at a node. -/
inductive ClockStep
  /-- One point of an upsert is stamped. -/
  | upsert (reading : ℕ) (collection : String) (id : UInt64)
      (vector : List F32) (payload : Bytes)
  /-- One id of a delete is stamped. -/
  | delete (reading : ℕ) (collection : String) (id : UInt64)
  /-- A write of a peer arrives. -/
  | write (reading : ℕ) (req : ReplicaWriteRequest)
  /-- A record is pulled from a peer. -/
  | pull (reading : ℕ) (collection : String) (shardIdx : UInt32)
      (schema : CollectionSchema) (row : Shard.ShardRecordRow)
  /-- An id is read, with the peers as they are. -/
  | get (peers : World) (fate : NodeId → CallFate) (collection : String)
      (id : UInt64) (consistency : Consistency)
  /-- Anything that does not use the clock. -/
  | other (change : NodeState → NodeState)

/-- A node that starts; the clock is not stored. -/
def NodeState.new (metadata : MetaState) (shards : ShardStore)
    (hintLog : Option Bytes) : NodeState :=
  { metadata, shards, clock := Hlc.zero, hintLog }

namespace ClockStep

section Model

variable (R : Runtime) (xxh64 : Bytes → UInt64) (self : NodeId)

/-- What a read does and returns. -/
def readFrom (s : NodeState) (peers : World) (fate : NodeId → CallFate)
    (collection : String) (id : UInt64) (consistency : Consistency) :
    World × Responses × Except RouterError (Option StoredPoint) :=
  coordinateGet R xxh64 self fate (Function.update peers self s) collection id
    consistency

/-- The node after the step. -/
def apply (s : NodeState) : ClockStep → NodeState
  | .upsert reading collection id vector payload =>
      (s.stampUpsert xxh64 reading collection id vector payload).1
  | .delete reading collection id =>
      (s.stampDelete xxh64 reading collection id).1
  | .write reading req => (s.replicaWrite R reading req).1
  | .pull reading collection shardIdx schema row =>
      (s.pullRecord R reading collection shardIdx schema row).1
  | .get peers fate collection id consistency =>
      (readFrom R xxh64 self s peers fate collection id consistency).1 self
  | .other change => { change s with clock := s.clock }

/-- The stamp that the step takes from the clock. -/
def stamp (s : NodeState) : ClockStep → Option Hlc
  | .upsert reading collection id vector payload =>
      (s.stampUpsert xxh64 reading collection id vector payload).2.toOption.map
        fun req => Hlc.unpack req.hlc
  | .delete reading collection id =>
      (s.stampDelete xxh64 reading collection id).2.toOption.map
        fun req => Hlc.unpack req.hlc
  | _ => none

/-- The timestamps of the writes and records that the step applies. -/
def received (s : NodeState) : ClockStep → List Hlc
  | .write _ req =>
      match s.metadata.collections[req.collection]? with
      | some _ => [Hlc.unpack req.hlc]
      | none => []
  | .pull _ _ _ _ row => [row.hlc]
  | _ => []

/-- The timestamps of the versions that the step reads from replicas. -/
def read (s : NodeState) : ClockStep → List Hlc
  | .get peers fate collection id consistency =>
      ((readFrom R xxh64 self s peers fate collection id
        consistency).2.1.filterMap Prod.snd).map StoredPoint.hlc
  | _ => []

/-- What the system clock shows in the step. -/
def reading : ClockStep → Option ℕ
  | .upsert reading _ _ _ _ => some reading
  | .delete reading _ _ => some reading
  | .write reading _ => some reading
  | .pull reading _ _ _ _ => some reading
  | _ => none

end Model

end ClockStep

/-! ## Runs without a restart -/

/-- A node, and the timestamps it knows. -/
structure ClockRun where
  node : NodeState
  /-- What it has stamped or applied, and what it had read before its last
  stamp. -/
  known : List Hlc
  /-- What it has read since. -/
  read : List Hlc

namespace ClockRun

section Model

variable (R : Runtime) (xxh64 : Bytes → UInt64) (self : NodeId)

def step (s : ClockRun) (e : ClockStep) : ClockRun where
  node := e.apply R xxh64 self s.node
  known :=
    match e.stamp xxh64 s.node with
    | some stamp => stamp :: (s.read ++ s.known)
    | none => e.received s.node ++ s.known
  read :=
    match e.stamp xxh64 s.node with
    | some _ => []
    | none => e.read R xxh64 self s.node ++ s.read

/-- The runs since a start whose steps are all admitted. -/
inductive Run (Admits : ClockRun → ClockStep → Prop) : ClockRun → Prop
  | init (metadata : MetaState) (shards : ShardStore)
      (hintLog : Option Bytes) :
      Run Admits ⟨.new metadata shards hintLog, [], []⟩
  | step {s : ClockRun} (e : ClockStep) : Run Admits s → Admits s e →
      Run Admits (s.step R xxh64 self e)

/-- In every admitted run, a stamp exceeds every timestamp that the node has
stamped, applied or read before, so that its write supersedes them. -/
def Causal (Admits : ClockRun → ClockStep → Prop) : Prop :=
  ∀ s, Run R xxh64 self Admits s → ∀ e, Admits s e →
    ∀ stamp, e.stamp xxh64 s.node = some stamp → ∀ t ∈ s.known ++ s.read,
      t < stamp ∧ ∀ old new : Content,
        offer (some (t, old)) (stamp, new) = some (stamp, new)

/-- A stamp is taken from a clock that is not at the end of its range, and that
has reached the versions read since the last stamp, unless the wall clock has
passed them. -/
def Ahead (s : ClockRun) (e : ClockStep) : Prop :=
  ∀ stamp, e.stamp xxh64 s.node = some stamp →
    ∀ reading, e.reading = some reading →
      s.node.clock ≠ Hlc.greatest ∧ ∀ t ∈ s.read,
        t ≤ s.node.clock ∨ t.wallMs < HlcClock.wallNowMs reading

end Model

end ClockRun

/-! ## What a step does to the clock -/

section Clock

variable {R : Runtime} {xxh64 : Bytes → UInt64} {self : NodeId}

theorem NodeState.clock_readLocal (s : NodeState) (collection : String)
    (shardIdx : UInt32) (schema : CollectionSchema) (id : UInt64) :
    (s.readLocal R collection shardIdx schema id).1.clock = s.clock := by
  unfold readLocal
  split <;> rfl

theorem NodeState.clock_replicaGet (s : NodeState) (collection : String)
    (shardIdx : UInt32) (id : UInt64) :
    (s.replicaGet R collection shardIdx id).1.clock = s.clock := by
  unfold replicaGet
  split
  · rfl
  · next schema _ =>
      have hread := clock_readLocal (R := R) s collection shardIdx schema id
      split
      all_goals
        next hcase =>
          rw [hcase] at hread
          exact hread

theorem clock_readOneReplica (fate : CallFate) (w : World)
    (node : NodeId) (collection : String) (shardIdx : UInt32) (id : UInt64)
    (schema : CollectionSchema) (other : NodeId) :
    ((readOneReplica R self fate w node collection shardIdx id schema).1
      other).clock = (w other).clock := by
  have hupdate : ∀ state : NodeState, state.clock = (w node).clock →
      (Function.update w node state other).clock = (w other).clock := by
    intro state hstate
    by_cases hother : other = node
    · rw [hother, Function.update_self, hstate]
    · rw [Function.update_of_ne hother]
  have hlocal := NodeState.clock_readLocal (R := R) (w node) collection shardIdx
    schema id
  have hremote := NodeState.clock_replicaGet (R := R) (w node) collection
    shardIdx id
  unfold readOneReplica
  split_ifs
  · split
    all_goals
      next hcase =>
        rw [hcase] at hlocal
        exact hupdate _ hlocal
  · split
    · rfl
    · exact hupdate _ hremote
    · split
      all_goals
        next hcase =>
          rw [hcase] at hremote
          exact hupdate _ hremote

theorem clock_readReplicas (fate : NodeId → CallFate) (collection : String)
    (shardIdx : UInt32) (id : UInt64) (schema : CollectionSchema)
    (replicas : List (NodeId × String)) (w : World) (other : NodeId) :
    ((readReplicas R self fate collection shardIdx id schema replicas w).1
      other).clock = (w other).clock := by
  induction replicas generalizing w with
  | nil => rfl
  | cons replica replicas ih =>
      have hone := @clock_readOneReplica R self (fate replica.1) w replica.1
        collection shardIdx id schema other
      rw [readReplicas]
      split
      all_goals
        next hcase =>
          rw [hcase] at hone
          exact (ih _).trans hone

theorem clock_coordinateGet (fate : NodeId → CallFate) (w : World)
    (collection : String) (id : UInt64) (consistency : Consistency)
    (other : NodeId) :
    ((coordinateGet R xxh64 self fate w collection id consistency).1
      other).clock = (w other).clock := by
  unfold coordinateGet
  split
  · rfl
  · dsimp only
    split_ifs
    · rfl
    · exact clock_readReplicas _ _ _ _ _ _ _ _

namespace ClockStep

variable {s : NodeState} {e : ClockStep}

/-- A step takes the next stamp from the clock and leaves the clock there, or
keeps the clock ahead of what it applies. -/
theorem clock_cases (R : Runtime) (xxh64 : Bytes → UInt64) (self : NodeId)
    (s : NodeState) (e : ClockStep) :
    (∃ reading, e.reading = some reading ∧
        e.stamp xxh64 s = some (HlcClock.now s.clock reading) ∧
        (e.apply R xxh64 self s).clock = HlcClock.now s.clock reading) ∨
      e.stamp xxh64 s = none ∧ s.clock ≤ (e.apply R xxh64 self s).clock ∧
        ∀ t ∈ e.received s, t ≤ (e.apply R xxh64 self s).clock := by
  rcases e with ⟨reading, collection, id, vector, payload⟩ |
    ⟨reading, collection, id⟩ | ⟨reading, req⟩ |
    ⟨reading, collection, shardIdx, schema, row⟩ |
    ⟨peers, fate, collection, id, consistency⟩ | change
  · simp only [stamp, apply, received, ClockStep.reading,
      NodeState.stampUpsert]
    rcases s.metadata.collections[collection]? with _ | schema
    · right
      simp [Except.toOption]
    · dsimp only
      split_ifs with hdim
      · right
        simp [Except.toOption]
      · left
        exact ⟨reading, rfl, by simp [Except.toOption], rfl⟩
  · simp only [stamp, apply, received, ClockStep.reading,
      NodeState.stampDelete]
    rcases s.metadata.collections[collection]? with _ | schema
    · right
      simp [Except.toOption]
    · left
      exact ⟨reading, rfl, by simp [Except.toOption], rfl⟩
  · right
    obtain ⟨hlast, hremote⟩ := HlcClock.le_update
    rcases hschema : s.metadata.collections[req.collection]? with _ | schema
    · simp [stamp, apply, received, NodeState.replicaWrite, hschema]
    · have hclock := NodeState.clock_applyReplicaWrite R reading s req schema
      rw [← NodeState.replicaWrite_of_known hschema] at hclock
      simp only [stamp, apply, received, hschema, hclock]
      simpa using ⟨hlast, hremote⟩
  · right
    obtain ⟨hlast, hremote⟩ := HlcClock.le_update
    have hclock := @NodeState.clock_pullRecord R s collection shardIdx schema
      reading row
    simp only [stamp, apply, received, hclock]
    simpa using ⟨hlast, hremote⟩
  · right
    have hclock := @clock_coordinateGet R xxh64 self fate
      (Function.update peers self s) collection id consistency self
    rw [Function.update_self] at hclock
    simp only [stamp, apply, received, readFrom, hclock]
    simp
  · right
    simp [stamp, apply, received]

/-- The timestamps that a stamp exceeds. -/
theorem lt_stamp_iff {stamp : Hlc} {reading : ℕ}
    (hstamp : e.stamp xxh64 s = some stamp)
    (hreading : e.reading = some reading) {t : Hlc} :
    t < stamp ↔ s.clock ≠ Hlc.greatest ∧
      (t ≤ s.clock ∨ t.wallMs < HlcClock.wallNowMs reading) := by
  rcases clock_cases Runtime.constant xxh64 0 s e with
    ⟨reading', hreading', hstamp', -⟩ | ⟨hnone, -⟩
  · rw [hreading, Option.some.injEq] at hreading'
    rw [hstamp, Option.some.injEq] at hstamp'
    rw [hstamp', ← hreading']
    exact HlcClock.lt_now_iff
  · rw [hstamp] at hnone
    simp at hnone

theorem exists_reading {stamp : Hlc} (hstamp : e.stamp xxh64 s = some stamp) :
    ∃ reading, e.reading = some reading := by
  rcases clock_cases Runtime.constant xxh64 0 s e with
    ⟨reading, hreading, -⟩ | ⟨hnone, -⟩
  · exact ⟨reading, hreading⟩
  · rw [hstamp] at hnone
    simp at hnone

theorem clock_of_stamp {stamp : Hlc} (R : Runtime) (self : NodeId)
    (hstamp : e.stamp xxh64 s = some stamp) :
    (e.apply R xxh64 self s).clock = stamp := by
  rcases clock_cases R xxh64 self s e with
    ⟨reading, -, hstamp', hclock⟩ | ⟨hnone, -⟩
  · rw [hstamp, Option.some.injEq] at hstamp'
    rw [hstamp', hclock]
  · rw [hstamp] at hnone
    simp at hnone

end ClockStep

namespace ClockRun

variable {s : ClockRun} {e : ClockStep} {Admits : ClockRun → ClockStep → Prop}

/-- A stamp exceeds all that the node knows exactly if it is taken ahead of
what was read. -/
theorem lt_stamp_iff_ahead (h : ∀ t ∈ s.known, t ≤ s.node.clock)
    {stamp : Hlc} (hstamp : e.stamp xxh64 s.node = some stamp)
    (hknown : s.known ++ s.read ≠ []) :
    (∀ t ∈ s.known ++ s.read, t < stamp) ↔ s.Ahead xxh64 e := by
  obtain ⟨reading, hreading⟩ := ClockStep.exists_reading hstamp
  have hlt := fun t => ClockStep.lt_stamp_iff (t := t) hstamp hreading
  constructor
  · intro hall stamp' hstamp' reading' hreading'
    rw [hreading, Option.some.injEq] at hreading'
    subst hreading'
    obtain ⟨t, ht⟩ := List.exists_mem_of_ne_nil _ hknown
    refine ⟨((hlt t).mp (hall t ht)).1, fun t ht => ?_⟩
    exact ((hlt t).mp (hall t (List.mem_append_right _ ht))).2
  · intro hahead t ht
    obtain ⟨hclock, hread⟩ := hahead stamp hstamp reading hreading
    apply (hlt t).mpr
    rcases List.mem_append.mp ht with ht | ht
    · exact ⟨hclock, .inl (h t ht)⟩
    · exact ⟨hclock, hread t ht⟩

/-- The clock stays ahead of what the node knows. -/
theorem Run.known_le (h : Run R xxh64 self (Ahead xxh64) s) :
    ∀ t ∈ s.known, t ≤ s.node.clock := by
  induction h with
  | init metadata shards hintLog => simp
  | @step s e hrun hahead ih =>
      intro t ht
      rcases hstamp : e.stamp xxh64 s.node with _ | stamp
      · rcases ClockStep.clock_cases R xxh64 self s.node e with
          ⟨reading, -, hsome, -⟩ | ⟨-, hle, hreceived⟩
        · rw [hstamp] at hsome
          simp at hsome
        · simp only [ClockRun.step, hstamp, List.mem_append] at ht ⊢
          rcases ht with ht | ht
          · exact hreceived t ht
          · exact (ih t ht).trans hle
      · obtain ⟨reading, hreading⟩ := ClockStep.exists_reading hstamp
        obtain ⟨hclock, hread⟩ := hahead stamp hstamp reading hreading
        simp only [ClockRun.step, hstamp, List.mem_cons, List.mem_append] at ht ⊢
        rw [ClockStep.clock_of_stamp R self hstamp]
        rcases ht with rfl | ht | ht
        · exact le_rfl
        · exact ((ClockStep.lt_stamp_iff hstamp hreading).mpr
            ⟨hclock, hread t ht⟩).le
        · exact ((ClockStep.lt_stamp_iff hstamp hreading).mpr
            ⟨hclock, .inl (ih t ht)⟩).le

end ClockRun

end Clock

/-- Stamps respect causality in every run in which they are taken ahead of what
was read. -/
theorem causal_of_ahead (R : Runtime) (xxh64 : Bytes → UInt64)
    (self : NodeId) : ClockRun.Causal R xxh64 self (ClockRun.Ahead xxh64) := by
  intro s hrun e hahead stamp hstamp t ht
  have hlt : t < stamp := by
    apply (ClockRun.lt_stamp_iff_ahead hrun.known_le hstamp _).mpr hahead t ht
    exact List.ne_nil_of_mem ht
  refine ⟨hlt, fun old new => offer_of_beats ?_⟩
  intro p hp
  rw [← Option.some.inj hp]
  exact hlt

/-- A node reads a version that a peer with a fast clock has stamped, and
stamps an older one. -/
theorem not_causal : ¬ ∃ R xxh64, ∀ self,
    ClockRun.Causal R xxh64 self fun _ _ => True := by
  rintro ⟨R, xxh64, hall⟩
  let schema : CollectionSchema :=
    { dim := 1, metric := .l2, shardCount := 1, replicationN := 1 }
  let metadata : MetaState :=
    { nodes := (∅ : Std.ExtTreeMap NodeId String).insert 2 "b"
      collections :=
        (∅ : Std.ExtTreeMap String CollectionSchema).insert "c" schema
      shardStates := ∅ }
  have hschema : metadata.collections["c"]? = some schema :=
    Std.ExtTreeMap.getElem?_insert_self
  have hshard : shardForId xxh64 7 schema.shardCount = 0 := by
    simp [shardForId, schema, Nat.mod_one]
  -- node 2 is the replica
  have hreplicas : replicasWithAddrs xxh64 metadata "c" 0 = [(2, "b")] := by
    have hmem : ∀ node, node ∈ metadata.replicasForShard xxh64 "c" 0 ↔
        node ∈ [2] := by
      intro node
      rw [MetaState.mem_replicas_iff hschema (by decide)]
      rw [List.mem_singleton]
      simp [metadata, @eq_comm _ node]
    have hlist : metadata.replicasForShard xxh64 "c" 0 = [2] :=
      List.perm_singleton.mp ((List.perm_ext_iff_of_nodup
        MetaState.replicas_nodup (by simp)).mpr hmem)
    rw [replicasWithAddrs, hlist]
    simp [metadata]
  -- and it holds a version with a later wall clock
  let seen := Hlc.new 10 0
  let sref := shardRef "c" 0 schema
  obtain ⟨-, hwritten⟩ := @ShardStore.write_of_valid R (.new 0 0) sref
    ShardStore.opUpsert seen 7 [0] [] (by decide) .unused
    (by simp [contentOf, ShardStore.opUpsert, ShardStore.opDelete, sref,
      shardRef, schema])
  let peer : NodeState := .new metadata ((ShardStore.new 0 0).write R sref
    ShardStore.opUpsert seen 7 [0] []).1 none
  have hpeer : ((peer.shards.slots sref.key).registers 7) =
      some (seen, some [0]) := by
    have hreg := congrFun hwritten.registers_eq 7
    rw [deliverWith, Function.update_self] at hreg
    exact hreg
  have hget : (peer.replicaGet R "c" 0 7).2 =
      .ok (some (pointOf 7 (seen, some [0]))) := by
    obtain ⟨hversion, -⟩ := @ShardStore.getVersioned_of_valid R peer.shards
      sref (by decide) hwritten.valid 7
    rw [hpeer] at hversion
    have hlocal : (peer.readLocal R "c" 0 schema 7).2 =
        .ok (some (pointOf 7 (seen, some [0]))) := by
      rw [NodeState.readLocal]
      rcases hcase : peer.shards.getVersioned R sref 7 with ⟨shards, res⟩
      rw [hcase] at hversion
      rw [show res = _ from hversion]
      rfl
    rcases hcase : peer.readLocal R "c" 0 schema 7 with ⟨state, res⟩
    rw [hcase] at hlocal
    simp only [NodeState.replicaGet, show peer.metadata = metadata from rfl,
      hschema, hcase, show res = _ from hlocal]
  -- node 1 reads it, and then stamps a write
  let s₀ : ClockRun := ⟨.new metadata (.new 0 0) none, [], []⟩
  let get : ClockStep :=
    .get (fun _ => peer) (fun _ => .answered) "c" 7 .one
  let upsert : ClockStep := .upsert 5 "c" 7 [1] []
  obtain ⟨hread, hnode⟩ : (s₀.step R xxh64 1 get).read = [seen] ∧
      (s₀.step R xxh64 1 get).node = s₀.node := by
    let w : World := Function.update (fun _ => peer) 1 s₀.node
    have hself : w 1 = s₀.node := Function.update_self ..
    have hother : w 2 = peer := Function.update_of_ne (by decide) ..
    rcases hcase : peer.replicaGet R "c" 0 7 with ⟨state, res⟩
    rw [hcase] at hget
    have hcoordinate : coordinateGet R xxh64 1 (fun _ => .answered) w "c" 7
        .one = (Function.update w 2 state,
          [(2, some (pointOf 7 (seen, some [0])))],
          .ok (some (pointOf 7 (seen, some [0])))) := by
      simp [coordinateGet, hself, show s₀.node.metadata = metadata from rfl,
        hschema, hshard, hreplicas, readReplicas, readOneReplica, hother,
        hcase, show res = _ from hget, Responses.outcome, Responses.winner,
        Consistency.count, Quorum.maxByKey]
    have hfrom : ClockStep.readFrom R xxh64 1 s₀.node (fun _ => peer)
        (fun _ => .answered) "c" 7 .one = _ := hcoordinate
    constructor
    · simp [ClockRun.step, get, ClockStep.stamp, ClockStep.read, hfrom, s₀,
        pointOf]
    · simp [ClockRun.step, get, ClockStep.apply, hfrom, hself,
        Function.update_of_ne]
  have hstamp : upsert.stamp xxh64 (s₀.step R xxh64 1 get).node =
      some (HlcClock.now Hlc.zero 5) := by
    rw [hnode]
    simp [upsert, ClockStep.stamp, NodeState.stampUpsert, s₀, NodeState.new,
      hschema, schema, Except.toOption]
  have hinit : ClockRun.Run R xxh64 1 (fun _ _ => True) s₀ :=
    .init metadata (.new 0 0) none
  obtain ⟨hlt, -⟩ := hall 1 _ (hinit.step get trivial) upsert trivial _ hstamp
    seen (by
      rw [List.mem_append, hread]
      simp)
  exact absurd hlt (by decide)

end Quorvec
