import Quorvec.Node.ClockRun
import Quorvec.Node.ReplicaRun
import Quorvec.Node.WrittenSlot

/-!
# Clocks stay near real time

A clock takes over the greatest stamp that reaches it, so the node whose system
clock is ahead pulls the others along, and goes on counting when the system
clocks stand still.

However the nodes exchange writes, hints, repairs and records, and however often
they restart, no stamp gets ahead of the fastest system clock by more than one
step of the counter for each use of a clock: a millisecond for 65536 uses.
-/

namespace Quorvec

open LastWriterWins ByteCodec

/-- The timestamp is ahead of `T` milliseconds by at most `n` steps of the
counter. -/
def Hlc.Near (T n : ℕ) (h : Hlc) : Prop :=
  h.wallMs * 2 ^ 16 + h.counter ≤ T * 2 ^ 16 + n

/-- What the system clock shows, if the step uses a clock. -/
def ReplicaStep.reading : ReplicaStep → Option ℕ
  | .data (.upsert _ reading ..) => some reading
  | .data (.delete _ reading ..) => some reading
  | .data (.receive _ reading _) => some reading
  | .pull _ reading .. => some reading
  | _ => none

/-- How often the step uses a clock. -/
def ReplicaStep.uses (e : ReplicaStep) : ℕ := if e.reading.isSome then 1 else 0

/-- A shard was never used, or is open again from files that hold such writes
only, after a stop that may have lost others. -/
inductive ShardSlot.Reopened (R : Runtime) (schema : CollectionSchema)
    (W : UInt64 → Hlc × Content → Prop) : ShardSlot → Prop
  | unused : Reopened R schema W (.closed .empty)
  | opened {dir : ShardDir} {s : Shard} {mb batchMs : ℕ} : dir.Within R W →
      (∀ image, dir.snap = some image →
        Memory.Valid schema.dim.toNat (image.index, image.versions)) →
      Shard.open R dir schema.dim.toNat schema.metric mb batchMs = .ok s →
      Reopened R schema W (.opened s)

namespace DataPlane

/-- The files of a node hold nothing but what the node has taken. -/
def Reopens (R : Runtime) (metadata : MetaState) (s : DataPlane)
    (node : NodeId) (shards : ShardStore) : Prop :=
  (∀ (collection : String) schema (shardIdx : UInt32),
    metadata.collections[collection]? = some schema →
    (shards.slots { collection, shardIdx }).Reopened R schema fun id p =>
      p ∈ writesOf (s.received node) { collection, shardIdx } id) ∧
  ∀ key : ShardKey, metadata.collections[key.collection]? = none →
    ∃ dir, shards.slots key = .closed dir

/-- A node starts again with these shards; its clock starts at zero.  Of what
it had taken, it has what the shards show. -/
def restart (s : DataPlane) (node : NodeId) (shards : ShardStore)
    (hintLog : Option Bytes) : DataPlane :=
  { s with
    world := Function.update s.world node
      (NodeState.new (s.world node).metadata shards hintLog)
    received := Function.update s.received node
      ((s.received node).filter fun req =>
        decide ((shards.slots req.key).registers req.id =
          some req.written)) }

section Statement

variable (R : Runtime) (xxh64 : Bytes → UInt64) (metadata : MetaState)

/-- The runs in which no system clock shows more than `T`, with the number of
times that clocks were used. -/
inductive TimedRun (T : ℕ) : DataPlane → ℕ → Prop
  | init {s : DataPlane} : Initial metadata s →
      (∀ node, (s.world node).clock = Hlc.zero) → TimedRun T s 0
  | step {s s' : DataPlane} {n : ℕ} (e : ReplicaStep) : TimedRun T s n →
      (∀ reading, e.reading = some reading → reading ≤ T) →
      s.replicaStep R xxh64 e = some s' → TimedRun T s' (n + e.uses)
  | restart {s : DataPlane} {n : ℕ} {node : NodeId} {shards : ShardStore}
      (hintLog : Option Bytes) : TimedRun T s n →
      s.Reopens R metadata node shards →
      TimedRun T (s.restart node shards hintLog) n

/-- In every run the clocks, the stamps of all requests that were ever sent, and
the versions that replicas return stay near the fastest system clock. -/
def StaysNear : Prop :=
  ∀ T s n, TimedRun R xxh64 metadata T s n →
    (∀ node, (s.world node).clock.Near T n) ∧
    (∀ req ∈ s.sent, (Hlc.unpack req.hlc).Near T n) ∧
    ∀ node (collection : String) (shardIdx : UInt32) schema,
      metadata.collections[collection]? = some schema → ∀ id p,
      ((s.world node).readLocal R collection shardIdx schema id).2 =
        .ok (some p) → p.hlc.Near T n

end Statement

end DataPlane

/-! ## One use of a clock -/

namespace Hlc.Near

variable {T n : ℕ} {last remote : Hlc} {reading : ℕ}

theorem mono {m : ℕ} (h : last.Near T n) (hnm : n ≤ m) : last.Near T m := by
  unfold Hlc.Near at h ⊢
  omega

theorem zero (T n : ℕ) : Hlc.zero.Near T n := Nat.zero_le _

theorem of_reading (hreading : reading ≤ T) {h : Hlc}
    (hwall : h.wallMs = HlcClock.wallNowMs reading) (hcounter : h.counter = 0) :
    h.Near T n := by
  have hmask : HlcClock.wallNowMs reading ≤ T :=
    Nat.and_le_left.trans hreading
  have hmul := Nat.mul_le_mul_right (2 ^ 16) hmask
  rw [Hlc.Near, hwall, hcounter, Nat.add_zero]
  exact Nat.le_add_right_of_le hmul

theorem now (h : last.Near T n) (hreading : reading ≤ T) :
    (HlcClock.now last reading).Near T (n + 1) := by
  rcases HlcClock.now_cases last reading with ⟨-, hw, hc⟩ | ⟨-, -, hw, hc⟩ |
    ⟨-, hfull, hw, hc⟩
  · exact of_reading hreading hw hc
  · rw [Hlc.Near, hw, hc, ← Nat.add_assoc, ← Nat.add_assoc]
    exact Nat.add_le_add_right h 1
  · -- the carry into the wall clock is one step of the counter as well
    have hmod := Nat.mod_le (last.wallMs + 1) (2 ^ 48)
    have hmul := Nat.mul_le_mul_right (2 ^ 16) hmod
    rw [Hlc.Near] at h
    rw [Hlc.Near, hw, hc]
    linarith

theorem update (h : last.Near T n) (h' : remote.Near T n)
    (hreading : reading ≤ T) :
    (HlcClock.update last reading remote).Near T (n + 1) := by
  have hmax : (max last remote).Near T n := by
    rcases max_choice last remote with heq | heq <;> rw [heq]
    · exact h
    · exact h'
  rcases HlcClock.update_cases last reading remote with ⟨-, hw, hc⟩ |
    ⟨-, hw, hc⟩
  · exact of_reading hreading hw hc
  · have hsucc : HlcClock.saturatingSucc (max last remote).counter ≤
        (max last remote).counter + 1 := Nat.min_le_left _ _
    rw [Hlc.Near] at hmax
    rw [Hlc.Near, hw, hc]
    linarith

end Hlc.Near

/-! ## One step -/

/-- A clock was left alone, or used for a stamp or for a request. -/
def ClockUsed (reading : Option ℕ) (sent : List ReplicaWriteRequest)
    (old new : Hlc) : Prop :=
  new = old ∨ ∃ r, reading = some r ∧ (new = HlcClock.now old r ∨
    ∃ req ∈ sent, new = HlcClock.update old r (Hlc.unpack req.hlc))

/-- A coordinator has stamped a request with its clock, or has refused. -/
def StampedNow (reading : ℕ) (old : NodeState)
    (out : NodeState × Except RouterError ReplicaWriteRequest) : Prop :=
  (out.1.clock = old.clock ∧ ∀ req, out.2 ≠ .ok req) ∨
    out.1.clock = HlcClock.now old.clock reading ∧
      ∀ req, out.2 = .ok req → Hlc.unpack req.hlc = out.1.clock

section Step

variable {R : Runtime} {xxh64 : Bytes → UInt64} {s s' : DataPlane}
variable {e : ReplicaStep} {sent : List ReplicaWriteRequest}

theorem stampedNow_upsert (reading : ℕ) (old : NodeState)
    (collection : String) (id : UInt64) (vector : List F32) (payload : Bytes) :
    StampedNow reading old
      (old.stampUpsert xxh64 reading collection id vector payload) := by
  unfold NodeState.stampUpsert
  split
  · exact .inl ⟨rfl, by simp⟩
  · split_ifs
    · exact .inl ⟨rfl, by simp⟩
    · refine .inr ⟨rfl, fun req hreq => ?_⟩
      rw [← Except.ok.inj hreq]
      exact Hlc.unpack_pack _

theorem stampedNow_delete (reading : ℕ) (old : NodeState)
    (collection : String) (id : UInt64) :
    StampedNow reading old
      (old.stampDelete xxh64 reading collection id) := by
  unfold NodeState.stampDelete
  split
  · exact .inl ⟨rfl, by simp⟩
  · refine .inr ⟨rfl, fun req hreq => ?_⟩
    rw [← Except.ok.inj hreq]
    exact Hlc.unpack_pack _

theorem clockUsed_update {reading : Option ℕ} {w : World} {node : NodeId}
    {state : NodeState}
    (h : ClockUsed reading sent (w node).clock state.clock) (other : NodeId) :
    ClockUsed reading sent (w other).clock
      (Function.update w node state other).clock := by
  by_cases hother : other = node
  · subst hother
    rwa [Function.update_self]
  · rw [Function.update_of_ne hother]
    exact .inl rfl

theorem NodeState.clockUsed_replicaWrite (old : NodeState) (reading : ℕ)
    {req : ReplicaWriteRequest} (hreq : req ∈ sent) :
    ClockUsed (some reading) sent old.clock
      (old.replicaWrite R reading req).1.clock := by
  rcases hknown : old.metadata.collections[req.collection]? with _ | schema
  · rw [replicaWrite_of_unknown hknown]
    exact .inl rfl
  · rw [replicaWrite_of_known hknown, clock_applyReplicaWrite]
    exact .inr ⟨reading, rfl, .inr ⟨req, hreq, rfl⟩⟩

namespace DataPlane

/-- What a step does to the clocks and to the writes that were stamped. -/
structure UsesClocks (e : ReplicaStep) (s s' : DataPlane) : Prop where
  clock : ∀ node, ClockUsed e.reading s.sent (s.world node).clock
    (s'.world node).clock
  issued : ∀ req ∈ s'.issued, req ∈ s.issued ∨
    ∃ node, Hlc.unpack req.hlc = (s'.world node).clock

theorem usesClocks_stamped {reading : ℕ} (hreading : e.reading = some reading)
    {node : NodeId} {out : NodeState × Except RouterError ReplicaWriteRequest}
    (hout : StampedNow reading (s.world node) out) :
    UsesClocks e s (s.stamped node out) := by
  have hclock : ClockUsed e.reading s.sent (s.world node).clock
      out.1.clock := by
    rcases hout with ⟨hsame, -⟩ | ⟨hnow, -⟩
    · exact .inl hsame
    · exact .inr ⟨reading, hreading, .inl hnow⟩
  rcases out with ⟨state, err | req⟩
  · exact ⟨clockUsed_update hclock, fun req hreq => .inl hreq⟩
  · refine ⟨clockUsed_update hclock, fun req' hreq' => ?_⟩
    rcases List.mem_cons.mp hreq' with rfl | hreq'
    · refine .inr ⟨node, ?_⟩
      rcases hout with ⟨-, hnone⟩ | ⟨-, hstamp⟩
      · exact absurd rfl (hnone req')
      · simpa only [stamped, Function.update_self] using hstamp req' rfl
    · exact .inl hreq'

theorem usesClocks_update {node : NodeId} {state : NodeState}
    (hclock : ClockUsed e.reading s.sent (s.world node).clock state.clock)
    (hworld : s'.world = Function.update s.world node state)
    (hissued : s'.issued = s.issued) : UsesClocks e s s' := by
  refine ⟨fun other => ?_, fun req hreq => .inl (hissued ▸ hreq)⟩
  rw [hworld]
  exact clockUsed_update hclock other

/-- What each step does to the clocks. -/
theorem usesClocks (hstep : s.replicaStep R xxh64 e = some s') :
    UsesClocks e s s' := by
  rcases e with e | ⟨source, collection, shardIdx⟩ |
    ⟨target, reading, collection, shardIdx, row⟩
  · rcases e with ⟨node, reading, collection, id, vector, payload⟩ |
      ⟨node, reading, collection, id⟩ | ⟨node, reading, req⟩ | ⟨node, req⟩ |
      ⟨source, collection, shardIdx, id⟩
    · rw [← Option.some.inj hstep]
      exact usesClocks_stamped rfl (stampedNow_upsert _ _ _ _ _ _)
    · rw [← Option.some.inj hstep]
      exact usesClocks_stamped rfl (stampedNow_delete _ _ _ _)
    · simp only [replicaStep, step] at hstep
      split_ifs at hstep with hreq
      have hclock := @NodeState.clockUsed_replicaWrite R _ (s.world node)
        reading _ hreq
      split at hstep
      all_goals
        next hwrite =>
          rw [hwrite] at hclock
          rw [← Option.some.inj hstep]
          exact usesClocks_update hclock rfl rfl
    · simp only [replicaStep, step] at hstep
      split_ifs at hstep
      split at hstep
      · simp at hstep
      · split at hstep
        all_goals
          rw [← Option.some.inj hstep]
          refine usesClocks_update ?_ rfl rfl
          exact .inl rfl
    · have hclock := @NodeState.clock_replicaGet R (s.world source) collection
        shardIdx id
      simp only [replicaStep, step] at hstep
      split at hstep
      · next hget =>
          rw [hget] at hclock
          rw [← Option.some.inj hstep]
          exact usesClocks_update (.inl hclock) rfl rfl
      · next hget =>
          rw [hget] at hclock
          rw [← Option.some.inj hstep]
          exact usesClocks_update (.inl hclock) rfl rfl
  · simp only [replicaStep] at hstep
    split at hstep
    · simp at hstep
    · next schema hschema =>
        have hclock : ((s.world source).streamShard R collection shardIdx
            schema).1.clock = (s.world source).clock := by
          unfold NodeState.streamShard
          split_ifs
          · split <;> rfl
          · rfl
        split at hstep
        all_goals
          next hstream =>
            rw [hstream] at hclock
            rw [← Option.some.inj hstep]
            exact usesClocks_update (.inl hclock) rfl rfl
  · simp only [replicaStep] at hstep
    split_ifs at hstep with hrow
    split at hstep
    · simp at hstep
    · next schema hschema =>
        have hstamp : Hlc.unpack (row.request collection shardIdx).hlc =
            row.hlc := Hlc.unpack_pack _
        have hclock := @NodeState.clock_pullRecord R (s.world target)
          collection shardIdx schema reading row
        have hused : ClockUsed (some reading) s.sent (s.world target).clock
            ((s.world target).pullRecord R reading collection shardIdx schema
              row).1.clock :=
          .inr ⟨reading, rfl, .inr ⟨_, hrow, by rw [hclock, hstamp]⟩⟩
        split at hstep
        all_goals
          next hpull =>
            rw [hpull] at hused
            rw [← Option.some.inj hstep]
            exact usesClocks_update hused rfl rfl

end DataPlane

end Step

/-! ## Over a run -/

theorem ShardSlot.Reopened.valid {R : Runtime} {schema : CollectionSchema}
    {W : UInt64 → Hlc × Content → Prop} {slot : ShardSlot}
    (h : slot.Reopened R schema W) : slot.Valid schema.dim.toNat := by
  cases h with
  | unused => exact .unused
  | opened _ hsnap hopen =>
      obtain ⟨hvalid, hdim⟩ := Shard.valid_of_open hsnap hopen
      exact .opened hvalid hdim

namespace DataPlane

variable {R : Runtime} {xxh64 : Bytes → UInt64} {metadata : MetaState}
variable {s s' : DataPlane} {T n : ℕ}

/-- The clocks, and the stamps that were given out. -/
structure Nearby (T n : ℕ) (s : DataPlane) : Prop where
  clock : ∀ node, (s.world node).clock.Near T n
  issued : ∀ req ∈ s.issued, (Hlc.unpack req.hlc).Near T n

theorem Nearby.sent (h : Nearby T n s) (hsound : Sound metadata s)
    {req : ReplicaWriteRequest} (hreq : req ∈ s.sent) :
    (Hlc.unpack req.hlc).Near T n := by
  obtain ⟨old, hold, -, -, hwritten⟩ := hsound.sent req hreq
  have hstamp : Hlc.unpack old.hlc = Hlc.unpack req.hlc :=
    congrArg Prod.fst hwritten
  exact hstamp ▸ h.issued old hold

theorem Nearby.step (h : Nearby T n s) (hsound : Sound metadata s)
    {e : ReplicaStep} (hreading : ∀ reading, e.reading = some reading →
      reading ≤ T) (huses : UsesClocks e s s') :
    Nearby T (n + e.uses) s' := by
  have hclock : ∀ node, (s'.world node).clock.Near T (n + e.uses) := by
    intro node
    rcases huses.clock node with hsame | ⟨reading, he, hused⟩
    · rw [hsame]
      exact (h.clock node).mono (Nat.le_add_right _ _)
    · have hone : e.uses = 1 := by simp [ReplicaStep.uses, he]
      rw [hone]
      rcases hused with hnow | ⟨req, hreq, hupdate⟩
      · rw [hnow]
        exact (h.clock node).now (hreading _ he)
      · rw [hupdate]
        exact (h.clock node).update (h.sent hsound hreq) (hreading _ he)
  refine ⟨hclock, fun req hreq => ?_⟩
  rcases huses.issued req hreq with hold | ⟨node, hstamp⟩
  · exact (h.issued req hold).mono (Nat.le_add_right _ _)
  · rw [hstamp]
    exact hclock node

theorem Reopens.registers {node : NodeId} {shards : ShardStore}
    (h : s.Reopens R metadata node shards) {key : ShardKey} {id : UInt64}
    {p : Hlc × Content}
    (hp : (shards.slots key).registers id = some p) :
    p ∈ writesOf (s.received node) key id := by
  obtain ⟨hknown, hother⟩ := h
  cases hschema : metadata.collections[key.collection]? with
  | none =>
      obtain ⟨dir, hdir⟩ := hother key hschema
      rw [hdir] at hp
      simp [ShardSlot.registers] at hp
  | some schema =>
      have hslot := hknown key.collection schema key.shardIdx hschema
      cases hcase : shards.slots key with
      | closed dir =>
          rw [hcase] at hp
          simp [ShardSlot.registers] at hp
      | opened shard =>
          rw [hcase] at hslot hp
          cases hslot with
          | opened hwithin _ hopen =>
              exact (hwithin.open hopen).mem.held id p hp

/-- A restart forgets, and invents nothing. -/
theorem Sound.restart (h : Sound metadata s) {node : NodeId}
    {shards : ShardStore} (hreopens : s.Reopens R metadata node shards)
    (hintLog : Option Bytes) :
    Sound metadata (s.restart node shards hintLog) := by
  have hold := h.replica node
  refine ⟨h.admissible, fun other => ?_, h.fits, h.sent⟩
  by_cases hother : other = node
  · subst hother
    simp only [DataPlane.restart, Function.update_self]
    constructor
    · exact hold.metadata_eq
    · intro collection schema shardIdx hschema
      have hslot := hreopens.1 collection schema shardIdx hschema
      exact hslot.valid
    · intro key id
      constructor
      · intro p hp
        obtain ⟨req, hreq, rfl, rfl, rfl⟩ := hreopens.registers hp
        exact ⟨req, List.mem_filter.mpr ⟨hreq, decide_eq_true hp⟩, rfl, rfl,
          rfl⟩
      · rintro _ ⟨req, hreq, rfl, rfl, rfl⟩
        have hkept := of_decide_eq_true (List.mem_filter.mp hreq).2
        exact ⟨_, hkept, le_rfl⟩
    · intro req hreq
      exact hold.from_issued req (List.mem_filter.mp hreq).1
  · simp only [DataPlane.restart, Function.update_of_ne hother]
    exact h.replica other

theorem Nearby.restart (h : Nearby T n s) (node : NodeId)
    (shards : ShardStore) (hintLog : Option Bytes) :
    Nearby T n (s.restart node shards hintLog) := by
  refine ⟨fun other => ?_, h.issued⟩
  by_cases hother : other = node
  · subst hother
    simpa only [DataPlane.restart, Function.update_self] using .zero T n
  · simpa only [DataPlane.restart, Function.update_of_ne hother]
      using h.clock other

theorem TimedRun.near (h : TimedRun R xxh64 metadata T s n) :
    Sound metadata s ∧ Nearby T n s := by
  induction h with
  | init hinit hzero =>
      refine ⟨hinit.sound, fun node => ?_, by simp [hinit.issued]⟩
      rw [hzero]
      exact .zero T 0
  | step e _ hreading hstep ih =>
      obtain ⟨hsound, hnear⟩ := ih
      exact ⟨(hsound.replicaStep hstep).1,
        hnear.step hsound hreading (usesClocks hstep)⟩
  | restart hintLog _ hreopens ih =>
      obtain ⟨hsound, hnear⟩ := ih
      exact ⟨hsound.restart hreopens hintLog, hnear.restart _ _ hintLog⟩

end DataPlane

/-- However stamps travel between the nodes, none of them gets further ahead of
the fastest system clock than clocks have been used. -/
theorem staysNear (R : Runtime) (xxh64 : Bytes → UInt64)
    (metadata : MetaState) : DataPlane.StaysNear R xxh64 metadata := by
  intro T s n hrun
  obtain ⟨hsound, hnear⟩ := hrun.near
  refine ⟨hnear.clock, fun req hreq => hnear.sent hsound hreq, ?_⟩
  intro node collection shardIdx schema hschema id p hread
  rw [hsound.readLocal node hschema, Except.ok.injEq,
    Option.map_eq_some_iff] at hread
  obtain ⟨q, hq, rfl⟩ := hread
  obtain ⟨req, hreq, -, -, rfl⟩ := (hsound.replica node).held_from_issued hq
  exact hnear.issued req hreq

/-- A node stamps a write at 5 ms, another one takes it, and loses it in a
restart. -/
theorem staysNear_restarted (R : Runtime) (xxh64 : Bytes → UInt64) :
    ∃ (metadata : MetaState) (s : DataPlane) (req : ReplicaWriteRequest),
      DataPlane.TimedRun R xxh64 metadata 5 s 2 ∧ req ∈ s.sent ∧
      (Hlc.unpack req.hlc).Near 5 2 := by
  let schema : CollectionSchema :=
    { dim := 1, metric := .l2, shardCount := 1, replicationN := 2 }
  let metadata : MetaState :=
    { nodes := (∅ : Std.ExtTreeMap NodeId String).insert 1 "a" |>.insert 2 "b"
      collections :=
        (∅ : Std.ExtTreeMap String CollectionSchema).insert "c" schema
      shardStates := ∅ }
  have hschema : metadata.collections["c"]? = some schema :=
    Std.ExtTreeMap.getElem?_insert_self
  let state : NodeState :=
    { metadata, shards := .new 0 0, clock := Hlc.zero, hintLog := none }
  let s₀ : DataPlane :=
    { world := fun _ => state, sent := [], issued := []
      received := fun _ => [] }
  have hinit : DataPlane.Initial metadata s₀ := by
    refine ⟨?_, fun _ => rfl, fun _ => ⟨0, 0, rfl⟩, rfl, rfl, rfl⟩
    intro collection schema' hmem
    have hname : collection = "c" := by
      by_contra hne
      simp [metadata, Ne.symm hne] at hmem
    rw [hname, hschema, Option.some.injEq] at hmem
    rw [← hmem]
    decide
  obtain ⟨out, req, hstamp⟩ : ∃ out req,
      state.stampUpsert xxh64 5 "c" 7 [0] [] = (out, .ok req) := by
    simp only [NodeState.stampUpsert, state, hschema]
    exact ⟨_, _, rfl⟩
  let s₁ := s₀.stamped 1 (out, .ok req)
  have hrun₁ : DataPlane.TimedRun R xxh64 metadata 5 s₁ 1 := by
    refine (DataPlane.TimedRun.init hinit fun _ => rfl).step
      (.data (.upsert 1 5 "c" 7 [0] [])) ?_ ?_
    · rintro _ ⟨⟩
      exact le_rfl
    · show some (s₀.stamped 1 (state.stampUpsert xxh64 5 "c" 7 [0] [])) = _
      rw [hstamp]
  have hreq : req ∈ s₁.sent := List.mem_cons_self
  obtain ⟨taken, hreceive, -⟩ : ∃ taken,
      s₁.step R xxh64 (.receive 2 0 req) = some (s₁.taken 2 req taken) ∧
        NodeState.Takes metadata (s₁.world 2) req taken :=
    hrun₁.near.1.receive 2 0 hreq
  have hrun₂ : DataPlane.TimedRun R xxh64 metadata 5 (s₁.taken 2 req taken)
      2 := by
    refine hrun₁.step (.data (.receive 2 0 req)) ?_ hreceive
    rintro _ ⟨⟩
    exact Nat.zero_le 5
  have hreopens : (s₁.taken 2 req taken).Reopens R metadata 2 (.new 0 0) :=
    ⟨fun _ _ _ _ => .unused, fun _ _ => ⟨_, rfl⟩⟩
  have hrun₃ := hrun₂.restart none hreopens
  exact ⟨metadata, _, req, hrun₃, hreq,
    (staysNear R xxh64 metadata 5 _ 2 hrun₃).2.1 req hreq⟩

end Quorvec
