import Quorvec.Node.ClockRun

/-!
# The clock across restarts

The clock is kept in memory and the versions are kept in files.  After a
restart the clock starts at zero, and nothing that the node finds in its data
directory is fed to it.
-/

namespace Quorvec

open ByteCodec

/-- Opening some shard of the data directory finds a version with this
timestamp. -/
def Stores (R : Runtime) (dirs : ShardKey → ShardDir) (t : Hlc) : Prop :=
  ∃ key dim metric mb batchMs s,
    Shard.open R (dirs key) dim metric mb batchMs = .ok s ∧
      ∃ id v, s.version id = some v ∧ v.hlc = t

/-- A node, what it has stamped, and what it has found on its disk. -/
structure RestartRun where
  node : NodeState
  /-- The latest reading of the system clock. -/
  reading : ℕ
  /-- The stamps since the last start. -/
  issued : List Hlc
  /-- The stamps before the last start. -/
  earlier : List Hlc
  /-- The data directory at the last start. -/
  found : ShardKey → ShardDir

namespace RestartRun

section Model

variable (R : Runtime) (xxh64 : Bytes → UInt64) (self : NodeId)

def step (s : RestartRun) (e : ClockStep) : RestartRun :=
  { s with
    node := e.apply R xxh64 self s.node
    reading := e.reading.getD s.reading
    issued := (e.stamp xxh64 s.node).toList ++ s.issued }

/-- The process ends, and starts on what its data directory then holds. -/
def restart (s : RestartRun) (metadata : MetaState) (mb batchMs : ℕ)
    (dirs : ShardKey → ShardDir) (hintLog : Option Bytes) : RestartRun where
  node := .new metadata
    { snapshotWalMb := mb, walBatchMs := batchMs
      slots := fun key => .closed (dirs key) } hintLog
  reading := s.reading
  issued := []
  earlier := s.issued ++ s.earlier
  found := dirs

/-- The runs from an empty data directory whose steps are all admitted.  The
system clock does not go back; what a data directory holds at a restart is
arbitrary. -/
inductive Run (Admits : RestartRun → ClockStep → Prop) : RestartRun → Prop
  | init (metadata : MetaState) (mb batchMs reading : ℕ)
      (hintLog : Option Bytes) :
      Run Admits
        { node := .new metadata (.new mb batchMs) hintLog, reading
          issued := [], earlier := [], found := fun _ => .empty }
  | step {s : RestartRun} (e : ClockStep) : Run Admits s →
      (∀ reading, e.reading = some reading → s.reading ≤ reading) →
      Admits s e → Run Admits (s.step R xxh64 self e)
  | restart {s : RestartRun} (metadata : MetaState) (mb batchMs : ℕ)
      (dirs : ShardKey → ShardDir) (hintLog : Option Bytes) :
      Run Admits s → Run Admits (s.restart metadata mb batchMs dirs hintLog)

/-- What the last start left behind: an earlier stamp, or a version in the data
directory. -/
def Past (s : RestartRun) (t : Hlc) : Prop :=
  t ∈ s.earlier ∨ Stores R s.found t

/-- In every admitted run, a stamp exceeds the stamps before the last restart
and the versions that the data directory held then. -/
def StampsAhead (Admits : RestartRun → ClockStep → Prop) : Prop :=
  ∀ s, Run R xxh64 self Admits s → ∀ e,
    (∀ reading, e.reading = some reading → s.reading ≤ reading) →
    Admits s e → ∀ stamp, e.stamp xxh64 s.node = some stamp →
    ∀ t, s.Past R t → t < stamp

/-- No stamp is taken from a clock at the end of its range, and the first one
since a restart is taken when the clock has reached what the restart left
behind, or the wall clock has passed it. -/
def Resumes (s : RestartRun) (e : ClockStep) : Prop :=
  ∀ stamp, e.stamp xxh64 s.node = some stamp →
    ∀ reading, e.reading = some reading → ∀ t, s.Past R t →
      s.node.clock ≠ Hlc.greatest ∧
        (s.issued = [] →
          t ≤ s.node.clock ∨ t.wallMs < HlcClock.wallNowMs reading)

end Model

section Invariant

variable {R : Runtime} {xxh64 : Bytes → UInt64} {self : NodeId}
variable {s : RestartRun} {e : ClockStep}

/-- Once a stamp was issued since the last start, the clock has reached what
the start left behind. -/
def CaughtUp (R : Runtime) (s : RestartRun) : Prop :=
  s.issued ≠ [] → ∀ t, s.Past R t → t ≤ s.node.clock

/-- A stamp exceeds the past exactly if it is admitted. -/
theorem CaughtUp.lt_stamp_iff (h : s.CaughtUp R) {stamp : Hlc}
    (hstamp : e.stamp xxh64 s.node = some stamp) :
    (∀ t, s.Past R t → t < stamp) ↔ s.Resumes R xxh64 e := by
  obtain ⟨reading, hreading⟩ := ClockStep.exists_reading hstamp
  have hlt := fun t => ClockStep.lt_stamp_iff (t := t) hstamp hreading
  constructor
  · intro hall stamp' hstamp' reading' hreading' t ht
    rw [hreading, Option.some.injEq] at hreading'
    subst hreading'
    obtain ⟨hclock, hreached⟩ := (hlt t).mp (hall t ht)
    exact ⟨hclock, fun _ => hreached⟩
  · intro hresumes t ht
    obtain ⟨hclock, hfirst⟩ := hresumes stamp hstamp reading hreading t ht
    apply (hlt t).mpr
    by_cases hissued : s.issued = []
    · exact ⟨hclock, hfirst hissued⟩
    · exact ⟨hclock, .inl (h hissued t ht)⟩

theorem Run.caughtUp (h : Run R xxh64 self (Resumes R xxh64) s) :
    s.CaughtUp R := by
  induction h with
  | init metadata mb batchMs reading hintLog =>
      intro hissued
      simp at hissued
  | @step s e hrun hreading hresumes ih =>
      intro hissued t ht
      have hpast : s.Past R t := ht
      show t ≤ (e.apply R xxh64 self s.node).clock
      rcases hstamp : e.stamp xxh64 s.node with _ | stamp
      · rcases ClockStep.clock_cases R xxh64 self s.node e with
          ⟨reading, -, hsome, -⟩ | ⟨-, hle, -⟩
        · rw [hstamp] at hsome
          simp at hsome
        · simp only [RestartRun.step, hstamp] at hissued
          exact (ih hissued t hpast).trans hle
      · rw [ClockStep.clock_of_stamp R self hstamp]
        exact ((ih.lt_stamp_iff hstamp).mpr hresumes t hpast).le
  | restart metadata mb batchMs dirs hintLog hrun ih =>
      intro hissued
      simp [RestartRun.restart] at hissued

end Invariant

end RestartRun

/-- Stamps stay ahead of what a restart left behind in every run in which the
first stamp after each restart does. -/
theorem stampsAhead_of_resumes (R : Runtime) (xxh64 : Bytes → UInt64)
    (self : NodeId) :
    RestartRun.StampsAhead R xxh64 self (RestartRun.Resumes R xxh64) := by
  intro s hrun e hreading hresumes stamp hstamp
  exact (hrun.caughtUp.lt_stamp_iff hstamp).mpr hresumes

/-- The files that a node leaves when it stops. -/
def ShardSlot.close : ShardSlot → ShardDir
  | .closed dir => dir
  | .opened s => s.close

/-- A write of a peer with a fast clock takes the stamps of a node ahead of the
wall clock; after a restart they are behind. -/
theorem not_stampsAhead : ¬ ∃ R xxh64, ∀ self,
    RestartRun.StampsAhead R xxh64 self fun _ _ => True := by
  rintro ⟨R, xxh64, hall⟩
  let schema : CollectionSchema :=
    { dim := 1, metric := .l2, shardCount := 1, replicationN := 1 }
  let metadata : MetaState :=
    { nodes := ∅
      collections :=
        (∅ : Std.ExtTreeMap String CollectionSchema).insert "c" schema
      shardStates := ∅ }
  have hschema : metadata.collections["c"]? = some schema :=
    Std.ExtTreeMap.getElem?_insert_self
  let req : ReplicaWriteRequest :=
    { collection := "c", shardIdx := 0, op := ShardStore.opUpsert, id := 7
      hlc := (Hlc.new 10 0).pack, vector := [0], payload := [] }
  let write : ClockStep := .write 5 req
  let upsert (reading : ℕ) : ClockStep := .upsert reading "c" 7 [1] []
  have hstamp : ∀ (s : NodeState) reading, s.metadata = metadata →
      (upsert reading).stamp xxh64 s =
        some (HlcClock.now s.clock reading) := by
    intro s reading hmeta
    simp [upsert, ClockStep.stamp, NodeState.stampUpsert, hmeta, hschema,
      schema, Except.toOption]
  let s₀ : RestartRun :=
    { node := .new metadata (.new 0 0) none, reading := 0, issued := []
      earlier := [], found := fun _ => .empty }
  let s₁ := s₀.step R xxh64 1 write
  let s₂ := s₁.step R xxh64 1 (upsert 5)
  let s₃ := s₂.restart metadata 0 0
    (fun key => (s₂.node.shards.slots key).close) none
  have hinit : RestartRun.Run R xxh64 1 (fun _ _ => True) s₀ :=
    .init metadata 0 0 0 none
  have hrun : RestartRun.Run R xxh64 1 (fun _ _ => True) s₃ := by
    apply RestartRun.Run.restart
    apply RestartRun.Run.step (upsert 5) _ _ trivial
    · apply RestartRun.Run.step write hinit _ trivial
      simp [write, ClockStep.reading, s₀]
    · simp [upsert, ClockStep.reading, s₁, write, RestartRun.step]
  -- the write takes the clock to the future, and the stamp with it
  obtain ⟨hclock, hmeta⟩ : s₁.node.clock = HlcClock.update Hlc.zero 5
      (Hlc.new 10 0) ∧ s₁.node.metadata = metadata := by
    have hclock := NodeState.clock_applyReplicaWrite R 5 s₀.node req schema
    rw [← NodeState.replicaWrite_of_known hschema, Hlc.unpack_pack] at hclock
    have hmeta := NodeState.metadata_applyReplicaWrite R 5 s₀.node req schema
    rw [← NodeState.replicaWrite_of_known hschema] at hmeta
    exact ⟨hclock, hmeta⟩
  have hearlier : HlcClock.now (HlcClock.update Hlc.zero 5 (Hlc.new 10 0)) 5 ∈
      s₃.earlier := by
    simp [s₃, s₂, RestartRun.restart, RestartRun.step, hstamp _ _ hmeta,
      hclock]
  have hzero : s₃.node.clock = Hlc.zero := rfl
  have hlt := hall 1 s₃ hrun (upsert 6)
    (by simp [upsert, ClockStep.reading, s₃, s₂, RestartRun.restart,
      RestartRun.step])
    trivial _ (hstamp s₃.node 6 rfl) _ (.inl hearlier)
  rw [hzero] at hlt
  exact absurd hlt (by decide)

end Quorvec
