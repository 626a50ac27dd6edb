import Quorvec.Storage.Registers

/-!
# A shard is a last-writer-wins join

Versioned writes act on the registers of a shard as strict offers.  So the
versions and the vectors that a shard ends up with depend on the set of writes
that it received and on nothing else: not on their order, not on repetitions,
and not on whether they arrived live or by replay.
-/

namespace Quorvec

open TotalCorrectness LastWriterWins ByteCodec

/-- A versioned write to a shard. -/
inductive ShardCall
  | upsert (hlc : Hlc) (id : UInt64) (vector : List F32) (payload : Bytes)
  | delete (hlc : Hlc) (id : UInt64)

namespace ShardCall

/-- The record that is logged when the write is accepted. -/
def record : ShardCall → WalRecord
  | upsert hlc id vector payload => .ofUpsert hlc id vector payload
  | delete hlc id => .ofDelete hlc id

def apply (R : Runtime) (s : Shard) :
    ShardCall → Shard × Except ShardError WriteOutcome
  | upsert hlc id vector payload => s.upsertVersioned R hlc id vector payload
  | delete hlc id => s.deleteVersioned R hlc id

/-- The id written. -/
def id (c : ShardCall) : UInt64 := c.record.id

/-- The stamp of the write. -/
def hlc (c : ShardCall) : Hlc := c.record.hlc

end ShardCall

namespace Shard

/-- Both images of a shard are valid, in memory and on disk. -/
structure Valid (s : Shard) : Prop where
  mem : Memory.Valid s.dim s.mem
  snap : ∀ image, s.snap = some image →
    Memory.Valid s.dim (image.index, image.versions)

/-! ## Snapshots -/

@[simp] theorem mem_snapshotNow (s : Shard) : s.snapshotNow.mem = s.mem := rfl

@[simp] theorem dim_snapshotNow (s : Shard) : s.snapshotNow.dim = s.dim := rfl

theorem valid_snapshotNow {s : Shard} (h : s.Valid) : s.snapshotNow.Valid where
  mem := h.mem
  snap image himage := by
    rw [← Option.some.inj himage]
    exact h.mem

theorem maybeSnapshot_cases (s : Shard) :
    s.maybeSnapshot = s ∨ s.maybeSnapshot = s.snapshotNow := by
  unfold maybeSnapshot
  split_ifs
  · exact .inl rfl
  · exact .inr rfl
  · exact .inl rfl

@[simp] theorem mem_maybeSnapshot (s : Shard) :
    s.maybeSnapshot.mem = s.mem := by
  rcases maybeSnapshot_cases s with h | h <;> rw [h]
  exact mem_snapshotNow s

@[simp] theorem dim_maybeSnapshot (s : Shard) :
    s.maybeSnapshot.dim = s.dim := by
  rcases maybeSnapshot_cases s with h | h <;> rw [h]
  exact dim_snapshotNow s

theorem valid_maybeSnapshot {s : Shard} (h : s.Valid) :
    s.maybeSnapshot.Valid := by
  rcases maybeSnapshot_cases s with hs | hs <;> rw [hs]
  · exact h
  · exact valid_snapshotNow h

/-! ## One write -/

section Step

variable {R : Runtime} {s : Shard}

theorem isStale_iff {id : UInt64} {hlc : Hlc} :
    s.isStale id hlc = true ↔ ¬ Beats hlc (registers s.mem id) := by
  unfold isStale registers mem
  cases s.versions[id]? with
  | none => simp [Beats]
  | some v => simp [Beats]

/-- A record that is logged and applies in memory. -/
theorem logAndApply_of_ok {r : WalRecord} {m' : Memory}
    (h : applyOp R s.mem r = .ok m') :
    s.logAndApply R r =
      (({ s with
          wal := (s.wal.append R.crc32 r).1
          index := m'.1
          versions := m'.2 } : Shard).maybeSnapshot, .ok ()) := by
  rw [logAndApply]
  have hmem : applyOp R ({ s with wal := (s.wal.append R.crc32 r).1 } :
      Shard).mem r = .ok m' := h
  simp only [hmem]

/-- What a versioned write of the right dimension does. -/
structure Stepped (R : Runtime) (s : Shard) (r : WalRecord)
    (out : Shard × Except ShardError WriteOutcome) : Prop where
  valid : out.1.Valid
  dim_eq : out.1.dim = s.dim
  registers_eq : registers out.1.mem =
    deliverWith offer (registers s.mem) r.offered
  applied : Beats r.hlc (registers s.mem r.id) → out.2 = .ok .applied
  stale : ¬ Beats r.hlc (registers s.mem r.id) → out = (s, .ok .stale)

theorem acceptVersioned_stepped (h : s.Valid) {r : WalRecord}
    (hr : r.HasDim s.dim) : Stepped R s r (s.acceptVersioned R r) := by
  by_cases hbeats : Beats r.hlc (registers s.mem r.id)
  · have hfresh : ¬ s.isStale r.id r.hlc = true := by
      rw [isStale_iff]
      exact not_not_intro hbeats
    obtain ⟨m', happly, hm'⟩ := applyOp_returns (R := R) h.mem hr
    have heq : s.acceptVersioned R r =
        (({ s with
            wal := (s.wal.append R.crc32 r).1
            index := m'.1
            versions := m'.2 } : Shard).maybeSnapshot, .ok .applied) := by
      rw [acceptVersioned, if_neg hfresh, logAndApply_of_ok happly]
    rw [heq]
    refine ⟨valid_maybeSnapshot ⟨hm'.valid, h.snap⟩,
      dim_maybeSnapshot _, ?_, fun _ => rfl, fun hstale => ?_⟩
    · have hmem := hm'.registers_eq
      rw [mem_maybeSnapshot]
      rw [deliverWith, WalRecord.offered,
        offer_of_beats (p := (r.hlc, r.content)) hbeats]
      exact hmem
    · exact absurd hbeats hstale
  · have heq : s.acceptVersioned R r = (s, .ok .stale) := by
      rw [acceptVersioned, if_pos (isStale_iff.mpr hbeats)]
    have hkeep : offer (registers s.mem r.id) (r.hlc, r.content) =
        registers s.mem r.id := if_neg hbeats
    rw [heq]
    refine ⟨h, rfl, ?_, fun hb => absurd hb hbeats, fun _ => rfl⟩
    rw [deliverWith, WalRecord.offered, hkeep, Function.update_eq_self]

theorem apply_stepped (h : s.Valid) {c : ShardCall}
    (hc : c.record.HasDim s.dim) : Stepped R s c.record (c.apply R s) := by
  cases c with
  | upsert hlc id vector payload =>
      have hlen : vector.length = s.dim := hc vector rfl
      rw [ShardCall.apply, upsertVersioned, if_neg (not_not_intro hlen)]
      exact acceptVersioned_stepped h hc
  | delete hlc id => exact acceptVersioned_stepped h hc

/-- The shard after an accepted write. -/
theorem apply_of_accepted {c : ShardCall} (hdim : c.record.HasDim s.dim)
    (hbeats : Beats c.hlc (registers s.mem c.id)) {m' : Memory}
    (happly : applyOp R s.mem c.record = .ok m') :
    (c.apply R s).1 =
      ({ s with
          wal := (s.wal.append R.crc32 c.record).1
          index := m'.1
          versions := m'.2 } : Shard).maybeSnapshot := by
  have hfresh : ¬ s.isStale c.record.id c.record.hlc = true := by
    rw [isStale_iff]
    exact not_not_intro hbeats
  have haccept : (s.acceptVersioned R c.record).1 =
      (s.logAndApply R c.record).1 := by
    rw [acceptVersioned, if_neg hfresh, logAndApply_of_ok happly]
  rw [logAndApply_of_ok happly] at haccept
  cases c with
  | upsert hlc id vector payload =>
      rw [ShardCall.apply, upsertVersioned,
        if_neg (not_not_intro (hdim vector rfl))]
      exact haccept
  | delete hlc id => exact haccept

/-- A vector of another dimension is refused. -/
theorem apply_of_not_hasDim {c : ShardCall} (hc : ¬ c.record.HasDim s.dim) :
    (c.apply R s).1 = s := by
  cases c with
  | upsert hlc id vector payload =>
      have hlen : vector.length ≠ s.dim := by
        intro hlen
        apply hc
        intro v hv
        rwa [← Option.some.inj hv]
      rw [ShardCall.apply, upsertVersioned, if_pos hlen]
  | delete hlc id =>
      exact absurd (fun v hv => by simp [ShardCall.record] at hv) hc

end Step

/-! ## Opening -/

section Open

variable {R : Runtime}

/-- What an open that succeeds has found in the directory. -/
theorem open_cases {d : ShardDir} {dim mb batchMs : ℕ} {metric : Metric}
    {s : Shard} (h : Shard.open R d dim metric mb batchMs = .ok s) :
    ∃ image snapOffset records goodEnd walFile m,
      startImage d.snap dim metric = .ok (image, snapOffset) ∧
      Wal.recover R.crc32 d.wal = .ok ((records, goodEnd), walFile) ∧
      replay R snapOffset records 0 image = .ok m ∧
      s = {
        snap := d.snap
        dim, metric
        index := m.1
        versions := m.2
        wal := Wal.open walFile batchMs
        snapshotThresholdBytes := thresholdOf mb
        lastSnapshotOffset := snapOffset } := by
  unfold Shard.open at h
  cases hstart : startImage d.snap dim metric with
  | error e => simp [hstart] at h
  | ok start =>
      obtain ⟨image, snapOffset⟩ := start
      rw [hstart, ok_bind] at h
      cases hrecover : Wal.recover R.crc32 d.wal with
      | error e =>
          cases e
          simp [hrecover] at h
      | ok found =>
          obtain ⟨⟨records, goodEnd⟩, walFile⟩ := found
          simp only [hrecover] at h
          cases hreplay : replay R snapOffset records 0 image with
          | error e => simp [hreplay] at h
          | ok m =>
              rw [hreplay, ok_bind, pure_eq_ok, Except.ok.injEq] at h
              exact ⟨image, snapOffset, records, goodEnd, walFile, m, rfl,
                rfl, hreplay, h.symm⟩

theorem startImage_valid {snap : Option Snapshot} {dim : ℕ} {metric : Metric}
    {image : Memory} {snapOffset : ℕ}
    (hsnap : ∀ s, snap = some s → Memory.Valid dim (s.index, s.versions))
    (h : startImage snap dim metric = .ok (image, snapOffset)) :
    image.Valid dim := by
  cases snap with
  | some s =>
      simp only [startImage, Except.ok.injEq, Prod.mk.injEq] at h
      rw [← h.1]
      exact hsnap s rfl
  | none =>
      rw [startImage] at h
      cases hnew : HnswIndex.new dim metric with
      | error e => simp [hnew] at h
      | ok index =>
          simp only [hnew, Except.ok.injEq, Prod.mk.injEq] at h
          rw [← h.1]
          exact (startMemory_valid hnew).1

/-- Opening a directory with a valid snapshot gives a valid shard, whatever
its log holds. -/
theorem valid_of_open {d : ShardDir} {dim mb batchMs : ℕ} {metric : Metric}
    {s : Shard}
    (hsnap : ∀ image, d.snap = some image →
      Memory.Valid dim (image.index, image.versions))
    (h : Shard.open R d dim metric mb batchMs = .ok s) :
    s.Valid ∧ s.dim = dim := by
  obtain ⟨image, snapOffset, records, -, -, m, hstart, -, hreplay, rfl⟩ :=
    open_cases h
  have himage := startImage_valid hsnap hstart
  exact ⟨⟨valid_of_replay himage hreplay, hsnap⟩, rfl⟩

/-- A new directory opens to a shard with an empty index. -/
theorem open_empty_eq (R : Runtime) {dim : ℕ} {metric : Metric}
    {index : HnswIndex} (hnew : HnswIndex.new dim metric = .ok index)
    (mb batchMs : ℕ) :
    Shard.open R .empty dim metric mb batchMs = .ok {
      snap := none, dim, metric, index
      versions := ∅
      wal := Wal.open none batchMs
      snapshotThresholdBytes := thresholdOf mb
      lastSnapshotOffset := 0 } := by
  simp [Shard.open, ShardDir.empty, startImage, hnew, Wal.recover, replay]

/-- The memory that a new directory opens to. -/
theorem open_empty {dim mb batchMs : ℕ} {metric : Metric} {s : Shard}
    (h : Shard.open R .empty dim metric mb batchMs = .ok s) :
    ∃ index, HnswIndex.new dim metric = .ok index ∧ s.mem = (index, ∅) := by
  obtain ⟨image, snapOffset, records, goodEnd, walFile, m, hstart, hrecover,
    hreplay, rfl⟩ := open_cases h
  simp only [ShardDir.empty, Wal.recover, pure_eq_ok, Except.ok.injEq,
    Prod.mk.injEq] at hrecover
  rw [← hrecover.1.1, replay, pure_eq_ok, Except.ok.injEq] at hreplay
  rw [ShardDir.empty, startImage] at hstart
  cases hnew : HnswIndex.new dim metric with
  | error e => simp [hnew] at hstart
  | ok index =>
      simp only [hnew, Except.ok.injEq, Prod.mk.injEq] at hstart
      exact ⟨index, rfl, by rw [mem, ← hreplay, ← hstart.1]⟩

end Open

/-! ## Reachable shards -/

/-- The shards reached from a new directory by versioned writes, snapshots and
reopening. -/
inductive Reachable (R : Runtime) (dim : ℕ) (metric : Metric) :
    Shard → Prop
  | fresh {mb batchMs : ℕ} {s : Shard} :
      Shard.open R .empty dim metric mb batchMs = .ok s →
      Reachable R dim metric s
  | call {s : Shard} (c : ShardCall) :
      Reachable R dim metric s → Reachable R dim metric (c.apply R s).1
  | snapshot {s : Shard} :
      Reachable R dim metric s → Reachable R dim metric s.snapshotNow
  | reopen {mb batchMs : ℕ} {s s' : Shard} :
      Reachable R dim metric s →
      Shard.open R s.close dim metric mb batchMs = .ok s' →
      Reachable R dim metric s'

theorem Reachable.valid {R : Runtime} {dim : ℕ} {metric : Metric} {s : Shard}
    (h : Reachable R dim metric s) : s.Valid ∧ s.dim = dim := by
  induction h with
  | fresh hopen =>
      exact valid_of_open (fun image h => by simp [ShardDir.empty] at h) hopen
  | @call s c _ ih =>
      obtain ⟨hvalid, rfl⟩ := ih
      by_cases hc : c.record.HasDim s.dim
      · have hstep := apply_stepped (R := R) hvalid hc
        exact ⟨hstep.valid, hstep.dim_eq⟩
      · rw [apply_of_not_hasDim hc]
        exact ⟨hvalid, rfl⟩
  | snapshot _ ih => exact ⟨valid_snapshotNow ih.1, ih.2⟩
  | reopen _ hopen ih =>
      obtain ⟨hvalid, rfl⟩ := ih
      exact valid_of_open hvalid.snap hopen

/-! ## Runs of writes -/

/-- Deliver writes one after the other. -/
def runCalls (R : Runtime) (s : Shard) (calls : List ShardCall) : Shard :=
  calls.foldl (fun s c => (c.apply R s).1) s

/-- The versions and contents that the register of an id has been offered: the
stored one and those of the writes delivered. -/
def history (s : Shard) (calls : List ShardCall) (id : UInt64) :
    Set (Hlc × Content) :=
  offered (registers s.mem) (calls.map fun c => c.record.offered) id

section Runs

variable {R : Runtime} {s : Shard} {calls : List ShardCall}

theorem mem_history_iff {id : UInt64} {p : Hlc × Content} :
    p ∈ history s calls id ↔ registers s.mem id = some p ∨
      ∃ c ∈ calls, c.record.offered = (id, p) := by
  simp [history, offered]

theorem history_congr {calls' : List ShardCall}
    (h : ∀ c, c ∈ calls' ↔ c ∈ calls) (id : UInt64) :
    history s calls' id = history s calls id := by
  ext p
  simp only [mem_history_iff, h]

theorem runCalls_valid (h : s.Valid)
    (hdim : ∀ c ∈ calls, c.record.HasDim s.dim) :
    (runCalls R s calls).Valid ∧ (runCalls R s calls).dim = s.dim ∧
      registers (runCalls R s calls).mem =
        (calls.map fun c => c.record.offered).foldl (deliverWith offer)
          (registers s.mem) := by
  induction calls generalizing s with
  | nil => exact ⟨h, rfl, rfl⟩
  | cons c calls ih =>
      have hstep := apply_stepped (R := R) h (hdim c List.mem_cons_self)
      have hrest := ih hstep.valid fun c' hc' => by
        rw [hstep.dim_eq]
        exact hdim c' (List.mem_cons_of_mem c hc')
      refine ⟨hrest.1, hrest.2.1.trans hstep.dim_eq, ?_⟩
      rw [List.map_cons, List.foldl_cons, ← hstep.registers_eq]
      exact hrest.2.2

theorem isWinner_runCalls (h : s.Valid)
    (hdim : ∀ c ∈ calls, c.record.HasDim s.dim) (id : UInt64) :
    IsWinner (history s calls id)
      (registers (runCalls R s calls).mem id) := by
  rw [(runCalls_valid h hdim).2.2]
  exact isWinner_deliver _ _ id

end Runs

section Reads

variable {s : Shard}

theorem get_eq (h : s.Valid) (id : UInt64) :
    s.get id = .ok ((registers s.mem id).bind Prod.snd) := by
  have hindex : s.index.Valid := h.mem.index
  rw [get, HnswIndex.getVector_eq hindex]
  exact congrArg Except.ok (store_eq h.mem id)

theorem version_eq (h : s.Valid) (id : UInt64) :
    s.version id = (registers s.mem id).map
      fun p => { hlc := p.1, tombstone := p.2.isNone } :=
  versions_eq h.mem id

theorem len_eq (h : s.Valid) :
    s.len = {id | ∃ p, registers s.mem id = some p ∧ p.2.isSome}.ncard := by
  have hindex : s.index.Valid := h.mem.index
  rw [len, HnswIndex.len_eq hindex]
  congr 1
  ext id
  have hstore := store_eq h.mem id
  simp only [mem] at hstore
  rw [Set.mem_ofPred_eq, Set.mem_ofPred_eq, hstore]
  cases hreg : registers (s.index, s.versions) id with
  | none => simp [mem, hreg]
  | some p => simp [mem, hreg]

theorem reads_congr {s' : Shard} (h : s.Valid) (h' : s'.Valid)
    (heq : registers s.mem = registers s'.mem) :
    (∀ id, s.version id = s'.version id ∧ s.get id = s'.get id) ∧
      s.len = s'.len := by
  refine ⟨fun id => ?_, ?_⟩
  · rw [version_eq h, version_eq h', get_eq h, get_eq h', heq]
    exact ⟨rfl, rfl⟩
  · rw [len_eq h, len_eq h', heq]

end Reads

section Replay

variable {R : Runtime} {dim : ℕ}

theorem replayAll_returns {m : Memory} (h : m.Valid dim)
    {records : List WalRecord} (hdim : ∀ r ∈ records, r.HasDim dim) :
    Returns (records.foldlM (applyRecord R) m) (fun m' => m'.Valid dim ∧
      registers m' = (records.map WalRecord.offered).foldl
        (deliverWith offerLenient) (registers m)) := by
  induction records generalizing m with
  | nil => exact Returns.pure ⟨h, rfl⟩
  | cons r records ih =>
      rw [List.foldlM_cons]
      refine (applyRecord_returns h (hdim r List.mem_cons_self)).bind
        fun m' hm' => ?_
      rw [List.map_cons, List.foldl_cons, ← hm'.2]
      exact ih hm'.1 fun r hr => hdim r (List.mem_cons_of_mem _ hr)

end Replay

section Runs

variable {R : Runtime} {s : Shard} {calls : List ShardCall}

/-- A write is applied when its stamp exceeds all that its id has seen, and is
stale otherwise. -/
theorem apply_runCalls (h : s.Valid)
    (hdim : ∀ c ∈ calls, c.record.HasDim s.dim) {c : ShardCall}
    (hc : c.record.HasDim s.dim) :
    ((∀ p ∈ history s calls c.id, p.1 < c.hlc) →
      (c.apply R (runCalls R s calls)).2 = .ok .applied) ∧
    (¬ (∀ p ∈ history s calls c.id, p.1 < c.hlc) →
      c.apply R (runCalls R s calls) = (runCalls R s calls, .ok .stale)) := by
  obtain ⟨hvalid, hsameDim, -⟩ := runCalls_valid (R := R) h hdim
  have hstep := apply_stepped (R := R) hvalid (hsameDim.symm ▸ hc)
  have hiff :=
    (isWinner_runCalls (R := R) h hdim c.id).beats_iff (t := c.hlc)
  exact ⟨fun hall => hstep.applied (hiff.mpr hall),
    fun hnot => hstep.stale fun hbeats => hnot (hiff.mp hbeats)⟩

/-- What the reads of a run see of an id. -/
theorem reads_runCalls (h : s.Valid)
    (hdim : ∀ c ∈ calls, c.record.HasDim s.dim) {id : UInt64}
    (hagree : Agree (history s calls id)) :
    ((runCalls R s calls).version id = none →
      history s calls id = ∅ ∧ (runCalls R s calls).get id = .ok none) ∧
    ∀ v, (runCalls R s calls).version id = some v →
      IsGreatest {t | ∃ p ∈ history s calls id, p.1 = t} v.hlc ∧
      ∀ p ∈ history s calls id, p.1 = v.hlc →
        v.tombstone = p.2.isNone ∧
        (runCalls R s calls).get id = .ok p.2 := by
  have hvalid := (runCalls_valid (R := R) h hdim).1
  have hwin := isWinner_runCalls (R := R) h hdim id
  constructor
  · intro hnone
    rw [version_eq hvalid, Option.map_eq_none_iff] at hnone
    rw [hnone] at hwin
    refine ⟨hwin.eq_empty, ?_⟩
    rw [get_eq hvalid, hnone]
    rfl
  · intro v hv
    rw [version_eq hvalid] at hv
    obtain ⟨p, hp, rfl⟩ := Option.map_eq_some_iff.mp hv
    rw [hp] at hwin
    refine ⟨hwin.isGreatest, fun q hq hstamp => ?_⟩
    rw [get_eq hvalid, hp, hagree q hq p (hwin.mem p rfl) hstamp]
    exact ⟨rfl, rfl⟩

theorem len_runCalls (h : s.Valid)
    (hdim : ∀ c ∈ calls, c.record.HasDim s.dim)
    (hagree : ∀ id, Agree (history s calls id)) :
    (runCalls R s calls).len = {id | ∃ p ∈ history s calls id,
      p.2.isSome ∧ ∀ q ∈ history s calls id, q.1 ≤ p.1}.ncard := by
  rw [len_eq (runCalls_valid (R := R) h hdim).1]
  congr 1
  ext id
  have hiff : ∀ p, _ ↔ _ := fun p =>
    (isWinner_runCalls (R := R) h hdim id).eq_some_iff (hagree id) (p := p)
  simp only [Set.mem_ofPred_eq, hiff]
  constructor
  · rintro ⟨p, ⟨hp, hmax⟩, hsome⟩
    exact ⟨p, hp, hsome, hmax⟩
  · rintro ⟨p, hp, hsome, hmax⟩
    exact ⟨p, ⟨hp, hmax⟩, hsome⟩

theorem reads_runCalls_congr (h : s.Valid)
    (hdim : ∀ c ∈ calls, c.record.HasDim s.dim)
    (hagree : ∀ id, Agree (history s calls id)) {calls' : List ShardCall}
    (hcalls : ∀ c, c ∈ calls' ↔ c ∈ calls) :
    (∀ id, (runCalls R s calls').version id =
        (runCalls R s calls).version id ∧
      (runCalls R s calls').get id = (runCalls R s calls).get id) ∧
    (runCalls R s calls').len = (runCalls R s calls).len := by
  have hdim' : ∀ c ∈ calls', c.record.HasDim s.dim := fun c hc =>
    hdim c ((hcalls c).mp hc)
  apply reads_congr (runCalls_valid h hdim').1 (runCalls_valid h hdim).1
  funext id
  have hwin := isWinner_runCalls (R := R) h hdim' id
  rw [history_congr hcalls] at hwin
  exact hwin.unique (isWinner_runCalls h hdim id) (hagree id)

/-- Replaying the records of the writes onto the memory of a fresh shard, in any
order, gives the registers of the run. -/
theorem registers_replay (h : s.Valid)
    (hdim : ∀ c ∈ calls, c.record.HasDim s.dim)
    (hagree : ∀ id, Agree (history s calls id)) {records : List WalRecord}
    (hrecords : ∀ r, r ∈ records ↔ ∃ c ∈ calls, c.record = r) :
    Returns (records.foldlM (applyRecord R) s.mem) (fun m =>
      m.Valid s.dim ∧ registers m = registers (runCalls R s calls).mem) := by
  have hrecordsDim : ∀ r ∈ records, r.HasDim s.dim := by
    intro r hr
    obtain ⟨c, hc, rfl⟩ := (hrecords r).mp hr
    exact hdim c hc
  refine (replayAll_returns (R := R) h.mem hrecordsDim).mono ?_
  rintro m ⟨hm, hreg⟩
  refine ⟨hm, ?_⟩
  funext id
  have hwin := isWinner_deliverLenient (registers s.mem)
    (records.map WalRecord.offered) id
  have hset : offered (registers s.mem) (records.map WalRecord.offered) id =
      history s calls id := by
    ext p
    rw [mem_history_iff]
    simp only [offered, Set.mem_ofPred_eq, List.mem_map, hrecords]
    simp
  rw [hset, ← hreg] at hwin
  exact hwin.unique (isWinner_runCalls h hdim id) (hagree id)

end Runs

/-- A shard is a last-writer-wins join of the writes delivered to it, and
replaying the same writes as log records in any order joins them too. -/
theorem lww_join (R : Runtime) (dim : ℕ) (metric : Metric) :
    (∀ (s : Shard), Reachable R dim metric s →
      ∀ calls : List ShardCall, (∀ c ∈ calls, c.record.HasDim dim) →
      (∀ id, Agree (history s calls id)) →
      (∀ id, (runCalls R s calls).version id = none →
        history s calls id = ∅ ∧ (runCalls R s calls).get id = .ok none) ∧
      (∀ id v, (runCalls R s calls).version id = some v →
        IsGreatest {t | ∃ p ∈ history s calls id, p.1 = t} v.hlc ∧
        ∀ p ∈ history s calls id, p.1 = v.hlc →
          v.tombstone = p.2.isNone ∧
          (runCalls R s calls).get id = .ok p.2) ∧
      (runCalls R s calls).len = {id | ∃ p ∈ history s calls id,
        p.2.isSome ∧ ∀ q ∈ history s calls id, q.1 ≤ p.1}.ncard ∧
      (∀ before c after, calls = before ++ c :: after →
        ((∀ p ∈ history s before c.id, p.1 < c.hlc) →
          (c.apply R (runCalls R s before)).2 = .ok .applied) ∧
        (¬ (∀ p ∈ history s before c.id, p.1 < c.hlc) →
          c.apply R (runCalls R s before) =
            (runCalls R s before, .ok .stale))) ∧
      (∀ calls' : List ShardCall, (∀ c, c ∈ calls' ↔ c ∈ calls) →
        (∀ id, (runCalls R s calls').version id =
            (runCalls R s calls).version id ∧
          (runCalls R s calls').get id = (runCalls R s calls).get id) ∧
        (runCalls R s calls').len = (runCalls R s calls).len)) ∧
    (∀ (s : Shard) (mb batchMs : ℕ),
      Shard.open R .empty dim metric mb batchMs = .ok s →
      ∀ calls : List ShardCall, (∀ c ∈ calls, c.record.HasDim dim) →
      (∀ id, Agree (history s calls id)) →
      ∀ records : List WalRecord,
        (∀ r, r ∈ records ↔ ∃ c ∈ calls, c.record = r) →
      ∃ index m, HnswIndex.new dim metric = .ok index ∧
        records.foldlM (applyRecord R) (index, ∅) = .ok m ∧
        ∀ id, m.2[id]? = (runCalls R s calls).version id ∧
          (runCalls R s calls).get id = .ok (m.1.store id)) := by
  constructor
  · intro s hs calls hdim hagree
    obtain ⟨hvalid, rfl⟩ := hs.valid
    have hreads := fun id =>
      reads_runCalls (R := R) hvalid hdim (hagree id)
    refine ⟨fun id => (hreads id).1, fun id => (hreads id).2,
      len_runCalls hvalid hdim hagree, ?_,
      fun calls' => reads_runCalls_congr hvalid hdim hagree⟩
    rintro before c after rfl
    have hbefore : ∀ c ∈ before, c.record.HasDim s.dim := fun c hc =>
      hdim c (List.mem_append_left _ hc)
    exact apply_runCalls hvalid hbefore (hdim c (by simp))
  · intro s mb batchMs hopen calls hdim hagree records hrecords
    obtain ⟨hvalid, rfl⟩ := (Reachable.fresh hopen).valid
    obtain ⟨index, hnew, hmem⟩ := open_empty hopen
    obtain ⟨m, hreplay, hm, hsame⟩ :=
      registers_replay (R := R) hvalid hdim hagree hrecords
    have hrun := runCalls_valid (R := R) hvalid hdim
    rw [hmem] at hreplay
    refine ⟨index, m, hnew, hreplay, fun id => ?_⟩
    rw [version_eq hrun.1, get_eq hrun.1, versions_eq hm, store_eq hm, hsame]
    exact ⟨rfl, rfl⟩

/-- An upsert and a later delete of one id, in both orders of delivery. -/
theorem lww_join_delete_overtakes :
    ∃ s, Shard.open .constant .empty 1 .l2 0 0 = .ok s ∧
      (runCalls .constant s
          [.delete (Hlc.new 2 0) 7, .upsert (Hlc.new 1 0) 7 [0] []]).get 7 =
        (runCalls .constant s
          [.upsert (Hlc.new 1 0) 7 [0] [], .delete (Hlc.new 2 0) 7]).get 7 := by
  obtain ⟨index, hnew, -⟩ :=
    HnswIndex.new_returns .l2 one_pos
  obtain ⟨s, hopen⟩ : ∃ s, Shard.open .constant .empty 1 .l2 0 0 = .ok s :=
    ⟨_, open_empty_eq .constant hnew 0 0⟩
  obtain ⟨index', hnew', hmem⟩ := open_empty hopen
  have hagree : ∀ id, Agree (history s
      [.upsert (Hlc.new 1 0) 7 [0] [], .delete (Hlc.new 2 0) 7] id) := by
    intro id p hp q hq hstamp
    rw [mem_history_iff, hmem, (startMemory_valid hnew').2] at hp hq
    simp only [reduceCtorEq, false_or, List.mem_cons, List.not_mem_nil,
      or_false, exists_eq_or_imp, exists_eq_left, ShardCall.record,
      WalRecord.offered, WalRecord.ofUpsert, WalRecord.ofDelete,
      Prod.mk.injEq] at hp hq
    rcases hp with ⟨-, rfl⟩ | ⟨-, rfl⟩ <;> rcases hq with ⟨-, rfl⟩ | ⟨-, rfl⟩
    · rfl
    · exact absurd hstamp (by decide)
    · exact absurd hstamp (by decide)
    · rfl
  refine ⟨s, hopen, ?_⟩
  refine ((((lww_join .constant 1 .l2).1 s (.fresh hopen) _ ?_
    hagree).2.2.2.2 _ ?_).1 7).2
  · intro c hc v hv
    simp only [List.mem_cons, List.not_mem_nil, or_false] at hc
    rcases hc with rfl | rfl
    · rw [← Option.some.inj hv]
      rfl
    · simp [ShardCall.record] at hv
  · intro c
    simp [or_comm]

end Shard

end Quorvec
