import Quorvec.Storage.TruncatedLog
import Quorvec.Support.Overwriting

/-!
# Unconditional writes and recovery

The first storage interface writes whatever version is stored, so the live
memory holds the last accepted write of each id.  Replay skips a record that
an earlier one beats, so a directory opens to the greatest write of each id
since the snapshot.

A shard therefore reopens to its live state exactly if the last write of each
id is the greatest one since the last snapshot or opening.
-/

namespace Quorvec

open TotalCorrectness LastWriterWins ByteCodec Framing

namespace Shard

section Writes

variable (R : Runtime)

/-- Upsert, whatever version is stored. -/
def upsert (s : Shard) (hlc : Hlc) (id : UInt64) (vector : List F32)
    (payload : Bytes) : Shard × Except ShardError Unit :=
  if vector.length ≠ s.dim then
    (s, .error (.dimMismatch s.dim vector.length))
  else s.logAndApply R (.ofUpsert hlc id vector payload)

/-- Delete, whatever version is stored; answers whether the id was live. -/
def delete (s : Shard) (hlc : Hlc) (id : UInt64) :
    Shard × Except ShardError Bool :=
  match s.logAndApply R (.ofDelete hlc id) with
  | (s', .error e) => (s', .error e)
  | (s', .ok ()) =>
      match s.index.delete id with
      | .error e => (s', .error (.ofIndex e))
      | .ok (_, removed) => (s', .ok removed)

/-- A snapshot follows the record: the log has then grown by the threshold. -/
def SnapshotDue (s : Shard) (r : WalRecord) : Prop :=
  s.snapshotThresholdBytes ≠ 0 ∧
    s.snapshotThresholdBytes ≤
      (s.wal.append R.crc32 r).1.offset - s.lastSnapshotOffset

instance (s : Shard) (r : WalRecord) : Decidable (s.SnapshotDue R r) :=
  inferInstanceAs (Decidable (_ ∧ _))

/-- Dropping the shard and opening it again changes nothing that a read
sees. -/
def ReopensToItself (metric : Metric) (s : Shard) : Prop :=
  ∀ mb batchMs, ∃ s',
    Shard.open R s.close s.dim metric mb batchMs = .ok s' ∧
      (∀ id, s'.version id = s.version id ∧ s'.get id = s.get id) ∧
      s'.len = s.len

end Writes

end Shard

/-- A write through either interface. -/
inductive ShardWrite
  | versioned (c : ShardCall)
  | unconditional (c : ShardCall)

namespace ShardWrite

def record : ShardWrite → WalRecord
  | versioned c => c.record
  | unconditional c => c.record

def apply (R : Runtime) (s : Shard) : ShardWrite → Shard
  | versioned c => (c.apply R s).1
  | unconditional (.upsert hlc id vector payload) =>
      (s.upsert R hlc id vector payload).1
  | unconditional (.delete hlc id) => (s.delete R hlc id).1

/-- The write is logged. -/
def Accepted (s : Shard) : ShardWrite → Prop
  | versioned c => c.Accepted s.dim s.mem
  | unconditional c => c.record.HasDim s.dim

instance (s : Shard) : (w : ShardWrite) → Decidable (w.Accepted s)
  | versioned c => inferInstanceAs (Decidable (c.Accepted _ _))
  | unconditional _ => inferInstanceAs (Decidable (WalRecord.HasDim _ _))

end ShardWrite

/-- A shard, with what it was opened with and what it accepted. -/
structure Tracked where
  shard : Shard
  /-- The registers at the last snapshot or opening. -/
  base : UInt64 → Option (Hlc × Content)
  /-- The writes accepted since then. -/
  since : List (UInt64 × Hlc × Content)

namespace Tracked

/-- After a snapshot or an opening. -/
def restart (s : Shard) : Tracked :=
  { shard := s, base := registers s.mem, since := [] }

def write (R : Runtime) (t : Tracked) (w : ShardWrite) : Tracked :=
  if w.Accepted t.shard then
    if t.shard.SnapshotDue R w.record then restart (w.apply R t.shard)
    else
      { t with
        shard := w.apply R t.shard
        since := t.since ++ [w.record.offered] }
  else { t with shard := w.apply R t.shard }

theorem write_of_accepted {R : Runtime} {t : Tracked} {w : ShardWrite}
    (h : w.Accepted t.shard) (hdue : ¬ t.shard.SnapshotDue R w.record) :
    t.write R w =
      { t with
        shard := w.apply R t.shard
        since := t.since ++ [w.record.offered] } := by
  rw [write, if_pos h, if_neg hdue]

end Tracked

/-- Runs of a shard from an empty directory: writes through both interfaces,
snapshots and reopenings.  Accepted writes fit their frames. -/
inductive LegacyRun (R : Runtime) (dim : ℕ) (metric : Metric) :
    Tracked → Prop
  | fresh {mb batchMs : ℕ} {s : Shard} :
      Shard.open R .empty dim metric mb batchMs = .ok s →
      LegacyRun R dim metric (.restart s)
  | write {t : Tracked} (w : ShardWrite) :
      LegacyRun R dim metric t →
      (w.Accepted t.shard → w.record.FitsFrame) →
      LegacyRun R dim metric (t.write R w)
  | snapshotNow {t : Tracked} :
      LegacyRun R dim metric t →
      LegacyRun R dim metric (.restart t.shard.snapshotNow)
  | reopen {mb batchMs : ℕ} {t : Tracked} {s' : Shard} :
      LegacyRun R dim metric t →
      Shard.open R t.shard.close dim metric mb batchMs = .ok s' →
      LegacyRun R dim metric (.restart s')

/-! ## One write -/

section Write

variable {R : Runtime} {s : Shard} {w : ShardWrite}

/-- The shard after an accepted write: the record is logged and applied, and a
snapshot is taken if it is due. -/
theorem ShardWrite.apply_of_accepted (h : w.Accepted s) {m' : Memory}
    (happly : applyOp R s.mem w.record = .ok m') :
    w.apply R s =
      ({ s with
          wal := (s.wal.append R.crc32 w.record).1
          index := m'.1
          versions := m'.2 } : Shard).maybeSnapshot := by
  cases w with
  | versioned c => exact Shard.apply_of_accepted h.1 h.2 happly
  | unconditional c =>
      have hlog := Shard.logAndApply_of_ok happly
      cases c with
      | upsert hlc id vector payload =>
          have hlen : vector.length = s.dim := h vector rfl
          show (s.upsert R hlc id vector payload).1 = _
          rw [Shard.upsert, if_neg (not_not_intro hlen)]
          exact congrArg Prod.fst hlog
      | delete hlc id =>
          show (s.delete R hlc id).1 = _
          have hlog' : s.logAndApply R (.ofDelete hlc id) = _ := hlog
          rw [Shard.delete, hlog']
          cases s.index.delete id <;> rfl

/-- A write that is not accepted does nothing. -/
theorem ShardWrite.apply_of_not_accepted (hs : s.Valid)
    (h : ¬ w.Accepted s) : w.apply R s = s := by
  cases w with
  | versioned c =>
      by_cases hdim : c.record.HasDim s.dim
      · have hstale : ¬ Beats c.record.hlc (registers s.mem c.record.id) :=
          fun hbeats => h ⟨hdim, hbeats⟩
        exact congrArg Prod.fst
          ((Shard.apply_stepped (R := R) hs hdim).stale hstale)
      · exact Shard.apply_of_not_hasDim hdim
  | unconditional c =>
      cases c with
      | upsert hlc id vector payload =>
          have hlen : vector.length ≠ s.dim := by
            intro hlen
            apply h
            intro v hv
            rwa [← Option.some.inj hv]
          show (s.upsert R hlc id vector payload).1 = s
          rw [Shard.upsert, if_pos hlen]
      | delete hlc id => exact absurd (fun v hv => by
          simp [ShardCall.record] at hv) h

theorem ShardWrite.hasDim_of_accepted (h : w.Accepted s) :
    w.record.HasDim s.dim := by
  cases w with
  | versioned c => exact h.1
  | unconditional c => exact h

theorem Shard.maybeSnapshot_eq (s : Shard) :
    s.maybeSnapshot =
      if s.snapshotThresholdBytes ≠ 0 ∧
          s.snapshotThresholdBytes ≤ s.wal.offset - s.lastSnapshotOffset then
        s.snapshotNow
      else s := by
  unfold Shard.maybeSnapshot
  by_cases hzero : s.snapshotThresholdBytes = 0
  · rw [if_pos hzero, if_neg (fun h => h.1 hzero)]
  · rw [if_neg hzero]
    exact if_congr (by simp [hzero]) rfl rfl

/-- Reads determine the registers. -/
theorem Shard.registers_eq_of_reads {s' : Shard} (h : s.Valid)
    (h' : s'.Valid)
    (hreads : ∀ id, s'.version id = s.version id ∧ s'.get id = s.get id) :
    registers s'.mem = registers s.mem := by
  funext id
  obtain ⟨hversion, hget⟩ := hreads id
  rw [get_eq h, get_eq h', Except.ok.injEq] at hget
  rw [version_eq h, version_eq h'] at hversion
  cases hs : registers s.mem id with
  | none =>
      rw [hs, Option.map_none, Option.map_eq_none_iff] at hversion
      exact hversion
  | some p =>
      rw [hs, Option.map_some, Option.map_eq_some_iff] at hversion
      obtain ⟨q, hq, hpq⟩ := hversion
      rw [PointVersion.mk.injEq] at hpq
      rw [hq, hs] at hget
      rw [hq, Prod.ext hpq.1 hget]

end Write

/-! ## The invariant -/

/-- The live registers took every write since the base, and the files stand for
registers that took them leniently. -/
structure TracksFiles (R : Runtime) (dim : ℕ) (metric : Metric)
    (t : Tracked) : Prop where
  valid : t.shard.Valid
  dim_eq : t.shard.dim = dim
  live : registers t.shard.mem =
    t.since.foldl (deliverWith overwrite) t.base
  onDisk : ∃ rs offset m, OnDisk R dim metric t.shard rs offset m ∧
    offset ≤ (Wal.logBytes R.crc32 rs).length ∧ m.Valid dim ∧
    registers m = t.since.foldl (deliverWith offerLenient) t.base

section Invariant

variable {R : Runtime} {dim : ℕ} {metric : Metric} {t : Tracked} {s : Shard}

theorem tracksFiles_restart {rs : List WalRecord} {offset : ℕ}
    (hvalid : s.Valid) (hdim : s.dim = dim)
    (hdisk : OnDisk R dim metric s rs offset s.mem)
    (hle : offset ≤ (Wal.logBytes R.crc32 rs).length) :
    TracksFiles R dim metric (.restart s) where
  valid := hvalid
  dim_eq := hdim
  live := rfl
  onDisk := ⟨rs, offset, s.mem, hdisk, hle, hdim ▸ hvalid.mem, rfl⟩

theorem tracksFiles_fresh {mb batchMs : ℕ}
    (hopen : Shard.open R .empty dim metric mb batchMs = .ok s) :
    TracksFiles R dim metric (.restart s) := by
  obtain ⟨hvalid, hdim⟩ :=
    Shard.valid_of_open (by simp [ShardDir.empty]) hopen
  obtain ⟨rs, offset, hdisk, -, hsnap, -⟩ := onDisk_open hopen
  obtain ⟨image, hstart, -⟩ := hdisk.replays
  have hzero : offset = 0 :=
    Shard.offset_of_startImage_none (hsnap ▸ hstart)
  exact tracksFiles_restart hvalid hdim hdisk (by omega)

theorem TracksFiles.snapshotNow (h : TracksFiles R dim metric t) :
    TracksFiles R dim metric (.restart t.shard.snapshotNow) := by
  obtain ⟨rs, offset, m, hdisk, -⟩ := h.onDisk
  exact tracksFiles_restart (Shard.valid_snapshotNow h.valid) h.dim_eq
    hdisk.snapshotNow le_rfl

theorem OnDisk.valid_reopen {rs : List WalRecord} {offset : ℕ} {m : Memory}
    (h : OnDisk R dim metric s rs offset m) (hs : s.Valid) (hdim : s.dim = dim)
    (hm : m.Valid dim) {mb batchMs : ℕ} {s' : Shard}
    (hopen : Shard.open R s.close dim metric mb batchMs = .ok s') :
    s'.Valid ∧ s'.dim = dim ∧ s'.mem = m ∧
      OnDisk R dim metric s' rs offset m := by
  obtain ⟨hdisk, hmem, hdim', hsnap⟩ := (h.reopen mb batchMs).of_eq_ok hopen
  refine ⟨⟨?_, fun image himage => ?_⟩, hdim', hmem, hdisk⟩
  · rw [hmem, hdim']
    exact hm
  · rw [hdim', ← hdim]
    exact hs.snap image (hsnap ▸ himage)

theorem TracksFiles.reopen (h : TracksFiles R dim metric t) {mb batchMs : ℕ}
    {s' : Shard}
    (hopen : Shard.open R t.shard.close dim metric mb batchMs = .ok s') :
    TracksFiles R dim metric (.restart s') := by
  obtain ⟨rs, offset, m, hdisk, hle, hm, -⟩ := h.onDisk
  obtain ⟨hvalid, hdim, hmem, hdisk'⟩ :=
    hdisk.valid_reopen h.valid h.dim_eq hm hopen
  exact tracksFiles_restart hvalid hdim (hmem.symm ▸ hdisk') hle

/-- A write that is logged. -/
theorem TracksFiles.write_accepted (h : TracksFiles R dim metric t)
    {w : ShardWrite} (hw : w.Accepted t.shard) (hfits : w.record.FitsFrame) :
    TracksFiles R dim metric (t.write R w) := by
  obtain ⟨rs, offset, m, hdisk, hle, hm, hreg⟩ := h.onDisk
  have hdim := ShardWrite.hasDim_of_accepted hw
  obtain ⟨live, happly, hlive⟩ := applyOp_returns (R := R) h.valid.mem hdim
  obtain ⟨m', hrecord, hm', hreg'⟩ :=
    applyRecord_returns (R := R) hm (h.dim_eq ▸ hdim)
  -- the record is replayed, since it ends beyond the snapshot
  have hreplay : replay R offset [w.record]
      (Wal.logBytes R.crc32 rs).length m = .ok m' := by
    rw [replay_of_offset_le hle, List.foldlM_cons, hrecord]
    rfl
  let s' : Shard := { t.shard with
    wal := (t.shard.wal.append R.crc32 w.record).1
    index := live.1
    versions := live.2 }
  have hvalid : s'.Valid := ⟨hlive.valid, h.valid.snap⟩
  have hdisk' : OnDisk R dim metric s' (rs ++ [w.record]) offset m' :=
    hdisk.append hfits hreplay live.1 live.2
  have hshard : w.apply R t.shard =
      if t.shard.SnapshotDue R w.record then s'.snapshotNow else s' :=
    (ShardWrite.apply_of_accepted hw happly).trans (Shard.maybeSnapshot_eq s')
  rw [Tracked.write, if_pos hw, hshard]
  by_cases hdue : t.shard.SnapshotDue R w.record
  · rw [if_pos hdue, if_pos hdue]
    exact tracksFiles_restart (Shard.valid_snapshotNow hvalid) h.dim_eq
      hdisk'.snapshotNow le_rfl
  · rw [if_neg hdue, if_neg hdue]
    refine ⟨hvalid, h.dim_eq, ?_, rs ++ [w.record], offset, m', hdisk', ?_,
      hm', ?_⟩
    · rw [List.foldl_append, ← h.live]
      exact hlive.registers_eq
    · rw [Wal.logBytes_append, List.length_append]
      omega
    · rw [List.foldl_append, ← hreg]
      exact hreg'

theorem TracksFiles.write (h : TracksFiles R dim metric t) {w : ShardWrite}
    (hfits : w.Accepted t.shard → w.record.FitsFrame) :
    TracksFiles R dim metric (t.write R w) := by
  by_cases hw : w.Accepted t.shard
  · exact h.write_accepted hw (hfits hw)
  · rw [Tracked.write, if_neg hw, ShardWrite.apply_of_not_accepted h.valid hw]
    exact h

theorem LegacyRun.tracksFiles (h : LegacyRun R dim metric t) :
    TracksFiles R dim metric t := by
  induction h with
  | fresh hopen => exact tracksFiles_fresh hopen
  | write w _ hfits ih => exact ih.write hfits
  | snapshotNow _ ih => exact ih.snapshotNow
  | reopen _ hopen ih => exact ih.reopen hopen

/-- The reopened shard has the registers that the files stand for. -/
theorem TracksFiles.reopens_iff (h : TracksFiles R dim metric t) :
    t.shard.ReopensToItself R metric ↔ LastIsGreatest t.base t.since := by
  obtain ⟨rs, offset, m, hdisk, -, hm, hreg⟩ := h.onDisk
  rw [← overwrite_eq_lenient_iff, ← h.live, ← hreg,
    Shard.ReopensToItself, h.dim_eq]
  constructor
  · intro hall
    obtain ⟨s', hopen, hreads, -⟩ := hall 0 0
    obtain ⟨hvalid, -, hmem, -⟩ :=
      hdisk.valid_reopen h.valid h.dim_eq hm hopen
    rw [← hmem]
    exact (Shard.registers_eq_of_reads h.valid hvalid hreads).symm
  · intro heq mb batchMs
    obtain ⟨s', hopen, -⟩ := hdisk.reopen mb batchMs
    obtain ⟨hvalid, -, hmem, -⟩ :=
      hdisk.valid_reopen h.valid h.dim_eq hm hopen
    rw [← hmem] at heq
    obtain ⟨hreads, hlen⟩ := Shard.reads_congr hvalid h.valid heq.symm
    exact ⟨s', hopen, hreads, hlen⟩

/-- A shard reopens to its live state exactly if the last accepted write of
each id has the greatest stamp since the last snapshot or opening. -/
theorem LegacyRun.reopensToItself_iff (h : LegacyRun R dim metric t) :
    t.shard.ReopensToItself R metric ↔ LastIsGreatest t.base t.since :=
  h.tracksFiles.reopens_iff

end Invariant

/-- An upsert and a delete with a greater stamp, both through the legacy
interface. -/
theorem LegacyRun.reopensToItself_iff_deleted :
    ∃ s, Shard.open .constant .empty 1 .l2 0 0 = .ok s ∧
      let t := (Tracked.restart s).write .constant
        (.unconditional (.upsert (Hlc.new 2 0) 7 [0] []))
      (t.write .constant
        (.unconditional (.delete (Hlc.new 3 0) 7))).shard.ReopensToItself
        .constant .l2 := by
  let w : ShardWrite := .unconditional (.upsert (Hlc.new 2 0) 7 [0] [])
  let w' : ShardWrite := .unconditional (.delete (Hlc.new 3 0) 7)
  have hrun : (match Shard.open .constant .empty 1 .l2 0 0 with
      | .error _ => false
      | .ok s => decide (w.Accepted s ∧ ¬ s.SnapshotDue .constant w.record ∧
          w'.Accepted (w.apply .constant s) ∧
          ¬ (w.apply .constant s).SnapshotDue .constant w'.record)) =
      true := by
    decide +kernel
  cases hopen : Shard.open .constant .empty 1 .l2 0 0 with
  | error e => simp [hopen] at hrun
  | ok s =>
      simp only [hopen] at hrun
      obtain ⟨hw, hdue, hw', hdue'⟩ := of_decide_eq_true hrun
      obtain ⟨index, hnew, hmem⟩ := Shard.open_empty hopen
      have hnone := (startMemory_valid hnew).2
      have hfirst : (Tracked.restart s).write .constant w =
          { shard := w.apply .constant s
            base := registers s.mem
            since := [w.record.offered] } :=
        Tracked.write_of_accepted hw hdue
      refine ⟨s, rfl, (LegacyRun.reopensToItself_iff (.write w'
        (.write w (.fresh hopen) fun _ => by decide)
        fun _ => by decide)).mpr ?_⟩
      rw [hfirst, Tracked.write_of_accepted hw' hdue', hmem, hnone]
      refine LastIsGreatest.append (w := w'.record.offered)
        (lastIsGreatest_singleton w.record.offered) fun q hq => ?_
      -- The delete is stamped above the one value its id was offered.
      obtain hq | hq := hq
      · cases hq
      · rw [List.mem_singleton] at hq
        obtain rfl : q = w.record.offered.2 := congrArg Prod.snd hq
        decide

/-- An upsert with a lower stamp than the stored one is live until the shard
is closed; the reopened shard has the version before it. -/
theorem LegacyRun.not_reopensToItself :
    ∃ s, Shard.open .constant .empty 1 .l2 0 0 = .ok s ∧
      let s₁ := s.upsert .constant (Hlc.new 2 0) 7 [0] []
      let s₂ := s₁.1.upsert .constant (Hlc.new 1 0) 7 [1] []
      s₁.2 = .ok () ∧ s₂.2 = .ok () ∧
        s₂.1.get 7 = .ok (some [1]) ∧
        ¬ s₂.1.ReopensToItself .constant .l2 := by
  have hrun : (match Shard.open .constant .empty 1 .l2 0 0 with
      | .error _ => false
      | .ok s =>
          let s₁ := s.upsert .constant (Hlc.new 2 0) 7 [0] []
          let s₂ := s₁.1.upsert .constant (Hlc.new 1 0) 7 [1] []
          match Shard.open .constant s₂.1.close s₂.1.dim .l2 0 0 with
          | .error _ => false
          | .ok s₃ => decide (s₁.2 = .ok () ∧ s₂.2 = .ok () ∧
              s₂.1.get 7 = .ok (some [1]) ∧ s₃.get 7 = .ok (some [0]))) =
      true := by
    decide +kernel
  cases hopen : Shard.open .constant .empty 1 .l2 0 0 with
  | error e => simp [hopen] at hrun
  | ok s =>
      simp only [hopen] at hrun
      split at hrun
      · simp at hrun
      · rename_i s₃ hreopen
        obtain ⟨hfirst, hsecond, hlive, hfound⟩ := of_decide_eq_true hrun
        refine ⟨s, rfl, hfirst, hsecond, hlive, fun hall => ?_⟩
        obtain ⟨s', hreopen', hreads, -⟩ := hall 0 0
        rw [hreopen, Except.ok.injEq] at hreopen'
        have hget := (hreads 7).2
        rw [← hreopen', hfound, hlive] at hget
        exact absurd hget (by decide)

end Quorvec
