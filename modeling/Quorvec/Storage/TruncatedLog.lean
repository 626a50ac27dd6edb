import Quorvec.Storage.Acknowledged
import Quorvec.Storage.Recovery

/-!
# Logs that are shorter than their snapshot

Recovery cuts the log at its first bad frame, whatever offset the snapshot
covers, and new records are appended there.  The next open skips the records
that end up to the snapshot's offset.  So when the log was cut below it, the
first records after the recovery are skipped as well.

Nothing is skipped that was not in the snapshot when the first frame that can
be appended ends beyond its offset.
-/

namespace Quorvec

open TotalCorrectness LastWriterWins ByteCodec Framing

/-- The end of the longest intact prefix of a log. -/
def Wal.intactEnd (crc32 : Bytes → UInt32) (file : Option Bytes) : ℕ :=
  match Wal.recover crc32 file with
  | .ok ((_, goodEnd), _) => goodEnd
  | .error _ => 0

/-- The snapshot of the directory is one that a shard of this dimension
writes. -/
def ShardDir.Valid (dim : ℕ) (dir : ShardDir) : Prop :=
  ∀ image, dir.snap = some image →
    Memory.Valid dim (image.index, image.versions)

namespace Shard

section Model

variable (R : Runtime)

/-- The writes that are acknowledged, applied or stale. -/
def acknowledged : Shard → List ShardCall → List ShardCall
  | _, [] => []
  | s, c :: calls =>
      match c.apply R s with
      | (s, .ok _) => c :: acknowledged s calls
      | (s, .error _) => acknowledged s calls

/-- Whatever is written after the directory is opened, with records that fit
their frames: when the shard is closed and opened again, every write that was
acknowledged is present or superseded. -/
def AcksSurvive (dim : ℕ) (metric : Metric) (dir : ShardDir) : Prop :=
  ∀ mb batchMs s, Shard.open R dir dim metric mb batchMs = .ok s →
    ∀ calls : List ShardCall, (∀ c ∈ calls, c.record.FitsFrame) →
    ∀ mb' batchMs', ∃ s',
      Shard.open R (runCalls R s calls).close dim metric mb' batchMs' =
          .ok s' ∧
        ∀ c ∈ acknowledged R s calls,
          AtLeast (registers s'.mem c.id) c.hlc

end Model

end Shard

theorem Hlc.le_greatest (h : Hlc) : h ≤ greatest := by
  have hw := h.wallMs_lt
  have hc := h.counter_lt
  rw [le_iff]
  show h.wallMs < 2 ^ 48 - 1 ∨
    h.wallMs = 2 ^ 48 - 1 ∧ h.counter ≤ 2 ^ 16 - 1
  omega

/-! ## Replaying longer logs -/

section Replay

variable {R : Runtime}

theorem framedLen_ge (r : WalRecord) : 33 ≤ framedLen r := by
  unfold framedLen
  omega

theorem length_logBytes_singleton (crc32 : Bytes → UInt32) (r : WalRecord) :
    (Wal.logBytes crc32 [r]).length = framedLen r := by
  rw [length_logBytes_cons, Wal.logBytes_eq, frames_nil]
  rfl

theorem replay_append (offset pos : ℕ) (rs rs' : List WalRecord)
    (m : Memory) :
    replay R offset (rs ++ rs') pos m = (do
      let m ← replay R offset rs pos m
      replay R offset rs' (pos + (Wal.logBytes R.crc32 rs).length) m) := by
  induction rs generalizing pos m with
  | nil => simp [replay, Wal.logBytes_eq]
  | cons r rs ih =>
      rw [length_logBytes_cons, List.cons_append, replay, replay]
      split_ifs
      · rw [bind_assoc]
        congr 1
        funext m'
        rw [ih, Nat.add_assoc]
      · rw [ih, Nat.add_assoc]

theorem replay_of_le_offset {offset pos : ℕ} {rs : List WalRecord}
    (h : pos + (Wal.logBytes R.crc32 rs).length ≤ offset) (m : Memory) :
    replay R offset rs pos m = .ok m := by
  induction rs generalizing pos with
  | nil => rfl
  | cons r rs ih =>
      rw [length_logBytes_cons] at h
      rw [replay, if_neg (by omega)]
      exact ih (by omega)

theorem Shard.offset_of_startImage_none {dim offset : ℕ} {metric : Metric}
    {image : Memory}
    (h : Shard.startImage none dim metric = .ok (image, offset)) :
    offset = 0 := by
  unfold Shard.startImage at h
  split at h
  · simp at *
  · split at h
    · simp only [Except.ok.injEq, Prod.mk.injEq] at h
      exact h.2.symm
    · simp at h

theorem Wal.recover_returns (crc32 : Bytes → UInt32) (file : Option Bytes) :
    ∃ rs goodEnd file', Wal.recover crc32 file =
      .ok ((rs, goodEnd), file') := by
  cases file with
  | none => exact ⟨_, _, _, rfl⟩
  | some content =>
      obtain ⟨rs, t, rfl, hrs, ht⟩ := Wal.exists_logBytes_append crc32 content
      exact ⟨_, _, _, Wal.recover_logBytes_append hrs ht⟩

/-- What recovery makes of any file. -/
theorem Wal.recover_cases {crc32 : Bytes → UInt32} {file file' : Option Bytes}
    {rs : List WalRecord} {goodEnd : ℕ}
    (h : Wal.recover crc32 file = .ok ((rs, goodEnd), file')) :
    (∀ r ∈ rs, r.FitsFrame) ∧ file'.getD [] = Wal.logBytes crc32 rs ∧
      goodEnd = (Wal.logBytes crc32 rs).length ∧
      Wal.intactEnd crc32 file = goodEnd := by
  have hend : Wal.intactEnd crc32 file = goodEnd := by
    rw [Wal.intactEnd, h]
  cases file with
  | none =>
      simp only [Wal.recover, pure_eq_ok, Except.ok.injEq, Prod.mk.injEq] at h
      obtain ⟨⟨rfl, rfl⟩, rfl⟩ := h
      exact ⟨by simp, by simp [Wal.logBytes_eq], by simp [Wal.logBytes_eq],
        hend⟩
  | some content =>
      obtain ⟨rs', t, rfl, hrs, ht⟩ :=
        Wal.exists_logBytes_append crc32 content
      rw [Wal.recover_logBytes_append hrs ht] at h
      simp only [Except.ok.injEq, Prod.mk.injEq] at h
      obtain ⟨⟨rfl, rfl⟩, rfl⟩ := h
      exact ⟨hrs, rfl, rfl, hend⟩

end Replay

/-! ## The invariant -/

/-- The files of a shard: the records of the log, the offset of the snapshot,
and the memory that they open to. -/
structure OnDisk (R : Runtime) (dim : ℕ) (metric : Metric) (s : Shard)
    (rs : List WalRecord) (offset : ℕ) (m : Memory) : Prop where
  clean : s.wal.Clean
  fits : ∀ r ∈ rs, r.FitsFrame
  contents : s.wal.writer.contents = Wal.logBytes R.crc32 rs
  len : s.wal.len = (Wal.logBytes R.crc32 rs).length
  replays : ∃ image, Shard.startImage s.snap dim metric = .ok (image, offset) ∧
    replay R offset rs 0 image = .ok m

/-- The files rebuild the memory, and the next record will be replayed, unless
no record can be accepted. -/
structure Restorable (R : Runtime) (dim : ℕ) (metric : Metric) (s : Shard) :
    Prop where
  valid : s.Valid
  dim_eq : s.dim = dim
  onDisk : ∃ rs offset, OnDisk R dim metric s rs offset s.mem ∧
    (offset < (Wal.logBytes R.crc32 rs).length + 33 ∨
      ∀ id, AtLeast (registers s.mem id) Hlc.greatest)

section Invariant

variable {R : Runtime} {dim : ℕ} {metric : Metric} {s : Shard}
variable {rs : List WalRecord} {offset : ℕ} {m : Memory}

theorem Wal.close_of_clean {w : Wal} (h : w.Clean) :
    w.close = w.writer.contents := by
  rw [Wal.close, ← BufferedWriter.contents_of_buf_nil (Wal.synced_flush h),
    Wal.contents_flush]

theorem Wal.contents_append_of_logBytes {w : Wal}
    (h : w.writer.contents = Wal.logBytes R.crc32 rs) (r : WalRecord) :
    (w.append R.crc32 r).1.writer.contents =
      Wal.logBytes R.crc32 (rs ++ [r]) := by
  rw [Wal.contents_append, h, Wal.logBytes_append, Wal.logBytes_eq [_],
    frames_cons, frames_nil, List.append_nil]

/-- A shard that is closed opens to what its files stand for, and leaves the
files as they are. -/
theorem OnDisk.reopen (h : OnDisk R dim metric s rs offset m)
    (mb batchMs : ℕ) :
    Returns (Shard.open R s.close dim metric mb batchMs)
      (fun s' => OnDisk R dim metric s' rs offset m ∧ s'.mem = m ∧
        s'.dim = dim ∧ s'.snap = s.snap) := by
  obtain ⟨image, hstart, hreplay⟩ := h.replays
  have hclose : s.wal.close = Wal.logBytes R.crc32 rs :=
    (Wal.close_of_clean h.clean).trans h.contents
  refine ⟨{
    snap := s.snap, dim, metric
    index := m.1
    versions := m.2
    wal := Wal.open (some (Wal.logBytes R.crc32 rs)) batchMs
    snapshotThresholdBytes := Shard.thresholdOf mb
    lastSnapshotOffset := offset }, ?_, ?_, rfl, rfl, rfl⟩
  · simp only [Shard.open, Shard.close, hclose, hstart,
      Wal.recover_logBytes h.fits, hreplay, ok_bind, pure_eq_ok]
  · exact ⟨Wal.clean_open _ _, h.fits, Wal.contents_open _ _, rfl,
      image, hstart, hreplay⟩

theorem OnDisk.open_close (h : OnDisk R dim metric s rs offset m)
    (mb batchMs : ℕ) :
    Returns (Shard.open R s.close dim metric mb batchMs)
      (fun s' => s'.mem = m) :=
  (h.reopen mb batchMs).mono fun _ h' => h'.2.1

/-- Logging a record. -/
theorem OnDisk.append (h : OnDisk R dim metric s rs offset m)
    {r : WalRecord} (hr : r.FitsFrame) {m' : Memory}
    (hreplay : replay R offset [r] (Wal.logBytes R.crc32 rs).length m =
      .ok m') (index : HnswIndex) (versions : Versions) :
    OnDisk R dim metric
      { s with wal := (s.wal.append R.crc32 r).1, index, versions }
      (rs ++ [r]) offset m' := by
  obtain ⟨image, hstart, hold⟩ := h.replays
  constructor
  · exact Wal.clean_append _ _
  · intro x hx
    rcases List.mem_append.mp hx with hx | hx
    · exact h.fits x hx
    · rwa [List.mem_singleton.mp hx]
  · exact Wal.contents_append_of_logBytes h.contents r
  · have hfield : (UInt32.ofNat (4 + r.encodeBody.length)).toNat =
        4 + r.encodeBody.length := UInt32.toNat_ofNat_of_lt' hr
    rw [Wal.len_append, h.len, hfield, Wal.logBytes_append,
      List.length_append, length_logBytes_singleton, framedLen_eq R.crc32,
      length_frame]
    omega
  · refine ⟨image, hstart, ?_⟩
    rw [replay_append, hold, ok_bind, Nat.zero_add, hreplay]

/-- A snapshot covers the whole log, and the files stand for the memory. -/
theorem OnDisk.snapshotNow (h : OnDisk R dim metric s rs offset m) :
    OnDisk R dim metric s.snapshotNow rs (Wal.logBytes R.crc32 rs).length
      s.mem := by
  constructor
  · exact Wal.clean_of_synced (Wal.synced_flush h.clean)
  · exact h.fits
  · exact (Wal.contents_flush s.wal).trans h.contents
  · exact (Wal.len_flush s.wal).trans h.len
  · refine ⟨s.mem, ?_, replay_of_le_offset (Nat.zero_add _).le _⟩
    show Except.ok (s.mem, s.wal.flush.len) = _
    rw [Wal.len_flush, h.len]

theorem Restorable.snapshotNow (h : Restorable R dim metric s) :
    Restorable R dim metric s.snapshotNow := by
  obtain ⟨rs, offset, hdisk, -⟩ := h.onDisk
  exact ⟨Shard.valid_snapshotNow h.valid, h.dim_eq, rs, _, hdisk.snapshotNow,
    .inl (by omega)⟩

theorem Restorable.maybeSnapshot (h : Restorable R dim metric s) :
    Restorable R dim metric s.maybeSnapshot := by
  rcases Shard.maybeSnapshot_cases s with hs | hs <;> rw [hs]
  · exact h
  · exact h.snapshotNow

/-- One write. -/
theorem Restorable.apply (h : Restorable R dim metric s) {c : ShardCall}
    (hc : c.record.FitsFrame) : Restorable R dim metric (c.apply R s).1 := by
  by_cases hdim : c.record.HasDim s.dim
  swap
  · rwa [Shard.apply_of_not_hasDim hdim]
  have hstep := Shard.apply_stepped (R := R) h.valid hdim
  by_cases hbeats : Beats c.record.hlc (registers s.mem c.record.id)
  swap
  · rwa [hstep.stale hbeats]
  obtain ⟨rs, offset, hdisk, hnext⟩ := h.onDisk
  have hreach : offset < (Wal.logBytes R.crc32 rs).length + 33 := by
    apply hnext.resolve_right
    intro hall
    apply not_beats_iff.mpr _ hbeats
    obtain ⟨p, hp, hle⟩ := hall c.record.id
    exact ⟨p, hp, (Hlc.le_greatest _).trans hle⟩
  have hframe := framedLen_ge c.record
  obtain ⟨m', happly, hm'⟩ := applyOp_returns (R := R) h.valid.mem hdim
  have hreplay : replay R offset [c.record] (Wal.logBytes R.crc32 rs).length
      s.mem = .ok m' := by
    rw [replay, if_pos (by omega), applyRecord_of_beats hbeats, happly]
    rfl
  rw [Shard.apply_of_accepted hdim hbeats happly]
  apply Restorable.maybeSnapshot
  refine ⟨⟨hm'.valid, h.valid.snap⟩, h.dim_eq, _, _,
    hdisk.append hc hreplay m'.1 m'.2, .inl ?_⟩
  rw [Wal.logBytes_append, List.length_append]
  omega

theorem Restorable.runCalls (h : Restorable R dim metric s)
    {calls : List ShardCall} (hfits : ∀ c ∈ calls, c.record.FitsFrame) :
    Restorable R dim metric (Shard.runCalls R s calls) := by
  induction calls generalizing s with
  | nil => exact h
  | cons c calls ih =>
      exact ih (h.apply (hfits c List.mem_cons_self)) fun c' hc' =>
        hfits c' (List.mem_cons_of_mem c hc')

theorem Shard.atLeast_runCalls {id : UInt64} {t : Hlc}
    (h : AtLeast (registers s.mem id) t) (calls : List ShardCall) :
    AtLeast (registers (Shard.runCalls R s calls).mem id) t := by
  induction calls generalizing s with
  | nil => exact h
  | cons c calls ih => exact ih (Shard.atLeast_apply h)

/-- What was acknowledged is held in memory. -/
theorem Shard.atLeast_of_acknowledged {calls : List ShardCall} {c : ShardCall}
    (h : c ∈ Shard.acknowledged R s calls) :
    AtLeast (registers (Shard.runCalls R s calls).mem c.id) c.hlc := by
  induction calls generalizing s with
  | nil => simp [Shard.acknowledged] at h
  | cons first calls ih =>
      have hrun : Shard.runCalls R s (first :: calls) =
          Shard.runCalls R (first.apply R s).1 calls := rfl
      rw [hrun]
      rcases happly : first.apply R s with ⟨s', e | out⟩
      · rw [Shard.acknowledged, happly] at h
        exact ih h
      · rw [Shard.acknowledged, happly] at h
        rcases List.mem_cons.mp h with rfl | h
        · have hheld := Shard.atLeast_apply_of_ok (by rw [happly])
          rw [happly] at hheld
          exact Shard.atLeast_runCalls hheld calls
        · exact ih h

/-- The files of a directory that was opened. -/
theorem onDisk_open {dir : ShardDir} {mb batchMs : ℕ}
    (hopen : Shard.open R dir dim metric mb batchMs = .ok s) :
    ∃ rs offset, OnDisk R dim metric s rs offset s.mem ∧
      Wal.intactEnd R.crc32 dir.wal = (Wal.logBytes R.crc32 rs).length ∧
      s.snap = dir.snap ∧ s.dim = dim ∧
      s.snapshotThresholdBytes = Shard.thresholdOf mb := by
  obtain ⟨image, offset, rs, goodEnd, walFile, m, hstart, hrecover, hreplay,
    rfl⟩ := Shard.open_cases hopen
  obtain ⟨hfits, hfile, hgood, hend⟩ := Wal.recover_cases hrecover
  refine ⟨rs, offset, ⟨Wal.clean_open _ _, hfits, ?_, ?_, image, hstart,
    hreplay⟩, hend.trans hgood, rfl, rfl, rfl⟩
  · rw [Wal.contents_open, hfile]
  · show (walFile.getD []).length = _
    rw [hfile]

/-- A log that the snapshot covers adds nothing. -/
theorem OnDisk.eq_of_covered (h : OnDisk R dim metric s rs offset m)
    {image : Snapshot} (hsnap : s.snap = some image) :
    offset = image.walOffset ∧
      ((Wal.logBytes R.crc32 rs).length ≤ image.walOffset →
        m = (image.index, image.versions)) := by
  obtain ⟨start, hstart, hreplay⟩ := h.replays
  rw [hsnap, Shard.startImage, Except.ok.injEq, Prod.mk.injEq] at hstart
  obtain ⟨rfl, rfl⟩ := hstart
  refine ⟨rfl, fun hcovered => ?_⟩
  rw [replay_of_le_offset (by omega), Except.ok.injEq] at hreplay
  exact hreplay.symm

/-- Opening a directory whose snapshot ends before the first frame that can be
appended, or is full. -/
theorem restorable_open {dir : ShardDir} {mb batchMs : ℕ}
    (hdir : dir.Valid dim)
    (hreach : ∀ image, dir.snap = some image →
      image.walOffset < Wal.intactEnd R.crc32 dir.wal + 33 ∨
        ∀ id, AtLeast (registers (image.index, image.versions) id)
          Hlc.greatest)
    (hopen : Shard.open R dir dim metric mb batchMs = .ok s) :
    Restorable R dim metric s := by
  obtain ⟨hvalid, hdimEq⟩ := Shard.valid_of_open hdir hopen
  obtain ⟨rs, offset, hdisk, hend, hsnap, -⟩ := onDisk_open hopen
  refine ⟨hvalid, hdimEq, rs, offset, hdisk, ?_⟩
  rcases hcase : dir.snap with _ | image
  · left
    obtain ⟨start, hstart, -⟩ := hdisk.replays
    have hzero := Shard.offset_of_startImage_none (hcase ▸ hsnap ▸ hstart)
    omega
  · obtain ⟨rfl, hcovered⟩ := hdisk.eq_of_covered (hsnap.trans hcase)
    rw [hend] at hreach
    by_cases hnext : image.walOffset <
        (Wal.logBytes R.crc32 rs).length + 33
    · exact .inl hnext
    · right
      rw [hcovered (by omega)]
      exact (hreach image hcase).resolve_left hnext

/-! ## Losing a write -/

/-- A log that was cut below the offset of its snapshot, with room for a
delete: the delete is skipped. -/
theorem not_acksSurvive_of_gap {dir : ShardDir} (hdir : dir.Valid dim)
    {image : Snapshot} (himage : dir.snap = some image)
    (hgap : Wal.intactEnd R.crc32 dir.wal + 33 ≤ image.walOffset)
    {id : UInt64}
    (hid : ¬ AtLeast (registers (image.index, image.versions) id)
      Hlc.greatest) : ¬ Shard.AcksSurvive R dim metric dir := by
  intro hall
  obtain ⟨s, hopen⟩ : ∃ s, Shard.open R dir dim metric 0 0 = .ok s := by
    obtain ⟨rs, goodEnd, file, hrecover⟩ :=
      Wal.recover_returns R.crc32 dir.wal
    obtain ⟨-, -, hgood, hend⟩ := Wal.recover_cases hrecover
    have hskip := @replay_of_le_offset R image.walOffset 0 rs
      (by omega) (image.index, image.versions)
    exact ⟨_, by simp only [Shard.open, himage, Shard.startImage, hrecover,
      hskip, ok_bind, pure_eq_ok]; rfl⟩
  obtain ⟨hvalid, -⟩ := Shard.valid_of_open hdir hopen
  obtain ⟨rs, offset, hdisk, hend, hsnap, -, hthreshold⟩ := onDisk_open hopen
  obtain ⟨rfl, hcovered⟩ := hdisk.eq_of_covered (hsnap.trans himage)
  have hmem : s.mem = (image.index, image.versions) := hcovered (by omega)
  let c : ShardCall := .delete Hlc.greatest id
  have hfits : c.record.FitsFrame := by
    simp [c, ShardCall.record, WalRecord.FitsFrame, WalRecord.length_encodeBody,
      WalRecord.ofDelete]
  have hdim : c.record.HasDim s.dim := by
    simp [c, ShardCall.record, WalRecord.HasDim, WalRecord.content,
      WalRecord.ofDelete]
  have hbeats : Beats c.hlc (registers s.mem c.id) := by
    by_contra hnot
    rw [not_beats_iff, hmem] at hnot
    exact hid hnot
  -- the delete is acknowledged and logged, and no snapshot is taken
  have hlen : framedLen c.record = 33 := rfl
  obtain ⟨m', happly, -⟩ := applyOp_returns (R := R) hvalid.mem hdim
  have hafter := Shard.apply_of_accepted hdim hbeats happly
  have hkeep : ∀ s : Shard, s.snapshotThresholdBytes = 0 →
      s.maybeSnapshot = s := by
    intro s hs
    rw [Shard.maybeSnapshot, if_pos hs]
  rw [hkeep _ (by exact hthreshold)] at hafter
  have hskip : replay R image.walOffset [c.record]
      (Wal.logBytes R.crc32 rs).length s.mem = .ok s.mem := by
    rw [replay, if_neg (by omega)]
    rfl
  have hlogged := hdisk.append hfits hskip m'.1 m'.2
  rw [← hafter] at hlogged
  have hack : c ∈ Shard.acknowledged R s [c] := by
    have hout := (Shard.apply_stepped (R := R) hvalid hdim).applied hbeats
    rcases hcase : c.apply R s with ⟨s', out⟩
    rw [hcase] at hout
    rw [Shard.acknowledged, hcase, show out = _ from hout]
    exact List.mem_cons_self
  -- and skipped
  obtain ⟨s', hreopen, hsurvives⟩ := hall 0 0 s hopen [c]
    (by simpa using hfits) 0 0
  obtain ⟨s'', hreopen', hmem'⟩ := hlogged.open_close 0 0
  have hsame : s' = s'' :=
    Except.ok.inj (hreopen.symm.trans hreopen')
  have hheld := hsurvives c hack
  rw [hsame, hmem', hmem] at hheld
  exact hid hheld

end Invariant

/-- Acknowledged writes survive the next open exactly if the snapshot ends
before the first frame that can be appended to the log, or no write can be
accepted. -/
theorem acksSurvive_iff (R : Runtime) {dim : ℕ} (metric : Metric)
    {dir : ShardDir} (hdir : dir.Valid dim) :
    Shard.AcksSurvive R dim metric dir ↔
      ∀ image, dir.snap = some image →
        image.walOffset < Wal.intactEnd R.crc32 dir.wal + 33 ∨
          ∀ id, AtLeast (registers (image.index, image.versions) id)
            Hlc.greatest := by
  constructor
  · intro hall image himage
    by_contra hnot
    push Not at hnot
    obtain ⟨hgap, id, hid⟩ := hnot
    exact not_acksSurvive_of_gap hdir himage hgap hid hall
  · intro hreach mb batchMs s hopen calls hfits mb' batchMs'
    have h := (restorable_open hdir hreach hopen).runCalls hfits
    obtain ⟨rs, offset, hdisk, -⟩ := h.onDisk
    obtain ⟨s', hreopen, hmem⟩ := hdisk.open_close mb' batchMs'
    refine ⟨s', hreopen, fun c hc => ?_⟩
    rw [hmem]
    exact Shard.atLeast_of_acknowledged hc

/-- The snapshot of a shard in which one id was deleted, and no log. -/
theorem exists_covered (R : Runtime) : ∃ image : Snapshot,
    ShardDir.Valid 1 { snap := some image, wal := none } ∧
      image.walOffset = 33 ∧
      registers (image.index, image.versions) 8 = none := by
  obtain ⟨index, hnew, -⟩ := @HnswIndex.new_returns 1 .l2 (by decide)
  obtain ⟨hstart, hnone⟩ := startMemory_valid hnew
  let r : WalRecord := .ofDelete (Hlc.new 1 0) 7
  obtain ⟨m, -, hm⟩ := applyOp_returns (R := R) (r := r) hstart
    (by simp [r, WalRecord.HasDim, WalRecord.content, WalRecord.ofDelete])
  refine ⟨{ walOffset := framedLen r, index := m.1, versions := m.2 }, ?_,
    rfl, ?_⟩
  · intro image himage
    rw [← Option.some.inj himage]
    exact hm.valid
  · show registers m 8 = none
    rw [hm.registers_eq, hnone]
    rfl

theorem acksSurvive_iff_missing : ∃ dir : ShardDir,
    dir.snap.isSome ∧ dir.wal = none ∧
      (Shard.AcksSurvive .constant 1 .l2 dir ↔
        ∀ image, dir.snap = some image →
          image.walOffset < Wal.intactEnd Runtime.constant.crc32 dir.wal + 33 ∨
            ∀ id, AtLeast (registers (image.index, image.versions) id)
              Hlc.greatest) := by
  obtain ⟨image, hdir, -⟩ := exists_covered .constant
  exact ⟨_, rfl, rfl, acksSurvive_iff _ _ hdir⟩

/-- The log of a shard that has a snapshot is missing: a delete after the
recovery is acknowledged, and skipped when the shard is opened again. -/
theorem not_acksSurvive : ¬ ∃ R, ∀ dim metric (dir : ShardDir),
    dir.Valid dim → Shard.AcksSurvive R dim metric dir := by
  rintro ⟨R, hall⟩
  obtain ⟨image, hdir, hoffset, hnone⟩ := exists_covered R
  refine @not_acksSurvive_of_gap R 1 .l2 _ hdir image rfl ?_ 8 ?_
    (hall 1 .l2 _ hdir)
  · show 0 + 33 ≤ image.walOffset
    omega
  · rw [hnone]
    rintro ⟨p, hp, -⟩
    simp at hp

end Quorvec
