import Quorvec.Storage.Join

/-!
# Crash recovery is exact

A shard in fsync mode is run through writes, snapshots, reopenings and crashes,
next to a reference memory that only sees the writes.  Every directory that a
crash can leave behind holds the log of the accepted writes, possibly with a
torn frame behind it, and a snapshot of the memory after some prefix of that
log.  Opening it replays the rest of the log, so it rebuilds the reference
memory, with or without the write that was in flight.

The length field of a frame has 32 bits, and a longer frame is written with a
truncated length.  Exactness therefore holds for runs whose accepted writes fit
their frames, and fails without that condition.
-/

namespace Quorvec

open TotalCorrectness LastWriterWins ByteCodec Framing

/-! ## Replaying a log from a snapshot -/

section Replay

variable {R : Runtime}

/-- The framed length is the length of the frame, whatever its length field
says. -/
theorem framedLen_eq (crc32 : Bytes → UInt32) (r : WalRecord) :
    framedLen r = (frame crc32 r.encodeBody).length := by
  rw [framedLen, length_frame, WalRecord.length_encodeBody]
  omega

theorem framedLen_pos (r : WalRecord) : 0 < framedLen r := by
  unfold framedLen
  omega

theorem length_logBytes_cons (crc32 : Bytes → UInt32) (r : WalRecord)
    (rs : List WalRecord) :
    (Wal.logBytes crc32 (r :: rs)).length =
      framedLen r + (Wal.logBytes crc32 rs).length := by
  rw [Wal.logBytes_eq, Wal.logBytes_eq, frames_cons, List.length_append,
    framedLen_eq crc32]

/-- Beyond the offset every record is replayed. -/
theorem replay_of_offset_le {offset pos : ℕ} (h : offset ≤ pos)
    (rs : List WalRecord) (m : Memory) :
    replay R offset rs pos m = rs.foldlM (applyRecord R) m := by
  induction rs generalizing pos m with
  | nil => rfl
  | cons r rs ih =>
      have hpos := framedLen_pos r
      rw [replay, if_pos (by omega), List.foldlM_cons]
      congr 1
      funext m'
      exact ih (by omega) m'

/-- A snapshot that covers `k` records skips exactly these. -/
theorem replay_eq (rs : List WalRecord) (k pos : ℕ) (m : Memory) :
    replay R (pos + (Wal.logBytes R.crc32 (rs.take k)).length) rs pos m =
      (rs.drop k).foldlM (applyRecord R) m := by
  induction rs generalizing k pos m with
  | nil => simp [replay]
  | cons r rs ih =>
      cases k with
      | zero =>
          rw [List.take_zero, List.drop_zero, Wal.logBytes_eq, frames_nil]
          exact replay_of_offset_le le_rfl _ m
      | succ k =>
          rw [List.take_succ_cons, length_logBytes_cons, List.drop_succ_cons,
            replay, if_neg (by omega), ← Nat.add_assoc]
          exact ih k _ m

end Replay

/-! ## Runs with crashes -/

/-- A step of a running shard. -/
inductive ShardStep
  | call (c : ShardCall)
  | snapshotNow

namespace ShardStep

def apply (R : Runtime) (s : Shard) : ShardStep → Shard
  | call c => (c.apply R s).1
  | snapshotNow => s.snapshotNow

end ShardStep

instance (dim : ℕ) (r : WalRecord) : Decidable (r.HasDim dim) :=
  match h : r.content with
  | none => isTrue fun v hv => by simp [h] at hv
  | some v => decidable_of_iff (v.length = dim)
      ⟨fun hlen w hw => by rw [h, Option.some.injEq] at hw; rwa [← hw],
        fun hall => hall v h⟩

/-- The write is accepted: right dimension, and it beats the register. -/
def ShardCall.Accepted (dim : ℕ) (m : Memory) (c : ShardCall) : Prop :=
  c.record.HasDim dim ∧ Beats c.hlc (registers m c.id)

instance (dim : ℕ) (m : Memory) (c : ShardCall) :
    Decidable (c.Accepted dim m) :=
  inferInstanceAs (Decidable (_ ∧ _))

/-- The reference memory after a write. -/
def ShardCall.applyMem (R : Runtime) (dim : ℕ) (m : Memory) (c : ShardCall) :
    Memory :=
  if c.Accepted dim m then (applyOp R m c.record).toOption.getD m else m

/-- The reference memory after a step. -/
def ShardStep.applyMem (R : Runtime) (dim : ℕ) (m : Memory) :
    ShardStep → Memory
  | call c => c.applyMem R dim m
  | snapshotNow => m

/-- The directories that a crash during a step can leave behind: nothing of
the step has happened, a part of the frame is in the log and the snapshot is
still the old one, or everything has happened. -/
inductive CrashImage (R : Runtime) (s : Shard) : ShardStep → ShardDir → Prop
  | before (e : ShardStep) : CrashImage R s e s.dir
  | torn (c : ShardCall) (t : Bytes) :
      c.Accepted s.dim s.mem → t <+: frame R.crc32 c.record.encodeBody →
      CrashImage R s (.call c)
        { wal := some (s.wal.writer.inner ++ t), snap := s.snap }
  | after (e : ShardStep) : CrashImage R s e (e.apply R s).dir

/-- Runs in fsync mode, with the reference memory.  `Admits` restricts the
steps.  After a crash the reference memory is what was recovered. -/
inductive Run (R : Runtime) (dim : ℕ) (metric : Metric)
    (Admits : Shard → ShardStep → Prop) : Memory → Shard → Prop
  | fresh {mb : ℕ} {index : HnswIndex} {s : Shard} :
      HnswIndex.new dim metric = .ok index →
      Shard.open R .empty dim metric mb 0 = .ok s →
      Run R dim metric Admits (index, ∅) s
  | step {m : Memory} {s : Shard} (e : ShardStep) :
      Run R dim metric Admits m s → Admits s e →
      Run R dim metric Admits (e.applyMem R dim m) (e.apply R s)
  | reopen {mb : ℕ} {m : Memory} {s s' : Shard} :
      Run R dim metric Admits m s →
      Shard.open R s.close dim metric mb 0 = .ok s' →
      Run R dim metric Admits m s'
  | crash {mb : ℕ} {m : Memory} {s s' : Shard} {e : ShardStep}
      {d : ShardDir} :
      Run R dim metric Admits m s → Admits s e → CrashImage R s e d →
      Shard.open R d dim metric mb 0 = .ok s' →
      Run R dim metric Admits s'.mem s'

/-- The memory is the reference memory, and every reopening and every recovery
from a crash rebuilds it, up to the write in flight. -/
def RecoversExactly (R : Runtime) (dim : ℕ) (metric : Metric)
    (Admits : Shard → ShardStep → Prop) : Prop :=
  ∀ m s, Run R dim metric Admits m s →
    s.mem = m ∧
    (∀ mb, ∃ s', Shard.open R s.close dim metric mb 0 = .ok s' ∧
      s'.mem = m) ∧
    ∀ e, Admits s e → ∀ d, CrashImage R s e d → ∀ mb,
      ∃ s', Shard.open R d dim metric mb 0 = .ok s' ∧
        (s'.mem = m ∨ s'.mem = e.applyMem R dim m)

/-- An accepted write of the step fits its frame. -/
def ShardStep.FitsFrame (s : Shard) : ShardStep → Prop
  | call c => c.Accepted s.dim s.mem → c.record.FitsFrame
  | snapshotNow => True

/-! ## The invariant -/

/-- The directory holds the log of the accepted writes, followed by bytes that
start with no frame, and a snapshot of the memory after some of them. -/
structure Logged (R : Runtime) (dim : ℕ) (metric : Metric) (m : Memory)
    (rs : List WalRecord) (snap : Option Snapshot) : Prop where
  fits : ∀ r ∈ rs, r.FitsFrame
  log : ∃ index, HnswIndex.new dim metric = .ok index ∧
    rs.foldlM (applyRecord R) (index, ∅) = .ok m ∧
    ∀ image, snap = some image → ∃ k ≤ rs.length,
      image.walOffset = (Wal.logBytes R.crc32 (rs.take k)).length ∧
      (rs.take k).foldlM (applyRecord R) (index, ∅) =
        .ok (image.index, image.versions)

/-- What holds of a running shard. -/
structure Consistent (R : Runtime) (dim : ℕ) (metric : Metric) (m : Memory)
    (s : Shard) : Prop where
  mem_eq : s.mem = m
  dim_eq : s.dim = dim
  batch : s.wal.batchMs = 0
  synced : s.wal.Synced
  logged : ∃ rs, Logged R dim metric m rs s.snap ∧
    s.wal.writer.inner = Wal.logBytes R.crc32 rs ∧
    s.wal.len = (Wal.logBytes R.crc32 rs).length

section Invariant

variable {R : Runtime} {dim : ℕ} {metric : Metric} {m : Memory} {s : Shard}

theorem Memory.valid_of_foldlM {m' : Memory} (h : m.Valid dim)
    {rs : List WalRecord} (hfold : rs.foldlM (applyRecord R) m = .ok m') :
    m'.Valid dim := by
  induction rs generalizing m with
  | nil =>
      rw [List.foldlM_nil, pure_eq_ok, Except.ok.injEq] at hfold
      exact hfold ▸ h
  | cons r rs ih =>
      rw [List.foldlM_cons] at hfold
      cases happly : applyRecord R m r with
      | error e => simp [happly] at hfold
      | ok m₁ =>
          rw [happly, ok_bind] at hfold
          exact ih (valid_of_applyRecord h happly) hfold

theorem Logged.valid {rs : List WalRecord} {snap : Option Snapshot}
    (h : Logged R dim metric m rs snap) :
    m.Valid dim ∧ ∀ image, snap = some image →
      Memory.Valid dim (image.index, image.versions) := by
  obtain ⟨index, hnew, hfold, hsnap⟩ := h.log
  have hstart := (startMemory_valid hnew).1
  refine ⟨Memory.valid_of_foldlM hstart hfold, fun image himage => ?_⟩
  obtain ⟨k, -, -, himageFold⟩ := hsnap image himage
  exact Memory.valid_of_foldlM hstart himageFold

theorem Consistent.valid (h : Consistent R dim metric m s) : s.Valid := by
  obtain ⟨rs, hlogged, -, -⟩ := h.logged
  obtain ⟨hmem, hsnap⟩ := hlogged.valid
  refine ⟨?_, ?_⟩
  · rw [h.mem_eq, h.dim_eq]
    exact hmem
  · rw [h.dim_eq]
    exact hsnap

/-- Opening a directory that holds the log of `m`, torn or not, gives a shard
with memory `m`. -/
theorem open_of_logged {rs : List WalRecord} {snap : Option Snapshot}
    (h : Logged R dim metric m rs snap) {t : Bytes}
    (ht : NoFrame R.crc32 WalRecord.encodeBody WalRecord.Encodable t)
    (mb : ℕ) :
    Returns (Shard.open R
      { wal := some (Wal.logBytes R.crc32 rs ++ t), snap } dim metric mb 0)
      (Consistent R dim metric m) := by
  obtain ⟨index, hnew, hfold, hsnap⟩ := h.log
  have hrecover := Wal.recover_logBytes_append h.fits ht
  obtain ⟨image, offset, hstart, hreplay⟩ :
      ∃ image offset, Shard.startImage snap dim metric = .ok (image, offset) ∧
        replay R offset rs 0 image = .ok m := by
    cases hs : snap with
    | none =>
        refine ⟨(index, ∅), 0, by simp [Shard.startImage, hnew], ?_⟩
        rw [replay_of_offset_le le_rfl, hfold]
    | some image =>
        obtain ⟨k, hk, hoffset, himage⟩ := hsnap image hs
        refine ⟨_, _, rfl, ?_⟩
        rw [hoffset, ← Nat.zero_add (List.length _), replay_eq]
        rw [← List.take_append_drop k rs, List.foldlM_append, himage,
          ok_bind] at hfold
        exact hfold
  refine ⟨{
    snap, dim, metric
    index := m.1
    versions := m.2
    wal := Wal.open (some (Wal.logBytes R.crc32 rs)) 0
    snapshotThresholdBytes := Shard.thresholdOf mb
    lastSnapshotOffset := offset }, ?_, ?_⟩
  · simp only [Shard.open, hstart, hrecover, hreplay, ok_bind, pure_eq_ok]
  · exact ⟨rfl, rfl, rfl, Wal.synced_open _ _, rs, h, rfl, rfl⟩

theorem consistent_fresh {mb : ℕ} {index : HnswIndex}
    (hnew : HnswIndex.new dim metric = .ok index)
    (hopen : Shard.open R .empty dim metric mb 0 = .ok s) :
    Consistent R dim metric (index, ∅) s := by
  obtain ⟨index', hnew', hmem⟩ := Shard.open_empty hopen
  obtain ⟨image, offset, records, goodEnd, walFile, m', hstart, hrecover,
    hreplay, rfl⟩ := Shard.open_cases hopen
  simp only [ShardDir.empty, Wal.recover, pure_eq_ok, Except.ok.injEq,
    Prod.mk.injEq] at hrecover
  obtain ⟨-, rfl⟩ := hrecover
  rw [hnew, Except.ok.injEq] at hnew'
  subst hnew'
  have hlogged : Logged R dim metric (index, ∅) [] none :=
    ⟨by simp, index, hnew, rfl, by simp⟩
  exact ⟨hmem, rfl, rfl, rfl, [], hlogged, rfl, rfl⟩

/-- A snapshot covers the whole log. -/
theorem Consistent.snapshotNow (h : Consistent R dim metric m s) :
    Consistent R dim metric m s.snapshotNow := by
  obtain ⟨rs, ⟨hfits, index, hnew, hfold, hsnap⟩, hinner, hlen⟩ := h.logged
  have hflush : s.wal.flush.writer.inner = s.wal.writer.inner ∧
      s.wal.flush.Synced := by
    have hsynced := Wal.synced_flush (Wal.clean_of_synced h.synced)
    refine ⟨?_, hsynced⟩
    rw [← BufferedWriter.contents_of_buf_nil hsynced, Wal.contents_flush,
      BufferedWriter.contents_of_buf_nil h.synced]
  refine ⟨h.mem_eq, h.dim_eq, ?_, hflush.2, rs, ?_, ?_, ?_⟩
  · exact (Wal.batchMs_flush s.wal).trans h.batch
  · refine ⟨hfits, index, hnew, hfold, fun image himage => ?_⟩
    rw [← Option.some.inj himage]
    refine ⟨rs.length, le_rfl, ?_, ?_⟩
    · rw [List.take_length]
      exact (Wal.len_flush s.wal).trans hlen
    · rw [List.take_length, hfold, ← h.mem_eq]
      rfl
  · exact hflush.1.trans hinner
  · exact (Wal.len_flush s.wal).trans hlen

theorem Consistent.maybeSnapshot (h : Consistent R dim metric m s) :
    Consistent R dim metric m s.maybeSnapshot := by
  rcases Shard.maybeSnapshot_cases s with hs | hs <;> rw [hs]
  · exact h
  · exact h.snapshotNow

/-- The log grows by the accepted record. -/
theorem Logged.append {rs : List WalRecord} {snap : Option Snapshot}
    (h : Logged R dim metric m rs snap) {r : WalRecord} (hr : r.FitsFrame)
    {m' : Memory} (happly : applyRecord R m r = .ok m') :
    Logged R dim metric m' (rs ++ [r]) snap := by
  obtain ⟨hfits, index, hnew, hfold, hsnap⟩ := h
  refine ⟨?_, index, hnew, ?_, fun image himage => ?_⟩
  · intro x hx
    rcases List.mem_append.mp hx with hx | hx
    · exact hfits x hx
    · rwa [List.mem_singleton.mp hx]
  · rw [List.foldlM_append, hfold, ok_bind, List.foldlM_cons, happly]
    rfl
  · obtain ⟨k, hk, hoffset, himageFold⟩ := hsnap image himage
    have htake : (rs ++ [r]).take k = rs.take k :=
      List.take_append_of_le_length hk
    refine ⟨k, hk.trans (by simp), ?_, ?_⟩
    · rw [htake, hoffset]
    · rw [htake, himageFold]

/-- A live write that beats the stored version is what replay would do. -/
theorem applyRecord_of_beats {r : WalRecord}
    (h : Beats r.hlc (registers m r.id)) :
    applyRecord R m r = applyOp R m r := by
  unfold applyRecord
  cases hv : m.2[r.id]? with
  | none => rfl
  | some v =>
      have hlt : v.hlc < r.hlc := h (v.hlc, m.1.store r.id) (by
        rw [registers, hv, Option.map_some])
      dsimp only
      rw [if_neg (not_lt.mpr hlt.le)]

/-- One accepted write. -/
theorem Consistent.accepted (h : Consistent R dim metric m s)
    {c : ShardCall} (hc : c.Accepted dim m) (hfits : c.record.FitsFrame) :
    Consistent R dim metric (c.applyMem R dim m) (c.apply R s).1 ∧
      ∃ rs, Logged R dim metric m rs s.snap ∧
        s.wal.writer.inner = Wal.logBytes R.crc32 rs ∧
        Logged R dim metric (c.applyMem R dim m) (rs ++ [c.record])
          s.snap := by
  have hvalid := h.valid
  obtain ⟨rs, hlogged, hinner, hlen⟩ := h.logged
  obtain ⟨m', happly, hm'⟩ :=
    applyOp_returns (R := R) (hlogged.valid).1 hc.1
  have hmem : c.applyMem R dim m = m' := by
    rw [ShardCall.applyMem, if_pos hc, happly]
    rfl
  have hgrown : Logged R dim metric m' (rs ++ [c.record]) s.snap :=
    hlogged.append hfits ((applyRecord_of_beats hc.2).trans happly)
  have hstep := Shard.apply_of_accepted (R := R) (h.dim_eq ▸ hc.1)
    (by rw [h.mem_eq]; exact hc.2) (h.mem_eq ▸ happly)
  rw [hmem]
  refine ⟨?_, rs, hlogged, hinner, hgrown⟩
  rw [hstep]
  refine Consistent.maybeSnapshot ⟨rfl, h.dim_eq,
    (Wal.batchMs_append _ _).trans h.batch, Wal.synced_append _ h.batch _,
    rs ++ [c.record], hgrown, ?_, ?_⟩
  · have hsynced := Wal.synced_append R.crc32 h.batch c.record
    show (s.wal.append R.crc32 c.record).1.writer.inner = _
    rw [← BufferedWriter.contents_of_buf_nil hsynced, Wal.contents_append,
      BufferedWriter.contents_of_buf_nil h.synced, hinner,
      Wal.logBytes_append]
    congr 1
    rw [Wal.logBytes_eq, frames_cons, frames_nil, List.append_nil]
  · show (s.wal.append R.crc32 c.record).1.len = _
    have hfield : (UInt32.ofNat (4 + c.record.encodeBody.length)).toNat =
        4 + c.record.encodeBody.length :=
      UInt32.toNat_ofNat_of_lt' hfits
    rw [Wal.len_append, hlen, hfield, Wal.logBytes_append,
      List.length_append, length_logBytes_cons, framedLen_eq R.crc32,
      length_frame, Wal.logBytes_eq []]
    simp
    omega

theorem Consistent.refused (h : Consistent R dim metric m s)
    {c : ShardCall} (hc : ¬ c.Accepted dim m) : (c.apply R s).1 = s := by
  by_cases hdim : c.record.HasDim s.dim
  · have hstale : ¬ Beats c.record.hlc (registers s.mem c.record.id) := by
      rw [h.mem_eq]
      exact fun hbeats => hc ⟨h.dim_eq ▸ hdim, hbeats⟩
    rw [(Shard.apply_stepped (R := R) h.valid hdim).stale hstale]
  · exact Shard.apply_of_not_hasDim hdim

/-- One step. -/
theorem Consistent.step (h : Consistent R dim metric m s) {e : ShardStep}
    (he : e.FitsFrame s) :
    Consistent R dim metric (e.applyMem R dim m) (e.apply R s) := by
  cases e with
  | snapshotNow => exact h.snapshotNow
  | call c =>
      by_cases hc : c.Accepted dim m
      · exact (h.accepted hc (he (by rwa [h.dim_eq, h.mem_eq]))).1
      · have hmem : c.applyMem R dim m = m := if_neg hc
        rw [ShardStep.applyMem, ShardStep.apply, hmem, h.refused hc]
        exact h

theorem Consistent.open_dir (h : Consistent R dim metric m s) (mb : ℕ) :
    Returns (Shard.open R s.dir dim metric mb 0)
      (Consistent R dim metric m) := by
  obtain ⟨rs, hlogged, hinner, -⟩ := h.logged
  have hopen := open_of_logged hlogged (t := []) noFrame_nil mb
  rwa [List.append_nil, ← hinner] at hopen

theorem Consistent.close_eq (h : Consistent R dim metric m s) :
    s.close = s.dir := by
  have hsynced := Wal.synced_flush (Wal.clean_of_synced h.synced)
  rw [Shard.close, Shard.dir, Wal.close,
    ← BufferedWriter.contents_of_buf_nil hsynced, Wal.contents_flush,
    BufferedWriter.contents_of_buf_nil h.synced]

/-- The files after a crash hold the memory before the step or after it. -/
theorem Consistent.crash_cases (h : Consistent R dim metric m s)
    {e : ShardStep} (he : e.FitsFrame s) {d : ShardDir}
    (hd : CrashImage R s e d) :
    (∀ mb, Returns (Shard.open R d dim metric mb 0)
        (Consistent R dim metric m)) ∨
      ∀ mb, Returns (Shard.open R d dim metric mb 0)
        (Consistent R dim metric (e.applyMem R dim m)) := by
  cases hd with
  | before => exact .inl h.open_dir
  | after => exact .inr (h.step he).open_dir
  | torn c t hc ht =>
      have hfits := he hc
      rw [h.dim_eq, h.mem_eq] at hc
      obtain ⟨rs, hlogged, hinner, hgrown⟩ := (h.accepted hc hfits).2
      rw [hinner]
      by_cases hcut : t.length < (frame R.crc32 c.record.encodeBody).length
      · have hno := noFrame_of_cut ((WalRecord.fits_iff _).mpr hfits) ht hcut
        exact .inl (open_of_logged hlogged hno)
      · have hwhole := ht.eq_of_length
          (le_antisymm ht.length_le (not_lt.mp hcut))
        have hlog : Wal.logBytes R.crc32 rs ++ t =
            Wal.logBytes R.crc32 (rs ++ [c.record]) ++ [] := by
          rw [hwhole, List.append_nil, Wal.logBytes_append]
          congr 1
          rw [Wal.logBytes_eq, frames_cons, frames_nil, List.append_nil]
        rw [hlog]
        exact .inr (open_of_logged hgrown noFrame_nil)

theorem Consistent.crash (h : Consistent R dim metric m s) {e : ShardStep}
    (he : e.FitsFrame s) {d : ShardDir} (hd : CrashImage R s e d) (mb : ℕ) :
    Returns (Shard.open R d dim metric mb 0) (fun s' =>
      Consistent R dim metric m s' ∨
        Consistent R dim metric (e.applyMem R dim m) s') := by
  rcases h.crash_cases he hd with hbefore | hafter
  · exact (hbefore mb).mono fun _ => Or.inl
  · exact (hafter mb).mono fun _ => Or.inr

/-- Every run whose accepted writes fit their frames. -/
theorem Run.consistent
    (h : Run R dim metric (fun s e => e.FitsFrame s) m s) :
    Consistent R dim metric m s := by
  induction h with
  | fresh hnew hopen => exact consistent_fresh hnew hopen
  | step e _ he ih => exact ih.step he
  | reopen _ hopen ih =>
      rw [ih.close_eq] at hopen
      exact (ih.open_dir _).of_eq_ok hopen
  | crash _ he hd hopen ih =>
      rcases (ih.crash he hd _).of_eq_ok hopen with h | h
      · rw [h.mem_eq]
        exact h
      · rw [h.mem_eq]
        exact h

end Invariant

/-- Recovery is exact on runs whose accepted writes fit their frames. -/
theorem recoversExactly_of_fitsFrame (R : Runtime) (dim : ℕ)
    (metric : Metric) :
    RecoversExactly R dim metric fun s e => e.FitsFrame s := by
  intro m s hrun
  have h := hrun.consistent
  refine ⟨h.mem_eq, fun mb => ?_, fun e he d hd mb => ?_⟩
  · obtain ⟨s', hopen, hs'⟩ := h.open_dir mb
    exact ⟨s', h.close_eq ▸ hopen, hs'.mem_eq⟩
  · obtain ⟨s', hopen, hs'⟩ := h.crash he hd mb
    exact ⟨s', hopen, hs'.imp (·.mem_eq) (·.mem_eq)⟩

/-! ## A frame that overflows its length field -/

theorem recover_of_zero_length {crc32 : Bytes → UInt32} {file : Bytes}
    (h : toLeBytes 4 0 <+: file) :
    Wal.recover crc32 (some file) = .ok (([], 0), some []) := by
  have hlen := h.length_le
  rw [length_toLeBytes] at hlen
  have hfield : readLe file 0 4 = .ok 0 :=
    readLe_of_isPrefix (length_toLeBytes 4 0) (Nat.zero_le _) h
  have hscan : scan crc32 WalRecord.decodeBody file 0 = .ok ([], 0) := by
    rw [scan, dif_pos (by omega), hfield, ok_bind, if_pos (by omega)]
    rfl
  rw [Wal.recover, hscan]
  simp only [ok_bind, pure_eq_ok]
  rw [if_pos (by omega), List.take_zero]

/-- The closed log of a new directory after a record whose framed length is
`2 ^ 32` recovers to nothing. -/
theorem recover_oversized (crc32 : Bytes → UInt32) {r : WalRecord}
    (hr : 4 + r.encodeBody.length = 2 ^ 32) :
    Wal.recover crc32
        (some ((Wal.open none 0).append crc32 r).1.close) =
      .ok (([], 0), some []) := by
  have hsynced := Wal.synced_append crc32
    (w := Wal.open none 0) rfl r
  have hclose : ((Wal.open none 0).append crc32 r).1.close =
      frame crc32 r.encodeBody := by
    rw [Wal.close, ← BufferedWriter.contents_of_buf_nil
      (Wal.synced_flush (Wal.clean_of_synced hsynced)), Wal.contents_flush,
      Wal.contents_append]
    rfl
  rw [hclose]
  apply recover_of_zero_length
  rw [frame, hr]
  exact List.prefix_append _ _

/-- An upsert of one coordinate whose framed length is `2 ^ 32` is accepted
and is gone after a clean reopening, so recovery is not exact without the
condition. -/
theorem not_recoversExactly :
    ¬ ∀ (R : Runtime) (dim : ℕ) (metric : Metric),
      RecoversExactly R dim metric fun _ _ => True := by
  intro hall
  obtain ⟨payload, hpayload⟩ : ∃ p : Bytes, p.length = 2 ^ 32 - 33 :=
    ⟨List.replicate (2 ^ 32 - 33) 0, List.length_replicate⟩
  let c : ShardCall := .upsert (Hlc.new 1 0) 7 [0] payload
  have hbody : 4 + c.record.encodeBody.length = 2 ^ 32 := by
    have hvector : c.record.vector.length = 1 := rfl
    have hcount : c.record.payload.length = 2 ^ 32 - 33 := hpayload
    rw [WalRecord.length_encodeBody, hvector, hcount]
    norm_num
  -- a new directory
  obtain ⟨index, hnew, -⟩ :=
    HnswIndex.new_returns .l2 one_pos
  have hstart := startMemory_valid hnew
  let s : Shard := {
    snap := none, dim := 1, metric := .l2, index
    versions := ∅
    wal := Wal.open none 0
    snapshotThresholdBytes := Shard.thresholdOf 0
    lastSnapshotOffset := 0 }
  have hopen : Shard.open .constant .empty 1 .l2 0 0 = .ok s :=
    Shard.open_empty_eq .constant hnew 0 0
  have hfresh : Run .constant 1 .l2 (fun _ _ => True) (index, ∅) s :=
    .fresh hnew hopen
  have hrun := hfresh.step (.call c) trivial
  -- the write is accepted, logged and applied
  have hdim : c.record.HasDim 1 := fun v hv => by
    rw [← Option.some.inj hv]
    rfl
  have hc : c.Accepted 1 (index, ∅) := by
    refine ⟨hdim, fun p hp => ?_⟩
    rw [hstart.2] at hp
    simp at hp
  obtain ⟨m', happly, hm'⟩ :=
    applyOp_returns (R := .constant) hstart.1 hdim
  have hmem : c.applyMem .constant 1 (index, ∅) = m' := by
    rw [ShardCall.applyMem, if_pos hc, happly]
    rfl
  have hclose : (c.apply .constant s).1.close =
      { wal := some ((Wal.open none 0).append
          Runtime.constant.crc32 c.record).1.close
        snap := none } := by
    rw [Shard.apply_of_accepted (R := .constant) (s := s) hdim hc.2 happly]
    rfl
  -- reopening finds an empty log
  obtain ⟨s', hreopen, hs'⟩ := (hall _ _ _ _ _ hrun).2.1 0
  have hempty : s'.mem = (index, ∅) := by
    rw [ShardStep.apply, hclose] at hreopen
    obtain ⟨image, offset, records, goodEnd, file, m, himage, hrecover,
      hreplay, rfl⟩ := Shard.open_cases hreopen
    rw [recover_oversized _ hbody, Except.ok.injEq, Prod.mk.injEq,
      Prod.mk.injEq] at hrecover
    rw [← hrecover.1.1, replay, pure_eq_ok, Except.ok.injEq] at hreplay
    simp only [Shard.startImage, hnew, Except.ok.injEq, Prod.mk.injEq]
      at himage
    rw [Shard.mem, ← hreplay, ← himage.1]
  have hlost : registers m' c.record.id = none := by
    rw [← hmem, ← (show s'.mem = c.applyMem .constant 1 (index, ∅) from hs'),
      hempty, hstart.2]
  rw [hm'.registers_eq, Function.update_self] at hlost
  simp at hlost

end Quorvec
