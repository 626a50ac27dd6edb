import Quorvec.Storage.ShardFiles

/-!
# A shard across power failures

A shard writes its log and its snapshots through the cache of the system, with
or without a sync for each record.  The process may be killed and the machine
may lose power in the middle of any call and of any open, and the shard is
opened again from what is left.

Whatever happens, an open succeeds and rebuilds the memory after some first part
of the accepted records.  That part contains all records that were promised to
be durable: those of a call in fsync mode and those of a flush of a dirty log.
A snapshot is written after the log that it covers has been synced, so that no
failure leaves a snapshot that is ahead of its log.
-/

namespace Quorvec

open StableStorage ByteCodec TotalCorrectness LastWriterWins Framing

/-- A call of a running shard; the sync of the directory after a snapshot may
fail. -/
inductive FileStep
  | call (c : ShardCall) (dirSynced : Bool)
  | flush

namespace FileStep

section Model

variable (R : Runtime) (codec : SnapshotCodec)

def apply (s : Shard) : FileStep → Shard
  | call c _ => (c.apply R s).1
  | flush => s.flush

/-- What the step does to the files. -/
def ops (s : Shard) : FileStep → List (DirOp ShardFile)
  | call c dirSynced => s.callOps R codec dirSynced c
  | flush => s.wal.flushOps

/-- The record that the step accepts. -/
def records (s : Shard) : FileStep → List WalRecord
  | call c _ =>
      match (c.apply R s).2 with
      | .ok .applied => [c.record]
      | _ => []
  | flush => []

/-- The step returns when everything written is on the disk. -/
def promises (s : Shard) : FileStep → Bool
  | call c _ => s.wal.batchMs = 0 ∧ (c.apply R s).2 = .ok .applied
  | flush => s.wal.dirty

/-- The record fits its frame, and a snapshot can be read back. -/
structure Admitted (s : Shard) (e : FileStep) : Prop where
  fits : ∀ r ∈ e.records R s, r.FitsFrame
  readsBack : ∀ image, (e.apply R s).snap = some image →
    codec.ReadsBack image

end Model

end FileStep

/-- A shard that runs on its directory, or the directory alone. -/
inductive DiskPhase
  | running (s : Shard) (d : Dir ShardFile)
  | stopped (d : Dir ShardFile)

/-- What recovery reads from the log. -/
def recovered (R : Runtime) (d : Dir ShardFile) : List WalRecord :=
  match Wal.recover R.crc32 (d.files .wal) with
  | .ok ((rs, _), _) => rs
  | .error _ => []

section DiskLife

variable (R : Runtime) (codec : SnapshotCodec) (dim : ℕ) (metric : Metric)

/-- The life of a shard, with the records accepted so far and the number of
those that were promised to be durable. -/
inductive DiskLife : DiskPhase → List WalRecord → ℕ → Prop
  | start {index : HnswIndex} : HnswIndex.new dim metric = .ok index →
      DiskLife (.stopped (.found fun _ => none)) [] 0
  | opened {d : Dir ShardFile} {rs : List WalRecord} {n : ℕ}
      {dir : ShardDir} {s : Shard} (mb batchMs : ℕ) :
      DiskLife (.stopped d) rs n → ShardDir.ofFiles codec d.files = some dir →
      Shard.open R dir dim metric mb batchMs = .ok s →
      DiskLife (.running s (d.run (Shard.openOps R dir dim metric))) rs n
  | step {s : Shard} {d : Dir ShardFile} {rs : List WalRecord} {n : ℕ}
      (e : FileStep) :
      DiskLife (.running s d) rs n → e.Admitted R codec s →
      DiskLife (.running (e.apply R s) (d.run (e.ops R codec s)))
        (rs ++ e.records R s)
        (if e.promises R s then (rs ++ e.records R s).length else n)
  /-- A kill or a power failure in the course of a step; a process that ends
  by itself stops after a flush. -/
  | stop {s : Shard} {d d' : Dir ShardFile} {rs : List WalRecord} {n : ℕ}
      {e : FileStep} :
      DiskLife (.running s d) rs n → e.Admitted R codec s →
      Stopped d (e.ops R codec s) d' →
      DiskLife (.stopped d') (recovered R d') n
  /-- A kill or a power failure in the course of an open. -/
  | stopOpening {d d' : Dir ShardFile} {rs : List WalRecord} {n : ℕ}
      {dir : ShardDir} :
      DiskLife (.stopped d) rs n → ShardDir.ofFiles codec d.files = some dir →
      Stopped d (Shard.openOps R dir dim metric) d' →
      DiskLife (.stopped d') (recovered R d') n

/-- The memory after these records. -/
def Rebuilds (rs : List WalRecord) (m : Memory) : Prop :=
  ∃ index, HnswIndex.new dim metric = .ok index ∧
    rs.foldlM (applyRecord R) (index, ∅) = .ok m

end DiskLife

/-! ## Logs and their parts -/

section Log

variable {R : Runtime} {dim : ℕ} {metric : Metric} {rs : List WalRecord}

theorem length_logBytes_take_le (crc32 : Bytes → UInt32)
    (rs : List WalRecord) {i j : ℕ} (h : i ≤ j) :
    (Wal.logBytes crc32 (rs.take i)).length ≤
      (Wal.logBytes crc32 (rs.take j)).length := by
  have hsplit := List.take_append_drop i (rs.take j)
  rw [List.take_take, Nat.min_eq_left h] at hsplit
  rw [← hsplit, Wal.logBytes_append, List.length_append]
  exact Nat.le_add_right _ _

/-- The memory after some records can be had only if it can be had after a first
part of them. -/
theorem Rebuilds.take {m : Memory} (h : Rebuilds R dim metric rs m) (i : ℕ) :
    ∃ m', Rebuilds R dim metric (rs.take i) m' := by
  obtain ⟨index, hnew, hfold⟩ := h
  rw [← List.take_append_drop i rs, List.foldlM_append] at hfold
  cases hpart : (rs.take i).foldlM (applyRecord R) (index, ∅) with
  | error e => simp [hpart] at hfold
  | ok m' => exact ⟨m', index, hnew, hpart⟩

theorem Rebuilds.valid {m : Memory} (h : Rebuilds R dim metric rs m) :
    m.Valid dim := by
  obtain ⟨index, hnew, hfold⟩ := h
  exact Memory.valid_of_foldlM (startMemory_valid hnew).1 hfold

end Log

/-! ## What a directory holds at any moment -/

section Invariant

/-- The image is the memory after the first `k` of the records. -/
structure LogCovers (R : Runtime) (codec : SnapshotCodec) (dim : ℕ)
    (metric : Metric) (rs : List WalRecord) (image : Snapshot) (k : ℕ) :
    Prop where
  le : k ≤ rs.length
  offset : image.walOffset = (Wal.logBytes R.crc32 (rs.take k)).length
  rebuilds : Rebuilds R dim metric (rs.take k) (image.index, image.versions)
  readsBack : codec.ReadsBack image

/-- The log is a part of the log of these records, and every snapshot that may
be found covers records that are on the disk. -/
structure Holds (R : Runtime) (codec : SnapshotCodec) (dim : ℕ)
    (metric : Metric) (rs : List WalRecord) (d : Dir ShardFile) : Prop where
  fits : ∀ r ∈ rs, r.FitsFrame
  rebuilds : ∃ m, Rebuilds R dim metric rs m
  log : (d .wal).visible.getD [] <+: Wal.logBytes R.crc32 rs
  fresh : (d .wal).Fresh
  snap : ∀ b, (d .snap).Survives b → b = none ∨ ∃ image k,
    b = some (codec.serialize image) ∧
      LogCovers R codec dim metric rs image k ∧
      (Wal.logBytes R.crc32 (rs.take k)).length ≤ (d .wal).safe

/-- The directory holds the records, and some bytes of the log are on the
disk. -/
structure DiskKeeps (R : Runtime) (codec : SnapshotCodec) (dim : ℕ)
    (metric : Metric) (rs : List WalRecord) (bytes : ℕ) (d : Dir ShardFile) :
    Prop where
  holds : Holds R codec dim metric rs d
  safe : bytes ≤ (d .wal).safe

/-- The directory after the log `w` was written: the file has what the writer
has handed over. -/
structure LogFollows (d d' : Dir ShardFile) (w : Wal) : Prop where
  visible : (d' .wal).visible = some w.writer.inner
  snap : d' .snap = d .snap

variable {R : Runtime} {codec : SnapshotCodec} {dim : ℕ} {metric : Metric}
variable {rs : List WalRecord} {d d' : Dir ShardFile} {bytes : ℕ}

theorem LogCovers.append {image : Snapshot} {k : ℕ}
    (h : LogCovers R codec dim metric rs image k) (rs' : List WalRecord) :
    LogCovers R codec dim metric (rs ++ rs') image k := by
  have htake : (rs ++ rs').take k = rs.take k :=
    List.take_append_of_le_length h.le
  refine ⟨h.le.trans (by simp), ?_, ?_, h.readsBack⟩
  · rw [htake, h.offset]
  · rw [htake]
    exact h.rebuilds

theorem LogCovers.take {image : Snapshot} {i k : ℕ}
    (h : LogCovers R codec dim metric rs image k) (hi : k ≤ i) :
    LogCovers R codec dim metric (rs.take i) image k := by
  have htake : (rs.take i).take k = rs.take k := by
    rw [List.take_take, Nat.min_eq_left hi]
  refine ⟨?_, ?_, ?_, h.readsBack⟩
  · rw [List.length_take]
    exact le_min hi h.le
  · rw [htake, h.offset]
  · rw [htake]
    exact h.rebuilds

namespace DiskKeeps

/-- One more record is accepted; nothing of it is written yet. -/
theorem extend (h : DiskKeeps R codec dim metric rs bytes d) {r : WalRecord}
    (hr : r.FitsFrame) {m : Memory}
    (hm : Rebuilds R dim metric (rs ++ [r]) m) :
    DiskKeeps R codec dim metric (rs ++ [r]) bytes d := by
  refine ⟨⟨fun x hx => ?_, ⟨m, hm⟩, ?_, h.holds.fresh, fun b hb => ?_⟩,
    h.safe⟩
  · rcases List.mem_append.mp hx with hx | hx
    · exact h.holds.fits x hx
    · rwa [List.mem_singleton.mp hx]
  · rw [Wal.logBytes_append]
    exact h.holds.log.trans (List.prefix_append _ _)
  · refine (h.holds.snap b hb).imp_right ?_
    rintro ⟨image, k, himage, hcovers, hsafe⟩
    refine ⟨image, k, himage, hcovers.append [r], ?_⟩
    rwa [List.take_append_of_le_length hcovers.le]

/-- The log changes; what was on the disk stays there. -/
theorem change_log (h : DiskKeeps R codec dim metric rs bytes d)
    {f : DirEntry → DirEntry}
    (hlog : (f (d .wal)).visible.getD [] <+: Wal.logBytes R.crc32 rs)
    (hfresh : (f (d .wal)).Fresh) (hsafe : (d .wal).safe ≤ (f (d .wal)).safe) :
    DiskKeeps R codec dim metric rs bytes (d.change .wal f) := by
  have hwal : d.change .wal f .wal = f (d .wal) := Dir.change_self _ _ _
  have hsnap : d.change .wal f .snap = d .snap :=
    Dir.change_of_ne (by simp) _ _
  refine ⟨⟨h.holds.fits, h.holds.rebuilds, ?_, ?_, fun b hb => ?_⟩, ?_⟩
  · rwa [hwal]
  · rwa [hwal]
  · rw [hsnap] at hb
    refine (h.holds.snap b hb).imp_right ?_
    rintro ⟨image, k, himage, hcovers, hle⟩
    exact ⟨image, k, himage, hcovers, hwal ▸ hle.trans hsafe⟩
  · rw [hwal]
    exact h.safe.trans hsafe

theorem write (h : DiskKeeps R codec dim metric rs bytes d) {content t : Bytes}
    (hvisible : (d .wal).visible = some content)
    (ht : content ++ t <+: Wal.logBytes R.crc32 rs) :
    DiskKeeps R codec dim metric rs bytes (d.change .wal (·.write t)) := by
  refine h.change_log ?_ (h.holds.fresh.write t) (by rw [DirEntry.safe_write])
  rw [DirEntry.visible_write, hvisible]
  exact ht

theorem sync (h : DiskKeeps R codec dim metric rs bytes d) {content : Bytes}
    (hvisible : (d .wal).visible = some content) :
    DiskKeeps R codec dim metric rs bytes (d.change .wal DirEntry.sync) := by
  refine h.change_log ?_ h.holds.fresh.sync ?_
  · rw [DirEntry.visible_sync]
    exact h.holds.log
  · rw [DirEntry.safe_sync hvisible]
    have hle := (d .wal).safe_le
    rwa [hvisible] at hle

/-- The snapshot is replaced by one that covers records on the disk. -/
theorem replaced (h : DiskKeeps R codec dim metric rs bytes d)
    {image : Snapshot}
    {k : ℕ} (himage : LogCovers R codec dim metric rs image k)
    (hsafe : (Wal.logBytes R.crc32 (rs.take k)).length ≤ (d .wal).safe)
    (hd : Replaced d .snapTmp .snap (codec.serialize image) d') :
    DiskKeeps R codec dim metric rs bytes d' := by
  have hwal : (d' .wal).visible = (d .wal).visible ∧ (d' .wal).Fresh ∧
      (d .wal).safe ≤ (d' .wal).safe := by
    rcases hd.other .wal (by simp) (by simp) with heq | heq <;> rw [heq]
    · exact ⟨rfl, h.holds.fresh, le_rfl⟩
    · exact ⟨rfl, DirEntry.Fresh.settle _, DirEntry.safe_le_settle _⟩
  refine ⟨⟨h.holds.fits, h.holds.rebuilds, ?_, hwal.2.1, fun b hb => ?_⟩,
    h.safe.trans hwal.2.2⟩
  · rw [hwal.1]
    exact h.holds.log
  · rcases hd.survives b hb with rfl | hb
    · exact .inr ⟨image, k, rfl, himage, hsafe.trans hwal.2.2⟩
    · refine (h.holds.snap b hb).imp_right ?_
      rintro ⟨image, k, hold, hcovers, hle⟩
      exact ⟨image, k, hold, hcovers, hle.trans hwal.2.2⟩

/-! ### Sequences of operations -/

/-- The operations of a flush, wherever they stop and when they are done. -/
theorem flush (h : DiskKeeps R codec dim metric rs bytes d) {w : Wal}
    (hclean : w.Clean)
    (hcontents : w.writer.contents = Wal.logBytes R.crc32 rs)
    (hvisible : (d .wal).visible = some w.writer.inner) :
    (∀ done, Begun w.flushOps done →
      DiskKeeps R codec dim metric rs bytes (d.run done)) ∧
    LogFollows d (d.run w.flushOps) w.flush ∧
    (w.dirty = true → ((d.run w.flushOps) .wal).safe =
      (Wal.logBytes R.crc32 rs).length) := by
  unfold Wal.flushOps
  split_ifs with hdirty
  · have hwrite : ∀ t, t <+: w.writer.buf →
        DiskKeeps R codec dim metric rs bytes (d.change .wal (·.write t)) := by
      intro t ht
      refine h.write hvisible ?_
      rw [← hcontents, BufferedWriter.contents]
      exact (List.prefix_append_right_inj _).mpr ht
    have hafter : (d.change .wal (·.write w.writer.buf) .wal).visible =
        some (Wal.logBytes R.crc32 rs) := by
      rw [Dir.change_self, DirEntry.visible_write, hvisible, ← hcontents]
      rfl
    have hflush : w.flush.writer.inner = Wal.logBytes R.crc32 rs := by
      rw [Wal.inner_flush hclean, ← hcontents]
      rfl
    have hsynced := (hwrite _ List.prefix_rfl).sync hafter
    refine ⟨?_, ⟨?_, ?_⟩, fun _ => ?_⟩
    · refine forall_begun_cons h (fun name t hop t' ht' => ?_)
        (forall_begun_cons_whole (by simp) (hwrite _ List.prefix_rfl)
          (forall_begun_nil hsynced))
      cases hop
      exact hwrite _ ht'
    · simp only [Dir.run_cons, Dir.run_nil, DirOp.apply]
      rw [Dir.change_self, DirEntry.visible_sync, hafter, hflush]
    · simp only [Dir.run_cons, Dir.run_nil, DirOp.apply]
      rw [Dir.change_of_ne (by simp), Dir.change_of_ne (by simp)]
    · simp only [Dir.run_cons, Dir.run_nil, DirOp.apply]
      rw [Dir.change_self, DirEntry.safe_sync hafter]
  · have hflush : w.flush = w := by
      rw [Wal.flush, if_neg hdirty]
    refine ⟨forall_begun_nil h, ⟨?_, rfl⟩, fun hd => absurd hd hdirty⟩
    rw [hflush]
    exact hvisible

/-- The operations of an append. -/
theorem append (h : DiskKeeps R codec dim metric rs bytes d) {w : Wal}
    {old : List WalRecord} {r : WalRecord} (hrs : rs = old ++ [r])
    (hcontents : w.writer.contents = Wal.logBytes R.crc32 old)
    (hvisible : (d .wal).visible = some w.writer.inner) :
    (∀ done, Begun (w.appendOps R.crc32 r) done →
      DiskKeeps R codec dim metric rs bytes (d.run done)) ∧
    LogFollows d (d.run (w.appendOps R.crc32 r)) (w.append R.crc32 r).1 ∧
    (w.batchMs = 0 → ((d.run (w.appendOps R.crc32 r)) .wal).safe =
      (Wal.logBytes R.crc32 rs).length) := by
  set t := (w.writeFrame R.crc32 r).writer.inner.drop w.writer.inner.length
    with ht
  have hinner := Wal.inner_eq_append_drop R.crc32 w r
  rw [← ht] at hinner
  have hgrown : (w.writeFrame R.crc32 r).writer.contents =
      Wal.logBytes R.crc32 rs := by
    rw [Wal.contents_writeFrame, hcontents, hrs, Wal.logBytes_append,
      Wal.logBytes_eq [r], frames_cons, frames_nil, List.append_nil]
  have hwrite : ∀ t', t' <+: t →
      DiskKeeps R codec dim metric rs bytes (d.change .wal (·.write t')) := by
    intro t' ht'
    refine h.write hvisible ?_
    rw [← hgrown, BufferedWriter.contents, hinner, List.append_assoc]
    exact (List.prefix_append_right_inj _).mpr
      (ht'.trans (List.prefix_append _ _))
  have hafter : (d.change .wal (·.write t) .wal).visible =
      some (w.writeFrame R.crc32 r).writer.inner := by
    rw [Dir.change_self, DirEntry.visible_write, hvisible, hinner]
    rfl
  have hsnap : d.change .wal (·.write t) .snap = d .snap :=
    Dir.change_of_ne (by simp) _ _
  have hpart : ∀ {ops}, (∀ done, Begun ops done →
      DiskKeeps R codec dim metric rs bytes
        ((d.change .wal (·.write t)).run done)) →
      ∀ done, Begun (.write .wal t :: ops) done →
        DiskKeeps R codec dim metric rs bytes (d.run done) := by
    intro ops hrest
    refine forall_begun_cons h (fun name t' hop t'' ht'' => ?_) hrest
    cases hop
    exact hwrite _ ht''
  obtain ⟨hbegun, hfollows, hsafe⟩ := (hwrite t List.prefix_rfl).flush
    (Wal.clean_writeFrame w r) hgrown hafter
  unfold Wal.appendOps
  rcases Wal.append_cases R.crc32 w r with ⟨hbatch, happend⟩ |
    ⟨hbatch, happend⟩
  · rw [happend]
    simp only [if_pos hbatch, ← ht]
    exact ⟨hpart hbegun, ⟨hfollows.visible, hfollows.snap.trans hsnap⟩,
      fun _ => hsafe rfl⟩
  · rw [happend]
    simp only [if_neg hbatch, ← ht]
    exact ⟨hpart (forall_begun_nil (hwrite t List.prefix_rfl)),
      ⟨hafter, hsnap⟩, fun hb => absurd hb hbatch⟩

/-- The operations of a snapshot; a log that is not dirty must be on the disk
already. -/
theorem snapshot (h : DiskKeeps R codec dim metric rs bytes d) {s : Shard}
    (hclean : s.wal.Clean)
    (hcontents : s.wal.writer.contents = Wal.logBytes R.crc32 rs)
    (hlen : s.wal.len = (Wal.logBytes R.crc32 rs).length)
    (hvisible : (d .wal).visible = some s.wal.writer.inner)
    (hmem : Rebuilds R dim metric rs s.mem)
    (hread : codec.ReadsBack s.image)
    (hsynced : s.wal.dirty = false →
      (d .wal).safe = (Wal.logBytes R.crc32 rs).length) (dirSynced : Bool) :
    (∀ done, Begun (s.snapshotOps codec dirSynced) done →
      DiskKeeps R codec dim metric rs bytes (d.run done)) ∧
    ((d.run (s.snapshotOps codec dirSynced)) .wal).visible =
      some s.snapshotNow.wal.writer.inner ∧
    ((d.run (s.snapshotOps codec dirSynced)) .wal).safe =
      (Wal.logBytes R.crc32 rs).length ∧
    Snapshot.load codec
        ((d.run (s.snapshotOps codec dirSynced)) .snap).visible =
      some s.snapshotNow.snap := by
  obtain ⟨hbegun, hfollows, hsafe⟩ := h.flush hclean hcontents hvisible
  have hflushed := hbegun _ (begun_self _)
  set d₁ := d.run s.wal.flushOps with hd₁
  have hall : (d₁ .wal).safe = (Wal.logBytes R.crc32 rs).length := by
    rcases hdirty : s.wal.dirty with _ | _
    · have hnone : s.wal.flushOps = [] := by
        rw [Wal.flushOps, hdirty]
        rfl
      rw [hd₁, hnone]
      exact hsynced hdirty
    · exact hsafe hdirty
  have hcovers : LogCovers R codec dim metric rs s.image rs.length := by
    refine ⟨le_rfl, ?_, ?_, hread⟩
    · rw [List.take_length]
      exact (Wal.len_flush s.wal).trans hlen
    · rw [List.take_length]
      exact hmem
  obtain ⟨hreplaced, hname, -⟩ := @replaceFile_atomic _ _ .snapTmp .snap d₁
    (by simp) (codec.serialize s.image) dirSynced
  have hwhole := hreplaced _ (begun_self _)
  have hkept : ∀ {d'}, Replaced d₁ .snapTmp .snap
      (codec.serialize s.image) d' →
      DiskKeeps R codec dim metric rs bytes d' := fun hd' =>
    hflushed.replaced hcovers (by rw [hall, List.take_length]) hd'
  have hrun : d.run (s.snapshotOps codec dirSynced) =
      d₁.run (replaceFile .snapTmp .snap (codec.serialize s.image)
        dirSynced) := by
    rw [Shard.snapshotOps, Dir.run_append]
    rfl
  refine ⟨forall_begun_append hbegun
    (fun done hdone => hkept (hreplaced done hdone)), ?_, ?_, ?_⟩
  · rw [hrun]
    rcases hwhole.other .wal (by simp) (by simp) with heq | heq <;>
      rw [heq] <;> exact hfollows.visible
  · refine le_antisymm ?_ ?_
    · have hle := ((d.run (s.snapshotOps codec dirSynced)) .wal).safe_le
      have hlog := (hrun ▸ hkept hwhole).holds.log.length_le
      exact hle.trans hlog
    · rw [hrun, ← hall]
      rcases hwhole.other .wal (by simp) (by simp) with heq | heq <;>
        rw [heq]
      exact DirEntry.safe_le_settle _
  · rw [hrun, hname]
    show (codec.deserialize (codec.serialize s.image)).map some = _
    rw [hread]
    rfl

end DiskKeeps

/-! ## Stopping -/

/-- The log as it is seen has at most this many bytes. -/
def LogWithin (length : ℕ) (d : Dir ShardFile) : Prop :=
  ((d .wal).visible.getD []).length ≤ length

/-- The directory holds the records, and the log does not grow. -/
structure KeepsWithin (R : Runtime) (codec : SnapshotCodec) (dim : ℕ)
    (metric : Metric) (rs : List WalRecord) (bytes length : ℕ)
    (d : Dir ShardFile) : Prop where
  keeps : DiskKeeps R codec dim metric rs bytes d
  within : LogWithin length d

namespace DiskKeeps

/-- A power failure takes nothing that is on the disk. -/
theorem leaves (h : DiskKeeps R codec dim metric rs bytes d)
    {files : Files ShardFile} (hfiles : d.Leaves files) :
    DiskKeeps R codec dim metric rs bytes (.found files) ∧
      ∀ length, LogWithin length d → LogWithin length (.found files) := by
  obtain ⟨n, hn, hlog⟩ := h.holds.fresh.survives (hfiles .wal)
  have hwal : (Dir.found files .wal).visible.getD [] =
      ((d .wal).visible.getD []).take n := by
    rw [Dir.found, DirEntry.visible_found]
    exact hlog
  have hsafe : (d .wal).safe ≤ (Dir.found files .wal).safe := by
    rw [Dir.found, DirEntry.safe_found, hlog, List.length_take]
    exact le_min hn (d .wal).safe_le
  refine ⟨⟨⟨h.holds.fits, h.holds.rebuilds, ?_, DirEntry.fresh_found _,
    fun b hb => ?_⟩, h.safe.trans hsafe⟩, fun length hlength => ?_⟩
  · rw [hwal]
    exact (List.take_prefix _ _).trans h.holds.log
  · rw [Dir.found, DirEntry.survives_found_iff] at hb
    refine (h.holds.snap b (hb ▸ hfiles .snap)).imp_right ?_
    rintro ⟨image, k, himage, hcovers, hle⟩
    exact ⟨image, k, himage, hcovers, hle.trans hsafe⟩
  · rw [LogWithin, hwal, List.length_take]
    exact (min_le_right _ _).trans hlength

theorem stopped {ops : List (DirOp ShardFile)}
    (hbegun : ∀ done, Begun ops done →
      DiskKeeps R codec dim metric rs bytes (d.run done))
    (h : Stopped d ops d') : DiskKeeps R codec dim metric rs bytes d' := by
  cases h with
  | exit hdone => exact hbegun _ hdone
  | powerFailure hdone hfiles => exact ((hbegun _ hdone).leaves hfiles).1

end DiskKeeps

theorem KeepsWithin.stopped {ops : List (DirOp ShardFile)} {length : ℕ}
    (hbegun : ∀ done, Begun ops done →
      KeepsWithin R codec dim metric rs bytes length (d.run done))
    (h : Stopped d ops d') :
    KeepsWithin R codec dim metric rs bytes length d' := by
  cases h with
  | exit hdone => exact hbegun _ hdone
  | powerFailure hdone hfiles =>
      obtain ⟨hkeeps, hwithin⟩ := hbegun _ hdone
      obtain ⟨hleft, hlength⟩ := hkeeps.leaves hfiles
      exact ⟨hleft, hlength _ hwithin⟩

/-- The number of records of which the whole frames are in so many bytes. -/
structure WithinBytes (crc32 : Bytes → UInt32) (rs : List WalRecord)
    (length i : ℕ) : Prop where
  le : i ≤ rs.length
  fit : (Wal.logBytes crc32 (rs.take i)).length ≤ length
  next : i < rs.length →
    length < (Wal.logBytes crc32 (rs.take (i + 1))).length

theorem WithinBytes.le_of_length {crc32 : Bytes → UInt32} {length i k : ℕ}
    (h : WithinBytes crc32 rs length i) (hk : k ≤ rs.length)
    (hlength : (Wal.logBytes crc32 (rs.take k)).length ≤ length) :
    k ≤ i := by
  by_contra hlt
  have hnext := h.next (by omega)
  have hmono := length_logBytes_take_le crc32 rs (show i + 1 ≤ k by omega)
  omega

/-- What recovery reads of a directory that keeps the records: those whose
frames are whole. -/
theorem DiskKeeps.recovered (h : DiskKeeps R codec dim metric rs bytes d) :
    ∃ i, WithinBytes R.crc32 rs ((d .wal).visible.getD []).length i ∧
      recovered R d = rs.take i := by
  set log := (d .wal).visible.getD [] with hlog
  have hprefix : log = (Wal.logBytes R.crc32 rs).take log.length :=
    List.prefix_iff_eq_take.mp h.holds.log
  obtain ⟨i, hi, t, htake, ht, hle, hnext⟩ :=
    Wal.exists_take_logBytes h.holds.fits h.holds.log.length_le
  refine ⟨i, ⟨hi, hle, hnext⟩, ?_⟩
  rw [← hprefix] at htake
  have hfits : ∀ r ∈ rs.take i, r.FitsFrame := fun r hr =>
    h.holds.fits r (List.mem_of_mem_take hr)
  rcases hvisible : (d .wal).visible with _ | content
  · have hempty : Wal.logBytes R.crc32 (rs.take i) = [] := by
      rw [hlog, hvisible] at htake
      exact (List.append_eq_nil_iff.mp htake.symm).1
    have hnil : rs.take i = [] := by
      rcases hcase : rs.take i with _ | ⟨r, rest⟩
      · rfl
      · have hcons := length_logBytes_cons R.crc32 r rest
        have hpos := framedLen_pos r
        rw [← hcase, hempty, List.length_nil] at hcons
        omega
    rw [hnil, Quorvec.recovered, Dir.files, hvisible]
    rfl
  · rw [hlog, hvisible, Option.getD_some] at htake
    rw [Quorvec.recovered, Dir.files, hvisible, htake,
      Wal.recover_logBytes_append hfits ht]

/-- A directory that holds the first `n` records on the disk loses none of
them. -/
theorem WithinBytes.promised {i n : ℕ}
    (h : WithinBytes R.crc32 rs ((d .wal).visible.getD []).length i)
    (hkeeps : DiskKeeps R codec dim metric rs
      (Wal.logBytes R.crc32 (rs.take n)).length d) (hn : n ≤ rs.length) :
    n ≤ i :=
  h.le_of_length hn (hkeeps.safe.trans (d .wal).safe_le)

/-! ## Opening -/

/-- The records of a snapshot need not be replayed. -/
theorem replay_of_covers {m : Memory} (hm : Rebuilds R dim metric rs m)
    {snap : Option Snapshot} (hsnap : ∀ image, snap = some image →
      ∃ k, LogCovers R codec dim metric rs image k) :
    ∃ image offset, Shard.startImage snap dim metric = .ok (image, offset) ∧
      replay R offset rs 0 image = .ok m := by
  obtain ⟨index, hnew, hfold⟩ := hm
  cases hcase : snap with
  | none =>
      refine ⟨(index, ∅), 0, by simp [Shard.startImage, hnew], ?_⟩
      rw [replay_of_offset_le le_rfl, hfold]
  | some image =>
      obtain ⟨k, hcovers⟩ := hsnap image hcase
      obtain ⟨index', hnew', himage⟩ := hcovers.rebuilds
      obtain rfl : index = index' :=
        Except.ok.inj (hnew.symm.trans hnew')
      refine ⟨_, _, rfl, ?_⟩
      rw [hcovers.offset, ← Nat.zero_add (List.length _), replay_eq]
      rw [← List.take_append_drop k rs, List.foldlM_append, himage,
        ok_bind] at hfold
      exact hfold

/-- A snapshot that is found can be loaded and covers records on the disk. -/
theorem Holds.load (h : Holds R codec dim metric rs d) :
    ∃ snap, Snapshot.load codec (d .snap).visible = some snap ∧
      ∀ image, snap = some image → ∃ k,
        LogCovers R codec dim metric rs image k ∧
          (Wal.logBytes R.crc32 (rs.take k)).length ≤ (d .wal).safe := by
  rcases h.snap _ (d .snap).survives_visible with
    hnone | ⟨image, k, hsome, hcovers, hsafe⟩
  · exact ⟨none, by rw [hnone]; rfl, by simp⟩
  · refine ⟨some image, ?_, fun image' himage' => ?_⟩
    · rw [hsome, Snapshot.load, hcovers.readsBack]
      rfl
    · rw [← Option.some.inj himage']
      exact ⟨k, hcovers, hsafe⟩

namespace DiskKeeps

variable {n i : ℕ}

/-- Recovery cuts the log behind the whole frames. -/
theorem cut (h : DiskKeeps R codec dim metric rs
      (Wal.logBytes R.crc32 (rs.take n)).length d)
    (hn : n ≤ rs.length)
    (hi : WithinBytes R.crc32 rs ((d .wal).visible.getD []).length i) :
    DiskKeeps R codec dim metric rs (Wal.logBytes R.crc32 (rs.take n)).length
      (d.change .wal
        (·.cut (Wal.logBytes R.crc32 (rs.take i)).length)) ∧
    (d.change .wal (·.cut (Wal.logBytes R.crc32 (rs.take i)).length)
      .wal).visible = (d .wal).visible.map
        fun _ => Wal.logBytes R.crc32 (rs.take i) := by
  set whole := Wal.logBytes R.crc32 (rs.take i) with hwhole
  have hpart : whole <+: (d .wal).visible.getD [] := by
    refine List.prefix_of_prefix_length_le ?_ h.holds.log hi.fit
    rw [hwhole]
    conv_rhs => rw [← List.take_append_drop i rs, Wal.logBytes_append]
    exact List.prefix_append _ _
  have htake : ((d .wal).visible.getD []).take whole.length = whole :=
    (List.prefix_iff_eq_take.mp hpart).symm
  have hwal : d.change .wal (·.cut whole.length) .wal =
      (d .wal).cut whole.length := Dir.change_self _ _ _
  have hsnap : d.change .wal (·.cut whole.length) .snap = d .snap :=
    Dir.change_of_ne (by simp) _ _
  have hvisible : ((d .wal).cut whole.length).visible =
      (d .wal).visible.map fun _ => whole := by
    rw [DirEntry.visible_cut]
    rcases hcase : (d .wal).visible with _ | content
    · rfl
    · rw [hcase] at htake
      exact congrArg some htake
  have hsafe : ((d .wal).cut whole.length).safe = whole.length := by
    rw [DirEntry.safe_cut, htake]
  refine ⟨⟨⟨h.holds.fits, h.holds.rebuilds, ?_, ?_, fun b hb => ?_⟩, ?_⟩, ?_⟩
  · rw [hwal, DirEntry.visible_cut]
    refine List.IsPrefix.trans ?_ h.holds.log
    rcases (d .wal).visible with _ | content
    · exact List.prefix_rfl
    · exact List.take_prefix _ _
  · rw [hwal]
    exact DirEntry.fresh_found _
  · rw [hsnap] at hb
    refine (h.holds.snap b hb).imp_right ?_
    rintro ⟨image, k, himage, hcovers, hle⟩
    refine ⟨image, k, himage, hcovers, ?_⟩
    rw [hwal, hsafe]
    exact length_logBytes_take_le _ _
      (hi.le_of_length hcovers.le (hle.trans (d .wal).safe_le))
  · rw [hwal, hsafe]
    exact length_logBytes_take_le _ _ (hi.promised h hn)
  · rw [hwal, hvisible]

theorem ensure (h : DiskKeeps R codec dim metric rs bytes d) :
    DiskKeeps R codec dim metric rs bytes (d.change .wal DirEntry.ensure) := by
  refine h.change_log ?_ h.holds.fresh.ensure (by rw [DirEntry.safe_ensure])
  rw [DirEntry.visible_ensure]
  exact h.holds.log

/-- A directory whose log is that of a first part of the records keeps this
part. -/
theorem restrict (h : DiskKeeps R codec dim metric rs
      (Wal.logBytes R.crc32 (rs.take n)).length d)
    (hn : n ≤ rs.length)
    (hi : WithinBytes R.crc32 rs ((d .wal).visible.getD []).length i)
    (hlog : (d .wal).visible.getD [] = Wal.logBytes R.crc32 (rs.take i)) :
    DiskKeeps R codec dim metric (rs.take i)
      (Wal.logBytes R.crc32 ((rs.take i).take n)).length d := by
  have hk : ∀ {k}, k ≤ i → (rs.take i).take k = rs.take k := by
    intro k hk
    rw [List.take_take, Nat.min_eq_left hk]
  obtain ⟨m, hm⟩ := h.holds.rebuilds
  refine ⟨⟨fun r hr => h.holds.fits r (List.mem_of_mem_take hr), hm.take i, ?_,
    h.holds.fresh, fun b hb => ?_⟩, ?_⟩
  · rw [hlog]
  · refine (h.holds.snap b hb).imp_right ?_
    rintro ⟨image, k, himage, hcovers, hle⟩
    have hki := hi.le_of_length hcovers.le (hle.trans (d .wal).safe_le)
    exact ⟨image, k, himage, hcovers.take hki, by rwa [hk hki]⟩
  · rw [hk (hi.promised h hn)]
    exact h.safe

theorem log_eq_of_length (h : DiskKeeps R codec dim metric rs bytes d)
    (hlength : ((d .wal).visible.getD []).length ≤
      (Wal.logBytes R.crc32 (rs.take i)).length)
    (hi : WithinBytes R.crc32 rs ((d .wal).visible.getD []).length i) :
    (d .wal).visible.getD [] = Wal.logBytes R.crc32 (rs.take i) := by
  have hpart : Wal.logBytes R.crc32 (rs.take i) <+:
      Wal.logBytes R.crc32 rs := by
    conv_rhs => rw [← List.take_append_drop i rs, Wal.logBytes_append]
    exact List.prefix_append _ _
  exact (List.prefix_of_prefix_length_le h.holds.log hpart
    hlength).eq_of_length (le_antisymm hlength hi.fit)

/-- The operations of recovery, wherever they stop and when they are done. -/
theorem recovering (h : DiskKeeps R codec dim metric rs
      (Wal.logBytes R.crc32 (rs.take n)).length d)
    (hn : n ≤ rs.length)
    (hi : WithinBytes R.crc32 rs ((d .wal).visible.getD []).length i) :
    let ops := Wal.recoverOps (d .wal).visible
      (Wal.logBytes R.crc32 (rs.take i)).length
    (∀ done, Begun ops done →
      KeepsWithin R codec dim metric rs
        (Wal.logBytes R.crc32 (rs.take n)).length
        ((d .wal).visible.getD []).length (d.run done)) ∧
    ((d.run ops) .wal).visible.getD [] =
      Wal.logBytes R.crc32 (rs.take i) ∧
    (d.run ops) .snap = d .snap := by
  obtain ⟨hcut, hafter⟩ := h.cut hn hi
  have hself : LogWithin ((d .wal).visible.getD []).length d := le_rfl
  have hlog := fun hlength => h.log_eq_of_length hlength hi
  rcases hvisible : (d .wal).visible with _ | content
  · rw [hvisible] at hself hlog
    refine ⟨forall_begun_nil ⟨h, hself⟩, ?_, rfl⟩
    show (d .wal).visible.getD [] = _
    rw [hvisible]
    exact hlog (Nat.zero_le _)
  · rw [hvisible, Option.getD_some] at hself hlog
    rw [hvisible] at hafter
    simp only [Wal.recoverOps, Option.getD_some]
    split_ifs with hshort
    · refine ⟨forall_begun_cons_whole (by simp) ⟨h, hself⟩
        (forall_begun_nil ⟨hcut, ?_⟩), ?_, ?_⟩
      · rw [LogWithin, DirOp.apply, hafter]
        exact hshort.le
      · rw [Dir.run_cons, Dir.run_nil, DirOp.apply, hafter]
        rfl
      · rw [Dir.run_cons, Dir.run_nil, DirOp.apply]
        exact Dir.change_of_ne (by simp) _ _
    · refine ⟨forall_begun_nil ⟨h, hself⟩, ?_, rfl⟩
      rw [Dir.run_nil, hvisible]
      exact hlog (not_lt.mp hshort)

/-- The operations of an open, wherever they stop and when they are done. -/
theorem opening (h : DiskKeeps R codec dim metric rs
      (Wal.logBytes R.crc32 (rs.take n)).length d)
    (hn : n ≤ rs.length)
    (hi : WithinBytes R.crc32 rs ((d .wal).visible.getD []).length i) :
    let ops := Wal.recoverOps (d .wal).visible
      (Wal.logBytes R.crc32 (rs.take i)).length ++ [.ensure .wal]
    (∀ done, Begun ops done →
      KeepsWithin R codec dim metric rs
        (Wal.logBytes R.crc32 (rs.take n)).length
        ((d .wal).visible.getD []).length (d.run done)) ∧
    ((d.run ops) .wal).visible =
      some (Wal.logBytes R.crc32 (rs.take i)) ∧
    (d.run ops) .snap = d .snap := by
  intro ops
  obtain ⟨hbegun, hlog, hsnap⟩ := h.recovering hn hi
  obtain ⟨hkeeps, hwithin⟩ := hbegun _ (begun_self _)
  set d₁ := d.run (Wal.recoverOps (d .wal).visible
    (Wal.logBytes R.crc32 (rs.take i)).length)
  have hensure : (d₁.change .wal DirEntry.ensure .wal).visible =
      some (Wal.logBytes R.crc32 (rs.take i)) := by
    rw [Dir.change_self, DirEntry.visible_ensure, hlog]
  have hrun : d.run ops = d₁.change .wal DirEntry.ensure := Dir.run_append _ _ _
  refine ⟨forall_begun_append hbegun (forall_begun_cons_whole (by simp)
    ⟨hkeeps, hwithin⟩ (forall_begun_nil ⟨hkeeps.ensure, ?_⟩)), ?_, ?_⟩
  · rw [LogWithin, DirOp.apply, hensure, Option.getD_some, ← hlog]
    exact hwithin
  · rw [hrun, hensure]
  · rw [hrun, Dir.change_of_ne (by simp), hsnap]

end DiskKeeps

/-! ## The invariant of a life -/

/-- A directory at rest has the records that recovery reads, and more of its
log may be seen than is on the disk. -/
structure AtRest (R : Runtime) (codec : SnapshotCodec) (dim : ℕ)
    (metric : Metric) (rs : List WalRecord) (n : ℕ) (d : Dir ShardFile) :
    Prop where
  read : recovered R d = rs
  left : ∃ all i, rs = all.take i ∧ n ≤ i ∧ n ≤ all.length ∧
    WithinBytes R.crc32 all ((d .wal).visible.getD []).length i ∧
    DiskKeeps R codec dim metric all
      (Wal.logBytes R.crc32 (all.take n)).length d

/-- A shard that runs on its directory. -/
structure Alive (R : Runtime) (codec : SnapshotCodec) (dim : ℕ)
    (metric : Metric) (rs : List WalRecord) (n : ℕ) (s : Shard)
    (d : Dir ShardFile) : Prop where
  keeps : DiskKeeps R codec dim metric rs
    (Wal.logBytes R.crc32 (rs.take n)).length d
  le : n ≤ rs.length
  mem : Rebuilds R dim metric rs s.mem
  dim_eq : s.dim = dim
  clean : s.wal.Clean
  contents : s.wal.writer.contents = Wal.logBytes R.crc32 rs
  len : s.wal.len = (Wal.logBytes R.crc32 rs).length
  visible : (d .wal).visible = some s.wal.writer.inner
  snap : Snapshot.load codec (d .snap).visible = some s.snap

variable {n : ℕ} {s : Shard}

theorem DiskKeeps.atRest (h : DiskKeeps R codec dim metric rs
      (Wal.logBytes R.crc32 (rs.take n)).length d) (hn : n ≤ rs.length) :
    AtRest R codec dim metric (Quorvec.recovered R d) n d ∧
      ∃ i ≥ n, Quorvec.recovered R d = rs.take i ∧
        WithinBytes R.crc32 rs ((d .wal).visible.getD []).length i := by
  obtain ⟨i, hi, hread⟩ := h.recovered
  have hpromised := hi.promised h hn
  exact ⟨⟨rfl, rs, i, hread, hpromised, hn, hi, h⟩, i, hpromised, hread, hi⟩

theorem AtRest.length (h : AtRest R codec dim metric rs n d) :
    n ≤ rs.length := by
  obtain ⟨all, i, rfl, hni, hn, hi, -⟩ := h.left
  rw [List.length_take]
  exact le_min hni hn

theorem Shard.openOps_eq {dir : ShardDir} {image m : Memory}
    {offset goodEnd : ℕ} {file : Option Bytes}
    (hstart : Shard.startImage dir.snap dim metric = .ok (image, offset))
    (hrecover : Wal.recover R.crc32 dir.wal = .ok ((rs, goodEnd), file))
    (hreplay : replay R offset rs 0 image = .ok m) :
    Shard.openOps R dir dim metric =
      Wal.recoverOps dir.wal goodEnd ++ [.ensure .wal] := by
  simp only [Shard.openOps, hstart, hrecover, hreplay]

/-- A directory at rest can be opened, and may be left in the course of it. -/
theorem AtRest.open (h : AtRest R codec dim metric rs n d) :
    ∃ dir, ShardDir.ofFiles codec d.files = some dir ∧
      (∀ mb batchMs, Returns (Shard.open R dir dim metric mb batchMs)
        fun s => Alive R codec dim metric rs n s
          (d.run (Shard.openOps R dir dim metric))) ∧
      ∀ d', Stopped d (Shard.openOps R dir dim metric) d' →
        AtRest R codec dim metric (Quorvec.recovered R d') n d' ∧
          ∃ i ≥ n, Quorvec.recovered R d' = rs.take i := by
  obtain ⟨hread, all, i, hrs, hni, hn, hi, hkeeps⟩ := h
  obtain ⟨snap, hload, hsnap⟩ := hkeeps.holds.load
  obtain ⟨read, goodEnd, file, hrecover⟩ :=
    Wal.recover_returns R.crc32 (d .wal).visible
  obtain ⟨-, hfile, hend, -⟩ := Wal.recover_cases hrecover
  obtain rfl : read = rs := by
    rw [← hread, Quorvec.recovered, Dir.files, hrecover]
  subst hrs
  obtain ⟨whole, hwhole⟩ := hkeeps.holds.rebuilds
  obtain ⟨m, hm⟩ := hwhole.take i
  have hcovers : ∀ image, snap = some image →
      ∃ k, LogCovers R codec dim metric (all.take i) image k := by
    intro image himage
    obtain ⟨k, hcovers, hle⟩ := hsnap image himage
    exact ⟨k, hcovers.take
      (hi.le_of_length hcovers.le (hle.trans (d .wal).safe_le))⟩
  obtain ⟨image, offset, hstart, hreplay⟩ := replay_of_covers hm hcovers
  have hops : Shard.openOps R { wal := (d .wal).visible, snap } dim metric =
      Wal.recoverOps (d .wal).visible
        (Wal.logBytes R.crc32 (all.take i)).length ++ [.ensure .wal] :=
    hend ▸ Shard.openOps_eq hstart hrecover hreplay
  obtain ⟨hbegun, hvisible, hsame⟩ := hkeeps.opening hn hi
  rw [← hops] at hbegun hvisible hsame
  refine ⟨{ wal := (d .wal).visible, snap }, ?_, fun mb batchMs => ?_,
    fun d' hd' => ?_⟩
  · show (Snapshot.load codec (d .snap).visible).map _ = _
    rw [hload]
    rfl
  · refine ⟨{
      snap, dim, metric
      index := m.1
      versions := m.2
      wal := Wal.open file batchMs
      snapshotThresholdBytes := Shard.thresholdOf mb
      lastSnapshotOffset := offset }, ?_, ?_⟩
    · simp only [Shard.open, hstart, hrecover, hreplay, ok_bind, pure_eq_ok]
    · have hopened := hbegun _ (begun_self _)
      have hi' : WithinBytes R.crc32 all
          (((d.run (Shard.openOps R
            { wal := (d .wal).visible, snap } dim metric))
              .wal).visible.getD []).length i := by
        refine ⟨hi.le, ?_, fun hlt => ?_⟩
        · rw [hvisible, Option.getD_some]
        · exact hopened.within.trans_lt (hi.next hlt)
      refine ⟨hopened.keeps.restrict hn hi' ?_, ?_, hm, rfl,
        Wal.clean_open _ _, ?_, ?_, ?_, ?_⟩
      · rw [hvisible, Option.getD_some]
      · rw [List.length_take]
        exact le_min hni hn
      · rw [Wal.contents_open, hfile]
      · show (file.getD []).length = _
        rw [hfile]
      · rw [hvisible, Wal.inner_open, hfile]
      · rw [hsame, hload]
  · obtain ⟨hleft, hwithin⟩ := KeepsWithin.stopped hbegun hd'
    obtain ⟨hrest, j, hj, hread', hj'⟩ := hleft.atRest hn
    have hle : j ≤ i := hi.le_of_length hj'.le (hj'.fit.trans hwithin)
    refine ⟨hrest, j, hj, ?_⟩
    rw [hread', List.take_take, Nat.min_eq_left hle]

/-! ## One step -/

theorem Shard.maybeSnapshotOps_cases (s : Shard) (codec : SnapshotCodec)
    (dirSynced : Bool) :
    s.maybeSnapshot = s ∧ s.maybeSnapshotOps codec dirSynced = [] ∨
      s.maybeSnapshot = s.snapshotNow ∧
        s.maybeSnapshotOps codec dirSynced = s.snapshotOps codec dirSynced := by
  unfold Shard.maybeSnapshot Shard.maybeSnapshotOps
  split_ifs
  · exact .inl ⟨rfl, rfl⟩
  · exact .inr ⟨rfl, rfl⟩
  · exact .inl ⟨rfl, rfl⟩

/-- A write that is refused does nothing to the files. -/
theorem Shard.callOps_of_refused {c : ShardCall} (dirSynced : Bool)
    (hc : ¬ c.Accepted s.dim s.mem) : s.callOps R codec dirSynced c = [] := by
  have hstale : ∀ r : WalRecord, ¬ Beats r.hlc (registers s.mem r.id) →
      s.acceptVersionedOps R codec dirSynced r = [] := by
    intro r hr
    rw [Shard.acceptVersionedOps, if_pos (Shard.isStale_iff.mpr hr)]
  rcases c with ⟨hlc, id, vector, payload⟩ | ⟨hlc, id⟩
  · rw [Shard.callOps]
    split_ifs with hdim
    · rfl
    · refine hstale _ fun hbeats => hc ⟨?_, hbeats⟩
      intro v hv
      rw [← Option.some.inj hv]
      exact not_not.mp hdim
  · refine hstale _ fun hbeats => hc ⟨?_, hbeats⟩
    intro v hv
    cases hv

theorem Shard.callOps_of_accepted {c : ShardCall} (dirSynced : Bool)
    (hc : c.Accepted s.dim s.mem) :
    s.callOps R codec dirSynced c =
      s.logAndApplyOps R codec dirSynced c.record := by
  have hfresh : ¬ s.isStale c.record.id c.record.hlc = true := by
    rw [Shard.isStale_iff]
    exact not_not_intro hc.2
  have haccept : s.acceptVersionedOps R codec dirSynced c.record =
      s.logAndApplyOps R codec dirSynced c.record := if_neg hfresh
  rcases c with ⟨hlc, id, vector, payload⟩ | ⟨hlc, id⟩
  · rw [Shard.callOps, if_neg (not_not_intro (hc.1 vector rfl))]
    exact haccept
  · exact haccept

theorem Rebuilds.append {m m' : Memory} (h : Rebuilds R dim metric rs m)
    {r : WalRecord} (hbeats : Beats r.hlc (registers m r.id))
    (happly : applyOp R m r = .ok m') :
    Rebuilds R dim metric (rs ++ [r]) m' := by
  obtain ⟨index, hnew, hfold⟩ := h
  refine ⟨index, hnew, ?_⟩
  rw [List.foldlM_append, hfold, ok_bind, List.foldlM_cons,
    applyRecord_of_beats hbeats, happly]
  rfl

namespace Alive

theorem valid (h : Alive R codec dim metric rs n s d) : s.Valid := by
  obtain ⟨snap, hload, hsnap⟩ := h.keeps.holds.load
  refine ⟨?_, fun image himage => ?_⟩
  · rw [h.dim_eq]
    exact h.mem.valid
  · have hsame : snap = s.snap :=
      Option.some.inj (hload.symm.trans h.snap)
    obtain ⟨k, hcovers, -⟩ := hsnap image (hsame.trans himage)
    rw [h.dim_eq]
    exact hcovers.rebuilds.valid

theorem files (h : Alive R codec dim metric rs n s d) :
    ShardDir.ofFiles codec d.files = some s.dir := by
  show (Snapshot.load codec (d .snap).visible).map
    (fun snap => ({ wal := (d .wal).visible, snap } : ShardDir)) = _
  rw [h.snap, h.visible]
  rfl

theorem promise (h : Alive R codec dim metric rs n s d)
    (hsafe : (d .wal).safe = (Wal.logBytes R.crc32 rs).length) :
    Alive R codec dim metric rs rs.length s d :=
  { h with
    keeps := ⟨h.keeps.holds, by rw [List.take_length, hsafe]⟩
    le := le_rfl }

theorem flush (h : Alive R codec dim metric rs n s d) :
    (∀ done, Begun s.wal.flushOps done →
      DiskKeeps R codec dim metric rs
        (Wal.logBytes R.crc32 (rs.take n)).length (d.run done)) ∧
    Alive R codec dim metric rs (if s.wal.dirty then rs.length else n)
      s.flush (d.run s.wal.flushOps) := by
  obtain ⟨hbegun, hfollows, hsafe⟩ :=
    h.keeps.flush h.clean h.contents h.visible
  have halive : Alive R codec dim metric rs n s.flush
      (d.run s.wal.flushOps) := by
    refine ⟨hbegun _ (begun_self _), h.le, h.mem, h.dim_eq, ?_, ?_, ?_,
      hfollows.visible, ?_⟩
    · exact Wal.clean_of_synced (Wal.synced_flush h.clean)
    · exact (Wal.contents_flush s.wal).trans h.contents
    · exact (Wal.len_flush s.wal).trans h.len
    · rw [hfollows.snap]
      exact h.snap
  refine ⟨hbegun, ?_⟩
  split_ifs with hdirty
  · exact halive.promise (hsafe hdirty)
  · exact halive

/-- A snapshot that may be taken after a record was appended. -/
theorem maybeSnapshot (h : Alive R codec dim metric rs n s d)
    (dirSynced : Bool)
    (hread : ∀ image, s.maybeSnapshot.snap = some image →
      codec.ReadsBack image)
    (hsynced : s.wal.dirty = false →
      (d .wal).safe = (Wal.logBytes R.crc32 rs).length) :
    (∀ done, Begun (s.maybeSnapshotOps codec dirSynced) done →
      DiskKeeps R codec dim metric rs
        (Wal.logBytes R.crc32 (rs.take n)).length (d.run done)) ∧
    Alive R codec dim metric rs n s.maybeSnapshot
      (d.run (s.maybeSnapshotOps codec dirSynced)) ∧
    ((d .wal).safe = (Wal.logBytes R.crc32 rs).length →
      ((d.run (s.maybeSnapshotOps codec dirSynced)) .wal).safe =
        (Wal.logBytes R.crc32 rs).length) := by
  rcases s.maybeSnapshotOps_cases codec dirSynced with
    ⟨hs, hops⟩ | ⟨hs, hops⟩
  · rw [hs, hops]
    exact ⟨forall_begun_nil h.keeps, h, id⟩
  · rw [hs] at hread
    rw [hs, hops]
    obtain ⟨hbegun, hvisible, hsafe, hload⟩ := h.keeps.snapshot h.clean
      h.contents h.len h.visible h.mem (hread _ rfl) hsynced dirSynced
    refine ⟨hbegun, ⟨hbegun _ (begun_self _), h.le, h.mem, h.dim_eq, ?_, ?_,
      ?_, hvisible, hload⟩, fun _ => hsafe⟩
    · exact Wal.clean_of_synced (Wal.synced_flush h.clean)
    · exact (Wal.contents_flush s.wal).trans h.contents
    · exact (Wal.len_flush s.wal).trans h.len

/-- A write that is accepted. -/
theorem accepted (h : Alive R codec dim metric rs n s d) {c : ShardCall}
    (hc : c.Accepted s.dim s.mem) (hfits : c.record.FitsFrame)
    (dirSynced : Bool)
    (hread : ∀ image, (c.apply R s).1.snap = some image →
      codec.ReadsBack image) :
    (∀ done, Begun (s.callOps R codec dirSynced c) done →
      DiskKeeps R codec dim metric (rs ++ [c.record])
        (Wal.logBytes R.crc32 (rs.take n)).length (d.run done)) ∧
    Alive R codec dim metric (rs ++ [c.record])
      (if s.wal.batchMs = 0 then (rs ++ [c.record]).length else n)
      (c.apply R s).1 (d.run (s.callOps R codec dirSynced c)) := by
  obtain ⟨m', happly, hm'⟩ := applyOp_returns (R := R) h.valid.mem hc.1
  have hrebuilds := h.mem.append hc.2 happly
  have htake : (rs ++ [c.record]).take n = rs.take n :=
    List.take_append_of_le_length h.le
  have hafter := Shard.apply_of_accepted hc.1 hc.2 happly
  set appended : Shard := { s with
    wal := (s.wal.append R.crc32 c.record).1
    index := m'.1
    versions := m'.2 } with happended
  have hops : s.callOps R codec dirSynced c =
      s.wal.appendOps R.crc32 c.record ++
        appended.maybeSnapshotOps codec dirSynced := by
    have hmem : applyOp R ({ s with
        wal := (s.wal.append R.crc32 c.record).1 } : Shard).mem c.record =
        .ok m' := happly
    simp only [Shard.callOps_of_accepted dirSynced hc, Shard.logAndApplyOps,
      hmem]
    rfl
  -- the record is appended
  obtain ⟨hbegun, hfollows, hsafe⟩ := (h.keeps.extend hfits hrebuilds).append
    rfl h.contents h.visible
  set d₁ := d.run (s.wal.appendOps R.crc32 c.record) with hd₁
  have halive : Alive R codec dim metric (rs ++ [c.record]) n appended d₁ := by
    refine ⟨?_, ?_, hrebuilds, h.dim_eq, Wal.clean_append _ _, ?_, ?_,
      hfollows.visible, ?_⟩
    · rw [htake]
      exact hbegun _ (begun_self _)
    · exact h.le.trans (by simp)
    · exact Wal.contents_append_of_logBytes h.contents c.record
    · have hfield : (UInt32.ofNat (4 + c.record.encodeBody.length)).toNat =
          4 + c.record.encodeBody.length := UInt32.toNat_ofNat_of_lt' hfits
      show (s.wal.append R.crc32 c.record).1.len = _
      rw [Wal.len_append, h.len, hfield, Wal.logBytes_append,
        List.length_append, length_logBytes_singleton, framedLen_eq R.crc32,
        length_frame]
      omega
    · rw [hfollows.snap]
      exact h.snap
  -- in batch mode the log is dirty now
  have hsynced : appended.wal.dirty = false →
      (d₁ .wal).safe = (Wal.logBytes R.crc32 (rs ++ [c.record])).length := by
    intro hdirty
    rcases Wal.append_cases R.crc32 s.wal c.record with
      ⟨hbatch, -⟩ | ⟨-, happend⟩
    · exact hsafe hbatch
    · simp [happended, happend, Wal.writeFrame] at hdirty
  obtain ⟨hbegun', halive', hsafe'⟩ := halive.maybeSnapshot dirSynced
    (by rwa [hafter] at hread) hsynced
  rw [hops, hafter]
  refine ⟨forall_begun_append hbegun (htake ▸ hbegun'), ?_⟩
  rw [Dir.run_append, ← hd₁]
  split_ifs with hbatch
  · exact halive'.promise (hsafe' (hsafe hbatch))
  · exact halive'

/-- A write that is not accepted. -/
theorem refused (h : Alive R codec dim metric rs n s d) {c : ShardCall}
    (hc : ¬ c.Accepted s.dim s.mem) :
    (c.apply R s).1 = s ∧ (c.apply R s).2 ≠ .ok .applied := by
  by_cases hdim : c.record.HasDim s.dim
  · have hstale : ¬ Beats c.record.hlc (registers s.mem c.record.id) :=
      fun hbeats => hc ⟨hdim, hbeats⟩
    rw [(Shard.apply_stepped (R := R) h.valid hdim).stale hstale]
    exact ⟨rfl, by simp⟩
  · refine ⟨Shard.apply_of_not_hasDim hdim, ?_⟩
    rcases c with ⟨hlc, id, vector, payload⟩ | ⟨hlc, id⟩
    · have hlength : vector.length ≠ s.dim := by
        intro hlength
        refine hdim fun v hv => ?_
        rwa [← Option.some.inj hv]
      rw [ShardCall.apply, Shard.upsertVersioned, if_pos hlength]
      simp
    · exact absurd (fun v hv => by cases hv) hdim

/-- One step, wherever it stops and when it is done. -/
theorem step (h : Alive R codec dim metric rs n s d) {e : FileStep}
    (he : e.Admitted R codec s) :
    (∀ done, Begun (e.ops R codec s) done →
      DiskKeeps R codec dim metric (rs ++ e.records R s)
        (Wal.logBytes R.crc32 (rs.take n)).length (d.run done)) ∧
    Alive R codec dim metric (rs ++ e.records R s)
      (if e.promises R s then (rs ++ e.records R s).length else n)
      (e.apply R s) (d.run (e.ops R codec s)) := by
  cases e with
  | flush =>
      simp only [FileStep.records, List.append_nil, FileStep.promises,
        FileStep.ops, FileStep.apply]
      exact h.flush
  | call c dirSynced =>
      by_cases hc : c.Accepted s.dim s.mem
      · have hout : (c.apply R s).2 = .ok .applied :=
          (Shard.apply_stepped (R := R) h.valid hc.1).applied hc.2
        have hrecords : (FileStep.call c dirSynced).records R s =
            [c.record] := by
          simp only [FileStep.records, hout]
        have hpromises : (FileStep.call c dirSynced).promises R s =
            decide (s.wal.batchMs = 0) := by
          simp [FileStep.promises, hout]
        have hfits := he.fits c.record (by simp [hrecords])
        rw [hrecords, hpromises]
        simp only [decide_eq_true_eq]
        exact h.accepted hc hfits dirSynced he.readsBack
      · obtain ⟨hsame, hout⟩ := h.refused (R := R) hc
        have hrecords : (FileStep.call c dirSynced).records R s = [] := by
          simp only [FileStep.records]
        have hpromises : (FileStep.call c dirSynced).promises R s = false := by
          simp [FileStep.promises, hout]
        have hops : (FileStep.call c dirSynced).ops R codec s = [] :=
          Shard.callOps_of_refused dirSynced hc
        rw [hrecords, hpromises, hops, List.append_nil]
        refine ⟨forall_begun_nil h.keeps, ?_⟩
        simp only [FileStep.apply, hsame, Bool.false_eq_true, if_false]
        exact h

/-- A step that is stopped. -/
theorem stop (h : Alive R codec dim metric rs n s d) {e : FileStep}
    (he : e.Admitted R codec s) (hd : Stopped d (e.ops R codec s) d') :
    AtRest R codec dim metric (Quorvec.recovered R d') n d' ∧
      ∃ i ≥ n, Quorvec.recovered R d' =
        (rs ++ e.records R s).take i := by
  have htake : (rs ++ e.records R s).take n = rs.take n :=
    List.take_append_of_le_length h.le
  have hkeeps := DiskKeeps.stopped (h.step he).1 hd
  rw [← htake] at hkeeps
  obtain ⟨hrest, i, hi, hread, -⟩ :=
    hkeeps.atRest (h.le.trans (by simp))
  exact ⟨hrest, i, hi, hread⟩

end Alive

theorem atRest_unused {index : HnswIndex}
    (hnew : HnswIndex.new dim metric = .ok index) :
    AtRest R codec dim metric [] 0 (.found fun _ => none) := by
  have hkeeps : DiskKeeps R codec dim metric []
      (Wal.logBytes R.crc32 (([] : List WalRecord).take 0)).length
      (.found fun _ => none) := by
    refine ⟨⟨by simp, ⟨_, index, hnew, rfl⟩, List.nil_prefix,
      DirEntry.fresh_found _, fun b hb => ?_⟩, ?_⟩
    · exact .inl (DirEntry.survives_found_iff.mp hb)
    · rw [List.take_nil, Wal.logBytes_eq, frames_nil]
      exact Nat.zero_le _
  exact (hkeeps.atRest le_rfl).1

/-- The invariant of a phase. -/
def DiskPhase.Sound (R : Runtime) (codec : SnapshotCodec) (dim : ℕ)
    (metric : Metric) (rs : List WalRecord) (n : ℕ) : DiskPhase → Prop
  | running s d => Alive R codec dim metric rs n s d
  | stopped d => AtRest R codec dim metric rs n d

theorem DiskLife.sound {phase : DiskPhase}
    (h : DiskLife R codec dim metric phase rs n) :
    phase.Sound R codec dim metric rs n := by
  induction h with
  | start hnew => exact atRest_unused hnew
  | opened mb batchMs _ hdir hopen ih =>
      obtain ⟨dir', hdir', hall, -⟩ := AtRest.open ih
      obtain rfl := Option.some.inj (hdir.symm.trans hdir')
      exact (hall mb batchMs).of_eq_ok hopen
  | step e _ he ih => exact (Alive.step ih he).2
  | stop _ he hd ih => exact (Alive.stop ih he hd).1
  | stopOpening _ hdir hd ih =>
      obtain ⟨dir', hdir', -, hall⟩ := AtRest.open ih
      obtain rfl := Option.some.inj (hdir.symm.trans hdir')
      exact (hall _ hd).1

end Invariant

end Quorvec
