import Quorvec.Storage.TruncatedLog
import Quorvec.Support.StableStorage

/-!
# The files of a shard

What each call of a shard does to its directory, operation by operation: the
log is written and synced, and a snapshot is written under a temporary name,
synced, and renamed.  The directory is synced afterwards; an error of that sync
is ignored.  A log that is not dirty is not synced.

A log that an open creates is on the disk with its first sync.
-/

namespace Quorvec

open StableStorage ByteCodec TotalCorrectness

/-- The names in a shard's directory. -/
inductive ShardFile
  | wal
  | snap
  /-- `shard.snap.tmp` -/
  | snapTmp
deriving DecidableEq

/-- The serialization of snapshots. -/
structure SnapshotCodec where
  serialize : Snapshot → Bytes
  deserialize : Bytes → Option Snapshot

/-- The codec reads back what it wrote for this snapshot. -/
def SnapshotCodec.ReadsBack (codec : SnapshotCodec) (image : Snapshot) :
    Prop :=
  codec.deserialize (codec.serialize image) = some image

namespace Snapshot

variable (codec : SnapshotCodec)

/-- Write atomically: temporary file, sync, rename. -/
def writeOps (dirSynced : Bool) (image : Snapshot) :
    List (DirOp ShardFile) :=
  replaceFile .snapTmp .snap (codec.serialize image) dirSynced

/-- Load the snapshot if it exists; `none` if it does not deserialize. -/
def load (file : Option Bytes) : Option (Option Snapshot) :=
  match file with
  | none => some none
  | some bytes => (codec.deserialize bytes).map some

end Snapshot

namespace Wal

def flushOps (w : Wal) : List (DirOp ShardFile) :=
  if w.dirty then [.write .wal w.writer.buf, .sync .wal] else []

/-- What the writer hands to the file, and the flush. -/
def appendOps (crc32 : Bytes → UInt32) (w : Wal) (r : WalRecord) :
    List (DirOp ShardFile) :=
  let written := w.writeFrame crc32 r
  .write .wal (written.writer.inner.drop w.writer.inner.length) ::
    if w.batchMs = 0 then written.flushOps else []

/-- Cut the file behind the last good frame. -/
def recoverOps (file : Option Bytes) (goodEnd : ℕ) :
    List (DirOp ShardFile) :=
  match file with
  | none => []
  | some buf => if goodEnd < buf.length then [.cut .wal goodEnd] else []

end Wal

namespace Shard

section Model

variable (R : Runtime) (codec : SnapshotCodec) (dirSynced : Bool)

/-- What a snapshot holds that is taken now. -/
def image (s : Shard) : Snapshot :=
  { walOffset := s.wal.flush.offset, index := s.index
    versions := s.versions }

def snapshotOps (s : Shard) : List (DirOp ShardFile) :=
  s.wal.flushOps ++ s.image.writeOps codec dirSynced

def maybeSnapshotOps (s : Shard) : List (DirOp ShardFile) :=
  if s.snapshotThresholdBytes = 0 then []
  else if s.wal.offset - s.lastSnapshotOffset ≥ s.snapshotThresholdBytes then
    s.snapshotOps codec dirSynced
  else []

def logAndApplyOps (s : Shard) (r : WalRecord) : List (DirOp ShardFile) :=
  s.wal.appendOps R.crc32 r ++
    let s := { s with wal := (s.wal.append R.crc32 r).1 }
    match applyOp R s.mem r with
    | .error _ => []
    | .ok (index, versions) =>
        { s with index, versions }.maybeSnapshotOps codec dirSynced

def acceptVersionedOps (s : Shard) (r : WalRecord) :
    List (DirOp ShardFile) :=
  if s.isStale r.id r.hlc then []
  else s.logAndApplyOps R codec dirSynced r

/-- The operations of a versioned write. -/
def callOps (s : Shard) (c : ShardCall) : List (DirOp ShardFile) :=
  match c with
  | .upsert hlc id vector payload =>
      if vector.length ≠ s.dim then []
      else s.acceptVersionedOps R codec dirSynced
        (.ofUpsert hlc id vector payload)
  | .delete hlc id => s.acceptVersionedOps R codec dirSynced (.ofDelete hlc id)

/-- `Shard::flush` -/
def flush (s : Shard) : Shard := { s with wal := s.wal.flush }

/-- The operations of an open: recovery cuts the log, and the log is opened for
appending. -/
def openOps (dir : ShardDir) (dim : ℕ) (metric : Metric) :
    List (DirOp ShardFile) :=
  match startImage dir.snap dim metric, Wal.recover R.crc32 dir.wal with
  | .ok (image, snapOffset), .ok ((records, goodEnd), _) =>
      Wal.recoverOps dir.wal goodEnd ++
        match replay R snapOffset records 0 image with
        | .error _ => []
        | .ok _ => [.ensure .wal]
  | _, _ => []

end Model

end Shard

/-- The directory of a shard as its files give it; `none` if the snapshot does
not deserialize. -/
def ShardDir.ofFiles (codec : SnapshotCodec) (files : Files ShardFile) :
    Option ShardDir :=
  (Snapshot.load codec (files .snap)).map fun snap =>
    { wal := files .wal, snap }

/-! ## What is written to a log -/

section Log

variable {crc32 : Bytes → UInt32} {w : Wal} {r : WalRecord}

theorem Wal.inner_writeFrame (crc32 : Bytes → UInt32) (w : Wal)
    (r : WalRecord) :
    w.writer.inner <+: (w.writeFrame crc32 r).writer.inner :=
  ((BufferedWriter.inner_isPrefix_writeAll _ _).trans
    (BufferedWriter.inner_isPrefix_writeAll _ _)).trans
    (BufferedWriter.inner_isPrefix_writeAll _ _)

theorem Wal.inner_eq_append_drop (crc32 : Bytes → UInt32) (w : Wal)
    (r : WalRecord) :
    (w.writeFrame crc32 r).writer.inner = w.writer.inner ++
      (w.writeFrame crc32 r).writer.inner.drop w.writer.inner.length := by
  obtain ⟨t, ht⟩ := Wal.inner_writeFrame crc32 w r
  rw [← ht, List.drop_left]

theorem Wal.inner_flush {w : Wal} (hw : w.Clean) :
    w.flush.writer.inner = w.writer.inner ++ w.writer.buf := by
  rw [← BufferedWriter.contents_of_buf_nil (Wal.synced_flush hw),
    Wal.contents_flush, BufferedWriter.contents]

end Log

end Quorvec
