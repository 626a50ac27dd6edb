import Quorvec.Hnsw.Index
import Quorvec.Storage.Wal

/-!
# A durable shard

A shard is an index, the winning version of each id, and a write-ahead log.
Every accepted write is appended to the log before it is applied in memory; a
snapshot is the memory together with the log offset that it covers, and opening
a directory replays the log records beyond that offset onto the snapshot.

Writing files succeeds in this model, and a snapshot file is the value that it
decodes to.
-/

namespace Quorvec

open ByteCodec

/-- What storage takes from outside: the checksum and the float kernel. -/
structure Runtime where
  /-- `crc32fast::hash`. -/
  crc32 : Bytes → UInt32
  kernel : Kernel

/-- A runtime with a constant checksum and distance. -/
def Runtime.constant : Runtime where
  crc32 _ := 0
  kernel :=
    { distance := fun _ _ _ => 0
      partialCmp := fun a b => some (compare a b)
      infinity := 0x7F800000
      level := fun _ _ => 0 }

/-- The winning version of an id. -/
structure PointVersion where
  hlc : Hlc
  /-- The winner was a delete. -/
  tombstone : Bool
deriving DecidableEq, Repr

abbrev Versions := Std.ExtTreeMap UInt64 PointVersion

/-- The outcome of a versioned write. -/
inductive WriteOutcome
  | applied
  | stale
deriving DecidableEq, Repr

inductive ShardError
  | index (text : String)
  | dimMismatch (expected got : ℕ)
  /-- A panic of the index or of its constructor. -/
  | panic
deriving DecidableEq, Repr

/-- Errors of the index are reported by their text. -/
def ShardError.ofIndex : IndexError → ShardError
  | .panic => .panic
  | e => .index e.text

structure Snapshot where
  /-- The log offset up to which the image reflects all writes. -/
  walOffset : ℕ
  index : HnswIndex
  versions : Versions

/-- The directory of a shard. -/
structure ShardDir where
  wal : Option Bytes
  snap : Option Snapshot

/-- A directory without files. -/
def ShardDir.empty : ShardDir := { wal := none, snap := none }

structure Shard where
  /-- The snapshot file. -/
  snap : Option Snapshot
  dim : ℕ
  metric : Metric
  index : HnswIndex
  versions : Versions
  wal : Wal
  /-- Snapshot when the log has grown by this much since the last one. -/
  snapshotThresholdBytes : ℕ
  lastSnapshotOffset : ℕ

/-- The in-memory state: the index and the versions. -/
abbrev Memory := HnswIndex × Versions

/-- The framed length of a record on disk. -/
def framedLen (r : WalRecord) : ℕ :=
  4 + 4 + (1 + 8 + 8 + 4 + r.vector.length * 4 + 4 + r.payload.length)

section Apply

variable (R : Runtime)

/-- What a write does in memory, once it is accepted. -/
def applyOp (m : Memory) (r : WalRecord) : Except ShardError Memory :=
  match r.op with
  | .upsert =>
      match m.1.insert R.kernel r.id r.vector with
      | .error e => .error (.ofIndex e)
      | .ok index =>
          .ok (index, m.2.insert r.id { hlc := r.hlc, tombstone := false })
  | .delete =>
      match m.1.delete r.id with
      | .error e => .error (.ofIndex e)
      | .ok (index, _) =>
          .ok (index, m.2.insert r.id { hlc := r.hlc, tombstone := true })

/-- Apply a recovered record, unless a strictly greater version is there. -/
def applyRecord (m : Memory) (r : WalRecord) : Except ShardError Memory :=
  match m.2[r.id]? with
  | some v => if r.hlc < v.hlc then return m else applyOp R m r
  | none => applyOp R m r

/-- Replay the records whose end lies beyond the snapshot offset; `pos` is the
end of the records before. -/
def replay (snapOffset : ℕ) :
    List WalRecord → ℕ → Memory → Except ShardError Memory
  | [], _, m => return m
  | r :: records, pos, m =>
      let recEnd := pos + framedLen r
      if recEnd > snapOffset then do
        let m ← applyRecord R m r
        replay snapOffset records recEnd m
      else replay snapOffset records recEnd m

end Apply

namespace Shard

/-- `u64::saturating_mul(snapshot_wal_mb, 1024 * 1024)`. -/
def thresholdOf (snapshotWalMb : ℕ) : ℕ :=
  min (snapshotWalMb * (1024 * 1024)) (2 ^ 64 - 1)

/-- The image a directory starts from: its snapshot, or an empty index. -/
def startImage (snap : Option Snapshot) (dim : ℕ) (metric : Metric) :
    Except ShardError (Memory × ℕ) :=
  match snap with
  | some s => .ok ((s.index, s.versions), s.walOffset)
  | none =>
      match HnswIndex.new dim metric with
      | .ok index => .ok ((index, ∅), 0)
      | .error e => .error (.ofIndex e)

/-- Open or create a shard, recovering its state. -/
def «open» (R : Runtime) (dir : ShardDir) (dim : ℕ) (metric : Metric)
    (snapshotWalMb batchMs : ℕ) : Except ShardError Shard := do
  let (image, snapOffset) ← startImage dir.snap dim metric
  match Wal.recover R.crc32 dir.wal with
  | .error .panic => .error .panic
  | .ok ((records, _), walFile) => do
      let (index, versions) ← replay R snapOffset records 0 image
      return {
        snap := dir.snap
        dim, metric, index, versions
        wal := Wal.open walFile batchMs
        snapshotThresholdBytes := thresholdOf snapshotWalMb
        lastSnapshotOffset := snapOffset }

/-- The files of a directory after an open that fails: recovery may already
have cut the log. -/
def dirAfterOpen (R : Runtime) (dir : ShardDir) (dim : ℕ) (metric : Metric) :
    ShardDir :=
  match startImage dir.snap dim metric, Wal.recover R.crc32 dir.wal with
  | .ok _, .ok (_, walFile) => { dir with wal := walFile }
  | _, _ => dir

/-- The files of an open shard. -/
def dir (s : Shard) : ShardDir :=
  { wal := some s.wal.writer.inner, snap := s.snap }

/-- The files of a shard after it is dropped. -/
def close (s : Shard) : ShardDir :=
  { wal := some s.wal.close, snap := s.snap }

def mem (s : Shard) : Memory := (s.index, s.versions)

def len (s : Shard) : ℕ := s.index.len

/-- Force a snapshot. -/
def snapshotNow (s : Shard) : Shard :=
  let s := { s with wal := s.wal.flush }
  let offset := s.wal.offset
  { s with
    snap := some
      { walOffset := offset, index := s.index, versions := s.versions }
    lastSnapshotOffset := offset }

/-- Snapshot if the log has grown past the threshold. -/
def maybeSnapshot (s : Shard) : Shard :=
  if s.snapshotThresholdBytes = 0 then s
  else if s.wal.offset - s.lastSnapshotOffset ≥ s.snapshotThresholdBytes then
    s.snapshotNow
  else s

/-- Whether a write loses against the stored version. -/
def isStale (s : Shard) (id : UInt64) (hlc : Hlc) : Bool :=
  match s.versions[id]? with
  | some v => decide (hlc ≤ v.hlc)
  | none => false

/-- The stored version of an id. -/
def version (s : Shard) (id : UInt64) : Option PointVersion :=
  s.versions[id]?

/-- The stored vector of a live id. -/
def get (s : Shard) (id : UInt64) :
    Except ShardError (Option (List F32)) :=
  match s.index.getVector id with
  | .ok v => .ok v
  | .error e => .error (.ofIndex e)

/-- One record of a shard transfer. -/
structure ShardRecordRow where
  id : UInt64
  hlc : Hlc
  tombstone : Bool
  /-- Empty for a tombstone. -/
  vector : List F32
deriving DecidableEq

/-- The vector under a version: none for a tombstone. -/
def vectorOf (s : Shard) (id : UInt64) (v : PointVersion) :
    Except ShardError (List F32) :=
  if v.tombstone then return []
  else return (← s.get id).getD []

/-- Every record of the shard, live points and tombstones. -/
def records (s : Shard) : Except ShardError (List ShardRecordRow) :=
  s.versions.toList.mapM fun (id, v) => do
    let vector ← s.vectorOf id v
    return { id, hlc := v.hlc, tombstone := v.tombstone, vector }

/-- k-NN search over the live points. -/
def search (R : Runtime) (s : Shard) (query : List F32) (k efSearch : ℕ) :
    Except ShardError (List (UInt64 × F32)) :=
  match s.index.search R.kernel query k efSearch with
  | .ok hits => .ok hits
  | .error e => .error (.ofIndex e)

section Writes

variable (R : Runtime)

/-- Log a record, apply it in memory, and snapshot if it is time: the common
part of all writes.  An error of the index leaves the record in the log. -/
def logAndApply (s : Shard) (r : WalRecord) : Shard × Except ShardError Unit :=
  let s := { s with wal := (s.wal.append R.crc32 r).1 }
  match applyOp R s.mem r with
  | .error e => (s, .error e)
  | .ok (index, versions) =>
      ({ s with index, versions }.maybeSnapshot, .ok ())

/-- The write of a record that is not stale. -/
def acceptVersioned (s : Shard) (r : WalRecord) :
    Shard × Except ShardError WriteOutcome :=
  if s.isStale r.id r.hlc then (s, .ok .stale)
  else
    match s.logAndApply R r with
    | (s, .error e) => (s, .error e)
    | (s, .ok ()) => (s, .ok .applied)

/-- Upsert under last-writer-wins. -/
def upsertVersioned (s : Shard) (hlc : Hlc) (id : UInt64) (vector : List F32)
    (payload : Bytes) : Shard × Except ShardError WriteOutcome :=
  if vector.length ≠ s.dim then
    (s, .error (.dimMismatch s.dim vector.length))
  else s.acceptVersioned R (.ofUpsert hlc id vector payload)

/-- Delete under last-writer-wins. -/
def deleteVersioned (s : Shard) (hlc : Hlc) (id : UInt64) :
    Shard × Except ShardError WriteOutcome :=
  s.acceptVersioned R (.ofDelete hlc id)

end Writes

end Shard

end Quorvec
