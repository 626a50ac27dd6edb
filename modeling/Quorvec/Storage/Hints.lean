import Quorvec.Support.BufferedWriter
import Quorvec.Storage.WalRecord

/-!
# The hinted-handoff log

A hint is a write together with the replica that it was meant for.  Hints are
framed like log records and appended to one file on the node that holds them;
every append is flushed.
-/

namespace Quorvec

open ByteCodec Framing

/-- One buffered write. -/
structure Hint where
  /-- The replica that the write was meant for. -/
  targetNode : UInt64
  collection : String
  shardIdx : UInt32
  op : WalOp
  hlc : Hlc
  id : UInt64
  vector : List F32
  payload : Bytes
deriving DecidableEq

namespace Hint

def encodeHint (h : Hint) : Bytes :=
  toLeBytes 8 h.targetNode.toNat ++
    (toLeBytes 4 (UInt32.ofNat (utf8 h.collection).length).toNat ++
      (utf8 h.collection ++
        (toLeBytes 4 h.shardIdx.toNat ++
          ([h.op.toU8] ++
            (toLeBytes 8 h.hlc.pack.toNat ++
              (toLeBytes 8 h.id.toNat ++
                (toLeBytes 4 (UInt32.ofNat h.vector.length).toNat ++
                  (encodeU32s h.vector ++
                    (toLeBytes 4 (UInt32.ofNat h.payload.length).toNat ++
                      h.payload)))))))))

theorem length_encodeHint (h : Hint) :
    h.encodeHint.length = 41 + (utf8 h.collection).length +
      4 * h.vector.length + h.payload.length := by
  simp [encodeHint]
  omega

/-- The length field of the hint's frame does not overflow. -/
def FitsFrame (h : Hint) : Prop :=
  4 + h.encodeHint.length < 2 ^ 32

instance : DecidablePred FitsFrame := fun h =>
  inferInstanceAs (Decidable (4 + h.encodeHint.length < 2 ^ 32))

/-- The three counts fit their fields. -/
def Encodable (h : Hint) : Prop :=
  (utf8 h.collection).length < 2 ^ 32 ∧ h.vector.length < 2 ^ 32 ∧
    h.payload.length < 2 ^ 32

theorem fits_iff (h : Hint) :
    Fits encodeHint Encodable h ↔ h.FitsFrame := by
  have hlen := length_encodeHint h
  unfold Fits Encodable FitsFrame
  omega

/-- The field readers of `decode_hint`, in order. -/
def readHint : Reader Hint := do
  let targetNode ← Reader.u64
  let clen ← Reader.uint 4
  let collection ← Reader.string clen
  let shardIdx ← Reader.u32
  let op ← WalOp.read
  let hlc ← WalRecord.readHlc
  let id ← Reader.u64
  let dim ← Reader.uint 4
  let vector ← Reader.u32s dim
  let plen ← Reader.uint 4
  let payload ← Reader.bytes plen
  return { targetNode, collection, shardIdx, op, hlc, id, vector, payload }

def decodeHint (body : Bytes) : Except OutOfRange (Option Hint) :=
  readHint.whole body

/-- The fields of a hint, as one tuple. -/
abbrev Fields :=
  UInt64 × String × UInt32 × WalOp × Hlc × UInt64 × List F32 × Bytes

def readFields : Reader Fields :=
  Reader.u64.pair ((Reader.counted Reader.string).pair (Reader.u32.pair
    (WalOp.read.pair (WalRecord.readHlc.pair (Reader.u64.pair
      ((Reader.counted Reader.u32s).pair (Reader.counted Reader.bytes)))))))

def ofFields : Fields → Hint
  | (targetNode, collection, shardIdx, op, hlc, id, vector, payload) =>
      { targetNode, collection, shardIdx, op, hlc, id, vector, payload }

def fields (h : Hint) : Fields :=
  (h.targetNode, h.collection, h.shardIdx, h.op, h.hlc, h.id, h.vector,
    h.payload)

theorem readHint_eq : readHint = (do return ofFields (← readFields)) := by
  simp only [readHint, readFields, Reader.pair, Reader.counted, bind_assoc,
    pure_bind, ofFields]

theorem readHint_inverts : Inverts readHint encodeHint Encodable := by
  have hfields := Inverts.u64.pair ((Inverts.counted Inverts.string).pair
    (Inverts.u32.pair (WalOp.read_inverts.pair
      (WalRecord.readHlc_inverts.pair (Inverts.u64.pair
        ((Inverts.counted Inverts.u32s).pair
          (Inverts.counted Inverts.bytes)))))))
  have hhint : Inverts (do return ofFields (← readFields)) _ Encodable :=
    hfields.map ofFields fields
      (fun f hf => ⟨⟨hf.2.1, hf.2.2.2.2.2.2⟩, rfl⟩)
      (fun h hh => ⟨⟨trivial, hh.1, trivial, trivial, trivial, trivial,
        hh.2⟩, rfl⟩)
  rw [readHint_eq]
  refine hhint.congr (fun _ => Iff.rfl) (fun h _ => ?_)
  simp only [fields, encodeHint, List.append_assoc]
  rfl

theorem bodyCodec : BodyCodec decodeHint encodeHint Encodable where
  total b := readHint_inverts.whole_total b
  accepts b h := readHint_inverts.whole_eq_some_iff b h

end Hint

/-! ## The log -/

structure HintLog where
  writer : BufferedWriter
  dirty : Bool

namespace HintLog

/-- Open the file for appending, creating it if needed. -/
def «open» (file : Option Bytes) : HintLog :=
  { writer := .new (file.getD []), dirty := false }

def flush (log : HintLog) : HintLog :=
  if log.dirty then { writer := log.writer.flush, dirty := false } else log

/-- Append a hint and flush it. -/
def append (crc32 : Bytes → UInt32) (log : HintLog) (h : Hint) : HintLog :=
  let body := h.encodeHint
  let frameLen := UInt32.ofNat (4 + body.length)
  let writer := log.writer.writeAll (toLeBytes 4 frameLen.toNat)
  let writer := writer.writeAll (toLeBytes 4 (crc32 body).toNat)
  let writer := writer.writeAll body
  flush { writer, dirty := true }

/-- The file after the log is dropped. -/
def close (log : HintLog) : Option Bytes := some log.writer.flush.inner

/-- Every intact hint of the file. -/
def readAll (crc32 : Bytes → UInt32) (file : Option Bytes) :
    Except OutOfRange (List Hint) :=
  match file with
  | none => return []
  | some buf => return (← scan crc32 Hint.decodeHint buf 0).1

/-- Remove the file. -/
def clear : Option Bytes := none

variable {crc32 : Bytes → UInt32}

@[simp] theorem contents_open (file : Option Bytes) :
    («open» file).writer.contents = file.getD [] :=
  BufferedWriter.contents_new _

@[simp] theorem contents_append (log : HintLog) (h : Hint) :
    (log.append crc32 h).writer.contents =
      log.writer.contents ++ frame crc32 h.encodeHint := by
  simp [append, flush, frame]

theorem close_eq (log : HintLog) : log.close = some log.writer.contents :=
  rfl

/-- The bytes of a log. -/
def logBytes (crc32 : Bytes → UInt32) (hints : List Hint) : Bytes :=
  frames crc32 Hint.encodeHint hints

theorem logBytes_append (hints hints' : List Hint) :
    logBytes crc32 (hints ++ hints') =
      logBytes crc32 hints ++ logBytes crc32 hints' :=
  frames_append hints hints'

theorem contents_foldl_append (log : HintLog) (hints : List Hint) :
    (hints.foldl (append crc32) log).writer.contents =
      log.writer.contents ++ logBytes crc32 hints := by
  induction hints generalizing log with
  | nil => simp [logBytes]
  | cons h hints ih =>
      rw [List.foldl_cons, ih, contents_append, logBytes, logBytes,
        frames_cons, List.append_assoc]

/-- A file reads as the hints whose frames it starts with, if no frame follows
them. -/
theorem readAll_of_frames {file : Option Bytes} {hints : List Hint}
    {t : Bytes} (hfile : file.getD [] = logBytes crc32 hints ++ t)
    (hfits : ∀ h ∈ hints, h.FitsFrame)
    (ht : NoFrame crc32 Hint.encodeHint Hint.Encodable t) :
    readAll crc32 file = .ok hints := by
  have hscan : scan crc32 Hint.decodeHint (logBytes crc32 hints ++ t) 0 =
      .ok (hints, (logBytes crc32 hints).length) :=
    scan_frames_append Hint.bodyCodec
      (fun h hh => (Hint.fits_iff h).mpr (hfits h hh)) ht
  rw [← hfile] at hscan
  rcases file with _ | buf
  · have hnil : scan crc32 Hint.decodeHint [] 0 = .ok ([], 0) := by
      rw [scan, dif_neg (by simp), pure_eq_ok]
    have hpair := hnil.symm.trans hscan
    rw [Except.ok.injEq, Prod.mk.injEq] at hpair
    rw [← hpair.1]
    rfl
  · rw [Option.getD_some] at hscan
    rw [readAll, hscan]
    rfl

/-- A file that holds the frames of `hints`; a missing file holds none. -/
def Holds (crc32 : Bytes → UInt32) (file : Option Bytes)
    (hints : List Hint) : Prop :=
  file.getD [] = logBytes crc32 hints ∧ ∀ h ∈ hints, h.FitsFrame

theorem holds_none : Holds crc32 none [] := by
  simp [Holds, logBytes]

theorem Holds.readAll {file : Option Bytes} {hints : List Hint}
    (h : Holds crc32 file hints) : readAll crc32 file = .ok hints :=
  readAll_of_frames (by rw [h.1, List.append_nil]) h.2 noFrame_nil

theorem Holds.append {file : Option Bytes} {hints : List Hint}
    (h : Holds crc32 file hints) {new : Hint} (hnew : new.FitsFrame) :
    Holds crc32 ((«open» file).append crc32 new).close (hints ++ [new]) := by
  refine ⟨?_, fun x hx => ?_⟩
  · rw [close_eq, Option.getD_some, contents_append, contents_open, h.1,
      logBytes, logBytes, frames_append, frames_cons, frames_nil,
      List.append_nil]
  · rcases List.mem_append.mp hx with hx | hx
    · exact h.2 x hx
    · rwa [List.mem_singleton.mp hx]

end HintLog

end Quorvec
