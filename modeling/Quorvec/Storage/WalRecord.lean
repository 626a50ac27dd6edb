import Quorvec.Hnsw.Distance
import Quorvec.Storage.Hlc
import Quorvec.Support.Framing

/-!
# Write-ahead log records and their bodies

The body of a record is what the checksum of its frame covers.  It has two
counted fields, the vector and the payload, each with a `u32` count in front.
The decoder is the exact inverse of the encoder on the records whose counts
fit.
-/

namespace Quorvec

open ByteCodec Framing

inductive WalOp
  | upsert
  | delete
deriving DecidableEq, Repr

namespace WalOp

def toU8 : WalOp → UInt8
  | upsert => 0
  | delete => 1

def fromU8 (b : UInt8) : Option WalOp :=
  if b = 0 then some upsert
  else if b = 1 then some delete
  else none

theorem fromU8_eq_some_iff {b : UInt8} {op : WalOp} :
    fromU8 b = some op ↔ op.toU8 = b := by
  unfold fromU8
  cases op <;> split_ifs <;> simp_all [toU8, eq_comm]

/-- One byte that is a known operation. -/
def read : Reader WalOp := do
  match fromU8 (UInt8.ofNat (← Reader.uint 1)) with
  | some op => return op
  | none => Reader.reject

theorem read_inverts :
    Inverts read (fun op => [op.toU8]) (fun _ => True) := by
  have hop : ∀ x, x < 256 ^ 1 → ∀ op,
      fromU8 (UInt8.ofNat x) = some op ↔ True ∧ op.toU8.toNat = x := by
    intro x hx op
    rw [fromU8_eq_some_iff, ← UInt8.toNat_inj, UInt8.toNat_ofNat_of_lt' hx,
      true_and]
  have hread : read =
      (Reader.uint 1).convert (fun x => fromU8 (UInt8.ofNat x)) := by
    refine bind_congr fun x => ?_
    dsimp only
    cases fromU8 (UInt8.ofNat x) <;> rfl
  rw [hread]
  refine ((Inverts.uint 1).convert _ (fun op : WalOp => op.toU8.toNat) hop
    (fun op _ => op.toU8.toNat_lt)).congr (fun _ => Iff.rfl) (fun op _ => ?_)
  cases op <;> rfl

end WalOp

/-- One accepted write. -/
structure WalRecord where
  op : WalOp
  hlc : Hlc
  id : UInt64
  /-- Empty for a delete. -/
  vector : List F32
  /-- Empty if there is none. -/
  payload : Bytes
deriving DecidableEq

namespace WalRecord

def ofUpsert (hlc : Hlc) (id : UInt64) (vector : List F32)
    (payload : Bytes) : WalRecord :=
  { op := .upsert, hlc, id, vector, payload }

def ofDelete (hlc : Hlc) (id : UInt64) : WalRecord :=
  { op := .delete, hlc, id, vector := [], payload := [] }

/-- The logical body: everything the checksum covers. -/
def encodeBody (r : WalRecord) : Bytes :=
  [r.op.toU8] ++
    (toLeBytes 8 r.hlc.pack.toNat ++
      (toLeBytes 8 r.id.toNat ++
        (toLeBytes 4 (UInt32.ofNat r.vector.length).toNat ++
          (encodeU32s r.vector ++
            (toLeBytes 4 (UInt32.ofNat r.payload.length).toNat ++
              r.payload)))))

theorem length_encodeBody (r : WalRecord) :
    r.encodeBody.length = 25 + 4 * r.vector.length + r.payload.length := by
  simp [encodeBody]
  omega

/-- The length field of the record's frame does not overflow. -/
def FitsFrame (r : WalRecord) : Prop :=
  4 + r.encodeBody.length < 2 ^ 32

instance : DecidablePred FitsFrame := fun r =>
  inferInstanceAs (Decidable (4 + r.encodeBody.length < 2 ^ 32))

/-- Both counts of the body fit their fields. -/
def Encodable (r : WalRecord) : Prop :=
  r.vector.length < 2 ^ 32 ∧ r.payload.length < 2 ^ 32

theorem fits_iff (r : WalRecord) :
    Fits encodeBody Encodable r ↔ r.FitsFrame := by
  have hlen := length_encodeBody r
  unfold Fits Encodable FitsFrame
  omega

/-- `Hlc::unpack` of the next `u64`. -/
def readHlc : Reader Hlc := do
  return Hlc.unpack (← Reader.u64)

theorem readHlc_inverts :
    Inverts readHlc (fun h => toLeBytes 8 h.pack.toNat) (fun _ => True) :=
  Inverts.u64.map Hlc.unpack Hlc.pack
    (fun v _ => ⟨trivial, Hlc.pack_unpack v⟩)
    (fun h _ => ⟨trivial, Hlc.unpack_pack h⟩)

/-- The field readers of `decode_body`, in order. -/
def readBody : Reader WalRecord := do
  let op ← WalOp.read
  let hlc ← readHlc
  let id ← Reader.u64
  let dim ← Reader.uint 4
  let vector ← Reader.u32s dim
  let plen ← Reader.uint 4
  let payload ← Reader.bytes plen
  return { op, hlc, id, vector, payload }

/-- A valid body is read to its last byte. -/
def decodeBody (body : Bytes) : Except OutOfRange (Option WalRecord) :=
  readBody.whole body

/-- The fields of the body, as one tuple. -/
def readFields :
    Reader (WalOp × Hlc × UInt64 × List F32 × Bytes) :=
  WalOp.read.pair (readHlc.pair (Reader.u64.pair
    ((Reader.counted Reader.u32s).pair (Reader.counted Reader.bytes))))

def ofFields (f : WalOp × Hlc × UInt64 × List F32 × Bytes) : WalRecord :=
  ⟨f.1, f.2.1, f.2.2.1, f.2.2.2.1, f.2.2.2.2⟩

def fields (r : WalRecord) : WalOp × Hlc × UInt64 × List F32 × Bytes :=
  (r.op, r.hlc, r.id, r.vector, r.payload)

theorem readBody_eq : readBody = (do return ofFields (← readFields)) := by
  simp only [readBody, readFields, Reader.pair, Reader.counted, bind_assoc,
    pure_bind, ofFields]

theorem readBody_inverts : Inverts readBody encodeBody Encodable := by
  have hfields := WalOp.read_inverts.pair (readHlc_inverts.pair
    (Inverts.u64.pair ((Inverts.counted Inverts.u32s).pair
      (Inverts.counted Inverts.bytes))))
  have hrecord : Inverts (do return ofFields (← readFields)) _ Encodable :=
    hfields.map ofFields fields (fun f hf => ⟨hf.2.2.2, rfl⟩)
      (fun r hr => ⟨⟨trivial, trivial, trivial, hr⟩, rfl⟩)
  rw [readBody_eq]
  refine hrecord.congr (fun _ => Iff.rfl) (fun r _ => ?_)
  simp only [fields, encodeBody, List.append_assoc]
  rfl

theorem bodyCodec : BodyCodec decodeBody encodeBody Encodable where
  total b := readBody_inverts.whole_total b
  accepts b r := readBody_inverts.whole_eq_some_iff b r

end WalRecord

end Quorvec
