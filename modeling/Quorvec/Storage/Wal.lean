import Quorvec.Support.BufferedWriter
import Quorvec.Storage.WalRecord

/-!
# The write-ahead log of a shard

A log file is a sequence of frames, one for each accepted write.  `append`
frames a record and hands it to a buffered writer; `recover` reads the longest
intact sequence of frames back and cuts the file behind it.

The checksum is a parameter: nothing in recovery depends on which function of
the body it is.
-/

namespace Quorvec

open ByteCodec Framing

/-- `inner` of the writer is the file as the operating system has it. -/
structure Wal where
  writer : BufferedWriter
  /-- The logical end offset. -/
  len : ℕ
  /-- Zero: flush and sync each record. -/
  batchMs : ℕ
  dirty : Bool
deriving DecidableEq

namespace Wal

/-- Open the file for appending, creating it if needed. -/
def «open» (file : Option Bytes) (batchMs : ℕ) : Wal :=
  let content := file.getD []
  { writer := .new content, len := content.length, batchMs, dirty := false }

/-- The current logical end offset. -/
def offset (w : Wal) : ℕ := w.len

def flush (w : Wal) : Wal :=
  if w.dirty then { w with writer := w.writer.flush, dirty := false } else w

/-- Hand the three parts of a record's frame to the writer. -/
def writeFrame (crc32 : Bytes → UInt32) (w : Wal) (r : WalRecord) : Wal :=
  let body := r.encodeBody
  let frameLen := UInt32.ofNat (4 + body.length)
  let writer := w.writer.writeAll (toLeBytes 4 frameLen.toNat)
  let writer := writer.writeAll (toLeBytes 4 (crc32 body).toNat)
  let writer := writer.writeAll body
  { w with writer, len := w.len + (4 + frameLen.toNat), dirty := true }

/-- Append one record; returns the new end offset. -/
def append (crc32 : Bytes → UInt32) (w : Wal) (r : WalRecord) : Wal × ℕ :=
  let w := w.writeFrame crc32 r
  let w := if w.batchMs = 0 then w.flush else w
  (w, w.len)

/-- Append one record after the other. -/
def appendAll (crc32 : Bytes → UInt32) (w : Wal) (rs : List WalRecord) :
    Wal :=
  rs.foldl (fun w r => (w.append crc32 r).1) w

/-- The file after the log is closed: dropping it flushes it. -/
def close (w : Wal) : Bytes := w.flush.writer.inner

/-- Replay every intact record of a file.  Returns the records, the end offset
of the last one, and the file, cut at that offset. -/
def recover (crc32 : Bytes → UInt32) (file : Option Bytes) :
    Except OutOfRange ((List WalRecord × ℕ) × Option Bytes) :=
  match file with
  | none => return (([], 0), none)
  | some buf => do
      let (records, goodEnd) ← scan crc32 WalRecord.decodeBody buf 0
      let file := if goodEnd < buf.length then buf.take goodEnd else buf
      return ((records, goodEnd), some file)

/-! ## Appending -/

section Append

variable {crc32 : Bytes → UInt32}

/-- Nothing is kept back by a log that is not dirty. -/
def Clean (w : Wal) : Prop := w.dirty = false → w.writer.buf = []

/-- Everything appended so far is in the file. -/
def Synced (w : Wal) : Prop := w.writer.buf = []

theorem clean_open (file : Option Bytes) (batchMs : ℕ) :
    («open» file batchMs).Clean := fun _ => rfl

theorem synced_open (file : Option Bytes) (batchMs : ℕ) :
    («open» file batchMs).Synced := rfl

@[simp] theorem inner_open (file : Option Bytes) (batchMs : ℕ) :
    («open» file batchMs).writer.inner = file.getD [] := rfl

@[simp] theorem contents_open (file : Option Bytes) (batchMs : ℕ) :
    («open» file batchMs).writer.contents = file.getD [] :=
  BufferedWriter.contents_new _

@[simp] theorem contents_flush (w : Wal) :
    w.flush.writer.contents = w.writer.contents := by
  unfold flush
  split_ifs
  · exact BufferedWriter.contents_flush w.writer
  · rfl

@[simp] theorem batchMs_flush (w : Wal) : w.flush.batchMs = w.batchMs := by
  unfold flush
  split_ifs <;> rfl

@[simp] theorem len_flush (w : Wal) : w.flush.len = w.len := by
  unfold flush
  split_ifs <;> rfl

theorem synced_flush {w : Wal} (hw : w.Clean) : w.flush.Synced := by
  unfold flush
  split_ifs with hdirty
  · exact BufferedWriter.buf_flush w.writer
  · exact hw (Bool.eq_false_iff.mpr hdirty)

theorem clean_of_synced {w : Wal} (hw : w.Synced) : w.Clean := fun _ => hw

@[simp] theorem contents_writeFrame (w : Wal) (r : WalRecord) :
    (w.writeFrame crc32 r).writer.contents =
      w.writer.contents ++ frame crc32 r.encodeBody := by
  simp [writeFrame, frame]

theorem clean_writeFrame (w : Wal) (r : WalRecord) :
    (w.writeFrame crc32 r).Clean := by
  intro hdirty
  simp [writeFrame] at hdirty

theorem append_cases (crc32 : Bytes → UInt32) (w : Wal) (r : WalRecord) :
    w.batchMs = 0 ∧ (w.append crc32 r).1 = (w.writeFrame crc32 r).flush ∨
      w.batchMs ≠ 0 ∧ (w.append crc32 r).1 = w.writeFrame crc32 r := by
  by_cases hbatch : w.batchMs = 0
  · exact .inl ⟨hbatch, if_pos hbatch⟩
  · exact .inr ⟨hbatch, if_neg hbatch⟩

@[simp] theorem contents_append (w : Wal) (r : WalRecord) :
    (w.append crc32 r).1.writer.contents =
      w.writer.contents ++ frame crc32 r.encodeBody := by
  rcases append_cases crc32 w r with ⟨-, h⟩ | ⟨-, h⟩
  · rw [h, contents_flush, contents_writeFrame]
  · rw [h, contents_writeFrame]

@[simp] theorem batchMs_append (w : Wal) (r : WalRecord) :
    (w.append crc32 r).1.batchMs = w.batchMs := by
  rcases append_cases crc32 w r with ⟨-, h⟩ | ⟨-, h⟩
  · rw [h, batchMs_flush, writeFrame]
  · rw [h, writeFrame]

theorem len_append (w : Wal) (r : WalRecord) :
    (w.append crc32 r).1.len =
      w.len + (4 + (UInt32.ofNat (4 + r.encodeBody.length)).toNat) := by
  rcases append_cases crc32 w r with ⟨-, h⟩ | ⟨-, h⟩
  · rw [h, len_flush, writeFrame]
  · rw [h, writeFrame]

theorem synced_append (crc32 : Bytes → UInt32) {w : Wal}
    (hw : w.batchMs = 0) (r : WalRecord) :
    (w.append crc32 r).1.Synced := by
  rcases append_cases crc32 w r with ⟨-, h⟩ | ⟨hbatch, -⟩
  · rw [h]
    exact synced_flush (clean_writeFrame w r)
  · exact absurd hw hbatch

theorem clean_append (w : Wal) (r : WalRecord) :
    (w.append crc32 r).1.Clean := by
  rcases append_cases crc32 w r with ⟨-, h⟩ | ⟨-, h⟩
  · rw [h]
    exact clean_of_synced (synced_flush (clean_writeFrame w r))
  · rw [h]
    exact clean_writeFrame w r

theorem contents_appendAll (w : Wal) (rs : List WalRecord) :
    (w.appendAll crc32 rs).writer.contents =
      w.writer.contents ++ frames crc32 WalRecord.encodeBody rs := by
  induction rs generalizing w with
  | nil => simp [appendAll]
  | cons r rs ih =>
      have hstep := ih (w.append crc32 r).1
      rw [contents_append, List.append_assoc] at hstep
      exact hstep

theorem clean_appendAll {w : Wal} (hw : w.Clean) (rs : List WalRecord) :
    (w.appendAll crc32 rs).Clean := by
  induction rs generalizing w with
  | nil => exact hw
  | cons r rs ih => exact ih (clean_append w r)

theorem close_appendAll {w : Wal} (hw : w.Clean) (rs : List WalRecord) :
    (w.appendAll crc32 rs).close =
      w.writer.contents ++ frames crc32 WalRecord.encodeBody rs := by
  have hsynced : (w.appendAll crc32 rs).flush.Synced :=
    synced_flush (clean_appendAll hw rs)
  rw [close, ← BufferedWriter.contents_of_buf_nil hsynced, contents_flush,
    contents_appendAll]

end Append

/-! ## Recovery -/

section Recovery

variable {crc32 : Bytes → UInt32}

/-- The file written by appending the records to an empty log. -/
def logBytes (crc32 : Bytes → UInt32) (rs : List WalRecord) : Bytes :=
  ((«open» none 0).appendAll crc32 rs).close

theorem logBytes_eq (rs : List WalRecord) :
    logBytes crc32 rs = frames crc32 WalRecord.encodeBody rs := by
  rw [logBytes, close_appendAll (clean_open _ _), contents_open]
  rfl

/-- Recovery of a log followed by bytes that start with no frame. -/
theorem recover_logBytes_append {rs : List WalRecord}
    (hrs : ∀ r ∈ rs, r.FitsFrame) {t : Bytes}
    (ht : NoFrame crc32 WalRecord.encodeBody WalRecord.Encodable t) :
    recover crc32 (some (logBytes crc32 rs ++ t)) =
      .ok ((rs, (logBytes crc32 rs).length), some (logBytes crc32 rs)) := by
  have hscan := scan_frames_append WalRecord.bodyCodec
    (fun r hr => (WalRecord.fits_iff r).mpr (hrs r hr)) ht
  rw [← logBytes_eq] at hscan
  have hcut : (if (logBytes crc32 rs).length < (logBytes crc32 rs ++ t).length
      then (logBytes crc32 rs ++ t).take (logBytes crc32 rs).length
      else logBytes crc32 rs ++ t) = logBytes crc32 rs := by
    split_ifs with hlonger
    · exact List.take_left
    · have ht : t = [] := by
        apply List.eq_nil_of_length_eq_zero
        rw [List.length_append] at hlonger
        omega
      rw [ht, List.append_nil]
  simp only [recover, hscan, ok_bind, pure_eq_ok, hcut]

theorem recover_logBytes {rs : List WalRecord}
    (hrs : ∀ r ∈ rs, r.FitsFrame) :
    recover crc32 (some (logBytes crc32 rs)) =
      .ok ((rs, (logBytes crc32 rs).length), some (logBytes crc32 rs)) := by
  simpa using recover_logBytes_append hrs noFrame_nil

@[simp] theorem logBytes_append (rs rs' : List WalRecord) :
    logBytes crc32 (rs ++ rs') = logBytes crc32 rs ++ logBytes crc32 rs' := by
  simp [logBytes_eq]

theorem exists_logBytes_append (crc32 : Bytes → UInt32) (content : Bytes) :
    ∃ rs t, content = logBytes crc32 rs ++ t ∧
      (∀ r ∈ rs, WalRecord.FitsFrame r) ∧
      NoFrame crc32 WalRecord.encodeBody WalRecord.Encodable t := by
  obtain ⟨rs, t, hcontent, hrs, ht⟩ := exists_frames_append crc32
    WalRecord.encodeBody WalRecord.Encodable content
  refine ⟨rs, t, ?_, fun r hr => (WalRecord.fits_iff r).mp (hrs r hr), ht⟩
  rw [logBytes_eq, hcontent]

theorem close_appendAll_open (rs news : List WalRecord) (batchMs : ℕ) :
    ((«open» (some (logBytes crc32 rs)) batchMs).appendAll crc32 news).close =
      logBytes crc32 (rs ++ news) := by
  rw [close_appendAll (clean_open _ _), contents_open, Option.getD_some,
    logBytes_append, logBytes_eq news]

/-- A cut log starts with the frames that lie wholly before the cut. -/
theorem exists_take_logBytes {rs : List WalRecord}
    (hrs : ∀ r ∈ rs, r.FitsFrame) {k : ℕ}
    (hk : k ≤ (logBytes crc32 rs).length) :
    ∃ i ≤ rs.length, ∃ t,
      (logBytes crc32 rs).take k = logBytes crc32 (rs.take i) ++ t ∧
      NoFrame crc32 WalRecord.encodeBody WalRecord.Encodable t ∧
      (logBytes crc32 (rs.take i)).length ≤ k ∧
      (i < rs.length → k < (logBytes crc32 (rs.take (i + 1))).length) := by
  simp only [logBytes_eq] at hk ⊢
  exact exists_take_frames
    (fun r hr => (WalRecord.fits_iff r).mpr (hrs r hr)) hk

/-- Recovery parses the longest prefix of the file that is a log, keeps
exactly that prefix, and is stable; a log cut anywhere recovers to the records
whose frames lie wholly before the cut; and a recovered log can be appended
to. -/
theorem recover_exact (crc32 : Bytes → UInt32) :
    (∀ content : Bytes, ∃ rs e,
      recover crc32 (some content) = .ok ((rs, e), some (content.take e)) ∧
      e ≤ content.length ∧
      logBytes crc32 rs = content.take e ∧
      (∀ rs' : List WalRecord, (∀ r ∈ rs', r.FitsFrame) →
        logBytes crc32 rs' <+: content → rs' <+: rs) ∧
      recover crc32 (some (content.take e)) =
        .ok ((rs, e), some (content.take e)) ∧
      (∀ (news : List WalRecord) (batchMs : ℕ), (∀ r ∈ news, r.FitsFrame) →
        recover crc32 (some
          ((«open» (some (content.take e)) batchMs).appendAll crc32
            news).close) =
          .ok ((rs ++ news, (logBytes crc32 (rs ++ news)).length),
            some (logBytes crc32 (rs ++ news))))) ∧
    (∀ rs : List WalRecord, (∀ r ∈ rs, r.FitsFrame) →
      ∀ k ≤ (logBytes crc32 rs).length, ∃ i ≤ rs.length,
        recover crc32 (some ((logBytes crc32 rs).take k)) =
          .ok ((rs.take i, (logBytes crc32 (rs.take i)).length),
            some (logBytes crc32 (rs.take i))) ∧
        (logBytes crc32 (rs.take i)).length ≤ k ∧
        (i < rs.length → k < (logBytes crc32 (rs.take (i + 1))).length)) := by
  constructor
  · intro content
    obtain ⟨rs, t, rfl, hrs, ht⟩ := exists_logBytes_append crc32 content
    refine ⟨rs, (logBytes crc32 rs).length, ?_⟩
    rw [List.take_left]
    refine ⟨recover_logBytes_append hrs ht, by simp, rfl, ?_,
      recover_logBytes hrs, ?_⟩
    · intro rs' hrs' hpre
      rw [logBytes_eq, logBytes_eq] at hpre
      exact isPrefix_of_frames_isPrefix WalRecord.bodyCodec
        (fun r hr => (WalRecord.fits_iff r).mpr (hrs r hr))
        (fun r hr => (WalRecord.fits_iff r).mpr (hrs' r hr)) ht hpre
    · intro news batchMs hnews
      rw [close_appendAll_open]
      apply recover_logBytes
      intro r hr
      rcases List.mem_append.mp hr with hr | hr
      · exact hrs r hr
      · exact hnews r hr
  · intro rs hrs k hk
    obtain ⟨i, hi, t, htake, ht, hle, hlt⟩ := exists_take_logBytes hrs hk
    refine ⟨i, hi, ?_, hle, hlt⟩
    rw [htake]
    exact recover_logBytes_append
      (fun r hr => hrs r (List.mem_of_mem_take hr)) ht

/-- A log of one delete, cut inside its only frame, recovers to no record. -/
theorem recover_exact_cut_second :
    recover (fun _ => 0) (some ((logBytes (fun _ => 0)
        [.ofUpsert (Hlc.new 1 0) 8 [0] [3], .ofDelete Hlc.zero 7]).take 60)) =
      .ok (([.ofUpsert (Hlc.new 1 0) 8 [0] [3]],
        (logBytes (fun _ => 0) [.ofUpsert (Hlc.new 1 0) 8 [0] [3]]).length),
        some (logBytes (fun _ => 0) [.ofUpsert (Hlc.new 1 0) 8 [0] [3]])) := by
  have hfits : ∀ r ∈ [WalRecord.ofUpsert (Hlc.new 1 0) 8 [0] [3],
      .ofDelete Hlc.zero 7], r.FitsFrame := by
    decide
  obtain ⟨i, -, hrecover, hle, hlt⟩ :=
    (recover_exact (fun _ => 0)).2 _ hfits 60 (by decide)
  match i with
  | 0 => exact absurd (hlt (by decide)) (by decide)
  | 1 => exact hrecover
  | n + 2 =>
      rw [List.take_of_length_le (by simp)] at hle
      exact absurd hle (by decide)

end Recovery

end Wal

end Quorvec
