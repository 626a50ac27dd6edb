import Quorvec.Storage.TruncatedLog
import Quorvec.Support.FaultyWriter

/-!
# The byte accounting of replay

Opening a shard recomputes where each recovered record ends in the log, and
replays those that end behind the offset of the snapshot.  The sums are the ends
of the frames in any file.  They are the offsets that the appends returned, and
replay is of the records appended after the snapshot, in every run whose records
fit their frames.
-/

namespace Quorvec

open ByteCodec Framing

/-- The running sum of the framed lengths. -/
def runningEnd (rs : List WalRecord) : ℕ := (rs.map framedLen).sum

/-- The records that the replay loop applies. -/
def replayed (snapOffset : ℕ) : List WalRecord → ℕ → List WalRecord
  | [], _ => []
  | r :: records, pos =>
      let recEnd := pos + framedLen r
      if recEnd > snapOffset then r :: replayed snapOffset records recEnd
      else replayed snapOffset records recEnd

theorem replay_eq_replayed (R : Runtime) (snapOffset : ℕ)
    (rs : List WalRecord) (pos : ℕ) (m : Memory) :
    replay R snapOffset rs pos m =
      (replayed snapOffset rs pos).foldlM (applyRecord R) m := by
  induction rs generalizing pos m with
  | nil => rfl
  | cons r rs ih =>
      rw [replay, replayed]
      split_ifs
      · rw [List.foldlM_cons]
        congr 1
        funext m'
        exact ih _ m'
      · exact ih _ m

theorem runningEnd_append (rs rs' : List WalRecord) :
    runningEnd (rs ++ rs') = runningEnd rs + runningEnd rs' := by
  rw [runningEnd, List.map_append, List.sum_append, runningEnd, runningEnd]

theorem runningEnd_eq (crc32 : Bytes → UInt32) (rs : List WalRecord) :
    runningEnd rs = (Wal.logBytes crc32 rs).length := by
  induction rs with
  | nil => rfl
  | cons r rs ih =>
      rw [length_logBytes_cons, ← ih, runningEnd, List.map_cons, List.sum_cons,
        runningEnd]

theorem replayed_of_le {snapOffset pos : ℕ} (h : snapOffset ≤ pos)
    (rs : List WalRecord) : replayed snapOffset rs pos = rs := by
  induction rs generalizing pos with
  | nil => rfl
  | cons r rs ih =>
      have hpos := framedLen_pos r
      rw [replayed, if_pos (by omega), ih (by omega)]

theorem replayed_append (covered rest : List WalRecord) (pos : ℕ) :
    replayed (pos + runningEnd covered) (covered ++ rest) pos = rest := by
  induction covered generalizing pos with
  | nil => exact replayed_of_le le_rfl rest
  | cons r covered ih =>
      have hcons : runningEnd (r :: covered) =
          framedLen r + runningEnd covered := by
        rw [runningEnd, List.map_cons, List.sum_cons, runningEnd]
      rw [List.cons_append, replayed, hcons, if_neg (by omega),
        ← Nat.add_assoc]
      exact ih _

/-! ## Any file -/

/-- In any file the sums are the ends of the frames of what is recovered. -/
theorem runningEnd_of_recover {crc32 : Bytes → UInt32} {content : Bytes}
    {rs : List WalRecord} {e : ℕ} {cut : Option Bytes}
    (h : Wal.recover crc32 (some content) = .ok ((rs, e), cut)) :
    runningEnd rs = e ∧ ∀ pre r post, rs = pre ++ r :: post →
      content.take (runningEnd pre) = Wal.logBytes crc32 pre ∧
      frame crc32 r.encodeBody <+: content.drop (runningEnd pre) ∧
      runningEnd (pre ++ [r]) =
        runningEnd pre + (frame crc32 r.encodeBody).length := by
  obtain ⟨rs', t, rfl, hfits, ht⟩ :=
    Wal.exists_logBytes_append crc32 content
  rw [Wal.recover_logBytes_append hfits ht, Except.ok.injEq, Prod.mk.injEq,
    Prod.mk.injEq] at h
  obtain ⟨⟨rfl, rfl⟩, -⟩ := h
  refine ⟨runningEnd_eq crc32 rs', ?_⟩
  rintro pre r post rfl
  have hsplit : Wal.logBytes crc32 (pre ++ r :: post) ++ t =
      Wal.logBytes crc32 pre ++ (frame crc32 r.encodeBody ++
        (Wal.logBytes crc32 post ++ t)) := by
    rw [Wal.logBytes_append, Wal.logBytes_eq (r :: post), frames_cons,
      Wal.logBytes_eq post, List.append_assoc, List.append_assoc]
  rw [hsplit, runningEnd_eq crc32 pre]
  refine ⟨List.take_left, ?_, ?_⟩
  · rw [List.drop_left]
    exact List.prefix_append _ _
  · rw [runningEnd_append, ← runningEnd_eq crc32 pre, runningEnd,
      runningEnd, List.map_singleton, List.sum_singleton,
      framedLen_eq crc32 r]

/-! ## Live runs -/

/-- A log with the offset of the snapshot next to it; zero where there is no
snapshot. -/
structure LogLife where
  wal : Wal
  snapOffset : ℕ
  /-- The records in the log, each with the offset after its append. -/
  history : List (WalRecord × ℕ)
  /-- How many of them had been appended when the snapshot was taken. -/
  covered : ℕ

namespace LogLife

variable (crc32 : Bytes → UInt32)

/-- A new log. -/
def fresh (batchMs : ℕ) : LogLife :=
  { wal := .open none batchMs, snapOffset := 0, history := [], covered := 0 }

def records (L : LogLife) : List WalRecord := L.history.map Prod.fst

def append (L : LogLife) (r : WalRecord) : LogLife :=
  { L with
    wal := (L.wal.append crc32 r).1
    history := L.history ++ [(r, (L.wal.append crc32 r).1.offset)] }

def flush (L : LogLife) : LogLife := { L with wal := L.wal.flush }

/-- `snapshot_now`, as far as the log is concerned. -/
def snapshotNow (L : LogLife) : LogLife :=
  { L with
    wal := L.wal.flush
    snapOffset := L.wal.flush.offset
    covered := L.history.length }

/-- The log after a recovery that has found `rs`. -/
def reopened (L : LogLife) (cut : Option Bytes) (batchMs : ℕ)
    (rs : List WalRecord) : LogLife :=
  { L with
    wal := .open cut batchMs
    history := L.history.take rs.length }

/-- The steps of a log: calls, and reopenings after a close or a kill.  What the
file holds then is at least what has been handed to it and at most what has been
written; `crash` is a kill during an append. -/
inductive Step (Admits : WalRecord → Prop) : LogLife → LogLife → Prop
  | append {L : LogLife} (r : WalRecord) : Admits r →
      Step Admits L (L.append crc32 r)
  | flush {L : LogLife} : Step Admits L L.flush
  | snapshotNow {L : LogLife} : Step Admits L L.snapshotNow
  | reopen {L : LogLife} {file : Bytes} {rs : List WalRecord} {e : ℕ}
      {cut : Option Bytes} (batchMs : ℕ) :
      L.wal.writer.inner <+: file → file <+: L.wal.writer.contents →
      Wal.recover crc32 (some file) = .ok ((rs, e), cut) →
      Step Admits L (L.reopened cut batchMs rs)
  | crash {L : LogLife} {r : WalRecord} {file : Bytes} {rs : List WalRecord}
      {e : ℕ} {cut : Option Bytes} (batchMs : ℕ) : Admits r →
      L.wal.writer.inner <+: file →
      file <+: (L.append crc32 r).wal.writer.contents →
      Wal.recover crc32 (some file) = .ok ((rs, e), cut) →
      Step Admits L ((L.append crc32 r).reopened cut batchMs rs)

inductive Run (Admits : WalRecord → Prop) : LogLife → Prop
  | fresh (batchMs : ℕ) : Run Admits (fresh batchMs)
  | step {L L' : LogLife} : Run Admits L → Step crc32 Admits L L' →
      Run Admits L'

/-- What replay finds in any file that a close or a kill leaves: the sums are
the offsets that the appends have returned, and exactly the records appended
after the snapshot are replayed, all of them if the whole log is there. -/
def Accounted (L : LogLife) : Prop :=
  ∀ file, L.wal.writer.inner <+: file → file <+: L.wal.writer.contents →
    ∃ rs e cut, Wal.recover crc32 (some file) = .ok ((rs, e), cut) ∧
      rs <+: L.records ∧ runningEnd rs = e ∧
      (∀ pre r post offset, L.history = pre ++ (r, offset) :: post →
        runningEnd (pre.map Prod.fst ++ [r]) = offset) ∧
      replayed L.snapOffset rs 0 = rs.drop L.covered ∧ L.covered ≤ rs.length ∧
      (file = L.wal.writer.contents → rs = L.records)

/-- The invariant of live runs. -/
structure Sound (L : LogLife) : Prop where
  fits : ∀ r ∈ L.records, r.FitsFrame
  contents : L.wal.writer.contents = Wal.logBytes crc32 L.records
  len : L.wal.len = runningEnd L.records
  offsets : ∀ pre r post offset, L.history = pre ++ (r, offset) :: post →
    runningEnd (pre.map Prod.fst ++ [r]) = offset
  clean : L.wal.Clean
  covered : L.covered ≤ L.records.length
  snapOffset : L.snapOffset = runningEnd (L.records.take L.covered)
  handed : L.snapOffset ≤ L.wal.writer.inner.length

variable {crc32} {L : LogLife}

theorem runningEnd_take_le (rs : List WalRecord) {i j : ℕ} (h : i ≤ j) :
    runningEnd (rs.take i) ≤ runningEnd (rs.take j) := by
  obtain ⟨rest, hrest⟩ := List.take_prefix_take_left (l := rs) h
  rw [← hrest, runningEnd_append]
  exact Nat.le_add_right _ _

theorem sound_fresh (batchMs : ℕ) : Sound crc32 (fresh batchMs) where
  fits := by simp [fresh, records]
  contents := by rw [fresh, Wal.contents_open, records]; rfl
  len := rfl
  offsets := by simp [fresh]
  clean := Wal.clean_open _ _
  covered := Nat.zero_le _
  snapOffset := rfl
  handed := Nat.zero_le _

theorem records_append (r : WalRecord) :
    (L.append crc32 r).records = L.records ++ [r] := by
  rw [records, append, List.map_append, records]
  rfl

theorem Sound.flush (h : Sound crc32 L) : Sound crc32 L.flush where
  fits := h.fits
  contents := (Wal.contents_flush L.wal).trans h.contents
  len := (Wal.len_flush L.wal).trans h.len
  offsets := h.offsets
  clean := Wal.clean_of_synced (Wal.synced_flush h.clean)
  covered := h.covered
  snapOffset := h.snapOffset
  handed := h.handed.trans (by
    have hsynced := Wal.synced_flush h.clean
    rw [LogLife.flush, ← BufferedWriter.contents_of_buf_nil hsynced,
      Wal.contents_flush, BufferedWriter.contents, List.length_append]
    exact Nat.le_add_right _ _)

/-- A snapshot covers the whole log, which has been handed to the file. -/
theorem Sound.snapshotNow (h : Sound crc32 L) :
    Sound crc32 L.snapshotNow where
  fits := h.fits
  contents := h.flush.contents
  len := h.flush.len
  offsets := h.offsets
  clean := h.flush.clean
  covered := by
    rw [LogLife.snapshotNow, records, List.length_map]
  snapOffset := by
    rw [LogLife.snapshotNow, Wal.offset, ← List.length_map Prod.fst]
    exact h.flush.len.trans (congrArg runningEnd (List.take_length).symm)
  handed := by
    have hsynced := Wal.synced_flush h.clean
    have hlen := h.flush.len
    rw [runningEnd_eq crc32, ← h.flush.contents] at hlen
    rw [LogLife.snapshotNow, Wal.offset,
      ← BufferedWriter.contents_of_buf_nil hsynced]
    exact hlen.le

/-- What an append advances the offset by is the size of the frame. -/
theorem Sound.len_append (h : Sound crc32 L) {r : WalRecord}
    (hr : r.FitsFrame) :
    (L.append crc32 r).wal.len = runningEnd (L.records ++ [r]) := by
  have hfield : (UInt32.ofNat (4 + r.encodeBody.length)).toNat =
      4 + r.encodeBody.length := UInt32.toNat_ofNat_of_lt' hr
  rw [LogLife.append, Wal.len_append, h.len, hfield, runningEnd_append,
    runningEnd, runningEnd, List.map_singleton, List.sum_singleton,
    framedLen_eq crc32, length_frame]
  omega

theorem inner_prefix_append (w : Wal) (r : WalRecord) :
    w.writer.inner <+: (w.append crc32 r).1.writer.inner := by
  have hframe : w.writer.inner <+: (w.writeFrame crc32 r).writer.inner :=
    ((BufferedWriter.inner_prefix_writeAll _ _).trans
      (BufferedWriter.inner_prefix_writeAll _ _)).trans
        (BufferedWriter.inner_prefix_writeAll _ _)
  rcases Wal.append_cases crc32 w r with ⟨-, heq⟩ | ⟨-, heq⟩
  · rw [heq, Wal.flush]
    split_ifs
    · exact hframe.trans (List.prefix_append _ _)
    · exact hframe
  · rw [heq]
    exact hframe

theorem Sound.append (h : Sound crc32 L) {r : WalRecord} (hr : r.FitsFrame) :
    Sound crc32 (L.append crc32 r) := by
  have hlen := h.len_append hr
  refine ⟨?_, ?_, ?_, ?_, Wal.clean_append _ _, ?_, ?_,
    h.handed.trans (inner_prefix_append L.wal r).length_le⟩
  · rw [records_append]
    intro x hx
    rcases List.mem_append.mp hx with hx | hx
    · exact h.fits x hx
    · rwa [List.mem_singleton.mp hx]
  · rw [records_append, LogLife.append, Wal.contents_append, h.contents,
      Wal.logBytes_append, Wal.logBytes_eq [r], frames_cons, frames_nil,
      List.append_nil]
  · rw [records_append, hlen]
  · intro pre x post offset hsplit
    rcases List.eq_nil_or_concat post with rfl | ⟨post, last, rfl⟩
    · -- the record that was appended
      obtain ⟨hpre, hlast⟩ := List.append_inj' hsplit rfl
      obtain ⟨rfl, rfl⟩ := Prod.ext_iff.mp (List.cons.inj hlast).1
      rw [← hpre]
      exact hlen.symm
    · have hinit : L.history = pre ++ (x, offset) :: post := by
        rw [List.concat_eq_append, ← List.cons_append,
          ← List.append_assoc] at hsplit
        exact (List.append_inj' hsplit rfl).1
      exact h.offsets pre x post offset hinit
  · rw [records_append, List.length_append]
    exact h.covered.trans (Nat.le_add_right _ _)
  · have htake : (L.records ++ [r]).take L.covered =
        L.records.take L.covered := List.take_append_of_le_length h.covered
    rw [records_append]
    exact h.snapOffset.trans (congrArg runningEnd htake.symm)

/-- A file that has at least what the snapshot covers recovers to a prefix of
the records that includes the covered ones. -/
theorem Sound.recover (h : Sound crc32 L) {file : Bytes}
    (hlow : L.snapOffset ≤ file.length)
    (hfile : file <+: L.wal.writer.contents) :
    ∃ i ≤ L.records.length, L.covered ≤ i ∧
      Wal.recover crc32 (some file) =
        .ok ((L.records.take i, runningEnd (L.records.take i)),
          some (Wal.logBytes crc32 (L.records.take i))) ∧
      (file = L.wal.writer.contents → i = L.records.length) := by
  rw [h.contents] at hfile ⊢
  obtain ⟨i, hi, t, htake, ht, hle, hlt⟩ :=
    Wal.exists_take_logBytes h.fits hfile.length_le
  rw [← List.prefix_iff_eq_take.mp hfile] at htake
  refine ⟨i, hi, ?_, ?_, fun hall => ?_⟩
  · -- the frame behind the `i`-th is cut, and so not covered
    by_contra! hshort
    have hcut := hlt (hshort.trans_le h.covered)
    rw [← runningEnd_eq crc32] at hcut
    have hmono : runningEnd (L.records.take (i + 1)) ≤
        runningEnd (L.records.take L.covered) :=
      runningEnd_take_le L.records hshort
    rw [h.snapOffset] at hlow
    omega
  · rw [htake, runningEnd_eq crc32]
    exact Wal.recover_logBytes_append
      (fun r hr => h.fits r (List.mem_of_mem_take hr)) ht
  · by_contra hne
    have hcut := hlt (lt_of_le_of_ne hi hne)
    have hmono : runningEnd (L.records.take (i + 1)) ≤
        runningEnd (L.records.take L.records.length) :=
      runningEnd_take_le L.records (lt_of_le_of_ne hi hne)
    rw [List.take_length, runningEnd_eq crc32, runningEnd_eq crc32] at hmono
    rw [hall] at hcut
    omega

/-- The log after a recovery. -/
theorem Sound.reopened (h : Sound crc32 L) {file : Bytes}
    (hlow : L.snapOffset ≤ file.length)
    (hfile : file <+: L.wal.writer.contents) {rs : List WalRecord} {e : ℕ}
    {cut : Option Bytes}
    (hrecover : Wal.recover crc32 (some file) = .ok ((rs, e), cut))
    (batchMs : ℕ) : Sound crc32 (L.reopened cut batchMs rs) := by
  obtain ⟨i, hi, hcovered, heq, -⟩ := h.recover hlow hfile
  rw [heq, Except.ok.injEq, Prod.mk.injEq, Prod.mk.injEq] at hrecover
  obtain ⟨⟨rfl, -⟩, rfl⟩ := hrecover
  have hlength : (L.records.take i).length = i := List.length_take_of_le hi
  have hrecords : (L.reopened (some (Wal.logBytes crc32 (L.records.take i)))
      batchMs (L.records.take i)).records = L.records.take i := by
    rw [records, LogLife.reopened, hlength, List.map_take]
    rfl
  have htake : (L.records.take i).take L.covered =
      L.records.take L.covered := by
    rw [List.take_take, min_eq_left hcovered]
  refine ⟨?_, ?_, ?_, ?_, Wal.clean_open _ _, ?_, ?_, ?_⟩
  · rw [hrecords]
    exact fun r hr => h.fits r (List.mem_of_mem_take hr)
  · rw [hrecords]
    exact Wal.contents_open _ _
  · rw [hrecords, runningEnd_eq crc32]
    rfl
  · intro pre r post offset hsplit
    rw [LogLife.reopened, hlength] at hsplit
    apply h.offsets pre r (post ++ L.history.drop i)
    rw [← List.cons_append, ← List.append_assoc, ← hsplit,
      List.take_append_drop]
  · rw [hrecords, hlength]
    exact hcovered
  · rw [hrecords]
    exact h.snapOffset.trans (congrArg runningEnd htake.symm)
  · have hmono := runningEnd_take_le L.records hcovered
    rw [← h.snapOffset, runningEnd_eq crc32 (L.records.take i)] at hmono
    exact hmono

theorem Sound.step (h : Sound crc32 L) {L' : LogLife}
    (hstep : Step crc32 WalRecord.FitsFrame L L') : Sound crc32 L' := by
  cases hstep with
  | append r hr => exact h.append hr
  | flush => exact h.flush
  | snapshotNow => exact h.snapshotNow
  | reopen batchMs hinner hfile hrecover =>
      exact h.reopened (h.handed.trans hinner.length_le) hfile hrecover _
  | crash batchMs hr hinner hfile hrecover =>
      exact (h.append hr).reopened (h.handed.trans hinner.length_le) hfile
        hrecover _

theorem Run.sound (h : Run crc32 WalRecord.FitsFrame L) : Sound crc32 L := by
  induction h with
  | fresh batchMs => exact sound_fresh batchMs
  | step _ hstep ih => exact ih.step hstep

theorem Sound.accounted (h : Sound crc32 L) : Accounted crc32 L := by
  intro file hinner hfile
  obtain ⟨i, hi, hcovered, hrecover, hall⟩ :=
    h.recover (h.handed.trans hinner.length_le) hfile
  have hlength : (L.records.take i).length = i := List.length_take_of_le hi
  refine ⟨_, _, _, hrecover, List.take_prefix _ _, rfl, h.offsets, ?_,
    by rw [hlength]; exact hcovered, fun heq => ?_⟩
  · have hsplit := replayed_append ((L.records.take i).take L.covered)
      ((L.records.take i).drop L.covered) 0
    rw [List.take_append_drop, Nat.zero_add, List.take_take,
      min_eq_left hcovered, ← h.snapOffset] at hsplit
    exact hsplit
  · rw [hall heq, List.take_length]

/-- Replay applies the records that end behind the snapshot's offset.  In any
file the sums are the ends of the frames; in every run whose records fit their
frames they are the offsets of the appends, and a record is replayed exactly if
it was appended after the snapshot. -/
theorem replay_accounting (crc32 : Bytes → UInt32) :
    (∀ R snapOffset rs m, replay R snapOffset rs 0 m =
      (replayed snapOffset rs 0).foldlM (applyRecord R) m) ∧
    (∀ content rs e cut,
      Wal.recover crc32 (some content) = .ok ((rs, e), cut) →
      runningEnd rs = e ∧ ∀ pre r post, rs = pre ++ r :: post →
        content.take (runningEnd pre) = Wal.logBytes crc32 pre ∧
        frame crc32 r.encodeBody <+: content.drop (runningEnd pre) ∧
        runningEnd (pre ++ [r]) =
          runningEnd pre + (frame crc32 r.encodeBody).length) ∧
    ∀ L, Run crc32 WalRecord.FitsFrame L → Accounted crc32 L :=
  ⟨fun R snapOffset rs m => replay_eq_replayed R snapOffset rs 0 m,
    fun _ _ _ _ h => runningEnd_of_recover h, fun _ h => h.sound.accounted⟩

/-- A delete behind a snapshot. -/
theorem accounted_delete :
    Accounted (fun _ => 0) (((fresh 0).append (fun _ => 0)
      (.ofDelete .zero 7)).snapshotNow.append (fun _ => 0)
        (.ofDelete .zero 8)) :=
  (replay_accounting fun _ => 0).2.2 _
    ((((Run.fresh 0).step (.append _ (by decide))).step .snapshotNow).step
      (.append _ (by decide)))

/-- A record whose framed length is `2 ^ 32` moves the offset by four bytes, and
is not replayed. -/
theorem not_accounted_oversized : ∃ r : WalRecord,
    ∀ crc32 : Bytes → UInt32,
      Run crc32 (fun _ => True) ((fresh 0).append crc32 r) ∧
      ((fresh 0).append crc32 r).wal.offset = 4 ∧
      runningEnd [r] = 2 ^ 32 + 4 ∧
      ¬ Accounted crc32 ((fresh 0).append crc32 r) := by
  obtain ⟨r, hbody⟩ : ∃ r : WalRecord, 4 + r.encodeBody.length = 2 ^ 32 := by
    obtain ⟨payload, hpayload⟩ : ∃ p : Bytes, p.length = 2 ^ 32 - 29 :=
      ⟨List.replicate _ 0, List.length_replicate⟩
    refine ⟨.ofUpsert .zero 7 [] payload, ?_⟩
    rw [WalRecord.length_encodeBody, WalRecord.ofUpsert, hpayload,
      List.length_nil]
    norm_num
  refine ⟨r, fun crc32 => ⟨.step (.fresh 0) (.append r trivial), ?_, ?_,
    fun h => ?_⟩⟩
  · rw [LogLife.append, Wal.offset, Wal.len_append, hbody]
    rfl
  · rw [runningEnd, List.map_singleton, List.sum_singleton,
      framedLen_eq crc32, length_frame]
    omega
  · have hsynced : ((fresh 0).append crc32 r).wal.Synced :=
      Wal.synced_append crc32 rfl r
    have hclose : ((fresh 0).append crc32 r).wal.close =
        ((fresh 0).append crc32 r).wal.writer.contents := by
      rw [Wal.close, ← BufferedWriter.contents_of_buf_nil
        (Wal.synced_flush (Wal.clean_of_synced hsynced)), Wal.contents_flush]
    obtain ⟨rs, e, cut, hrecover, -, -, -, -, -, hall⟩ :=
      h ((fresh 0).append crc32 r).wal.writer.contents
        (List.prefix_append _ _) (List.prefix_refl _)
    have hnothing : Wal.recover crc32
        (some ((fresh 0).append crc32 r).wal.close) = .ok (([], 0), some []) :=
      recover_oversized crc32 hbody
    rw [hclose, hrecover, Except.ok.injEq, Prod.mk.injEq, Prod.mk.injEq]
      at hnothing
    have hempty := hall rfl
    rw [hnothing.1.1, records_append] at hempty
    simp at hempty

end LogLife

end Quorvec
