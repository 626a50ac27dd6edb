import Quorvec.Storage.Wal

/-!
# Killing a process in batch mode

With a batch window an append returns without a flush.  What it has written may
still be in the buffer of the process, and a kill takes the buffer along.  Only
a record as large as the buffer passes it by.
-/

namespace Quorvec

open ByteCodec Framing

/-- The calls on a log. -/
inductive WalCall
  | append (r : WalRecord)
  | flush

namespace Wal

variable (crc32 : Bytes → UInt32)

def call (w : Wal) : WalCall → Wal
  | .append r => (w.append crc32 r).1
  | .flush => w.flush

/-- The log after a sequence of calls. -/
def afterCalls (w : Wal) (calls : List WalCall) : Wal :=
  calls.foldl (call crc32) w

/-- The records that the calls have acknowledged. -/
def acked (calls : List WalCall) : List WalRecord :=
  calls.filterMap fun
    | .append r => some r
    | .flush => none

/-- The file has the frame of every acknowledged record.  A kill leaves it so;
recovery then returns these records, and all of them in order also when the file
has grown before the kill. -/
structure SurvivesKill (w : Wal) (records : List WalRecord) : Prop where
  written : w.writer.inner = logBytes crc32 records
  recovered : recover crc32 (some w.writer.inner) =
    .ok ((records, (logBytes crc32 records).length),
      some (logBytes crc32 records))
  later : ∀ file, w.writer.inner <+: file → ∃ rs e cut,
    recover crc32 (some file) = .ok ((rs, e), cut) ∧ records <+: rs

variable {crc32} {w : Wal}

theorem contents_call (c : WalCall) (records : List WalRecord)
    (hw : w.writer.contents = logBytes crc32 records) :
    (w.call crc32 c).writer.contents =
      logBytes crc32 (records ++ acked [c]) := by
  cases c with
  | append r =>
      rw [call, contents_append, hw, logBytes_eq, logBytes_eq, frames_append]
      simp [acked]
  | flush =>
      rw [call, contents_flush, hw]
      simp [acked]

theorem batchMs_call (c : WalCall) : (w.call crc32 c).batchMs = w.batchMs := by
  cases c with
  | append r => exact batchMs_append w r
  | flush => exact batchMs_flush w

theorem acked_append (calls calls' : List WalCall) :
    acked (calls ++ calls') = acked calls ++ acked calls' :=
  List.filterMap_append

theorem contents_afterCalls {records : List WalRecord}
    (hw : w.writer.contents = logBytes crc32 records) (calls : List WalCall) :
    (w.afterCalls crc32 calls).writer.contents =
        logBytes crc32 (records ++ acked calls) ∧
      (w.afterCalls crc32 calls).batchMs = w.batchMs := by
  induction calls using List.reverseRecOn with
  | nil => exact ⟨by simpa [afterCalls, acked] using hw, rfl⟩
  | append_singleton calls c ih =>
      rw [afterCalls, List.foldl_append, acked_append, ← List.append_assoc]
      exact ⟨contents_call c _ ih.1, (batchMs_call c).trans ih.2⟩

theorem buf_append_of_batch (hbatch : w.batchMs ≠ 0) (r : WalRecord) :
    ((w.append crc32 r).1.writer.buf = [] ↔
      BufferedWriter.capacity ≤ r.encodeBody.length) := by
  rcases append_cases crc32 w r with ⟨hzero, -⟩ | ⟨-, h⟩
  · exact absurd hzero hbatch
  rw [h, writeFrame]
  constructor
  · intro hnil
    by_contra! hsmall
    have hpos : 0 < r.encodeBody.length := by
      rw [WalRecord.length_encodeBody]
      omega
    exact BufferedWriter.buf_writeAll_of_small _ hpos hsmall hnil
  · exact BufferedWriter.buf_writeAll_of_large _

theorem synced_afterCalls (hbatch : w.batchMs ≠ 0) (hw : w.Synced)
    {calls : List WalCall} (hlarge : ∀ r, .append r ∈ calls →
      BufferedWriter.capacity ≤ r.encodeBody.length) :
    (w.afterCalls crc32 calls).Synced := by
  induction calls generalizing w with
  | nil => exact hw
  | cons c calls ih =>
      refine ih (w := w.call crc32 c) ?_ ?_
        fun r hr => hlarge r (List.mem_cons_of_mem c hr)
      · rw [batchMs_call]
        exact hbatch
      · cases c with
        | append r =>
            exact (buf_append_of_batch hbatch r).mpr
              (hlarge r List.mem_cons_self)
        | flush => exact synced_flush (clean_of_synced hw)

theorem survivesKill_of_synced (hw : w.Synced) {records : List WalRecord}
    (hcontents : w.writer.contents = logBytes crc32 records)
    (hfits : ∀ r ∈ records, r.FitsFrame) : w.SurvivesKill crc32 records := by
  have hinner : w.writer.inner = logBytes crc32 records := by
    rw [← hcontents, BufferedWriter.contents_of_buf_nil hw]
  refine ⟨hinner, by rw [hinner, recover_logBytes hfits],
    fun file hfile => ?_⟩
  obtain ⟨rs, e, hrecover, -, -, hmax, -⟩ := (recover_exact crc32).1 file
  exact ⟨rs, e, _, hrecover, hmax records hfits (hinner ▸ hfile)⟩

theorem fitsFrame_of_recover {content : Bytes} {rs : List WalRecord} {e : ℕ}
    {cut : Option Bytes}
    (h : recover crc32 (some content) = .ok ((rs, e), cut)) :
    ∀ r ∈ rs, r.FitsFrame := by
  obtain ⟨rs', t, rfl, hfits, ht⟩ := exists_logBytes_append crc32 content
  rw [recover_logBytes_append hfits ht, Except.ok.injEq, Prod.mk.injEq,
    Prod.mk.injEq] at h
  exact h.1.1 ▸ hfits

/-- In batch mode a kill after any call spares every acknowledged record if and
only if every record is as large as the buffer, and its frame fits. -/
theorem survivesKill_iff {batchMs : ℕ} (hbatch : batchMs ≠ 0)
    {old : List WalRecord} (hold : ∀ r ∈ old, r.FitsFrame)
    (calls : List WalCall) :
    (∀ pre post, calls = pre ++ post →
      ((«open» (some (logBytes crc32 old)) batchMs).afterCalls crc32
        pre).SurvivesKill crc32 (old ++ acked pre)) ↔
    ∀ r, .append r ∈ calls →
      BufferedWriter.capacity ≤ r.encodeBody.length ∧ r.FitsFrame := by
  set w := «open» (some (logBytes crc32 old)) batchMs
  have hcontents : ∀ pre, (w.afterCalls crc32 pre).writer.contents =
        logBytes crc32 (old ++ acked pre) ∧
      (w.afterCalls crc32 pre).batchMs = batchMs :=
    contents_afterCalls (contents_open _ _)
  constructor
  · intro h r hr
    obtain ⟨pre, post, rfl⟩ := List.append_of_mem hr
    have hsurvives := h (pre ++ [.append r]) post (by simp)
    constructor
    · -- the file has all that was written, so nothing is kept back
      have hall := (hcontents (pre ++ [.append r])).1
      rw [← hsurvives.written, BufferedWriter.contents,
        List.append_right_eq_self] at hall
      rw [afterCalls, List.foldl_append] at hall
      refine (buf_append_of_batch ?_ r).mp hall
      exact (hcontents pre).2.symm ▸ hbatch
    · apply fitsFrame_of_recover hsurvives.recovered
      rw [acked_append]
      simp [acked]
  · rintro h pre post rfl
    refine survivesKill_of_synced (synced_afterCalls hbatch
      (synced_open _ _) fun r hr => (h r (List.mem_append_left _ hr)).1)
      (hcontents pre).1 fun r hr => ?_
    rcases List.mem_append.mp hr with hr | hr
    · exact hold r hr
    · obtain ⟨c, hc, hcr⟩ := List.mem_filterMap.mp hr
      cases c with
      | append r' =>
          obtain rfl := Option.some.inj hcr
          exact (h r' (List.mem_append_left _ hc)).2
      | flush => cases hcr

theorem survivesKill_large :
    ((«open» none 10).afterCalls (fun _ => 0)
      [.append (.ofUpsert .zero 7 [] (List.replicate 8192 0))]).SurvivesKill
        (fun _ => 0) [.ofUpsert .zero 7 [] (List.replicate 8192 0)] := by
  have hempty : logBytes (fun _ => 0) [] = [] := rfl
  have hlength : (WalRecord.ofUpsert .zero 7 []
      (List.replicate 8192 0)).encodeBody.length = 25 + 8192 := by
    rw [WalRecord.length_encodeBody, WalRecord.ofUpsert, List.length_replicate]
    rfl
  have h := (@survivesKill_iff (fun _ => 0) 10 (by decide) [] (by simp)
    [.append (.ofUpsert .zero 7 [] (List.replicate 8192 0))]).mpr (by
      intro r hr
      obtain rfl := WalCall.append.inj (List.mem_singleton.mp hr)
      rw [WalRecord.FitsFrame, hlength, BufferedWriter.capacity]
      omega)
  exact h [.append _] [] rfl

/-- A delete in batch mode is acknowledged, and no byte of it is in the file:
after a kill, recovery finds nothing. -/
theorem not_survivesKill_delete :
    ((«open» none 10).afterCalls (fun _ => 0)
        [.append (.ofDelete .zero 7)]).writer.inner = [] ∧
      recover (fun _ => 0) (some []) = .ok (([], 0), some []) ∧
      ¬ ((«open» none 10).afterCalls (fun _ => 0)
        [.append (.ofDelete .zero 7)]).SurvivesKill (fun _ => 0)
          [.ofDelete .zero 7] := by
  refine ⟨by decide +kernel, @recover_logBytes (fun _ => 0) [] (by simp), ?_⟩
  intro h
  exact absurd h.written (by decide +kernel)

end Wal

end Quorvec
