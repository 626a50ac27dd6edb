import Quorvec.Node.HintReplay

/-!
# Hint logs and crashes

A crash in the middle of an append leaves a torn frame at the end of the hint
log.  The reader stops there, but the log is opened for appending as it is: what
is buffered later stands behind the torn frame.  The rewrite of a log removes
the file before it writes the new one.
-/

namespace Quorvec

open ByteCodec Framing

/-! ## A crash during an append -/

section Append

variable (crc32 : Bytes → UInt32)

/-- A crash after `k` bytes of the frame of a hint. -/
def tornAppend (log : Option Bytes) (h : Hint) (k : ℕ) : Option Bytes :=
  some (log.getD [] ++ (frame crc32 h.encodeHint).take k)

/-- The bytes behind the complete hints. -/
def HintLog.tail (log : Option Bytes) : Bytes :=
  match scan crc32 Hint.decodeHint (log.getD []) 0 with
  | .ok (_, goodEnd) => (log.getD []).drop goodEnd
  | .error _ => []

/-- What stands behind the complete hints after the crash. -/
def leftover (log : Option Bytes) (h : Hint) (k : ℕ) : Bytes :=
  HintLog.tail crc32 log ++ (frame crc32 h.encodeHint).take k

/-- After a crash, every complete hint and every hint that is buffered later is
read. -/
def HintsSurvive (log : Option Bytes) (h : Hint) (k : ℕ)
    (later : List Hint) : Prop :=
  ∀ before, readAllHints crc32 log = .ok before →
    readAllHints crc32
      (later.foldl (bufferHint crc32) (tornAppend crc32 log h k)) =
        .ok (before ++ later)

/-- Behind the bytes the frames of the hints stand as they would stand without
them: the frames repeat the bytes over and over, and no frame follows. -/
def Repeats (bytes : Bytes) (hints : List Hint) : Prop :=
  ∃ rest, bytes ++ HintLog.logBytes crc32 hints =
      HintLog.logBytes crc32 hints ++ rest ∧
    NoFrame crc32 Hint.encodeHint Hint.Encodable rest

end Append

section Survive

variable {crc32 : Bytes → UInt32} {log : Option Bytes}

/-- Every log is the frames of its hints and a tail without a frame. -/
theorem HintLog.exists_frames (crc32 : Bytes → UInt32) (log : Option Bytes) :
    ∃ hints, readAll crc32 log = .ok hints ∧
      (∀ h ∈ hints, h.FitsFrame) ∧
      log.getD [] = logBytes crc32 hints ++ tail crc32 log ∧
      NoFrame crc32 Hint.encodeHint Hint.Encodable (tail crc32 log) := by
  obtain ⟨hints, t, hbytes, hhints, ht⟩ := exists_frames_append crc32
    Hint.encodeHint Hint.Encodable (log.getD [])
  have hfits : ∀ h ∈ hints, h.FitsFrame := fun h hh =>
    (Hint.fits_iff h).mp (hhints h hh)
  have htail : tail crc32 log = t := by
    have hscan := scan_frames_append Hint.bodyCodec hhints ht
    rw [← hbytes] at hscan
    rw [tail, hscan]
    dsimp only
    rw [hbytes, List.drop_left]
  refine ⟨hints, readAll_of_frames hbytes hfits ht, hfits, ?_, ?_⟩
  · rw [htail]
    exact hbytes
  · rwa [htail]

theorem HintLog.readAll_eq_iff {hints : List Hint} :
    readAll crc32 log = .ok hints ↔ (∀ h ∈ hints, h.FitsFrame) ∧
      ∃ t, log.getD [] = logBytes crc32 hints ++ t ∧
        NoFrame crc32 Hint.encodeHint Hint.Encodable t := by
  constructor
  · intro hread
    obtain ⟨found, hfound, hfits, hbytes, ht⟩ := exists_frames crc32 log
    have hsame : found = hints := Except.ok.inj (hfound.symm.trans hread)
    subst hsame
    exact ⟨hfits, _, hbytes, ht⟩
  · rintro ⟨hfits, t, hbytes, ht⟩
    exact readAll_of_frames hbytes hfits ht

theorem getD_foldl_bufferHint (log : Option Bytes) (hints : List Hint) :
    (hints.foldl (bufferHint crc32) log).getD [] =
      log.getD [] ++ HintLog.logBytes crc32 hints := by
  induction hints generalizing log with
  | nil => simp [HintLog.logBytes]
  | cons h hints ih =>
    rw [List.foldl_cons, ih, bufferHint, HintLog.close_eq, Option.getD_some,
      HintLog.contents_append, HintLog.contents_open, List.append_assoc]
    rfl

/-- Frames repeat nothing when there is nothing, and no frames repeat
everything. -/
theorem repeats_of_nil {bytes : Bytes} {hints : List Hint}
    (h : bytes = [] ∨ hints = [] ∧
      NoFrame crc32 Hint.encodeHint Hint.Encodable bytes) :
    Repeats crc32 bytes hints := by
  rcases h with rfl | ⟨rfl, hno⟩
  · exact ⟨[], by simp, noFrame_nil⟩
  · exact ⟨bytes, by simp [HintLog.logBytes], hno⟩

/-- Hints survive a crash during an append exactly if the frames that are
buffered later repeat what is left behind the complete hints. -/
theorem hintsSurvive_iff_repeats {h : Hint} {k : ℕ} {later : List Hint} :
    HintsSurvive crc32 log h k later ↔ (∀ x ∈ later, x.FitsFrame) ∧
      Repeats crc32 (leftover crc32 log h k) later := by
  obtain ⟨before, hbefore, hfits, hbytes, -⟩ :=
    HintLog.exists_frames crc32 log
  have hafter : (later.foldl (bufferHint crc32)
      (tornAppend crc32 log h k)).getD [] =
        HintLog.logBytes crc32 before ++ (leftover crc32 log h k ++
          HintLog.logBytes crc32 later) := by
    rw [getD_foldl_bufferHint, tornAppend, Option.getD_some, leftover, hbytes]
    simp only [List.append_assoc]
  constructor
  · intro hall
    obtain ⟨hboth, t, ht, hno⟩ := HintLog.readAll_eq_iff.mp
      (hall before hbefore)
    refine ⟨fun x hx => hboth x (List.mem_append_right _ hx), t, ?_, hno⟩
    rw [hafter, HintLog.logBytes_append, List.append_assoc,
      List.append_cancel_left_eq] at ht
    exact ht
  · rintro ⟨hlater, t, ht, hno⟩ found hfound
    have hsame : before = found :=
      Except.ok.inj (hbefore.symm.trans hfound)
    subst hsame
    refine HintLog.readAll_of_frames ?_ (fun x hx => ?_) hno
    · rw [hafter, ht, HintLog.logBytes_append, List.append_assoc]
    · rcases List.mem_append.mp hx with hx | hx
      · exact hfits x hx
      · exact hlater x hx

/-- Hints survive a crash during an append exactly if nothing is left behind
the complete hints, or nothing is buffered later, or the frames that are
buffered later happen to repeat what is left.  A hint that does not fit its
frame is never read. -/
theorem hintsSurvive_iff (crc32 : Bytes → UInt32) (log : Option Bytes)
    (h : Hint) (k : ℕ) (later : List Hint) :
    HintsSurvive crc32 log h k later ↔ (∀ x ∈ later, x.FitsFrame) ∧
      (leftover crc32 log h k = [] ∨
        later = [] ∧ NoFrame crc32 Hint.encodeHint Hint.Encodable
          (leftover crc32 log h k) ∨
        Repeats crc32 (leftover crc32 log h k) later) := by
  rw [hintsSurvive_iff_repeats]
  constructor
  · rintro ⟨hlater, hrepeats⟩
    exact ⟨hlater, .inr (.inr hrepeats)⟩
  · rintro ⟨hlater, hcases⟩
    rw [← or_assoc] at hcases
    exact ⟨hlater, hcases.elim repeats_of_nil id⟩

/-- One byte of a torn frame hides the hint that is buffered after the
restart. -/
theorem not_hintsSurvive : ¬ ∃ crc32, ∀ log h k later,
    k < (frame crc32 h.encodeHint).length →
      HintsSurvive crc32 log h k later := by
  rintro ⟨crc32, hall⟩
  let hint : Hint :=
    { targetNode := 2, collection := "c", shardIdx := 0, op := .delete
      hlc := Hlc.new 1 0, id := 7, vector := [], payload := [] }
  have hlength : hint.encodeHint.length = 42 := by
    rw [Hint.length_encodeHint]
    decide
  have hframe : ∃ rest, frame crc32 hint.encodeHint = 46 :: 0 :: rest := by
    refine ⟨[0, 0] ++ (toLeBytes 4 (crc32 hint.encodeHint).toNat ++
      hint.encodeHint), ?_⟩
    rw [frame, hlength]
    rfl
  obtain ⟨rest, hrest⟩ := hframe
  have htail : HintLog.tail crc32 none = [] := by
    obtain ⟨hints, -, -, hbytes, -⟩ := HintLog.exists_frames crc32 none
    exact (List.append_eq_nil_iff.mp hbytes.symm).2
  have hleft : leftover crc32 none hint 1 = [46] := by
    rw [leftover, htail, hrest]
    rfl
  have hsurvive := hall none hint 1 [hint] (by
    rw [length_frame, hlength]
    decide)
  rw [hintsSurvive_iff_repeats, hleft] at hsurvive
  obtain ⟨-, behind, hbytes, -⟩ := hsurvive
  -- the second byte of the frame would be the first one
  rw [HintLog.logBytes, frames_cons, frames_nil, List.append_nil, hrest]
    at hbytes
  simp at hbytes

end Survive

/-! ## A crash during the rewrite -/

section Rewrite

variable (crc32 : Bytes → UInt32)

/-- What a crash during the rewrite leaves. -/
inductive RewriteCrashed (log : Option Bytes) (keep : List Hint) :
    Option Bytes → Prop
  | before : RewriteCrashed log keep log
  | cleared : RewriteCrashed log keep HintLog.clear
  /-- The first hints are appended, and some bytes of the next one. -/
  | appending (i k : ℕ) (h : Hint) : keep[i]? = some h →
      k ≤ (frame crc32 h.encodeHint).length →
      RewriteCrashed log keep (tornAppend crc32 ((keep.take i).foldl
        (HintLog.append crc32) (HintLog.open HintLog.clear)).close h k)

/-- At every crash point the hints that are kept are read after a restart. -/
def RewriteAtomic (log : Option Bytes) (keep : List Hint) : Prop :=
  ∀ log' hints, RewriteCrashed crc32 log keep log' →
    readAllHints crc32 log' = .ok hints → keep ⊆ hints

variable {crc32} {log : Option Bytes}

/-- In the middle of the rewrite only the hints that have been appended are
read. -/
theorem readAll_appending {keep : List Hint} (hkeep : ∀ h ∈ keep, h.FitsFrame)
    {i k : ℕ} {h : Hint} (hi : keep[i]? = some h)
    (hk : k < (frame crc32 h.encodeHint).length) :
    readAllHints crc32 (tornAppend crc32 ((keep.take i).foldl
      (HintLog.append crc32) (HintLog.open HintLog.clear)).close h k) =
        .ok (keep.take i) := by
  have hfits := hkeep h (List.mem_of_getElem? hi)
  refine HintLog.readAll_of_frames ?_
    (fun x hx => hkeep x (List.mem_of_mem_take hx))
    (noFrame_of_cut ((Hint.fits_iff h).mpr hfits) (List.take_prefix k _) ?_)
  · rw [tornAppend, Option.getD_some, HintLog.close_eq, Option.getD_some,
      HintLog.contents_foldl_append, HintLog.contents_open]
    rfl
  · rw [List.length_take]
    omega

theorem eq_nil_of_rewriteAtomic {keep : List Hint}
    (h : RewriteAtomic crc32 log keep) : keep = [] :=
  List.subset_nil.mp (h none [] .cleared rfl)

/-- The rewrite survives every crash exactly if there is nothing to keep: the
file is removed first, and a crash between two appends leaves the hints that
have been appended. -/
theorem rewriteAtomic_iff (crc32 : Bytes → UInt32) (log : Option Bytes)
    (keep : List Hint) :
    (RewriteAtomic crc32 log keep ↔ keep = []) ∧
      ((∀ h ∈ keep, h.FitsFrame) → ∀ (i k : ℕ) h, keep[i]? = some h →
        k < (frame crc32 h.encodeHint).length →
        readAllHints crc32 (tornAppend crc32 ((keep.take i).foldl
          (HintLog.append crc32) (HintLog.open HintLog.clear)).close h k) =
            .ok (keep.take i)) := by
  refine ⟨⟨eq_nil_of_rewriteAtomic, ?_⟩,
    fun hkeep i k h => readAll_appending hkeep⟩
  rintro rfl log' hints - -
  exact List.nil_subset _

/-- A hint that could not be pushed is gone when the process ends between the
removal of the file and the first append. -/
theorem not_rewriteAtomic : ¬ ∃ crc32, ∀ log all keep,
    readAllHints crc32 log = .ok all → keep.Sublist all →
      RewriteAtomic crc32 log keep := by
  rintro ⟨crc32, hall⟩
  let hint : Hint :=
    { targetNode := 2, collection := "c", shardIdx := 0, op := .delete
      hlc := Hlc.new 1 0, id := 7, vector := [], payload := [] }
  have hfits : hint.FitsFrame := by
    rw [Hint.FitsFrame, Hint.length_encodeHint]
    decide
  have hread : readAllHints crc32 (bufferHint crc32 none hint) = .ok [hint] :=
    (HintLog.holds_none.append hfits).readAll
  have hlost := eq_nil_of_rewriteAtomic
    (hall _ [hint] [hint] hread (List.Sublist.refl _))
  simp at hlost

end Rewrite

end Quorvec
