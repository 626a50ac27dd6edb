import Quorvec.Storage.Wal
import Quorvec.Support.FaultyWriter

/-!
# Appending to a log whose file may fail

A frame is handed to the writer in three parts, the length counter advances, and
then the writer is flushed.  An append that fails in the flush leaves a whole
frame, and one that fails before the first part leaves nothing; in both cases
the next append continues cleanly.  An append that fails in between leaves part
of a frame in front of everything that is appended later.
-/

namespace Quorvec

open ByteCodec Framing BufferedWriter

/-- Where the writes of one append fail, if they do. -/
structure AppendFaults where
  len : WriteFault
  crc : WriteFault
  body : WriteFault
  flush : Option ℕ

namespace Wal

variable (crc32 : Bytes → UInt32)

/-- The length field of a record's frame. -/
def lenField (r : WalRecord) : Bytes :=
  toLeBytes 4 (UInt32.ofNat (4 + r.encodeBody.length)).toNat

def crcField (r : WalRecord) : Bytes :=
  toLeBytes 4 (crc32 r.encodeBody).toNat

/-- Hand the three parts of a frame to the writer; `false` if the file
fails. -/
def writeFrameOr (faults : AppendFaults) (w : Wal) (r : WalRecord) :
    Wal × Bool :=
  match w.writer.writeAllOr faults.len (lenField r) with
  | (writer, false) => ({ w with writer }, false)
  | (writer, true) =>
      match writer.writeAllOr faults.crc (crcField crc32 r) with
      | (writer, false) => ({ w with writer }, false)
      | (writer, true) =>
          match writer.writeAllOr faults.body r.encodeBody with
          | (writer, false) => ({ w with writer }, false)
          | (writer, true) =>
              let frameLen := UInt32.ofNat (4 + r.encodeBody.length)
              ({ w with
                  writer, len := w.len + (4 + frameLen.toNat), dirty := true },
                true)

def flushOr (fault : Option ℕ) (w : Wal) : Wal × Bool :=
  if w.dirty then
    match w.writer.flushOr fault with
    | (writer, false) => ({ w with writer }, false)
    | (writer, true) => ({ w with writer, dirty := false }, true)
  else (w, true)

/-- `append` on a file that may fail: the new end offset, if it succeeds. -/
def appendOr (faults : AppendFaults) (w : Wal) (r : WalRecord) :
    Wal × Option ℕ :=
  match w.writeFrameOr crc32 faults r with
  | (w, false) => (w, none)
  | (w, true) =>
      if w.batchMs = 0 then
        match w.flushOr faults.flush with
        | (w, false) => (w, none)
        | (w, true) => (w, some w.len)
      else (w, some w.len)

end Wal

/-- A log, and the records whose append has returned, oldest first. -/
structure AppendRun where
  wal : Wal
  acked : List WalRecord

namespace AppendRun

variable (crc32 : Bytes → UInt32)

def append (s : AppendRun) (faults : AppendFaults) (r : WalRecord) :
    AppendRun :=
  match s.wal.appendOr crc32 faults r with
  | (wal, none) => { s with wal }
  | (wal, some _) => { wal, acked := s.acked ++ [r] }

/-- The runs in `fsync` mode from an intact log, whose appends are all
admitted. -/
inductive Run (Admits : Wal → AppendFaults → WalRecord → Prop) :
    AppendRun → Prop
  | init (old : List WalRecord) : (∀ r ∈ old, r.FitsFrame) →
      Run Admits
        { wal := Wal.open (some (Wal.logBytes crc32 old)) 0, acked := old }
  | append {s : AppendRun} (faults : AppendFaults) (r : WalRecord) :
      Run Admits s → Admits s.wal faults r →
      Run Admits (s.append crc32 faults r)

end AppendRun

/-- Every record whose append has returned is recovered, in order, whatever part
of the buffer still reaches the file; and the offset that an append returns is
the length of the file. -/
def FaultsHarmless (crc32 : Bytes → UInt32)
    (Admits : Wal → AppendFaults → WalRecord → Prop) : Prop :=
  ∀ s, AppendRun.Run crc32 Admits s →
    (∀ k, ∃ rs e file, Wal.recover crc32
        (some (s.wal.writer.inner ++ s.wal.writer.buf.take k)) =
          .ok ((rs, e), file) ∧ s.acked.Sublist rs) ∧
    ∀ faults r n, Admits s.wal faults r →
      (s.wal.appendOr crc32 faults r).2 = some n →
      n = (s.wal.appendOr crc32 faults r).1.offset ∧
        n = (s.wal.appendOr crc32 faults r).1.writer.inner.length

/-- If the length field is accepted, the frame fits, and no write to the file
fails before its last part is accepted. -/
def AppendFaults.Unsplit (crc32 : Bytes → UInt32) (w : Wal)
    (faults : AppendFaults) (r : WalRecord) : Prop :=
  ¬ Strikes faults.len w.writer (Wal.lenField r).length →
    r.FitsFrame ∧
    ¬ Strikes faults.crc (w.writer.writeAll (Wal.lenField r))
      (Wal.crcField crc32 r).length ∧
    ¬ Strikes faults.body ((w.writer.writeAll (Wal.lenField r)).writeAll
      (Wal.crcField crc32 r)) r.encodeBody.length

/-! ## What one append hands over -/

namespace Wal

variable {crc32 : Bytes → UInt32} {faults : AppendFaults} {w w' : Wal}
variable {r : WalRecord}

/-- The writer has been handed the bytes. -/
structure Handed (w w' : Wal) (bytes : Bytes) : Prop where
  contents : w'.writer.contents = w.writer.contents ++ bytes
  inner : w.writer.inner <+: w'.writer.inner
  batchMs : w'.batchMs = w.batchMs

/-- Nothing of the frame is handed over if there is no room for its first
part. -/
theorem appendOr_of_refused
    (h : Strikes faults.len w.writer (lenField r).length) :
    ∃ w', w.appendOr crc32 faults r = (w', none) ∧ Handed w w' [] ∧
      w'.len = w.len := by
  obtain ⟨writer, part, hwrite, hcontents, -, -, hsmall, hinner⟩ :=
    writeAllOr_of_strikes h
  refine ⟨{ w with writer }, ?_, ⟨?_, hinner, rfl⟩, rfl⟩
  · simp only [appendOr, writeFrameOr, hwrite]
  · rw [hcontents, hsmall (by simp [lenField, capacity])]

/-- Some part of the frame, but not all of it, is handed over if a later write
fails. -/
theorem appendOr_of_split
    (hlen : ¬ Strikes faults.len w.writer (lenField r).length)
    (hsplit : Strikes faults.crc (w.writer.writeAll (lenField r))
        (crcField crc32 r).length ∨
      ¬ Strikes faults.crc (w.writer.writeAll (lenField r))
          (crcField crc32 r).length ∧
        Strikes faults.body ((w.writer.writeAll (lenField r)).writeAll
          (crcField crc32 r)) r.encodeBody.length) :
    ∃ w' part, w.appendOr crc32 faults r = (w', none) ∧ Handed w w' part ∧
      part ≠ [] ∧ w'.len = w.len := by
  have hfield : lenField r ≠ [] := by
    intro hnil
    have hlength := congrArg List.length hnil
    simp [lenField] at hlength
  have hfirst := writeAllOr_of_not_strikes hlen
  rcases hsplit with hcrc | ⟨hcrc, hbody⟩
  · obtain ⟨writer, part, hwrite, hcontents, -, -, -, hinner⟩ :=
      writeAllOr_of_strikes hcrc
    refine ⟨{ w with writer }, lenField r ++ part, ?_, ⟨?_, ?_, rfl⟩, ?_,
      rfl⟩
    · simp only [appendOr, writeFrameOr, hfirst, hwrite]
    · rw [hcontents, contents_writeAll, List.append_assoc]
    · exact (inner_prefix_writeAll _ _).trans hinner
    · simp [hfield]
  · have hsecond := writeAllOr_of_not_strikes hcrc
    obtain ⟨writer, part, hwrite, hcontents, -, -, -, hinner⟩ :=
      writeAllOr_of_strikes hbody
    refine ⟨{ w with writer }, lenField r ++ (crcField crc32 r ++ part), ?_,
      ⟨?_, ?_, rfl⟩, ?_, rfl⟩
    · simp only [appendOr, writeFrameOr, hfirst, hsecond, hwrite]
    · rw [hcontents, contents_writeAll, contents_writeAll, List.append_assoc,
        List.append_assoc]
    · exact ((inner_prefix_writeAll _ _).trans
        (inner_prefix_writeAll _ _)).trans hinner
    · simp [hfield]

/-- Otherwise the frame is handed over and the counter advances, and the append
succeeds if the flush does. -/
theorem appendOr_of_whole (hbatch : w.batchMs = 0)
    (hlen : ¬ Strikes faults.len w.writer (lenField r).length)
    (hcrc : ¬ Strikes faults.crc (w.writer.writeAll (lenField r))
      (crcField crc32 r).length)
    (hbody : ¬ Strikes faults.body ((w.writer.writeAll (lenField r)).writeAll
      (crcField crc32 r)) r.encodeBody.length) :
    ∃ w' out, w.appendOr crc32 faults r = (w', out) ∧
      Handed w w' (frame crc32 r.encodeBody) ∧
      w'.len = w.len + (4 + (UInt32.ofNat (4 + r.encodeBody.length)).toNat) ∧
      (Breaks faults.flush (w.writeFrame crc32 r).writer.buf.length ∧
          out = none ∨
        out = some w'.len ∧ w'.writer.buf = []) := by
  have hframe : w.writeFrameOr crc32 faults r =
      (w.writeFrame crc32 r, true) := by
    simp only [writeFrameOr, writeAllOr_of_not_strikes hlen,
      writeAllOr_of_not_strikes hcrc, writeAllOr_of_not_strikes hbody]
    rfl
  have hinner : w.writer.inner <+: (w.writeFrame crc32 r).writer.inner :=
    ((inner_prefix_writeAll _ _).trans (inner_prefix_writeAll _ _)).trans
      (inner_prefix_writeAll _ _)
  have hflushBatch : (w.writeFrame crc32 r).batchMs = 0 := hbatch
  have hdirty : (w.writeFrame crc32 r).dirty = true := rfl
  simp only [appendOr, hframe, hflushBatch, if_true, flushOr, hdirty,
    BufferedWriter.flushOr]
  split_ifs with hbreaks
  · refine ⟨_, none, rfl, ⟨?_, hinner.trans (inner_prefix_drain _ _),
      hbatch.symm⟩, rfl, .inl ⟨hbreaks, rfl⟩⟩
    rw [contents_drain, contents_writeFrame]
  · refine ⟨_, some _, rfl, ⟨?_, ?_, hbatch.symm⟩, rfl,
      .inr ⟨rfl, rfl⟩⟩
    · rw [BufferedWriter.contents_flush, contents_writeFrame]
    · exact hinner.trans (List.prefix_append _ _)

end Wal

/-! ## Over a run -/

namespace AppendRun

variable {crc32 : Bytes → UInt32} {s : AppendRun} {faults : AppendFaults}
variable {r : WalRecord}

/-- Everything that was handed over is whole frames; the frames of `synced` have
reached the file, and what has been acknowledged is among them. -/
structure Books (crc32 : Bytes → UInt32) (s : AppendRun)
    (synced rest : List WalRecord) : Prop where
  fsync : s.wal.batchMs = 0
  contents : s.wal.writer.contents = Wal.logBytes crc32 (synced ++ rest)
  fits : ∀ r ∈ synced ++ rest, r.FitsFrame
  acked : s.acked.Sublist synced
  inner : Wal.logBytes crc32 synced <+: s.wal.writer.inner
  len : s.wal.len = s.wal.writer.contents.length

def Sound (crc32 : Bytes → UInt32) (s : AppendRun) : Prop :=
  ∃ synced rest, Books crc32 s synced rest

theorem sound_init {old : List WalRecord} (hold : ∀ r ∈ old, r.FitsFrame) :
    Sound crc32 { wal := Wal.open (some (Wal.logBytes crc32 old)) 0
                  acked := old } := by
  refine ⟨old, [], rfl, ?_, ?_, List.Sublist.refl _, List.prefix_refl _, ?_⟩
  · rw [Wal.contents_open, List.append_nil]
    rfl
  · rwa [List.append_nil]
  · rw [Wal.contents_open]
    rfl

/-- What is recovered from the file and any part of the buffer. -/
theorem Sound.recovers (h : Sound crc32 s) (k : ℕ) :
    ∃ rs e file, Wal.recover crc32
        (some (s.wal.writer.inner ++ s.wal.writer.buf.take k)) =
          .ok ((rs, e), file) ∧ s.acked.Sublist rs := by
  obtain ⟨synced, rest, hfsync, hcontents, hfits, hacked, hinner, -⟩ := h
  set all := synced ++ rest with hall
  set file := s.wal.writer.inner ++ s.wal.writer.buf.take k with hfile
  have hpre : file <+: Wal.logBytes crc32 all := by
    rw [← hcontents, BufferedWriter.contents, hfile,
      List.prefix_append_right_inj]
    exact List.take_prefix _ _
  have hsynced : Wal.logBytes crc32 synced <+: file :=
    hinner.trans (List.prefix_append _ _)
  obtain ⟨i, -, t, htake, ht, -, hnext⟩ :=
    Wal.exists_take_logBytes hfits hpre.length_le
  have hrecover := @Wal.recover_logBytes_append crc32 (all.take i)
    (fun r hr => hfits r (List.mem_of_mem_take hr)) t ht
  rw [← htake, ← List.prefix_iff_eq_take.mp hpre] at hrecover
  refine ⟨all.take i, _, _, hrecover, hacked.trans ?_⟩
  -- a cut behind the synced frames leaves them whole
  have hi : synced.length ≤ i := by
    by_contra hlt
    push Not at hlt
    have hshort := hnext (by
      rw [hall, List.length_append]
      omega)
    rw [hall, List.take_append_of_le_length
      (show i + 1 ≤ synced.length from hlt)] at hshort
    have hlogs : Wal.logBytes crc32 (synced.take (i + 1)) <+:
        Wal.logBytes crc32 synced := by
      conv_rhs => rw [← List.take_append_drop (i + 1) synced]
      rw [Wal.logBytes_append]
      exact List.prefix_append _ _
    have hle := hlogs.length_le
    have hle' := hsynced.length_le
    omega
  rw [hall, List.take_append, List.take_of_length_le hi]
  exact List.sublist_append_left _ _

theorem logBytes_singleton (r : WalRecord) :
    Wal.logBytes crc32 [r] = frame crc32 r.encodeBody := by
  rw [Wal.logBytes_eq]
  simp

/-- An append that is not split keeps the books. -/
theorem Sound.append (h : Sound crc32 s)
    (hunsplit : faults.Unsplit crc32 s.wal r) :
    Sound crc32 (s.append crc32 faults r) ∧
      ∀ n, (s.wal.appendOr crc32 faults r).2 = some n →
        n = (s.wal.appendOr crc32 faults r).1.offset ∧
          n = (s.wal.appendOr crc32 faults r).1.writer.inner.length := by
  obtain ⟨synced, rest, hfsync, hcontents, hfits, hacked, hinner, hlen⟩ := h
  by_cases hrefused : Strikes faults.len s.wal.writer (Wal.lenField r).length
  · obtain ⟨w', happend, hhanded, hlen'⟩ :=
      Wal.appendOr_of_refused hrefused
    rw [AppendRun.append, happend]
    refine ⟨⟨synced, rest, ?_, ?_, hfits, hacked, ?_, ?_⟩,
      fun n hn => by simp at hn⟩
    · exact hhanded.batchMs.trans hfsync
    · rw [hhanded.contents, List.append_nil, hcontents]
    · exact hinner.trans hhanded.inner
    · rw [hlen', hlen, hhanded.contents, List.append_nil]
  · obtain ⟨hr, hcrc, hbody⟩ := hunsplit hrefused
    obtain ⟨w', out, happend, hhanded, hlen', hout⟩ :=
      Wal.appendOr_of_whole hfsync hrefused hcrc hbody
    have hcontents' : w'.writer.contents =
        Wal.logBytes crc32 (synced ++ (rest ++ [r])) := by
      rw [hhanded.contents, hcontents, ← List.append_assoc,
        Wal.logBytes_append (synced ++ rest), logBytes_singleton]
    have hfits' : ∀ x ∈ synced ++ (rest ++ [r]), x.FitsFrame := by
      intro x hx
      rw [← List.append_assoc] at hx
      rcases List.mem_append.mp hx with hx | hx
      · exact hfits x hx
      · rwa [List.mem_singleton.mp hx]
    have hcounted : w'.len = w'.writer.contents.length := by
      rw [hlen', hlen, hhanded.contents, List.length_append, length_frame,
        lengthField_of_fits ((WalRecord.fits_iff r).mpr hr)]
      omega
    have hfsync' : w'.batchMs = 0 := hhanded.batchMs.trans hfsync
    rw [AppendRun.append, happend]
    rcases hout with ⟨-, rfl⟩ | ⟨rfl, hbuf⟩
    · exact ⟨⟨synced, rest ++ [r], hfsync', hcontents', hfits', hacked,
        hinner.trans hhanded.inner, hcounted⟩, fun n hn => by simp at hn⟩
    · have hwhole : w'.writer.inner = w'.writer.contents :=
        (contents_of_buf_nil hbuf).symm
      refine ⟨⟨synced ++ (rest ++ [r]), [], hfsync', ?_, ?_, ?_, ?_,
        hcounted⟩, fun n hn => ?_⟩
      · rw [List.append_nil]
        exact hcontents'
      · rwa [List.append_nil]
      · rw [← List.append_assoc]
        exact (hacked.trans (List.sublist_append_left _ _)).append
          (List.Sublist.refl _)
      · rw [hwhole, hcontents']
      · rw [← Option.some.inj hn]
        exact ⟨rfl, by rw [hwhole, hcounted]⟩

theorem Run.sound
    (h : Run crc32 (fun w faults r => faults.Unsplit crc32 w r) s) :
    Sound crc32 s := by
  induction h with
  | init old hold => exact sound_init hold
  | append faults r _ hunsplit ih => exact (ih.append hunsplit).1

end AppendRun

/-! ## A frame that is split -/

namespace Wal

variable {crc32 : Bytes → UInt32} {faults : AppendFaults} {w : Wal}
variable {r : WalRecord}

/-- The counter never gets ahead of what was handed over, it falls behind with a
split frame, and after a success everything is in the file. -/
theorem appendOr_counts (hbatch : w.batchMs = 0) :
    ∃ w' out, w.appendOr crc32 faults r = (w', out) ∧ w'.batchMs = 0 ∧
      w.writer.contents.length + w'.len ≤
        w'.writer.contents.length + w.len ∧
      (¬ faults.Unsplit crc32 w r → w.writer.contents.length + w'.len <
        w'.writer.contents.length + w.len) ∧
      (∀ n, out = some n → n = w'.len ∧
        w'.writer.inner.length = w'.writer.contents.length) := by
  by_cases hlen : Strikes faults.len w.writer (lenField r).length
  · obtain ⟨w', happend, hhanded, hlen'⟩ :=
      appendOr_of_refused hlen
    refine ⟨w', none, happend, hhanded.batchMs.trans hbatch, ?_,
      fun hsplit => absurd (fun hnot => absurd hlen hnot) hsplit,
      fun n hn => by simp at hn⟩
    rw [hhanded.contents, List.append_nil, hlen']
  by_cases hparts :
      Strikes faults.crc (w.writer.writeAll (lenField r))
        (crcField crc32 r).length ∨
      ¬ Strikes faults.crc (w.writer.writeAll (lenField r))
          (crcField crc32 r).length ∧
        Strikes faults.body ((w.writer.writeAll (lenField r)).writeAll
          (crcField crc32 r)) r.encodeBody.length
  · obtain ⟨w', part, happend, hhanded, hpart, hlen'⟩ :=
      appendOr_of_split hlen hparts
    have hpos := List.length_pos_of_ne_nil hpart
    have hlength := congrArg List.length hhanded.contents
    rw [List.length_append] at hlength
    refine ⟨w', none, happend, hhanded.batchMs.trans hbatch, by omega,
      fun _ => by omega, fun n hn => by simp at hn⟩
  · rw [not_or, not_and] at hparts
    obtain ⟨hcrc, hbody⟩ := hparts
    obtain ⟨w', out, happend, hhanded, hlen', hout⟩ :=
      appendOr_of_whole hbatch hlen hcrc (hbody hcrc)
    have hlength := congrArg List.length hhanded.contents
    rw [List.length_append, length_frame] at hlength
    have hfield : (UInt32.ofNat (4 + r.encodeBody.length)).toNat ≤
        4 + r.encodeBody.length := by
      rw [UInt32.toNat_ofNat']
      exact Nat.mod_le _ _
    refine ⟨w', out, happend, hhanded.batchMs.trans hbatch, by omega, ?_, ?_⟩
    · intro hsplit
      -- only the length field can be wrong
      have hwrap : ¬ r.FitsFrame := fun hr =>
        hsplit fun _ => ⟨hr, hcrc, hbody hcrc⟩
      have hlong : 2 ^ 32 ≤ 4 + r.encodeBody.length := Nat.not_lt.mp hwrap
      have hmod : (UInt32.ofNat (4 + r.encodeBody.length)).toNat < 2 ^ 32 :=
        UInt32.toNat_lt _
      omega
    · rintro n rfl
      rcases hout with ⟨-, hnone⟩ | ⟨hsome, hbuf⟩
      · simp at hnone
      · rw [contents_of_buf_nil hbuf]
        exact ⟨Option.some.inj hsome, rfl⟩

/-- One append after the other. -/
def appendAllOr (crc32 : Bytes → UInt32) (w : Wal)
    (appends : List (AppendFaults × WalRecord)) : Wal :=
  appends.foldl (fun w a => (w.appendOr crc32 a.1 a.2).1) w

/-- Once the counter is behind, every append that succeeds returns an offset
before the end of the file. -/
theorem offset_lt_of_behind (hbatch : w.batchMs = 0)
    (hbehind : w.len < w.writer.contents.length)
    (later : List (AppendFaults × WalRecord)) {n : ℕ}
    (hn : ((w.appendAllOr crc32 later).appendOr crc32 faults r).2 = some n) :
    n < ((w.appendAllOr crc32 later).appendOr crc32 faults
      r).1.writer.inner.length := by
  induction later generalizing w with
  | nil =>
    obtain ⟨w', out, happend, -, hcounts, -, hout⟩ :=
      @appendOr_counts crc32 faults w r hbatch
    simp only [appendAllOr, List.foldl_nil, happend] at hn ⊢
    obtain ⟨rfl, hinner⟩ := hout n hn
    omega
  | cons a later ih =>
    obtain ⟨w', out, happend, hbatch', hcounts, -, -⟩ :=
      appendOr_counts hbatch
    refine ih (w := (w.appendOr crc32 a.1 a.2).1) ?_ ?_ hn
    · rw [happend]
      exact hbatch'
    · rw [happend]
      dsimp only
      omega

end Wal

/-- Failed appends harm no other append as long as none is split; after the
first one that is split, every success returns a wrong offset. -/
theorem faultsHarmless_of_unsplit (crc32 : Bytes → UInt32) :
    FaultsHarmless crc32 (fun w faults r => faults.Unsplit crc32 w r) ∧
      ∀ s, AppendRun.Run crc32 (fun w faults r => faults.Unsplit crc32 w r) s →
        ∀ faults r, ¬ faults.Unsplit crc32 s.wal r →
        ∀ later faults' r' n,
          (((s.wal.appendOr crc32 faults r).1.appendAllOr crc32
            later).appendOr crc32 faults' r').2 = some n →
          n ≠ (((s.wal.appendOr crc32 faults r).1.appendAllOr crc32
            later).appendOr crc32 faults' r').1.writer.inner.length := by
  constructor
  · intro s hrun
    exact ⟨hrun.sound.recovers,
      fun faults r n hunsplit => (hrun.sound.append hunsplit).2 n⟩
  · intro s hrun faults r hsplit later faults' r' n hn
    obtain ⟨synced, rest, hbooks⟩ := hrun.sound
    obtain ⟨w', out, happend, hbatch, -, hbehind, -⟩ :=
      Wal.appendOr_counts hbooks.fsync
    rw [happend] at hn ⊢
    have hlt := hbehind hsplit
    have hlen := hbooks.len
    exact (Wal.offset_lt_of_behind hbatch (by omega) later hn).ne

namespace LargeRecord

def noFaults : AppendFaults :=
  { len := ⟨none, none⟩, crc := ⟨none, none⟩, body := ⟨none, none⟩
    flush := none }

/-- A body as large as the buffer, and nothing of it gets through. -/
def bodyFault : AppendFaults :=
  { noFaults with body := ⟨none, some 0⟩ }

def large : WalRecord where
  op := .upsert
  hlc := Hlc.new 1 0
  id := 1
  vector := List.replicate 2048 0
  payload := []

def small : WalRecord where
  op := .delete
  hlc := Hlc.new 2 0
  id := 2
  vector := []
  payload := []

theorem split (crc32 : Bytes → UInt32) (w : Wal) :
    ¬ bodyFault.Unsplit crc32 w large := by
  intro hunsplit
  obtain ⟨-, -, hbody⟩ := hunsplit (by simp [Strikes, Breaks, bodyFault,
    noFaults])
  have hlength : large.vector.length = 2048 := List.length_replicate
  refine hbody (.inr ⟨?_, ?_⟩) <;> rw [WalRecord.length_encodeBody, hlength]
  · rw [capacity]
    omega
  · simp [Breaks, bodyFault]

theorem appendOr_noFaults (crc32 : Bytes → UInt32) {w : Wal}
    (hbatch : w.batchMs = 0) (r : WalRecord) :
    ∃ n, (w.appendOr crc32 noFaults r).2 = some n := by
  obtain ⟨w', out, happend, -, -, hout⟩ :=
    @Wal.appendOr_of_whole crc32 noFaults w r hbatch
      (by simp [Strikes, Breaks, noFaults])
      (by simp [Strikes, Breaks, noFaults])
      (by simp [Strikes, Breaks, noFaults])
  rw [happend]
  rcases hout with ⟨hbreaks, -⟩ | ⟨hsome, -⟩
  · simp [Breaks, noFaults] at hbreaks
  · exact ⟨w'.len, hsome⟩

end LargeRecord

open LargeRecord in
/-- A large record fails, and the next one succeeds: the offset does not count
the header that the first one has left behind. -/
theorem not_faultsHarmless :
    ¬ ∃ crc32, FaultsHarmless crc32 fun _ _ _ => True := by
  rintro ⟨crc32, hall⟩
  have hinit : AppendRun.Run crc32 (fun _ _ _ => True)
      { wal := Wal.open (some (Wal.logBytes crc32 [])) 0, acked := [] } :=
    .init [] (by simp)
  have hrun := hinit.append bodyFault large trivial
  obtain ⟨w', out, happend, hbatch, -, hbehind, hout⟩ :=
    @Wal.appendOr_counts crc32 bodyFault
      (Wal.open (some (Wal.logBytes crc32 [])) 0) large rfl
  have hwal : (AppendRun.append crc32
      { wal := Wal.open (some (Wal.logBytes crc32 [])) 0, acked := [] }
      bodyFault large).wal = w' := by
    simp only [AppendRun.append, happend]
    rcases out with _ | n <;> rfl
  have hshort : w'.len < w'.writer.contents.length := by
    have hlt := hbehind (split crc32 _)
    rw [Wal.contents_open] at hlt
    have hopened : (Wal.open (some (Wal.logBytes crc32 [])) 0).len =
        (Wal.logBytes crc32 []).length := rfl
    rw [Option.getD_some] at hlt
    omega
  obtain ⟨n, hn⟩ := appendOr_noFaults crc32 hbatch small
  have hlt := Wal.offset_lt_of_behind hbatch hshort [] hn
  have hsame := (hall _ hrun).2 noFaults small n trivial (by rw [hwal, hn])
  rw [hwal] at hsame
  exact hlt.ne hsame.2

end Quorvec
