import Quorvec.Storage.Hints

/-!
# Reading a hint file that is cut anywhere

The codec of hints is lossless and canonical.  A hint file cut at any byte reads
as the hints whose frames lie wholly before the cut, provided that the framed
length of every hint fits its field: what is read back never has a longer frame.
-/

namespace Quorvec

open ByteCodec Framing

namespace HintLog

variable {crc32 : Bytes → UInt32}

theorem fitsFrame_of_readAll {file : Option Bytes} {hints : List Hint}
    (h : readAll crc32 file = .ok hints) : ∀ x ∈ hints, x.FitsFrame := by
  obtain ⟨rs, t, hfile, hrs, ht⟩ := exists_frames_append crc32
    Hint.encodeHint Hint.Encodable (file.getD [])
  have hfits : ∀ x ∈ rs, x.FitsFrame := fun x hx =>
    (Hint.fits_iff x).mp (hrs x hx)
  rw [readAll_of_frames hfile hfits ht, Except.ok.injEq] at h
  exact h ▸ hfits

/-- Reading a cut file gives the hints whose frames lie wholly before the
cut. -/
def ReadsBefore (crc32 : Bytes → UInt32) (hints : List Hint) (k : ℕ) : Prop :=
  ∃ i ≤ hints.length,
    readAll crc32 (some ((logBytes crc32 hints).take k)) =
      .ok (hints.take i) ∧
    (logBytes crc32 (hints.take i)).length ≤ k ∧
    (i < hints.length → k < (logBytes crc32 (hints.take (i + 1))).length)

theorem readsBefore_of_fits {hints : List Hint}
    (hfits : ∀ h ∈ hints, h.FitsFrame) {k : ℕ}
    (hk : k ≤ (logBytes crc32 hints).length) : ReadsBefore crc32 hints k := by
  obtain ⟨i, hi, t, htake, ht, hle, hlt⟩ := exists_take_frames
    (fun h hh => (Hint.fits_iff h).mpr (hfits h hh)) hk
  refine ⟨i, hi, ?_, hle, hlt⟩
  refine readAll_of_frames ?_
    (fun h hh => hfits h (List.mem_of_mem_take hh)) ht
  rw [Option.getD_some]
  exact htake

theorem fits_of_readsBefore {hints : List Hint}
    (h : ReadsBefore crc32 hints (logBytes crc32 hints).length) :
    ∀ x ∈ hints, x.FitsFrame := by
  obtain ⟨i, hi, hread, -, hlt⟩ := h
  have hall : hints.take i = hints := by
    apply List.take_of_length_le
    by_contra! hshort
    have hcut := hlt hshort
    have hmore : logBytes crc32 hints =
        logBytes crc32 (hints.take (i + 1)) ++
          logBytes crc32 (hints.drop (i + 1)) := by
      rw [← logBytes_append, List.take_append_drop]
    rw [hmore, List.length_append] at hcut
    omega
  rw [hall] at hread
  exact fitsFrame_of_readAll hread

/-- The codec of hints is lossless and canonical, and a cut file reads as the
hints before the cut, for every cut, if and only if every frame fits. -/
theorem hintCodec_exact (crc32 : Bytes → UInt32) (hints : List Hint) :
    (∀ h : Hint, h.Encodable → Hint.decodeHint h.encodeHint = .ok (some h)) ∧
    (∀ b : Bytes, ∃ o, Hint.decodeHint b = .ok o ∧
      ∀ h, o = some h → h.encodeHint = b) ∧
    ((∀ k ≤ (logBytes crc32 hints).length, ReadsBefore crc32 hints k) ↔
      ∀ h ∈ hints, h.FitsFrame) := by
  refine ⟨fun h hh => ?_, fun b => ?_, fun h => ?_, fun h k hk => ?_⟩
  · exact (Hint.bodyCodec.accepts _ _).mpr ⟨hh, rfl⟩
  · obtain ⟨o, ho⟩ := Hint.bodyCodec.total b
    refine ⟨o, ho, ?_⟩
    rintro h rfl
    exact ((Hint.bodyCodec.accepts b h).mp ho).2
  · exact fits_of_readsBefore (h _ le_rfl)
  · exact readsBefore_of_fits h hk

/-- A delete with a payload. -/
def deleteHint (payload : Bytes) : Hint where
  targetNode := 1
  collection := ""
  shardIdx := 0
  op := .delete
  hlc := .zero
  id := 7
  vector := []
  payload := payload

theorem length_deleteHint (payload : Bytes) :
    4 + (deleteHint payload).encodeHint.length = 45 + payload.length := by
  rw [Hint.length_encodeHint]
  have hname : (utf8 (deleteHint payload).collection).length = 0 := by
    simp [deleteHint, utf8]
  have hvector : (deleteHint payload).vector.length = 0 := rfl
  have hpayload : (deleteHint payload).payload = payload := rfl
  rw [hpayload]
  omega

/-- A payload that fits its own count, but not the frame: the hint can be
encoded, and its file reads as something else. -/
theorem not_readsBefore_oversized : ∃ payload : Bytes,
    payload.length = 2 ^ 32 - 45 ∧ (deleteHint payload).Encodable ∧
      ∀ crc32 : Bytes → UInt32,
        ¬ ∀ k ≤ (logBytes crc32 [deleteHint payload]).length,
          ReadsBefore crc32 [deleteHint payload] k := by
  obtain ⟨payload, hpayload⟩ : ∃ payload : Bytes,
      payload.length = 2 ^ 32 - 45 :=
    ⟨List.replicate _ 0, List.length_replicate⟩
  have hlength := length_deleteHint payload
  refine ⟨payload, hpayload, ?_, fun crc32 h => ?_⟩
  · have henc := Hint.length_encodeHint (deleteHint payload)
    have hcount : (deleteHint payload).payload = payload := rfl
    rw [hcount] at henc
    refine ⟨by omega, by omega, ?_⟩
    rw [hcount]
    omega
  · have hfits := fits_of_readsBefore (h _ le_rfl) _
      (List.mem_singleton_self _)
    rw [Hint.FitsFrame] at hfits
    omega

end HintLog

end Quorvec
