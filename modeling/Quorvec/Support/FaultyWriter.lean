import Quorvec.Support.BufferedWriter

/-!
# A buffered writer over a file that may fail

A write to the file may fail after some of its bytes.  When the buffer is being
emptied, the bytes that did not get through stay buffered; when a large write
bypasses the buffer, they are lost.  A write that fails has handed over nothing
of its data or, if it bypasses the buffer, a proper prefix of it.
-/

namespace ByteCodec

/-- Where a write to the file fails, if it does: after how many bytes. -/
structure WriteFault where
  /-- While the buffer is emptied to make room. -/
  room : Option ℕ
  /-- While the data bypass the buffer. -/
  direct : Option ℕ

namespace BufferedWriter

/-- Handing over `n` bytes fails after fewer than `n`. -/
def Breaks (fault : Option ℕ) (n : ℕ) : Prop := fault.any (· < n)

instance (fault : Option ℕ) (n : ℕ) : Decidable (Breaks fault n) :=
  inferInstanceAs (Decidable (_ = true))

/-- The buffer was emptied up to the fault. -/
def drain (fault : Option ℕ) (w : BufferedWriter) : BufferedWriter :=
  ⟨w.inner ++ w.buf.take (fault.getD 0), w.buf.drop (fault.getD 0), by
    have hw := w.bounded
    rw [List.length_drop]
    omega⟩

/-- Hand the buffered bytes to the file; `false` if that fails. -/
def flushOr (fault : Option ℕ) (w : BufferedWriter) : BufferedWriter × Bool :=
  if Breaks fault w.buf.length then (w.drain fault, false) else (w.flush, true)

/-- The fault hits the write of `n` bytes. -/
def Strikes (fault : WriteFault) (w : BufferedWriter) (n : ℕ) : Prop :=
  (capacity - w.buf.length < n ∧ Breaks fault.room w.buf.length) ∨
    (capacity ≤ n ∧ Breaks fault.direct n)

instance (fault : WriteFault) (w : BufferedWriter) (n : ℕ) :
    Decidable (Strikes fault w n) :=
  inferInstanceAs (Decidable (_ ∨ _))

/-- Write the data; `false` if the file fails. -/
def writeAllOr (fault : WriteFault) (w : BufferedWriter) (data : Bytes) :
    BufferedWriter × Bool :=
  if capacity - w.buf.length < data.length ∧
      Breaks fault.room w.buf.length then (w.drain fault.room, false)
  else if capacity ≤ data.length ∧ Breaks fault.direct data.length then
    let w := w.makeRoom data.length
    ({ w with inner := w.inner ++ data.take (fault.direct.getD 0) }, false)
  else (w.writeAll data, true)

section Lemmas

variable {fault : WriteFault} {w : BufferedWriter} {data : Bytes}

@[simp] theorem contents_drain (fault : Option ℕ) (w : BufferedWriter) :
    (w.drain fault).contents = w.contents := by
  simp [drain, contents]

theorem inner_prefix_drain (fault : Option ℕ) (w : BufferedWriter) :
    w.inner <+: (w.drain fault).inner :=
  List.prefix_append _ _

theorem inner_prefix_makeRoom (w : BufferedWriter) (n : ℕ) :
    w.inner <+: (w.makeRoom n).inner := by
  unfold makeRoom
  split_ifs
  · exact List.prefix_append _ _
  · exact List.prefix_refl _

theorem inner_prefix_writeAll (w : BufferedWriter) (data : Bytes) :
    w.inner <+: (w.writeAll data).inner := by
  unfold writeAll
  split_ifs
  · exact List.prefix_refl _
  · exact (inner_prefix_makeRoom w _).trans (List.prefix_append _ _)
  · exact inner_prefix_makeRoom w _

theorem writeAllOr_of_not_strikes (h : ¬ Strikes fault w data.length) :
    w.writeAllOr fault data = (w.writeAll data, true) := by
  rw [Strikes, not_or] at h
  rw [writeAllOr, if_neg h.1, if_neg h.2]

/-- A write that fails has handed over a proper prefix of its data, and nothing
if the data do not bypass the buffer. -/
theorem writeAllOr_of_strikes (h : Strikes fault w data.length) :
    ∃ w' part, w.writeAllOr fault data = (w', false) ∧
      w'.contents = w.contents ++ part ∧ part <+: data ∧
      part.length < data.length ∧ (data.length < capacity → part = []) ∧
      w.inner <+: w'.inner := by
  rw [writeAllOr]
  split_ifs with hroom hdirect
  · refine ⟨w.drain fault.room, [], rfl, ?_, List.nil_prefix, ?_,
      fun _ => rfl, inner_prefix_drain _ _⟩
    · rw [contents_drain, List.append_nil]
    · rw [List.length_nil]
      exact Nat.zero_lt_of_lt hroom.1
  · obtain ⟨hlarge, hbreaks⟩ := hdirect
    have hempty := buf_makeRoom_of_large w hlarge
    refine ⟨_, data.take (fault.direct.getD 0), rfl, ?_,
      List.take_prefix _ _, ?_, fun hsmall => ?_, ?_⟩
    · rw [← contents_makeRoom w data.length]
      simp only [contents, hempty, List.append_nil]
    · rcases hfault : fault.direct with _ | j
      · simp [Breaks, hfault] at hbreaks
      · simp only [Breaks, hfault, Option.any_some, decide_eq_true_eq]
          at hbreaks
        rw [Option.getD_some, List.length_take]
        omega
    · exact absurd hsmall (Nat.not_lt.mpr hlarge)
    · exact (inner_prefix_makeRoom w _).trans (List.prefix_append _ _)
  · exact absurd h (not_or.mpr ⟨hroom, hdirect⟩)

end Lemmas

end BufferedWriter

end ByteCodec
