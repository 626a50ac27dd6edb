import Quorvec.Support.ByteCodec

/-!
# A buffered writer

The writer keeps up to `capacity` bytes back before it hands them to the file
underneath.  A write that does not fit first empties the buffer, and a write as
large as the whole buffer bypasses it.  Whatever the sizes, the bytes of the
file followed by the buffered ones are the bytes written so far.
-/

namespace ByteCodec

/-- `inner` is what the file holds, `buf` what is kept back; 8192 bytes is the
buffer size of the standard library. -/
@[ext]
structure BufferedWriter where
  inner : Bytes
  buf : Bytes
  bounded : buf.length ≤ 8192
deriving DecidableEq

namespace BufferedWriter

def capacity : ℕ := 8192

/-- A writer at the end of a file. -/
def new (file : Bytes) : BufferedWriter := ⟨file, [], Nat.zero_le _⟩

/-- Hand the buffered bytes to the file. -/
def flush (w : BufferedWriter) : BufferedWriter :=
  ⟨w.inner ++ w.buf, [], Nat.zero_le _⟩

/-- Empty the buffer if `n` more bytes do not fit. -/
def makeRoom (w : BufferedWriter) (n : ℕ) : BufferedWriter :=
  if n > capacity - w.buf.length then w.flush else w

theorem length_buf_makeRoom (w : BufferedWriter) {n : ℕ}
    (hn : n < capacity) : (w.makeRoom n).buf.length + n ≤ capacity := by
  have hw : w.buf.length ≤ capacity := w.bounded
  unfold makeRoom
  split_ifs with hfull
  · simp only [flush, List.length_nil]
    omega
  · omega

/-- Keep the data back. -/
def push (w : BufferedWriter) (data : Bytes)
    (h : w.buf.length + data.length ≤ capacity) : BufferedWriter :=
  ⟨w.inner, w.buf ++ data, by rwa [List.length_append]⟩

def writeAll (w : BufferedWriter) (data : Bytes) : BufferedWriter :=
  if _h : data.length < capacity - w.buf.length then
    w.push data (by omega)
  else if hlarge : data.length ≥ capacity then
    let w := w.makeRoom data.length
    { w with inner := w.inner ++ data }
  else
    (w.makeRoom data.length).push data
      (length_buf_makeRoom w (Nat.lt_of_not_le hlarge))

/-- Everything written so far. -/
def contents (w : BufferedWriter) : Bytes := w.inner ++ w.buf

@[simp] theorem contents_new (file : Bytes) : (new file).contents = file :=
  List.append_nil file

@[simp] theorem inner_new (file : Bytes) : (new file).inner = file := rfl

@[simp] theorem buf_new (file : Bytes) : (new file).buf = [] := rfl

@[simp] theorem contents_flush (w : BufferedWriter) :
    w.flush.contents = w.contents :=
  List.append_nil _

@[simp] theorem inner_flush (w : BufferedWriter) :
    w.flush.inner = w.contents := rfl

@[simp] theorem buf_flush (w : BufferedWriter) : w.flush.buf = [] := rfl

@[simp] theorem contents_makeRoom (w : BufferedWriter) (n : ℕ) :
    (w.makeRoom n).contents = w.contents := by
  unfold makeRoom
  split_ifs
  · exact contents_flush w
  · rfl

@[simp] theorem contents_push (w : BufferedWriter) (data : Bytes)
    (h : w.buf.length + data.length ≤ capacity) :
    (w.push data h).contents = w.contents ++ data :=
  (List.append_assoc _ _ _).symm

theorem contents_of_buf_nil {w : BufferedWriter} (h : w.buf = []) :
    w.contents = w.inner := by
  rw [contents, h, List.append_nil]

theorem buf_makeRoom_of_large (w : BufferedWriter) {n : ℕ}
    (hn : n ≥ capacity) : (w.makeRoom n).buf = [] := by
  unfold makeRoom
  split_ifs with hfull
  · rfl
  · apply List.eq_nil_of_length_eq_zero
    have hcapacity : capacity = 8192 := rfl
    omega

@[simp] theorem contents_writeAll (w : BufferedWriter) (data : Bytes) :
    (w.writeAll data).contents = w.contents ++ data := by
  unfold writeAll
  split_ifs with hfits hlarge
  · exact contents_push w data _
  · have hempty := buf_makeRoom_of_large w hlarge
    have hinner : (w.makeRoom data.length).inner = w.contents := by
      rw [← contents_of_buf_nil hempty, contents_makeRoom]
    rw [← hinner]
    exact contents_of_buf_nil hempty
  · rw [contents_push, contents_makeRoom]

/-- Writing only adds to the file. -/
theorem inner_isPrefix_writeAll (w : BufferedWriter) (data : Bytes) :
    w.inner <+: (w.writeAll data).inner := by
  have hroom : ∀ n, w.inner <+: (w.makeRoom n).inner := by
    intro n
    unfold makeRoom
    split_ifs
    · exact List.prefix_append _ _
    · exact List.prefix_rfl
  unfold writeAll
  split_ifs
  · exact List.prefix_rfl
  · exact (hroom _).trans (List.prefix_append _ _)
  · exact hroom _

/-- A write that is smaller than the buffer is kept back, if only for the
moment. -/
theorem buf_writeAll_of_small (w : BufferedWriter) {data : Bytes}
    (hpos : 0 < data.length) (hsmall : data.length < capacity) :
    (w.writeAll data).buf ≠ [] := by
  have hpush : ∀ (w : BufferedWriter) h, (w.push data h).buf ≠ [] := by
    intro w h hnil
    rw [push, List.append_eq_nil_iff] at hnil
    exact List.ne_nil_of_length_pos hpos hnil.2
  unfold writeAll
  split_ifs with hfits hlarge
  · exact hpush _ _
  · omega
  · exact hpush _ _

theorem buf_writeAll_of_large (w : BufferedWriter) {data : Bytes}
    (hlarge : capacity ≤ data.length) : (w.writeAll data).buf = [] := by
  unfold writeAll
  rw [dif_neg (by omega), dif_pos hlarge]
  exact buf_makeRoom_of_large w hlarge

end BufferedWriter

end ByteCodec
