import Mathlib

/-!
# Little-endian integers and bounded byte readers

A reader walks a fixed buffer with a position, the way hand-written binary
decoders do: before each field it compares the remaining length with the
field's length, then slices.  Slicing is checked, so that a reader which goes
past the end of its buffer is a fault of the reader and not a rejection of the
input.

`Inverts r enc dom` says that `r` is the exact inverse of the encoder `enc` on
`dom`: it never faults, it accepts precisely the buffers that continue with an
encoding, and it consumes precisely that encoding.  The law is closed under
sequencing, so a decoder is verified field by field.
-/

namespace ByteCodec

abbrev Bytes := List UInt8

/-! ## Computing with `Except` -/

section

variable {ε α β : Type}

@[simp] theorem ok_bind (x : α) (f : α → Except ε β) :
    (Except.ok x >>= f) = f x := rfl

@[simp] theorem error_bind (e : ε) (f : α → Except ε β) :
    (Except.error e >>= f) = .error e := rfl

@[simp] theorem pure_eq_ok (x : α) :
    (Pure.pure x : Except ε α) = .ok x := rfl

end

/-! ## Fixed-width little-endian integers -/

/-- The `n` low-order bytes of `x`, least significant byte first. -/
def toLeBytes : ℕ → ℕ → Bytes
  | 0, _ => []
  | n + 1, x => UInt8.ofNat x :: toLeBytes n (x / 256)

/-- The integer whose little-endian bytes are given. -/
def fromLeBytes : Bytes → ℕ
  | [] => 0
  | b :: bs => b.toNat + 256 * fromLeBytes bs

@[simp] theorem length_toLeBytes (n x : ℕ) : (toLeBytes n x).length = n := by
  induction n generalizing x with
  | zero => rfl
  | succ n ih => simp [toLeBytes, ih]

theorem fromLeBytes_toLeBytes (n x : ℕ) :
    fromLeBytes (toLeBytes n x) = x % 256 ^ n := by
  induction n generalizing x with
  | zero => simp [toLeBytes, fromLeBytes, Nat.mod_one]
  | succ n ih =>
      have hbyte : (UInt8.ofNat x).toNat = x % 256 := by simp
      rw [toLeBytes, fromLeBytes, ih, hbyte, pow_succ', Nat.mod_mul]

theorem fromLeBytes_toLeBytes_of_lt {n x : ℕ} (hx : x < 256 ^ n) :
    fromLeBytes (toLeBytes n x) = x := by
  rw [fromLeBytes_toLeBytes, Nat.mod_eq_of_lt hx]

theorem fromLeBytes_lt (bs : Bytes) :
    fromLeBytes bs < 256 ^ bs.length := by
  induction bs with
  | nil => simp [fromLeBytes]
  | cons b bs ih =>
      have hb : b.toNat < 256 := b.toNat_lt
      rw [fromLeBytes, List.length_cons, pow_succ']
      omega

theorem toLeBytes_fromLeBytes (bs : Bytes) :
    toLeBytes bs.length (fromLeBytes bs) = bs := by
  induction bs with
  | nil => rfl
  | cons b bs ih =>
      have hb : b.toNat < 256 := b.toNat_lt
      have hlow : UInt8.ofNat (b.toNat + 256 * fromLeBytes bs) = b := by
        apply UInt8.toNat.inj
        simp
      have hhigh :
          (b.toNat + 256 * fromLeBytes bs) / 256 = fromLeBytes bs := by
        omega
      rw [fromLeBytes, List.length_cons, toLeBytes, hlow, hhigh, ih]

theorem toLeBytes_fromLeBytes_of_length {bs : Bytes} {n : ℕ}
    (hn : bs.length = n) : toLeBytes n (fromLeBytes bs) = bs := by
  subst hn
  exact toLeBytes_fromLeBytes bs

/-- The bytes of an array of `w`-byte integers. -/
def encodeArray (w : ℕ) (xs : List ℕ) : Bytes :=
  xs.flatMap (toLeBytes w)

@[simp] theorem length_encodeArray (w : ℕ) (xs : List ℕ) :
    (encodeArray w xs).length = xs.length * w := by
  simp [encodeArray, List.length_flatMap]

/-- The bytes of an array of `u32`. -/
def encodeU32s (xs : List UInt32) : Bytes :=
  xs.flatMap fun x => toLeBytes 4 x.toNat

@[simp] theorem length_encodeU32s (xs : List UInt32) :
    (encodeU32s xs).length = xs.length * 4 := by
  simp [encodeU32s, List.length_flatMap]

/-- `str::as_bytes`. -/
def utf8 (s : String) : Bytes := s.toByteArray.data.toList

theorem fromUTF8_eq_some_iff {bs : Bytes} {s : String} :
    String.fromUTF8? ⟨bs.toArray⟩ = some s ↔ utf8 s = bs := by
  have hbytes : s.toByteArray = ⟨bs.toArray⟩ ↔ utf8 s = bs := by
    rw [ByteArray.ext_iff, utf8, ← Array.toList_inj]
  rw [← hbytes, String.fromUTF8?]
  split_ifs with hvalid
  · rw [Option.some.injEq, ← String.toByteArray_inj]
    exact eq_comm
  · constructor
    · exact fun h => absurd h (by simp)
    · exact fun h => absurd (h ▸ s.isValidUTF8) hvalid

/-! ## Checked access -/

/-- The fault of an access outside its buffer. -/
inductive OutOfRange
  | panic
deriving DecidableEq, Repr

/-- The slice `buf[lo..hi]`, which faults unless `lo ≤ hi ≤ buf.len()`. -/
def slice (buf : Bytes) (lo hi : ℕ) : Except OutOfRange Bytes :=
  if lo ≤ hi ∧ hi ≤ buf.length then .ok ((buf.drop lo).take (hi - lo))
  else .error .panic

theorem slice_of_le {buf : Bytes} {lo n : ℕ} (h : lo + n ≤ buf.length) :
    slice buf lo (lo + n) = .ok ((buf.drop lo).take n) := by
  have hrange : lo ≤ lo + n ∧ lo + n ≤ buf.length := ⟨by omega, h⟩
  rw [slice, if_pos hrange, Nat.add_sub_cancel_left]

/-- A slice that starts where a known chunk is the next thing in the buffer
returns that chunk. -/
theorem slice_of_isPrefix {buf chunk : Bytes} {lo : ℕ}
    (hlo : lo ≤ buf.length) (h : chunk <+: buf.drop lo) :
    slice buf lo (lo + chunk.length) = .ok chunk := by
  have hlen := h.length_le
  rw [List.length_drop] at hlen
  rw [slice_of_le (by omega), ← List.prefix_iff_eq_take.mp h]

/-- The `w`-byte little-endian integer at `lo`. -/
def readLe (buf : Bytes) (lo w : ℕ) : Except OutOfRange ℕ :=
  return fromLeBytes (← slice buf lo (lo + w))

theorem readLe_of_isPrefix {buf chunk : Bytes} {lo w : ℕ}
    (hw : chunk.length = w) (hlo : lo ≤ buf.length)
    (h : chunk <+: buf.drop lo) :
    readLe buf lo w = .ok (fromLeBytes chunk) := by
  subst hw
  simp [readLe, slice_of_isPrefix hlo h]

theorem readLe_of_le {buf : Bytes} {lo w : ℕ} (h : lo + w ≤ buf.length) :
    readLe buf lo w = .ok (fromLeBytes ((buf.drop lo).take w)) := by
  simp [readLe, slice_of_le h]

/-! ## Readers -/

/-- From a buffer and a position a reader faults, rejects the buffer (`none`),
or returns a value and the position after it. -/
def Reader (α : Type) : Type :=
  Bytes → ℕ → Except OutOfRange (Option (α × ℕ))

namespace Reader

variable {α β : Type}

protected def pure (x : α) : Reader α := fun _ p => .ok (some (x, p))

protected def bind (r : Reader α) (f : α → Reader β) : Reader β :=
  fun buf p =>
    match r buf p with
    | .error e => .error e
    | .ok none => .ok none
    | .ok (some (x, q)) => f x buf q

instance : Monad Reader where
  pure := Reader.pure
  bind := Reader.bind

instance : LawfulMonad Reader := by
  refine LawfulMonad.mk' Reader ?_ ?_ ?_
  · intro α r
    funext buf p
    show Reader.bind r _ buf p = r buf p
    rcases h : r buf p with e | _ | ⟨x, q⟩ <;> simp only [Reader.bind, h]
    rfl
  · intro α β x f
    rfl
  · intro α β γ r f g
    funext buf p
    show Reader.bind (Reader.bind r f) g buf p =
      Reader.bind r (fun x => Reader.bind (f x) g) buf p
    rcases h : r buf p with e | _ | ⟨x, q⟩ <;> simp [Reader.bind, h]

/-- Reject the buffer. -/
def reject : Reader α := fun _ _ => .ok none

/-- Convert the value read, or reject the buffer. -/
def convert (f : α → Option β) (r : Reader α) : Reader β := do
  match f (← r) with
  | some y => return y
  | none => reject

/-- Two values, one behind the other. -/
def pair (r : Reader α) (s : Reader β) : Reader (α × β) := do
  let x ← r
  let y ← s
  return (x, y)

/-- The next `n` bytes, after checking that so many remain. -/
def bytes (n : ℕ) : Reader Bytes := fun buf p =>
  if p + n ≤ buf.length then
    return some (← slice buf p (p + n), p + n)
  else
    return none

/-- The next `w`-byte little-endian integer. -/
def uint (w : ℕ) : Reader ℕ := do
  return fromLeBytes (← bytes w)

/-- The element loop of `array`: `n` consecutive `w`-byte integers, sliced with
no further length check. -/
def arrayLoop (buf : Bytes) (w : ℕ) :
    ℕ → ℕ → Except OutOfRange (List ℕ × ℕ)
  | 0, p => return ([], p)
  | n + 1, p => do
      let x ← readLe buf p w
      let (xs, q) ← arrayLoop buf w n (p + w)
      return (x :: xs, q)

/-- `n` consecutive `w`-byte little-endian integers, after one check that all
their bytes remain. -/
def array (n w : ℕ) : Reader (List ℕ) := fun buf p =>
  if p + n * w ≤ buf.length then
    return some (← arrayLoop buf w n p)
  else
    return none

/-- The next `u32`. -/
def u32 : Reader UInt32 := do
  return UInt32.ofNat (← uint 4)

/-- The next `u64`. -/
def u64 : Reader UInt64 := do
  return UInt64.ofNat (← uint 8)

/-- A `u32` count and so many items behind it. -/
def counted (r : ℕ → Reader α) : Reader α := do
  let n ← uint 4
  r n

/-- `String::from_utf8` of the next `n` bytes. -/
def string (n : ℕ) : Reader String :=
  convert (fun bs => String.fromUTF8? ⟨bs.toArray⟩) (bytes n)

/-- The next `n` values of type `u32`. -/
def u32s (n : ℕ) : Reader (List UInt32) := do
  return (← array n 4).map UInt32.ofNat

/-- Run a reader from the start of a buffer and require that it consumes the
whole buffer. -/
def whole (r : Reader α) (buf : Bytes) : Except OutOfRange (Option α) := do
  match ← r buf 0 with
  | none => return none
  | some (x, p) => return if p = buf.length then some x else none

end Reader

/-! ## Exact readers -/

/-- `r` is the exact inverse of `enc` on `dom`. -/
structure Inverts {α : Type} (r : Reader α) (enc : α → Bytes)
    (dom : α → Prop) : Prop where
  total : ∀ buf p, ∃ o, r buf p = .ok o
  sound : ∀ {buf p x q}, r buf p = .ok (some (x, q)) →
    dom x ∧ enc x <+: buf.drop p ∧ q = p + (enc x).length
  complete : ∀ {buf p x}, p ≤ buf.length → dom x → enc x <+: buf.drop p →
    r buf p = .ok (some (x, p + (enc x).length))

namespace Inverts

variable {α β : Type}

theorem append_prefix_drop_iff {a b buf : Bytes} {p : ℕ} :
    a ++ b <+: buf.drop p ↔
      a <+: buf.drop p ∧ b <+: buf.drop (p + a.length) := by
  constructor
  · rintro ⟨t, ht⟩
    refine ⟨⟨b ++ t, by rw [← ht, List.append_assoc]⟩, ⟨t, ?_⟩⟩
    rw [← List.drop_drop, ← ht]
    simp
  · rintro ⟨⟨s, hs⟩, ⟨t, ht⟩⟩
    have hs' : s = buf.drop (p + a.length) := by
      rw [← List.drop_drop, ← hs]
      simp
    exact ⟨t, by rw [List.append_assoc, ht, ← hs', hs]⟩

theorem position_le {enc buf : Bytes} {p : ℕ} (hp : p ≤ buf.length)
    (h : enc <+: buf.drop p) : p + enc.length ≤ buf.length := by
  have hlen := h.length_le
  rw [List.length_drop] at hlen
  omega

theorem pure (x : α) :
    Inverts (Reader.pure x) (fun _ => []) (fun y => y = x) where
  total _ p := ⟨some (x, p), rfl⟩
  sound := by
    intro buf p y q h
    simp only [Reader.pure, Except.ok.injEq, Option.some.injEq,
      Prod.mk.injEq] at h
    exact ⟨h.1.symm, List.nil_prefix, by simp [h.2]⟩
  complete := by
    rintro buf p y - rfl -
    rfl

theorem reject {enc : α → Bytes} :
    Inverts (Reader.reject : Reader α) enc (fun _ => False) where
  total _ _ := ⟨none, rfl⟩
  sound := by
    intro buf p x q h
    simp [Reader.reject] at h
  complete := by
    intro buf p x _ h
    exact h.elim

/-- Sequencing.  The value `y` read by the whole determines, through `proj`,
the value of the first reader. -/
theorem bind {r : Reader α} {enc : α → Bytes} {dom : α → Prop}
    {f : α → Reader β} {rest : β → Bytes} {D : β → Prop}
    (proj : β → α) (hr : Inverts r enc dom)
    (hf : ∀ x, dom x → Inverts (f x) rest (fun y => D y ∧ proj y = x)) :
    Inverts (r >>= f) (fun y => enc (proj y) ++ rest y)
      (fun y => dom (proj y) ∧ D y) where
  total := by
    intro buf p
    obtain ⟨o, ho⟩ := hr.total buf p
    cases o with
    | none => exact ⟨none, by simp [Bind.bind, Reader.bind, ho]⟩
    | some xq =>
        obtain ⟨x, q⟩ := xq
        obtain ⟨o', ho'⟩ := (hf x (hr.sound ho).1).total buf q
        exact ⟨o', by simp [Bind.bind, Reader.bind, ho, ho']⟩
  sound := by
    intro buf p y q h
    obtain ⟨o, ho⟩ := hr.total buf p
    cases o with
    | none => simp [Bind.bind, Reader.bind, ho] at h
    | some xq =>
        obtain ⟨x, q₁⟩ := xq
        have hx := hr.sound ho
        have hy : f x buf q₁ = .ok (some (y, q)) := by
          simpa [Bind.bind, Reader.bind, ho] using h
        obtain ⟨⟨hD, rfl⟩, hpre, hq⟩ := (hf x hx.1).sound hy
        refine ⟨⟨hx.1, hD⟩, ?_, ?_⟩
        · rw [append_prefix_drop_iff, ← hx.2.2]
          exact ⟨hx.2.1, hpre⟩
        · rw [hq, hx.2.2, List.length_append, Nat.add_assoc]
  complete := by
    rintro buf p y hp ⟨hdom, hD⟩ hpre
    rw [append_prefix_drop_iff] at hpre
    have hfirst := hr.complete hp hdom hpre.1
    have hsecond := (hf (proj y) hdom).complete
      (position_le hp hpre.1) ⟨hD, rfl⟩ hpre.2
    simp [Bind.bind, Reader.bind, hfirst, hsecond, Nat.add_assoc]

/-- Two readings of the same law: the encoder and the domain may be replaced
by equal ones on the domain. -/
theorem congr {r : Reader α} {enc enc' : α → Bytes} {dom dom' : α → Prop}
    (h : Inverts r enc dom) (hdom : ∀ x, dom' x ↔ dom x)
    (henc : ∀ x, dom x → enc' x = enc x) : Inverts r enc' dom' where
  total := h.total
  sound := by
    intro buf p x q hr
    obtain ⟨hx, hpre, hq⟩ := h.sound hr
    rw [henc x hx]
    exact ⟨(hdom x).mpr hx, hpre, hq⟩
  complete := by
    intro buf p x hp hx hpre
    rw [henc x ((hdom x).mp hx)] at hpre ⊢
    exact h.complete hp ((hdom x).mp hx) hpre

/-- Post-composition with a bijection between two domains. -/
theorem map {r : Reader α} {enc : α → Bytes} {dom : α → Prop}
    {dom' : β → Prop} (h : Inverts r enc dom) (f : α → β) (g : β → α)
    (hf : ∀ x, dom x → dom' (f x) ∧ g (f x) = x)
    (hg : ∀ y, dom' y → dom (g y) ∧ f (g y) = y) :
    Inverts (do return f (← r)) (fun y => enc (g y)) dom' := by
  have hlast : ∀ x, dom x → Inverts (Reader.pure (f x)) (fun _ => [])
      (fun y => dom' y ∧ g y = x) := by
    intro x hx
    refine (Inverts.pure (f x)).congr (fun y => ?_) (fun _ _ => rfl)
    constructor
    · rintro ⟨hy, hxy⟩
      rw [← hxy]
      exact (hg y hy).2.symm
    · rintro rfl
      exact hf x hx
  refine (bind g h hlast).congr (fun y => ?_) (fun y _ => by simp)
  exact ⟨fun hy => ⟨(hg y hy).1, hy⟩, fun hy => hy.2⟩

/-- Two values that are read one behind the other. -/
theorem pair {r : Reader α} {s : Reader β} {enc : α → Bytes}
    {enc' : β → Bytes} {dom : α → Prop} {dom' : β → Prop}
    (hr : Inverts r enc dom) (hs : Inverts s enc' dom') :
    Inverts (r.pair s) (fun p => enc p.1 ++ enc' p.2)
      (fun p => dom p.1 ∧ dom' p.2) := by
  have hlast : ∀ x y, Inverts (Reader.pure (x, y)) (fun _ => [])
      (fun p : α × β => p.1 = x ∧ p.2 = y) := by
    intro x y
    refine (Inverts.pure (x, y)).congr (fun p => ?_) (fun _ _ => rfl)
    rw [Prod.ext_iff]
  have hsecond : ∀ x, dom x → Inverts (do
      let y ← s
      return (x, y)) (fun p : α × β => enc' p.2)
      (fun p => dom' p.2 ∧ p.1 = x) := fun x _ =>
    (hs.bind Prod.snd fun y _ => hlast x y).congr (fun _ => Iff.rfl)
      (fun p _ => (List.append_nil (enc' p.2)).symm)
  exact hr.bind Prod.fst hsecond

/-- A conversion that is defined exactly on the encodings of its values. -/
theorem convert {r : Reader α} {enc : α → Bytes} {dom : α → Prop}
    {dom' : β → Prop} (h : Inverts r enc dom) (f : α → Option β) (g : β → α)
    (hf : ∀ x, dom x → ∀ y, f x = some y ↔ dom' y ∧ g y = x)
    (hg : ∀ y, dom' y → dom (g y)) :
    Inverts (r.convert f) (fun y => enc (g y)) dom' := by
  have hlast : ∀ x, dom x → Inverts
      (match f x with
        | some y => Reader.pure y
        | none => Reader.reject)
      (fun _ => []) (fun y : β => dom' y ∧ g y = x) := by
    intro x hx
    cases hfx : f x with
    | some y =>
        refine (Inverts.pure y).congr (fun y' => ?_) (fun _ _ => rfl)
        rw [← hf x hx, hfx, Option.some.injEq, eq_comm]
    | none =>
        refine Inverts.reject.congr (fun y' => ?_) (fun _ _ => rfl)
        rw [← hf x hx, hfx]
        simp
  refine (h.bind g hlast).congr (fun y => ?_)
    (fun y _ => (List.append_nil _).symm)
  exact ⟨fun hy => ⟨hg y hy, hy⟩, fun hy => hy.2⟩

theorem bytes (n : ℕ) :
    Inverts (Reader.bytes n) id (fun bs => bs.length = n) where
  total := by
    intro buf p
    by_cases h : p + n ≤ buf.length
    · exact ⟨_, by simp [Reader.bytes, h, slice_of_le h]; rfl⟩
    · exact ⟨none, by simp [Reader.bytes, h]⟩
  sound := by
    intro buf p bs q hr
    by_cases h : p + n ≤ buf.length
    · simp only [Reader.bytes, if_pos h, slice_of_le h, ok_bind, pure_eq_ok,
        Except.ok.injEq,
        Option.some.injEq, Prod.mk.injEq] at hr
      obtain ⟨rfl, rfl⟩ := hr
      have hlen : ((buf.drop p).take n).length = n := by
        rw [List.length_take, List.length_drop]
        omega
      exact ⟨hlen, List.take_prefix _ _, by simp only [id, hlen]⟩
    · simp [Reader.bytes, h] at hr
  complete := by
    rintro buf p bs hp rfl hpre
    have hle := position_le hp hpre
    rw [id] at hpre hle ⊢
    simp [Reader.bytes, hle, slice_of_isPrefix hp hpre]

theorem uint (w : ℕ) :
    Inverts (Reader.uint w) (toLeBytes w) (fun x => x < 256 ^ w) :=
  (bytes w).map fromLeBytes (toLeBytes w)
    (fun bs hbs => ⟨hbs ▸ fromLeBytes_lt bs,
      toLeBytes_fromLeBytes_of_length hbs⟩)
    (fun _ hx => ⟨length_toLeBytes _ _, fromLeBytes_toLeBytes_of_lt hx⟩)

theorem arrayLoop_sound {buf : Bytes} {w : ℕ} :
    ∀ {n p : ℕ}, p + n * w ≤ buf.length →
      ∃ xs, Reader.arrayLoop buf w n p = .ok (xs, p + n * w) ∧
        xs.length = n ∧ (∀ x ∈ xs, x < 256 ^ w) ∧
        encodeArray w xs <+: buf.drop p := by
  intro n
  induction n with
  | zero =>
      intro p _
      exact ⟨[], by simp [Reader.arrayLoop],
        rfl, by simp, by simp [encodeArray]⟩
  | succ n ih =>
      intro p hp
      rw [Nat.succ_mul] at hp
      obtain ⟨xs, hloop, hlen, hlt, hpre⟩ := ih (p := p + w) (by omega)
      have hchunk : ((buf.drop p).take w).length = w := by
        rw [List.length_take, List.length_drop]
        omega
      refine ⟨fromLeBytes ((buf.drop p).take w) :: xs, ?_, by simp [hlen],
        ?_, ?_⟩
      · simp [Reader.arrayLoop, readLe_of_le (show p + w ≤ buf.length by omega),
          hloop]
        ring
      · intro x hx
        rcases List.mem_cons.mp hx with rfl | hx
        · have hlt := fromLeBytes_lt ((buf.drop p).take w)
          rwa [hchunk] at hlt
        · exact hlt x hx
      · rw [encodeArray, List.flatMap_cons,
          toLeBytes_fromLeBytes_of_length hchunk, append_prefix_drop_iff,
          hchunk]
        exact ⟨List.take_prefix _ _, hpre⟩

/-- Two arrays of one length with the same bytes are equal. -/
theorem encodeArray_injective {w : ℕ} {xs ys : List ℕ}
    (hlen : xs.length = ys.length) (hxs : ∀ x ∈ xs, x < 256 ^ w)
    (hys : ∀ y ∈ ys, y < 256 ^ w) (h : encodeArray w xs = encodeArray w ys) :
    xs = ys := by
  induction xs generalizing ys with
  | nil => exact (List.length_eq_zero_iff.mp hlen.symm).symm
  | cons x xs ih =>
      obtain ⟨y, ys, rfl⟩ := List.exists_cons_of_length_eq_add_one hlen.symm
      rw [encodeArray, encodeArray, List.flatMap_cons,
        List.flatMap_cons] at h
      obtain ⟨hhead, htail⟩ := List.append_inj h (by simp)
      have hxy : x = y := by
        rw [← fromLeBytes_toLeBytes_of_lt (hxs x List.mem_cons_self), hhead,
          fromLeBytes_toLeBytes_of_lt (hys y List.mem_cons_self)]
      rw [hxy, ih (Nat.succ.inj hlen)
        (fun x hx => hxs x (List.mem_cons_of_mem _ hx))
        (fun y hy => hys y (List.mem_cons_of_mem _ hy)) htail]

theorem array (n w : ℕ) :
    Inverts (Reader.array n w) (encodeArray w)
      (fun xs => xs.length = n ∧ ∀ x ∈ xs, x < 256 ^ w) where
  total := by
    intro buf p
    by_cases h : p + n * w ≤ buf.length
    · obtain ⟨xs, hloop, -⟩ := arrayLoop_sound h
      exact ⟨some (xs, p + n * w), by simp [Reader.array, h, hloop]⟩
    · exact ⟨none, by simp [Reader.array, h]⟩
  sound := by
    intro buf p xs q hr
    by_cases h : p + n * w ≤ buf.length
    · obtain ⟨ys, hloop, hlen, hlt, hpre⟩ := arrayLoop_sound h
      simp only [Reader.array, if_pos h, hloop, ok_bind, pure_eq_ok,
        Except.ok.injEq, Option.some.injEq,
        Prod.mk.injEq] at hr
      obtain ⟨rfl, rfl⟩ := hr
      exact ⟨⟨hlen, hlt⟩, hpre, by rw [length_encodeArray, hlen]⟩
    · simp [Reader.array, h] at hr
  complete := by
    rintro buf p xs hp ⟨rfl, hlt⟩ hpre
    have hle := position_le hp hpre
    rw [length_encodeArray] at hle ⊢
    obtain ⟨ys, hloop, hlen, hylt, hypre⟩ := arrayLoop_sound hle
    have hsame : encodeArray w xs = encodeArray w ys := by
      rw [List.prefix_iff_eq_take.mp hpre, List.prefix_iff_eq_take.mp hypre,
        length_encodeArray, length_encodeArray, hlen]
    rw [encodeArray_injective hlen.symm hlt hylt hsame]
    simp [Reader.array, hlen, hle, hloop]

theorem count :
    Inverts (Reader.uint 4) (fun n => toLeBytes 4 (UInt32.ofNat n).toNat)
      (fun n => n < 2 ^ 32) := by
  refine (uint 4).congr (fun n => Iff.rfl) (fun n hn => ?_)
  exact congrArg _ (UInt32.toNat_ofNat_of_lt' hn)

/-- Items behind their count. -/
theorem counted {r : ℕ → Reader α} {enc : α → Bytes} {len : α → ℕ}
    (h : ∀ n, Inverts (r n) enc (fun x => len x = n)) :
    Inverts (Reader.counted r)
      (fun x => toLeBytes 4 (UInt32.ofNat (len x)).toNat ++ enc x)
      (fun x => len x < 2 ^ 32) := by
  have hitems : ∀ n, n < 2 ^ 32 → Inverts (r n) enc
      (fun x => True ∧ len x = n) := fun n _ =>
    (h n).congr (fun _ => and_iff_right trivial) (fun _ _ => rfl)
  exact (count.bind len hitems).congr (fun _ => (and_iff_left trivial).symm)
    (fun _ _ => rfl)

theorem string (n : ℕ) :
    Inverts (Reader.string n) utf8 (fun s => (utf8 s).length = n) := by
  refine (bytes n).convert _ utf8 (fun bs hbs s => ?_) (fun _ hs => hs)
  rw [fromUTF8_eq_some_iff]
  constructor
  · rintro rfl
    exact ⟨hbs, rfl⟩
  · exact And.right

theorem u32 :
    Inverts Reader.u32 (fun x => toLeBytes 4 x.toNat) (fun _ => True) :=
  (uint 4).map UInt32.ofNat UInt32.toNat
    (fun _ hx => ⟨trivial, UInt32.toNat_ofNat_of_lt' hx⟩)
    (fun y _ => ⟨y.toNat_lt, UInt32.ofNat_toNat⟩)

theorem u64 :
    Inverts Reader.u64 (fun x => toLeBytes 8 x.toNat) (fun _ => True) :=
  (uint 8).map UInt64.ofNat UInt64.toNat
    (fun _ hx => ⟨trivial, UInt64.toNat_ofNat_of_lt' hx⟩)
    (fun y _ => ⟨y.toNat_lt, UInt64.ofNat_toNat⟩)

theorem u32s (n : ℕ) :
    Inverts (Reader.u32s n) encodeU32s (fun xs => xs.length = n) := by
  have hto : ∀ xs : List ℕ, xs.length = n ∧ (∀ x ∈ xs, x < 256 ^ 4) →
      (xs.map UInt32.ofNat).length = n ∧
        (xs.map UInt32.ofNat).map UInt32.toNat = xs := by
    rintro xs ⟨hlen, hlt⟩
    refine ⟨by rw [List.length_map, hlen], ?_⟩
    rw [List.map_map]
    exact (List.map_congr_left fun x hx =>
      UInt32.toNat_ofNat_of_lt' (hlt x hx)).trans (List.map_id xs)
  have hof : ∀ ys : List UInt32, ys.length = n →
      ((ys.map UInt32.toNat).length = n ∧
        ∀ x ∈ ys.map UInt32.toNat, x < 256 ^ 4) ∧
        (ys.map UInt32.toNat).map UInt32.ofNat = ys := by
    intro ys hys
    refine ⟨⟨by rw [List.length_map, hys], ?_⟩, ?_⟩
    · intro x hx
      obtain ⟨y, -, rfl⟩ := List.mem_map.mp hx
      exact y.toNat_lt
    · rw [List.map_map]
      exact (List.map_congr_left fun y _ => UInt32.ofNat_toNat).trans
        (List.map_id ys)
  refine ((array n 4).map _ _ hto hof).congr (fun _ => Iff.rfl)
    (fun ys _ => ?_)
  rw [encodeU32s, encodeArray, List.flatMap_map]

/-- A decoder of whole buffers accepts exactly the encodings. -/
theorem whole_eq_some_iff {r : Reader α} {enc : α → Bytes}
    {dom : α → Prop} (h : Inverts r enc dom) (buf : Bytes) (x : α) :
    r.whole buf = .ok (some x) ↔ dom x ∧ enc x = buf := by
  constructor
  · intro hw
    obtain ⟨o, ho⟩ := h.total buf 0
    cases o with
    | none => simp [Reader.whole, ho] at hw
    | some v =>
        obtain ⟨y, q⟩ := v
        obtain ⟨hy, hpre, hq⟩ := h.sound ho
        by_cases hend : q = buf.length
        · simp only [Reader.whole, ho, if_pos hend, ok_bind, pure_eq_ok,
        Except.ok.injEq,
            Option.some.injEq] at hw
          subst hw
          rw [List.drop_zero] at hpre
          exact ⟨hy, hpre.eq_of_length (by omega)⟩
        · simp [Reader.whole, ho, hend] at hw
  · rintro ⟨hx, rfl⟩
    have hr : r (enc x) 0 = .ok (some (x, 0 + (enc x).length)) :=
      h.complete (Nat.zero_le _) hx (by simp)
    simp [Reader.whole, hr]

theorem whole_total {r : Reader α} {enc : α → Bytes} {dom : α → Prop}
    (h : Inverts r enc dom) (buf : Bytes) : ∃ o, r.whole buf = .ok o := by
  obtain ⟨o, ho⟩ := h.total buf 0
  cases o with
  | none => exact ⟨none, by simp [Reader.whole, ho]⟩
  | some v => exact ⟨_, by simp [Reader.whole, ho]; rfl⟩

end Inverts

end ByteCodec
