import Mathlib

/-!
# Hybrid logical clock timestamps

A timestamp is a 48-bit wall clock in milliseconds and a 16-bit counter,
compared lexicographically.  Every constructor of the source masks or shifts
its arguments, so the two bounds are fields of the structure.

The packed 64-bit form is the wire form; it is a bijection and an order
isomorphism.
-/

namespace Quorvec

/-- The timestamp `(wall_ms, counter)`. -/
@[ext]
structure Hlc where
  wallMs : ℕ
  counter : ℕ
  wallMs_lt : wallMs < 2 ^ 48
  counter_lt : counter < 2 ^ 16
deriving DecidableEq, Repr

namespace Hlc

/-- The zero timestamp. -/
def zero : Hlc := ⟨0, 0, by decide, by decide⟩

/-- The end of the range. -/
def greatest : Hlc := ⟨2 ^ 48 - 1, 2 ^ 16 - 1, by decide, by decide⟩

/-- `Hlc::new`: the wall clock is masked to 48 bits; the counter is a `u16`. -/
def new (wallMs counter : ℕ) : Hlc where
  wallMs := wallMs &&& 0xFFFFFFFFFFFF
  counter := counter % 2 ^ 16
  wallMs_lt := lt_of_le_of_lt Nat.and_le_right (by decide)
  counter_lt := Nat.mod_lt _ (by decide)

/-- Wall clock in the high 48 bits, counter in the low 16 bits. -/
def pack (h : Hlc) : UInt64 :=
  ((UInt64.ofNat h.wallMs &&& 0xFFFFFFFFFFFF) <<< 16) |||
    UInt64.ofNat h.counter

/-- The inverse of `pack`. -/
def unpack (v : UInt64) : Hlc where
  wallMs := (v >>> 16).toNat
  counter := (v &&& 0xFFFF).toNat
  wallMs_lt := by
    have hv := v.toNat_lt
    rw [UInt64.toNat_shiftRight, Nat.shiftRight_eq_div_pow]
    exact Nat.div_lt_of_lt_mul hv
  counter_lt := by
    rw [UInt64.toNat_and]
    exact lt_of_le_of_lt Nat.and_le_right (by decide)

/-! ## Order -/

/-- The derived order: wall clock first, then counter. -/
instance : LinearOrder Hlc :=
  LinearOrder.lift' (fun h => toLex (h.wallMs, h.counter)) (by
    intro a b hab
    have hpair : (a.wallMs, a.counter) = (b.wallMs, b.counter) :=
      toLex.injective hab
    exact Hlc.ext (congrArg Prod.fst hpair) (congrArg Prod.snd hpair))

theorem lt_iff {a b : Hlc} :
    a < b ↔ a.wallMs < b.wallMs ∨
      a.wallMs = b.wallMs ∧ a.counter < b.counter :=
  Prod.Lex.toLex_lt_toLex

theorem le_iff {a b : Hlc} :
    a ≤ b ↔ a.wallMs < b.wallMs ∨
      a.wallMs = b.wallMs ∧ a.counter ≤ b.counter :=
  Prod.Lex.toLex_le_toLex

theorem zero_le (h : Hlc) : zero ≤ h := by
  rw [le_iff]
  show 0 < h.wallMs ∨ 0 = h.wallMs ∧ 0 ≤ h.counter
  omega

/-! ## The packed form -/

theorem wallMs_new (wallMs counter : ℕ) :
    (new wallMs counter).wallMs = wallMs % 2 ^ 48 :=
  Nat.and_two_pow_sub_one_eq_mod wallMs 48

@[simp] theorem counter_new (wallMs counter : ℕ) :
    (new wallMs counter).counter = counter % 2 ^ 16 := rfl

theorem toNat_pack (h : Hlc) :
    h.pack.toNat = h.wallMs * 2 ^ 16 + h.counter := by
  have hw := h.wallMs_lt
  have hc := h.counter_lt
  have hmask : h.wallMs &&& 0xFFFFFFFFFFFF = h.wallMs :=
    (Nat.and_two_pow_sub_one_eq_mod h.wallMs 48).trans (Nat.mod_eq_of_lt hw)
  have hwall : (UInt64.ofNat h.wallMs).toNat = h.wallMs :=
    UInt64.toNat_ofNat_of_lt' (lt_trans hw (by decide))
  have hcounter : (UInt64.ofNat h.counter).toNat = h.counter :=
    UInt64.toNat_ofNat_of_lt' (lt_trans hc (by decide))
  have hhigh : ((UInt64.ofNat h.wallMs &&& 0xFFFFFFFFFFFF) <<< 16).toNat =
      h.wallMs <<< 16 := by
    rw [UInt64.toNat_shiftLeft, UInt64.toNat_and, hwall]
    have hlit : (0xFFFFFFFFFFFF : UInt64).toNat = 0xFFFFFFFFFFFF := rfl
    have hshift : (16 : UInt64).toNat % 64 = 16 := rfl
    rw [hlit, hshift, hmask, Nat.shiftLeft_eq]
    exact Nat.mod_eq_of_lt (by omega)
  rw [pack, UInt64.toNat_or, hhigh, hcounter,
    ← Nat.shiftLeft_add_eq_or_of_lt hc, Nat.shiftLeft_eq]

@[simp] theorem wallMs_unpack (v : UInt64) :
    (unpack v).wallMs = v.toNat / 2 ^ 16 := by
  show (v >>> 16).toNat = v.toNat / 2 ^ 16
  have hshift : (16 : UInt64).toNat % 64 = 16 := rfl
  rw [UInt64.toNat_shiftRight, hshift, Nat.shiftRight_eq_div_pow]

@[simp] theorem counter_unpack (v : UInt64) :
    (unpack v).counter = v.toNat % 2 ^ 16 := by
  show (v &&& 0xFFFF).toNat = v.toNat % 2 ^ 16
  rw [UInt64.toNat_and]
  exact Nat.and_two_pow_sub_one_eq_mod v.toNat 16

@[simp] theorem unpack_pack (h : Hlc) : unpack h.pack = h := by
  have hc := h.counter_lt
  apply Hlc.ext
  · rw [wallMs_unpack, toNat_pack]
    omega
  · rw [counter_unpack, toNat_pack]
    omega

@[simp] theorem pack_unpack (v : UInt64) : (unpack v).pack = v := by
  apply UInt64.toNat.inj
  rw [toNat_pack, wallMs_unpack, counter_unpack]
  omega

theorem pack_lt_pack_iff {a b : Hlc} : a.pack < b.pack ↔ a < b := by
  have ha := a.counter_lt
  have hb := b.counter_lt
  rw [UInt64.lt_iff_toNat_lt, toNat_pack, toNat_pack, lt_iff]
  omega

end Hlc

/-! ## The clock -/

namespace HlcClock

/-- `HlcClock::wall_now_ms` on a reading of the system clock. -/
def wallNowMs (reading : ℕ) : ℕ := reading &&& 0xFFFFFFFFFFFF

/-- `HlcClock::now`: the next timestamp, which also becomes the clock's last
one.  `reading` is what the system clock shows. -/
def now (last : Hlc) (reading : ℕ) : Hlc :=
  let wall := wallNowMs reading
  if wall > last.wallMs then Hlc.new wall 0
  -- the counter is bumped, and carries into the wall clock when saturated
  else if last.counter + 1 < 2 ^ 16 then
    Hlc.new last.wallMs (last.counter + 1)
  else Hlc.new (last.wallMs + 1) 0

/-- `u16::saturating_add(1)`. -/
def saturatingSucc (counter : ℕ) : ℕ := min (counter + 1) (2 ^ 16 - 1)

/-- `HlcClock::update`: the receive rule. -/
def update (last : Hlc) (reading : ℕ) (remote : Hlc) : Hlc :=
  let wall := wallNowMs reading
  let maxWall := max (max wall last.wallMs) remote.wallMs
  if maxWall = last.wallMs ∧ maxWall = remote.wallMs then
    Hlc.new maxWall (saturatingSucc (max last.counter remote.counter))
  else if maxWall = last.wallMs then
    Hlc.new maxWall (saturatingSucc last.counter)
  else if maxWall = remote.wallMs then
    Hlc.new maxWall (saturatingSucc remote.counter)
  else Hlc.new maxWall 0

/-! ### Order of the stamps -/

section Order

variable {last remote h : Hlc} {reading : ℕ}

theorem wallNowMs_lt (reading : ℕ) : wallNowMs reading < 2 ^ 48 :=
  lt_of_le_of_lt Nat.and_le_right (by decide)

/-- The clock issues the wall clock if that is ahead, and else the successor
of the last timestamp, which wraps around at the end of the range. -/
theorem now_cases (last : Hlc) (reading : ℕ) :
    last.wallMs < wallNowMs reading ∧
        (now last reading).wallMs = wallNowMs reading ∧
        (now last reading).counter = 0 ∨
      wallNowMs reading ≤ last.wallMs ∧ last.counter + 1 < 2 ^ 16 ∧
        (now last reading).wallMs = last.wallMs ∧
        (now last reading).counter = last.counter + 1 ∨
      wallNowMs reading ≤ last.wallMs ∧ last.counter + 1 = 2 ^ 16 ∧
        (now last reading).wallMs = (last.wallMs + 1) % 2 ^ 48 ∧
        (now last reading).counter = 0 := by
  have hreading := wallNowMs_lt reading
  have hwall := last.wallMs_lt
  have hcounter := last.counter_lt
  unfold now
  dsimp only
  split_ifs with hahead hbump
  · left
    rw [Hlc.wallMs_new, Nat.mod_eq_of_lt hreading]
    exact ⟨hahead, rfl, rfl⟩
  · right
    left
    rw [Hlc.wallMs_new, Nat.mod_eq_of_lt hwall, Hlc.counter_new,
      Nat.mod_eq_of_lt hbump]
    exact ⟨not_lt.mp hahead, hbump, rfl, rfl⟩
  · right
    right
    rw [Hlc.wallMs_new]
    exact ⟨not_lt.mp hahead, by omega, rfl, rfl⟩

/-- The stamps that the next one exceeds: unless the clock is at the end of its
range, those up to the last one, and those with an earlier wall clock. -/
theorem lt_now_iff :
    h < now last reading ↔ last ≠ Hlc.greatest ∧
      (h ≤ last ∨ h.wallMs < wallNowMs reading) := by
  have hgreatest : last = Hlc.greatest ↔
      last.wallMs = 2 ^ 48 - 1 ∧ last.counter = 2 ^ 16 - 1 := Hlc.ext_iff
  have hreading := wallNowMs_lt reading
  have hwall := last.wallMs_lt
  have hcounter := last.counter_lt
  have hh := h.wallMs_lt
  have hhc := h.counter_lt
  rw [Hlc.lt_iff, Hlc.le_iff, ne_eq, hgreatest]
  rcases now_cases last reading with ⟨hahead, hw, hc⟩ |
    ⟨hbehind, hbump, hw, hc⟩ | ⟨hbehind, hfull, hw, hc⟩
  · rw [hw, hc]
    omega
  · rw [hw, hc]
    omega
  · rw [hw, hc]
    by_cases hend : last.wallMs + 1 = 2 ^ 48
    · rw [hend, Nat.mod_self]
      omega
    · rw [Nat.mod_eq_of_lt (by omega)]
      omega

theorem saturatingSucc_lt (counter : ℕ) : saturatingSucc counter < 2 ^ 16 := by
  unfold saturatingSucc
  omega

theorem parts_new {wallMs counter : ℕ} (hw : wallMs < 2 ^ 48)
    (hc : counter < 2 ^ 16) :
    (Hlc.new wallMs counter).wallMs = wallMs ∧
      (Hlc.new wallMs counter).counter = counter := by
  rw [Hlc.wallMs_new, Nat.mod_eq_of_lt hw, Hlc.counter_new,
    Nat.mod_eq_of_lt hc]
  exact ⟨rfl, rfl⟩

/-- The receive rule takes the wall clock if that is ahead, and else the
successor of the later timestamp, if its counter is not full. -/
theorem update_cases (last : Hlc) (reading : ℕ) (remote : Hlc) :
    (max last remote).wallMs < wallNowMs reading ∧
        (update last reading remote).wallMs = wallNowMs reading ∧
        (update last reading remote).counter = 0 ∨
      wallNowMs reading ≤ (max last remote).wallMs ∧
        (update last reading remote).wallMs = (max last remote).wallMs ∧
        (update last reading remote).counter =
          saturatingSucc (max last remote).counter := by
  have hreading := wallNowMs_lt reading
  have hlast := last.wallMs_lt
  have hremote := remote.wallMs_lt
  have hwall : max (max (wallNowMs reading) last.wallMs) remote.wallMs <
      2 ^ 48 := by omega
  -- the later timestamp
  have hmax : last ≤ remote ∧ max last remote = remote ∨
      remote < last ∧ max last remote = last := by
    rcases le_or_gt last remote with h | h
    · exact .inl ⟨h, max_eq_right h⟩
    · exact .inr ⟨h, max_eq_left h.le⟩
  rw [Hlc.le_iff, Hlc.lt_iff] at hmax
  unfold update
  dsimp only
  split_ifs with hboth hleft hright
  · obtain ⟨hw, hc⟩ := parts_new hwall
      (saturatingSucc_lt (max last.counter remote.counter))
    right
    rw [hw, hc]
    rcases hmax with ⟨hle, heq⟩ | ⟨hlt, heq⟩ <;> rw [heq]
    · rw [max_eq_right (a := last.counter) (by omega)]
      omega
    · rw [max_eq_left (a := last.counter) (by omega)]
      omega
  · obtain ⟨hw, hc⟩ := parts_new hwall (saturatingSucc_lt last.counter)
    right
    rw [hw, hc]
    rcases hmax with ⟨hle, heq⟩ | ⟨hlt, heq⟩ <;> rw [heq]
    · omega
    · omega
  · obtain ⟨hw, hc⟩ := parts_new hwall (saturatingSucc_lt remote.counter)
    right
    rw [hw, hc]
    rcases hmax with ⟨hle, heq⟩ | ⟨hlt, heq⟩ <;> rw [heq]
    · omega
    · omega
  · obtain ⟨hw, hc⟩ := parts_new hwall (show 0 < 2 ^ 16 by decide)
    left
    rw [hw, hc]
    rcases hmax with ⟨hle, heq⟩ | ⟨hlt, heq⟩ <;> rw [heq]
    · omega
    · omega

theorem max_le_update : max last remote ≤ update last reading remote := by
  have hcounter := (max last remote).counter_lt
  rw [Hlc.le_iff]
  rcases update_cases last reading remote with ⟨hahead, hw, hc⟩ |
    ⟨hbehind, hw, hc⟩
  · rw [hw]
    exact .inl hahead
  · rw [hw, hc]
    unfold saturatingSucc
    omega

/-- The receive rule goes beyond both stamps, or stays at the end of a
millisecond. -/
theorem le_update : last ≤ update last reading remote ∧
    remote ≤ update last reading remote :=
  ⟨(le_max_left last remote).trans max_le_update,
    (le_max_right last remote).trans max_le_update⟩

end Order

end HlcClock

end Quorvec
