import Mathlib

/-!
# Rows of a flat list

A list of rows of one width, stored end to end.
-/

namespace RowMajor

variable {α : Type*} {width : ℕ} {flat : List α}

/-- The row with number `i`. -/
def row (width : ℕ) (flat : List α) (i : ℕ) : List α :=
  (flat.drop (i * width)).take width

/-- Overwrite the row with number `i`. -/
def setRow (width : ℕ) (flat : List α) (i : ℕ) (v : List α) : List α :=
  flat.take (i * width) ++ v ++ flat.drop ((i + 1) * width)

section SetRow

variable {i : ℕ} {v : List α} (h : (i + 1) * width ≤ flat.length)
  (hv : v.length = width)

include h hv

theorem length_setRow : (setRow width flat i v).length = flat.length := by
  rw [Nat.add_mul, Nat.one_mul] at h
  rw [setRow, List.length_append, List.length_append, List.length_take,
    List.length_drop, Nat.add_mul, Nat.one_mul]
  omega

theorem row_setRow_self : row width (setRow width flat i v) i = v := by
  have htake : (flat.take (i * width)).length = i * width := by
    rw [Nat.add_mul, Nat.one_mul] at h
    rw [List.length_take]
    omega
  rw [row, setRow, List.append_assoc, List.drop_left' htake,
    List.take_left' hv]

/-- The other rows stay. -/
theorem row_setRow_of_ne {j : ℕ} (hj : j ≠ i) :
    row width (setRow width flat i v) j = row width flat j := by
  rw [Nat.add_mul, Nat.one_mul] at h
  have htake : (flat.take (i * width)).length = i * width := by
    rw [List.length_take]
    omega
  apply List.ext_getElem?
  intro k
  rw [row, row, List.getElem?_take, List.getElem?_take]
  by_cases hk : k < width
  · rw [if_pos hk, if_pos hk, List.getElem?_drop, List.getElem?_drop, setRow]
    rcases Nat.lt_or_gt_of_ne hj with hlt | hgt
    · -- before the row
      have hrow : (j + 1) * width ≤ i * width := Nat.mul_le_mul_right _ hlt
      rw [Nat.add_mul, Nat.one_mul] at hrow
      rw [List.append_assoc, List.getElem?_append_left (by omega),
        List.getElem?_take, if_pos (by omega)]
    · -- behind it
      have hrow : (i + 1) * width ≤ j * width := Nat.mul_le_mul_right _ hgt
      have hlen : (flat.take (i * width) ++ v).length = (i + 1) * width := by
        rw [List.length_append, htake, hv, Nat.add_mul, Nat.one_mul]
      rw [List.getElem?_append_right (by omega), hlen, List.getElem?_drop]
      congr 1
      omega
  · rw [if_neg hk, if_neg hk]

end SetRow

theorem row_append_of_le {i : ℕ} (h : (i + 1) * width ≤ flat.length)
    (v : List α) : row width (flat ++ v) i = row width flat i := by
  rw [Nat.add_mul, Nat.one_mul] at h
  rw [row, row, List.drop_append_of_le_length (by omega),
    List.take_append_of_le_length (by rw [List.length_drop]; omega)]

theorem row_append_length {n : ℕ} (h : flat.length = n * width) {v : List α}
    (hv : v.length = width) : row width (flat ++ v) n = v := by
  rw [row, ← h, List.drop_left, ← hv, List.take_length]

end RowMajor
