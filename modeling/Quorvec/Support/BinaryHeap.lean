import Mathlib

/-!
# Array-backed binary heaps

The heap is the list of its array cells; the children of cell `i` are the cells
`2 * i + 1` and `2 * i + 2`.  The order of the cells matters to whoever reads
the heap out unsorted, so the operations move elements exactly as the standard
library does: `push` sifts the new last cell up, and `pop` moves the last cell
to the root, sinks it to the bottom along the larger children, and sifts it up
from there.

Whatever the comparison, the operations neither lose nor invent elements.
-/

namespace BinaryHeap

variable {α : Type} (le : α → α → Bool)

/-- Compare two cells. -/
def cellLe (h : List α) (i j : ℕ) : Bool :=
  match h[i]?, h[j]? with
  | some a, some b => le a b
  | _, _ => true

/-- Swap the cell with its parent until it is not above it.  `fuel` bounds the
number of swaps; the position is bound enough. -/
def siftUp : ℕ → List α → ℕ → List α
  | 0, h, _ => h
  | fuel + 1, h, pos =>
      if pos = 0 then h
      else
        let parent := (pos - 1) / 2
        if cellLe le h pos parent then h
        else siftUp fuel (h.swap pos parent) parent

/-- Swap the cell with its larger child until it has no child.  Returns the
cell where it stops. -/
def sinkToBottom : ℕ → List α → ℕ → List α × ℕ
  | 0, h, pos => (h, pos)
  | fuel + 1, h, pos =>
      let child := 2 * pos + 1
      if child + 2 ≤ h.length then
        let child := if cellLe le h child (child + 1) then child + 1 else child
        sinkToBottom fuel (h.swap pos child) child
      else if child + 1 = h.length then (h.swap pos child, child)
      else (h, pos)

def push (h : List α) (x : α) : List α :=
  siftUp le h.length (h ++ [x]) h.length

/-- The root and the heap without it. -/
def pop (h : List α) : Option (α × List α) :=
  match h.getLast?, h.dropLast with
  | none, _ => none
  | some last, [] => some (last, [])
  | some last, top :: rest =>
      let (h, pos) := sinkToBottom le (rest.length + 1) (last :: rest) 0
      some (top, siftUp le (rest.length + 1) h pos)

/-- The root. -/
def peek (h : List α) : Option α := h.head?

variable {le}

theorem siftUp_perm (fuel : ℕ) (h : List α) (pos : ℕ) :
    (siftUp le fuel h pos).Perm h := by
  induction fuel generalizing h pos with
  | zero => exact List.Perm.refl h
  | succ fuel ih =>
      rw [siftUp]
      dsimp only
      split_ifs
      · exact List.Perm.refl h
      · exact List.Perm.refl h
      · exact (ih _ _).trans (List.swap_perm h _ _)

theorem sinkToBottom_perm (fuel : ℕ) (h : List α) (pos : ℕ) :
    (sinkToBottom le fuel h pos).1.Perm h := by
  induction fuel generalizing h pos with
  | zero => exact List.Perm.refl h
  | succ fuel ih =>
      rw [sinkToBottom]
      split_ifs
      · exact (ih _ _).trans (List.swap_perm h _ _)
      · exact (ih _ _).trans (List.swap_perm h _ _)
      · exact List.swap_perm h _ _
      · exact List.Perm.refl h

theorem push_perm (h : List α) (x : α) : (push le h x).Perm (x :: h) :=
  (siftUp_perm _ _ _).trans (List.perm_append_singleton x h)

@[simp] theorem length_push (h : List α) (x : α) :
    (push le h x).length = h.length + 1 :=
  (push_perm h x).length_eq

@[simp] theorem mem_push {h : List α} {x y : α} :
    y ∈ push le h x ↔ y = x ∨ y ∈ h :=
  (push_perm h x).mem_iff.trans List.mem_cons

theorem pop_perm {h h' : List α} {x : α} (hpop : pop le h = some (x, h')) :
    (x :: h').Perm h := by
  unfold pop at hpop
  rcases List.eq_nil_or_concat h with rfl | ⟨front, last, rfl⟩
  · simp at hpop
  · rw [List.concat_eq_append, List.getLast?_concat,
      List.dropLast_concat] at *
    cases front with
    | nil =>
        simp only [Option.some.injEq, Prod.mk.injEq] at hpop
        obtain ⟨rfl, rfl⟩ := hpop
        exact List.Perm.refl _
    | cons top rest =>
        simp only [Option.some.injEq, Prod.mk.injEq] at hpop
        obtain ⟨rfl, rfl⟩ := hpop
        have hsift := (@siftUp_perm _ le (rest.length + 1)
          (sinkToBottom le (rest.length + 1) (last :: rest) 0).1
          (sinkToBottom le (rest.length + 1) (last :: rest) 0).2).trans
          (sinkToBottom_perm _ _ _)
        exact (hsift.trans (List.perm_append_singleton last rest).symm).cons
          top

theorem length_of_pop {h h' : List α} {x : α}
    (hpop : pop le h = some (x, h')) : h'.length + 1 = h.length :=
  (pop_perm hpop).length_eq

theorem pop_eq_none_iff {h : List α} : pop le h = none ↔ h = [] := by
  unfold pop
  rcases List.eq_nil_or_concat h with rfl | ⟨front, last, rfl⟩
  · simp
  · rw [List.concat_eq_append, List.getLast?_concat, List.dropLast_concat]
    cases front <;> simp

end BinaryHeap
