import Quorvec.Support.BinaryHeap
import Quorvec.Support.SortedLists

/-!
# The order of a binary heap

In a heap every cell is below its parent, so the root is the greatest element.
Sifting up repairs a heap that is out of order at one cell only, and sinking a
cell leaves a heap that is out of order where the cell stops.
-/

namespace BinaryHeap

open SortedLists

variable {α : Type} (le : α → α → Bool)

/-- Every cell is below its parent. -/
def IsHeap (h : List α) : Prop := ∀ i, 0 < i → cellLe le h i ((i - 1) / 2)

/-- The children of a cell are below its parent. -/
def Spans (h : List α) (pos : ℕ) : Prop :=
  0 < pos → ∀ i, 0 < i → (i - 1) / 2 = pos → cellLe le h i ((pos - 1) / 2)

/-- A heap, except that one cell may be above its parent. -/
structure UpOrder (h : List α) (pos : ℕ) : Prop where
  other : ∀ i, 0 < i → i ≠ pos → cellLe le h i ((i - 1) / 2)
  spans : Spans le h pos

/-- A heap, except that one cell is out of order with its parent and its
children. -/
structure SinkOrder (h : List α) (pos : ℕ) : Prop where
  other : ∀ i, 0 < i → i ≠ pos → (i - 1) / 2 ≠ pos →
    cellLe le h i ((i - 1) / 2)
  spans : Spans le h pos

variable {le} {h : List α} {pos : ℕ}

/-! ## Comparing cells -/

theorem getElem?_swap {p q : ℕ} (hp : p < h.length) (hq : q < h.length)
    (k : ℕ) : (h.swap p q)[k]? = h[Equiv.swap p q k]? := by
  rw [List.swap_eq_of_lt hp hq]
  by_cases hkq : k = q
  · rw [hkq, Equiv.swap_apply_right,
      List.getElem?_set_self (by rwa [List.length_set]),
      List.getElem?_eq_getElem hp]
  · rw [List.getElem?_set_ne (Ne.symm hkq)]
    by_cases hkp : k = p
    · rw [hkp, Equiv.swap_apply_left, List.getElem?_set_self hp,
        List.getElem?_eq_getElem hq]
    · rw [List.getElem?_set_ne (Ne.symm hkp),
        Equiv.swap_apply_of_ne_of_ne hkp hkq]

theorem cellLe_swap {p q : ℕ} (hp : p < h.length) (hq : q < h.length)
    (i j : ℕ) : cellLe le (h.swap p q) i j =
      cellLe le h (Equiv.swap p q i) (Equiv.swap p q j) := by
  rw [cellLe, cellLe, getElem?_swap hp hq, getElem?_swap hp hq]

theorem cellLe_trans (hle : PreorderOn le h) {i j k : ℕ} (hj : j < h.length)
    (hij : cellLe le h i j) (hjk : cellLe le h j k) : cellLe le h i k := by
  unfold cellLe at *
  rw [List.getElem?_eq_getElem hj] at hij hjk
  cases hi : h[i]? with
  | none => rfl
  | some a =>
      cases hk : h[k]? with
      | none => rfl
      | some c =>
          rw [hi] at hij
          rw [hk] at hjk
          exact hle.trans a (List.mem_of_getElem? hi) _ (List.getElem_mem hj)
            c (List.mem_of_getElem? hk) hij hjk

theorem cellLe_of_not (hle : PreorderOn le h) {i j : ℕ}
    (hij : ¬ cellLe le h i j) : cellLe le h j i := by
  unfold cellLe at *
  cases hi : h[i]? with
  | none => simp [hi] at hij
  | some a =>
      cases hj : h[j]? with
      | none => rfl
      | some b =>
          have htotal := hle.total a (List.mem_of_getElem? hi) b
            (List.mem_of_getElem? hj)
          rw [hi, hj] at hij
          simpa [hij] using htotal

theorem cellLe_of_length_le {i : ℕ} (hi : h.length ≤ i) (j : ℕ) :
    cellLe le h i j := by
  rw [cellLe, List.getElem?_eq_none hi]

/-! ## Sifting up -/

theorem preorderOn_swap (hle : PreorderOn le h) (p q : ℕ) :
    PreorderOn le (h.swap p q) :=
  hle.mono (List.swap_perm h p q).subset

/-- A cell above its parent changes places with it. -/
theorem UpOrder.step (hle : PreorderOn le h) (o : UpOrder le h pos)
    (hpos : 0 < pos) (hlt : pos < h.length)
    (hnot : ¬ cellLe le h pos ((pos - 1) / 2)) :
    UpOrder le (h.swap pos ((pos - 1) / 2)) ((pos - 1) / 2) := by
  set parent := (pos - 1) / 2 with hparent
  have hless : parent < pos := by omega
  have hswap := @cellLe_swap α le h pos parent hlt (hless.trans hlt)
  have hdown := cellLe_of_not hle hnot
  constructor
  · intro i hi hne
    rw [hswap]
    by_cases hi' : i = pos
    · rwa [hi', ← hparent, Equiv.swap_apply_left, Equiv.swap_apply_right]
    · rw [Equiv.swap_apply_of_ne_of_ne hi' hne]
      by_cases hchild : (i - 1) / 2 = pos
      · rw [hchild, Equiv.swap_apply_left]
        exact o.spans hpos i hi hchild
      · have hcell := o.other i hi hi'
        by_cases hsibling : (i - 1) / 2 = parent
        · rw [hsibling] at hcell ⊢
          rw [Equiv.swap_apply_right]
          exact cellLe_trans hle (hless.trans hlt) hcell hdown
        · rwa [Equiv.swap_apply_of_ne_of_ne hchild hsibling]
  · intro htop i hi hchild
    have hgrand : (parent - 1) / 2 < parent := by omega
    have habove := o.other parent htop hless.ne
    rw [hswap, Equiv.swap_apply_of_ne_of_ne (by omega) hgrand.ne]
    by_cases hi' : i = pos
    · rwa [hi', Equiv.swap_apply_left]
    · rw [Equiv.swap_apply_of_ne_of_ne hi' (by omega)]
      have hcell := o.other i hi hi'
      rw [hchild] at hcell
      exact cellLe_trans hle (hless.trans hlt) hcell habove

theorem UpOrder.isHeap (o : UpOrder le h pos)
    (hpos : 0 < pos → cellLe le h pos ((pos - 1) / 2)) : IsHeap le h := by
  intro i hi
  by_cases hi' : i = pos
  · exact hi' ▸ hpos (hi' ▸ hi)
  · exact o.other i hi hi'

theorem isHeap_siftUp {fuel : ℕ} (hle : PreorderOn le h)
    (o : UpOrder le h pos) (hlt : pos < h.length) (hfuel : pos ≤ fuel) :
    IsHeap le (siftUp le fuel h pos) := by
  induction fuel generalizing h pos with
  | zero => exact o.isHeap fun hpos => absurd hpos (by omega)
  | succ fuel ih =>
      rw [siftUp]
      dsimp only
      split_ifs with hroot hstop
      · exact o.isHeap fun hpos => absurd hroot hpos.ne'
      · exact o.isHeap fun _ => hstop
      · have hpos := Nat.pos_of_ne_zero hroot
        refine ih (preorderOn_swap hle _ _) (o.step hle hpos hlt hstop) ?_ ?_
        · rw [List.length_swap]
          omega
        · omega

/-! ## Sinking -/

/-- The larger child takes the place of the cell. -/
theorem SinkOrder.step (o : SinkOrder le h pos) {child : ℕ}
    (hchild : 0 < child) (hparent : (child - 1) / 2 = pos)
    (hlt : child < h.length)
    (hlarger : ∀ i, 0 < i → (i - 1) / 2 = pos → i ≠ child →
      cellLe le h i child) :
    SinkOrder le (h.swap pos child) child := by
  have hless : pos < child := by omega
  have hswap := @cellLe_swap α le h pos child (hless.trans hlt) hlt
  constructor
  · intro i hi hne hne'
    rw [hswap]
    by_cases hi' : i = pos
    · have hgrand : (pos - 1) / 2 < pos := by omega
      rw [hi', Equiv.swap_apply_left,
        Equiv.swap_apply_of_ne_of_ne hgrand.ne (by omega)]
      exact o.spans (hi' ▸ hi) child hchild hparent
    · rw [Equiv.swap_apply_of_ne_of_ne hi' hne]
      by_cases hsibling : (i - 1) / 2 = pos
      · rw [hsibling, Equiv.swap_apply_left]
        exact hlarger i hi hsibling hne
      · rw [Equiv.swap_apply_of_ne_of_ne hsibling hne']
        exact o.other i hi hi' hsibling
  · intro _ i hi hbelow
    rw [hswap, hparent, Equiv.swap_apply_left,
      Equiv.swap_apply_of_ne_of_ne (by omega) (by omega), ← hbelow]
    exact o.other i hi (by omega) (by omega)

theorem SinkOrder.upOrder (o : SinkOrder le h pos)
    (hbottom : h.length ≤ 2 * pos + 1) : UpOrder le h pos := by
  refine ⟨fun i hi hne => ?_, o.spans⟩
  by_cases hchild : (i - 1) / 2 = pos
  · exact cellLe_of_length_le (by omega) _
  · exact o.other i hi hne hchild

theorem upOrder_sinkToBottom {fuel : ℕ} (hle : PreorderOn le h)
    (o : SinkOrder le h pos) (hlt : pos < h.length)
    (hfuel : h.length ≤ fuel + pos) :
    UpOrder le (sinkToBottom le fuel h pos).1
        (sinkToBottom le fuel h pos).2 ∧
      (sinkToBottom le fuel h pos).2 < h.length := by
  induction fuel generalizing h pos with
  | zero => omega
  | succ fuel ih =>
      rw [sinkToBottom]
      dsimp only
      have hnext : ∀ child, pos < child → child < h.length →
          SinkOrder le (h.swap pos child) child →
          UpOrder le (sinkToBottom le fuel (h.swap pos child) child).1
              (sinkToBottom le fuel (h.swap pos child) child).2 ∧
            (sinkToBottom le fuel (h.swap pos child) child).2 <
              h.length := by
        intro child hless hchild hsink
        have hrest := ih (preorderOn_swap hle pos child) hsink
          (by rwa [List.length_swap]) (by rw [List.length_swap]; omega)
        rwa [List.length_swap] at hrest
      split_ifs with htwo hright hone
      · refine hnext _ (by omega) (by omega)
          (o.step (by omega) (by omega) (by omega) fun i hi hsibling hne => ?_)
        have hi' : i = 2 * pos + 1 := by omega
        rwa [hi']
      · refine hnext _ (by omega) (by omega)
          (o.step (by omega) (by omega) (by omega) fun i hi hsibling hne => ?_)
        have hi' : i = 2 * pos + 1 + 1 := by omega
        rw [hi']
        exact cellLe_of_not hle hright
      · have hsink : SinkOrder le (h.swap pos (2 * pos + 1))
            (2 * pos + 1) := by
          refine o.step (by omega) (by omega) (by omega)
            fun i hi hsibling hne => ?_
          exact cellLe_of_length_le (by omega) _
        refine ⟨hsink.upOrder ?_, by omega⟩
        rw [List.length_swap]
        omega
      · exact ⟨o.upOrder (by omega), hlt⟩

/-! ## The operations -/

variable {x : α} {h' : List α}

theorem isHeap_nil : IsHeap le [] :=
  fun i _ => cellLe_of_length_le (Nat.zero_le i) _

theorem cellLe_append (h h' : List α) {i j : ℕ} (hi : i < h.length)
    (hj : j < h.length) : cellLe le (h ++ h') i j = cellLe le h i j := by
  rw [cellLe, cellLe, List.getElem?_append_left hi,
    List.getElem?_append_left hj]

theorem isHeap_push (hle : PreorderOn le (x :: h)) (hheap : IsHeap le h) :
    IsHeap le (push le h x) := by
  have hle' : PreorderOn le (h ++ [x]) :=
    hle.mono (List.perm_append_singleton x h).subset
  refine isHeap_siftUp hle' ⟨fun i hi hne => ?_, fun _ i hi hchild => ?_⟩
    (by simp) le_rfl
  · by_cases hlt : i < h.length
    · rw [cellLe_append h [x] hlt (by omega)]
      exact hheap i hi
    · refine cellLe_of_length_le ?_ _
      rw [List.length_append, List.length_singleton]
      omega
  · refine cellLe_of_length_le ?_ _
    rw [List.length_append, List.length_singleton]
    omega

theorem IsHeap.cellLe_root (hheap : IsHeap le h) (hle : PreorderOn le h)
    (i : ℕ) : cellLe le h i 0 := by
  induction i using Nat.strong_induction_on with
  | _ i ih =>
      rcases Nat.eq_zero_or_pos i with rfl | hi
      · by_contra hnot
        exact hnot (cellLe_of_not hle hnot)
      · by_cases hlt : i < h.length
        · exact cellLe_trans hle (by omega) (hheap i hi) (ih _ (by omega))
        · exact cellLe_of_length_le (not_lt.mp hlt) _

theorem IsHeap.le_peek (hheap : IsHeap le h) (hle : PreorderOn le h)
    (hpeek : peek h = some x) {y : α} (hy : y ∈ h) : le y x := by
  obtain ⟨i, hi⟩ := List.mem_iff_getElem?.mp hy
  have hcell := hheap.cellLe_root hle i
  rw [peek, List.head?_eq_getElem?] at hpeek
  rwa [cellLe, hi, hpeek] at hcell

/-- What is popped is the root, and the rest is a heap again. -/
theorem isHeap_pop (hle : PreorderOn le h) (hheap : IsHeap le h)
    (hpop : pop le h = some (x, h')) : peek h = some x ∧ IsHeap le h' := by
  rcases List.eq_nil_or_concat h with rfl | ⟨front, last, rfl⟩
  · simp [pop] at hpop
  · rw [List.concat_eq_append] at *
    rw [pop, List.getLast?_concat, List.dropLast_concat] at hpop
    cases front with
    | nil =>
        simp only [Option.some.injEq, Prod.mk.injEq] at hpop
        obtain ⟨rfl, rfl⟩ := hpop
        exact ⟨rfl, isHeap_nil⟩
    | cons top rest =>
        simp only [Option.some.injEq, Prod.mk.injEq] at hpop
        obtain ⟨rfl, rfl⟩ := hpop
        refine ⟨rfl, ?_⟩
        -- the last cell is sunk from the root
        have hperm : (last :: rest).Perm (rest ++ [last]) :=
          (List.perm_append_singleton last rest).symm
        have hle' : PreorderOn le (last :: rest) :=
          hle.mono fun a ha => List.mem_cons_of_mem top (hperm.subset ha)
        have hsame : ∀ i, 0 < i → i < (last :: rest).length →
            (last :: rest)[i]? = (top :: rest ++ [last])[i]? := by
          intro i hi hlt
          obtain ⟨j, rfl⟩ := Nat.exists_eq_add_one_of_ne_zero hi.ne'
          rw [List.cons_append, List.getElem?_cons_succ,
            List.getElem?_cons_succ, List.getElem?_append_left]
          rw [List.length_cons] at hlt
          omega
        have hsink : SinkOrder le (last :: rest) 0 := by
          refine ⟨fun i hi _ hparent => ?_, fun hpos => absurd hpos (by simp)⟩
          by_cases hlt : i < (last :: rest).length
          · rw [cellLe, hsame i hi hlt, hsame _ (Nat.pos_of_ne_zero hparent)
              (by omega)]
            exact hheap i hi
          · exact cellLe_of_length_le (not_lt.mp hlt) _
        have hsunk : (sinkToBottom le (rest.length + 1) (last :: rest) 0).1.Perm
            (last :: rest) :=
          sinkToBottom_perm (rest.length + 1) (last :: rest) 0
        obtain ⟨hup, hlt⟩ := @upOrder_sinkToBottom α le _ 0
          (rest.length + 1) hle' hsink (by simp) (by simp)
        refine isHeap_siftUp (hle'.mono hsunk.subset) hup ?_ ?_
        · rwa [hsunk.length_eq]
        · rw [List.length_cons] at hlt
          omega

end BinaryHeap
