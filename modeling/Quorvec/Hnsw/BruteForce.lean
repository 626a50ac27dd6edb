import Quorvec.Hnsw.KeyedStore
import Quorvec.Support.RowMajor

/-!
# The exact index

The exact index keeps its vectors in a flat list of rows and reuses the slots
of deleted ids.  It and the graph index answer every sequence of inserts,
deletes and reads alike: each is the partial map from the ids to their last
vectors.
-/

namespace Quorvec

open TotalCorrectness RowMajor

structure BruteForceIndex where
  dim : ℕ
  metric : Metric
  /-- The id in each slot; `none` if the slot is free. -/
  ids : List (Option UInt64)
  /-- The rows of the slots. -/
  vectors : List F32
  idToSlot : Std.ExtTreeMap UInt64 ℕ
  /-- The free slots, the one that was freed last first. -/
  freeSlots : List ℕ
  live : ℕ

namespace BruteForceIndex

/-- `BruteForceIndex::new`, which asserts that the dimension is positive. -/
def new (dim : ℕ) (metric : Metric) : Except IndexError BruteForceIndex :=
  if 0 < dim then
    .ok
      { dim, metric
        ids := []
        vectors := []
        idToSlot := ∅
        freeSlots := []
        live := 0 }
  else .error .panic

/-- Live points. -/
def len (idx : BruteForceIndex) : ℕ := idx.live

/-- The row of a slot; the slice panics when it is out of range. -/
def row (idx : BruteForceIndex) (slot : ℕ) : Except IndexError (List F32) :=
  if (slot + 1) * idx.dim ≤ idx.vectors.length then
    .ok (RowMajor.row idx.dim idx.vectors slot)
  else .error .panic

/-- Copy a vector into the row of a slot. -/
def copyRow (idx : BruteForceIndex) (slot : ℕ) (vector : List F32) :
    Except IndexError BruteForceIndex :=
  if (slot + 1) * idx.dim ≤ idx.vectors.length then
    .ok { idx with vectors := setRow idx.dim idx.vectors slot vector }
  else .error .panic

/-- Put an id into a slot; the assignment panics when it is out of range. -/
def setId (idx : BruteForceIndex) (slot : ℕ) (id : Option UInt64) :
    Except IndexError BruteForceIndex :=
  if slot < idx.ids.length then .ok { idx with ids := idx.ids.set slot id }
  else .error .panic

/-- The slot for a new id: the last one freed, or one behind all others. -/
def takeSlot (idx : BruteForceIndex) (id : UInt64) (vector : List F32) :
    Except IndexError (BruteForceIndex × ℕ) :=
  match idx.freeSlots with
  | slot :: freeSlots => do
      let idx ← ({ idx with freeSlots }.setId slot (some id))
      let idx ← idx.copyRow slot vector
      return (idx, slot)
  | [] =>
      return ({ idx with
        ids := idx.ids ++ [some id]
        vectors := idx.vectors ++ vector }, idx.ids.length)

/-- Insert or replace. -/
def insert (idx : BruteForceIndex) (id : UInt64) (vector : List F32) :
    Except IndexError BruteForceIndex :=
  if vector.length ≠ idx.dim then
    .error (.dimMismatch idx.dim vector.length)
  else match idx.idToSlot[id]? with
    | some slot => idx.copyRow slot vector
    | none => do
        let (idx, slot) ← idx.takeSlot id vector
        return { idx with
          idToSlot := idx.idToSlot.insert id slot, live := idx.live + 1 }

/-- Free the id's slot.  Returns whether a live point was removed. -/
def delete (idx : BruteForceIndex) (id : UInt64) :
    Except IndexError (BruteForceIndex × Bool) :=
  match idx.idToSlot[id]? with
  | some slot => do
      let idx ← { idx with idToSlot := idx.idToSlot.erase id }.setId slot none
      return ({ idx with
        freeSlots := slot :: idx.freeSlots, live := idx.live - 1 }, true)
  | none => return (idx, false)

/-- The stored vector of a live id. -/
def getVector (idx : BruteForceIndex) (id : UInt64) :
    Except IndexError (Option (List F32)) :=
  match idx.idToSlot[id]? with
  | none => return none
  | some slot => return some (← idx.row slot)

section Search

variable (K : Kernel)

/-- The order of the results: by score, then by id. -/
def scoreLe (a b : UInt64 × F32) : Bool :=
  ((K.cmp a.2 b.2).then (compare a.1 b.1)).isLE

/-- The scores of the slots from `slot` on. -/
def scoreFrom (idx : BruteForceIndex) (query : List F32) :
    ℕ → List (Option UInt64) → Except IndexError (List (UInt64 × F32))
  | _, [] => return []
  | slot, none :: ids => scoreFrom idx query (slot + 1) ids
  | slot, some id :: ids => do
      let d := K.distance idx.metric query (← idx.row slot)
      return (id, d) :: (← scoreFrom idx query (slot + 1) ids)

/-- The `k` nearest live points. -/
def search (idx : BruteForceIndex) (query : List F32) (k : ℕ) :
    Except IndexError (List (UInt64 × F32)) :=
  if query.length ≠ idx.dim then
    .error (.dimMismatch idx.dim query.length)
  else if k = 0 ∨ idx.live = 0 then return []
  else do
    let scored ← idx.scoreFrom K query 0 idx.ids
    return (scored.mergeSort (scoreLe K)).take k

end Search

/-! ## The partial map -/

/-- The partial map from live ids to vectors. -/
def store (idx : BruteForceIndex) (id : UInt64) : Option (List F32) :=
  idx.idToSlot[id]?.map (RowMajor.row idx.dim idx.vectors)

/-- Every id is found in its slot, free slots are free, and the rows and the
counter agree with the slots. -/
structure Valid (idx : BruteForceIndex) : Prop where
  length_vectors : idx.vectors.length = idx.ids.length * idx.dim
  index_iff : ∀ (id : UInt64) (slot : ℕ), idx.idToSlot[id]? = some slot ↔
    idx.ids[slot]? = some (some id)
  free : ∀ slot ∈ idx.freeSlots, idx.ids[slot]? = some none
  nodup_free : idx.freeSlots.Nodup
  live_eq : idx.live = idx.idToSlot.size

/-- The outcome of an operation that updates the map at `id`. -/
structure Updated (idx : BruteForceIndex) (id : UInt64)
    (v : Option (List F32)) (idx' : BruteForceIndex) : Prop where
  valid : idx'.Valid
  dim_eq : idx'.dim = idx.dim
  metric_eq : idx'.metric = idx.metric
  store_eq : idx'.store = Function.update idx.store id v

theorem new_returns {dim : ℕ} (metric : Metric) (hdim : 0 < dim) :
    Returns (new dim metric) (fun idx =>
      idx.Valid ∧ idx.dim = dim ∧ idx.metric = metric ∧
        idx.store = fun _ => none) := by
  rw [new, if_pos hdim]
  refine Returns.ok ⟨⟨by simp, by simp, by simp, by simp, by simp⟩, rfl, rfl,
    ?_⟩
  funext id
  simp [store]

section Operations

variable {idx : BruteForceIndex}

theorem row_le (h : idx.Valid) {slot : ℕ} (hslot : slot < idx.ids.length) :
    (slot + 1) * idx.dim ≤ idx.vectors.length := by
  rw [h.length_vectors]
  exact Nat.mul_le_mul_right _ hslot

theorem slot_lt (h : idx.Valid) {id : UInt64} {slot : ℕ}
    (hid : idx.idToSlot[id]? = some slot) : slot < idx.ids.length :=
  (List.getElem?_eq_some_iff.mp ((h.index_iff id slot).mp hid)).1

theorem slot_ne (h : idx.Valid) {id id' : UInt64} {slot slot' : ℕ}
    (hid : idx.idToSlot[id]? = some slot)
    (hid' : idx.idToSlot[id']? = some slot') (hne : id' ≠ id) :
    slot' ≠ slot := by
  rintro rfl
  have hsame := (h.index_iff id' slot').mp hid'
  rw [(h.index_iff id slot').mp hid, Option.some.injEq,
    Option.some.injEq] at hsame
  exact hne hsame.symm

/-- Replacing the vector of an id. -/
theorem replace_returns (h : idx.Valid) {id : UInt64} {slot : ℕ}
    (hid : idx.idToSlot[id]? = some slot) {vector : List F32}
    (hdim : vector.length = idx.dim) :
    Returns (idx.copyRow slot vector) (Updated idx id (some vector)) := by
  have hrow := row_le h (slot_lt h hid)
  rw [copyRow, if_pos hrow]
  refine Returns.ok ⟨⟨?_, h.index_iff, h.free, h.nodup_free, h.live_eq⟩, rfl,
    rfl, ?_⟩
  · exact (length_setRow hrow hdim).trans h.length_vectors
  · funext id'
    by_cases hne : id' = id
    · subst hne
      rw [Function.update_self, store, hid, Option.map_some]
      exact congrArg some (row_setRow_self hrow hdim)
    · rw [Function.update_of_ne hne, store, store]
      dsimp only
      rcases hid' : idx.idToSlot[id']? with _ | slot'
      · rfl
      · rw [Option.map_some, Option.map_some,
          row_setRow_of_ne hrow hdim (slot_ne h hid hid' hne)]

/-- A new id was put into a slot that no id had. -/
structure Filled (idx : BruteForceIndex) (id : UInt64) (slot : ℕ)
    (vector : List F32) (idx' : BruteForceIndex) : Prop where
  dim_eq : idx'.dim = idx.dim
  metric_eq : idx'.metric = idx.metric
  idToSlot : idx'.idToSlot = idx.idToSlot
  live : idx'.live = idx.live
  length_vectors : idx'.vectors.length = idx'.ids.length * idx.dim
  unused : ∀ id', idx.ids[slot]? ≠ some (some id')
  used : idx'.ids[slot]? = some (some id)
  other : ∀ slot' id', slot' ≠ slot →
    (idx'.ids[slot']? = some (some id') ↔ idx.ids[slot']? = some (some id'))
  free : ∀ slot' ∈ idx'.freeSlots, idx'.ids[slot']? = some none
  nodup_free : idx'.freeSlots.Nodup
  row_eq : RowMajor.row idx.dim idx'.vectors slot = vector
  row_other : ∀ slot' < idx.ids.length, slot' ≠ slot →
    RowMajor.row idx.dim idx'.vectors slot' =
      RowMajor.row idx.dim idx.vectors slot'

theorem getElem?_insertSlot (index : Std.ExtTreeMap UInt64 ℕ) (id : UInt64)
    (slot : ℕ) (id' : UInt64) :
    (index.insert id slot)[id']? =
      if id' = id then some slot else index[id']? := by
  rw [Std.ExtTreeMap.getElem?_insert]
  simp only [Std.compare_eq_iff_eq, @eq_comm _ id]

theorem getElem?_eraseSlot (index : Std.ExtTreeMap UInt64 ℕ)
    (id id' : UInt64) :
    (index.erase id)[id']? = if id' = id then none else index[id']? := by
  rw [Std.ExtTreeMap.getElem?_erase]
  simp only [Std.compare_eq_iff_eq, @eq_comm _ id]

/-- Entering the id of a filled slot. -/
theorem Filled.updated (h : idx.Valid) {id : UInt64} {slot : ℕ}
    {vector : List F32} {idx' : BruteForceIndex}
    (hfilled : Filled idx id slot vector idx')
    (hid : idx.idToSlot[id]? = none) :
    Updated idx id (some vector)
      { idx' with
        idToSlot := idx'.idToSlot.insert id slot, live := idx'.live + 1 } := by
  have hne : ∀ {id' : UInt64} {slot' : ℕ}, idx.idToSlot[id']? = some slot' →
      slot' ≠ slot := by
    rintro id' slot' hid' rfl
    exact hfilled.unused id' ((h.index_iff id' slot').mp hid')
  have hget : ∀ id', (idx'.idToSlot.insert id slot)[id']? =
      if id' = id then some slot else idx.idToSlot[id']? := by
    intro id'
    rw [getElem?_insertSlot, hfilled.idToSlot]
  refine ⟨⟨?_, ?_, hfilled.free, hfilled.nodup_free, ?_⟩, hfilled.dim_eq,
    hfilled.metric_eq, ?_⟩
  · rw [hfilled.dim_eq]
    exact hfilled.length_vectors
  · intro id' slot'
    dsimp only
    rw [hget]
    by_cases hslot : slot' = slot
    · subst hslot
      rw [hfilled.used]
      split_ifs with hsame
      · simp [hsame]
      · constructor
        · intro hid'
          exact absurd rfl (hne hid')
        · intro hids
          simp only [Option.some.injEq] at hids
          exact absurd hids.symm hsame
    · rw [hfilled.other slot' id' hslot, ← h.index_iff]
      split_ifs with hsame
      · rw [hsame, hid]
        simp [Ne.symm hslot]
      · rfl
  · dsimp only
    rw [Std.ExtTreeMap.size_insert, hfilled.live, h.live_eq,
      hfilled.idToSlot, if_neg]
    rw [← Std.ExtTreeMap.isSome_getElem?_eq_contains, hid]
    simp
  · funext id'
    rw [store]
    dsimp only
    rw [hget, hfilled.dim_eq]
    by_cases hsame : id' = id
    · rw [if_pos hsame, hsame, Function.update_self, Option.map_some,
        hfilled.row_eq]
    · rw [if_neg hsame, Function.update_of_ne hsame, store]
      rcases hid' : idx.idToSlot[id']? with _ | slot'
      · rfl
      · rw [Option.map_some, Option.map_some,
          hfilled.row_other slot' (slot_lt h hid') (hne hid')]

/-- A new slot at the end. -/
theorem filled_append (h : idx.Valid) (id : UInt64) {vector : List F32}
    (hdim : vector.length = idx.dim) (hfree : idx.freeSlots = []) :
    Filled idx id idx.ids.length vector { idx with
      ids := idx.ids ++ [some id], vectors := idx.vectors ++ vector } := by
  refine ⟨rfl, rfl, rfl, rfl, ?_, ?_, ?_, ?_, ?_, ?_, ?_, ?_⟩
  · rw [List.length_append, h.length_vectors, List.length_append,
      List.length_singleton, Nat.add_mul, Nat.one_mul, hdim]
  · intro id'
    rw [List.getElem?_eq_none le_rfl]
    simp
  · simp
  · intro slot' id' hne
    dsimp only at hne ⊢
    rcases Nat.lt_or_gt_of_ne hne with hlt | hgt
    · rw [List.getElem?_append_left hlt]
    · rw [List.getElem?_eq_none (by simpa using hgt),
        List.getElem?_eq_none hgt.le]
  · intro slot' hslot'
    dsimp only at hslot'
    rw [hfree] at hslot'
    simp at hslot'
  · exact h.nodup_free
  · exact row_append_length h.length_vectors hdim
  · intro slot' hlt hne
    exact row_append_of_le (row_le h hlt) _

/-- A slot that was free. -/
theorem filled_free (h : idx.Valid) (id : UInt64) {vector : List F32}
    (hdim : vector.length = idx.dim) {slot : ℕ} {freeSlots : List ℕ}
    (hfree : idx.freeSlots = slot :: freeSlots) :
    Filled idx id slot vector { idx with
      freeSlots, ids := idx.ids.set slot (some id)
      vectors := setRow idx.dim idx.vectors slot vector } := by
  have hnone := h.free slot (hfree ▸ List.mem_cons_self)
  have hlt := (List.getElem?_eq_some_iff.mp hnone).1
  have hrow := row_le h hlt
  have hnodup := h.nodup_free
  rw [hfree, List.nodup_cons] at hnodup
  refine ⟨rfl, rfl, rfl, rfl, ?_, ?_, ?_, ?_, ?_, hnodup.2, ?_, ?_⟩
  · rw [length_setRow hrow hdim, List.length_set]
    exact h.length_vectors
  · intro id'
    rw [hnone]
    simp
  · exact List.getElem?_set_self hlt
  · intro slot' id' hne
    dsimp only at hne ⊢
    rw [List.getElem?_set_ne hne.symm]
  · intro slot' hslot'
    have hne : slot ≠ slot' := by
      rintro rfl
      exact hnodup.1 hslot'
    dsimp only
    rw [List.getElem?_set_ne hne]
    exact h.free slot' (hfree ▸ List.mem_cons_of_mem _ hslot')
  · exact row_setRow_self hrow hdim
  · intro slot' _ hne
    exact row_setRow_of_ne hrow hdim hne

/-- The slot for a new id. -/
theorem takeSlot_returns (h : idx.Valid) (id : UInt64) {vector : List F32}
    (hdim : vector.length = idx.dim) :
    Returns (idx.takeSlot id vector)
      (fun r => Filled idx id r.2 vector r.1) := by
  rw [takeSlot]
  rcases hfree : idx.freeSlots with _ | ⟨slot, freeSlots⟩
  · have hfilled := filled_append h id hdim hfree
    rw [hfree] at hfilled
    exact Returns.pure hfilled
  · have hlt := (List.getElem?_eq_some_iff.mp
      (h.free slot (hfree ▸ List.mem_cons_self))).1
    have hset : ({ idx with freeSlots } : BruteForceIndex).setId slot
        (some id) = .ok { idx with
          freeSlots, ids := idx.ids.set slot (some id) } := if_pos hlt
    have hcopy : ({ idx with
        freeSlots, ids := idx.ids.set slot (some id) } :
          BruteForceIndex).copyRow slot vector = .ok { idx with
            freeSlots, ids := idx.ids.set slot (some id)
            vectors := setRow idx.dim idx.vectors slot vector } :=
      if_pos (row_le h hlt)
    simp only [hset, hcopy, bind, Except.bind]
    exact Returns.pure (filled_free h id hdim hfree)

theorem insert_returns (h : idx.Valid) (id : UInt64) {vector : List F32}
    (hdim : vector.length = idx.dim) :
    Returns (idx.insert id vector) (Updated idx id (some vector)) := by
  rw [insert, if_neg (not_not_intro hdim)]
  rcases hid : idx.idToSlot[id]? with _ | slot
  swap
  · exact replace_returns h hid hdim
  · exact (takeSlot_returns h id hdim).bind fun r hr =>
      Returns.pure (hr.updated h hid)

/-- The index without an id. -/
theorem erased_updated (h : idx.Valid) {id : UInt64} {slot : ℕ}
    (hid : idx.idToSlot[id]? = some slot) :
    Updated idx id none { idx with
      idToSlot := idx.idToSlot.erase id, ids := idx.ids.set slot none
      freeSlots := slot :: idx.freeSlots, live := idx.live - 1 } := by
  have hslot := (h.index_iff id slot).mp hid
  have hlt := slot_lt h hid
  have hget := getElem?_eraseSlot idx.idToSlot id
  refine ⟨⟨?_, ?_, ?_, ?_, ?_⟩, rfl, rfl, ?_⟩
  · rw [List.length_set]
    exact h.length_vectors
  · intro id' slot'
    dsimp only
    rw [hget]
    split_ifs with hsame
    · subst hsame
      by_cases hne : slot = slot'
      · subst hne
        simp [List.getElem?_set_self hlt]
      · rw [List.getElem?_set_ne hne, ← h.index_iff, hid]
        simp [hne]
    · rw [h.index_iff]
      by_cases hne : slot = slot'
      · subst hne
        rw [List.getElem?_set_self hlt, hslot]
        simp [Ne.symm hsame]
      · rw [List.getElem?_set_ne hne]
  · intro slot' hslot'
    dsimp only
    by_cases hne : slot = slot'
    · subst hne
      exact List.getElem?_set_self hlt
    · rw [List.getElem?_set_ne hne]
      exact h.free slot'
        ((List.mem_cons.mp hslot').resolve_left (Ne.symm hne))
  · rw [List.nodup_cons]
    refine ⟨fun hmem => ?_, h.nodup_free⟩
    have hfree := h.free slot hmem
    rw [hslot] at hfree
    simp at hfree
  · dsimp only
    rw [Std.ExtTreeMap.size_erase, h.live_eq, if_pos]
    rw [← Std.ExtTreeMap.isSome_getElem?_eq_contains, hid]
    rfl
  · funext id'
    rw [store]
    dsimp only
    rw [hget]
    by_cases hsame : id' = id
    · rw [if_pos hsame, hsame, Function.update_self, Option.map_none]
    · rw [if_neg hsame, Function.update_of_ne hsame, store]

/-- A delete removes the id from the map, and says whether it was there. -/
theorem delete_returns (h : idx.Valid) (id : UInt64) :
    Returns (idx.delete id) (fun r =>
      Updated idx id none r.1 ∧ r.2 = (idx.store id).isSome) := by
  rw [delete]
  rcases hid : idx.idToSlot[id]? with _ | slot
  · have hnone : idx.store id = none := by rw [store, hid, Option.map_none]
    refine Returns.pure ⟨⟨h, rfl, rfl, ?_⟩, by rw [hnone]; rfl⟩
    rw [← hnone, Function.update_eq_self]
  · have hset : ({ idx with idToSlot := idx.idToSlot.erase id } :
        BruteForceIndex).setId slot none = .ok { idx with
          idToSlot := idx.idToSlot.erase id
          ids := idx.ids.set slot none } := if_pos (slot_lt h hid)
    simp only [hset, bind, Except.bind]
    refine Returns.pure ⟨erased_updated h hid, ?_⟩
    rw [store, hid]
    rfl

theorem getVector_eq (h : idx.Valid) (id : UInt64) :
    idx.getVector id = .ok (idx.store id) := by
  rw [getVector, store]
  rcases hid : idx.idToSlot[id]? with _ | slot
  · rfl
  · rw [Option.map_some]
    simp only [row, if_pos (row_le h (slot_lt h hid))]
    rfl

/-- The number of live points. -/
theorem len_eq (h : idx.Valid) :
    idx.len = {id | (idx.store id).isSome}.ncard := by
  have hset : {id | (idx.store id).isSome} =
      ↑idx.idToSlot.keys.toFinset := by
    ext id
    rw [Set.mem_ofPred_eq, store, Option.isSome_map, Finset.mem_coe,
      List.mem_toFinset, Std.ExtTreeMap.mem_keys,
      Std.ExtTreeMap.mem_iff_isSome_getElem?]
  have hnodup : idx.idToSlot.keys.Nodup :=
    (Std.ExtTreeMap.distinct_keys (t := idx.idToSlot)).imp
      Std.ReflCmp.ne_of_cmp_ne_eq
  rw [hset, Set.ncard_coe_finset, List.toFinset_card_of_nodup hnodup,
    Std.ExtTreeMap.length_keys]
  exact h.live_eq

end Operations

end BruteForceIndex

end Quorvec
