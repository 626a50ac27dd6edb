import Mathlib

/-!
# Slot tables with tombstones

A slot table stores keyed values in numbered slots that are never freed: a key
keeps its slot for ever, and deleting it marks the slot dead.  An index finds
the slot of a key.

A coherent table is a finite partial map.  Adding a key, overwriting its slot
and marking it dead are the updates of that map, and the live counter is the
size of its domain.
-/

structure SlotTable (κ ν : Type) where
  slots : List (κ × ν)
  index : κ → Option ℕ
  deleted : List Bool
  live : ℕ

namespace SlotTable

variable {κ ν : Type}

/-- The partial map that the table stands for. -/
def lookup (t : SlotTable κ ν) (k : κ) : Option ν :=
  (t.index k).bind fun i =>
    match t.deleted[i]? with
    | some false => t.slots[i]?.map Prod.snd
    | _ => none

/-- Every slot is found under its own key, and the counters agree. -/
structure Coherent (t : SlotTable κ ν) : Prop where
  length_deleted : t.deleted.length = t.slots.length
  index_iff : ∀ k i, t.index k = some i ↔ ∃ v, t.slots[i]? = some (k, v)
  live_eq : t.live = t.deleted.count false

/-- The slot of a key exists. -/
theorem Coherent.exists_slot {t : SlotTable κ ν} (h : t.Coherent) {k : κ}
    {i : ℕ} (hk : t.index k = some i) :
    ∃ v, t.slots[i]? = some (k, v) ∧
      ∃ dead, t.deleted[i]? = some dead ∧
        t.lookup k = if dead then none else some v := by
  obtain ⟨v, hv⟩ := (h.index_iff k i).mp hk
  have hi : i < t.deleted.length := by
    rw [h.length_deleted]
    exact (List.getElem?_eq_some_iff.mp hv).1
  refine ⟨v, hv, t.deleted[i], List.getElem?_eq_getElem hi, ?_⟩
  rw [lookup, hk, Option.bind_some, List.getElem?_eq_getElem hi, hv]
  cases t.deleted[i] <;> simp

theorem lookup_of_index_none {t : SlotTable κ ν} {k : κ}
    (hk : t.index k = none) : t.lookup k = none := by
  rw [lookup, hk, Option.bind_none]

theorem Coherent.index_injective {t : SlotTable κ ν} (h : t.Coherent)
    {k k' : κ} {i : ℕ} (hk : t.index k = some i) (hk' : t.index k' = some i) :
    k = k' := by
  obtain ⟨v, hv⟩ := (h.index_iff k i).mp hk
  obtain ⟨v', hv'⟩ := (h.index_iff k' i).mp hk'
  rw [hv, Option.some.injEq, Prod.mk.injEq] at hv'
  exact hv'.1

theorem Coherent.index_ne {t : SlotTable κ ν} (h : t.Coherent) {k k' : κ}
    {i j : ℕ} (hk : t.index k = some i) (hk' : t.index k' = some j)
    (hne : k' ≠ k) : i ≠ j := by
  rintro rfl
  exact hne (h.index_injective hk' hk)

section Updates

/-- Give a key a slot behind all others. -/
def push [DecidableEq κ] (t : SlotTable κ ν) (k : κ) (v : ν) : SlotTable κ ν where
  slots := t.slots ++ [(k, v)]
  index := Function.update t.index k (some t.slots.length)
  deleted := t.deleted ++ [false]
  live := t.live + 1

/-- Overwrite a slot and revive it. -/
def overwrite (t : SlotTable κ ν) (i : ℕ) (k : κ) (v : ν) : SlotTable κ ν where
  slots := t.slots.set i (k, v)
  index := t.index
  deleted := t.deleted.set i false
  live := if t.deleted[i]? = some true then t.live + 1 else t.live

/-- Mark a live slot dead. -/
def tombstone (t : SlotTable κ ν) (i : ℕ) : SlotTable κ ν where
  slots := t.slots
  index := t.index
  deleted := t.deleted.set i true
  live := t.live - 1

theorem coherent_push [DecidableEq κ] {t : SlotTable κ ν} (h : t.Coherent)
    {k : κ} (hk : t.index k = none) (v : ν) : (t.push k v).Coherent where
  length_deleted := by simp [push, h.length_deleted]
  index_iff k' i := by
    have hold := h.index_iff k' i
    by_cases hkk : k' = k
    · subst hkk
      rw [hk] at hold
      simp only [push, Function.update_self, Option.some.injEq]
      constructor
      · rintro rfl
        exact ⟨v, by simp⟩
      · rintro ⟨w, hw⟩
        rcases lt_trichotomy i t.slots.length with hi | hi | hi
        · rw [List.getElem?_append_left hi] at hw
          exact absurd (hold.mpr ⟨w, hw⟩) (by simp)
        · exact hi.symm
        · rw [List.getElem?_eq_none (by simpa using hi)] at hw
          exact absurd hw (by simp)
    · simp only [push, Function.update_of_ne hkk]
      rw [hold]
      rcases lt_or_ge i t.slots.length with hi | hi
      · rw [List.getElem?_append_left hi]
      · rw [List.getElem?_eq_none hi, List.getElem?_append_right hi]
        constructor
        · rintro ⟨w, hw⟩
          exact absurd hw (by simp)
        · rintro ⟨w, hw⟩
          rw [List.getElem?_singleton] at hw
          split_ifs at hw
          simp only [Option.some.injEq, Prod.mk.injEq] at hw
          exact absurd hw.1.symm hkk
  live_eq := by simp [push, h.live_eq]

theorem lookup_push [DecidableEq κ] {t : SlotTable κ ν} (h : t.Coherent)
    (k : κ) (v : ν) :
    (t.push k v).lookup = Function.update t.lookup k (some v) := by
  funext k'
  by_cases hkk : k' = k
  · subst hkk
    have hlen : t.slots.length = t.deleted.length := h.length_deleted.symm
    simp [lookup, push, hlen]
  · rw [Function.update_of_ne hkk]
    simp only [lookup, push, Function.update_of_ne hkk]
    cases hi : t.index k' with
    | none => rfl
    | some i =>
        obtain ⟨w, hw⟩ := (h.index_iff k' i).mp hi
        have hslot := (List.getElem?_eq_some_iff.mp hw).1
        have hdel : i < t.deleted.length := by rwa [h.length_deleted]
        rw [Option.bind_some, Option.bind_some,
          List.getElem?_append_left hslot, List.getElem?_append_left hdel]

theorem coherent_overwrite {t : SlotTable κ ν} (h : t.Coherent) {k : κ}
    {i : ℕ} (hk : t.index k = some i) (v : ν) :
    (t.overwrite i k v).Coherent where
  length_deleted := by simp [overwrite, h.length_deleted]
  index_iff k' j := by
    obtain ⟨w, hw⟩ := (h.index_iff k i).mp hk
    have hslot := (List.getElem?_eq_some_iff.mp hw).1
    simp only [overwrite, h.index_iff]
    by_cases hij : i = j
    · subst hij
      simp [hw, List.getElem?_set_self hslot]
    · rw [List.getElem?_set_ne hij]
  live_eq := by
    obtain ⟨w, hw, dead, hdead, -⟩ := h.exists_slot hk
    obtain ⟨hi, rfl⟩ := List.getElem?_eq_some_iff.mp hdead
    simp only [overwrite, hdead, Option.some.injEq, h.live_eq,
      List.count_set hi]
    cases hd : t.deleted[i] with
    | true => simp
    | false =>
        have hpos : 0 < t.deleted.count false := by
          rw [List.count_pos_iff, ← hd]
          exact List.getElem_mem hi
        simp
        omega

theorem lookup_overwrite [DecidableEq κ] {t : SlotTable κ ν}
    (h : t.Coherent) {k : κ} {i : ℕ} (hk : t.index k = some i) (v : ν) :
    (t.overwrite i k v).lookup = Function.update t.lookup k (some v) := by
  obtain ⟨w, hw, dead, hdead, -⟩ := h.exists_slot hk
  have hslot := (List.getElem?_eq_some_iff.mp hw).1
  have hdel := (List.getElem?_eq_some_iff.mp hdead).1
  funext k'
  by_cases hkk : k' = k
  · subst hkk
    simp [lookup, overwrite, hk, List.getElem?_set_self hslot,
      List.getElem?_set_self hdel]
  · rw [Function.update_of_ne hkk]
    simp only [lookup, overwrite]
    cases hj : t.index k' with
    | none => rfl
    | some j =>
        have hij := h.index_ne hk hj hkk
        rw [Option.bind_some, Option.bind_some, List.getElem?_set_ne hij,
          List.getElem?_set_ne hij]

theorem coherent_tombstone {t : SlotTable κ ν} (h : t.Coherent) {i : ℕ}
    (hi : t.deleted[i]? = some false) : (t.tombstone i).Coherent where
  length_deleted := by simp [tombstone, h.length_deleted]
  index_iff := h.index_iff
  live_eq := by
    obtain ⟨hlt, hi⟩ := List.getElem?_eq_some_iff.mp hi
    simp [tombstone, h.live_eq, List.count_set hlt, hi]

theorem lookup_tombstone [DecidableEq κ] {t : SlotTable κ ν}
    (h : t.Coherent) {k : κ} {i : ℕ} (hk : t.index k = some i) :
    (t.tombstone i).lookup = Function.update t.lookup k none := by
  obtain ⟨w, hw, dead, hdead, -⟩ := h.exists_slot hk
  have hdel := (List.getElem?_eq_some_iff.mp hdead).1
  funext k'
  by_cases hkk : k' = k
  · subst hkk
    simp [lookup, tombstone, hk, List.getElem?_set_self hdel]
  · rw [Function.update_of_ne hkk]
    simp only [lookup, tombstone]
    cases hj : t.index k' with
    | none => rfl
    | some j =>
        have hij := h.index_ne hk hj hkk
        rw [Option.bind_some, Option.bind_some, List.getElem?_set_ne hij]

end Updates

/-! ## The live counter -/

/-- The number of occurrences of `x` is the number of its positions. -/
theorem count_eq_ncard {α : Type} [DecidableEq α] (l : List α) (x : α) :
    l.count x = {i : ℕ | l[i]? = some x}.ncard := by
  induction l using List.reverseRecOn with
  | nil => simp
  | append_singleton l d ih =>
      have hfinite : {i : ℕ | l[i]? = some x}.Finite :=
        (Set.finite_Iio l.length).subset fun i hi =>
          (List.getElem?_eq_some_iff.mp hi).1
      have hsplit : ∀ i : ℕ, (l ++ [d])[i]? = some x ↔
          i = l.length ∧ d = x ∨ l[i]? = some x := by
        intro i
        rcases lt_trichotomy i l.length with hi | hi | hi
        · rw [List.getElem?_append_left hi]
          simp [hi.ne]
        · subst hi
          simp
        · rw [List.getElem?_eq_none (by simpa using hi),
            List.getElem?_eq_none hi.le]
          simp [hi.ne']
      simp only [hsplit]
      by_cases hd : d = x
      · have hnew : l.length ∉ {i : ℕ | l[i]? = some x} := by simp
        simp only [hd, and_true, List.count_append, List.count_singleton_self,
          ih]
        exact (Set.ncard_insert_of_notMem hnew hfinite).symm
      · simp [hd, List.count_append, ih]

/-- The live counter is the number of keys that are mapped. -/
theorem Coherent.live_eq_ncard {t : SlotTable κ ν} (h : t.Coherent) :
    t.live = {k | (t.lookup k).isSome}.ncard := by
  rw [h.live_eq, count_eq_ncard]
  have hslot : ∀ i : ℕ, t.deleted[i]? = some false → i < t.slots.length := by
    intro i hi
    rw [← h.length_deleted]
    exact (List.getElem?_eq_some_iff.mp hi).1
  have hindex : ∀ (i : ℕ) (hi : t.deleted[i]? = some false),
      t.index (t.slots.get ⟨i, hslot i hi⟩).1 = some i := fun i hi =>
    (h.index_iff _ i).mpr ⟨_, List.getElem?_eq_getElem (hslot i hi)⟩
  apply Set.ncard_congr (fun i hi => (t.slots.get ⟨i, hslot i hi⟩).1)
  · intro i hi
    obtain ⟨v, -, dead, hdead, hlookup⟩ := h.exists_slot (hindex i hi)
    have hdead' : false = dead := by
      have hi' : t.deleted[i]? = some false := hi
      rw [hi', Option.some.injEq] at hdead
      exact hdead
    subst hdead'
    rw [Set.mem_ofPred_eq, hlookup]
    rfl
  · intro i j hi hj hij
    have hsame := hindex i hi
    rw [hij, hindex j hj, Option.some.injEq] at hsame
    exact hsame.symm
  · intro k hk
    cases hi : t.index k with
    | none => simp [lookup_of_index_none hi] at hk
    | some i =>
        obtain ⟨v, hv, dead, hdead, hlookup⟩ := h.exists_slot hi
        cases dead with
        | true => simp [hlookup] at hk
        | false =>
            obtain ⟨hlt, hv⟩ := List.getElem?_eq_some_iff.mp hv
            exact ⟨i, hdead, congrArg Prod.fst hv⟩

end SlotTable
