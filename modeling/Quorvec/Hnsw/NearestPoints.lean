import Quorvec.Hnsw.Oracle
import Quorvec.Support.TakeParts

/-!
# The nearest points by score and id

Where scores are comparable, score and id order the points of an index totally.
The exact index returns the first `k` in this order, and so the nearest points
of a part are the first ones of the part in the order of the whole.
-/

namespace Quorvec

open SortedLists TotalCorrectness

/-- Points with their scores. -/
abbrev Hits := List (UInt64 × F32)

/-- The points of `m` with their scores. -/
structure ScoredPoints (K : Kernel) (metric : Metric) (query : List F32)
    (m : VectorStore) (L : Hits) : Prop where
  nodup : (L.map Prod.fst).Nodup
  mem_iff : ∀ id s, (id, s) ∈ L ↔
    ∃ v, m id = some v ∧ s = K.distance metric query v

/-- The `k` nearest points of `m`, by score and id. -/
def Nearest (K : Kernel) (metric : Metric) (query : List F32)
    (m : VectorStore) (k : ℕ) (hits : Hits) : Prop :=
  ∃ L, ScoredPoints K metric query m L ∧
    L.Pairwise (BruteForceIndex.scoreLe K · ·) ∧ hits = L.take k

section Scored

variable {K : Kernel} {metric : Metric} {query : List F32} {m : VectorStore}
variable {L L' : Hits}

/-- The kernel that takes its vectors the other way round. -/
def Kernel.flip (K : Kernel) : Kernel :=
  { K with distance := fun metric v w => K.distance metric w v }

theorem ScoredPoints.isScored (h : ScoredPoints K metric query m L) :
    IsScored K.flip metric query m L := ⟨h.nodup, h.mem_iff⟩

theorem ScoredPoints.of_perm (h : ScoredPoints K metric query m L)
    (hperm : L'.Perm L) : ScoredPoints K metric query m L' :=
  have hflip := h.isScored.of_perm hperm
  ⟨hflip.nodup, hflip.mem_iff⟩

theorem ScoredPoints.filter (h : ScoredPoints K metric query m L)
    (p : UInt64 → Prop) [DecidablePred p] :
    ScoredPoints K metric query (fun id => if p id then m id else none)
      (L.filter fun x => p x.1) where
  nodup := h.nodup.sublist (List.filter_sublist.map _)
  mem_iff id s := by
    rw [List.mem_filter, h.mem_iff, decide_eq_true_eq]
    by_cases hp : p id <;> simp [hp]

/-- Two points of equal rank are the same. -/
theorem ScoredPoints.orderOn (h : ScoredPoints K metric query m L)
    {S : Set F32} (hK : K.PreordersOn S) (hS : ∀ x ∈ L, x.2 ∈ S) :
    OrderOn (BruteForceIndex.scoreLe K) L where
  toPreorderOn := hK.preorderOn_then Prod.fst hS
  antisymm := by
    rintro ⟨id, s⟩ hx ⟨id', s'⟩ hy hle hle'
    obtain rfl : id = id' := by
      simp only [BruteForceIndex.scoreLe] at hle hle'
      rw [hK.swap _ (hS _ hx) _ (hS _ hy)] at hle'
      have hswap : compare id' id = (compare id id').swap :=
        Std.OrientedCmp.eq_swap
      rw [hswap] at hle'
      apply Std.LawfulEqOrd.eq_of_compare
      revert hle hle'
      cases K.cmp s s' <;> cases compare id id' <;> simp
    obtain ⟨v, hv, rfl⟩ := (h.mem_iff id s).mp hx
    obtain ⟨v', hv', rfl⟩ := (h.mem_iff id s').mp hy
    rw [hv, Option.some.injEq] at hv'
    rw [hv']

/-- The first points of a part are the nearest of the part. -/
theorem Nearest.eq_take_filter (hL : ScoredPoints K metric query m L)
    (hsorted : L.Pairwise (BruteForceIndex.scoreLe K · ·))
    (horder : OrderOn (BruteForceIndex.scoreLe K) L) {p : UInt64 → Prop}
    [DecidablePred p] {k : ℕ} {hits : Hits}
    (h : Nearest K metric query (fun id => if p id then m id else none) k
      hits) :
    hits = (L.filter fun x => p x.1).take k := by
  obtain ⟨part, hpart, hpart', rfl⟩ := h
  have hperm := hpart.isScored.perm (hL.filter p).isScored
  rw [horder.eq_of_perm hperm
    (fun x hx => List.mem_of_mem_filter (hperm.subset hx)) hpart'
    (hsorted.filter _)]

end Scored

namespace BruteForceIndex

variable {K : Kernel} {idx : BruteForceIndex} {query : List F32}

/-- The scores of an exact search. -/
def scores (K : Kernel) (idx : BruteForceIndex) (query : List F32) : Set F32 :=
  {s | ∃ id v, idx.store id = some v ∧ s = K.distance idx.metric query v}

theorem scoredPoints_scoreFrom (h : idx.Valid) (K : Kernel)
    (query : List F32) :
    ∃ L, idx.scoreFrom K query 0 idx.ids = .ok L ∧
      ScoredPoints K idx.metric query idx.store L := by
  obtain ⟨L, hL, hfst, hmem⟩ := scoreFrom_returns h (Nat.zero_add _).le
  refine ⟨L, hL, hfst ▸ nodup_ids h, fun id s => ?_⟩
  rw [hmem]
  constructor
  · rintro ⟨slot, hslot, rfl⟩
    refine ⟨RowMajor.row idx.dim idx.vectors slot, ?_, by rw [Nat.zero_add]⟩
    rw [store, (h.index_iff id slot).mpr hslot, Option.map_some]
  · rintro ⟨v, hv, rfl⟩
    obtain ⟨slot, hslot, rfl⟩ := Option.map_eq_some_iff.mp hv
    exact ⟨slot, (h.index_iff id slot).mp hslot, by rw [Nat.zero_add]⟩

/-- The exact search returns the first `k` points by score and id. -/
theorem search_nearest (h : idx.Valid)
    (hK : K.PreordersOn (scores K idx query)) (hdim : query.length = idx.dim)
    (k : ℕ) :
    ∃ L, ScoredPoints K idx.metric query idx.store L ∧
      L.Pairwise (scoreLe K · ·) ∧ OrderOn (scoreLe K) L ∧
      idx.search K query k = .ok (L.take k) := by
  obtain ⟨L, hL, hscored⟩ := scoredPoints_scoreFrom h K query
  have horder := hscored.orderOn hK fun x hx => by
    obtain ⟨v, hv⟩ := (hscored.mem_iff x.1 x.2).mp hx
    exact ⟨x.1, v, hv⟩
  have hperm := List.mergeSort_perm L (scoreLe K)
  have hsorted := hscored.of_perm hperm
  refine ⟨L.mergeSort (scoreLe K), hsorted,
    pairwise_mergeSort horder.toPreorderOn, horder.mono hperm.subset, ?_⟩
  rw [search, if_neg (not_not_intro hdim)]
  split_ifs with hempty
  · rcases hempty with rfl | hlive
    · rfl
    · rw [hsorted.isScored.eq_nil (store_eq_none_of_live h hlive), List.take_nil]
      rfl
  · rw [hL]
    rfl

end BruteForceIndex

/-- At most `k` points with their scores, each once and in order; a point is
omitted only if there are `k` others before it. -/
structure ExactHits (K : Kernel) (metric : Metric) (query : List F32)
    (m : VectorStore) (k : ℕ) (hits : Hits) : Prop where
  length_le : hits.length ≤ k
  nodup : (hits.map Prod.fst).Nodup
  scored : ∀ hit ∈ hits, ∃ v, m hit.1 = some v ∧
    hit.2 = K.distance metric query v
  sorted : hits.Pairwise (BruteForceIndex.scoreLe K · ·)
  omitted : ∀ id v, m id = some v → id ∉ hits.map Prod.fst →
    hits.length = k ∧ ∀ hit ∈ hits,
      BruteForceIndex.scoreLe K hit (id, K.distance metric query v)

theorem Nearest.exactHits {K : Kernel} {metric : Metric} {query : List F32}
    {m : VectorStore} {k : ℕ} {hits : Hits}
    (h : Nearest K metric query m k hits) :
    ExactHits K metric query m k hits := by
  obtain ⟨L, hL, hsorted, rfl⟩ := h
  have htake := List.take_sublist k L
  refine ⟨List.length_take_le _ _, hL.nodup.sublist (htake.map _),
    fun hit hhit => (hL.mem_iff _ _).mp (htake.subset hhit),
    hsorted.sublist htake, fun id v hv hid => ?_⟩
  have hmem : (id, K.distance metric query v) ∈ L :=
    (hL.mem_iff _ _).mpr ⟨v, hv, rfl⟩
  have hdrop : (id, K.distance metric query v) ∈ L.drop k := by
    rw [← List.take_append_drop k L, List.mem_append] at hmem
    exact hmem.resolve_left fun htake =>
      hid (List.mem_map.mpr ⟨_, htake, rfl⟩)
  have hlong : k < L.length := by
    by_contra hshort
    rw [List.drop_eq_nil_of_le (not_lt.mp hshort)] at hdrop
    cases hdrop
  refine ⟨List.length_take_of_le hlong.le, fun hit hhit => ?_⟩
  rw [← List.take_append_drop k L, List.pairwise_append] at hsorted
  exact hsorted.2.2 hit hhit _ hdrop

end Quorvec
