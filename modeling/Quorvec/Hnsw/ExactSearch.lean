import Quorvec.Hnsw.NearestPoints
import Quorvec.Hnsw.ScoreLaws
import Quorvec.Hnsw.VectorIndex

/-!
# The exact search after any history

What the exact index returns depends on the partial map it holds and on nothing
else: not on the order of the inserts, on replaced vectors, or on the slots that
deletes have freed and inserts have taken again.
-/

namespace Quorvec

open CallMachine SortedLists

namespace BruteForceIndex

variable {K : Kernel} {dim : ℕ} {metric : Metric} {idx₀ : BruteForceIndex}

/-- No call changes the metric. -/
theorem metric_call {idx : BruteForceIndex} (h : idx.Valid)
    (c : VectorIndexCall) : (vectorIndex.call idx c).1.metric = idx.metric := by
  cases c with
  | insert id vector =>
      by_cases hdim : vector.length = idx.dim
      · obtain ⟨idx', hinsert, hup⟩ := insert_returns h id hdim
        have hcall : vectorIndex.insert idx id vector = (idx', .ok ()) :=
          insertChecked_of_ok hdim hinsert
        simp only [VectorIndex.call, hcall]
        exact hup.metric_eq
      · have hcall : vectorIndex.insert idx id vector =
            (idx, .error (.dimMismatch idx.dim vector.length)) :=
          insertChecked_mismatch hdim _
        simp only [VectorIndex.call, hcall]
  | delete id =>
      obtain ⟨⟨idx', removed⟩, hdelete, hup, -⟩ := delete_returns h id
      have hcall : vectorIndex.delete idx id = .ok (idx', removed) := hdelete
      simp only [VectorIndex.call, hcall]
      exact hup.metric_eq
  | getVector id => rfl
  | len => rfl

/-- What an index holds after any calls. -/
theorem valid_run (hnew : new dim metric = .ok idx₀)
    (calls : List VectorIndexCall) :
    (run vectorIndex.call idx₀ calls).1.Valid ∧
      (run vectorIndex.call idx₀ calls).1.dim = dim ∧
      (run vectorIndex.call idx₀ calls).1.metric = metric ∧
      (run vectorIndex.call idx₀ calls).1.store =
        (run (VectorStore.call dim) (fun _ => none) calls).1 := by
  have hdim : 0 < dim := by
    by_contra hnot
    rw [new, if_neg hnot] at hnew
    cases hnew
  obtain ⟨hvalid, hdim_eq, hmetric, hstore⟩ :=
    (new_returns metric hdim).of_eq_ok hnew
  have hsim := (implements dim).simulates
  have hrun : ∀ (calls : List VectorIndexCall) (idx : BruteForceIndex) m,
      idx.Valid ∧ idx.dim = dim ∧ idx.store = m → idx.metric = metric →
        (run vectorIndex.call idx calls).1.metric = metric := by
    intro calls
    induction calls with
    | nil => exact fun idx m _ hidx => hidx
    | cons c calls ih =>
        intro idx m hholds hidx
        exact ih _ _ (hsim idx m c hholds).2
          ((metric_call hholds.1 c).trans hidx)
  obtain ⟨hvalid', hdim', hstore'⟩ :=
    (hsim.run ⟨hvalid, hdim_eq, hstore⟩ calls).2
  exact ⟨hvalid', hdim', hrun calls _ _ ⟨hvalid, hdim_eq, hstore⟩ hmetric,
    hstore'⟩

section Search

variable {m : UInt64 → Option (List F32)} {query : List F32}

/-- After calls that lead to a map, the search returns the first points of the
map in the order of the results. -/
theorem search_run (hnew : new dim metric = .ok idx₀)
    {calls : List VectorIndexCall}
    (hcalls : (run (VectorStore.call dim) (fun _ => none) calls).1 = m)
    (hquery : query.length = dim) (k : ℕ)
    (hK : K.PreordersOn {s | ∃ id v, m id = some v ∧
      s = K.distance metric query v}) :
    ∃ L, ScoredPoints K metric query m L ∧ L.Pairwise (scoreLe K · ·) ∧
      OrderOn (scoreLe K) L ∧
      (run vectorIndex.call idx₀ calls).1.search K query k =
        .ok (L.take k) := by
  obtain ⟨hvalid, hdim, hmetric, hstore⟩ := valid_run hnew calls
  have hnearest := search_nearest hvalid
    (by rw [scores, hmetric, hstore, hcalls]; exact hK)
    (hquery.trans hdim.symm) k
  rw [hmetric, hstore, hcalls] at hnearest
  exact hnearest

theorem search_run_mismatch (hnew : new dim metric = .ok idx₀)
    (calls : List VectorIndexCall) (hquery : query.length ≠ dim) (k : ℕ) :
    (run vectorIndex.call idx₀ calls).1.search K query k =
      .error (.dimMismatch dim query.length) := by
  obtain ⟨-, hdim, -⟩ := valid_run hnew calls
  rw [search, hdim, if_pos hquery]

theorem scoredPoints_unique {L L' : Hits}
    (horder : OrderOn (scoreLe K) L) (hL : ScoredPoints K metric query m L)
    (hsorted : L.Pairwise (scoreLe K · ·))
    (hL' : ScoredPoints K metric query m L')
    (hsorted' : L'.Pairwise (scoreLe K · ·)) : L' = L := by
  have hperm := hL'.isScored.perm hL.isScored
  exact horder.eq_of_perm hperm hperm.subset hsorted' hsorted

end Search

/-- After any calls the exact search returns the first `k` of the points held,
by distance and then by id, and whatever other calls led to the same points
lead to the same answer. -/
theorem search_of_calls (hnew : new dim metric = .ok idx₀)
    (calls : List VectorIndexCall) (query : List F32) (k : ℕ)
    (hK : K.PreordersOn {s | ∃ id v,
      (run (VectorStore.call dim) (fun _ => none) calls).1 id = some v ∧
        s = K.distance metric query v}) :
    let idx := (run vectorIndex.call idx₀ calls).1
    let m := (run (VectorStore.call dim) (fun _ => none) calls).1
    (query.length = dim → ∃ L, ScoredPoints K metric query m L ∧
      L.Pairwise (scoreLe K · ·) ∧
      (∀ L', ScoredPoints K metric query m L' →
        L'.Pairwise (scoreLe K · ·) → L' = L) ∧
      idx.search K query k = .ok (L.take k) ∧
      (L.take k).length = min k idx.live ∧
      idx.live = {id | (m id).isSome}.ncard) ∧
    (query.length ≠ dim →
      idx.search K query k = .error (.dimMismatch dim query.length)) ∧
    ∀ calls', (run (VectorStore.call dim) (fun _ => none) calls').1 = m →
      (run vectorIndex.call idx₀ calls').1.search K query k =
        idx.search K query k := by
  intro idx m
  have hlive : idx.live = {id | (m id).isSome}.ncard := by
    obtain ⟨hvalid, -, -, hstore⟩ := valid_run hnew calls
    have hlen := len_eq hvalid
    rw [hstore] at hlen
    exact hlen
  refine ⟨fun hquery => ?_,
    fun hquery => search_run_mismatch hnew calls hquery k,
    fun calls' hsame => ?_⟩
  · obtain ⟨L, hL, hsorted, horder, hsearch⟩ := search_run hnew rfl hquery k hK
    refine ⟨L, hL, hsorted, fun L' => scoredPoints_unique horder hL hsorted,
      hsearch, ?_, hlive⟩
    rw [List.length_take, hlive, hL.isScored.length_eq]
  · by_cases hquery : query.length = dim
    · obtain ⟨L, hL, hsorted, horder, hsearch⟩ :=
        search_run hnew rfl hquery k hK
      obtain ⟨L', hL', hsorted', -, hsearch'⟩ :=
        search_run hnew hsame hquery k hK
      rw [hsearch', scoredPoints_unique horder hL hsorted hL' hsorted']
      exact hsearch.symm
    · rw [search_run_mismatch hnew calls' hquery]
      exact (search_run_mismatch hnew calls hquery k).symm

/-- One point replaced by another in its slot, and the same points inserted the
other way round. -/
theorem search_reused_slot :
    (run vectorIndex.call ⟨1, .l2, [], [], ∅, [], 0⟩
      [.insert 3 [F32.one], .insert 2 [F32.zero]]).1.search .onLine
        [F32.zero] 1 =
    (run vectorIndex.call ⟨1, .l2, [], [], ∅, [], 0⟩
      [.insert 1 [F32.one], .insert 2 [F32.zero], .delete 1,
        .insert 3 [F32.one]]).1.search .onLine [F32.zero] 1 := by
  have hcalls : (run (VectorStore.call 1) (fun _ => none)
      [.insert 1 [F32.one], .insert 2 [F32.zero], .delete 1,
        .insert 3 [F32.one]]).1 = fun id =>
      if id = 3 then some [F32.one] else
        if id = 2 then some [F32.zero] else none := by
    funext id
    simp only [run, VectorStore.call, List.length_singleton, if_true,
      Function.update_apply]
    split_ifs with hthree hone htwo
    · rfl
    · rw [hone] at htwo
      cases htwo
    all_goals rfl
  have hcalls' : (run (VectorStore.call 1) (fun _ => none)
      [.insert 3 [F32.one], .insert 2 [F32.zero]]).1 = fun id =>
      if id = 3 then some [F32.one] else
        if id = 2 then some [F32.zero] else none := by
    funext id
    simp only [run, VectorStore.call, List.length_singleton, if_true,
      Function.update_apply]
    split_ifs with htwo hthree
    · rw [htwo] at hthree
      cases hthree
    all_goals rfl
  have hnew : new 1 .l2 = .ok ⟨1, .l2, [], [], ∅, [], 0⟩ := rfl
  refine (search_of_calls (K := .onLine) hnew _ _ _ ?_).2.2 _
    (hcalls'.trans hcalls.symm)
  refine (Kernel.preordersOn_numbers Kernel.onLine_partialCmp).mono ?_
  rintro _ ⟨id, v, hv, rfl⟩
  rw [hcalls] at hv
  dsimp only at hv
  split_ifs at hv with hthree htwo
  all_goals
    obtain rfl := Option.some.inj hv
    decide +kernel

end BruteForceIndex

end Quorvec
