import Quorvec.Hnsw.BruteForce
import Quorvec.Hnsw.ScoreOrder
import Quorvec.Support.ScoredOrder

/-!
# Whether the comparators are total orders

The six comparators of candidates and results take scores that do not compare
as equal, and four of them go on to compare nodes or ids.  A score that is not a
number compares with none, so it ties with scores that differ.  Each comparator
is a total order just on the lists where no such tie can be seen.
-/

namespace Quorvec

open ScoredOrder

namespace F32

/-- The bits without the sign. -/
def magnitude (x : F32) : UInt32 := x &&& 0x7fffffff

/-- The place among the numbers, the infinities included and both zeros at one
place; not-a-number has none. -/
def place (x : F32) : Option ℤ :=
  if 0x7f800000 < magnitude x then none
  else if x < 0x80000000 then some (magnitude x).toNat
  else some (-(magnitude x).toNat)

/-- `f32::partial_cmp`. -/
def partialCmp (a b : F32) : Option Ordering :=
  ScoredOrder.partialCmp (place a) (place b)

def zero : F32 := 0

def one : F32 := 0x3f800000

def nan : F32 := 0x7fc00000

example : partialCmp 0x80000000 zero = some .eq ∧
    partialCmp zero one = some .lt ∧ partialCmp one 0x7f800000 = some .lt ∧
    partialCmp nan nan = none := by
  decide +kernel

end F32

variable {K : Kernel}

theorem Kernel.cmp_eq (hK : K.partialCmp = F32.partialCmp) (a b : F32) :
    K.cmp a b =
      (ScoredOrder.partialCmp (F32.place a) (F32.place b)).getD .eq := by
  rw [Kernel.cmp, hK, F32.partialCmp]

/-- The comparison of numbers is a total preorder. -/
theorem Kernel.preordersOn_numbers (hK : K.partialCmp = F32.partialCmp) :
    K.PreordersOn {s | F32.place s ≠ none} where
  swap a _ b _ := by
    rw [Kernel.cmp_eq hK, Kernel.cmp_eq hK]
    cases ha : F32.place a <;> cases hb : F32.place b <;>
      simp only [ScoredOrder.partialCmp, Option.getD_none, Option.getD_some,
        Ordering.swap_eq]
    exact Std.OrientedCmp.eq_swap
  trans a ha b hb c hc hab hbc := by
    obtain ⟨r, hr⟩ := Option.ne_none_iff_exists'.mp ha
    obtain ⟨s, hs⟩ := Option.ne_none_iff_exists'.mp hb
    obtain ⟨t, ht⟩ := Option.ne_none_iff_exists'.mp hc
    rw [Kernel.cmp_eq hK, hr, hs] at hab
    rw [Kernel.cmp_eq hK, hs, ht] at hbc
    rw [Kernel.cmp_eq hK, hr, ht]
    simp only [ScoredOrder.partialCmp, Option.getD_some] at hab hbc ⊢
    exact Std.TransCmp.isLE_trans hab hbc

namespace Candidate

/-- The comparator of the stable sorts by distance. -/
def distCmp (K : Kernel) (a b : Candidate) : Ordering := K.cmp a.dist b.dist

theorem maxCmp_eq (hK : K.partialCmp = F32.partialCmp) :
    maxCmp K = compareBy (fun c => F32.place c.dist) node := by
  funext a b
  rw [maxCmp, Kernel.cmp_eq hK, compareBy]

theorem distCmp_eq (hK : K.partialCmp = F32.partialCmp) :
    distCmp K = compareBy (fun c => F32.place c.dist) (fun _ => ()) := by
  funext a b
  rw [distCmp, Kernel.cmp_eq hK, compareBy, Std.ReflOrd.compare_self,
    Ordering.then_eq]

theorem totalOn_maxCmp_iff (hK : K.partialCmp = F32.partialCmp)
    {cands : List Candidate} : TotalOn (maxCmp K) cands ↔
      Clear (fun c => F32.place c.dist) node cands := by
  rw [maxCmp_eq hK, totalOn_compareBy_iff]

theorem totalOn_minCmp_iff (hK : K.partialCmp = F32.partialCmp)
    {cands : List Candidate} : TotalOn (minCmp K) cands ↔
      Clear (fun c => F32.place c.dist) node cands := by
  rw [← totalOn_maxCmp_iff hK]
  exact totalOn_flip

theorem totalOn_distCmp_iff (hK : K.partialCmp = F32.partialCmp)
    {cands : List Candidate} : TotalOn (distCmp K) cands ↔
      (∀ a ∈ cands, F32.place a.dist ≠ none) ∨
        ∀ a ∈ cands, ∀ b ∈ cands, ∀ r s, F32.place a.dist = some r →
          F32.place b.dist = some s → r = s := by
  rw [distCmp_eq hK, totalOn_compareBy_iff, clear_unit_iff]

end Candidate

namespace BruteForceIndex

/-- The comparator of the sorts by score and id. -/
def scoreCmp (K : Kernel) (a b : UInt64 × F32) : Ordering :=
  (K.cmp a.2 b.2).then (compare a.1 b.1)

theorem scoreCmp_eq (hK : K.partialCmp = F32.partialCmp) :
    scoreCmp K = compareBy (fun hit => F32.place hit.2) Prod.fst := by
  funext a b
  rw [scoreCmp, Kernel.cmp_eq hK, compareBy]

theorem totalOn_scoreCmp_iff (hK : K.partialCmp = F32.partialCmp)
    {hits : List (UInt64 × F32)} : TotalOn (scoreCmp K) hits ↔
      Clear (fun hit => F32.place hit.2) Prod.fst hits := by
  rw [scoreCmp_eq hK, totalOn_compareBy_iff]

end BruteForceIndex

/-- A comparator that respects the scores leaves no score before a smaller
one. -/
theorem pairwise_not_gt {α : Type} {score : α → F32}
    {cmp : α → α → Ordering} {l : List α} (h : TotalOn cmp l)
    (hscore : ∀ a b, K.gt (score a) (score b) → cmp a b = .gt) :
    (l.mergeSort fun a b => (cmp a b).isLE).Pairwise
      fun a b => ¬ K.gt (score a) (score b) := by
  refine (SortedLists.pairwise_mergeSort h.preorderOn).imp fun hle hgt => ?_
  rw [hscore _ _ hgt] at hle
  cases hle

/-- Each of the six comparators is a total order on the entries it is given,
and the sorts leave the scores that compare in ascending order, if and only if
no tie with a not-a-number can be seen: in the heaps and in the sorts that break
ties, none whose key lies between the keys of a farther and a nearer entry; in
the other sorts, none at all unless all numbers are equal. -/
theorem comparators_total_iff (hK : K.partialCmp = F32.partialCmp)
    (cands : List Candidate) (hits : List (UInt64 × F32)) :
    (TotalOn (Candidate.minCmp K) cands ↔
      Clear (fun c => F32.place c.dist) Candidate.node cands) ∧
    (TotalOn (Candidate.maxCmp K) cands ↔
      Clear (fun c => F32.place c.dist) Candidate.node cands) ∧
    (TotalOn (Candidate.distCmp K) cands ∧
        (Candidate.sortByDist K cands).Pairwise
          (fun a b => ¬ K.gt a.dist b.dist) ↔
      (∀ a ∈ cands, F32.place a.dist ≠ none) ∨
        ∀ a ∈ cands, ∀ b ∈ cands, ∀ r s, F32.place a.dist = some r →
          F32.place b.dist = some s → r = s) ∧
    (TotalOn (BruteForceIndex.scoreCmp K) hits ∧
        (hits.mergeSort (BruteForceIndex.scoreLe K)).Pairwise
          (fun a b => ¬ K.gt a.2 b.2) ↔
      Clear (fun hit => F32.place hit.2) Prod.fst hits) := by
  refine ⟨Candidate.totalOn_minCmp_iff hK, Candidate.totalOn_maxCmp_iff hK,
    ?_, ?_⟩
  · rw [← Candidate.totalOn_distCmp_iff hK]
    refine ⟨And.left, fun h => ⟨h, pairwise_not_gt h fun a b hgt => ?_⟩⟩
    exact Kernel.gt_iff_cmp.mp hgt
  · rw [← BruteForceIndex.totalOn_scoreCmp_iff hK]
    refine ⟨And.left, fun h => ⟨h, pairwise_not_gt h fun a b hgt => ?_⟩⟩
    simp only [Kernel.gt_iff_cmp.mp hgt,
      Ordering.gt_then]

namespace Kernel

/-- Squared distances on a line, of the points zero and one and of a point that
is not a number. -/
def onLine : Kernel where
  distance _ v w :=
    if F32.nan ∈ v ++ w then F32.nan
    else if v = w then F32.zero
    else F32.one
  partialCmp := F32.partialCmp
  infinity := 0x7f800000
  level _ _ := 0

theorem onLine_partialCmp : onLine.partialCmp = F32.partialCmp := by
  rw [onLine]

end Kernel

theorem comparators_total_numbers :
    TotalOn (BruteForceIndex.scoreCmp .onLine) [(1, F32.one), (2, F32.zero)] ∧
      TotalOn (Candidate.distCmp .onLine) [⟨F32.one, 0⟩, ⟨F32.zero, 1⟩] := by
  obtain ⟨-, -, hdist, hscore⟩ :=
    comparators_total_iff Kernel.onLine_partialCmp
      [⟨F32.one, 0⟩, ⟨F32.zero, 1⟩] [(1, F32.one), (2, F32.zero)]
  have hplaces : F32.place F32.one ≠ none ∧ F32.place F32.zero ≠ none := by
    decide +kernel
  constructor
  · refine (hscore.mpr fun n hn hnone => ?_).1
    simp only [List.mem_cons, List.not_mem_nil, or_false] at hn
    rcases hn with rfl | rfl
    · exact absurd hnone hplaces.1
    · exact absurd hnone hplaces.2
  · refine (hdist.mpr (.inl fun a ha => ?_)).1
    simp only [List.mem_cons, List.not_mem_nil, or_false] at ha
    rcases ha with rfl | rfl
    · exact hplaces.1
    · exact hplaces.2

/-- A collection of three points on a line, the second of which is not a
number. -/
def nanScores : Except IndexError (List (UInt64 × F32)) := do
  let idx ← BruteForceIndex.new 1 .l2
  let idx ← idx.insert 1 [F32.one]
  let idx ← idx.insert 2 [F32.nan]
  let idx ← idx.insert 3 [F32.zero]
  idx.scoreFrom .onLine [F32.zero] 0 idx.ids

/-- The middle point ties with both others, and each comparator takes it to be
between them, though the last is nearer than the first. -/
theorem comparators_not_transitive :
    nanScores.toOption =
        some [(1, F32.one), (2, F32.nan), (3, F32.zero)] ∧
      ¬ TotalOn (BruteForceIndex.scoreCmp .onLine)
        [(1, F32.one), (2, F32.nan), (3, F32.zero)] ∧
      ¬ TotalOn (Candidate.minCmp .onLine)
        [⟨F32.one, 0⟩, ⟨F32.nan, 1⟩, ⟨F32.zero, 2⟩] ∧
      ¬ TotalOn (Candidate.maxCmp .onLine)
        [⟨F32.one, 0⟩, ⟨F32.nan, 1⟩, ⟨F32.zero, 2⟩] ∧
      ¬ TotalOn (Candidate.distCmp .onLine)
        [⟨F32.one, 0⟩, ⟨F32.nan, 1⟩, ⟨F32.zero, 2⟩] := by
  refine ⟨by decide +kernel, fun h => ?_, fun h => ?_, fun h => ?_,
    fun h => ?_⟩
  · exact absurd (h.trans (1, F32.one) (by decide) (2, F32.nan) (by decide)
      (3, F32.zero) (by decide) (by decide +kernel) (by decide +kernel))
      (by decide +kernel)
  · exact absurd (h.trans ⟨F32.zero, 2⟩ (by decide) ⟨F32.nan, 1⟩ (by decide)
      ⟨F32.one, 0⟩ (by decide) (by decide +kernel) (by decide +kernel))
      (by decide +kernel)
  · exact absurd (h.trans ⟨F32.one, 0⟩ (by decide) ⟨F32.nan, 1⟩ (by decide)
      ⟨F32.zero, 2⟩ (by decide) (by decide +kernel) (by decide +kernel))
      (by decide +kernel)
  · exact absurd (h.trans ⟨F32.one, 0⟩ (by decide) ⟨F32.nan, 1⟩ (by decide)
      ⟨F32.zero, 2⟩ (by decide) (by decide +kernel) (by decide +kernel))
      (by decide +kernel)

end Quorvec
