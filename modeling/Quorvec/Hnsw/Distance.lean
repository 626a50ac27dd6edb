import Mathlib

/-!
# Distances and comparisons of scores

Scores are single-precision floats, held as bit patterns.  What the index
computes with floating-point arithmetic is a parameter, the kernel: the
distance of two vectors, the partial comparison of two scores, infinity, and
the layer drawn for a new node.
-/

namespace Quorvec

/-- A single-precision float, as its bit pattern. -/
abbrev F32 := UInt32

/-- Distance metric of a collection. -/
inductive Metric
  | l2
  | cosine
deriving DecidableEq, Repr

structure Kernel where
  /-- `Metric::distance`. -/
  distance : Metric → List F32 → List F32 → F32
  /-- `f32::partial_cmp`. -/
  partialCmp : F32 → F32 → Option Ordering
  /-- `f32::INFINITY`. -/
  infinity : F32
  /-- `floor(-ln(u) / ln(m))` for the unit `u` made of 53 random bits. -/
  level : ℕ → UInt64 → ℕ

namespace Kernel

variable (K : Kernel)

/-- `a < b` on scores. -/
def lt (a b : F32) : Bool := K.partialCmp a b = some .lt

/-- `a > b` on scores. -/
def gt (a b : F32) : Bool := K.partialCmp a b = some .gt

/-- `partial_cmp(..).unwrap_or(Equal)`. -/
def cmp (a b : F32) : Ordering := (K.partialCmp a b).getD .eq

/-- The kernel of points that are all equal: their distances are zero, and
zero ties with zero. -/
def equalPoints : Kernel where
  distance _ _ _ := 0
  partialCmp _ _ := some .eq
  infinity := 0x7F800000
  level _ _ := 0

end Kernel

/-- A node of the graph with its distance to the query. -/
structure Candidate where
  dist : F32
  node : ℕ
deriving DecidableEq, Repr

namespace Candidate

variable (K : Kernel)

/-- `Ord` of `MinCandidate`: reversed, so that the nearest is the greatest. -/
def minCmp (a b : Candidate) : Ordering :=
  (K.cmp b.dist a.dist).then (compare b.node a.node)

/-- `Ord` of `MaxCandidate`: the farthest is the greatest. -/
def maxCmp (a b : Candidate) : Ordering :=
  (K.cmp a.dist b.dist).then (compare a.node b.node)

def minLe (a b : Candidate) : Bool := (minCmp K a b).isLE

def maxLe (a b : Candidate) : Bool := (maxCmp K a b).isLE

/-- The stable sort by distance, nearest first. -/
def sortByDist (cands : List Candidate) : List Candidate :=
  cands.mergeSort fun a b => (K.cmp a.dist b.dist).isLE

/-- `min_by` on the distance: the first of the nearest. -/
def nearest : List Candidate → Option Candidate
  | [] => none
  | c :: cs => some (cs.foldl
      (fun best c => if K.cmp best.dist c.dist = .gt then c else best) c)

theorem sortByDist_perm (cands : List Candidate) :
    (sortByDist K cands).Perm cands :=
  List.mergeSort_perm _ _

theorem nearest_mem {cands : List Candidate} {c : Candidate}
    (h : nearest K cands = some c) : c ∈ cands := by
  cases cands with
  | nil => simp [nearest] at h
  | cons first cs =>
      rw [nearest, Option.some.injEq] at h
      subst h
      have hfold : ∀ (l : List Candidate) (b : Candidate),
          l.foldl (fun best c =>
            if K.cmp best.dist c.dist = .gt then c else best) b ∈ b :: l := by
        intro l
        induction l with
        | nil => exact fun b => List.mem_cons_self
        | cons d l ih =>
            intro b
            rw [List.foldl_cons]
            rcases List.mem_cons.mp (ih _) with hb | hl
            · rw [hb]
              split_ifs <;> simp
            · exact List.mem_cons_of_mem _ (List.mem_cons_of_mem _ hl)
      exact hfold cs first

end Candidate

end Quorvec
