import Quorvec.Hnsw.Distance
import Quorvec.Support.SortedLists

/-!
# Scores in a total preorder

The comparison of scores takes incomparable ones as equal, so it need not be
transitive on all bit patterns.  Where it is a total preorder on the scores of a
search, sorting candidates sorts them, and both heaps of the search are ordered.
-/

namespace Quorvec

open SortedLists

namespace Kernel

/-- The distances within a set of vectors. -/
def scores (K : Kernel) (metric : Metric) (V : Set (List F32)) : Set F32 :=
  {d | ∃ v ∈ V, ∃ w ∈ V, d = K.distance metric v w}

/-- The comparison is a total preorder on the scores in `S`. -/
structure PreordersOn (K : Kernel) (S : Set F32) : Prop where
  swap : ∀ a ∈ S, ∀ b ∈ S, K.cmp b a = (K.cmp a b).swap
  trans : ∀ a ∈ S, ∀ b ∈ S, ∀ c ∈ S, (K.cmp a b).isLE →
    (K.cmp b c).isLE → (K.cmp a c).isLE

/-- `<` is a strict order of the scores in `S`. -/
abbrev StrictOn (K : Kernel) (S : Set F32) : Prop :=
  IsStrictOrder S fun a b => K.lt a b

/-- `<` is a strict weak order of the scores in `S`. -/
abbrev StrictWeakOn (K : Kernel) (S : Set F32) : Prop :=
  IsStrictWeakOrder S fun a b => K.lt a b

variable {K : Kernel} {S : Set F32} {a b c : F32}

theorem lt_iff_cmp : K.lt a b ↔ K.cmp a b = .lt := by
  rw [lt, cmp, decide_eq_true_iff]
  cases K.partialCmp a b <;> simp

theorem gt_iff_cmp : K.gt a b ↔ K.cmp a b = .gt := by
  rw [gt, cmp, decide_eq_true_iff]
  cases K.partialCmp a b <;> simp

namespace PreordersOn

theorem mono (h : K.PreordersOn S) {T : Set F32} (hsub : T ⊆ S) :
    K.PreordersOn T where
  swap a ha b hb := h.swap a (hsub ha) b (hsub hb)
  trans a ha b hb c hc := h.trans a (hsub ha) b (hsub hb) c (hsub hc)

theorem le_of_not_lt (h : K.PreordersOn S) (ha : a ∈ S) (hb : b ∈ S)
    (hnot : ¬ K.lt a b) : (K.cmp b a).isLE := by
  rw [lt_iff_cmp] at hnot
  rw [h.swap a ha b hb]
  revert hnot
  cases K.cmp a b <;> simp

theorem strictWeakOn (h : K.PreordersOn S) : K.StrictWeakOn S where
  irrefl := by
    rintro ⟨a, ha⟩ hlt
    have hswap := h.swap a ha a ha
    rw [lt_iff_cmp.mp hlt] at hswap
    cases hswap
  trans := by
    rintro ⟨a, ha⟩ ⟨b, hb⟩ ⟨c, hc⟩ hab hbc
    by_contra hac
    have hca := h.le_of_not_lt ha hc hac
    have hba := h.trans b hb c hc a ha (by rw [lt_iff_cmp.mp hbc]; rfl) hca
    rw [h.swap a ha b hb, lt_iff_cmp.mp hab] at hba
    cases hba
  incomp_trans := by
    rintro ⟨a, ha⟩ ⟨b, hb⟩ ⟨c, hc⟩ ⟨hab, hba⟩ ⟨hbc, hcb⟩
    have hle : ∀ x ∈ S, ∀ y ∈ S, ∀ z ∈ S, ¬ K.lt y x → ¬ K.lt z y →
        ¬ K.lt z x := by
      intro x hx y hy z hz hyx hzy hzx
      have hxz := h.trans x hx y hy z hz (h.le_of_not_lt hy hx hyx)
        (h.le_of_not_lt hz hy hzy)
      rw [h.swap z hz x hx, lt_iff_cmp.mp hzx] at hxz
      cases hxz
    exact ⟨hle c hc b hb a ha hbc hab, hle a ha b hb c hc hba hcb⟩

theorem total (h : K.PreordersOn S) (ha : a ∈ S) (hb : b ∈ S) :
    (K.cmp a b).isLE || (K.cmp b a).isLE := by
  rw [h.swap a ha b hb]
  cases K.cmp a b <;> rfl

theorem preorderOn {α : Type} (h : K.PreordersOn S) {f : α → F32} {l : List α}
    (hl : ∀ x ∈ l, f x ∈ S) :
    PreorderOn (fun x y => (K.cmp (f x) (f y)).isLE) l where
  total x hx y hy := h.total (hl x hx) (hl y hy)
  trans x hx y hy z hz := h.trans _ (hl x hx) _ (hl y hy) _ (hl z hz)

/-- Equal scores may be ordered further by a key. -/
theorem preorderOn_then {α β : Type} [Ord β] [Std.TransOrd β]
    (h : K.PreordersOn S) {f : α → F32} (g : α → β) {l : List α}
    (hl : ∀ x ∈ l, f x ∈ S) :
    PreorderOn (fun x y =>
      ((K.cmp (f x) (f y)).then (compare (g x) (g y))).isLE) l := by
  constructor
  · intro x hx y hy
    have hkeys : compare (g y) (g x) = (compare (g x) (g y)).swap :=
      Std.OrientedCmp.eq_swap
    rw [h.swap _ (hl x hx) _ (hl y hy), hkeys]
    cases K.cmp (f x) (f y) <;> cases compare (g x) (g y) <;> rfl
  · intro x hx y hy z hz hxy hyz
    have htrans := h.trans _ (hl x hx) _ (hl y hy) _ (hl z hz)
    have htrans' := h.trans _ (hl z hz) _ (hl x hx) _ (hl y hy)
    have htrans'' := h.trans _ (hl y hy) _ (hl z hz) _ (hl x hx)
    rw [h.swap _ (hl x hx) _ (hl z hz), h.swap _ (hl y hy) _ (hl z hz)]
      at htrans'
    rw [h.swap _ (hl x hx) _ (hl z hz), h.swap _ (hl x hx) _ (hl y hy)]
      at htrans''
    have hkeys : (compare (g x) (g y)).isLE → (compare (g y) (g z)).isLE →
        (compare (g x) (g z)).isLE := Std.TransCmp.isLE_trans
    cases hxy' : K.cmp (f x) (f y) <;> cases hyz' : K.cmp (f y) (f z) <;>
      cases hxz' : K.cmp (f x) (f z) <;> simp_all

end PreordersOn

end Kernel

namespace Candidate

variable {K : Kernel} {S : Set F32} {l : List Candidate}

theorem preorderOn_maxLe (h : K.PreordersOn S) (hl : ∀ c ∈ l, c.dist ∈ S) :
    PreorderOn (maxLe K) l :=
  h.preorderOn_then node hl

theorem preorderOn_minLe (h : K.PreordersOn S) (hl : ∀ c ∈ l, c.dist ∈ S) :
    PreorderOn (minLe K) l where
  total a ha b hb := (h.preorderOn_then node hl).total b hb a ha
  trans a ha b hb c hc hab hbc :=
    (h.preorderOn_then node hl).trans c hc b hb a ha hbc hab

theorem cmp_le_of_maxLe {a b : Candidate} (h : maxLe K a b) :
    (K.cmp a.dist b.dist).isLE := by
  rw [maxLe, maxCmp] at h
  revert h
  cases K.cmp a.dist b.dist <;> simp

theorem cmp_le_of_minLe {a b : Candidate} (h : minLe K a b) :
    (K.cmp b.dist a.dist).isLE := by
  rw [minLe, minCmp] at h
  revert h
  cases K.cmp b.dist a.dist <;> simp

end Candidate

end Quorvec
