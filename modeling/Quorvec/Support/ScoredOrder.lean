import Quorvec.Support.SortedLists

/-!
# Comparing by a partial score, then by a key

An entry without a score ties with every other on the score, so that only the
keys order the two.  Such a comparison is reflexive and antisymmetric.  It is
transitive just where no entry without a score has its key between the keys of
two entries whose scores are the other way round.
-/

namespace ScoredOrder

variable {α ρ κ : Type*}

/-- The comparison is a total order on the members of `l`. -/
structure TotalOn (cmp : α → α → Ordering) (l : List α) : Prop where
  refl : ∀ a ∈ l, cmp a a = .eq
  antisymm : ∀ a ∈ l, ∀ b ∈ l, cmp b a = (cmp a b).swap
  trans : ∀ a ∈ l, ∀ b ∈ l, ∀ c ∈ l, (cmp a b).isLE → (cmp b c).isLE →
    (cmp a c).isLE

/-- Turning a comparison around. -/
theorem totalOn_flip {cmp : α → α → Ordering} {l : List α} :
    TotalOn (fun a b => cmp b a) l ↔ TotalOn cmp l := by
  constructor
  · intro h
    exact ⟨h.refl, fun a ha b hb => h.antisymm b hb a ha,
      fun a ha b hb c hc hab hbc => h.trans c hc b hb a ha hbc hab⟩
  · intro h
    exact ⟨h.refl, fun a ha b hb => h.antisymm b hb a ha,
      fun a ha b hb c hc hab hbc => h.trans c hc b hb a ha hbc hab⟩

theorem TotalOn.preorderOn {cmp : α → α → Ordering} {l : List α}
    (h : TotalOn cmp l) :
    SortedLists.PreorderOn (fun a b => (cmp a b).isLE) l where
  total a ha b hb := by
    rw [h.antisymm a ha b hb]
    cases cmp a b <;> rfl
  trans := h.trans

section Scores

variable [LinearOrder ρ]

/-- Scores compare only where both are present. -/
def partialCmp : Option ρ → Option ρ → Option Ordering
  | some r, some s => some (compare r s)
  | _, _ => none

variable [Ord κ] (score : α → Option ρ) (key : α → κ)

/-- By score, then by key. -/
def compareBy (a b : α) : Ordering :=
  ((partialCmp (score a) (score b)).getD .eq).then (compare (key a) (key b))

/-- No key of an entry without a score lies between the keys of two entries
whose scores are the other way round. -/
def Clear (l : List α) : Prop :=
  ∀ n ∈ l, score n = none → ∀ x ∈ l, ∀ y ∈ l, ∀ r s, score x = some r →
    score y = some s → r < s →
      ¬ ((compare (key y) (key n)).isLE ∧ (compare (key n) (key x)).isLE)

variable {score key} {a b : α} {l : List α}

theorem isLE_compareBy_of_some {r s : ρ} (ha : score a = some r)
    (hb : score b = some s) :
    (compareBy score key a b).isLE ↔
      r < s ∨ r = s ∧ (compare (key a) (key b)).isLE := by
  rw [compareBy, ha, hb, partialCmp, Option.getD_some]
  rcases lt_trichotomy r s with hlt | rfl | hgt
  · simp [compare_lt_iff_lt.mpr hlt, hlt]
  · simp
  · simp [compare_gt_iff_gt.mpr hgt, hgt.not_gt, hgt.ne']

theorem isLE_compareBy_of_none (h : score a = none ∨ score b = none) :
    (compareBy score key a b).isLE ↔ (compare (key a) (key b)).isLE := by
  have hnone : partialCmp (score a) (score b) = none := by
    rcases h with h | h
    · rw [h]
      rfl
    · rw [h]
      cases score a <;> rfl
  rw [compareBy, hnone, Option.getD_none, Ordering.eq_then]

theorem compareBy_self [Std.ReflOrd κ] (a : α) :
    compareBy score key a a = .eq := by
  rw [compareBy, Std.ReflOrd.compare_self]
  cases h : score a <;> simp [partialCmp]

theorem compareBy_swap [Std.OrientedOrd κ] (a b : α) :
    compareBy score key b a = (compareBy score key a b).swap := by
  have hkeys : compare (key b) (key a) = (compare (key a) (key b)).swap :=
    Std.OrientedCmp.eq_swap
  rw [compareBy, compareBy, hkeys, Ordering.swap_then]
  cases ha : score a <;> cases hb : score b <;> simp only [partialCmp,
    Option.getD_none, Option.getD_some, Ordering.swap_eq]
  rename_i r s
  exact congrArg (Ordering.then · _) Std.OrientedCmp.eq_swap

/-! ### Transitivity, by the scores that are present -/

section Transitive

variable [Std.TransOrd κ] {c : α}

theorem isLE_key_of_not (h : ¬ (compare (key a) (key b)).isLE) :
    (compare (key b) (key a)).isLE := by
  have hswap : compare (key b) (key a) = (compare (key a) (key b)).swap :=
    Std.OrientedCmp.eq_swap
  rw [hswap]
  revert h
  cases compare (key a) (key b) <;> simp

theorem isLE_trans_of_some {r s t : ρ} (ha : score a = some r)
    (hb : score b = some s) (hc : score c = some t)
    (hab : (compareBy score key a b).isLE)
    (hbc : (compareBy score key b c).isLE) :
    (compareBy score key a c).isLE := by
  rw [isLE_compareBy_of_some ha hb] at hab
  rw [isLE_compareBy_of_some hb hc] at hbc
  rw [isLE_compareBy_of_some ha hc]
  rcases hab with hrs | ⟨rfl, hab⟩
  · rcases hbc with hst | ⟨rfl, -⟩
    · exact .inl (hrs.trans hst)
    · exact .inl hrs
  · rcases hbc with hst | ⟨rfl, hbc⟩
    · exact .inl hst
    · exact .inr ⟨rfl, Std.TransCmp.isLE_trans hab hbc⟩

variable (h : Clear score key l) (ha : a ∈ l) (hb : b ∈ l) (hc : c ∈ l)
variable (hab : (compareBy score key a b).isLE)
variable (hbc : (compareBy score key b c).isLE)

include h ha hb hc hab hbc

theorem Clear.isLE_trans_middle (hnone : score b = none) :
    (compareBy score key a c).isLE := by
  rw [isLE_compareBy_of_none (.inr hnone)] at hab
  rw [isLE_compareBy_of_none (.inl hnone)] at hbc
  rcases hsa : score a with _ | r
  · exact (isLE_compareBy_of_none (.inl hsa)).mpr
      (Std.TransCmp.isLE_trans hab hbc)
  rcases hsc : score c with _ | t
  · exact (isLE_compareBy_of_none (.inr hsc)).mpr
      (Std.TransCmp.isLE_trans hab hbc)
  rw [isLE_compareBy_of_some hsa hsc]
  rcases lt_trichotomy r t with hlt | heq | hgt
  · exact .inl hlt
  · exact .inr ⟨heq, Std.TransCmp.isLE_trans hab hbc⟩
  · exact absurd ⟨hab, hbc⟩ (h b hb hnone c hc a ha t r hsc hsa hgt)

theorem Clear.isLE_trans_left (hnone : score a = none) :
    (compareBy score key a c).isLE := by
  rw [isLE_compareBy_of_none (.inl hnone)] at hab ⊢
  rcases hsb : score b with _ | s
  · rw [isLE_compareBy_of_none (.inl hsb)] at hbc
    exact Std.TransCmp.isLE_trans hab hbc
  rcases hsc : score c with _ | t
  · rw [isLE_compareBy_of_none (.inr hsc)] at hbc
    exact Std.TransCmp.isLE_trans hab hbc
  rw [isLE_compareBy_of_some hsb hsc] at hbc
  rcases hbc with hlt | ⟨-, hbc⟩
  · by_contra hnot
    exact h a ha hnone b hb c hc s t hsb hsc hlt ⟨isLE_key_of_not hnot, hab⟩
  · exact Std.TransCmp.isLE_trans hab hbc

theorem Clear.isLE_trans_right (hnone : score c = none) :
    (compareBy score key a c).isLE := by
  rw [isLE_compareBy_of_none (.inr hnone)] at hbc ⊢
  rcases hsb : score b with _ | s
  · rw [isLE_compareBy_of_none (.inr hsb)] at hab
    exact Std.TransCmp.isLE_trans hab hbc
  rcases hsa : score a with _ | r
  · rw [isLE_compareBy_of_none (.inl hsa)] at hab
    exact Std.TransCmp.isLE_trans hab hbc
  rw [isLE_compareBy_of_some hsa hsb] at hab
  rcases hab with hlt | ⟨-, hab⟩
  · by_contra hnot
    exact h c hc hnone a ha b hb r s hsa hsb hlt ⟨hbc, isLE_key_of_not hnot⟩
  · exact Std.TransCmp.isLE_trans hab hbc

end Transitive

/-- A comparison by partial scores is a total order exactly on the clear
lists. -/
theorem totalOn_compareBy_iff [Std.TransOrd κ] :
    TotalOn (compareBy score key) l ↔ Clear score key l := by
  constructor
  · rintro h n hn hnone x hx y hy r s hr hs hlt ⟨hyn, hnx⟩
    have hyx := h.trans y hy n hn x hx
      ((isLE_compareBy_of_none (.inr hnone)).mpr hyn)
      ((isLE_compareBy_of_none (.inl hnone)).mpr hnx)
    rw [isLE_compareBy_of_some hs hr] at hyx
    rcases hyx with hlt' | ⟨heq, -⟩
    · exact hlt.not_gt hlt'
    · exact hlt.ne' heq
  · intro h
    refine ⟨fun a _ => compareBy_self a, fun a _ b _ => compareBy_swap a b, ?_⟩
    intro a ha b hb c hc hab hbc
    rcases hsb : score b with _ | s
    · exact h.isLE_trans_middle ha hb hc hab hbc hsb
    rcases hsa : score a with _ | r
    · exact h.isLE_trans_left ha hb hc hab hbc hsa
    rcases hsc : score c with _ | t
    · exact h.isLE_trans_right ha hb hc hab hbc hsc
    exact isLE_trans_of_some hsa hsb hsc hab hbc

/-- Without keys: every entry has a score, or all scores are equal. -/
theorem clear_unit_iff : Clear score (fun _ => ()) l ↔
    (∀ a ∈ l, score a ≠ none) ∨ ∀ a ∈ l, ∀ b ∈ l, ∀ r s,
      score a = some r → score b = some s → r = s := by
  have hkeys : (compare () ()).isLE := rfl
  constructor
  · intro h
    by_contra! hnot
    obtain ⟨⟨n, hn, hnone⟩, a, ha, b, hb, r, s, hr, hs, hne⟩ := hnot
    rcases lt_or_gt_of_ne hne with hlt | hgt
    · exact h n hn hnone a ha b hb r s hr hs hlt ⟨hkeys, hkeys⟩
    · exact h n hn hnone b hb a ha s r hs hr hgt ⟨hkeys, hkeys⟩
  · rintro (hall | heq) n hn hnone x hx y hy r s hr hs hlt -
    · exact hall n hn hnone
    · exact hlt.ne (heq x hx y hy r s hr hs)

end Scores

end ScoredOrder
