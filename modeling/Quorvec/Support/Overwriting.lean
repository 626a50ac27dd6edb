import Quorvec.Support.LastWriterWins

/-!
# Overwriting registers

A register that takes every value holds the last one, whatever its stamp.  It
agrees with a lenient register, which was offered the same values, as long as
the last value is nowhere beaten.
-/

namespace LastWriterWins

variable {κ τ ν : Type}
variable {s : κ → Option (τ × ν)} {ws : List (κ × τ × ν)} {k : κ}

theorem offered_append_self (w : κ × τ × ν) :
    offered s (ws ++ [w]) w.1 = insert w.2 (offered s ws w.1) := by
  ext p
  simp only [offered, Set.mem_ofPred_eq, Set.mem_insert_iff, List.mem_append,
    List.mem_singleton, Prod.ext_iff]
  tauto

theorem offered_append_of_ne {w : κ × τ × ν} (h : k ≠ w.1) :
    offered s (ws ++ [w]) k = offered s ws k := by
  ext p
  have hne : (k, p) ≠ w := fun heq => h (congrArg Prod.fst heq)
  simp only [offered, Set.mem_ofPred_eq, List.mem_append, List.mem_singleton,
    hne, or_false]

variable [LinearOrder τ] [DecidableEq κ]

/-- Accept every stamp. -/
def overwrite (_ : Option (τ × ν)) (p : τ × ν) : Option (τ × ν) := some p

/-- The last value of each key has the greatest stamp of all that the key was
offered, its initial value included. -/
def LastIsGreatest (s : κ → Option (τ × ν)) (ws : List (κ × τ × ν)) : Prop :=
  ∀ k p, ws.foldl (deliverWith overwrite) s k = some p →
    ∀ q ∈ offered s ws k, q.1 ≤ p.1

theorem offerLenient_of_isGreatest {S : Set (τ × ν)} {r : Option (τ × ν)}
    (h : IsWinner S r) {p : τ × ν} (hmax : ∀ q ∈ S, q.1 ≤ p.1) :
    offerLenient r p = some p := by
  cases r with
  | none => rfl
  | some r => exact if_neg (not_lt.mpr (hmax r (h.mem r rfl)))

/-- One key: the last value is kept exactly if it has the greatest stamp. -/
theorem foldl_overwrite_eq_iff (s : κ → Option (τ × ν))
    (ws : List (κ × τ × ν)) (k : κ) :
    ws.foldl (deliverWith overwrite) s k =
        ws.foldl (deliverWith offerLenient) s k ↔
      ∀ p, ws.foldl (deliverWith overwrite) s k = some p →
        ∀ q ∈ offered s ws k, q.1 ≤ p.1 := by
  constructor
  · intro heq p hp q hq
    have hwinner := isWinner_deliverLenient s ws k
    rw [← heq, hp] at hwinner
    exact hwinner.le hq
  · -- on the last value of the list
    induction ws using List.reverseRecOn with
    | nil => exact fun _ => rfl
    | append_singleton ws w ih =>
        intro hlast
        rw [List.foldl_append, List.foldl_append] at *
        simp only [List.foldl_cons, List.foldl_nil] at *
        by_cases hk : k = w.1
        · subst hk
          have hmax : ∀ q ∈ offered s ws w.1, q.1 ≤ w.2.1 := by
            intro q hq
            refine hlast w.2 (Function.update_self _ _ _) q ?_
            rw [offered_append_self]
            exact Set.mem_insert_of_mem _ hq
          rw [deliverWith, deliverWith, Function.update_self,
            Function.update_self]
          exact (offerLenient_of_isGreatest
            (isWinner_deliverLenient s ws w.1) hmax).symm
        · simp only [deliverWith, Function.update_of_ne hk,
            offered_append_of_ne hk] at hlast ⊢
          exact ih hlast

/-- Overwriting and the lenient registers agree exactly if the last values are
the greatest. -/
theorem overwrite_eq_lenient_iff :
    ws.foldl (deliverWith overwrite) s =
        ws.foldl (deliverWith offerLenient) s ↔ LastIsGreatest s ws := by
  rw [funext_iff]
  exact forall_congr' fun k => foldl_overwrite_eq_iff s ws k

/-- A single value is the greatest one. -/
theorem lastIsGreatest_singleton (w : κ × τ × ν) :
    LastIsGreatest (fun _ => none) [w] := by
  intro k p hp q hq
  obtain hq | hq := hq
  · simp at hq
  · rw [List.mem_singleton] at hq
    subst hq
    rw [List.foldl_cons, List.foldl_nil, deliverWith,
      Function.update_self] at hp
    exact (congrArg Prod.fst (Option.some.inj hp)).le

/-- One more value, which no value of its key beats. -/
theorem LastIsGreatest.append (h : LastIsGreatest s ws) {w : κ × τ × ν}
    (hmax : ∀ q ∈ offered s ws w.1, q.1 ≤ w.2.1) :
    LastIsGreatest s (ws ++ [w]) := by
  intro k p hp q hq
  rw [List.foldl_append, List.foldl_cons, List.foldl_nil, deliverWith] at hp
  by_cases hk : k = w.1
  · subst hk
    rw [Function.update_self] at hp
    obtain rfl := Option.some.inj hp
    rw [offered_append_self, Set.mem_insert_iff] at hq
    obtain rfl | hq := hq
    · exact le_rfl
    · exact hmax q hq
  · rw [Function.update_of_ne hk] at hp
    rw [offered_append_of_ne hk] at hq
    exact h k p hp q hq

end LastWriterWins
