import Quorvec.Storage.Hlc

/-!
# Strictly increasing timestamps

The clock is called to issue a timestamp or to receive one.  It goes forward
strictly as long as it does not run into the end of a range: `now` carries a
full counter into the wall clock and wraps around at the end of that, and
`update` keeps a full counter as it is.
-/

namespace Quorvec

/-- A call of the clock, with what the system clock shows. -/
inductive ClockCall
  | now (reading : ℕ)
  /-- The packed timestamp of a peer is received. -/
  | update (reading : ℕ) (remote : UInt64)

namespace ClockCall

/-- The timestamp that is returned, and that the clock keeps. -/
def issue (last : Hlc) : ClockCall → Hlc
  | now reading => HlcClock.now last reading
  | update reading remote => HlcClock.update last reading (Hlc.unpack remote)

/-- The timestamps that a clock returns one after the other. -/
def issued (last : Hlc) : List ClockCall → List Hlc
  | [] => []
  | c :: calls => c.issue last :: issued (c.issue last) calls

/-- Each call has the property where it finds the clock. -/
def Each (P : Hlc → ClockCall → Prop) (last : Hlc) : List ClockCall → Prop
  | [] => True
  | c :: calls => P last c ∧ Each P (c.issue last) calls

/-- What an update returns is greater than its argument. -/
def Dominates (last : Hlc) : ClockCall → Prop
  | now _ => True
  | update reading remote =>
      Hlc.unpack remote < HlcClock.update last reading (Hlc.unpack remote)

/-- `now` is not at the end of the range, and `update` is ahead of both
timestamps or finds room in the counter of the later one. -/
def Advances (last : Hlc) : ClockCall → Prop
  | now _ => last ≠ Hlc.greatest
  | update reading remote =>
      (max last (Hlc.unpack remote)).wallMs < HlcClock.wallNowMs reading ∨
        (max last (Hlc.unpack remote)).counter + 1 < 2 ^ 16

/-- A new clock returns greater and greater timestamps, updates go beyond their
arguments, and the packed timestamps are ordered alike. -/
structure Increasing (calls : List ClockCall) : Prop where
  pairwise : (issued Hlc.zero calls).Pairwise (· < ·)
  dominates : Each Dominates Hlc.zero calls
  packed : ∀ a ∈ issued Hlc.zero calls, ∀ b ∈ issued Hlc.zero calls,
    a.pack < b.pack ↔ a < b

end ClockCall

/-! ## One call -/

namespace HlcClock

variable {last remote : Hlc} {reading : ℕ}

theorem max_lt_update_iff :
    max last remote < update last reading remote ↔
      (max last remote).wallMs < wallNowMs reading ∨
        (max last remote).counter + 1 < 2 ^ 16 := by
  have hcounter := (max last remote).counter_lt
  rw [Hlc.lt_iff]
  rcases update_cases last reading remote with ⟨hahead, hw, hc⟩ |
    ⟨hbehind, hw, hc⟩
  · rw [hw, hc]
    omega
  · rw [hw, hc]
    unfold saturatingSucc
    omega

end HlcClock

namespace ClockCall

variable {last : Hlc} {c : ClockCall} {calls : List ClockCall}

theorem advances_iff :
    c.Advances last ↔ last < c.issue last ∧ c.Dominates last := by
  cases c with
  | now reading =>
      rw [Advances, issue, HlcClock.lt_now_iff, Dominates]
      simp
  | update reading remote =>
      rw [Advances, issue, Dominates, ← HlcClock.max_lt_update_iff,
        max_lt_iff]

theorem advances_zero (h : c.Dominates Hlc.zero) : c.Advances Hlc.zero := by
  rw [advances_iff]
  refine ⟨?_, h⟩
  cases c with
  | now reading =>
      rw [issue, HlcClock.lt_now_iff]
      exact ⟨by decide, .inl le_rfl⟩
  | update reading remote => exact (Hlc.zero_le _).trans_lt h

/-! ## A sequence of calls -/

theorem each_advances_iff :
    Each (fun last c => c.Advances last) last calls ↔
      (last :: issued last calls).Pairwise (· < ·) ∧
        Each (fun last c => c.Dominates last) last calls := by
  rw [← List.isChain_iff_pairwise]
  induction calls generalizing last with
  | nil => simp [Each, issued]
  | cons c calls ih =>
      rw [Each, Each, issued, List.isChain_cons_cons, ih, advances_iff]
      tauto

/-- The timestamps strictly increase when every call advances, and only then. -/
theorem issued_increasing_iff (calls : List ClockCall) :
    Increasing calls ↔
      Each (fun last c => c.Advances last) Hlc.zero calls := by
  constructor
  · intro h
    cases calls with
    | nil => trivial
    | cons c calls =>
        have hfirst := advances_zero h.dominates.1
        rw [each_advances_iff]
        refine ⟨?_, h.dominates⟩
        rw [← List.isChain_iff_pairwise, issued, List.isChain_cons_cons]
        refine ⟨(advances_iff.mp hfirst).1, ?_⟩
        exact List.isChain_iff_pairwise.mpr h.pairwise
  · intro h
    obtain ⟨hpairwise, hdominates⟩ := each_advances_iff.mp h
    refine ⟨(List.pairwise_cons.mp hpairwise).2, hdominates, ?_⟩
    exact fun a _ b _ => Hlc.pack_lt_pack_iff

/-- A peer whose counter is full is not exceeded. -/
theorem not_issued_increasing : ¬ ∀ calls, Increasing calls := by
  intro hall
  have hdominates : Hlc.unpack 0x1FFFF <
      HlcClock.update Hlc.zero 0 (Hlc.unpack 0x1FFFF) :=
    (hall [.update 0 0x1FFFF]).dominates.1
  exact absurd hdominates (by decide)

end ClockCall

end Quorvec
