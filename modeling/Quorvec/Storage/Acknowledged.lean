import Quorvec.Storage.Join

/-!
# Acknowledged writes are held

Whatever state a shard is in, a versioned write that returns without an error
leaves a version behind that is at least as new as the write, and no versioned
write takes a version back.  Neither fact needs the shard to be valid, so both
hold of a replica about which nothing else is known.
-/

namespace Quorvec

open LastWriterWins

section Memory

variable {R : Runtime} {m m' : Memory} {r : WalRecord}

theorem atLeast_registers_iff {id : UInt64} {t : Hlc} :
    AtLeast (registers m id) t ↔ ∃ v, m.2[id]? = some v ∧ t ≤ v.hlc := by
  simp [AtLeast, registers]

theorem versions_applyOp (h : applyOp R m r = .ok m') :
    ∃ tombstone, m'.2 = m.2.insert r.id { hlc := r.hlc, tombstone } := by
  unfold applyOp at h
  split at h
  · split at h
    · simp at h
    · exact ⟨false, by rw [← Except.ok.inj h]⟩
  · split at h
    · simp at h
    · exact ⟨true, by rw [← Except.ok.inj h]⟩

theorem atLeast_applyOp_self (h : applyOp R m r = .ok m') :
    AtLeast (registers m' r.id) r.hlc := by
  obtain ⟨tombstone, hversions⟩ := versions_applyOp h
  rw [atLeast_registers_iff, hversions]
  exact ⟨_, Std.ExtTreeMap.getElem?_insert_self, le_rfl⟩

theorem atLeast_applyOp (h : applyOp R m r = .ok m')
    (hbeats : Beats r.hlc (registers m r.id)) {id : UInt64} {t : Hlc}
    (ht : AtLeast (registers m id) t) : AtLeast (registers m' id) t := by
  by_cases hid : id = r.id
  · obtain ⟨p, hp, hle⟩ := ht
    rw [hid] at hp ⊢
    exact (atLeast_applyOp_self h).mono (hle.trans (hbeats p hp).le)
  · obtain ⟨tombstone, hversions⟩ := versions_applyOp h
    have hne : ¬ compare r.id id = .eq := by
      rw [Std.compare_eq_iff_eq]
      exact Ne.symm hid
    rw [atLeast_registers_iff] at ht ⊢
    rwa [hversions, Std.ExtTreeMap.getElem?_insert, if_neg hne]

end Memory

namespace Shard

variable {R : Runtime} {s : Shard} {r : WalRecord}

/-- The cases of a versioned write. -/
theorem acceptVersioned_cases (R : Runtime) (s : Shard) (r : WalRecord) :
    AtLeast (registers s.mem r.id) r.hlc ∧
        s.acceptVersioned R r = (s, .ok .stale) ∨
      Beats r.hlc (registers s.mem r.id) ∧
        ((∃ m', applyOp R s.mem r = .ok m' ∧
            (s.acceptVersioned R r).1.mem = m' ∧
            (s.acceptVersioned R r).2 = .ok .applied) ∨
          ∃ e, (s.acceptVersioned R r).1.mem = s.mem ∧
            (s.acceptVersioned R r).2 = .error e) := by
  by_cases hbeats : Beats r.hlc (registers s.mem r.id)
  · right
    refine ⟨hbeats, ?_⟩
    have hfresh : ¬ s.isStale r.id r.hlc = true := by
      rw [isStale_iff]
      exact not_not_intro hbeats
    rw [acceptVersioned, if_neg hfresh]
    rcases happly : applyOp R s.mem r with e | m'
    · right
      have hlog : s.logAndApply R r =
          ({ s with wal := (s.wal.append R.crc32 r).1 }, .error e) := by
        have hmem : applyOp R ({ s with
            wal := (s.wal.append R.crc32 r).1 } : Shard).mem r =
            .error e := happly
        simp only [logAndApply, hmem]
      exact ⟨e, by rw [hlog]; rfl, by rw [hlog]⟩
    · left
      have hlog := logAndApply_of_ok happly
      refine ⟨m', rfl, ?_, ?_⟩
      · rw [hlog]
        exact mem_maybeSnapshot _
      · rw [hlog]
  · left
    exact ⟨not_beats_iff.mp hbeats, by
      rw [acceptVersioned, if_pos (isStale_iff.mpr hbeats)]⟩

theorem atLeast_of_ok {out : WriteOutcome}
    (h : (s.acceptVersioned R r).2 = .ok out) :
    AtLeast (registers (s.acceptVersioned R r).1.mem r.id) r.hlc := by
  rcases acceptVersioned_cases R s r with
    ⟨hold, heq⟩ | ⟨-, ⟨m', happly, hmem, -⟩ | ⟨e, -, herror⟩⟩
  · rw [heq]
    exact hold
  · rw [hmem]
    exact atLeast_applyOp_self happly
  · rw [herror] at h
    simp at h

theorem atLeast_acceptVersioned {id : UInt64} {t : Hlc}
    (h : AtLeast (registers s.mem id) t) :
    AtLeast (registers (s.acceptVersioned R r).1.mem id) t := by
  rcases acceptVersioned_cases R s r with
    ⟨-, heq⟩ | ⟨hbeats, ⟨m', happly, hmem, -⟩ | ⟨e, hmem, -⟩⟩
  · rwa [heq]
  · rw [hmem]
    exact atLeast_applyOp happly hbeats h
  · rwa [hmem]

/-- A versioned write is refused for its dimension, or is the write of its
record. -/
theorem apply_cases (R : Runtime) (s : Shard) (c : ShardCall) :
    (∃ e, c.apply R s = (s, .error e)) ∨
      c.apply R s = s.acceptVersioned R c.record := by
  rcases c with ⟨hlc, id, vector, payload⟩ | ⟨hlc, id⟩
  · by_cases hdim : vector.length = s.dim
    · right
      rw [ShardCall.apply, upsertVersioned, if_neg (not_not_intro hdim)]
      rfl
    · left
      exact ⟨_, by rw [ShardCall.apply, upsertVersioned, if_pos hdim]⟩
  · right
    rfl

theorem atLeast_apply_of_ok {c : ShardCall} {out : WriteOutcome}
    (h : (c.apply R s).2 = .ok out) :
    AtLeast (registers (c.apply R s).1.mem c.id) c.hlc := by
  rcases apply_cases R s c with ⟨e, heq⟩ | heq
  · rw [heq] at h
    simp at h
  · rw [heq] at h ⊢
    exact atLeast_of_ok h

theorem atLeast_apply {c : ShardCall} {id : UInt64} {t : Hlc}
    (h : AtLeast (registers s.mem id) t) :
    AtLeast (registers (c.apply R s).1.mem id) t := by
  rcases apply_cases R s c with ⟨e, heq⟩ | heq
  · rwa [heq]
  · rw [heq]
    exact atLeast_acceptVersioned h

end Shard

end Quorvec
