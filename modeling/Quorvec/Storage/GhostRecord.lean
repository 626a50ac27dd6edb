import Quorvec.Storage.FaultyAppend
import Quorvec.Storage.Recovery

/-!
# Records of writes that have failed

In fsync mode an accepted write is logged, and the log is flushed and synced,
before the index and the versions are touched.  If the flush or the sync fails,
the write is reported as an error and the memory stays as it is, but the record
stays in the log: a reopened shard has the write, and with it a version that
decides against later writes which the running shard has accepted.
-/

namespace Quorvec

open TotalCorrectness LastWriterWins ByteCodec Framing

/-- How the flush of a log fails: the file takes a part of the buffered bytes,
or it takes them all and the sync fails. -/
inductive FlushFault
  | flush (taken : ℕ)
  | sync

namespace Wal

/-- `flush` with a fault, if there is one; `false` if it fails. -/
def flushUnder (fault : Option FlushFault) (w : Wal) : Wal × Bool :=
  if w.dirty then
    match fault with
    | none => (w.flush, true)
    | some (.flush taken) =>
        ({ w with writer := w.writer.drain (some taken) }, false)
    | some .sync => ({ w with writer := w.writer.flush }, false)
  else (w, true)

/-- `append` with a fault of its flush: the new end offset, if it succeeds. -/
def appendUnder (crc32 : Bytes → UInt32) (fault : Option FlushFault) (w : Wal)
    (r : WalRecord) : Wal × Option ℕ :=
  let w := w.writeFrame crc32 r
  if w.batchMs = 0 then
    match w.flushUnder fault with
    | (w, false) => (w, none)
    | (w, true) => (w, some w.len)
  else (w, some w.len)

end Wal

/-- The error of a write: of the log, or of the shard. -/
inductive WriteError
  | wal
  | shard (e : ShardError)
deriving DecidableEq

namespace Shard

variable (R : Runtime) (fault : Option FlushFault)

/-- `logAndApply` with a fault of the flush.  The memory is not touched if the
append fails, and the log is clean if it succeeds, so that a snapshot has nothing
left to flush. -/
def logAndApplyUnder (s : Shard) (r : WalRecord) :
    Shard × Except WriteError Unit :=
  match s.wal.appendUnder R.crc32 fault r with
  | (wal, none) => ({ s with wal }, .error .wal)
  | (wal, some _) =>
      let s := { s with wal }
      match applyOp R s.mem r with
      | .error e => (s, .error (.shard e))
      | .ok (index, versions) =>
          ({ s with index, versions }.maybeSnapshot, .ok ())

def acceptVersionedUnder (s : Shard) (r : WalRecord) :
    Shard × Except WriteError WriteOutcome :=
  if s.isStale r.id r.hlc then (s, .ok .stale)
  else
    match s.logAndApplyUnder R fault r with
    | (s, .error e) => (s, .error e)
    | (s, .ok ()) => (s, .ok .applied)

def upsertVersionedUnder (s : Shard) (hlc : Hlc) (id : UInt64)
    (vector : List F32) (payload : Bytes) :
    Shard × Except WriteError WriteOutcome :=
  if vector.length ≠ s.dim then
    (s, .error (.shard (.dimMismatch s.dim vector.length)))
  else s.acceptVersionedUnder R fault (.ofUpsert hlc id vector payload)

def deleteVersionedUnder (s : Shard) (hlc : Hlc) (id : UInt64) :
    Shard × Except WriteError WriteOutcome :=
  s.acceptVersionedUnder R fault (.ofDelete hlc id)

end Shard

/-- A versioned write, with the fault of its flush, if that fails. -/
structure FaultyCall where
  call : ShardCall
  fault : Option FlushFault

namespace FaultyCall

variable (R : Runtime)

def apply (s : Shard) (e : FaultyCall) :
    Shard × Except WriteError WriteOutcome :=
  match e.call with
  | .upsert hlc id vector payload =>
      s.upsertVersionedUnder R e.fault hlc id vector payload
  | .delete hlc id => s.deleteVersionedUnder R e.fault hlc id

/-- The shard after the writes. -/
def run (s : Shard) : List FaultyCall → Shard
  | [] => s
  | e :: calls => run (e.apply R s).1 calls

/-- Each write has the property where it finds the shard. -/
def Each (P : Shard → FaultyCall → Prop) (s : Shard) :
    List FaultyCall → Prop
  | [] => True
  | e :: calls => P s e ∧ Each P (e.apply R s).1 calls

/-- An accepted write fits its frame. -/
def FitsFrame (s : Shard) (e : FaultyCall) : Prop :=
  e.call.Accepted s.dim s.mem → e.call.record.FitsFrame

/-- The flush of an accepted write does not fail. -/
def Flushes (s : Shard) (e : FaultyCall) : Prop :=
  e.call.Accepted s.dim s.mem → e.fault = none

end FaultyCall

/-- Once the log is flushed, reopening the shard rebuilds its versions and its
live vectors. -/
def Shard.Rebuilds (R : Runtime) (metric : Metric) (s : Shard) : Prop :=
  ∀ mb, ∃ s', Shard.open R s.close s.dim metric mb 0 = .ok s' ∧
    s'.versions = s.versions ∧ s'.index.store = s.index.store

/-! ## One write -/

namespace Wal

variable {crc32 : Bytes → UInt32} {w : Wal} {fault : FlushFault}

theorem appendUnder_none (r : WalRecord) :
    w.appendUnder crc32 none r =
      ((w.append crc32 r).1, some (w.append crc32 r).1.len) := by
  unfold appendUnder append
  by_cases hbatch : w.batchMs = 0
  · have hframe : (w.writeFrame crc32 r).batchMs = 0 := hbatch
    have hdirty : (w.writeFrame crc32 r).dirty = true := rfl
    simp only [hframe, if_true, flushUnder, hdirty]
  · have hframe : (w.writeFrame crc32 r).batchMs ≠ 0 := hbatch
    simp only [hframe, if_false]

theorem flushUnder_some (hdirty : w.dirty = true) :
    ∃ w', w.flushUnder (some fault) = (w', false) ∧
      w'.writer.contents = w.writer.contents ∧ w'.dirty = true ∧
      w'.batchMs = w.batchMs := by
  cases fault with
  | flush taken =>
      exact ⟨{ w with writer := w.writer.drain (some taken) }, if_pos hdirty,
        BufferedWriter.contents_drain _ _, hdirty, rfl⟩
  | sync =>
      exact ⟨{ w with writer := w.writer.flush }, if_pos hdirty,
        BufferedWriter.contents_flush _, hdirty, rfl⟩

theorem close_of_dirty (hdirty : w.dirty = true) :
    w.close = w.writer.contents := by
  have hclean : w.Clean := fun h => by simp [hdirty] at h
  rw [close, ← BufferedWriter.contents_of_buf_nil (synced_flush hclean),
    contents_flush]

theorem appendUnder_some (hbatch : w.batchMs = 0) (r : WalRecord) :
    ∃ w', w.appendUnder crc32 (some fault) r = (w', none) ∧
      w'.writer.contents = w.writer.contents ++ frame crc32 r.encodeBody ∧
      w'.dirty = true ∧ w'.batchMs = 0 := by
  have hframe : (w.writeFrame crc32 r).batchMs = 0 := hbatch
  obtain ⟨w', hflush, hcontents, hdirty, hbatch'⟩ :=
    @flushUnder_some (w.writeFrame crc32 r) fault rfl
  refine ⟨w', ?_, ?_, hdirty, hbatch'.trans hframe⟩
  · simp only [appendUnder, hframe, if_true, hflush]
  · rw [hcontents, contents_writeFrame]

end Wal

namespace Shard

variable {R : Runtime} {s : Shard} {r : WalRecord}

theorem logAndApplyUnder_none : s.logAndApplyUnder R none r =
    ((s.logAndApply R r).1, (s.logAndApply R r).2.mapError .shard) := by
  rw [logAndApplyUnder, Wal.appendUnder_none, logAndApply]
  dsimp only
  cases applyOp R _ r <;> rfl

theorem acceptVersionedUnder_none : s.acceptVersionedUnder R none r =
    ((s.acceptVersioned R r).1, (s.acceptVersioned R r).2.mapError .shard) := by
  rw [acceptVersionedUnder, acceptVersioned, logAndApplyUnder_none]
  split_ifs
  · rfl
  · rcases s.logAndApply R r with ⟨s', e | ⟨⟩⟩ <;> rfl

end Shard

namespace FaultyCall

variable {R : Runtime} {dim : ℕ} {metric : Metric} {m : Memory} {s : Shard}
  {e : FaultyCall}

theorem apply_of_fault_none (h : e.fault = none) : e.apply R s =
    ((e.call.apply R s).1, (e.call.apply R s).2.mapError .shard) := by
  obtain ⟨c, fault⟩ := e
  subst h
  cases c with
  | upsert hlc id vector payload =>
      show s.upsertVersionedUnder R none hlc id vector payload = _
      rw [Shard.upsertVersionedUnder, ShardCall.apply, Shard.upsertVersioned]
      split_ifs
      · rfl
      · exact Shard.acceptVersionedUnder_none
  | delete hlc id => exact Shard.acceptVersionedUnder_none

theorem apply_of_hasDim (h : e.call.record.HasDim s.dim) :
    e.apply R s = s.acceptVersionedUnder R e.fault e.call.record := by
  obtain ⟨c, fault⟩ := e
  cases c with
  | upsert hlc id vector payload =>
      have hlen : vector.length = s.dim := h vector rfl
      exact if_neg (not_not_intro hlen)
  | delete hlc id => rfl

theorem apply_of_not_hasDim (h : ¬ e.call.record.HasDim s.dim) :
    (e.apply R s).1 = s := by
  obtain ⟨c, fault⟩ := e
  cases c with
  | upsert hlc id vector payload =>
      have hlen : vector.length ≠ s.dim := fun hlen =>
        h fun v hv => by rwa [← Option.some.inj hv]
      show (s.upsertVersionedUnder R fault hlc id vector payload).1 = s
      rw [Shard.upsertVersionedUnder, if_pos hlen]
  | delete hlc id =>
      exact absurd (fun v hv => by simp [ShardCall.record] at hv) h

theorem apply_of_not_accepted (h : ¬ e.call.Accepted s.dim s.mem) :
    (e.apply R s).1 = s := by
  by_cases hdim : e.call.record.HasDim s.dim
  · have hstale : s.isStale e.call.record.id e.call.record.hlc = true :=
      Shard.isStale_iff.mpr fun hbeats => h ⟨hdim, hbeats⟩
    rw [apply_of_hasDim hdim, Shard.acceptVersionedUnder, if_pos hstale]
  · exact apply_of_not_hasDim hdim

/-- A write that is accepted and fails in its flush leaves the memory as it is,
and its whole frame in the log. -/
theorem apply_of_fault_some {fault : FlushFault} (hfault : e.fault = some fault)
    (hbatch : s.wal.batchMs = 0) (h : e.call.Accepted s.dim s.mem) :
    ∃ wal, e.apply R s = ({ s with wal }, .error .wal) ∧
      wal.writer.contents =
        s.wal.writer.contents ++ frame R.crc32 e.call.record.encodeBody ∧
      wal.dirty = true ∧ wal.batchMs = 0 := by
  have hfresh : ¬ s.isStale e.call.record.id e.call.record.hlc = true :=
    fun hstale => Shard.isStale_iff.mp hstale h.2
  obtain ⟨wal, happend, hwal⟩ := Wal.appendUnder_some
    hbatch e.call.record
  refine ⟨wal, ?_, hwal⟩
  rw [apply_of_hasDim h.1, Shard.acceptVersionedUnder, if_neg hfresh, hfault,
    Shard.logAndApplyUnder, happend]

end FaultyCall

/-! ## The shard and its log -/

section Run

variable {R : Runtime} {dim : ℕ} {metric : Metric} {m : Memory} {s : Shard}
  {e : FaultyCall}

theorem Consistent.rebuilds (h : Consistent R dim metric m s) :
    s.Rebuilds R metric := by
  intro mb
  obtain ⟨s', hopen, hs'⟩ := h.open_dir mb
  have hmem : s'.mem = s.mem := hs'.mem_eq.trans h.mem_eq.symm
  refine ⟨s', ?_, congrArg Prod.snd hmem, congrArg (·.1.store) hmem⟩
  rw [h.dim_eq, h.close_eq]
  exact hopen

theorem Consistent.step_of_flushes (h : Consistent R dim metric m s)
    (hfits : e.FitsFrame s) (hflush : e.Flushes s) :
    Consistent R dim metric (e.call.applyMem R dim m) (e.apply R s).1 := by
  by_cases hc : e.call.Accepted s.dim s.mem
  · rw [FaultyCall.apply_of_fault_none (hflush hc)]
    exact h.step (e := .call e.call) hfits
  · have hrefused : ¬ e.call.Accepted dim m := by
      rwa [← h.dim_eq, ← h.mem_eq]
    rw [FaultyCall.apply_of_not_accepted hc, ShardCall.applyMem,
      if_neg hrefused]
    exact h

theorem Consistent.ghost (h : Consistent R dim metric m s)
    (hfits : e.FitsFrame s) (hc : e.call.Accepted s.dim s.mem)
    {fault : FlushFault} (hfault : e.fault = some fault) :
    ∃ wal rs, e.apply R s = ({ s with wal }, .error .wal) ∧
      wal.writer.contents = Wal.logBytes R.crc32 rs ∧
      wal.dirty = true ∧ wal.batchMs = 0 ∧
      Logged R dim metric (e.call.applyMem R dim m) rs s.snap := by
  obtain ⟨wal, happly, hcontents, hwal⟩ :=
    FaultyCall.apply_of_fault_some hfault h.batch hc
  have hrecord := hfits hc
  rw [h.dim_eq, h.mem_eq] at hc
  obtain ⟨-, rs, -, hinner, hgrown⟩ := h.accepted hc hrecord
  refine ⟨wal, rs ++ [e.call.record], happly, ?_, hwal.1, hwal.2, hgrown⟩
  rw [hcontents, BufferedWriter.contents_of_buf_nil h.synced, hinner,
    Wal.logBytes_append, AppendRun.logBytes_singleton]

theorem Consistent.open_of_ghost (h : Consistent R dim metric m s)
    (hfits : e.FitsFrame s) (hc : e.call.Accepted s.dim s.mem)
    {fault : FlushFault} (hfault : e.fault = some fault) (mb : ℕ) :
    Returns (Shard.open R (e.apply R s).1.close dim metric mb 0)
      (Consistent R dim metric (e.call.applyMem R dim m)) := by
  obtain ⟨wal, rs, happly, hcontents, hdirty, -, hlogged⟩ :=
    h.ghost hfits hc hfault
  have hopen := open_of_logged hlogged (t := []) noFrame_nil mb
  rw [List.append_nil, ← hcontents, ← Wal.close_of_dirty hdirty] at hopen
  rw [happly]
  exact hopen

theorem registers_applyMem_self (h : m.Valid dim) {c : ShardCall}
    (hc : c.Accepted dim m) :
    registers (c.applyMem R dim m) c.id = some (c.hlc, c.record.content) := by
  obtain ⟨m', happly, hm'⟩ := applyOp_returns (R := R) h hc.1
  rw [ShardCall.applyMem, if_pos hc, happly]
  show registers m' _ = _
  rw [hm'.registers_eq]
  exact Function.update_self _ _ _

/-- An accepted write that fails in its flush parts memory and log. -/
theorem Consistent.not_rebuilds (h : Consistent R dim metric m s)
    (hfits : e.FitsFrame s) (hc : e.call.Accepted s.dim s.mem)
    {fault : FlushFault} (hfault : e.fault = some fault) :
    ¬ (e.apply R s).1.Rebuilds R metric := by
  intro hrebuilds
  obtain ⟨wal, -, happly, -⟩ := h.ghost hfits hc hfault
  obtain ⟨s', hopen, hversions, hstore⟩ := hrebuilds 0
  have hdim : (e.apply R s).1.dim = dim := by rw [happly, ← h.dim_eq]
  have hs' := (h.open_of_ghost hfits hc hfault 0).of_eq_ok (hdim ▸ hopen)
  have hsame : registers s'.mem = registers m := by
    rw [happly] at hversions hstore
    rw [← h.mem_eq]
    funext id
    simp only [registers, Shard.mem, hversions, hstore]
  have hvalid : m.Valid dim := h.mem_eq ▸ h.dim_eq ▸ h.valid.mem
  rw [h.dim_eq, h.mem_eq] at hc
  have hwritten := registers_applyMem_self (R := R) hvalid hc
  rw [← hs'.mem_eq, hsame] at hwritten
  exact lt_irrefl _ (hc.2 _ hwritten)

theorem applyRecord_of_loses {r : WalRecord} {t : Hlc} {x : Content}
    (h : registers m r.id = some (t, x)) (hlt : r.hlc < t) :
    applyRecord R m r = .ok m := by
  unfold applyRecord
  cases hv : m.2[r.id]? with
  | none => simp [registers, hv] at h
  | some v =>
      have hstamp : v.hlc = t := by
        rw [registers, hv, Option.map_some, Option.some.injEq,
          Prod.mk.injEq] at h
        exact h.1
      dsimp only
      rw [if_pos (hstamp ▸ hlt)]
      rfl

/-- A write of the same id with a lower stamp is then accepted, and is gone
after the next opening, which has the write that failed. -/
theorem Consistent.displaces (h : Consistent R dim metric m s)
    (hfits : e.FitsFrame s) (hc : e.call.Accepted s.dim s.mem)
    {fault : FlushFault} (hfault : e.fault = some fault)
    {later : ShardCall} (hlater : later.Accepted s.dim s.mem)
    (hlaterFits : later.record.FitsFrame) (hid : later.id = e.call.id)
    (hlower : later.hlc < e.call.hlc) (hkeep : s.snapshotThresholdBytes = 0)
    (mb : ℕ) :
    ∃ s₂ s₃, FaultyCall.apply R (e.apply R s).1 ⟨later, none⟩ =
        (s₂, .ok .applied) ∧
      Shard.open R s₂.close dim metric mb 0 = .ok s₃ ∧
      registers s₂.mem later.id =
        some (later.hlc, later.record.content) ∧
      registers s₃.mem later.id =
        some (e.call.hlc, e.call.record.content) := by
  obtain ⟨wal, rs, happly, hcontents, hdirty, hbatch, hlogged⟩ :=
    h.ghost hfits hc hfault
  have hvalid : s.mem.Valid s.dim := h.valid.mem
  -- the later write is accepted in the unchanged memory
  obtain ⟨m', happlied, hm'⟩ := applyOp_returns (R := R) hvalid hlater.1
  have hstepped := Shard.apply_stepped (R := R) (s := { s with wal })
    ⟨hvalid, h.valid.snap⟩ hlater.1
  have hshard := Shard.apply_of_accepted (R := R) (s := { s with wal })
    hlater.1 hlater.2 happlied
  rw [Shard.maybeSnapshot, if_pos hkeep] at hshard
  -- the next opening skips its record
  have hghost : registers (e.call.applyMem R dim m) later.record.id =
      some (e.call.hlc, e.call.record.content) := by
    have hfound := registers_applyMem_self (R := R) (h.mem_eq ▸ h.dim_eq ▸ hvalid)
      (h.mem_eq ▸ h.dim_eq ▸ hc)
    rwa [← hid] at hfound
  have hgrown := hlogged.append hlaterFits
    (applyRecord_of_loses hghost hlower)
  obtain ⟨s₃, hopen, hs₃⟩ := open_of_logged hgrown (t := []) noFrame_nil mb
  have hclose : (wal.append R.crc32 later.record).1.close =
      Wal.logBytes R.crc32 (rs ++ [later.record]) ++ [] := by
    have hsynced := Wal.synced_append R.crc32 hbatch later.record
    rw [Wal.close, ← BufferedWriter.contents_of_buf_nil
      (Wal.synced_flush (Wal.clean_of_synced hsynced)), Wal.contents_flush,
      Wal.contents_append, hcontents, Wal.logBytes_append, List.append_nil,
      AppendRun.logBytes_singleton]
  refine ⟨(later.apply R { s with wal }).1, s₃, ?_, ?_, ?_, ?_⟩
  · rw [happly, FaultyCall.apply_of_fault_none rfl]
    exact congrArg (Prod.mk _) (by rw [hstepped.applied hlater.2]; rfl)
  · rw [hshard, Shard.close, hclose]
    exact hopen
  · rw [hshard]
    show registers m' _ = _
    rw [hm'.registers_eq]
    exact Function.update_self _ _ _
  · rw [hs₃.mem_eq]
    exact hghost

/-- A run, from a shard that agrees with its log. -/
theorem Consistent.rebuilds_iff (h : Consistent R dim metric m s)
    {calls : List FaultyCall}
    (hfits : FaultyCall.Each R FaultyCall.FitsFrame s calls) :
    (∀ done, done <+: calls →
        (FaultyCall.run R s done).Rebuilds R metric) ↔
      FaultyCall.Each R FaultyCall.Flushes s calls := by
  induction calls generalizing m s with
  | nil =>
      refine ⟨fun _ => trivial, fun _ done hdone => ?_⟩
      rw [List.prefix_nil.mp hdone]
      exact h.rebuilds
  | cons e calls ih =>
      constructor
      · intro hall
        have hflush : e.Flushes s := by
          intro hc
          by_contra hfault
          obtain ⟨fault, hfault⟩ := Option.ne_none_iff_exists'.mp hfault
          exact h.not_rebuilds hfits.1 hc hfault
            (hall [e] (List.prefix_append _ _))
        refine ⟨hflush, ?_⟩
        rw [← ih (h.step_of_flushes hfits.1 hflush) hfits.2]
        intro done hdone
        exact hall (e :: done) ((List.cons_prefix_cons).mpr ⟨rfl, hdone⟩)
      · rintro ⟨hflush, hrest⟩ done hdone
        cases done with
        | nil => exact h.rebuilds
        | cons e' done =>
            obtain ⟨rfl, htail⟩ := List.cons_prefix_cons.mp hdone
            exact (ih (h.step_of_flushes hfits.1 hflush) hfits.2).mpr hrest
              done htail

theorem Run.exists_fresh (R : Runtime) (Admits : Shard → ShardStep → Prop)
    (hdim : 0 < dim) (metric : Metric) :
    ∃ m s, Run R dim metric Admits m s ∧ s.snapshotThresholdBytes = 0 ∧
      registers m = fun _ => none := by
  obtain ⟨index, hnew, -⟩ := HnswIndex.new_returns metric hdim
  have hopen := Shard.open_empty_eq R hnew 0 0
  exact ⟨(index, ∅), _, .fresh hnew hopen, by simp [Shard.thresholdOf],
    (startMemory_valid hnew).2⟩

/-- From any reachable shard, memory and log stay together exactly in the runs
in which no accepted write fails in its flush. -/
theorem Run.rebuilds_iff_flushes
    (h : Run R dim metric (fun s e => e.FitsFrame s) m s)
    {calls : List FaultyCall}
    (hfits : FaultyCall.Each R FaultyCall.FitsFrame s calls) :
    (∀ done, done <+: calls →
        (FaultyCall.run R s done).Rebuilds R metric) ↔
      FaultyCall.Each R FaultyCall.Flushes s calls :=
  h.consistent.rebuilds_iff hfits

/-- A new shard takes a write, and refuses one with a lower stamp, whose flush
would fail. -/
theorem Run.rebuilds_iff_flushes_refused :
    ∃ s, ∀ done, done <+:
        [⟨.upsert (Hlc.new 2 0) 7 [0] [], none⟩,
          ⟨.upsert (Hlc.new 1 0) 7 [1] [], some .sync⟩] →
      (FaultyCall.run .constant s done).Rebuilds .constant .l2 := by
  obtain ⟨m, s, hrun, -, hempty⟩ := Run.exists_fresh .constant
    (fun s e => e.FitsFrame s) one_pos .l2
  have h := hrun.consistent
  let first : FaultyCall := ⟨.upsert (Hlc.new 2 0) 7 [0] [], none⟩
  have hfirst : first.call.Accepted 1 m := by
    refine ⟨by decide, fun p hp => ?_⟩
    rw [hempty] at hp
    simp at hp
  have hnext := h.step_of_flushes (e := first) (fun _ => by decide)
    fun _ => rfl
  have hfound := registers_applyMem_self (R := .constant)
    (h.mem_eq ▸ h.dim_eq ▸ h.valid.mem) hfirst
  refine ⟨s, (hrun.rebuilds_iff_flushes ?_).mpr
    ⟨fun _ => rfl, fun hc => ?_, trivial⟩⟩
  · exact ⟨fun _ => by decide, fun _ => by decide, trivial⟩
  · rw [hnext.dim_eq, hnext.mem_eq] at hc
    exact absurd (hc.2 _ hfound) (by decide)

/-- A failed upsert takes the place of an upsert that was acknowledged after
it. -/
theorem FaultyCall.failed_displaces_acknowledged :
    ∃ m s s₁ s₂ s₃,
      Run .constant 1 .l2 (fun s e => e.FitsFrame s) m s ∧
      apply .constant s ⟨.upsert (Hlc.new 2 0) 7 [0] [], some .sync⟩ =
        (s₁, .error .wal) ∧
      ¬ s₁.Rebuilds .constant .l2 ∧
      apply .constant s₁ ⟨.upsert (Hlc.new 1 0) 7 [1] [], none⟩ =
        (s₂, .ok .applied) ∧
      Shard.open .constant s₂.close 1 .l2 0 0 = .ok s₃ ∧
      registers s₂.mem 7 = some (Hlc.new 1 0, some [1]) ∧
      registers s₃.mem 7 = some (Hlc.new 2 0, some [0]) := by
  obtain ⟨m, s, hrun, hkeep, hempty⟩ := Run.exists_fresh .constant
    (fun s e => e.FitsFrame s) one_pos .l2
  have h := hrun.consistent
  have haccept : ∀ c : ShardCall, c.record.HasDim 1 →
      c.Accepted s.dim s.mem := by
    intro c hc
    rw [h.dim_eq, h.mem_eq]
    refine ⟨hc, fun p hp => ?_⟩
    rw [hempty] at hp
    simp at hp
  let failed : FaultyCall :=
    ⟨.upsert (Hlc.new 2 0) 7 [0] [], some .sync⟩
  let later : ShardCall := .upsert (Hlc.new 1 0) 7 [1] []
  have hfailed : failed.call.Accepted s.dim s.mem := haccept _ (by decide)
  have hnext : later.Accepted s.dim s.mem := haccept later (by decide)
  have hfits : failed.FitsFrame s := fun _ => by decide
  obtain ⟨wal, -, happly, -⟩ := h.ghost hfits hfailed rfl
  obtain ⟨s₂, s₃, hlater, hopen, hlive, hfound⟩ :=
    h.displaces hfits hfailed rfl hnext (by decide) rfl (by decide) hkeep 0
  rw [happly] at hlater
  refine ⟨m, s, _, s₂, s₃, hrun, happly, ?_, hlater, hopen, hlive, hfound⟩
  have hparted := h.not_rebuilds hfits hfailed rfl
  rwa [happly] at hparted

end Run

end Quorvec
