import Quorvec.Node.ReplicaState
import Quorvec.Storage.Recovery

/-!
# A replica across crashes

In fsync mode a slot holds its registers in its files as well as in memory.
Operations see the registers of the slot whether its shard is open or has to be
opened, point operations are offers to them, and a crash leaves them as they
were, up to a write that was in flight.
-/

namespace Quorvec

open TotalCorrectness LastWriterWins ByteCodec

section Durable

variable (R : Runtime) (dim : ℕ) (metric : Metric)

/-- The shard agrees with its files, and has these registers. -/
def Shard.Holds (regs : Registers) (s : Shard) : Prop :=
  Consistent R dim metric s.mem s ∧ registers s.mem = regs

/-- The registers of a slot, in memory or in what its directory opens to. -/
def ShardSlot.Durable (regs : Registers) : ShardSlot → Prop
  | .opened s => s.Holds R dim metric regs
  | .closed dir => ∀ mb, Returns (Shard.open R dir dim metric mb 0)
      (Shard.Holds R dim metric regs)

/-- What a crash can leave of a slot, when only writes of `Pending` can be in
flight. -/
inductive ShardSlot.Crashed (Pending : ShardCall → Prop) :
    ShardSlot → ShardSlot → Prop
  | closed (dir : ShardDir) : Crashed Pending (.closed dir) (.closed dir)
  /-- The shard is being opened. -/
  | opening (dir : ShardDir) : Crashed Pending (.closed dir)
      (.closed (Shard.dirAfterOpen R dir dim metric))
  | afterOpening {dir : ShardDir} {mb : ℕ} {s : Shard} {slot : ShardSlot} :
      Shard.open R dir dim metric mb 0 = .ok s →
      Crashed Pending (.opened s) slot → Crashed Pending (.closed dir) slot
  | snapshot {s : Shard} {d : ShardDir} :
      CrashImage R s .snapshotNow d → Crashed Pending (.opened s) (.closed d)
  | write {s : Shard} {c : ShardCall} {d : ShardDir} :
      Pending c → CrashImage R s (.call c) d →
      Crashed Pending (.opened s) (.closed d)

end Durable

/-- A write in memory is an offer, or is refused. -/
theorem Consistent.registers_applyMem {R : Runtime} {dim : ℕ}
    {metric : Metric} {m : Memory} {s : Shard}
    (h : Consistent R dim metric m s) (c : ShardCall) :
    registers (c.applyMem R dim m) = registers m ∨
      registers (c.applyMem R dim m) =
        deliverWith offer (registers m) c.record.offered := by
  by_cases hc : c.Accepted dim m
  · right
    have hvalid := h.valid.mem
    rw [h.mem_eq, h.dim_eq] at hvalid
    obtain ⟨m', happly, hm'⟩ := applyOp_returns (R := R) hvalid hc.1
    have hmem : c.applyMem R dim m = m' := by
      rw [ShardCall.applyMem, if_pos hc, happly]
      rfl
    have hbeats : Beats c.record.hlc (registers m c.record.id) := hc.2
    rw [hmem, hm'.registers_eq, deliverWith, WalRecord.offered,
      offer_of_beats hbeats]
  · left
    rw [ShardCall.applyMem, if_neg hc]

namespace ShardSlot

variable {R : Runtime} {dim : ℕ} {metric : Metric} {regs : Registers}

/-- A directory that was never used. -/
theorem durable_unused (hdim : 0 < dim) :
    Durable R dim metric (fun _ => none) (.closed .empty) := by
  intro mb
  obtain ⟨s, hopen, -, -, hreg⟩ :=
    Shard.open_empty_returns R hdim metric mb 0
  obtain ⟨index, hnew, hmem⟩ := Shard.open_empty hopen
  have hconsistent := consistent_fresh hnew hopen
  rw [← hmem] at hconsistent
  exact ⟨s, hopen, hconsistent, hreg⟩

/-! ## Crashes -/

theorem recover_cut {crc32 : Bytes → UInt32} {file : Option Bytes}
    {found : List WalRecord × ℕ} {file' : Option Bytes}
    (h : Wal.recover crc32 file = .ok (found, file')) :
    Wal.recover crc32 file' = .ok (found, file') := by
  cases file with
  | none =>
      simp only [Wal.recover, pure_eq_ok, Except.ok.injEq, Prod.mk.injEq] at h
      obtain ⟨rfl, rfl⟩ := h
      rfl
  | some content =>
      obtain ⟨rs, t, rfl, hrs, ht⟩ :=
        Wal.exists_logBytes_append crc32 content
      rw [Wal.recover_logBytes_append hrs ht, Except.ok.injEq,
        Prod.mk.injEq] at h
      obtain ⟨rfl, rfl⟩ := h
      exact Wal.recover_logBytes hrs

theorem open_dirAfterOpen (dir : ShardDir) (mb : ℕ) :
    Shard.open R (Shard.dirAfterOpen R dir dim metric) dim metric mb 0 =
      Shard.open R dir dim metric mb 0 := by
  unfold Shard.dirAfterOpen
  split
  · next hstart hrecover =>
      simp only [Shard.open, hstart, hrecover, recover_cut hrecover, ok_bind]
  · rfl

theorem durable_of_opens {d : ShardDir} {m : Memory}
    (h : ∀ mb, Returns (Shard.open R d dim metric mb 0)
      (Consistent R dim metric m)) :
    Durable R dim metric (Quorvec.registers m) (.closed d) := by
  intro mb
  refine (h mb).mono fun s hs => ?_
  have hmem := hs.mem_eq
  rw [← hmem] at hs
  exact ⟨hs, hmem ▸ rfl⟩

/-- A crash keeps the registers, up to one pending write. -/
theorem Crashed.durable {Pending : ShardCall → Prop} {slot slot' : ShardSlot}
    (h : Crashed R dim metric Pending slot slot')
    (hfits : ∀ c, Pending c → c.record.FitsFrame)
    (hslot : Durable R dim metric regs slot) :
    ∃ regs', Durable R dim metric regs' slot' ∧
      (regs' = regs ∨ ∃ c, Pending c ∧
        regs' = deliverWith offer regs c.record.offered) := by
  induction h with
  | closed dir => exact ⟨regs, hslot, .inl rfl⟩
  | opening dir =>
      refine ⟨regs, fun mb => ?_, .inl rfl⟩
      rw [open_dirAfterOpen]
      exact hslot mb
  | afterOpening hopen _ ih => exact ih ((hslot _).of_eq_ok hopen)
  | @snapshot s d hd =>
      obtain ⟨hconsistent, rfl⟩ := hslot
      have hstep : ShardStep.snapshotNow.FitsFrame s := trivial
      rcases hconsistent.crash_cases hstep hd with hopen | hopen <;>
        exact ⟨_, durable_of_opens hopen, .inl rfl⟩
  | @write s c d hc hd =>
      obtain ⟨hconsistent, rfl⟩ := hslot
      have hstep : (ShardStep.call c).FitsFrame s := fun _ => hfits c hc
      rcases hconsistent.crash_cases hstep hd with hopen | hopen
      · exact ⟨_, durable_of_opens hopen, .inl rfl⟩
      · refine ⟨_, durable_of_opens hopen, ?_⟩
        exact (hconsistent.registers_applyMem c).imp_right
          fun happlied => ⟨c, hc, happlied⟩

end ShardSlot

/-! ## Operations -/

namespace ShardStore

variable {R : Runtime} {st : ShardStore} {sref : ShardRef} {regs : Registers}

theorem access_of_durable {α : Type} (hfsync : st.walBatchMs = 0)
    (hslot : (st.slots sref.key).Durable R sref.dim sref.metric regs)
    (op : Shard → Shard × Except ShardError α) :
    ∃ s : Shard, s.Holds R sref.dim sref.metric regs ∧
      st.access R sref op = (st.put sref.key (.opened (op s).1),
        (op s).2.mapError .shard) := by
  obtain ⟨s, hs, hserves⟩ : ∃ s : Shard,
      s.Holds R sref.dim sref.metric regs ∧
      Serves R st sref s := by
    rcases hcase : st.slots sref.key with dir | s
    · rw [hcase] at hslot
      obtain ⟨s, hopen, hs⟩ := hslot st.snapshotWalMb
      exact ⟨s, hs, .inr ⟨dir, hcase, hfsync ▸ hopen⟩⟩
    · rw [hcase] at hslot
      exact ⟨s, hslot, .inl hcase⟩
  exact ⟨s, hs, access_of_getOrOpen (getOrOpen_of_serves hserves) op⟩

theorem walBatchMs_access {α : Type}
    (op : Shard → Shard × Except ShardError α) :
    (st.access R sref op).1.walBatchMs = st.walBatchMs := by
  rcases access_cases R st sref op with
    ⟨dir, dir', e, -, heq⟩ | ⟨s, -, heq⟩ <;> rw [heq] <;> rfl

variable {op : UInt32} {hlc : Hlc} {id : UInt64} {vector : List F32}
variable {payload : Bytes}

theorem walBatchMs_write :
    (st.write R sref op hlc id vector payload).1.walBatchMs =
      st.walBatchMs := by
  rcases write_cases R st sref op hlc id vector payload with
    ⟨e, heq⟩ | heq <;> rw [heq]
  exact walBatchMs_access _

/-- A point operation that fits its frame is an offer to the registers. -/
theorem write_of_durable (hfsync : st.walBatchMs = 0)
    (hslot : (st.slots sref.key).Durable R sref.dim sref.metric regs)
    (hvector : ∀ v, contentOf op vector = some v → v.length = sref.dim)
    (hfits : (callOf op hlc id vector payload).record.FitsFrame) :
    (∃ out, (st.write R sref op hlc id vector payload).2 = .ok out) ∧
      ((st.write R sref op hlc id vector payload).1.slots sref.key).Durable R
        sref.dim sref.metric
        (deliverWith offer regs (id, hlc, contentOf op vector)) := by
  have hwrite := @write_eq_access R st sref op hlc id vector payload hvector
  obtain ⟨s, ⟨hconsistent, hreg⟩, haccess⟩ := access_of_durable hfsync hslot
    fun s => (callOf op hlc id vector payload).apply R s
  have hdim : (callOf op hlc id vector payload).record.HasDim s.dim := by
    rw [hconsistent.dim_eq]
    exact hasDim_callOf hvector
  have hstep := Shard.apply_stepped (R := R) hconsistent.valid hdim
  rw [hwrite, haccess, slots_put_self]
  constructor
  · by_cases hbeats : Beats (callOf op hlc id vector payload).record.hlc
        (registers s.mem (callOf op hlc id vector payload).record.id)
    · exact ⟨.applied, by rw [hstep.applied hbeats]; rfl⟩
    · exact ⟨.stale, by rw [hstep.stale hbeats]; rfl⟩
  · have hcall : (ShardStep.call (callOf op hlc id vector payload)).FitsFrame
        s := fun _ => hfits
    have hnext := hconsistent.step hcall
    have hmem := hnext.mem_eq
    rw [← hmem] at hnext
    refine ⟨hnext, ?_⟩
    rw [← hreg, ← offered_callOf]
    exact hstep.registers_eq

/-- Reading a version returns the register of the id and changes none. -/
theorem getVersioned_of_durable (hfsync : st.walBatchMs = 0)
    (hslot : (st.slots sref.key).Durable R sref.dim sref.metric regs)
    (id : UInt64) :
    (st.getVersioned R sref id).2 = .ok ((regs id).map (pointOf id)) ∧
      ((st.getVersioned R sref id).1.slots sref.key).Durable R sref.dim
        sref.metric regs := by
  obtain ⟨s, hs, haccess⟩ := access_of_durable hfsync hslot
    fun s => (s, s.storedPoint id)
  rw [getVersioned, haccess, slots_put_self]
  refine ⟨?_, hs⟩
  rw [Shard.storedPoint_eq hs.1.valid, hs.2]
  rfl

end ShardStore

end Quorvec
