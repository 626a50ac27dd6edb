import Quorvec.Node.Transfer
import Quorvec.Storage.TruncatedLog

/-!
# Shards on disk

The directory of a shard may be there before the shard is open: after a
restart, or when a node gets back a shard that it dropped.  The first operation
opens it.  The registers that a directory opens to depend on its files alone,
so a slot stands for them whether it is open or not.
-/

namespace Quorvec

open TotalCorrectness LastWriterWins ByteCodec

/-- A shard of the dimension, open or on disk. -/
inductive ShardSlot.HasDim (R : Runtime) (dim : ℕ) : ShardSlot → Prop
  | opened {s : Shard} : s.Valid → s.dim = dim → HasDim R dim (.opened s)
  | closed {dir : ShardDir} {metric : Metric} {mb batchMs : ℕ} {s : Shard} :
      dir.Valid dim → Shard.open R dir dim metric mb batchMs = .ok s →
      HasDim R dim (.closed dir)

/-- The slot is open with these registers, or opens to them. -/
def ShardSlot.OpensTo (R : Runtime) (dim : ℕ) (regs : Registers) :
    ShardSlot → Prop
  | .opened s => s.Valid ∧ s.dim = dim ∧ Quorvec.registers s.mem = regs
  | .closed dir => ∀ metric mb batchMs,
      Returns (Shard.open R dir dim metric mb batchMs)
        (fun s => s.Valid ∧ s.dim = dim ∧ Quorvec.registers s.mem = regs)

/-- What a shard holds, in memory or on disk; nothing if it does not open. -/
def ShardStore.held (R : Runtime) (st : ShardStore) (sref : ShardRef) :
    Registers :=
  match (st.getOrOpen R sref).2 with
  | .ok s => registers s.mem
  | .error _ => fun _ => none

/-! ## Memories with the same registers -/

section Memory

variable {R : Runtime} {dim : ℕ} {m₁ m₂ m₁' : Memory}

/-- A record does the same to two memories with the same registers. -/
theorem applyRecord_congr {r : WalRecord} (h₁ : m₁.Valid dim)
    (h₂ : m₂.Valid dim) (hreg : registers m₁ = registers m₂)
    (happly : applyRecord R m₁ r = .ok m₁') :
    Returns (applyRecord R m₂ r)
      (fun m₂' => m₂'.Valid dim ∧ registers m₁' = registers m₂') := by
  have hversion : m₁.2[r.id]? = m₂.2[r.id]? := by
    rw [versions_eq h₁, versions_eq h₂, hreg]
  have hop : applyOp R m₁ r = .ok m₁' → Returns (applyOp R m₂ r)
      (fun m₂' => m₂'.Valid dim ∧ registers m₁' = registers m₂') := by
    intro hop
    have hdim := hasDim_of_applyOp h₁ hop
    have hwritten := (applyOp_returns h₁ hdim).of_eq_ok hop
    refine (applyOp_returns h₂ hdim).mono fun m₂' hm₂' => ⟨hm₂'.valid, ?_⟩
    rw [hwritten.registers_eq, hm₂'.registers_eq, hreg]
  unfold applyRecord at happly ⊢
  rw [← hversion]
  cases hv : m₁.2[r.id]? with
  | none =>
      rw [hv] at happly
      exact hop happly
  | some v =>
      rw [hv] at happly
      dsimp only at happly ⊢
      split_ifs at happly ⊢ with hlt
      · rw [pure_eq_ok, Except.ok.injEq] at happly
        exact Returns.pure ⟨h₂, happly ▸ hreg⟩
      · exact hop happly

theorem replay_congr {offset pos : ℕ} {rs : List WalRecord}
    (h₁ : m₁.Valid dim) (h₂ : m₂.Valid dim)
    (hreg : registers m₁ = registers m₂)
    (hreplay : replay R offset rs pos m₁ = .ok m₁') :
    Returns (replay R offset rs pos m₂)
      (fun m₂' => m₂'.Valid dim ∧ registers m₁' = registers m₂') := by
  induction rs generalizing m₁ m₂ pos with
  | nil =>
      rw [replay, pure_eq_ok, Except.ok.injEq] at hreplay
      exact Returns.pure ⟨h₂, hreplay ▸ hreg⟩
  | cons r rs ih =>
      rw [replay] at hreplay ⊢
      split_ifs at hreplay ⊢
      · cases happly : applyRecord R m₁ r with
        | error e => simp [happly] at hreplay
        | ok next =>
            rw [happly, ok_bind] at hreplay
            obtain ⟨next₂, happly₂, hnext₂, hsame⟩ :=
              applyRecord_congr h₁ h₂ hreg happly
            rw [happly₂, ok_bind]
            exact ih (valid_of_applyRecord h₁ happly) hnext₂ hsame hreplay
      · exact ih h₁ h₂ hreg hreplay

/-- The metric makes no difference to the registers of a directory. -/
theorem Shard.open_congr {dir : ShardDir} (hdir : dir.Valid dim)
    {metric : Metric} {mb batchMs : ℕ} {s : Shard}
    (hopen : Shard.open R dir dim metric mb batchMs = .ok s)
    (metric' : Metric) (mb' batchMs' : ℕ) :
    Returns (Shard.open R dir dim metric' mb' batchMs') (fun s' =>
      s'.Valid ∧ s'.dim = dim ∧ registers s'.mem = registers s.mem) := by
  obtain ⟨image, offset, rs, goodEnd, walFile, m, hstart, hrecover, hreplay,
    rfl⟩ := Shard.open_cases hopen
  have himage := Shard.startImage_valid hdir hstart
  obtain ⟨image', hstart', hvalid', hsame⟩ : ∃ image',
      Shard.startImage dir.snap dim metric' = .ok (image', offset) ∧
        image'.Valid dim ∧ registers image = registers image' := by
    rcases hsnap : dir.snap with _ | snap
    · rw [hsnap] at hstart
      simp only [Shard.startImage] at hstart ⊢
      cases hnew : HnswIndex.new dim metric with
      | error e => simp [hnew] at hstart
      | ok index =>
          simp only [hnew, Except.ok.injEq, Prod.mk.injEq] at hstart
          obtain ⟨rfl, rfl⟩ := hstart
          have hdim := (HnswIndex.admissible_of_withParams hnew).1
          obtain ⟨index', hnew', -⟩ := HnswIndex.new_returns metric' hdim
          obtain ⟨hvalid, hnone⟩ := startMemory_valid hnew'
          exact ⟨_, by rw [hnew'], hvalid,
            (startMemory_valid hnew).2.trans hnone.symm⟩
    · rw [hsnap, Shard.startImage, Except.ok.injEq, Prod.mk.injEq] at hstart
      obtain ⟨rfl, rfl⟩ := hstart
      exact ⟨_, rfl, himage, rfl⟩
  obtain ⟨m', hreplay', hm', hregs⟩ :=
    replay_congr himage hvalid' hsame hreplay
  let next : Shard := {
    snap := dir.snap
    dim, metric := metric'
    index := m'.1
    versions := m'.2
    wal := Wal.open walFile batchMs'
    snapshotThresholdBytes := Shard.thresholdOf mb'
    lastSnapshotOffset := offset }
  have hopen' : Shard.open R dir dim metric' mb' batchMs' = .ok next := by
    simp only [Shard.open, hstart', hrecover, ok_bind, hreplay']
    rfl
  exact ⟨next, hopen', ⟨hm', hdir⟩, rfl, hregs.symm⟩

end Memory

/-! ## Operations -/

section Slot

variable {R : Runtime} {dim : ℕ} {regs : Registers}

theorem ShardSlot.HasDim.opensTo {slot : ShardSlot} (h : slot.HasDim R dim) :
    ∃ regs, slot.OpensTo R dim regs := by
  cases h with
  | @opened s hvalid hdim => exact ⟨_, hvalid, hdim, rfl⟩
  | closed hdir hopen =>
      exact ⟨_, fun metric mb batchMs =>
        Shard.open_congr hdir hopen metric mb batchMs⟩

theorem ShardSlot.Valid.opensTo {slot : ShardSlot} (hdim : 0 < dim)
    (h : slot.Valid dim) : slot.OpensTo R dim slot.registers := by
  cases h with
  | unused => exact Shard.open_empty_returns R hdim
  | opened hvalid hdimEq => exact ⟨hvalid, hdimEq, rfl⟩

namespace ShardStore

variable {st : ShardStore} {sref : ShardRef} {s : Shard}

theorem serves_of_opensTo
    (h : (st.slots sref.key).OpensTo R sref.dim regs) :
    ∃ s, Serves R st sref s ∧ s.Valid ∧ s.dim = sref.dim ∧
      registers s.mem = regs := by
  rcases hcase : st.slots sref.key with dir | s
  · rw [hcase] at h
    obtain ⟨s, hopen, hs⟩ := h sref.metric st.snapshotWalMb st.walBatchMs
    exact ⟨s, .inr ⟨dir, hcase, hopen⟩, hs⟩
  · rw [hcase] at h
    exact ⟨s, .inl hcase, h⟩

theorem held_of_opensTo (st : ShardStore) (sref : ShardRef)
    (h : (st.slots sref.key).OpensTo R sref.dim regs) :
    st.held R sref = regs := by
  obtain ⟨s, hserves, -, -, hreg⟩ := serves_of_opensTo h
  rw [held, getOrOpen_of_serves hserves]
  exact hreg

theorem access_put_of_serves {α : Type} (h : Serves R st sref s)
    (op : Shard → Shard × Except ShardError α) :
    (st.put sref.key (.opened s)).access R sref op = st.access R sref op := by
  have hopened : Serves R (st.put sref.key (.opened s)) sref s :=
    .inl (slots_put_self _ _)
  rw [access_of_getOrOpen (getOrOpen_of_serves h),
    access_of_getOrOpen (getOrOpen_of_serves hopened)]
  simp only [put, Function.update_idem]

variable {op : UInt32} {hlc : Hlc} {id : UInt64} {vector : List F32}
variable {payload : Bytes}

theorem write_put_of_serves (h : Serves R st sref s)
    (hvector : ∀ v, contentOf op vector = some v → v.length = sref.dim) :
    (st.put sref.key (.opened s)).write R sref op hlc id vector payload =
      st.write R sref op hlc id vector payload := by
  rw [write_eq_access hvector, write_eq_access hvector,
    access_put_of_serves h]

/-- A point operation whose vector fits is an offer to the registers. -/
theorem write_of_opensTo (hdim : 0 < sref.dim)
    (h : (st.slots sref.key).OpensTo R sref.dim regs)
    (hvector : ∀ v, contentOf op vector = some v → v.length = sref.dim) :
    (st.write R sref op hlc id vector payload).2 =
        .ok (if Beats hlc (regs id) then .applied else .stale) ∧
      ((st.write R sref op hlc id vector payload).1.slots sref.key).OpensTo R
        sref.dim (deliverWith offer regs (id, hlc, contentOf op vector)) := by
  obtain ⟨s, hserves, hvalid, hdimEq, rfl⟩ := serves_of_opensTo h
  have hput : (st.put sref.key (.opened s)).slots sref.key = .opened s :=
    slots_put_self _ _
  have hslot : ((st.put sref.key (.opened s)).slots sref.key).Valid
      sref.dim := by
    rw [hput]
    exact .opened hvalid hdimEq
  obtain ⟨hout, hwritten⟩ := @write_of_valid R
    (st.put sref.key (.opened s)) sref op hlc id vector payload hdim hslot
    hvector
  rw [hput] at hout
  have hreg := hwritten.registers_eq
  rw [hput] at hreg
  rw [← write_put_of_serves hserves hvector]
  refine ⟨hout, ?_⟩
  have hopens := hwritten.valid.opensTo (R := R) hdim
  rwa [hreg] at hopens

/-- A point operation of any request is refused for its vector, or is an offer
to the registers. -/
theorem write_cases_of_opensTo (hdim : 0 < sref.dim)
    (h : (st.slots sref.key).OpensTo R sref.dim regs) (op : UInt32)
    (hlc : Hlc) (id : UInt64) (vector : List F32) (payload : Bytes) :
    (∃ e, st.write R sref op hlc id vector payload = (st, .error e)) ∨
      ∃ st' out, st.write R sref op hlc id vector payload =
          (st', .ok out) ∧
        (st'.slots sref.key).OpensTo R sref.dim
          (deliverWith offer regs (id, hlc, contentOf op vector)) := by
  by_cases hvector : ∀ v, contentOf op vector = some v → v.length = sref.dim
  · obtain ⟨hout, hopens⟩ := write_of_opensTo hdim h hvector
    exact .inr ⟨_, _, Prod.ext rfl hout, hopens⟩
  · exact .inl ⟨_, write_refused hvector⟩

end ShardStore

namespace NodeState

variable {s : NodeState} {collection : String} {shardIdx : UInt32}
variable {schema : CollectionSchema}

/-- Applying a record is an offer, and says whether it won. -/
theorem pullRecord_of_opensTo (hdim : 0 < schema.dim.toNat)
    (h : (s.shards.slots { collection, shardIdx }).OpensTo R schema.dim.toNat
      regs) (reading : ℕ) {row : Shard.ShardRecordRow}
    (hvector : ∀ v, row.written.2 = some v →
      v.length = schema.dim.toNat) :
    ∃ shards, s.pullRecord R reading collection shardIdx schema row =
        ({ s with
            shards
            clock := HlcClock.update s.clock reading row.hlc },
          .ok (if Beats row.hlc (regs row.id) then .applied else .stale)) ∧
      (shards.slots { collection, shardIdx }).OpensTo R schema.dim.toNat
        (deliverWith offer regs (row.id, row.written)) := by
  have hcontent : contentOf (row.request collection shardIdx).op row.vector =
      row.written.2 :=
    congrArg Prod.snd (row.written_request collection shardIdx)
  obtain ⟨hout, hopens⟩ := @ShardStore.write_of_opensTo R regs s.shards
    (shardRef collection shardIdx schema)
    (row.request collection shardIdx).op row.hlc row.id row.vector [] hdim h
    (by
      rw [hcontent]
      exact hvector)
  rcases hwrite : s.shards.write R (shardRef collection shardIdx schema)
    (row.request collection shardIdx).op row.hlc row.id row.vector [] with
    ⟨shards, res⟩
  rw [hwrite] at hout hopens
  refine ⟨shards, ?_, ?_⟩
  · rw [pullRecord_eq, hwrite, show res = _ from hout]
  · rwa [hcontent] at hopens

/-- What a transfer enumerates is what the source has open. -/
theorem streamShard_of_hasDim (hdim : 0 < schema.dim.toNat)
    (hslot : (s.shards.slots { collection, shardIdx }).HasDim R
      schema.dim.toNat) :
    ∃ rows, s.streamShard R collection shardIdx schema = (s, .ok rows) ∧
      (∀ row, row ∈ rows ↔ ∃ p,
        (s.shards.slots { collection, shardIdx }).registers row.id = some p ∧
          row = Shard.rowOf row.id p) ∧
      ∀ row ∈ rows, ∀ v, row.written.2 = some v →
        v.length = schema.dim.toNat := by
  rcases hcase : s.shards.slots { collection, shardIdx } with dir | shard
  · refine ⟨[], ?_, by simp [ShardSlot.registers], by simp⟩
    simp [streamShard, ShardStore.hasShard, hcase]
  · rw [hcase] at hslot
    rcases hslot with ⟨hvalid, hdimEq⟩ | _
    obtain ⟨shards, rows, hstream, -, hmem, hdims⟩ :=
      @streamShard_of_valid R s collection shardIdx schema hdim
        (hcase ▸ .opened hvalid hdimEq)
    refine ⟨rows, ?_, hcase ▸ hmem, hdims⟩
    rw [← Prod.eta (s.streamShard R collection shardIdx schema),
      streamShard_fst, hstream]

end NodeState

end Slot

end Quorvec
