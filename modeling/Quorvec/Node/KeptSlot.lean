import Quorvec.Node.ReplicaState
import Quorvec.Storage.TruncatedLog

/-!
# A shard that is closed and opened again

Whether each record is flushed or not, a shard that is closed hands all its
records to its files, and opens again to what it held.  So the registers of a
slot are there while its shard is open, and are there again when its directory
is opened.
-/

namespace Quorvec

open TotalCorrectness LastWriterWins ByteCodec

section Keeps

variable (R : Runtime) (dim : ℕ) (metric : Metric)

/-- The shard has these registers, and so have its files once it is closed. -/
def Shard.Keeps (regs : Registers) (s : Shard) : Prop :=
  Restorable R dim metric s ∧ registers s.mem = regs

/-- The registers of a slot, in memory or in what its directory opens to. -/
def ShardSlot.Keeps (regs : Registers) : ShardSlot → Prop
  | .opened s => s.Keeps R dim metric regs
  | .closed dir => ∀ mb batchMs,
      Returns (Shard.open R dir dim metric mb batchMs)
        (Shard.Keeps R dim metric regs)

end Keeps

section Reopen

variable {R : Runtime} {dim : ℕ} {metric : Metric} {regs : Registers}

/-- A shard that is closed opens to the same memory. -/
theorem Restorable.open_close {s : Shard} (h : Restorable R dim metric s)
    (mb batchMs : ℕ) :
    Returns (Shard.open R s.close dim metric mb batchMs) (fun s' =>
      Restorable R dim metric s' ∧ s'.mem = s.mem) := by
  obtain ⟨rs, offset, hdisk, hnext⟩ := h.onDisk
  obtain ⟨s', hopen, hmem⟩ := hdisk.open_close mb batchMs
  obtain ⟨rs', offset', hdisk', hend, hsnap, -⟩ := onDisk_open hopen
  have hdir : s.close.Valid dim := by
    intro image himage
    rw [← h.dim_eq]
    exact h.valid.snap image himage
  obtain ⟨hvalid, hdimEq⟩ := Shard.valid_of_open hdir hopen
  have hclose : s.close.wal = some (Wal.logBytes R.crc32 rs) := by
    show some s.wal.close = _
    rw [Wal.close,
      ← BufferedWriter.contents_of_buf_nil (Wal.synced_flush hdisk.clean),
      Wal.contents_flush, hdisk.contents]
  have hlength : (Wal.logBytes R.crc32 rs').length =
      (Wal.logBytes R.crc32 rs).length := by
    rw [← hend, hclose, Wal.intactEnd, Wal.recover_logBytes hdisk.fits]
  have hoffset : offset' = offset := by
    obtain ⟨image, hstart, -⟩ := hdisk.replays
    obtain ⟨image', hstart', -⟩ := hdisk'.replays
    rw [hsnap] at hstart'
    have hsame := hstart'.symm.trans hstart
    simp only [Except.ok.injEq, Prod.mk.injEq] at hsame
    exact hsame.2
  refine ⟨s', hopen, ⟨hvalid, hdimEq, rs', offset', hdisk', ?_⟩, hmem⟩
  rw [hlength, hoffset, hmem]
  exact hnext

namespace ShardSlot

theorem keeps_close {s : Shard} (h : s.Keeps R dim metric regs) :
    Keeps R dim metric regs (.closed s.close) := by
  intro mb batchMs
  refine (h.1.open_close mb batchMs).mono fun s' hs' => ⟨hs'.1, ?_⟩
  rw [hs'.2]
  exact h.2

/-- A slot keeps one family of registers only. -/
theorem keeps_unique {slot : ShardSlot} {regs' : Registers}
    (h : slot.Keeps R dim metric regs) (h' : slot.Keeps R dim metric regs') :
    regs = regs' := by
  cases slot with
  | opened s => exact h.2.symm.trans h'.2
  | closed dir =>
      obtain ⟨s, hopen, hs⟩ := h 0 0
      obtain ⟨s', hopen', hs'⟩ := h' 0 0
      have hsame : s = s' := Except.ok.inj (hopen.symm.trans hopen')
      rw [← hs.2, hsame, hs'.2]

theorem Keeps.atLeast {slot : ShardSlot} (h : slot.Keeps R dim metric regs)
    {id : UInt64} {t : Hlc} (ht : AtLeast (slot.registers id) t) :
    AtLeast (regs id) t := by
  cases slot with
  | opened s => exact h.2 ▸ ht
  | closed dir =>
      obtain ⟨p, hp, -⟩ := ht
      simp [registers] at hp

/-- A directory that was never used opens to a shard without versions. -/
theorem blank_unused (dim : ℕ) (metric : Metric) (hdim : 0 < dim) :
    Keeps R dim metric (fun _ => none) (.closed .empty) := by
  intro mb batchMs
  obtain ⟨s, hopen, -, -, hreg⟩ :=
    Shard.open_empty_returns R hdim metric mb batchMs
  refine ⟨s, hopen, restorable_open ?_ ?_ hopen, hreg⟩
  · intro image himage
    simp [ShardDir.empty] at himage
  · intro image himage
    simp [ShardDir.empty] at himage

end ShardSlot

end Reopen

/-! ## Operations -/

namespace ShardStore

variable {R : Runtime} {st : ShardStore} {sref : ShardRef} {regs : Registers}

/-- The shard that is there, or that is opened, keeps the registers. -/
theorem getOrOpen_of_keeps
    (hslot : (st.slots sref.key).Keeps R sref.dim sref.metric regs) :
    ∃ s : Shard, s.Keeps R sref.dim sref.metric regs ∧
      st.getOrOpen R sref = (st.put sref.key (.opened s), .ok s) := by
  rcases hcase : st.slots sref.key with dir | s
  · rw [hcase] at hslot
    obtain ⟨s, hopen, hs⟩ := hslot st.snapshotWalMb st.walBatchMs
    exact ⟨s, hs, getOrOpen_of_serves (.inr ⟨dir, hcase, hopen⟩)⟩
  · rw [hcase] at hslot
    exact ⟨s, hslot, getOrOpen_of_serves (.inl hcase)⟩

theorem access_of_keeps {α : Type}
    (hslot : (st.slots sref.key).Keeps R sref.dim sref.metric regs)
    (op : Shard → Shard × Except ShardError α) :
    ∃ s : Shard, s.Keeps R sref.dim sref.metric regs ∧
      st.access R sref op = (st.put sref.key (.opened (op s).1),
        (op s).2.mapError .shard) := by
  obtain ⟨s, hs, hopen⟩ := getOrOpen_of_keeps hslot
  exact ⟨s, hs, access_of_getOrOpen hopen op⟩

/-- Dropping a collection keeps the registers of every slot. -/
theorem keeps_dropCollection {key : ShardKey} {dim : ℕ} {metric : Metric}
    (hslot : (st.slots key).Keeps R dim metric regs) (collection : String) :
    ((st.dropCollection collection).slots key).Keeps R dim metric regs := by
  simp only [dropCollection]
  split_ifs
  · rcases hcase : st.slots key with dir | s
    · rwa [hcase] at hslot
    · rw [hcase] at hslot
      exact ShardSlot.keeps_close hslot
  · exact hslot

/-- Dropping a shard keeps its registers. -/
theorem keeps_dropShard {dim : ℕ} {metric : Metric} {collection : String}
    {shardIdx : UInt32}
    (hslot : (st.slots { collection, shardIdx }).Keeps R dim metric regs) :
    ((st.dropShard collection shardIdx).slots { collection, shardIdx }).Keeps R
      dim metric regs := by
  unfold dropShard
  split
  · next s hcase =>
      rw [hcase] at hslot
      rw [slots_put_self]
      exact ShardSlot.keeps_close hslot
  · exact hslot

variable {op : UInt32} {hlc : Hlc} {id : UInt64} {vector : List F32}
variable {payload : Bytes}

/-- A point operation that fits its frame and whose vector has the dimension is
an offer to the registers. -/
theorem write_keeps_offer
    (hslot : (st.slots sref.key).Keeps R sref.dim sref.metric regs)
    (hfits : (callOf op hlc id vector payload).record.FitsFrame)
    (hvector : ∀ v, contentOf op vector = some v → v.length = sref.dim) :
    ((st.write R sref op hlc id vector payload).1.slots sref.key).Keeps R
      sref.dim sref.metric
      (deliverWith offer regs (id, hlc, contentOf op vector)) := by
  obtain ⟨s, ⟨hrestorable, hreg⟩, haccess⟩ := access_of_keeps hslot fun s =>
    (callOf op hlc id vector payload).apply R s
  have hdim : (callOf op hlc id vector payload).record.HasDim s.dim := by
    rw [hrestorable.dim_eq]
    exact hasDim_callOf hvector
  rw [@write_eq_access R st sref op hlc id vector payload hvector, haccess,
    slots_put_self]
  refine ⟨hrestorable.apply hfits, ?_⟩
  rw [← hreg, ← offered_callOf]
  exact (Shard.apply_stepped (R := R) hrestorable.valid hdim).registers_eq

/-- A point operation that fits its frame is an offer to the registers, or is
refused. -/
theorem write_of_keeps
    (hslot : (st.slots sref.key).Keeps R sref.dim sref.metric regs)
    (hfits : (callOf op hlc id vector payload).record.FitsFrame) :
    ∃ regs', ((st.write R sref op hlc id vector payload).1.slots
        sref.key).Keeps R sref.dim sref.metric regs' ∧
      (regs' = regs ∨
        regs' = deliverWith offer regs (id, hlc, contentOf op vector)) := by
  by_cases hvector : ∀ v, contentOf op vector = some v → v.length = sref.dim
  · exact ⟨_, write_keeps_offer hslot hfits hvector, .inr rfl⟩
  · refine ⟨regs, ?_, .inl rfl⟩
    rw [write_refused hvector]
    exact hslot

/-- Reading runs on a shard that keeps the registers, and changes none. -/
theorem read_of_keeps {α : Type}
    (hslot : (st.slots sref.key).Keeps R sref.dim sref.metric regs)
    (f : Shard → Except ShardError α) :
    ∃ s : Shard, s.Keeps R sref.dim sref.metric regs ∧
      (st.access R sref fun s => (s, f s)).2 = (f s).mapError .shard ∧
      ((st.access R sref fun s => (s, f s)).1.slots sref.key).Keeps R
        sref.dim sref.metric regs := by
  obtain ⟨s, hs, haccess⟩ := access_of_keeps hslot fun s => (s, f s)
  rw [haccess, slots_put_self]
  exact ⟨s, hs, rfl, hs⟩

theorem getVersioned_of_keeps
    (hslot : (st.slots sref.key).Keeps R sref.dim sref.metric regs)
    (id : UInt64) :
    (st.getVersioned R sref id).2 = .ok ((regs id).map (pointOf id)) ∧
      ((st.getVersioned R sref id).1.slots sref.key).Keeps R sref.dim
        sref.metric regs := by
  obtain ⟨s, hs, hout, hkeeps⟩ := read_of_keeps hslot fun s => s.storedPoint id
  refine ⟨?_, hkeeps⟩
  rw [getVersioned, hout, Shard.storedPoint_eq hs.1.valid, hs.2]
  rfl

/-- Searching finds live points of the registers. -/
theorem searchShard_of_keeps
    (hslot : (st.slots sref.key).Keeps R sref.dim sref.metric regs)
    (query : List F32) (k efSearch : ℕ) :
    (∀ hits, (st.searchShard R sref query k efSearch).2 = .ok hits →
      ∀ hit ∈ hits, ∃ p, regs hit.1 = some p ∧ p.2.isSome) ∧
      ((st.searchShard R sref query k efSearch).1.slots sref.key).Keeps R
        sref.dim sref.metric regs := by
  obtain ⟨s, hs, hout, hkeeps⟩ :=
    read_of_keeps hslot fun s => s.search R query k efSearch
  refine ⟨fun hits hhits hit hhit => ?_, hkeeps⟩
  rw [searchShard, hout, Shard.search] at hhits
  have hindex : s.index.Valid := hs.1.valid.mem.index
  have hstore := store_eq hs.1.valid.mem hit.1
  rw [hs.2] at hstore
  cases hsearch : s.index.search R.kernel query k efSearch with
  | error e =>
      rw [hsearch] at hhits
      simp [Except.mapError] at hhits
  | ok found =>
      rw [hsearch] at hhits
      have hfound : found = hits := Except.ok.inj hhits
      have hsome := HnswIndex.search_ensures hindex query k efSearch found
        hsearch hit (hfound ▸ hhit)
      rcases hreg : regs hit.1 with _ | p
      · rw [hreg] at hstore
        rw [show s.index.store hit.1 = none from hstore] at hsome
        simp at hsome
      · rw [hreg] at hstore
        rw [show s.index.store hit.1 = p.2 from hstore] at hsome
        exact ⟨p, rfl, hsome⟩

end ShardStore

/-- A node that reads its own replica returns the register of the id. -/
theorem NodeState.readLocal_of_keeps {R : Runtime} {s : NodeState}
    {collection : String} {shardIdx : UInt32} {schema : CollectionSchema}
    {regs : Registers}
    (hslot : (s.shards.slots { collection, shardIdx }).Keeps R
      schema.dim.toNat schema.metric regs) (id : UInt64) :
    s.readLocal R collection shardIdx schema id =
      ({ s with shards := (s.shards.getVersioned R
          (shardRef collection shardIdx schema) id).1 },
        .ok ((regs id).map (pointOf id))) := by
  obtain ⟨hpoint, -⟩ := @ShardStore.getVersioned_of_keeps R s.shards
    (shardRef collection shardIdx schema) regs hslot id
  have hpair : s.shards.getVersioned R
      (shardRef collection shardIdx schema) id =
      ((s.shards.getVersioned R (shardRef collection shardIdx schema) id).1,
        .ok ((regs id).map (pointOf id))) := Prod.ext rfl hpoint
  rw [readLocal, hpair]

end Quorvec
