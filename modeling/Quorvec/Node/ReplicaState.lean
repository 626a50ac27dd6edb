import Quorvec.Node.Router

/-!
# The registers of a replica

A request stands for one write: a stamp and a content for an id.  A slot that
is unused, or that has a valid shard open, is a family of last-writer-wins
registers.  Every operation of the data plane succeeds on such a slot; point
operations are offers to its registers, and reads see the registers.
-/

namespace Quorvec

open TotalCorrectness LastWriterWins ByteCodec

abbrev Registers := UInt64 → Option (Hlc × Content)

/-- A slot that was never used, or a valid open shard. -/
inductive ShardSlot.Valid (dim : ℕ) : ShardSlot → Prop
  | unused : Valid dim (.closed .empty)
  | opened {s : Shard} : s.Valid → s.dim = dim → Valid dim (.opened s)

/-- A new directory opens to a valid shard without points. -/
theorem Shard.open_empty_returns (R : Runtime) {dim : ℕ} (hdim : 0 < dim)
    (metric : Metric) (mb batchMs : ℕ) :
    Returns (Shard.open R .empty dim metric mb batchMs)
      (fun s => s.Valid ∧ s.dim = dim ∧ registers s.mem = fun _ => none) := by
  obtain ⟨index, hnew, -⟩ := HnswIndex.new_returns metric hdim
  obtain ⟨s, hopen⟩ :
      ∃ s, Shard.open R .empty dim metric mb batchMs = .ok s :=
    ⟨_, Shard.open_empty_eq R hnew mb batchMs⟩
  obtain ⟨hvalid, hdimEq⟩ := Shard.valid_of_open
    (fun image h => by simp [ShardDir.empty] at h) hopen
  obtain ⟨index', hnew', hmem⟩ := Shard.open_empty hopen
  refine ⟨s, hopen, hvalid, hdimEq, ?_⟩
  rw [hmem]
  exact (startMemory_valid hnew').2

/-- What a point operation writes. -/
def contentOf (op : UInt32) (vector : List F32) : Content :=
  if op = ShardStore.opDelete then none else some vector

/-- A register as the data plane returns it. -/
def pointOf (id : UInt64) (p : Hlc × Content) : StoredPoint where
  id := id
  hlc := p.1
  tombstone := p.2.isNone
  vector := p.2.getD []
  payload := []

/-! ## Requests -/

/-- The write that a request stands for. -/
def ReplicaWriteRequest.written (req : ReplicaWriteRequest) : Hlc × Content :=
  (Hlc.unpack req.hlc, contentOf req.op req.vector)

/-- The record of a request fits its frame. -/
def ReplicaWriteRequest.FitsFrame (req : ReplicaWriteRequest) : Prop :=
  (ShardStore.callOf req.op (Hlc.unpack req.hlc) req.id req.vector
    req.payload).record.FitsFrame

/-- The push of a winner fits its frame when the write itself does: it has the
same content and no payload. -/
theorem ReplicaWriteRequest.FitsFrame.repair {source : ReplicaWriteRequest}
    (h : source.FitsFrame) (id : UInt64) (collection : String)
    (shardIdx : UInt32) :
    ((pointOf id source.written).repair collection shardIdx).FitsFrame := by
  simp only [ReplicaWriteRequest.FitsFrame, WalRecord.FitsFrame,
    WalRecord.length_encodeBody] at h ⊢
  by_cases hop : source.op = ShardStore.opDelete
  · simp [StoredPoint.repair, pointOf, written, contentOf, hop,
      ShardStore.callOf, ShardCall.record, WalRecord.ofDelete]
  · simp only [ShardStore.callOf, if_neg hop, ShardCall.record,
      WalRecord.ofUpsert] at h
    have hupsert : ShardStore.opUpsert ≠ ShardStore.opDelete := by decide
    simp only [StoredPoint.repair, pointOf, written, contentOf, if_neg hop,
      Option.isNone_some, Bool.false_eq_true, if_false, Option.getD_some,
      ShardStore.callOf, if_neg hupsert, ShardCall.record, WalRecord.ofUpsert,
      List.length_nil]
    omega

/-- The request stands for one of the writes that were issued. -/
def ReplicaWriteRequest.From (issued : List ReplicaWriteRequest)
    (req : ReplicaWriteRequest) : Prop :=
  ∃ old ∈ issued, old.key = req.key ∧ old.id = req.id ∧
    old.written = req.written

theorem ReplicaWriteRequest.From.mono {req : ReplicaWriteRequest}
    {issued issued' : List ReplicaWriteRequest} (h : req.From issued)
    (hsub : issued ⊆ issued') : req.From issued' := by
  obtain ⟨old, hold, hsame⟩ := h
  exact ⟨old, hsub hold, hsame⟩

/-- The request is stamped apart from those: its stamp for its id is new, or
comes with the same content. -/
def ReplicaWriteRequest.Apart (issued : List ReplicaWriteRequest)
    (req : ReplicaWriteRequest) : Prop :=
  ∀ old ∈ issued, old.key = req.key → old.id = req.id →
    old.written.1 = req.written.1 → old.written = req.written

/-- Requests for one id with one stamp have one content. -/
def Agreeing (issued : List ReplicaWriteRequest) : Prop :=
  ∀ a ∈ issued, ∀ b ∈ issued, a.key = b.key → a.id = b.id →
    a.written.1 = b.written.1 → a.written = b.written

theorem agreeing_nil : Agreeing [] := by
  intro a ha
  simp at ha

theorem Agreeing.cons {issued : List ReplicaWriteRequest}
    (h : Agreeing issued) {req : ReplicaWriteRequest}
    (hreq : req.Apart issued) : Agreeing (req :: issued) := by
  intro a ha b hb hkey hid hstamp
  rw [List.mem_cons] at ha hb
  rcases ha with rfl | ha <;> rcases hb with rfl | hb
  · rfl
  · exact (hreq b hb hkey.symm hid.symm hstamp.symm).symm
  · exact hreq a ha hkey hid hstamp
  · exact h a ha b hb hkey hid hstamp

/-! ## What an arriving write leaves behind -/

namespace NodeState

section Arrival

variable (R : Runtime) (reading : ℕ) (s : NodeState)
variable (req : ReplicaWriteRequest) (schema : CollectionSchema)

/-- A write that arrives is a write to the shards, and feeds its stamp to the
clock. -/
theorem applyReplicaWrite_fst :
    (s.applyReplicaWrite R reading req schema).1 =
      { s with
        shards := (s.shards.write R
          (shardRef req.collection req.shardIdx schema) req.op
          (Hlc.unpack req.hlc) req.id req.vector req.payload).1
        clock := HlcClock.update s.clock reading (Hlc.unpack req.hlc) } := by
  simp only [applyReplicaWrite]
  split
  · next hwrite => rw [hwrite]
  · next hwrite => rw [hwrite]

theorem shards_applyReplicaWrite :
    (s.applyReplicaWrite R reading req schema).1.shards =
      (s.shards.write R (shardRef req.collection req.shardIdx schema) req.op
        (Hlc.unpack req.hlc) req.id req.vector req.payload).1 := by
  rw [applyReplicaWrite_fst]

theorem clock_applyReplicaWrite :
    (s.applyReplicaWrite R reading req schema).1.clock =
      HlcClock.update s.clock reading (Hlc.unpack req.hlc) := by
  rw [applyReplicaWrite_fst]

theorem metadata_applyReplicaWrite :
    (s.applyReplicaWrite R reading req schema).1.metadata = s.metadata := by
  rw [applyReplicaWrite_fst]

end Arrival

/-- The handler applies the writes to collections that it knows. -/
theorem replicaWrite_of_known {R : Runtime} {s : NodeState}
    {req : ReplicaWriteRequest} {schema : CollectionSchema}
    (hschema : s.metadata.collections[req.collection]? = some schema)
    (reading : ℕ) :
    (s.replicaWrite R reading req).1 =
      (s.applyReplicaWrite R reading req schema).1 := by
  simp only [replicaWrite, hschema]
  split
  all_goals
    next hcase => rw [hcase]

theorem replicaWrite_of_unknown {R : Runtime} {s : NodeState}
    {req : ReplicaWriteRequest}
    (hschema : s.metadata.collections[req.collection]? = none)
    (reading : ℕ) :
    s.replicaWrite R reading req = (s, .error (.notFound req.collection)) := by
  simp only [replicaWrite, hschema]

end NodeState

/-! ## Valid slots -/

/-- The stored point of an id is its register. -/
theorem Shard.storedPoint_eq {s : Shard} (h : s.Valid) (id : UInt64) :
    s.storedPoint id = .ok ((registers s.mem id).map (pointOf id)) := by
  have hget := get_eq h id
  rw [storedPoint, version_eq h]
  rcases hreg : registers s.mem id with _ | ⟨t, content⟩
  · rfl
  · rw [hreg] at hget
    rcases content with _ | vector
    · simp [vectorOf, pointOf]
    · simp [vectorOf, pointOf, hget]

namespace ShardStore

section Valid

variable {R : Runtime} {st : ShardStore} {sref : ShardRef}

/-- A valid slot serves a valid shard with its registers. -/
theorem serves_of_valid (R : Runtime) (hdim : 0 < sref.dim)
    (hslot : (st.slots sref.key).Valid sref.dim) :
    ∃ s, Serves R st sref s ∧ s.Valid ∧ s.dim = sref.dim ∧
      registers s.mem = (st.slots sref.key).registers := by
  rcases hcase : st.slots sref.key with dir | s
  · rw [hcase] at hslot
    rcases hslot with _ | _
    obtain ⟨s, hopen, hvalid, hdimEq, hreg⟩ := Shard.open_empty_returns R hdim
      sref.metric st.snapshotWalMb st.walBatchMs
    exact ⟨s, .inr ⟨_, hcase, hopen⟩, hvalid, hdimEq, hreg⟩
  · rw [hcase] at hslot
    rcases hslot with _ | ⟨hvalid, hdimEq⟩
    exact ⟨s, .inl hcase, hvalid, hdimEq, rfl⟩

/-- On a valid slot every operation runs, on a valid shard with the slot's
registers. -/
theorem access_of_valid {α : Type} (hdim : 0 < sref.dim)
    (hslot : (st.slots sref.key).Valid sref.dim)
    (op : Shard → Shard × Except ShardError α) :
    ∃ s : Shard, s.Valid ∧ s.dim = sref.dim ∧
      registers s.mem = (st.slots sref.key).registers ∧
      st.access R sref op = (st.put sref.key (.opened (op s).1),
        (op s).2.mapError .shard) := by
  obtain ⟨s, hserves, hvalid, hdimEq, hreg⟩ := serves_of_valid R hdim hslot
  exact ⟨s, hvalid, hdimEq, hreg,
    access_of_getOrOpen (getOrOpen_of_serves hserves) op⟩

variable {op : UInt32} {hlc : Hlc} {id : UInt64} {vector : List F32}
variable {payload : Bytes}

/-- A point operation on a valid slot is an offer to its registers. -/
structure Written (sref : ShardRef) (st st' : ShardStore) (op : UInt32)
    (hlc : Hlc) (id : UInt64) (vector : List F32) : Prop where
  valid : (st'.slots sref.key).Valid sref.dim
  registers_eq : (st'.slots sref.key).registers =
    deliverWith offer (st.slots sref.key).registers
      (id, hlc, contentOf op vector)
  other : ∀ key, key ≠ sref.key → st'.slots key = st.slots key

theorem offered_callOf :
    (callOf op hlc id vector payload).record.offered =
      (id, hlc, contentOf op vector) := by
  unfold callOf contentOf
  split_ifs <;> rfl

/-- The vector of an upsert has the dimension. -/
theorem hasDim_callOf {dim : ℕ}
    (h : ∀ v, contentOf op vector = some v → v.length = dim) :
    (callOf op hlc id vector payload).record.HasDim dim := by
  intro v hv
  apply h v
  unfold callOf at hv
  unfold contentOf
  split_ifs at hv ⊢ with hop
  · simp [ShardCall.record] at hv
  · exact hv

/-- A point operation whose vector fits runs on the shard. -/
theorem write_eq_access
    (h : ∀ v, contentOf op vector = some v → v.length = sref.dim) :
    st.write R sref op hlc id vector payload =
      st.access R sref (fun s =>
        (callOf op hlc id vector payload).apply R s) := by
  unfold write callOf
  split_ifs with hop
  · rfl
  · have hlen : vector.length = sref.dim := by
      apply h
      rw [contentOf, if_neg hop]
    rw [upsert, if_neg (not_not_intro hlen)]
    rfl

theorem write_of_valid (hdim : 0 < sref.dim)
    (hslot : (st.slots sref.key).Valid sref.dim)
    (hvector : ∀ v, contentOf op vector = some v → v.length = sref.dim) :
    (st.write R sref op hlc id vector payload).2 =
        .ok (if Beats hlc ((st.slots sref.key).registers id) then .applied
          else .stale) ∧
      Written sref st (st.write R sref op hlc id vector payload).1 op hlc id
        vector := by
  have hother : ∀ key, key ≠ sref.key →
      (st.write R sref op hlc id vector payload).1.slots key =
        st.slots key := fun key hkey => slots_write_of_ne hkey
  have hwrite := @write_eq_access R st sref op hlc id vector payload hvector
  obtain ⟨s, hvalid, hdimEq, hreg, haccess⟩ := access_of_valid (R := R) hdim
    hslot fun s => (callOf op hlc id vector payload).apply R s
  have hdimCall : (callOf op hlc id vector payload).record.HasDim s.dim := by
    rw [hdimEq]
    exact hasDim_callOf hvector
  have hstep := Shard.apply_stepped (R := R) hvalid hdimCall
  constructor
  · have hcall : Beats hlc ((st.slots sref.key).registers id) ↔
        Beats (callOf op hlc id vector payload).record.hlc
          (registers s.mem (callOf op hlc id vector payload).record.id) := by
      rw [← hreg, ← ShardCall.hlc, ← ShardCall.id, hlc_callOf, id_callOf]
    rw [hwrite, haccess]
    split_ifs with hbeats
    · rw [hstep.applied (hcall.mp hbeats)]
      rfl
    · rw [hstep.stale (mt hcall.mpr hbeats)]
      rfl
  · refine ⟨?_, ?_, hother⟩
    · rw [hwrite, haccess, slots_put_self]
      exact .opened hstep.valid (hstep.dim_eq.trans hdimEq)
    · rw [hwrite, haccess, slots_put_self, ← hreg, ← offered_callOf]
      exact hstep.registers_eq

/-- A point operation whose vector does not fit is refused. -/
theorem write_refused
    (h : ¬ ∀ v, contentOf op vector = some v → v.length = sref.dim) :
    st.write R sref op hlc id vector payload =
      (st, .error (.dimMismatch sref.dim vector.length)) := by
  obtain ⟨v, hv, hne⟩ : ∃ v, contentOf op vector = some v ∧
      v.length ≠ sref.dim := by
    push Not at h
    exact h
  unfold contentOf at hv
  split_ifs at hv with hop
  rw [← Option.some.inj hv] at hne
  rw [write, if_neg hop, upsert, if_pos hne]

/-- A point operation of any request is refused for its vector, or is an offer
to the registers. -/
theorem write_cases_of_valid (hdim : 0 < sref.dim)
    (hslot : (st.slots sref.key).Valid sref.dim) (op : UInt32) (hlc : Hlc)
    (id : UInt64) (vector : List F32) (payload : Bytes) :
    (∃ e, st.write R sref op hlc id vector payload = (st, .error e)) ∨
      ∃ st' out, st.write R sref op hlc id vector payload =
          (st', .ok out) ∧ Written sref st st' op hlc id vector := by
  by_cases hvector : ∀ v, contentOf op vector = some v → v.length = sref.dim
  · right
    obtain ⟨hout, hwritten⟩ := write_of_valid hdim hslot hvector
    exact ⟨_, _, Prod.ext rfl hout, hwritten⟩
  · exact .inl ⟨_, write_refused hvector⟩

/-- A shard was read: its registers and the other slots are the same. -/
structure ReadOnly (sref : ShardRef) (st st' : ShardStore) : Prop where
  valid : (st'.slots sref.key).Valid sref.dim
  registers_eq : (st'.slots sref.key).registers =
    (st.slots sref.key).registers
  other : ∀ key, key ≠ sref.key → st'.slots key = st.slots key

theorem read_of_valid {α : Type} (hdim : 0 < sref.dim)
    (hslot : (st.slots sref.key).Valid sref.dim)
    (f : Shard → Except ShardError α) :
    ∃ s : Shard, s.Valid ∧ s.dim = sref.dim ∧
      registers s.mem = (st.slots sref.key).registers ∧
      (st.access R sref fun s => (s, f s)).2 = (f s).mapError .shard ∧
      ReadOnly sref st (st.access R sref fun s => (s, f s)).1 := by
  obtain ⟨s, hvalid, hdimEq, hreg, haccess⟩ := access_of_valid (R := R) hdim
    hslot fun s => (s, f s)
  refine ⟨s, hvalid, hdimEq, hreg, by rw [haccess], ?_⟩
  rw [haccess]
  constructor
  · rw [slots_put_self]
    exact .opened hvalid hdimEq
  · rw [slots_put_self, ← hreg]
    rfl
  · intro key hkey
    exact slots_put_of_ne hkey _

/-- Reading a version returns the register of the id. -/
theorem getVersioned_of_valid (hdim : 0 < sref.dim)
    (hslot : (st.slots sref.key).Valid sref.dim) (id : UInt64) :
    (st.getVersioned R sref id).2 =
        .ok (((st.slots sref.key).registers id).map (pointOf id)) ∧
      ReadOnly sref st (st.getVersioned R sref id).1 := by
  obtain ⟨s, hvalid, -, hreg, hpoint, hread⟩ := read_of_valid (R := R) hdim
    hslot fun s => s.storedPoint id
  refine ⟨?_, hread⟩
  rw [getVersioned, hpoint, Shard.storedPoint_eq hvalid, hreg]
  rfl

end Valid

end ShardStore

end Quorvec
