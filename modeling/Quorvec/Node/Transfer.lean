import Quorvec.Node.ReplicaState

/-!
# Shard transfers

A source enumerates every record of a shard, live points and tombstones, and a
target applies them one by one as versioned writes.  A record of a valid shard
is its register, and applying it is an offer to a register of the target.
-/

namespace Quorvec

open TotalCorrectness LastWriterWins ByteCodec

namespace Shard

/-- A register as a transfer ships it. -/
def rowOf (id : UInt64) (p : Hlc × Content) : ShardRecordRow where
  id := id
  hlc := p.1
  tombstone := p.2.isNone
  vector := p.2.getD []

/-- What a record writes. -/
def ShardRecordRow.written (row : ShardRecordRow) : Hlc × Content :=
  (row.hlc, if row.tombstone then none else some row.vector)

@[simp] theorem written_rowOf (id : UInt64) (p : Hlc × Content) :
    (rowOf id p).written = p := by
  rcases p with ⟨t, _ | vector⟩ <;> rfl

/-- The record that is streamed for a version. -/
theorem record_of_version {s : Shard} (h : s.Valid) {id : UInt64}
    {v : PointVersion} (hv : s.version id = some v) :
    (do
      let vector ← s.vectorOf id v
      return ({ id, hlc := v.hlc, tombstone := v.tombstone, vector } :
        ShardRecordRow)) =
      .ok (rowOf id (v.hlc, (registers s.mem id).bind Prod.snd)) := by
  have hget := get_eq h id
  rw [version_eq h] at hv
  rcases hreg : registers s.mem id with _ | ⟨t, content⟩
  · simp [hreg] at hv
  · rw [hreg, Option.map_some, Option.some.injEq] at hv
    rw [hreg] at hget
    rw [← hv]
    rcases content with _ | vector
    · simp [vectorOf, rowOf]
    · simp [vectorOf, rowOf, hget]

/-- The records of a shard are its registers. -/
theorem records_returns {s : Shard} (h : s.Valid) :
    Returns s.records (fun rows => ∀ row, row ∈ rows ↔
      ∃ p, registers s.mem row.id = some p ∧ row = rowOf row.id p) := by
  have hrow : ∀ entry ∈ s.versions.toList,
      (do
        let vector ← s.vectorOf entry.1 entry.2
        return ({ id := entry.1, hlc := entry.2.hlc
                  tombstone := entry.2.tombstone, vector } :
          ShardRecordRow)) =
        .ok (rowOf entry.1
          (entry.2.hlc, (registers s.mem entry.1).bind Prod.snd)) :=
    fun entry hentry => record_of_version h
      (Std.ExtTreeMap.mem_toList_iff_getElem?_eq_some.mp hentry)
  refine ⟨_, Returns.mapM_eq_map hrow, fun row => ?_⟩
  rw [List.mem_map]
  constructor
  · rintro ⟨⟨id, v⟩, hentry, rfl⟩
    have hv : s.version id = some v :=
      Std.ExtTreeMap.mem_toList_iff_getElem?_eq_some.mp hentry
    rw [version_eq h] at hv
    rcases hreg : registers s.mem id with _ | p
    · simp [hreg] at hv
    · rw [hreg, Option.map_some, Option.some.injEq] at hv
      refine ⟨p, hreg, ?_⟩
      rw [← hv]
      rfl
  · rintro ⟨p, hreg, hrow⟩
    refine ⟨(row.id, { hlc := p.1, tombstone := p.2.isNone }), ?_, ?_⟩
    · rw [Std.ExtTreeMap.mem_toList_iff_getElem?_eq_some]
      have hv := version_eq h row.id
      rw [hreg] at hv
      exact hv
    · rw [hrow]
      simp only [rowOf, hreg]
      rfl

end Shard

namespace NodeState

section Model

variable (R : Runtime)

/-- The source of a transfer: every record of a shard that is open here. -/
def streamShard (s : NodeState) (collection : String) (shardIdx : UInt32)
    (schema : CollectionSchema) :
    NodeState × Except RouterError (List Shard.ShardRecordRow) :=
  if s.shards.hasShard collection shardIdx then
    match s.shards.records R (shardRef collection shardIdx schema) with
    | (shards, .ok rows) => ({ s with shards }, .ok rows)
    | (shards, .error e) => ({ s with shards }, .error (.shard e))
  else (s, .ok [])

/-- The target of a transfer: apply one record. -/
def pullRecord (reading : ℕ) (s : NodeState) (collection : String)
    (shardIdx : UInt32) (schema : CollectionSchema)
    (row : Shard.ShardRecordRow) :
    NodeState × Except RouterError WriteOutcome :=
  let s := { s with clock := HlcClock.update s.clock reading row.hlc }
  let sref := shardRef collection shardIdx schema
  let out := if row.tombstone then s.shards.delete R sref row.hlc row.id
    else s.shards.upsert R sref row.hlc row.id row.vector []
  match out with
  | (shards, .ok outcome) => ({ s with shards }, .ok outcome)
  | (shards, .error e) => ({ s with shards }, .error (.shard e))

end Model

end NodeState

/-! ## Enumerating and applying records -/

/-- A record of a shard as a request to a replica. -/
def Shard.ShardRecordRow.request (row : Shard.ShardRecordRow)
    (collection : String) (shardIdx : UInt32) : ReplicaWriteRequest where
  collection := collection
  shardIdx := shardIdx
  op := if row.tombstone then ShardStore.opDelete else ShardStore.opUpsert
  id := row.id
  hlc := row.hlc.pack
  vector := row.vector
  payload := []

theorem Shard.ShardRecordRow.written_request (row : Shard.ShardRecordRow)
    (collection : String) (shardIdx : UInt32) :
    (row.request collection shardIdx).written = row.written := by
  rcases row with ⟨id, hlc, _ | _, vector⟩ <;>
    simp [ReplicaWriteRequest.written, request, written, contentOf,
      ShardStore.opDelete, ShardStore.opUpsert]

namespace NodeState

section Spec

variable {R : Runtime} {s : NodeState} {collection : String}
variable {shardIdx : UInt32} {schema : CollectionSchema}

/-- A source is not changed by a transfer. -/
theorem streamShard_fst :
    (s.streamShard R collection shardIdx schema).1 = s := by
  rcases hslot : s.shards.slots { collection, shardIdx } with dir | shard
  · simp [streamShard, ShardStore.hasShard, hslot]
  · have hread := @ShardStore.read_of_opened R s.shards
      (shardRef collection shardIdx schema) _ shard hslot fun s => s.records
    simp only [streamShard, ShardStore.hasShard, hslot, if_true,
      ShardStore.records, hread]
    cases shard.records <;> rfl

/-- What a transfer enumerates is what the source holds, in vectors of its
dimension. -/
theorem streamShard_of_valid (hdim : 0 < schema.dim.toNat)
    (hslot : (s.shards.slots { collection, shardIdx }).Valid
      schema.dim.toNat) :
    ∃ shards rows, s.streamShard R collection shardIdx schema =
        ({ s with shards }, .ok rows) ∧
      ShardStore.ReadOnly (shardRef collection shardIdx schema) s.shards
        shards ∧
      (∀ row, row ∈ rows ↔ ∃ p,
        (s.shards.slots { collection, shardIdx }).registers row.id = some p ∧
          row = Shard.rowOf row.id p) ∧
      ∀ row ∈ rows, ∀ v, row.written.2 = some v →
        v.length = schema.dim.toNat := by
  let sref := shardRef collection shardIdx schema
  rcases hcase : s.shards.slots { collection, shardIdx } with dir | shard
  · rw [hcase] at hslot
    refine ⟨s.shards, [], ?_, ⟨?_, rfl, fun _ _ => rfl⟩, ?_, ?_⟩
    · simp [streamShard, ShardStore.hasShard, hcase]
    · show (s.shards.slots { collection, shardIdx }).Valid _
      rw [hcase]
      exact hslot
    · simp [ShardSlot.registers]
    · simp
  · obtain ⟨opened, hvalid, hdimEq, hreg, hrecords, hread⟩ :=
      @ShardStore.read_of_valid R s.shards sref _ hdim hslot
        fun shard => shard.records
    obtain ⟨rows, hrows, hmem⟩ := Shard.records_returns hvalid
    have hregOf : registers opened.mem = (ShardSlot.opened shard).registers :=
      hreg.trans (congrArg ShardSlot.registers hcase)
    refine ⟨_, rows, ?_, hread, ?_, ?_⟩
    · have hpair : s.shards.records R sref =
          ((s.shards.records R sref).1, .ok rows) :=
        Prod.ext rfl (by rw [ShardStore.records, hrecords, hrows]; rfl)
      simp only [streamShard, ShardStore.hasShard, hcase, if_true]
      rw [hpair]
      rfl
    · rw [← hregOf]
      exact hmem
    · intro row hrow v hv
      obtain ⟨p, hp, heq⟩ := (hmem row).mp hrow
      rw [heq, Shard.written_rowOf] at hv
      have hcontent : registers opened.mem row.id = some (p.1, some v) := by
        rw [hp, ← hv]
      rw [← (show opened.dim = schema.dim.toNat from hdimEq)]
      exact length_of_registers hvalid.mem hcontent

/-- Applying a record is the write of its request. -/
theorem pullRecord_eq (reading : ℕ) (row : Shard.ShardRecordRow) :
    s.pullRecord R reading collection shardIdx schema row =
      match s.shards.write R (shardRef collection shardIdx schema)
        (row.request collection shardIdx).op row.hlc row.id row.vector [] with
      | (shards, .ok outcome) =>
          ({ s with
              shards
              clock := HlcClock.update s.clock reading row.hlc }, .ok outcome)
      | (shards, .error e) =>
          ({ s with
              shards
              clock := HlcClock.update s.clock reading row.hlc },
            .error (.shard e)) := by
  cases htomb : row.tombstone <;>
    simp [pullRecord, ShardStore.write, Shard.ShardRecordRow.request, htomb,
      ShardStore.opDelete, ShardStore.opUpsert]

theorem pullRecord_fst (reading : ℕ) (row : Shard.ShardRecordRow) :
    (s.pullRecord R reading collection shardIdx schema row).1 =
      { s with
        shards := (s.shards.write R (shardRef collection shardIdx schema)
          (row.request collection shardIdx).op row.hlc row.id row.vector []).1
        clock := HlcClock.update s.clock reading row.hlc } := by
  rw [pullRecord_eq]
  split
  · next hwrite => rw [hwrite]
  · next hwrite => rw [hwrite]

theorem shards_pullRecord (reading : ℕ) (row : Shard.ShardRecordRow) :
    (s.pullRecord R reading collection shardIdx schema row).1.shards =
      (s.shards.write R (shardRef collection shardIdx schema)
        (row.request collection shardIdx).op row.hlc row.id row.vector
        []).1 := by
  rw [pullRecord_fst]

theorem clock_pullRecord (reading : ℕ) (row : Shard.ShardRecordRow) :
    (s.pullRecord R reading collection shardIdx schema row).1.clock =
      HlcClock.update s.clock reading row.hlc := by
  rw [pullRecord_fst]

theorem metadata_pullRecord (reading : ℕ) (row : Shard.ShardRecordRow) :
    (s.pullRecord R reading collection shardIdx schema row).1.metadata =
      s.metadata := by
  rw [pullRecord_fst]

/-- A record that is applied is a write that succeeds. -/
theorem write_of_pullRecord {reading : ℕ} {row : Shard.ShardRecordRow}
    {out : WriteOutcome}
    (h : (s.pullRecord R reading collection shardIdx schema row).2 =
      .ok out) :
    (s.shards.write R (shardRef collection shardIdx schema)
      (row.request collection shardIdx).op row.hlc row.id row.vector
      []).2 = .ok out := by
  rw [pullRecord_eq] at h
  split at h
  · next hwrite =>
    rw [hwrite]
    exact congrArg Except.ok (Except.ok.inj h)
  · simp at h

/-- Applying a record to a valid shard is an offer, and says whether it
won. -/
theorem pullRecord_of_valid (hdim : 0 < schema.dim.toNat)
    (hslot : (s.shards.slots { collection, shardIdx }).Valid
      schema.dim.toNat) (reading : ℕ) {row : Shard.ShardRecordRow}
    (hvector : ∀ v, row.written.2 = some v →
      v.length = schema.dim.toNat) :
    ∃ shards, s.pullRecord R reading collection shardIdx schema row =
        ({ s with
            shards
            clock := HlcClock.update s.clock reading row.hlc },
          .ok (if Beats row.hlc
              ((s.shards.slots { collection, shardIdx }).registers row.id)
            then .applied else .stale)) ∧
      (shards.slots { collection, shardIdx }).Valid schema.dim.toNat ∧
      (shards.slots { collection, shardIdx }).registers =
        deliverWith offer
          (s.shards.slots { collection, shardIdx }).registers
          (row.id, row.written) ∧
      ∀ key, key ≠ { collection, shardIdx } →
        shards.slots key = s.shards.slots key := by
  have hcontent : contentOf (row.request collection shardIdx).op row.vector =
      row.written.2 :=
    congrArg Prod.snd (row.written_request collection shardIdx)
  obtain ⟨hout, hslots⟩ := @ShardStore.write_of_valid R s.shards
    (shardRef collection shardIdx schema)
    (row.request collection shardIdx).op row.hlc row.id row.vector [] hdim
    hslot (by
      rw [hcontent]
      exact hvector)
  rcases hwrite : s.shards.write R (shardRef collection shardIdx schema)
    (row.request collection shardIdx).op row.hlc row.id row.vector [] with
    ⟨shards, res⟩
  rw [hwrite] at hout hslots
  refine ⟨shards, ?_, hslots.valid, ?_, hslots.other⟩
  · rw [pullRecord_eq, hwrite, show res = _ from hout]
    rfl
  · have hreg := hslots.registers_eq
    rw [hcontent] at hreg
    exact hreg

end Spec

end NodeState

end Quorvec
