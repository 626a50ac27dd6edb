import Quorvec.Node.Convergence
import Quorvec.Node.NameRun

/-!
# What a node holds of a name

As long as every request for a name stands for a write of some list, the shards
of the name hold writes of the list only, under whatever schema the node opens
them.
-/

namespace Quorvec

open TotalCorrectness LastWriterWins ByteCodec

/-- One of the requests wrote this to the id. -/
def WrittenBy (since : List ReplicaWriteRequest) (key : ShardKey)
    (id : UInt64) (p : Hlc × Content) : Prop :=
  ∃ req ∈ since, req.key = key ∧ req.id = id ∧ req.written = p

/-- A request for the name that stands for a write of those, and fits its
frame. -/
structure ReplicaWriteRequest.Since (name : String)
    (since : List ReplicaWriteRequest) (req : ReplicaWriteRequest) :
    Prop where
  collection : req.collection = name
  frame : req.FitsFrame
  from_since : req.From since

/-- Whatever the node holds of the name was written by one of the requests. -/
def NodeState.OnlySince (R : Runtime) (name : String)
    (since : List ReplicaWriteRequest) (s : NodeState) : Prop :=
  ∀ shardIdx, (s.shards.slots { collection := name, shardIdx }).Within R
    (WrittenBy since { collection := name, shardIdx })

section Requests

variable {name : String} {since since' : List ReplicaWriteRequest}
variable {req : ReplicaWriteRequest}

theorem WrittenBy.mono {key : ShardKey} {id : UInt64} {p : Hlc × Content}
    (h : WrittenBy since key id p) (hsub : since ⊆ since') :
    WrittenBy since' key id p := by
  obtain ⟨req, hreq, hsame⟩ := h
  exact ⟨req, hsub hreq, hsame⟩

theorem ReplicaWriteRequest.Since.mono (h : req.Since name since)
    (hsub : since ⊆ since') : req.Since name since' :=
  ⟨h.collection, h.frame, h.from_since.mono hsub⟩

/-- What is pushed on stands for what the shard holds. -/
theorem WrittenBy.repair {shardIdx : UInt32} {id : UInt64}
    {p : Hlc × Content}
    (h : WrittenBy since { collection := name, shardIdx } id p)
    (hfits : ∀ req ∈ since, req.FitsFrame) :
    ((pointOf id p).repair name shardIdx).Since name since := by
  obtain ⟨source, hsource, hkey, hid, rfl⟩ := h
  refine ⟨rfl, (hfits source hsource).repair _ _ _, source, hsource, hkey,
    hid, ?_⟩
  exact (DataPlane.written_repair id source.written name shardIdx).symm

end Requests

namespace NodeState.OnlySince

variable {R : Runtime} {name : String} {since : List ReplicaWriteRequest}
variable {s s' : NodeState}

theorem mono (h : OnlySince R name since s)
    {since' : List ReplicaWriteRequest} (hsub : since ⊆ since') :
    OnlySince R name since' s := fun shardIdx =>
  (h shardIdx).mono fun _ _ hp => hp.mono hsub

theorem of_slots_eq (h : OnlySince R name since s)
    (hslots : ∀ shardIdx, s'.shards.slots { collection := name, shardIdx } =
      s.shards.slots { collection := name, shardIdx }) :
    OnlySince R name since s' := by
  intro shardIdx
  rw [hslots]
  exact h shardIdx

theorem of_slot (h : OnlySince R name since s) {shardIdx : UInt32}
    (hslot : (s'.shards.slots { collection := name, shardIdx }).Within R
      (WrittenBy since { collection := name, shardIdx }))
    (hother : ∀ key, key ≠ { collection := name, shardIdx } →
      s'.shards.slots key = s.shards.slots key) :
    OnlySince R name since s' := by
  intro shardIdx'
  by_cases hkey : ({ collection := name, shardIdx := shardIdx' } : ShardKey) =
      { collection := name, shardIdx }
  · rw [hkey]
    exact hslot
  · rw [hother _ hkey]
    exact h shardIdx'

theorem dropCollection (h : OnlySince R name since s) :
    OnlySince R name since
      { s with shards := s.shards.dropCollection name } :=
  fun shardIdx => ShardStore.within_dropCollection (h shardIdx) name

/-- The shard of a request takes it, under any schema. -/
theorem write (h : OnlySince R name since s) {req : ReplicaWriteRequest}
    (hreq : req.Since name since) (schema : CollectionSchema) (clock : Hlc) :
    OnlySince R name since
      { s with
        shards := (s.shards.write R
          (shardRef req.collection req.shardIdx schema) req.op
          (Hlc.unpack req.hlc) req.id req.vector req.payload).1
        clock } := by
  obtain rfl := hreq.collection
  let sref := shardRef req.collection req.shardIdx schema
  have hslot : (s.shards.slots sref.key).Within R
      (WrittenBy since req.key) := h req.shardIdx
  exact h.of_slot
    (ShardStore.write_within hslot hreq.frame hreq.from_since)
    fun key hkey => ShardStore.slots_write_of_ne hkey

theorem replicaWrite (h : OnlySince R name since s)
    {req : ReplicaWriteRequest} (hreq : req.Since name since) (reading : ℕ) :
    OnlySince R name since (s.replicaWrite R reading req).1 := by
  rcases hknown : s.metadata.collections[req.collection]? with _ | known
  · simpa only [NodeState.replicaWrite, hknown] using h
  · rw [replicaWrite_of_known hknown, applyReplicaWrite_fst]
    exact h.write hreq known
      (HlcClock.update s.clock reading (Hlc.unpack req.hlc))

/-- An operation on one of the shards that only reads it. -/
theorem read {α : Type} (h : OnlySince R name since s) (shardIdx : UInt32)
    (schema : CollectionSchema) (f : Shard → Except ShardError α) :
    OnlySince R name since { s with
        shards := (s.shards.access R (shardRef name shardIdx schema)
          fun shard => (shard, f shard)).1 } ∧
      ∀ a, (s.shards.access R (shardRef name shardIdx schema)
          fun shard => (shard, f shard)).2 = .ok a →
        ∃ shard : Shard, shard.Within R
            (WrittenBy since { collection := name, shardIdx }) ∧
          f shard = .ok a := by
  let sref := shardRef name shardIdx schema
  have hslot : (s.shards.slots sref.key).Within R
      (WrittenBy since { collection := name, shardIdx }) := h shardIdx
  obtain ⟨hwithin, hout⟩ := @ShardStore.access_within R _ s.shards sref _ hslot
    (fun shard => (shard, f shard)) fun shard hshard => hshard
  exact ⟨h.of_slot hwithin fun key hkey => ShardStore.slots_access_of_ne hkey _,
    hout⟩

/-- A read returns what was written since. -/
theorem readLocal (h : OnlySince R name since s) (shardIdx : UInt32)
    (schema : CollectionSchema) (id : UInt64) :
    OnlySince R name since (s.readLocal R name shardIdx schema id).1 ∧
      ∀ point, (s.readLocal R name shardIdx schema id).2 = .ok (some point) →
        ∃ p, WrittenBy since { collection := name, shardIdx } id p ∧
          point = pointOf id p := by
  obtain ⟨hstate, hout⟩ := h.read shardIdx schema fun shard =>
    shard.storedPoint id
  rw [NodeState.readLocal, ShardStore.getVersioned]
  rcases hcase : s.shards.access R (shardRef name shardIdx schema)
    (fun shard => (shard, shard.storedPoint id)) with ⟨shards, e | found⟩
  · rw [hcase] at hstate
    exact ⟨hstate, by simp⟩
  · rw [hcase] at hstate hout
    refine ⟨hstate, fun point hpoint => ?_⟩
    obtain ⟨shard, hshard, hfound⟩ := hout found rfl
    rw [Except.ok.inj hpoint] at hfound
    exact hshard.storedPoint hfound

theorem replicaGet (h : OnlySince R name since s) (shardIdx : UInt32)
    (id : UInt64) :
    OnlySince R name since (s.replicaGet R name shardIdx id).1 ∧
      ∀ point, (s.replicaGet R name shardIdx id).2 = .ok (some point) →
        ∃ p, WrittenBy since { collection := name, shardIdx } id p ∧
          point = pointOf id p := by
  rcases hknown : s.metadata.collections[name]? with _ | known
  · constructor
    · simpa only [NodeState.replicaGet, hknown] using h
    · intro point hpoint
      simp [NodeState.replicaGet, hknown] at hpoint
  · obtain ⟨hstate, hout⟩ := h.readLocal shardIdx known id
    rcases hcase : s.readLocal R name shardIdx known id with ⟨state, e | p⟩
    · rw [hcase] at hstate
      simp only [NodeState.replicaGet, hknown, hcase]
      exact ⟨hstate, by simp⟩
    · rw [hcase] at hstate hout
      simp only [NodeState.replicaGet, hknown, hcase]
      exact ⟨hstate, fun point hpoint =>
        hout point (congrArg Except.ok (Except.ok.inj hpoint))⟩

/-- A search finds what was written since. -/
theorem searchShard (h : OnlySince R name since s) (shardIdx : UInt32)
    (schema : CollectionSchema) (query : List F32) (k efSearch : ℕ) :
    OnlySince R name since { s with
        shards := (s.shards.searchShard R (shardRef name shardIdx schema)
          query k efSearch).1 } ∧
      ∀ hits, (s.shards.searchShard R (shardRef name shardIdx schema) query
          k efSearch).2 = .ok hits →
        ∀ hit ∈ hits, ∃ p,
          WrittenBy since { collection := name, shardIdx } hit.1 p ∧
            p.2.isSome := by
  obtain ⟨hstate, hout⟩ := h.read shardIdx schema fun shard =>
    shard.search R query k efSearch
  refine ⟨hstate, fun hits hhits hit hhit => ?_⟩
  obtain ⟨shard, hshard, hfound⟩ := hout hits hhits
  exact hshard.search hfound hhit

/-- A source enumerates what was written since. -/
theorem streamShard (h : OnlySince R name since s)
    (hfits : ∀ req ∈ since, req.FitsFrame) (shardIdx : UInt32)
    (schema : CollectionSchema) :
    OnlySince R name since (s.streamShard R name shardIdx schema).1 ∧
      ∀ rows, (s.streamShard R name shardIdx schema).2 = .ok rows →
        ∀ row ∈ rows, (row.request name shardIdx).Since name since := by
  rw [NodeState.streamShard_fst]
  refine ⟨h, fun rows hrows row hrow => ?_⟩
  obtain ⟨-, hout⟩ := h.read shardIdx schema fun shard => shard.records
  rw [NodeState.streamShard] at hrows
  split_ifs at hrows
  · rw [ShardStore.records] at hrows
    rcases hcase : s.shards.access R (shardRef name shardIdx schema)
      (fun shard => (shard, shard.records)) with ⟨shards, e | found⟩
    · simp [hcase] at hrows
    · simp only [hcase, Except.ok.injEq] at hrows
      rw [hcase] at hout
      obtain ⟨shard, hshard, hfound⟩ := hout found rfl
      obtain ⟨p, hp, heq⟩ := hshard.records hfound (hrows ▸ hrow)
      have hsince := hp.repair hfits
      rw [heq]
      exact hsince
  · rw [← Except.ok.inj hrows] at hrow
    simp at hrow

theorem pullRecord (h : OnlySince R name since s) (reading : ℕ)
    {shardIdx : UInt32} (schema : CollectionSchema)
    {row : Shard.ShardRecordRow}
    (hrow : (row.request name shardIdx).Since name since) :
    OnlySince R name since
      (s.pullRecord R reading name shardIdx schema row).1 := by
  have hwrite := h.write hrow schema
    (HlcClock.update s.clock reading row.hlc)
  have hhlc : Hlc.unpack (row.request name shardIdx).hlc = row.hlc :=
    Hlc.unpack_pack row.hlc
  rw [hhlc] at hwrite
  rw [pullRecord_fst]
  exact hwrite

end NodeState.OnlySince

/-! ## What a node knows -/

section Metadata

variable (R : Runtime) (s : NodeState) (collection : String)
variable (shardIdx : UInt32) (schema : CollectionSchema)

theorem NodeState.metadata_readLocal (id : UInt64) :
    (s.readLocal R collection shardIdx schema id).1.metadata = s.metadata := by
  unfold readLocal
  split <;> rfl

theorem NodeState.metadata_replicaGet (id : UInt64) :
    (s.replicaGet R collection shardIdx id).1.metadata = s.metadata := by
  unfold replicaGet
  split
  · rfl
  · next schema hschema =>
    rw [← metadata_readLocal R s collection shardIdx schema id]
    rcases s.readLocal R collection shardIdx schema id with
      ⟨state, e | p⟩ <;> rfl

theorem NodeState.metadata_replicaWrite (reading : ℕ)
    (req : ReplicaWriteRequest) :
    (s.replicaWrite R reading req).1.metadata = s.metadata := by
  rcases hknown : s.metadata.collections[req.collection]? with _ | known
  · rw [replicaWrite_of_unknown hknown]
  · rw [replicaWrite_of_known hknown, metadata_applyReplicaWrite]

end Metadata

/-! ## What a coordinator stamps -/

section Stamp

variable {xxh64 : Bytes → UInt64} {reading : ℕ} {s : NodeState}
variable {name : String} {id : UInt64} {vector : List F32} {payload : Bytes}

theorem NodeState.collection_stampUpsert : ∀ req,
    (s.stampUpsert xxh64 reading name id vector payload).2 = .ok req →
      req.collection = name := by
  intro req hreq
  unfold stampUpsert at hreq
  rcases hschema : s.metadata.collections[name]? with _ | schema
  · simp [hschema] at hreq
  · simp only [hschema] at hreq
    split_ifs at hreq
    rw [← Except.ok.inj hreq]

theorem NodeState.collection_stampDelete : ∀ req,
    (s.stampDelete xxh64 reading name id).2 = .ok req →
      req.collection = name := by
  intro req hreq
  unfold stampDelete at hreq
  rcases hschema : s.metadata.collections[name]? with _ | schema
  · simp [hschema] at hreq
  · simp only [hschema] at hreq
    rw [← Except.ok.inj hreq]

end Stamp

end Quorvec
