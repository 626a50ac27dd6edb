import Quorvec.Node.ReplicaRun
import Quorvec.Node.Search
import Quorvec.Storage.ReusedDirectory

/-!
# What a replica answers to a search

In every run, the index of a shard is well formed and has the metric of its
collection, whatever writes, transfers and openings the shard has been through.
So a replica answers a search with different points that it holds, each with the
distance of the vector that it holds, and with points of its own shard only.
-/

namespace Quorvec

open LastWriterWins ByteCodec TotalCorrectness

/-! ## Indexes -/

/-- The images of the shard are well formed, and have the metric. -/
structure Shard.Indexed (metric : Metric) (s : Shard) : Prop where
  mem : s.mem.Sound
  metric_eq : s.index.metric = metric
  snap : ∀ image, s.snap = some image →
    Memory.Sound (image.index, image.versions) ∧ image.index.metric = metric

/-- The same of an open shard, or of the snapshot of a closed one. -/
def ShardSlot.Indexed (metric : Metric) : ShardSlot → Prop
  | .opened s => s.Indexed metric
  | .closed dir => ∀ image, dir.snap = some image →
      Memory.Sound (image.index, image.versions) ∧ image.index.metric = metric

/-- The shards of the collections are indexed under their metrics. -/
def NodeState.IndexedShards (metadata : MetaState) (s : NodeState) : Prop :=
  ∀ (collection : String) schema (shardIdx : UInt32),
    metadata.collections[collection]? = some schema →
    (s.shards.slots { collection, shardIdx }).Indexed schema.metric

namespace Shard.Indexed

variable {R : Runtime} {metric : Metric} {s : Shard}

theorem snapshotNow (h : s.Indexed metric) : s.snapshotNow.Indexed metric where
  mem := h.mem
  metric_eq := h.metric_eq
  snap image himage := by
    rw [← Option.some.inj himage]
    exact ⟨h.mem, h.metric_eq⟩

theorem logAndApply (h : s.Indexed metric) (r : WalRecord) :
    (s.logAndApply R r).1.Indexed metric := by
  rw [Shard.logAndApply]
  dsimp only
  split
  · exact ⟨h.mem, h.metric_eq, h.snap⟩
  · rename_i index versions happly
    obtain ⟨hmem, hkind⟩ := h.mem.of_applyOp happly
    have hnext : ({ s with
        wal := (s.wal.append R.crc32 r).1, index, versions } : Shard).Indexed
        metric := ⟨hmem, hkind.metric.trans h.metric_eq, h.snap⟩
    rcases Shard.maybeSnapshot_cases { s with
        wal := (s.wal.append R.crc32 r).1, index, versions } with hs | hs <;>
      rw [hs]
    · exact hnext
    · exact hnext.snapshotNow

theorem acceptVersioned (h : s.Indexed metric) (r : WalRecord) :
    (s.acceptVersioned R r).1.Indexed metric := by
  have hlog := h.logAndApply (R := R) r
  rw [Shard.acceptVersioned]
  split_ifs
  · exact h
  · rcases hcase : s.logAndApply R r with ⟨s', e | _⟩ <;>
      rw [hcase] at hlog <;> exact hlog

theorem apply (h : s.Indexed metric) (c : ShardCall) :
    (c.apply R s).1.Indexed metric := by
  rcases c with ⟨hlc, id, vector, payload⟩ | ⟨hlc, id⟩
  · show (s.upsertVersioned R hlc id vector payload).1.Indexed metric
    rw [Shard.upsertVersioned]
    split_ifs
    · exact h
    · exact h.acceptVersioned _
  · exact h.acceptVersioned _

/-- A shard opens to the snapshot, or to a new index of the metric. -/
theorem of_open {dir : ShardDir} {dim mb batchMs : ℕ}
    (hdir : ShardSlot.Indexed metric (.closed dir))
    (hopen : Shard.open R dir dim metric mb batchMs = .ok s) :
    s.Indexed metric := by
  obtain ⟨hsound, hkind, hnew⟩ :=
    Shard.sound_of_open (fun image himage => (hdir image himage).1) hopen
  have hsame : s.snap = dir.snap := by
    obtain ⟨-, -, -, -, -, -, -, -, -, rfl⟩ := Shard.open_cases hopen
    rfl
  have hsnap : ∀ image, s.snap = some image →
      Memory.Sound (image.index, image.versions) ∧
        image.index.metric = metric := hsame ▸ hdir
  cases hcase : dir.snap with
  | none => exact ⟨hsound.mem, (hnew hcase).2, hsnap⟩
  | some image =>
      obtain ⟨-, hmetric⟩ := hdir image hcase
      exact ⟨hsound.mem, (hkind image hcase).metric.trans hmetric, hsnap⟩

end Shard.Indexed

section Access

variable {R : Runtime} {st : ShardStore} {sref : ShardRef}

/-- An operation that keeps the images indexed keeps the slot indexed. -/
theorem ShardStore.indexed_access {α : Type}
    {op : Shard → Shard × Except ShardError α}
    (hop : ∀ s : Shard, s.Indexed sref.metric → (op s).1.Indexed sref.metric)
    (h : (st.slots sref.key).Indexed sref.metric) :
    ((st.access R sref op).1.slots sref.key).Indexed sref.metric := by
  have hserved : ∀ st' : ShardStore, ∀ s : Shard, s.Indexed sref.metric →
      ((st'.put sref.key (.opened (op s).1)).slots sref.key).Indexed
        sref.metric := by
    intro st' s hs
    rw [slots_put_self]
    exact hop s hs
  rw [access, getOrOpen]
  rcases hslot : st.slots sref.key with dir | s
  · rw [hslot] at h
    dsimp only
    rcases hopen : Shard.open R dir sref.dim sref.metric st.snapshotWalMb
      st.walBatchMs with e | s
    · show ((st.put sref.key (.closed _)).slots sref.key).Indexed sref.metric
      rw [slots_put_self]
      intro image himage
      refine h image ?_
      rw [← himage, Shard.dirAfterOpen]
      split <;> rfl
    · have hs := hserved (st.put sref.key (.opened s)) s (.of_open h hopen)
      dsimp only
      rcases hcase : op s with ⟨s', e | a⟩ <;> rw [hcase] at hs <;> exact hs
  · rw [hslot] at h
    have hs := hserved st s h
    dsimp only
    rcases hcase : op s with ⟨s', e | a⟩ <;> rw [hcase] at hs <;> exact hs

namespace NodeState.IndexedShards

variable {metadata : MetaState} {old new : NodeState} {collection : String}
variable {shardIdx : UInt32} {schema : CollectionSchema}

theorem same (h : old.IndexedShards metadata)
    (hshards : new.shards = old.shards) : new.IndexedShards metadata := by
  intro collection schema shardIdx hschema
  rw [hshards]
  exact h collection schema shardIdx hschema

theorem access {α : Type} (h : old.IndexedShards metadata)
    (hschema : metadata.collections[collection]? = some schema)
    {op : Shard → Shard × Except ShardError α}
    (hop : ∀ s : Shard, s.Indexed schema.metric →
      (op s).1.Indexed schema.metric)
    (hshards : new.shards = (old.shards.access R
      (shardRef collection shardIdx schema) op).1) :
    new.IndexedShards metadata := by
  intro collection' schema' shardIdx' hschema'
  rw [hshards]
  by_cases hkey : ({ collection := collection', shardIdx := shardIdx' } :
      ShardKey) = { collection, shardIdx }
  · have hcollection : collection' = collection :=
      congrArg ShardKey.collection hkey
    rw [hcollection, hschema, Option.some.injEq] at hschema'
    rw [hkey, ← hschema']
    exact ShardStore.indexed_access hop (h _ _ _ hschema)
  · rw [@ShardStore.slots_access_of_ne R old.shards
      (shardRef collection shardIdx schema) _ _ hkey]
    exact h _ _ _ hschema'

theorem write (h : old.IndexedShards metadata)
    (hschema : metadata.collections[collection]? = some schema)
    {op : UInt32} {hlc : Hlc} {id : UInt64} {vector : List F32}
    {payload : Bytes}
    (hshards : new.shards = (old.shards.write R
      (shardRef collection shardIdx schema) op hlc id vector payload).1) :
    new.IndexedShards metadata := by
  rcases ShardStore.write_cases R old.shards
      (shardRef collection shardIdx schema) op hlc id vector payload with
    ⟨e, heq⟩ | heq
  · exact h.same (by rw [hshards, heq])
  · rw [heq] at hshards
    exact h.access hschema (fun s hs => hs.apply _) hshards

/-! ## Steps of the replicas -/

section Node

variable {R : Runtime} {metadata : MetaState} {s : NodeState}

theorem replicaWrite (h : s.IndexedShards metadata)
    (hmeta : s.metadata = metadata) (reading : ℕ)
    (req : ReplicaWriteRequest) :
    (s.replicaWrite R reading req).1.IndexedShards metadata := by
  unfold NodeState.replicaWrite
  split
  · exact h
  · next schema hschema =>
      unfold applyReplicaWrite
      dsimp only
      rcases hwrite : s.shards.write R
          (shardRef req.collection req.shardIdx schema) req.op
          (Hlc.unpack req.hlc) req.id req.vector req.payload with
        ⟨shards, e | out⟩ <;>
        exact h.write (hmeta ▸ hschema) (congrArg Prod.fst hwrite).symm

theorem replicaGet (h : s.IndexedShards metadata)
    (hmeta : s.metadata = metadata) (collection : String) (shardIdx : UInt32)
    (id : UInt64) :
    (s.replicaGet R collection shardIdx id).1.IndexedShards metadata := by
  unfold NodeState.replicaGet
  split
  · exact h
  · next schema hschema =>
      unfold readLocal
      rcases hread : s.shards.getVersioned R
          (shardRef collection shardIdx schema) id with ⟨shards, e | p⟩ <;>
        exact h.access (hmeta ▸ hschema) (fun s hs => hs)
          (congrArg Prod.fst hread).symm

theorem searchLocal (h : s.IndexedShards metadata) {collection : String}
    {schema : CollectionSchema}
    (hschema : metadata.collections[collection]? = some schema)
    (shardIdx : UInt32) (query : List F32) (k efSearch : ℕ) :
    (s.searchLocal R collection shardIdx query k efSearch
      schema).1.IndexedShards metadata := by
  rw [searchLocal_eq]
  exact h.access hschema (fun s hs => hs) rfl

end Node

end NodeState.IndexedShards

end Access

namespace DataPlane

variable {R : Runtime} {xxh64 : Bytes → UInt64} {metadata : MetaState}
variable {s s' : DataPlane}

/-- Every replica is indexed. -/
def Indexed (metadata : MetaState) (s : DataPlane) : Prop :=
  ∀ node, (s.world node).IndexedShards metadata

theorem Indexed.update (h : Indexed metadata s) {node : NodeId}
    {state : NodeState} (hstate : state.IndexedShards metadata)
    (hworld : s'.world = Function.update s.world node state) :
    Indexed metadata s' := by
  intro node'
  rw [hworld]
  by_cases hnode : node' = node
  · rwa [hnode, Function.update_self]
  · rw [Function.update_of_ne hnode]
    exact h node'

theorem Initial.indexed (h : Initial metadata s) : Indexed metadata s := by
  intro node collection schema shardIdx _
  obtain ⟨mb, batchMs, hnew⟩ := h.fresh node
  rw [hnew]
  intro image himage
  simp [ShardDir.empty] at himage

theorem Indexed.stamped (h : Indexed metadata s) {node : NodeId}
    {out : NodeState × Except RouterError ReplicaWriteRequest}
    (hout : Stamps metadata (s.world node) out) :
    Indexed metadata (s.stamped node out) := by
  obtain ⟨clock, hclock⟩ := hout.clock
  have hstate : out.1.IndexedShards metadata :=
    (h node).same (by rw [hclock])
  rcases out with ⟨state, e | req⟩ <;> exact h.update hstate rfl

theorem Indexed.step (h : Indexed metadata s) (hsound : Sound metadata s)
    {e : DataStep} (hstep : s.step R xxh64 e = some s') :
    Indexed metadata s' := by
  rcases e with ⟨node, reading, collection, id, vector, payload⟩ |
    ⟨node, reading, collection, id⟩ | ⟨node, reading, req⟩ | ⟨node, req⟩ |
    ⟨source, collection, shardIdx, id⟩
  · rw [← Option.some.inj hstep]
    exact h.stamped
      (stamps_upsert (hsound.replica node).metadata_eq _ _ _ _ _)
  · rw [← Option.some.inj hstep]
    exact h.stamped (stamps_delete (hsound.replica node).metadata_eq _ _ _)
  · have hstate := (h node).replicaWrite (R := R)
      (hsound.replica node).metadata_eq reading req
    rw [DataPlane.step] at hstep
    split_ifs at hstep
    rcases hwrite : (s.world node).replicaWrite R reading req with
      ⟨state, e | applied⟩ <;> rw [hwrite] at hstep hstate <;>
      exact h.update hstate (congrArg world (Option.some.inj hstep).symm)
  · rw [DataPlane.step] at hstep
    split_ifs at hstep
    split at hstep
    · simp at hstep
    · next schema hschema =>
        rw [(hsound.replica node).metadata_eq] at hschema
        split at hstep <;> next hwrite =>
          rw [← Option.some.inj hstep]
          exact h.update ((h node).write hschema
            (congrArg Prod.fst hwrite).symm) rfl
  · have hstate := (h source).replicaGet (R := R)
      (hsound.replica source).metadata_eq collection shardIdx id
    rw [DataPlane.step] at hstep
    rcases hread : (s.world source).replicaGet R collection shardIdx id with
      ⟨state, e | _ | winner⟩ <;> rw [hread] at hstep hstate <;>
      exact h.update hstate (by rw [← Option.some.inj hstep])

theorem Indexed.replicaStep (h : Indexed metadata s)
    (hsound : Sound metadata s) {e : ReplicaStep}
    (hstep : s.replicaStep R xxh64 e = some s') : Indexed metadata s' := by
  rcases e with e | ⟨source, collection, shardIdx⟩ |
    ⟨target, reading, collection, shardIdx, row⟩
  · exact h.step hsound hstep
  · rw [DataPlane.replicaStep] at hstep
    split at hstep
    · simp at hstep
    · next schema hschema =>
        split at hstep <;> next hstream =>
          have hsame := NodeState.streamShard_fst.symm.trans
            (congrArg Prod.fst hstream)
          rw [← Option.some.inj hstep]
          exact h.update ((h source).same (congrArg NodeState.shards
            hsame.symm)) rfl
  · rw [DataPlane.replicaStep] at hstep
    split_ifs at hstep
    split at hstep
    · simp at hstep
    · next schema hschema =>
        rw [(hsound.replica target).metadata_eq] at hschema
        split at hstep <;> next hpull =>
          have hshards := @NodeState.shards_pullRecord R (s.world target)
            collection shardIdx schema reading row
          rw [hpull] at hshards
          rw [← Option.some.inj hstep]
          exact h.update ((h target).write hschema hshards) rfl

end DataPlane

/-! ## Where requests go -/

/-- The requests go to the shards of their ids. -/
def Routed (xxh64 : Bytes → UInt64) (metadata : MetaState)
    (reqs : List ReplicaWriteRequest) : Prop :=
  ∀ req ∈ reqs, ∀ schema,
    metadata.collections[req.collection]? = some schema →
    req.shardIdx = shardForId xxh64 req.id schema.shardCount

section Routed

variable {R : Runtime} {xxh64 : Bytes → UInt64} {metadata : MetaState}

theorem Routed.cons {req : ReplicaWriteRequest}
    {reqs : List ReplicaWriteRequest} (h : Routed xxh64 metadata [req])
    (hreqs : Routed xxh64 metadata reqs) :
    Routed xxh64 metadata (req :: reqs) := by
  intro old hold
  rcases List.mem_cons.mp hold with rfl | hold
  · exact h old List.mem_cons_self
  · exact hreqs old hold

theorem routed_stampUpsert {state : NodeState}
    (hmeta : state.metadata = metadata) {reading : ℕ} {collection : String}
    {id : UInt64} {vector : List F32} {payload : Bytes}
    {req : ReplicaWriteRequest}
    (h : (state.stampUpsert xxh64 reading collection id vector payload).2 =
      .ok req) : Routed xxh64 metadata [req] := by
  intro old hold known hknown
  obtain rfl := List.mem_singleton.mp hold
  unfold NodeState.stampUpsert at h
  split at h
  · simp at h
  · next schema hschema =>
      split_ifs at h
      obtain rfl := Except.ok.inj h
      rw [← hmeta] at hknown
      obtain rfl := Option.some.inj (hschema.symm.trans hknown)
      rfl

theorem routed_stampDelete {state : NodeState}
    (hmeta : state.metadata = metadata) {reading : ℕ} {collection : String}
    {id : UInt64} {req : ReplicaWriteRequest}
    (h : (state.stampDelete xxh64 reading collection id).2 = .ok req) :
    Routed xxh64 metadata [req] := by
  intro old hold known hknown
  obtain rfl := List.mem_singleton.mp hold
  unfold NodeState.stampDelete at h
  split at h
  · simp at h
  · next schema hschema =>
      obtain rfl := Except.ok.inj h
      rw [← hmeta] at hknown
      obtain rfl := Option.some.inj (hschema.symm.trans hknown)
      rfl

namespace DataPlane

variable {s s' : DataPlane}

/-- A step issues nothing, or a request to the shard of its id. -/
theorem Sound.issued_step (h : Sound metadata s) {e : DataStep}
    (hstep : s.step R xxh64 e = some s') :
    s'.issued = s.issued ∨ ∃ req, s'.issued = req :: s.issued ∧
      Routed xxh64 metadata [req] := by
  rcases e with ⟨node, reading, collection, id, vector, payload⟩ |
    ⟨node, reading, collection, id⟩ | ⟨node, reading, req⟩ | ⟨node, req⟩ |
    ⟨source, collection, shardIdx, id⟩
  · rw [← Option.some.inj hstep]
    rcases hout : (s.world node).stampUpsert xxh64 reading collection id
      vector payload with ⟨state, e | req⟩
    · exact .inl rfl
    · exact .inr ⟨req, rfl, routed_stampUpsert
        (h.replica node).metadata_eq (congrArg Prod.snd hout)⟩
  · rw [← Option.some.inj hstep]
    rcases hout : (s.world node).stampDelete xxh64 reading collection id with
      ⟨state, e | req⟩
    · exact .inl rfl
    · exact .inr ⟨req, rfl, routed_stampDelete
        (h.replica node).metadata_eq (congrArg Prod.snd hout)⟩
  · obtain ⟨-, state, rfl, -⟩ := h.receive_cases hstep
    exact .inl rfl
  · obtain ⟨-, state, rfl, -⟩ := h.receiveLocal_cases hstep
    exact .inl rfl
  · exact .inl (h.repair hstep).2

theorem Sound.issued_replicaStep (h : Sound metadata s) {e : ReplicaStep}
    (hstep : s.replicaStep R xxh64 e = some s') :
    s'.issued = s.issued ∨ ∃ req, s'.issued = req :: s.issued ∧
      Routed xxh64 metadata [req] := by
  rcases e with e | ⟨source, collection, shardIdx⟩ |
    ⟨target, reading, collection, shardIdx, row⟩
  · exact h.issued_step hstep
  · left
    rw [DataPlane.replicaStep] at hstep
    split at hstep
    · simp at hstep
    · split at hstep <;> rw [← Option.some.inj hstep]
  · left
    rw [DataPlane.replicaStep] at hstep
    split_ifs at hstep
    split at hstep
    · simp at hstep
    · split at hstep
      · rw [← Option.some.inj hstep]
        rfl
      · rw [← Option.some.inj hstep]

theorem Sound.issued_subset (h : Sound metadata s) {e : ReplicaStep}
    (hstep : s.replicaStep R xxh64 e = some s') : s.issued ⊆ s'.issued := by
  rcases h.issued_replicaStep hstep with heq | ⟨req, heq, -⟩ <;> rw [heq]
  · exact List.Subset.refl _
  · exact List.subset_cons_self _ _

theorem Sound.routed_step (h : Sound metadata s) {e : ReplicaStep}
    (hstep : s.replicaStep R xxh64 e = some s')
    (hrouted : Routed xxh64 metadata s.issued) :
    Routed xxh64 metadata s'.issued := by
  rcases h.issued_replicaStep hstep with heq | ⟨req, heq, hreq⟩ <;> rw [heq]
  · exact hrouted
  · exact hreq.cons hrouted

theorem Initial.routed (h : Initial metadata s) :
    Routed xxh64 metadata s.issued := by
  rw [h.issued]
  intro req hreq
  simp at hreq

end DataPlane

end Routed

/-! ## The answer of a replica -/

/-- Different points that the registers have, with their distances. -/
structure ReplicaHits (R : Runtime) (metric : Metric) (query : List F32)
    (regs : Registers) (hits : Hits) : Prop where
  nodup : (hits.map Prod.fst).Nodup
  live : ∀ hit ∈ hits, ∃ t v, regs hit.1 = some (t, some v) ∧
    hit.2 = R.kernel.distance metric v query

theorem Shard.Indexed.search {R : Runtime} {metric : Metric} {s : Shard}
    (h : s.Indexed metric) (hvalid : s.Valid) {query : List F32}
    {k efSearch : ℕ} {hits : Hits}
    (hsearch : s.search R query k efSearch = .ok hits) :
    ReplicaHits R metric query (registers s.mem) hits := by
  have hwell : s.index.WellFormed := h.mem.wellFormed
  rw [Shard.search] at hsearch
  by_cases hdim : query.length = s.index.dim
  · rcases hwell.search_cases (K := R.kernel) hdim k efSearch with
      hnil | ⟨start, candidates, hcandidates, htake⟩ | ⟨-, hpanic⟩
    · rw [hnil] at hsearch
      obtain rfl := Except.ok.inj hsearch
      exact ⟨List.nodup_nil, by simp⟩
    · rw [htake] at hsearch
      obtain rfl := Except.ok.inj hsearch
      refine ⟨?_, fun hit hhit => ?_⟩
      · rw [List.map_take]
        exact (hcandidates.nodup_liveResults hwell).sublist
          (List.take_sublist _ _)
      obtain ⟨v, hv, hdist⟩ :=
        hcandidates.live_liveResults hwell (List.mem_of_mem_take hhit)
      rw [HnswIndex.getVector_eq hwell.valid, Except.ok.injEq] at hv
      have hstore := store_eq hvalid.mem hit.1
      rw [show s.mem.1.store hit.1 = some v from hv] at hstore
      obtain ⟨⟨t, content⟩, hreg, hcontent⟩ :=
        Option.bind_eq_some_iff.mp hstore.symm
      obtain rfl : content = some v := hcontent
      exact ⟨t, v, hreg, h.metric_eq ▸ hdist⟩
    · rw [hpanic] at hsearch
      simp at hsearch
  · rw [HnswIndex.search, if_pos hdim] at hsearch
    simp at hsearch

theorem Shard.Indexed.search_returns {R : Runtime} {metric : Metric}
    {s : Shard} (h : s.Indexed metric) {query : List F32}
    (hdim : query.length = s.index.dim) {k : ℕ} (hk : k < 2 ^ 32)
    (efSearch : ℕ) : ∃ hits, s.search R query k efSearch = .ok hits := by
  obtain ⟨hits, hhits, -⟩ := h.mem.wellFormed.search_distances
    (K := R.kernel) hdim (hk.trans (by norm_num)) efSearch
  have hsearch : s.index.search R.kernel query k efSearch = .ok hits := hhits
  exact ⟨hits, by rw [Shard.search, hsearch]⟩

/-- A replica was searched: it holds what it held, and the answer comes from
there. -/
structure NodeState.Searched (R : Runtime) (metadata : MetaState)
    (metric : Metric) (query : List F32) (key : ShardKey)
    (old new : NodeState) (answer : Option Hits) : Prop where
  same : NodeState.SameData metadata old new
  indexed : new.IndexedShards metadata
  hits : ∀ hits, answer = some hits →
    ReplicaHits R metric query (old.shards.slots key).registers hits

section Answer

variable {R : Runtime} {metadata : MetaState} {s : NodeState}
variable {collection : String} {shardIdx : UInt32} {schema : CollectionSchema}

/-- The shard that answers has the registers of its slot, and is indexed. -/
theorem NodeState.exists_searched (hM : metadata.Admissible)
    (hvalid : s.ValidShards metadata) (hindexed : s.IndexedShards metadata)
    (hschema : metadata.collections[collection]? = some schema)
    (shardIdx : UInt32) (query : List F32) (k efSearch : ℕ) :
    ∃ shard : Shard, shard.Valid ∧ shard.dim = schema.dim.toNat ∧
      registers shard.mem =
        (s.shards.slots { collection, shardIdx }).registers ∧
      shard.Indexed schema.metric ∧
      (s.searchLocal R collection shardIdx query k efSearch
        schema).2.toOption = (shard.search R query k efSearch).toOption := by
  let sref := shardRef collection shardIdx schema
  have hslot : (s.shards.slots sref.key).Valid sref.dim :=
    hvalid collection schema shardIdx hschema
  have hslotIndexed : (s.shards.slots sref.key).Indexed sref.metric :=
    hindexed collection schema shardIdx hschema
  obtain ⟨shard, hserves, hshard, hdim, hreg⟩ :=
    ShardStore.serves_of_valid R (hM _ _ hschema) hslot
  refine ⟨shard, hshard, hdim, hreg, ?_, ?_⟩
  · rcases hserves with hopened | ⟨dir, hclosed, hopen⟩
    · rw [hopened] at hslotIndexed
      exact hslotIndexed
    · rw [hclosed] at hslotIndexed
      exact .of_open hslotIndexed hopen
  · rw [searchLocal_eq, ShardStore.searchShard, ShardStore.access_of_getOrOpen
      (ShardStore.getOrOpen_of_serves hserves)]
    rcases shard.search R query k efSearch with e | hits <;> rfl

theorem NodeState.searched_searchLocal (hM : metadata.Admissible)
    (hvalid : s.ValidShards metadata) (hindexed : s.IndexedShards metadata)
    (hschema : metadata.collections[collection]? = some schema)
    (query : List F32) (k efSearch : ℕ) :
    Searched R metadata schema.metric query { collection, shardIdx } s
      (s.searchLocal R collection shardIdx query k efSearch schema).1
      (s.searchLocal R collection shardIdx query k efSearch
        schema).2.toOption := by
  let sref := shardRef collection shardIdx schema
  have hslot : (s.shards.slots sref.key).Valid sref.dim :=
    hvalid collection schema shardIdx hschema
  obtain ⟨shard, hshard, hshardDim, hreg, hshardIndexed, hout⟩ :=
    exists_searched (R := R) hM hvalid hindexed hschema shardIdx query k
      efSearch
  refine ⟨?_, hindexed.searchLocal hschema shardIdx query k efSearch,
    fun hits hhits => ?_⟩
  · obtain ⟨-, -, -, -, -, hread⟩ := ShardStore.read_of_valid (R := R)
      (hM _ _ hschema) hslot fun shard => shard.search R query k efSearch
    rw [searchLocal_eq]
    refine ⟨rfl, hvalid.update hschema hread.valid hread.other, fun key => ?_⟩
    by_cases hkey : key = sref.key
    · rw [hkey]
      exact hread.registers_eq
    · exact congrArg ShardSlot.registers (hread.other key hkey)
  · rw [← hreg]
    rw [hout] at hhits
    rcases hsearch : shard.search R query k efSearch with e | found <;>
      rw [hsearch] at hhits <;> cases hhits
    exact hshardIndexed.search hshard hsearch

theorem NodeState.isSome_searchLocal (hM : metadata.Admissible)
    (hvalid : s.ValidShards metadata) (hindexed : s.IndexedShards metadata)
    (hschema : metadata.collections[collection]? = some schema)
    {query : List F32} (hdim : query.length = schema.dim.toNat) {k : ℕ}
    (hk : k < 2 ^ 32) (efSearch : ℕ) :
    (s.searchLocal R collection shardIdx query k efSearch
      schema).2.toOption.isSome := by
  obtain ⟨shard, hshard, hshardDim, -, hshardIndexed, hout⟩ :=
    exists_searched (R := R) hM hvalid hindexed hschema shardIdx query k
      efSearch
  obtain ⟨hits, hhits⟩ := hshardIndexed.search_returns (R := R)
    (hdim.trans (hshard.mem.dim_eq.trans hshardDim).symm) hk efSearch
  rw [hout, hhits]
  rfl

/-- The handler searches as the node does. -/
theorem NodeState.exists_replicaSearch_eq (hmeta : s.metadata = metadata)
    (hschema : metadata.collections[collection]? = some schema)
    (shardIdx : UInt32) (query : List F32) (k efSearch : UInt32) :
    ∃ n ef, n < 2 ^ 32 ∧
      (s.replicaSearch R collection shardIdx query k efSearch).1 =
        (s.searchLocal R collection shardIdx query n ef schema).1 ∧
      (s.replicaSearch R collection shardIdx query k efSearch).2.toOption =
        (s.searchLocal R collection shardIdx query n ef
          schema).2.toOption := by
  rcases replicaSearch_cases R s collection shardIdx query k efSearch with
    ⟨hnone, -⟩ | ⟨known, n, ef, hknown, hn, heq⟩
  · rw [hmeta, hschema] at hnone
    simp at hnone
  · rw [hmeta, hschema, Option.some.injEq] at hknown
    subst hknown
    refine ⟨n, ef, hn, by rw [heq s rfl], ?_⟩
    rw [heq s rfl]
    rcases (s.searchLocal R collection shardIdx query n ef schema).2 with
      e | hits <;> rfl

theorem NodeState.searched_replicaSearch (hM : metadata.Admissible)
    (hmeta : s.metadata = metadata) (hvalid : s.ValidShards metadata)
    (hindexed : s.IndexedShards metadata)
    (hschema : metadata.collections[collection]? = some schema)
    (query : List F32) (k efSearch : UInt32) :
    Searched R metadata schema.metric query { collection, shardIdx } s
      (s.replicaSearch R collection shardIdx query k efSearch).1
      (s.replicaSearch R collection shardIdx query k
        efSearch).2.toOption := by
  obtain ⟨n, ef, -, hstate, hout⟩ := exists_replicaSearch_eq (R := R) hmeta
    hschema shardIdx query k efSearch
  rw [hstate, hout]
  exact searched_searchLocal hM hvalid hindexed hschema query n ef

theorem NodeState.isSome_replicaSearch (hM : metadata.Admissible)
    (hmeta : s.metadata = metadata) (hvalid : s.ValidShards metadata)
    (hindexed : s.IndexedShards metadata)
    (hschema : metadata.collections[collection]? = some schema)
    {query : List F32} (hdim : query.length = schema.dim.toNat)
    (k efSearch : UInt32) :
    (s.replicaSearch R collection shardIdx query k
      efSearch).2.toOption.isSome := by
  obtain ⟨n, ef, hn, -, hout⟩ := exists_replicaSearch_eq (R := R) hmeta hschema
    shardIdx query k efSearch
  rw [hout]
  exact isSome_searchLocal hM hvalid hindexed hschema hdim hn ef

/-- Asking a replica changes nothing that reads see. -/
theorem DataPlane.Sound.searchOneReplica {s : DataPlane}
    (h : Sound metadata s) (hindexed : Indexed metadata s) {call : SearchCall}
    (hschema : metadata.collections[call.collection]? = some schema)
    (self : NodeId) (fate : UInt32 → NodeId → CallFate) (node : NodeId) :
    ∃ state, (Quorvec.searchOneReplica R self fate call schema shardIdx s.world
        node).1 = Function.update s.world node state ∧
      NodeState.Searched R metadata schema.metric call.query
        { collection := call.collection, shardIdx } (s.world node) state
        (Quorvec.searchOneReplica R self fate call schema shardIdx s.world
          node).2.toOption := by
  have hreplica := h.replica node
  rw [Quorvec.searchOneReplica]
  split_ifs with hself
  · have hlocal := @NodeState.searched_searchLocal R metadata (s.world node)
      call.collection shardIdx schema h.admissible hreplica.valid
      (hindexed node) hschema call.query call.k call.efSearch
    rcases hsearch : (s.world node).searchLocal R call.collection shardIdx
        call.query call.k call.efSearch schema with ⟨state, e | hits⟩ <;>
      rw [hsearch] at hlocal <;> exact ⟨state, rfl, hlocal⟩
  · have hanswer := @NodeState.searched_replicaSearch R metadata
      (s.world node) call.collection shardIdx schema h.admissible
      hreplica.metadata_eq hreplica.valid (hindexed node) hschema call.query
      (UInt32.ofNat call.k) (UInt32.ofNat call.efSearch)
    rcases hsearch : (s.world node).replicaSearch R call.collection shardIdx
        call.query (UInt32.ofNat call.k) (UInt32.ofNat call.efSearch) with
      ⟨state, answer⟩
    rw [hsearch] at hanswer
    dsimp only
    cases fate shardIdx node with
    | unreachable =>
        refine ⟨s.world node, (Function.update_eq_self _ _).symm,
          .refl hreplica.valid, hindexed node, fun hits hhits => ?_⟩
        cases hhits
    | answerLost =>
        refine ⟨state, rfl, hanswer.same, hanswer.indexed,
          fun hits hhits => ?_⟩
        cases hhits
    | answered =>
        rcases answer with e | hits <;> exact ⟨state, rfl, hanswer⟩

/-- A replica that can be reached answers. -/
theorem DataPlane.Sound.isSome_searchOneReplica {s : DataPlane}
    (h : Sound metadata s) (hindexed : Indexed metadata s) {call : SearchCall}
    (hschema : metadata.collections[call.collection]? = some schema)
    (hdim : call.query.length = schema.dim.toNat) (hk : call.k < 2 ^ 32)
    {self node : NodeId}
    {fate : UInt32 → NodeId → CallFate}
    (hreached : node = self ∨ fate shardIdx node = .answered) :
    (Quorvec.searchOneReplica R self fate call schema shardIdx s.world
      node).2.toOption.isSome := by
  have hreplica := h.replica node
  rw [Quorvec.searchOneReplica]
  split_ifs with hself
  · have hlocal := @NodeState.isSome_searchLocal R metadata (s.world node)
      call.collection shardIdx schema h.admissible hreplica.valid
      (hindexed node) hschema call.query hdim call.k hk call.efSearch
    rcases hsearch : (s.world node).searchLocal R call.collection shardIdx
        call.query call.k call.efSearch schema with ⟨state, e | hits⟩ <;>
      rw [hsearch] at hlocal <;> exact hlocal
  · have hanswer := @NodeState.isSome_replicaSearch R metadata
      (s.world node) call.collection shardIdx schema h.admissible
      hreplica.metadata_eq hreplica.valid (hindexed node) hschema call.query
      hdim (UInt32.ofNat call.k) (UInt32.ofNat call.efSearch)
    rw [hreached.resolve_left hself]
    rcases hsearch : (s.world node).replicaSearch R call.collection shardIdx
        call.query (UInt32.ofNat call.k) (UInt32.ofNat call.efSearch) with
      ⟨state, e | hits⟩ <;>
      rw [hsearch] at hanswer <;> exact hanswer

end Answer

end Quorvec
