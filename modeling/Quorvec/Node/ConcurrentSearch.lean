import Quorvec.Node.SearchedReplica

/-!
# Searches among other steps

A coordinator asks the replicas of one shard after another.  Between two of its
requests any node may stamp and take writes, receive hints and repairs, transfer
shards, and answer other searches, so the points that it merges need not be
those of one moment.

Whatever happens in between, the answer has no id twice, every score is the
distance of a vector that was written to the id, and that version is as new as
anything the replica that answered held when the search began: a point that a
replica has seen deleted or replaced is not returned by it.
-/

namespace Quorvec

open LastWriterWins ByteCodec SortedLists

/-! ## The run of a search -/

/-- A step of the replicas, or a search of one of them. -/
inductive PlaneStep
  | replica (e : ReplicaStep)
  | search (node : NodeId) (collection : String) (shardIdx : UInt32)
      (query : List F32) (k efSearch : ℕ)

/-- How far a coordinator has come: the shards that are left, after the
replicas of one that are left, and the answers so far. -/
inductive SearchProgress
  | shards (left : List UInt32) (merged : Hits)
  | replicas (shardIdx : UInt32) (replicas : List (NodeId × String))
      (left : List UInt32) (merged : Hits)

namespace SearchProgress

/-- The shards that have not answered. -/
def pending : SearchProgress → List UInt32
  | shards left _ => left
  | replicas shardIdx _ left _ => shardIdx :: left

def merged : SearchProgress → Hits
  | shards _ merged => merged
  | replicas _ _ _ merged => merged

section Step

variable (R : Runtime) (xxh64 : Bytes → UInt64) (self : NodeId)
variable (fate : UInt32 → NodeId → CallFate) (call : SearchCall)
variable (metadata : MetaState) (schema : CollectionSchema)

/-- The next step of the coordinator; `none` if the search is over or fails. -/
def step (w : World) : SearchProgress → Option (World × SearchProgress)
  | shards [] _ => none
  | shards (shardIdx :: left) merged =>
      if (replicasWithAddrs xxh64 metadata call.collection shardIdx).isEmpty
      then none
      else some (w, replicas shardIdx
        (orderedReplicas xxh64 metadata call.collection shardIdx) left merged)
  | replicas _ [] _ _ => none
  | replicas shardIdx ((node, _) :: rest) left merged =>
      match searchOneReplica R self fate call schema shardIdx w node with
      | (w, .ok hits) => some (w, shards left (merged ++ hits))
      | (w, .error _) => some (w, replicas shardIdx rest left merged)

end Step

end SearchProgress

/-- What the coordinator returns in the end. -/
def searchAnswer (R : Runtime) (call : SearchCall) (merged : Hits) : Hits :=
  (merged.mergeSort (BruteForceIndex.scoreLe R.kernel)).take call.k

section Run

variable (R : Runtime) (xxh64 : Bytes → UInt64)

def DataPlane.planeStep (s : DataPlane) : PlaneStep → Option DataPlane
  | .replica e => s.replicaStep R xxh64 e
  | .search node collection shardIdx query k efSearch =>
      match (s.world node).metadata.collections[collection]? with
      | none => none
      | some schema =>
          let (state, _) := (s.world node).searchLocal R collection shardIdx
            query k efSearch schema
          some { s with world := Function.update s.world node state }

/-- The runs of the replicas, with transfers and searches. -/
inductive DataPlane.PlaneRun (metadata : MetaState) : DataPlane → Prop
  | init {s : DataPlane} : Initial metadata s → PlaneRun metadata s
  | step {s s' : DataPlane} (e : PlaneStep) : PlaneRun metadata s →
      s.planeStep R xxh64 e = some s' → PlaneRun metadata s'

variable (self : NodeId) (call : SearchCall) (schema : CollectionSchema)

/-- A search that began at `s₀`, with other steps between its own, and the
states in which the coordinator has taken its steps. -/
inductive Searching (s₀ : DataPlane) :
    DataPlane → SearchProgress → List DataPlane → Prop
  | start :
      (s₀.world self).metadata.collections[call.collection]? = some schema →
      call.query.length = schema.dim.toNat →
      Searching s₀ s₀
        (.shards ((List.range schema.shardCount.toNat).map UInt32.ofNat) []) []
  | other {s s' : DataPlane} {p : SearchProgress} {asked : List DataPlane}
      (e : PlaneStep) : Searching s₀ s p asked →
      s.planeStep R xxh64 e = some s' → Searching s₀ s' p asked
  | ask {s : DataPlane} {p p' : SearchProgress} {asked : List DataPlane}
      {w : World} (fate : UInt32 → NodeId → CallFate) :
      Searching s₀ s p asked →
      p.step R xxh64 self fate call (s₀.world self).metadata schema s.world =
        some (w, p') →
      Searching s₀ { s with world := w } p' (s :: asked)

variable (metadata : MetaState)

/-- The write that a result comes from.  It is live, its distance is the score,
a replica of the shard held it when the coordinator took a step, and it is as
new as what this replica held at `s₀`. -/
structure BackedBy (s₀ : DataPlane) (asked : List DataPlane)
    (hit : UInt64 × F32) (node : NodeId) (req : ReplicaWriteRequest) :
    Prop where
  replica : node ∈ (replicasWithAddrs xxh64 metadata call.collection
    (shardForId xxh64 hit.1 schema.shardCount)).map Prod.fst
  key_eq : req.key = ⟨call.collection,
    shardForId xxh64 hit.1 schema.shardCount⟩
  id_eq : req.id = hit.1
  live : ∃ v, req.written.2 = some v ∧
    hit.2 = R.kernel.distance schema.metric v call.query
  held : ∃ s₁ ∈ asked, ((s₁.world node).readLocal R call.collection
    (shardForId xxh64 hit.1 schema.shardCount) schema hit.1).2 =
      .ok (some (pointOf hit.1 req.written))
  newest : ∀ seen, ((s₀.world node).readLocal R call.collection
      (shardForId xxh64 hit.1 schema.shardCount) schema hit.1).2 =
        .ok (some seen) →
    seen = pointOf hit.1 req.written ∨ seen.hlc < req.written.1

/-- Some write that was stamped stands behind the result. -/
def CurrentHit (s₀ : DataPlane) (asked : List DataPlane) (s : DataPlane)
    (hit : UInt64 × F32) : Prop :=
  ∃ node, ∃ req ∈ s.issued,
    BackedBy R xxh64 call schema metadata s₀ asked hit node req

/-- The distances of the writes to the collection. -/
def issuedScores (s : DataPlane) : Set F32 :=
  {d | ∃ req ∈ s.issued, ∃ v, req.collection = call.collection ∧
    req.written.2 = some v ∧
      d = R.kernel.distance schema.metric v call.query}

/-- At most `k` different points, each with the distance of a current version;
in order, if distances can be ordered. -/
structure SearchAnswers (s₀ : DataPlane) (asked : List DataPlane)
    (s : DataPlane) (hits : Hits) : Prop where
  length_le : hits.length ≤ call.k
  nodup : (hits.map Prod.fst).Nodup
  current : ∀ hit ∈ hits,
    CurrentHit R xxh64 call schema metadata s₀ asked s hit
  sorted : R.kernel.PreordersOn (issuedScores R call schema s) →
    hits.Pairwise (BruteForceIndex.scoreLe R.kernel · ·)

end Run

section Statement

variable (R : Runtime) (xxh64 : Bytes → UInt64) (metadata : MetaState)

/-- Every shard of the collection has a replica that can be reached. -/
def EveryShardReached (self : NodeId) (fate : UInt32 → NodeId → CallFate)
    (call : SearchCall) (schema : CollectionSchema) : Prop :=
  ∀ shardIdx < schema.shardCount,
    ∃ node ∈ (replicasWithAddrs xxh64 metadata call.collection
      shardIdx).map Prod.fst, node = self ∨ fate shardIdx node = .answered

/-- The searches that begin at `s₀`. -/
structure SearchesFrom (self : NodeId) (call : SearchCall)
    (schema : CollectionSchema) (s₀ : DataPlane) : Prop where
  /-- One that ends answers with current points, whatever other steps come
  between its own. -/
  current : ∀ s merged asked,
    Searching R xxh64 self call schema s₀ s (.shards [] merged) asked →
    SearchAnswers R xxh64 call schema metadata s₀ asked s
      (searchAnswer R call merged)
  /-- The search without other steps is one of them. -/
  uninterrupted : ∀ fate w hits,
    coordinateSearch R self fate call xxh64 s₀.world = (w, .ok hits) →
    ∃ merged asked, hits = searchAnswer R call merged ∧
      Searching R xxh64 self call schema s₀ { s₀ with world := w }
        (.shards [] merged) asked
  available : ∀ fate, call.query.length = schema.dim.toNat →
    call.k < 2 ^ 32 →
    R.kernel.PreordersOn (issuedScores R call schema s₀) →
    EveryShardReached xxh64 metadata self fate call schema →
    ∃ w hits, coordinateSearch R self fate call xxh64 s₀.world = (w, .ok hits)

/-- The searches of every run. -/
def SearchesCurrent : Prop :=
  ∀ s₀, DataPlane.PlaneRun R xxh64 metadata s₀ →
    ∀ (self : NodeId) (call : SearchCall) (schema : CollectionSchema),
      metadata.collections[call.collection]? = some schema →
      SearchesFrom R xxh64 metadata self call schema s₀

end Statement

/-! ## What a search rests on -/

namespace DataPlane

/-- Replicas are sound and indexed, and requests go where their ids belong. -/
structure Searchable (xxh64 : Bytes → UInt64) (metadata : MetaState)
    (s : DataPlane) : Prop where
  sound : Sound metadata s
  indexed : Indexed metadata s
  routed : Routed xxh64 metadata s.issued

/-- What a replica held at `s₀` is there, or something newer. -/
def Newer (s₀ s : DataPlane) : Prop :=
  ∀ node key id p,
    ((s₀.world node).shards.slots key).registers id = some p →
    ∃ q, ((s.world node).shards.slots key).registers id = some q ∧
      (q = p ∨ p.1 < q.1)

variable {R : Runtime} {xxh64 : Bytes → UInt64} {metadata : MetaState}
variable {s₀ s s' : DataPlane}

theorem Newer.refl (s : DataPlane) : Newer s s :=
  fun _ _ _ p hp => ⟨p, hp, .inl rfl⟩

theorem Newer.evolves (h : Newer s₀ s)
    (hevolves : ∀ node,
      NodeState.Evolves metadata (s.world node) (s'.world node)) :
    Newer s₀ s' := by
  intro node key id p hp
  obtain ⟨q, hq, hle⟩ := h node key id p hp
  obtain ⟨r, hr, hle'⟩ := (hevolves node).eq_or_lt hq
  refine ⟨r, hr, ?_⟩
  rcases hle with rfl | hlt
  · exact hle'
  · rcases hle' with rfl | hlt'
    · exact .inr hlt
    · exact .inr (hlt.trans hlt')

/-- A search of a node. -/
theorem Searchable.update (h : Searchable xxh64 metadata s) {node : NodeId}
    {state : NodeState}
    (hsame : NodeState.SameData metadata (s.world node) state)
    (hstate : state.IndexedShards metadata) :
    Searchable xxh64 metadata
        { s with world := Function.update s.world node state } ∧
      ∀ node', NodeState.Evolves metadata (s.world node')
        (Function.update s.world node state node') :=
  ⟨⟨h.sound.update hsame, h.indexed.update hstate rfl, h.routed⟩,
    @Sound.evolves_update metadata s
      { s with world := Function.update s.world node state } h.sound node state
      (.inl hsame) rfl⟩

/-- One step of the others. -/
theorem Searchable.planeStep (h : Searchable xxh64 metadata s)
    {e : PlaneStep} (hstep : s.planeStep R xxh64 e = some s') :
    Searchable xxh64 metadata s' ∧ s.issued ⊆ s'.issued ∧
      ∀ node, NodeState.Evolves metadata (s.world node) (s'.world node) := by
  rcases e with e | ⟨node, collection, shardIdx, query, k, efSearch⟩
  · obtain ⟨hsound, hevolves⟩ := h.sound.replicaStep hstep
    exact ⟨⟨hsound, h.indexed.replicaStep h.sound hstep,
      h.sound.routed_step hstep h.routed⟩, h.sound.issued_subset hstep,
      hevolves⟩
  · rw [DataPlane.planeStep] at hstep
    split at hstep
    · simp at hstep
    · next schema hschema =>
        rw [(h.sound.replica node).metadata_eq] at hschema
        have hsearched := @NodeState.searched_searchLocal R metadata
          (s.world node) collection shardIdx schema h.sound.admissible
          (h.sound.replica node).valid (h.indexed node) hschema query k
          efSearch
        obtain ⟨hnext, hevolves⟩ := h.update hsearched.same hsearched.indexed
        obtain rfl := Option.some.inj hstep
        exact ⟨hnext, List.Subset.refl _, hevolves⟩

theorem PlaneRun.searchable (h : PlaneRun R xxh64 metadata s) :
    Searchable xxh64 metadata s := by
  induction h with
  | init hinit => exact ⟨hinit.sound, hinit.indexed, hinit.routed⟩
  | step e _ hstep ih => exact (ih.planeStep hstep).1

end DataPlane

/-! ## The invariant of a search -/

section Invariant

variable {R : Runtime} {xxh64 : Bytes → UInt64} {metadata : MetaState}
variable {call : SearchCall} {schema : CollectionSchema}
variable {s₀ s s' : DataPlane} {asked asked' : List DataPlane}

theorem CurrentHit.mono {hit : UInt64 × F32}
    (h : CurrentHit R xxh64 call schema metadata s₀ asked s hit)
    (hasked : asked ⊆ asked') (hissued : s.issued ⊆ s'.issued) :
    CurrentHit R xxh64 call schema metadata s₀ asked' s' hit := by
  obtain ⟨node, req, hreq, hbacked⟩ := h
  obtain ⟨s₁, hs₁, hheld⟩ := hbacked.held
  exact ⟨node, req, hissued hreq,
    { hbacked with held := ⟨s₁, hasked hs₁, hheld⟩ }⟩

/-- What a replica of a shard finds belongs there, and is current. -/
theorem currentHit_of_answer (hs₀ : DataPlane.Sound metadata s₀)
    (h : DataPlane.Searchable xxh64 metadata s)
    (hnewer : DataPlane.Newer s₀ s)
    (hschema : metadata.collections[call.collection]? = some schema)
    {shardIdx : UInt32} {node : NodeId}
    (hnode : node ∈ (replicasWithAddrs xxh64 metadata call.collection
      shardIdx).map Prod.fst) {hits : Hits}
    (hhits : ReplicaHits R schema.metric call.query
      ((s.world node).shards.slots ⟨call.collection, shardIdx⟩).registers hits)
    {hit : UInt64 × F32} (hhit : hit ∈ hits) :
    shardForId xxh64 hit.1 schema.shardCount = shardIdx ∧
      CurrentHit R xxh64 call schema metadata s₀ (s :: asked) s hit := by
  obtain ⟨t, v, hreg, hdist⟩ := hhits.live hit hhit
  obtain ⟨req, hreq, hkey, hid, hwritten⟩ :=
    (h.sound.replica node).held_from_issued hreg
  have hcollection : req.collection = call.collection :=
    congrArg ShardKey.collection hkey
  have hshard : shardForId xxh64 hit.1 schema.shardCount = shardIdx := by
    rw [← hid, ← h.routed req hreq schema (hcollection ▸ hschema)]
    exact congrArg ShardKey.shardIdx hkey
  have hheld : ((s.world node).readLocal R call.collection shardIdx schema
      hit.1).2 = .ok (some (pointOf hit.1 req.written)) := by
    rw [h.sound.readLocal node hschema, hreg, hwritten, Option.map_some]
  refine ⟨hshard, node, req, hreq, hshard ▸ hnode, hshard ▸ hkey, hid,
    ⟨v, by rw [hwritten], hdist⟩,
    ⟨s, List.mem_cons_self, by rw [hshard, hheld]⟩, fun seen hseen => ?_⟩
  rw [hshard, hs₀.readLocal node hschema, Except.ok.injEq] at hseen
  obtain ⟨p, hp, rfl⟩ := Option.map_eq_some_iff.mp hseen
  obtain ⟨q, hq, hle⟩ := hnewer node _ _ p hp
  rw [hreg, Option.some.injEq] at hq
  rw [hwritten, hq]
  exact hle.imp_left fun heq => by rw [heq]

variable (xxh64 metadata call) in
/-- The replicas that are left are replicas of the shard. -/
def SearchProgress.AsksReplicas : SearchProgress → Prop
  | .shards _ _ => True
  | .replicas shardIdx rest _ _ => ∀ replica ∈ rest,
      replica ∈ replicasWithAddrs xxh64 metadata call.collection shardIdx

variable (R xxh64 metadata call schema) in
/-- What every step of a search keeps.  A result comes from the shard of its id,
which is not asked again. -/
structure SearchKeeps (s₀ : DataPlane) (asked : List DataPlane)
    (s : DataPlane) (p : SearchProgress) : Prop where
  searchable : DataPlane.Searchable xxh64 metadata s
  newer : DataPlane.Newer s₀ s
  pending_nodup : p.pending.Nodup
  asks : p.AsksReplicas xxh64 metadata call
  merged_nodup : (p.merged.map Prod.fst).Nodup
  elsewhere : ∀ hit ∈ p.merged,
    shardForId xxh64 hit.1 schema.shardCount ∉ p.pending
  current : ∀ hit ∈ p.merged,
    CurrentHit R xxh64 call schema metadata s₀ asked s hit

namespace SearchKeeps

variable {p p' : SearchProgress}

theorem start (h : DataPlane.Searchable xxh64 metadata s₀) :
    SearchKeeps R xxh64 metadata call schema s₀ [] s₀
      (.shards ((List.range schema.shardCount.toNat).map UInt32.ofNat) []) where
  searchable := h
  newer := .refl s₀
  pending_nodup := shards_nodup _
  asks := trivial
  merged_nodup := List.nodup_nil
  elsewhere hit hhit := by cases hhit
  current hit hhit := by cases hhit

/-- Other steps keep it. -/
theorem other (h : SearchKeeps R xxh64 metadata call schema s₀ asked s p)
    {e : PlaneStep} (hstep : s.planeStep R xxh64 e = some s') :
    SearchKeeps R xxh64 metadata call schema s₀ asked s' p := by
  obtain ⟨hnext, hsub, hevolves⟩ := h.searchable.planeStep hstep
  exact { h with
    searchable := hnext
    newer := h.newer.evolves hevolves
    current := fun hit hhit => (h.current hit hhit).mono
      (List.Subset.refl _) hsub }

theorem begin {shardIdx : UInt32} {left : List UInt32} {merged : Hits}
    (h : SearchKeeps R xxh64 metadata call schema s₀ asked s
      (.shards (shardIdx :: left) merged)) :
    SearchKeeps R xxh64 metadata call schema s₀ asked s
      (.replicas shardIdx
        (orderedReplicas xxh64 metadata call.collection shardIdx) left
        merged) :=
  { h with asks := fun _ hreplica => mem_orderedReplicas.mp hreplica }

/-- A replica answers, and its shard is done. -/
theorem answered {shardIdx : UInt32} {replicas : List (NodeId × String)}
    {left : List UInt32} {merged hits : Hits}
    (h : SearchKeeps R xxh64 metadata call schema s₀ asked s
      (.replicas shardIdx replicas left merged))
    (hdistinct : (hits.map Prod.fst).Nodup)
    (hhits : ∀ hit ∈ hits,
      shardForId xxh64 hit.1 schema.shardCount = shardIdx ∧
        CurrentHit R xxh64 call schema metadata s₀ asked s hit) :
    SearchKeeps R xxh64 metadata call schema s₀ asked s
      (.shards left (merged ++ hits)) := by
  obtain ⟨hfirst, hleft⟩ := List.nodup_cons.mp h.pending_nodup
  refine ⟨h.searchable, h.newer, hleft, trivial, ?_, ?_, ?_⟩
  · show ((merged ++ hits).map Prod.fst).Nodup
    rw [List.map_append, List.nodup_append']
    refine ⟨h.merged_nodup, hdistinct, fun id hid hid' => ?_⟩
    -- an id of both would belong to the shard that is still pending
    obtain ⟨old, hold, rfl⟩ := List.mem_map.mp hid
    obtain ⟨new, hnew, hsame⟩ := List.mem_map.mp hid'
    refine h.elsewhere old hold ?_
    rw [← hsame, (hhits new hnew).1]
    exact List.mem_cons_self
  · intro hit hhit
    rcases List.mem_append.mp hhit with hhit | hhit
    · exact fun hmem => h.elsewhere hit hhit (List.mem_cons_of_mem _ hmem)
    · rw [(hhits hit hhit).1]
      exact hfirst
  · intro hit hhit
    rcases List.mem_append.mp hhit with hhit | hhit
    · exact h.current hit hhit
    · exact (hhits hit hhit).2

/-- A step of the coordinator. -/
theorem ask (h : SearchKeeps R xxh64 metadata call schema s₀ asked s p)
    (hs₀ : DataPlane.Sound metadata s₀)
    (hschema : metadata.collections[call.collection]? = some schema)
    {self : NodeId} {fate : UInt32 → NodeId → CallFate} {w : World}
    (hask : p.step R xxh64 self fate call metadata schema s.world =
      some (w, p')) :
    SearchKeeps R xxh64 metadata call schema s₀ (s :: asked)
      { s with world := w } p' := by
  have hcurrent : ∀ hit ∈ p.merged,
      CurrentHit R xxh64 call schema metadata s₀ (s :: asked) s hit :=
    fun hit hhit => (h.current hit hhit).mono (List.subset_cons_self _ _)
      (List.Subset.refl _)
  rcases p with ⟨left, merged⟩ | ⟨shardIdx, rest, left, merged⟩
  · rcases left with _ | ⟨shardIdx, left⟩
    · simp [SearchProgress.step] at hask
    · rw [SearchProgress.step] at hask
      split_ifs at hask
      obtain ⟨rfl, rfl⟩ := Prod.mk.inj (Option.some.inj hask)
      exact { h.begin with current := hcurrent }
  · rcases rest with _ | ⟨⟨node, addr⟩, rest⟩
    · simp [SearchProgress.step] at hask
    · obtain ⟨state, hworld, hsearched⟩ :=
        h.searchable.sound.searchOneReplica h.searchable.indexed
          hschema self fate node
      obtain ⟨hnext, hevolves⟩ :=
        h.searchable.update hsearched.same hsearched.indexed
      have hmoved : SearchKeeps R xxh64 metadata call schema s₀ (s :: asked)
          { s with world := Function.update s.world node state }
          (.replicas shardIdx rest left merged) :=
        { searchable := hnext
          newer := h.newer.evolves hevolves
          pending_nodup := h.pending_nodup
          asks := fun r hr => h.asks r (List.mem_cons_of_mem _ hr)
          merged_nodup := h.merged_nodup
          elsewhere := h.elsewhere
          current := hcurrent }
      rw [SearchProgress.step] at hask
      rcases hout : searchOneReplica R self fate call schema shardIdx s.world
        node with ⟨w₁, e | hits⟩ <;> rw [hout] at hworld hsearched hask <;>
        obtain ⟨rfl, rfl⟩ := Prod.mk.inj (Option.some.inj hask) <;>
        obtain rfl := hworld
      · exact hmoved
      · have hhits := hsearched.hits hits rfl
        have hnode : node ∈ (replicasWithAddrs xxh64 metadata call.collection
            shardIdx).map Prod.fst :=
          List.mem_map_of_mem (h.asks (node, addr) List.mem_cons_self)
        exact hmoved.answered hhits.nodup fun hit hhit =>
          currentHit_of_answer hs₀ h.searchable h.newer hschema hnode hhits
            hhit

/-- The merged answer is cut and sorted. -/
theorem answers {merged : Hits}
    (h : SearchKeeps R xxh64 metadata call schema s₀ asked s
      (.shards [] merged)) :
    SearchAnswers R xxh64 call schema metadata s₀ asked s
      (searchAnswer R call merged) := by
  have hperm := List.mergeSort_perm merged (BruteForceIndex.scoreLe R.kernel)
  refine ⟨List.length_take_le _ _, ?_, fun hit hhit => ?_, fun hK => ?_⟩
  · rw [searchAnswer, List.map_take]
    exact ((hperm.map _).nodup_iff.mpr h.merged_nodup).sublist
      (List.take_sublist _ _)
  · exact h.current hit (hperm.subset (List.mem_of_mem_take hhit))
  · have hscores : ∀ hit ∈ merged, hit.2 ∈ issuedScores R call schema s := by
      intro hit hhit
      obtain ⟨node, req, hreq, hbacked⟩ := h.current hit hhit
      obtain ⟨v, hv, hdist⟩ := hbacked.live
      exact ⟨req, hreq, v, congrArg ShardKey.collection hbacked.key_eq, hv,
        hdist⟩
    have hsorted : (merged.mergeSort
        (BruteForceIndex.scoreLe R.kernel)).Pairwise
          (BruteForceIndex.scoreLe R.kernel · ·) :=
      pairwise_mergeSort (hK.preorderOn_then Prod.fst hscores)
    exact hsorted.sublist (List.take_sublist _ _)

end SearchKeeps

end Invariant

/-! ## The search without other steps -/

namespace Searching

variable {R : Runtime} {xxh64 : Bytes → UInt64} {metadata : MetaState}
variable {self : NodeId} {fate : UInt32 → NodeId → CallFate}
variable {call : SearchCall} {schema : CollectionSchema}
variable {s₀ s : DataPlane} {asked : List DataPlane} {w : World}

theorem keeps {p : SearchProgress}
    (h : Searching R xxh64 self call schema s₀ s p asked)
    (hs₀ : DataPlane.Searchable xxh64 metadata s₀)
    (hschema : metadata.collections[call.collection]? = some schema) :
    SearchKeeps R xxh64 metadata call schema s₀ asked s p := by
  induction h with
  | start _ _ => exact .start hs₀
  | other e _ hstep ih => exact ih.other hstep
  | ask fate _ hask ih =>
      rw [(hs₀.sound.replica self).metadata_eq] at hask
      exact ih.ask hs₀.sound hschema hask

theorem searchReplicas {shardIdx : UInt32} {left : List UInt32}
    {merged hits : Hits} {rest : List (NodeId × String)}
    (h : Searching R xxh64 self call schema s₀ s
      (.replicas shardIdx rest left merged) asked)
    (hsearch : Quorvec.searchReplicas R self fate call schema shardIdx rest
      s.world = (w, some hits)) :
    ∃ asked', Searching R xxh64 self call schema s₀ { s with world := w }
      (.shards left (merged ++ hits)) asked' := by
  induction rest generalizing s asked with
  | nil => simp [Quorvec.searchReplicas] at hsearch
  | cons replica rest ih =>
      rw [Quorvec.searchReplicas] at hsearch
      rcases hout : searchOneReplica R self fate call schema shardIdx s.world
        replica.1 with ⟨w₁, e | found⟩ <;> rw [hout] at hsearch
      · have hnext : Searching R xxh64 self call schema s₀
            { s with world := w₁ } (.replicas shardIdx rest left merged)
            (s :: asked) :=
          h.ask fate (by rw [SearchProgress.step, hout])
        exact @ih { s with world := w₁ } (s :: asked) hnext hsearch
      · obtain ⟨rfl, hfound⟩ := Prod.mk.inj hsearch
        obtain rfl := Option.some.inj hfound
        exact ⟨_, h.ask fate (by rw [SearchProgress.step, hout])⟩

theorem searchShards {left : List UInt32} {merged all : Hits}
    (h : Searching R xxh64 self call schema s₀ s (.shards left merged) asked)
    (hsearch : Quorvec.searchShards R self fate call xxh64
      (s₀.world self).metadata schema left s.world merged = (w, .ok all)) :
    ∃ asked', Searching R xxh64 self call schema s₀ { s with world := w }
      (.shards [] all) asked' := by
  induction left generalizing s merged asked with
  | nil =>
      obtain ⟨rfl, hmerged⟩ := Prod.mk.inj hsearch
      obtain rfl := Except.ok.inj hmerged
      exact ⟨_, h⟩
  | cons shardIdx left ih =>
      rw [Quorvec.searchShards] at hsearch
      split_ifs at hsearch with hempty
      · simp at hsearch
      rcases hout : Quorvec.searchReplicas R self fate call schema shardIdx
          (orderedReplicas xxh64 (s₀.world self).metadata call.collection
            shardIdx) s.world with ⟨w₁, _ | hits⟩ <;> rw [hout] at hsearch
      · simp at hsearch
      · have hbegun : Searching R xxh64 self call schema s₀ s
            (.replicas shardIdx (orderedReplicas xxh64
              (s₀.world self).metadata call.collection shardIdx) left
              merged) (s :: asked) :=
          h.ask fate (by rw [SearchProgress.step, if_neg hempty])
        obtain ⟨asked₁, hanswered⟩ := hbegun.searchReplicas hout
        exact @ih { s with world := w₁ } asked₁ (merged ++ hits) hanswered
          hsearch

theorem of_coordinateSearch {hits : Hits}
    (hschema : (s.world self).metadata.collections[call.collection]? =
      some schema)
    (hsearch : coordinateSearch R self fate call xxh64 s.world =
      (w, .ok hits)) :
    ∃ merged asked, hits = searchAnswer R call merged ∧
      Searching R xxh64 self call schema s { s with world := w }
        (.shards [] merged) asked := by
  rw [coordinateSearch] at hsearch
  simp only [hschema] at hsearch
  split_ifs at hsearch with hdim
  · simp at hsearch
  rcases hout : Quorvec.searchShards R self fate call xxh64
      (s.world self).metadata schema
      ((List.range schema.shardCount.toNat).map UInt32.ofNat) s.world [] with
    ⟨w₁, e | merged⟩ <;> rw [hout] at hsearch
  · simp at hsearch
  · obtain ⟨rfl, hhits⟩ := Prod.mk.inj hsearch
    obtain rfl := Except.ok.inj hhits
    have hstart := @Searching.start R xxh64 self call schema s hschema
      (not_not.mp hdim)
    obtain ⟨asked, hsearched⟩ := hstart.searchShards hout
    exact ⟨merged, asked, rfl, hsearched⟩

end Searching

/-! ## Searches that are answered -/

namespace DataPlane.Searchable

variable {R : Runtime} {xxh64 : Bytes → UInt64} {metadata : MetaState}
variable {self : NodeId} {fate : UInt32 → NodeId → CallFate}
variable {call : SearchCall} {schema : CollectionSchema} {s : DataPlane}

theorem searchReplicas (h : Searchable xxh64 metadata s)
    (hschema : metadata.collections[call.collection]? = some schema)
    (hdim : call.query.length = schema.dim.toNat) (hk : call.k < 2 ^ 32)
    {shardIdx : UInt32}
    {rest : List (NodeId × String)}
    (hreached : ∃ node ∈ rest.map Prod.fst,
      node = self ∨ fate shardIdx node = .answered) :
    ∃ w hits, Quorvec.searchReplicas R self fate call schema shardIdx rest
        s.world = (w, some hits) ∧
      Searchable xxh64 metadata { s with world := w } := by
  induction rest generalizing s with
  | nil => simp at hreached
  | cons replica rest ih =>
      obtain ⟨state, hworld, hsearched⟩ :=
        Sound.searchOneReplica (R := R) (s := s) h.sound h.indexed hschema self
          fate replica.1
      have hnext := (h.update hsearched.same hsearched.indexed).1
      have hanswers := @Sound.isSome_searchOneReplica R metadata shardIdx
        schema s h.sound h.indexed call hschema hdim hk self replica.1 fate
      rw [Quorvec.searchReplicas]
      rcases hout : searchOneReplica R self fate call schema shardIdx s.world
        replica.1 with ⟨w₁, e | hits⟩ <;> rw [hout] at hworld hanswers <;>
        obtain rfl := hworld
      · obtain ⟨node, hnode, hreach⟩ := hreached
        rcases List.mem_cons.mp hnode with rfl | hnode
        · cases hanswers hreach
        · exact @ih
            { s with world := Function.update s.world replica.1 state } hnext
            ⟨node, hnode, hreach⟩
      · exact ⟨_, hits, rfl, hnext⟩

theorem searchShards (h : Searchable xxh64 metadata s)
    (hschema : metadata.collections[call.collection]? = some schema)
    (hdim : call.query.length = schema.dim.toNat) (hk : call.k < 2 ^ 32)
    {left : List UInt32}
    (hreached : ∀ shardIdx ∈ left,
      ∃ node ∈ (replicasWithAddrs xxh64 metadata call.collection
        shardIdx).map Prod.fst, node = self ∨ fate shardIdx node = .answered)
    (merged : Hits) :
    ∃ w all, Quorvec.searchShards R self fate call xxh64 metadata schema left
      s.world merged = (w, .ok all) := by
  induction left generalizing s merged with
  | nil => exact ⟨_, _, rfl⟩
  | cons shardIdx left ih =>
      rw [List.forall_mem_cons] at hreached
      obtain ⟨⟨node, hnode, hreach⟩, hleft⟩ := hreached
      obtain ⟨replica, hreplica, rfl⟩ := List.mem_map.mp hnode
      have hordered := mem_orderedReplicas.mpr hreplica
      obtain ⟨w, hits, hsearch, hnext⟩ :=
        @searchReplicas R xxh64 metadata self fate call schema s h hschema hdim
          hk shardIdx _ ⟨replica.1, List.mem_map_of_mem hordered, hreach⟩
      rw [Quorvec.searchShards, if_neg (by
        rw [List.isEmpty_iff]
        exact List.ne_nil_of_mem hreplica), hsearch]
      exact @ih { s with world := w } hnext hleft (merged ++ hits)

theorem coordinateSearch (h : Searchable xxh64 metadata s)
    (hschema : metadata.collections[call.collection]? = some schema)
    (hdim : call.query.length = schema.dim.toNat) (hk : call.k < 2 ^ 32)
    (hreached : EveryShardReached xxh64 metadata self fate call schema) :
    ∃ w hits, Quorvec.coordinateSearch R self fate call xxh64 s.world =
      (w, .ok hits) := by
  obtain ⟨w, merged, hsearch⟩ :=
    @searchShards R xxh64 metadata self fate call schema s h hschema hdim hk _
      (fun shardIdx hmem => hreached shardIdx (mem_shards.mp hmem)) []
  refine ⟨w, searchAnswer R call merged, ?_⟩
  rw [Quorvec.coordinateSearch, (h.sound.replica self).metadata_eq]
  simp only [hschema]
  rw [if_neg (not_not_intro hdim), hsearch]
  rfl

end DataPlane.Searchable

/-- A search answers with current points, whatever happens in between. -/
theorem searches_current (R : Runtime) (xxh64 : Bytes → UInt64)
    (metadata : MetaState) : SearchesCurrent R xxh64 metadata := by
  intro s₀ hrun self call schema hschema
  have hs₀ := hrun.searchable
  have hlocal := hschema
  rw [← (hs₀.sound.replica self).metadata_eq] at hlocal
  exact
    { current := fun s merged asked h => (h.keeps hs₀ hschema).answers
      uninterrupted := fun fate w hits hsearch =>
        Searching.of_coordinateSearch hlocal hsearch
      available := fun fate hdim hk _ hreached =>
        hs₀.coordinateSearch hschema hdim hk hreached }

open TwoReplicas in
/-- A write that is stamped at one node and taken by the other, and a search of
both shards after it. -/
theorem searches_current_taken : ∃ (R : Runtime) (s : DataPlane) (w : World)
    (req : ReplicaWriteRequest) (hits : Hits) (asked : List DataPlane),
    let call : SearchCall :=
      { collection := "c", query := [0], k := 2, efSearch := 1 }
    DataPlane.PlaneRun R (fun _ => 0) metadata s ∧
      s.issued = [req] ∧ req ∈ s.received 2 ∧
      coordinateSearch R 1 (fun _ _ => .answered) call (fun _ => 0) s.world =
        (w, .ok hits) ∧
      SearchAnswers R (fun _ => 0) call schema metadata s asked
        { s with world := w } hits := by
  let R : Runtime := { crc32 := fun _ => 0, kernel := .equalPoints }
  let call : SearchCall :=
    { collection := "c", query := [0], k := 2, efSearch := 1 }
  have hknown : metadata.collections["c"]? = some schema :=
    Std.ExtTreeMap.getElem?_insert_self
  let state : NodeState :=
    { metadata, shards := .new 0 0, clock := Hlc.zero, hintLog := none }
  let s₀ : DataPlane :=
    { world := fun _ => state, sent := [], issued := []
      received := fun _ => [] }
  have hinit : DataPlane.Initial metadata s₀ := by
    refine ⟨?_, fun _ => rfl, fun _ => ⟨0, 0, rfl⟩, rfl, rfl, rfl⟩
    intro collection schema' hmem
    have hname : collection = "c" := by
      by_contra hne
      simp [metadata, Ne.symm hne] at hmem
    rw [hname, hknown, Option.some.injEq] at hmem
    rw [← hmem]
    decide
  obtain ⟨out, req, hstamp⟩ : ∃ out req,
      state.stampUpsert (fun _ => 0) 5 "c" 7 [0] [] = (out, .ok req) := by
    simp only [NodeState.stampUpsert, state, hknown]
    exact ⟨_, _, rfl⟩
  let s₁ := s₀.stamped 1 (out, .ok req)
  have hrun₁ : DataPlane.PlaneRun R (fun _ => 0) metadata s₁ := by
    refine (DataPlane.PlaneRun.init hinit).step
      (.replica (.data (.upsert 1 5 "c" 7 [0] []))) ?_
    show some (s₀.stamped 1 (state.stampUpsert _ 5 "c" 7 [0] [])) = _
    rw [hstamp]
  obtain ⟨after, hreceive, -⟩ : ∃ after,
      s₁.step R (fun _ => 0) (.receive 2 0 req) = some (s₁.taken 2 req after) ∧
        NodeState.Takes metadata (s₁.world 2) req after :=
    hrun₁.searchable.sound.receive 2 0 List.mem_cons_self
  have hrun₂ : DataPlane.PlaneRun R (fun _ => 0) metadata
      (s₁.taken 2 req after) :=
    hrun₁.step (.replica (.data (.receive 2 0 req))) hreceive
  obtain ⟨hcurrent, huninterrupted, havailable⟩ :=
    searches_current R (fun _ => 0) metadata _ hrun₂ 1 call schema hknown
  have hreached : EveryShardReached (fun _ => 0) metadata 1
      (fun _ _ => .answered) call schema := by
    intro shardIdx _
    have haddr : metadata.nodes[(1 : NodeId)]? = some "a" := by decide +kernel
    have hmem : (1, "a") ∈
        replicasWithAddrs (fun _ => 0) metadata "c" shardIdx :=
      List.mem_filterMap.mpr
        ⟨1, (mem_replicas shardIdx 1).mpr (.inl rfl), by rw [haddr]; rfl⟩
    exact ⟨1, List.mem_map_of_mem hmem, .inl rfl⟩
  obtain ⟨w, hits, hsearch⟩ := havailable _ rfl (by decide)
    ⟨fun _ _ _ _ => rfl, fun _ _ _ _ _ _ _ _ => rfl⟩ hreached
  obtain ⟨merged, asked, rfl, hrun⟩ := huninterrupted _ _ _ hsearch
  exact ⟨R, _, w, req, _, asked, hrun₂, rfl,
    by simp [DataPlane.taken], hsearch, hcurrent _ _ _ hrun⟩

end Quorvec
