import Quorvec.Node.AnsweredPass

/-!
# A rebalancing comes to its end

No member joins or leaves, and the nodes make their passes in any order, each
with metadata that has the changes of those before.  Between the passes the
replicas take writes and answer reads, and other shards change.
-/

namespace Quorvec

open LastWriterWins ByteCodec

/-! ## Runs -/

/-- What a replica does between passes. -/
inductive NodeState.Serving (R : Runtime) (collection : String)
    (shardIdx : UInt32) (schema : CollectionSchema) (s : NodeState) :
    NodeState → Prop
  | write (reading : ℕ) {req : ReplicaWriteRequest} :
      req.key = { collection, shardIdx } → req.FitsFrame →
      Serving R collection shardIdx schema s (s.replicaWrite R reading req).1
  | writeLocal {req : ReplicaWriteRequest} : req.FitsFrame →
      Serving R collection shardIdx schema s
        { s with shards := (s.shards.write R
            (shardRef collection shardIdx schema) req.op (Hlc.unpack req.hlc)
            req.id req.vector req.payload).1 }
  | read :
      Serving R collection shardIdx schema s
        { s with shards := (s.shards.getOrOpen R
            (shardRef collection shardIdx schema)).1 }

/-- Every node has applied what a pass has committed. -/
def Pass.learned (p : Pass) : World := fun node =>
  { p.world node with metadata := p.metadata (p.world node).metadata }

section Run

variable (R : Runtime) (xxh64 : Bytes → UInt64) (collection : String)
variable (shardIdx : UInt32) (schema : CollectionSchema)

/-- The metadata, the nodes, and the nodes that have made a pass, latest
first.  Between passes the replicas take writes and reads, entries about other
shards are applied everywhere, and other shards change. -/
inductive Settling (m₀ : MetaState) (start : World) :
    MetaState → World → List NodeId → Prop
  | init : Settling m₀ start m₀ start []
  | pass {m : MetaState} {w : World} {visited : List NodeId}
      (reading : Shard.ShardRecordRow → ℕ) (me : NodeId) :
      Settling m₀ start m w visited →
      Settling m₀ start
        ((reconcileOnce R xxh64 (.answering reading) me w).1.metadata m)
        (reconcileOnce R xxh64 (.answering reading) me w).1.learned
        (me :: visited)
  | serve {m : MetaState} {w : World} {visited : List NodeId} {node : NodeId}
      {s : NodeState} : Settling m₀ start m w visited →
      node ∈ m.replicasForShard xxh64 collection shardIdx →
      (w node).Serving R collection shardIdx schema s →
      Settling m₀ start m (Function.update w node s) visited
  | elsewhere {m : MetaState} {w : World} {visited : List NodeId}
      {node : NodeId} {s : NodeState} : Settling m₀ start m w visited →
      s.metadata = m →
      s.shards.slots { collection, shardIdx } =
        (w node).shards.slots { collection, shardIdx } →
      Settling m₀ start m (Function.update w node s) visited
  | entry {m : MetaState} {w : World} {visited : List NodeId}
      {req : MetaRequest} : Settling m₀ start m w visited →
      req.Elsewhere collection shardIdx →
      Settling m₀ start (m.apply req).1
        (fun node => { w node with metadata := (m.apply req).1 }) visited

/-- The rebalancing of a shard comes to its end. -/
structure Completes (m₀ : MetaState) (start w : World)
    (visited : List NodeId) : Prop where
  /-- No node loses a version, in memory or on disk. -/
  keeps : ∀ node regs, ((start node).shards.slots
      { collection, shardIdx }).Keeps R schema.dim.toNat schema.metric regs →
    ∃ regs', ((w node).shards.slots { collection, shardIdx }).Keeps R
        schema.dim.toNat schema.metric regs' ∧
      ∀ id t, AtLeast (regs id) t → AtLeast (regs' id) t
  /-- A replica that has made a pass is active. -/
  activates : ∀ node ∈ m₀.replicasForShard xxh64 collection shardIdx,
    node ∈ visited → ∀ other,
      (w other).metadata.shardState collection shardIdx node = .active
  /-- What every active replica had in memory, a replica that has made a pass
  has in memory. -/
  spreads : ∀ id t,
    (∃ node ∈ m₀.replicasForShard xxh64 collection shardIdx,
      m₀.shardState collection shardIdx node = .active) →
    (∀ node ∈ m₀.replicasForShard xxh64 collection shardIdx,
      m₀.shardState collection shardIdx node = .active →
        AtLeast (((start node).shards.slots
          { collection, shardIdx }).registers id) t) →
    ∀ node ∈ m₀.replicasForShard xxh64 collection shardIdx,
      node ∈ visited →
        AtLeast (((w node).shards.slots
          { collection, shardIdx }).registers id) t
  /-- When all replicas have made a pass, the next pass of another node leaves
  its shard closed. -/
  closes : ∀ late early, visited = late ++ early →
    m₀.replicasForShard xxh64 collection shardIdx ≠ [] →
    m₀.replicasForShard xxh64 collection shardIdx ⊆ early →
    ∀ node ∉ m₀.replicasForShard xxh64 collection shardIdx, node ∈ late →
      (w node).shards.hasShard collection shardIdx = false

variable {R xxh64 collection shardIdx schema}
variable {m₀ m : MetaState} {start w : World} {visited : List NodeId}
variable {me : NodeId} {reading : Shard.ShardRecordRow → ℕ}

/-- Serving loses nothing, and changes no metadata. -/
theorem NodeState.Serving.grown {s s' : NodeState}
    (h : s.Serving R collection shardIdx schema s')
    (hknown : s.metadata.collections[collection]? = some schema) :
    s'.metadata = s.metadata ∧
      (s.shards.slots { collection, shardIdx }).Grown R collection shardIdx
        schema (s'.shards.slots { collection, shardIdx }) := by
  cases h with
  | @write reading req hkey hfits =>
      obtain ⟨hcollection, hidx⟩ := ShardKey.mk.inj hkey
      rw [replicaWrite_of_known (hcollection ▸ hknown),
        applyReplicaWrite_fst, hcollection, hidx]
      exact ⟨rfl, s.shards.grown_write hfits⟩
  | writeLocal hfits => exact ⟨rfl, s.shards.grown_write hfits⟩
  | read =>
      refine ⟨rfl, fun regs hregs => ?_, fun id t ht => ?_⟩
      · obtain ⟨shard, hshard, hopen⟩ := @ShardStore.getOrOpen_of_keeps R
          s.shards (shardRef collection shardIdx schema) regs hregs.1
        refine ⟨regs, ⟨?_, hregs.2⟩, fun _ _ => id⟩
        rw [hopen]
        exact (ShardStore.slots_put_self _ _).symm ▸ hshard
      · obtain ⟨p, hp, hle⟩ := ht
        rcases hslot : s.shards.slots { collection, shardIdx } with dir | shard
        · rw [hslot] at hp
          simp [ShardSlot.registers] at hp
        · have hopen := @ShardStore.getOrOpen_of_serves R s.shards
            (shardRef collection shardIdx schema) shard (.inl hslot)
          refine ⟨p, ?_, hle⟩
          rw [hopen]
          refine Eq.trans (congrArg (fun slot => slot.registers id)
            (ShardStore.slots_put_self _ _)) ?_
          rwa [hslot] at hp

/-- The shards of the metadata are those of its collections. -/
theorem mem_allShards (schema' : CollectionSchema)
    (hcalm : w.Calm R collection shardIdx schema m) :
    (collection, schema', shardIdx) ∈ m.allShards ↔ schema' = schema := by
  rw [MetaState.allShards, List.mem_flatMap]
  constructor
  · rintro ⟨⟨name, known⟩, hmem, hshard⟩
    rw [Std.ExtTreeMap.mem_toList_iff_getElem?_eq_some] at hmem
    simp only [List.mem_map, Prod.mk.injEq] at hshard
    obtain ⟨i, -, rfl, rfl, -⟩ := hshard
    exact Option.some.inj (hmem.symm.trans hcalm.known)
  · rintro rfl
    refine ⟨(collection, schema'), ?_, ?_⟩
    · rw [Std.ExtTreeMap.mem_toList_iff_getElem?_eq_some]
      exact hcalm.known
    · rw [List.mem_map]
      exact ⟨shardIdx.toNat, List.mem_range.mpr
        (UInt32.lt_iff_toNat_lt.mp hcalm.in_range), by simp⟩

/-- A pass does what it is for about every shard. -/
theorem World.Calm.reconcileOnce
    (h : w.Calm R collection shardIdx schema m) :
    ({ world := w, requested := [], committed := [] } : Pass).Settles R xxh64
      collection shardIdx schema me m True
        (Quorvec.reconcileOnce R xxh64 (.answering reading) me w).1 := by
  rw [Quorvec.reconcileOnce, h.metadata_eq me]
  exact (Pass.Settles.reconcileAll
    (fun schema' hmem => (mem_allShards schema' h).mp hmem) h).mono
      fun _ => (mem_allShards schema h).mpr rfl

/-! ## What every run keeps -/

theorem collections_elsewhere {req : MetaRequest}
    (h : req.Elsewhere collection shardIdx) (m : MetaState) :
    (m.apply req).1.collections[collection]? =
      m.collections[collection]? := by
  cases h with
  | @createCollection name schema hname =>
      rw [MetaState.apply]
      split
      · rfl
      · rw [Std.ExtTreeMap.getElem?_insert, if_neg]
        rwa [Std.compare_eq_iff_eq]
  | @dropCollection name hname =>
      rw [MetaState.apply, Std.ExtTreeMap.getElem?_erase, if_neg]
      rwa [Std.compare_eq_iff_eq]
  | setShardState => rfl
  | noop => rfl

theorem transferSources_ne_nil {node : NodeId}
    (hnode : node ∈ m.replicasForShard xxh64 collection shardIdx)
    (hne : node ≠ me)
    (hactive : m.shardState collection shardIdx node = .active) :
    transferSources xxh64 m me collection shardIdx ≠ [] := by
  have hmember := MetaState.mem_nodes_of_mem_replicas hnode
  obtain ⟨addr, haddr⟩ := Option.isSome_iff_exists.mp
    (Std.ExtTreeMap.mem_iff_isSome_getElem?.mp hmember)
  apply @List.ne_nil_of_mem _ (node, addr)
  rw [transferSources, List.mem_filterMap]
  refine ⟨node, ?_, by rw [haddr]; rfl⟩
  simp only [List.mem_filter, decide_eq_true_eq]
  exact ⟨⟨hnode, hne⟩, hactive⟩

theorem desiredAllActive_iff {desired : List NodeId} :
    desiredAllActive m collection shardIdx desired = true ↔
      desired ≠ [] ∧ ∀ node ∈ desired,
        m.shardState collection shardIdx node = .active := by
  simp [desiredAllActive]

namespace Settling

variable (R xxh64 collection shardIdx schema) in
/-- The state of a run. -/
structure Sound (m₀ : MetaState) (start : World) (m : MetaState) (w : World)
    (visited : List NodeId) : Prop where
  calm : w.Calm R collection shardIdx schema m
  replicas_eq : m.replicasForShard xxh64 collection shardIdx =
    m₀.replicasForShard xxh64 collection shardIdx
  kept : ∀ node regs, ((start node).shards.slots
      { collection, shardIdx }).Retains R collection shardIdx schema regs →
    ∃ regs', ((w node).shards.slots
        { collection, shardIdx }).Retains R collection shardIdx schema regs' ∧
      ∀ id t, AtLeast (regs id) t → AtLeast (regs' id) t
  activated : ∀ node ∈ m₀.replicasForShard xxh64 collection shardIdx,
    m₀.shardState collection shardIdx node = .active ∨ node ∈ visited →
      m.shardState collection shardIdx node = .active
  spread : ∀ id t,
    (∃ node ∈ m₀.replicasForShard xxh64 collection shardIdx,
      m₀.shardState collection shardIdx node = .active) →
    (∀ node ∈ m₀.replicasForShard xxh64 collection shardIdx,
      m₀.shardState collection shardIdx node = .active →
        AtLeast (((start node).shards.slots
          { collection, shardIdx }).registers id) t) →
    ∀ node ∈ m₀.replicasForShard xxh64 collection shardIdx,
      m.shardState collection shardIdx node = .active →
        AtLeast (((w node).shards.slots
          { collection, shardIdx }).registers id) t
  closed : ∀ late early, visited = late ++ early →
    m₀.replicasForShard xxh64 collection shardIdx ≠ [] →
    m₀.replicasForShard xxh64 collection shardIdx ⊆ early →
    ∀ node ∉ m₀.replicasForShard xxh64 collection shardIdx, node ∈ late →
      (w node).shards.hasShard collection shardIdx = false

namespace Sound

theorem init (h : start.Calm R collection shardIdx schema m₀) :
    Sound R xxh64 collection shardIdx schema m₀ start m₀ start [] := by
  refine ⟨h, rfl, fun node regs hregs => ⟨regs, hregs, fun _ _ => id⟩, ?_,
    fun id t _ hheld => hheld, ?_⟩
  · rintro node hnode (hstate | hmem)
    · exact hstate
    · simp at hmem
  · intro late early hvisited _ _ node _ hlate
    obtain ⟨rfl, -⟩ := List.append_eq_nil_iff.mp hvisited.symm
    simp at hlate

/-- A node changes, and loses nothing; the shard of one that is no replica is
left alone. -/
theorem update
    (h : Sound R xxh64 collection shardIdx schema m₀ start m w visited)
    {node : NodeId} {s : NodeState} (hmeta : s.metadata = m)
    (hgrown : ((w node).shards.slots { collection, shardIdx }).Grown R
      collection shardIdx schema (s.shards.slots { collection, shardIdx }))
    (hother : node ∉ m.replicasForShard xxh64 collection shardIdx →
      s.shards.slots { collection, shardIdx } =
        (w node).shards.slots { collection, shardIdx }) :
    Sound R xxh64 collection shardIdx schema m₀ start m
      (Function.update w node s) visited := by
  refine ⟨⟨fun other => ?_, h.calm.known, h.calm.in_range, h.calm.dim_pos,
    fun other => ?_⟩, h.replicas_eq, fun other regs hregs => ?_, h.activated,
    fun id t hsome hheld other hmem hactive => ?_,
    fun late early hvisited hne hsub other hmem hlate => ?_⟩
  · by_cases hsame : other = node
    · rw [hsame, Function.update_self, hmeta]
    · rw [Function.update_of_ne hsame]
      exact h.calm.metadata_eq other
  · obtain ⟨regs, hregs⟩ := h.calm.retains other
    by_cases hsame : other = node
    · subst hsame
      obtain ⟨regs', hregs', -⟩ := hgrown.kept regs hregs
      rw [Function.update_self]
      exact ⟨regs', hregs'⟩
    · rw [Function.update_of_ne hsame]
      exact ⟨regs, hregs⟩
  · obtain ⟨mid, hmid, hle⟩ := h.kept other regs hregs
    by_cases hsame : other = node
    · subst hsame
      obtain ⟨regs', hregs', hle'⟩ := hgrown.kept mid hmid
      rw [Function.update_self]
      exact ⟨regs', hregs', fun id t ht => hle' id t (hle id t ht)⟩
    · rw [Function.update_of_ne hsame]
      exact ⟨mid, hmid, hle⟩
  · have hspread := h.spread id t hsome hheld other hmem hactive
    by_cases hsame : other = node
    · subst hsame
      rw [Function.update_self]
      exact hgrown.held id t hspread
    · rwa [Function.update_of_ne hsame]
  · have hclosed := h.closed late early hvisited hne hsub other hmem hlate
    by_cases hsame : other = node
    · subst hsame
      rw [Function.update_self, ShardStore.hasShard,
        hother (h.replicas_eq ▸ hmem)]
      exact hclosed
    · rwa [Function.update_of_ne hsame]

/-- An entry about other shards. -/
theorem entry
    (h : Sound R xxh64 collection shardIdx schema m₀ start m w visited)
    {req : MetaRequest} (hreq : req.Elsewhere collection shardIdx) :
    Sound R xxh64 collection shardIdx schema m₀ start (m.apply req).1
      (fun node => { w node with metadata := (m.apply req).1 }) visited where
  calm := ⟨fun _ => rfl, (collections_elsewhere hreq m).trans h.calm.known,
    h.calm.in_range, h.calm.dim_pos, h.calm.retains⟩
  replicas_eq := (Rebalance.replicas_elsewhere hreq m).trans h.replicas_eq
  kept := h.kept
  activated node hnode hstate := by
    rw [Rebalance.shardState_elsewhere hreq]
    exact h.activated node hnode hstate
  spread id t hsome hheld node hnode hactive := by
    rw [Rebalance.shardState_elsewhere hreq] at hactive
    exact h.spread id t hsome hheld node hnode hactive
  closed := h.closed

/-- A pass of a node. -/
theorem pass
    (h : Sound R xxh64 collection shardIdx schema m₀ start m w visited)
    (reading : Shard.ShardRecordRow → ℕ) (me : NodeId) :
    Sound R xxh64 collection shardIdx schema m₀ start
      ((reconcileOnce R xxh64 (.answering reading) me w).1.metadata m)
      (reconcileOnce R xxh64 (.answering reading) me w).1.learned
      (me :: visited) := by
  have hsettles := @World.Calm.reconcileOnce R xxh64 collection shardIdx schema
    m w me reading h.calm
  have hcalm := hsettles.calm h.calm
  generalize (reconcileOnce R xxh64 (.answering reading) me w).1 = p
    at hsettles hcalm
  have hreplicas : (p.metadata m).replicasForShard xxh64 collection shardIdx =
      m.replicasForShard xxh64 collection shardIdx :=
    MetaState.replicas_congr (congrArg _ hsettles.nodes_eq)
      (congrArg (·[collection]?) hsettles.collections_eq)
  refine ⟨⟨fun node => ?_, ?_, h.calm.in_range, h.calm.dim_pos,
    hcalm.retains⟩, hreplicas.trans h.replicas_eq, fun node regs hregs => ?_,
    fun node hnode hstate => ?_,
    fun id t hsome hheld node hnode hactive => ?_,
    fun late early hvisited hne hsub node hnode hlate => ?_⟩
  · exact congrArg p.metadata (hcalm.metadata_eq node)
  · exact (congrArg (·[collection]?) hsettles.collections_eq).trans
      h.calm.known
  · obtain ⟨mid, hmid, hle⟩ := h.kept node regs hregs
    by_cases hme : node = me
    · subst hme
      obtain ⟨regs', hregs', hle'⟩ := hsettles.kept mid hmid
      exact ⟨regs', hregs', fun id t ht => hle' id t (hle id t ht)⟩
    · refine ⟨mid, ?_, hle⟩
      rw [← hsettles.elsewhere node hme] at hmid
      exact hmid
  · by_cases hme : node = me
    · subst hme
      exact hsettles.active trivial (h.replicas_eq ▸ hnode) id
    · rw [hsettles.state_other node hme]
      refine h.activated node hnode (hstate.imp_right fun hmem => ?_)
      exact (List.mem_cons.mp hmem).resolve_left hme
  · by_cases hme : node = me
    · subst hme
      by_cases hold : m.shardState collection shardIdx node = .active
      · exact hsettles.held (h.replicas_eq ▸ hnode) id t
          (h.spread id t hsome hheld node hnode hold)
      · -- an active replica is among the sources
        obtain ⟨peer, hpeer, hpeerActive⟩ := hsome
        have hnow := h.activated peer hpeer (.inl hpeerActive)
        have hsources := transferSources_ne_nil (h.replicas_eq ▸ hpeer)
          (fun hsame : peer = node => hold (hsame ▸ hnow)) hnow
        obtain ⟨first, sources, hcons⟩ := List.exists_cons_of_ne_nil hsources
        obtain ⟨-, hfirst, hfirstActive⟩ := @ne_of_mem_transferSources xxh64
          collection shardIdx node m first (hcons ▸ List.mem_cons_self)
        exact hsettles.pulled trivial (h.replicas_eq ▸ hnode) hold first
          sources hcons id t (h.spread id t ⟨peer, hpeer, hpeerActive⟩ hheld
            first.1 (h.replicas_eq ▸ hfirst) hfirstActive)
    · rw [hsettles.state_other node hme] at hactive
      have hspread := h.spread id t hsome hheld node hnode hactive
      rw [← hsettles.elsewhere node hme] at hspread
      exact hspread
  · rcases late with _ | ⟨last, late⟩
    · simp at hlate
    · obtain ⟨rfl, hrest⟩ := List.cons.inj hvisited
      by_cases hme : node = me
      · subst hme
        refine hsettles.dropped trivial (h.replicas_eq ▸ hnode)
          (desiredAllActive_iff.mpr ⟨h.replicas_eq ▸ hne, fun peer hpeer => ?_⟩)
        refine h.activated peer (h.replicas_eq ▸ hpeer) (.inr ?_)
        rw [hrest]
        exact List.mem_append_right _ (hsub (h.replicas_eq ▸ hpeer))
      · have hclosed := h.closed late early hrest hne hsub node hnode
          ((List.mem_cons.mp hlate).resolve_left hme)
        rw [ShardStore.hasShard, ← hsettles.elsewhere node hme] at hclosed
        exact hclosed

end Sound

theorem sound (hcalm : start.Calm R collection shardIdx schema m₀)
    (hrun : Settling R xxh64 collection shardIdx schema m₀ start m w
      visited) :
    Sound R xxh64 collection shardIdx schema m₀ start m w visited := by
  induction hrun with
  | init => exact .init hcalm
  | pass reading me _ ih => exact ih.pass reading me
  | @serve m w visited node s _ hnode hserving ih =>
      have hknown : (w node).metadata.collections[collection]? =
          some schema := by
        rw [ih.calm.metadata_eq node]
        exact ih.calm.known
      obtain ⟨hmeta, hgrown⟩ := hserving.grown hknown
      exact ih.update (hmeta.trans (ih.calm.metadata_eq node)) hgrown
        fun hnot => absurd hnode hnot
  | elsewhere _ hmeta hslot ih =>
      exact ih.update hmeta (hslot ▸ .refl _) fun _ => hslot
  | entry _ hreq ih => exact ih.entry hreq

end Settling

/-- While no member joins or leaves, every change is committed and every call
answered, a rebalancing comes to its end. -/
theorem rebalancing_completes (R : Runtime) (xxh64 : Bytes → UInt64)
    {collection : String} {shardIdx : UInt32} {schema : CollectionSchema}
    {m₀ m : MetaState} {start w : World} {visited : List NodeId}
    (hcalm : start.Calm R collection shardIdx schema m₀)
    (hrun : Settling R xxh64 collection shardIdx schema m₀ start m w
      visited) :
    Completes R xxh64 collection shardIdx schema m₀ start w visited := by
  have hsound := Settling.sound hcalm hrun
  refine ⟨fun node regs hkeeps => ?_, fun node hnode hvisited other => ?_,
    fun id t hsome hheld node hnode hvisited => ?_, hsound.closed⟩
  · obtain ⟨regs₀, hregs₀⟩ := hcalm.retains node
    obtain rfl := ShardSlot.keeps_unique hkeeps hregs₀.1
    obtain ⟨regs', hregs', hle⟩ := hsound.kept node regs hregs₀
    exact ⟨regs', hregs'.1, hle⟩
  · rw [hsound.calm.metadata_eq other]
    exact hsound.activated node hnode (.inr hvisited)
  · exact hsound.spread id t hsome hheld node hnode
      (hsound.activated node hnode (.inr hvisited))

end Run

/-! ## A node that joins -/

section Joining

/-- The second of two nodes is active, and the first is to pull from it. -/
def joiningMeta : MetaState :=
  (pairMeta.apply (.setShardState "c" 0 1 .syncing)).1

def joiningWorld : World := fun node =>
  { pairWorld (ShardStore.new 0 0) (onePoint .constant) node with
    metadata := joiningMeta }

theorem mem_replicas_joiningMeta {node : NodeId} (h : node = 1 ∨ node = 2) :
    node ∈ joiningMeta.replicasForShard (fun _ => 0) "c" 0 := by
  rw [joiningMeta, Rebalance.replicas_setShardState,
    @MetaState.mem_replicas_iff (fun _ => 0) pairMeta "c" 0 pairSchema
      (by decide +kernel) (by decide +kernel), pairMeta,
    Std.ExtTreeMap.mem_insert, Std.ExtTreeMap.mem_insert,
    Std.compare_eq_iff_eq, Std.compare_eq_iff_eq]
  rcases h with rfl | rfl
  · exact .inr (.inl rfl)
  · exact .inl rfl

theorem shardState_joiningMeta (node : NodeId) :
    joiningMeta.shardState "c" 0 node =
      if 1 = node then .syncing else .active := by
  rw [joiningMeta, MetaState.shardState_setShardState]
  simp [pairMeta, MetaState.shardState]

theorem calm_joiningWorld :
    joiningWorld.Calm .constant "c" 0 pairSchema joiningMeta where
  metadata_eq _ := rfl
  known := by decide +kernel
  in_range := by decide
  dim_pos := by decide
  retains node := by
    by_cases hnode : node = 1
    · refine ⟨fun _ => none, ?_, fun id p hp => by simp at hp⟩
      rw [hnode]
      exact ShardSlot.blank_unused 1 .l2 (by decide)
    · obtain ⟨s, hslot, hkeeps⟩ := exists_onePoint .constant
      have hself : (joiningWorld node).shards = onePoint .constant := by
        simp [joiningWorld, pairWorld, hnode]
      refine ⟨onePointRegs, ?_, fun id p hp => ?_⟩
      · rw [hself, hslot]
        exact hkeeps
      · rcases eq_or_of_deliver hp with hold | ⟨rfl, rfl⟩
        · simp at hold
        · simp [ReplicaWriteRequest.FitsFrame, WalRecord.FitsFrame,
            WalRecord.length_encodeBody, StoredPoint.repair, pointOf,
            ShardStore.callOf, ShardStore.opUpsert, ShardStore.opDelete,
            ShardCall.record, WalRecord.ofUpsert]

/-- The first node has the point after its pass. -/
theorem rebalancing_completes_joining :
    AtLeast ((((reconcileOnce .constant (fun _ => 0)
      (.answering fun _ => 0) 1 joiningWorld).1.learned 1).shards.slots
        { collection := "c", shardIdx := 0 }).registers 7) (Hlc.new 1 0) := by
  have hactive : joiningMeta.shardState "c" 0 2 = .active := by
    rw [shardState_joiningMeta]
    decide
  refine (rebalancing_completes .constant (fun _ => 0) calm_joiningWorld
    (.pass (fun _ => 0) 1 .init)).spreads 7 (Hlc.new 1 0)
    ⟨2, mem_replicas_joiningMeta (.inr rfl), hactive⟩
    (fun node _ hstate => ?_) 1 (mem_replicas_joiningMeta (.inl rfl))
    List.mem_cons_self
  have hnode : node ≠ 1 := by
    rintro rfl
    rw [shardState_joiningMeta] at hstate
    simp at hstate
  obtain ⟨s, hslot, hkeeps⟩ := exists_onePoint .constant
  have hself : (joiningWorld node).shards = onePoint .constant := by
    simp [joiningWorld, pairWorld, hnode]
  have hreg : ((onePoint .constant).slots
      { collection := "c", shardIdx := 0 }).registers = onePointRegs := by
    rw [hslot]
    exact hkeeps.2
  rw [hself, hreg]
  exact ⟨_, rfl, le_refl _⟩

end Joining

end Quorvec
