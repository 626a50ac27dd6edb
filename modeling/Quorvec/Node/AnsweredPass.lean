import Quorvec.Node.Carries
import Quorvec.Node.CutOver

/-!
# A pass that is answered

Every change is committed and every call is answered.  A pass of a replica
makes it active, and brings it the records of an active one; a pass of another
node closes its shard once all replicas are active.  The loop of a pass goes
over all shards, and handles one at a time.
-/

namespace Quorvec

open LastWriterWins ByteCodec
open Rebalance (PushesFit Applicable)

/-! ## What a pass leaves alone -/

/-- Only the shard under the key has changed. -/
structure NodeState.SameBut (key : ShardKey) (s s' : NodeState) : Prop where
  metadata_eq : s'.metadata = s.metadata
  slots_eq : ∀ key', key' ≠ key → s'.shards.slots key' = s.shards.slots key'

/-- Only the shard of one node has changed. -/
structure World.SameBut (me : NodeId) (key : ShardKey) (w w' : World) :
    Prop where
  elsewhere : ∀ node, node ≠ me → w' node = w node
  self : (w me).SameBut key (w' me)

namespace NodeState.SameBut

variable {key : ShardKey} {s s' s'' : NodeState}

theorem refl (s : NodeState) : s.SameBut key s := ⟨rfl, fun _ _ => rfl⟩

theorem trans (h : s.SameBut key s') (h' : s'.SameBut key s'') :
    s.SameBut key s'' :=
  ⟨h'.metadata_eq.trans h.metadata_eq, fun key' hkey =>
    (h'.slots_eq key' hkey).trans (h.slots_eq key' hkey)⟩

end NodeState.SameBut

namespace World.SameBut

variable {me : NodeId} {key : ShardKey} {w w' w'' : World}

theorem refl (w : World) : World.SameBut me key w w :=
  ⟨fun _ _ => rfl, .refl _⟩

theorem trans (h : World.SameBut me key w w')
    (h' : World.SameBut me key w' w'') : World.SameBut me key w w'' :=
  ⟨fun node hnode => (h'.elsewhere node hnode).trans (h.elsewhere node hnode),
    h.self.trans h'.self⟩

theorem update {s : NodeState} (h : (w me).SameBut key s) :
    World.SameBut me key w (Function.update w me s) := by
  refine ⟨fun node hnode => Function.update_of_ne hnode _ _, ?_⟩
  rw [Function.update_self]
  exact h

theorem metadata_eq (h : World.SameBut me key w w') (node : NodeId) :
    (w' node).metadata = (w node).metadata := by
  by_cases hnode : node = me
  · rw [hnode, h.self.metadata_eq]
  · rw [h.elsewhere node hnode]

theorem slots_eq (h : World.SameBut me key w w') {key' : ShardKey}
    (hkey : key' ≠ key) (node : NodeId) :
    (w' node).shards.slots key' = (w node).shards.slots key' := by
  by_cases hnode : node = me
  · rw [hnode, h.self.slots_eq key' hkey]
  · rw [h.elsewhere node hnode]

end World.SameBut

section Frame

variable {R : Runtime} {xxh64 : Bytes → UInt64} {env : ReconcileEnv}
variable {me : NodeId} {snapshot : MetaState} {collection : String}
variable {schema : CollectionSchema} {shardIdx : UInt32} {p : Pass}

theorem NodeState.sameBut_pullRecord (s : NodeState) (reading : ℕ)
    (row : Shard.ShardRecordRow) :
    s.SameBut { collection, shardIdx }
      (s.pullRecord R reading collection shardIdx schema row).1 := by
  refine ⟨metadata_pullRecord reading row, fun key hkey => ?_⟩
  rw [shards_pullRecord]
  exact ShardStore.slots_write_of_ne hkey

theorem NodeState.sameBut_pullRecords
    (reading : Shard.ShardRecordRow → ℕ) (rows : List Shard.ShardRecordRow)
    (s : NodeState) :
    s.SameBut { collection, shardIdx }
      (s.pullRecords R reading collection shardIdx schema rows).1 := by
  induction rows generalizing s with
  | nil => exact .refl s
  | cons row rows ih =>
      have hrow := @sameBut_pullRecord R collection schema shardIdx s
        (reading row) row
      rw [pullRecords]
      split
      · next next e hpull => rwa [hpull] at hrow
      · next next outcome hpull =>
          rw [hpull] at hrow
          have hrest := hrow.trans (ih next)
          split
          · next hrows => rwa [hrows] at hrest
          · next hrows => rwa [hrows] at hrest

/-- A pull changes the shard of the node that pulls. -/
theorem sameBut_pullShard (source : NodeId) (w : World) :
    World.SameBut me { collection, shardIdx } w
      (pullShard R env me collection shardIdx schema source w).1 := by
  rw [pullShard]
  split
  · split
    · exact .refl w
    · next known hknown =>
        have hsame := @NodeState.streamShard_fst R (w source) collection
          shardIdx known
        split
        · next state e hstream =>
            rw [hstream] at hsame
            obtain rfl : state = w source := hsame
            rw [Function.update_eq_self]
            exact .refl w
        · next state rows hstream =>
            rw [hstream] at hsame
            obtain rfl : state = w source := hsame
            simp only [Function.update_eq_self]
            exact .update (NodeState.sameBut_pullRecords _ _ _)
  · exact .refl w

theorem sameBut_pullFirst (sources : List (NodeId × String)) (w : World) :
    World.SameBut me { collection, shardIdx } w
      (pullFirst R env me collection shardIdx schema sources w).1 := by
  induction sources generalizing w with
  | nil => exact .refl w
  | cons source sources ih =>
      have hpull := @sameBut_pullShard R env me collection schema shardIdx
        source.1 w
      rw [pullFirst]
      split
      · next w' n heq => rwa [heq] at hpull
      · next w' e heq =>
          rw [heq] at hpull
          exact hpull.trans (ih w')

end Frame

namespace Pass

/-- The metadata in which the changes of a pass are applied. -/
def metadata (p : Pass) (base : MetaState) : MetaState :=
  p.committed.foldr (fun req m => (m.apply req).1) base

theorem shards_setShards (p : Pass) (me : NodeId) (shards : ShardStore) :
    ((p.setShards me shards).world me).shards = shards := by
  simp [setShards]

/-- Part of a pass has handled one shard of a node. -/
structure Handles (me : NodeId) (key : ShardKey) (p p' : Pass) : Prop where
  world : World.SameBut me key p.world p'.world
  committed : ∃ states : List ShardState, p'.committed =
    states.map (MetaRequest.setShardState key.collection key.shardIdx me) ++
      p.committed

section Handles

variable {R : Runtime} {xxh64 : Bytes → UInt64} {env : ReconcileEnv}
variable {me : NodeId} {snapshot base : MetaState} {collection : String}
variable {schema : CollectionSchema} {shardIdx : UInt32} {p p' p'' : Pass}
variable {key : ShardKey}

namespace Handles

theorem refl (p : Pass) : p.Handles me key p := ⟨.refl _, [], rfl⟩

theorem trans (h : p.Handles me key p') (h' : p'.Handles me key p'') :
    p.Handles me key p'' := by
  obtain ⟨states, hstates⟩ := h.committed
  obtain ⟨states', hstates'⟩ := h'.committed
  refine ⟨h.world.trans h'.world, states' ++ states, ?_⟩
  rw [hstates', hstates, List.map_append, List.append_assoc]

theorem of_world {w : World} (h : World.SameBut me key p.world w) :
    p.Handles me key { p with world := w } :=
  ⟨h, [], rfl⟩

theorem setShards {shards : ShardStore} (h : ∀ key', key' ≠ key →
    shards.slots key' = (p.world me).shards.slots key') :
    p.Handles me key (p.setShards me shards) :=
  .of_world (.update ⟨rfl, h⟩)

theorem setState (state : ShardState) :
    p.Handles me key (p.setState env me key state).1 := by
  unfold Pass.setState
  split
  · exact ⟨.refl _, [state], rfl⟩
  · exact ⟨.refl _, [], rfl⟩
  · exact ⟨.refl _, [state], rfl⟩

theorem shardLen :
    p.Handles me { collection, shardIdx }
      (p.shardLen R me collection schema shardIdx).1 := by
  have hslots : ∀ key', key' ≠ { collection, shardIdx } →
      ((p.world me).shards.shardLen R
        (shardRef collection shardIdx schema)).1.slots key' =
        (p.world me).shards.slots key' :=
    fun key' hkey => ShardStore.slots_access_of_ne hkey _
  unfold Pass.shardLen
  split
  · next shards n heq =>
      rw [heq] at hslots
      exact .setShards hslots
  · next shards e heq =>
      rw [heq] at hslots
      exact .setShards hslots

theorem acquireShard :
    p.Handles me { collection, shardIdx } (p.acquireShard R xxh64 env me
      snapshot collection schema shardIdx).1 := by
  unfold Pass.acquireShard
  split
  · exact shardLen.trans (.setState .active)
  · next source sources hsources =>
      have hset := @setState env me p { collection, shardIdx } .syncing
      split
      · next p' heq => rwa [heq] at hset
      · next p' heq =>
          rw [heq] at hset
          have hpull := @sameBut_pullFirst R env me collection schema shardIdx
            (source :: sources) p'.world
          split
          · next world hfirst =>
              rw [hfirst] at hpull
              exact hset.trans (.of_world hpull)
          · next world hfirst =>
              rw [hfirst] at hpull
              exact (hset.trans (.of_world hpull)).trans (.setState .active)

theorem dropShard :
    p.Handles me { collection, shardIdx } (p.setShards me
      ((p.world me).shards.dropShard collection shardIdx)) := by
  refine .setShards fun key' hkey => ?_
  unfold ShardStore.dropShard
  split
  · exact ShardStore.slots_put_of_ne hkey _
  · rfl

/-- A pass goes from shard to shard. -/
theorem reconcileShard :
    p.Handles me { collection, shardIdx } (p.reconcileShard R xxh64 env me
      snapshot collection schema shardIdx).1 := by
  by_cases hme : me ∈ snapshot.replicasForShard xxh64 collection shardIdx
  · rw [reconcileShard_of_mem hme]
    split
    · exact .refl p
    · exact acquireShard
  · simp only [Pass.reconcileShard, if_neg hme]
    split
    · exact dropShard
    · exact .refl p

/-- The collections and the members are as they were. -/
theorem metadata_eq (h : p.Handles me key p') :
    (p'.metadata base).collections = (p.metadata base).collections ∧
      (p'.metadata base).nodes = (p.metadata base).nodes := by
  obtain ⟨states, hstates⟩ := h.committed
  rw [metadata, metadata, hstates]
  clear hstates
  induction states with
  | nil => exact ⟨rfl, rfl⟩
  | cons state states ih => exact ih

theorem shardState_eq (h : p.Handles me key p') {node : NodeId}
    (hother : ¬ (key = { collection, shardIdx } ∧ me = node)) :
    (p'.metadata base).shardState collection shardIdx node =
      (p.metadata base).shardState collection shardIdx node := by
  obtain ⟨states, hstates⟩ := h.committed
  rw [metadata, metadata, hstates]
  clear hstates
  induction states with
  | nil => rfl
  | cons state states ih =>
      refine Eq.trans ?_ ih
      rw [List.map_cons, List.cons_append, List.foldr_cons,
        MetaState.shardState_setShardState, if_neg]
      rintro ⟨hcollection, hidx, hnode⟩
      refine hother ⟨?_, hnode⟩
      rw [← hcollection, ← hidx]

end Handles

end Handles

end Pass

/-! ## What a transfer brings -/

section Grown

variable (R : Runtime) (collection : String) (shardIdx : UInt32)
variable (schema : CollectionSchema)

/-- The registers of a slot, the push of each of which fits its frame. -/
def ShardSlot.Retains (regs : Registers) (slot : ShardSlot) : Prop :=
  slot.Keeps R schema.dim.toNat schema.metric regs ∧
    PushesFit collection shardIdx regs

/-- No version is lost from a slot, on disk or in memory. -/
structure ShardSlot.Grown (slot slot' : ShardSlot) : Prop where
  kept : ∀ regs, slot.Retains R collection shardIdx schema regs →
    ∃ regs', slot'.Retains R collection shardIdx schema regs' ∧
      ∀ id t, AtLeast (regs id) t → AtLeast (regs' id) t
  held : ∀ id t, AtLeast (slot.registers id) t →
    AtLeast (slot'.registers id) t

end Grown

section Transfer

variable {R : Runtime} {collection : String} {shardIdx : UInt32}
variable {schema : CollectionSchema} {slot slot' slot'' : ShardSlot}

theorem ShardSlot.Grown.refl (slot : ShardSlot) :
    slot.Grown R collection shardIdx schema slot :=
  ⟨fun regs hregs => ⟨regs, hregs, fun _ _ => id⟩, fun _ _ => id⟩

theorem ShardSlot.Grown.trans
    (h : slot.Grown R collection shardIdx schema slot')
    (h' : slot'.Grown R collection shardIdx schema slot'') :
    slot.Grown R collection shardIdx schema slot'' := by
  refine ⟨fun regs hregs => ?_, fun id t ht => h'.held id t (h.held id t ht)⟩
  obtain ⟨mid, hmid, hle⟩ := h.kept regs hregs
  obtain ⟨regs', hregs', hle'⟩ := h'.kept mid hmid
  exact ⟨regs', hregs', fun id t ht => hle' id t (hle id t ht)⟩

theorem ShardStore.serves_of_keeps {st : ShardStore} {sref : ShardRef}
    {regs : Registers}
    (h : (st.slots sref.key).Keeps R sref.dim sref.metric regs) :
    ∃ s : Shard, Serves R st sref s ∧
      s.Keeps R sref.dim sref.metric regs := by
  rcases hslot : st.slots sref.key with dir | s
  · rw [hslot] at h
    obtain ⟨s, hopen, hs⟩ := h st.snapshotWalMb st.walBatchMs
    exact ⟨s, .inr ⟨dir, hslot, hopen⟩, hs⟩
  · rw [hslot] at h
    exact ⟨s, .inl hslot, h⟩

/-- A write that fits its frame loses nothing. -/
theorem ShardStore.grown_write (st : ShardStore) {req : ReplicaWriteRequest}
    (hfits : req.FitsFrame) :
    (st.slots { collection, shardIdx }).Grown R collection shardIdx schema
      ((st.write R (shardRef collection shardIdx schema) req.op
        (Hlc.unpack req.hlc) req.id req.vector req.payload).1.slots
          { collection, shardIdx }) := by
  refine ⟨fun regs hregs => ?_, fun id t ht => atLeast_write ht⟩
  obtain ⟨regs', hkeeps, hregs'⟩ := @write_of_keeps R st
    (shardRef collection shardIdx schema) regs req.op (Hlc.unpack req.hlc)
    req.id req.vector req.payload hregs.1 hfits
  rcases hregs' with rfl | rfl
  · exact ⟨_, ⟨hkeeps, hregs.2⟩, fun _ _ => id⟩
  · refine ⟨_, ⟨hkeeps, fun id p hp => ?_⟩, fun id t ht => ht.deliver _⟩
    rcases eq_or_of_deliver hp with hold | ⟨rfl, rfl⟩
    · exact hregs.2 id p hold
    · exact hfits.repair req.id collection shardIdx

namespace NodeState

theorem grown_pullRecord (s : NodeState) (reading : ℕ)
    {row : Shard.ShardRecordRow}
    (hrow : Applicable collection shardIdx schema row) :
    (s.shards.slots { collection, shardIdx }).Grown R collection shardIdx
      schema ((s.pullRecord R reading collection shardIdx schema
        row).1.shards.slots { collection, shardIdx }) := by
  have hgrown := @ShardStore.grown_write R collection shardIdx schema s.shards
    _ hrow.fits
  rw [shards_pullRecord]
  simpa [Shard.ShardRecordRow.request] using hgrown

theorem pullRecord_answers (hdim : 0 < schema.dim.toNat) {s : NodeState}
    {regs : Registers}
    (hslot : (s.shards.slots { collection, shardIdx }).Retains R collection
      shardIdx schema regs) (reading : ℕ) {row : Shard.ShardRecordRow}
    (hrow : Applicable collection shardIdx schema row) :
    ∃ s' out, s.pullRecord R reading collection shardIdx schema row =
      (s', .ok out) := by
  obtain ⟨held, hserves, hkeeps⟩ := @ShardStore.serves_of_keeps R s.shards
    (shardRef collection shardIdx schema) regs hslot.1
  obtain ⟨s', out, after, hpull, -⟩ := pullRecord_of_serves hdim hserves
    hkeeps.1.valid hkeeps.1.dim_eq reading hrow.vector
  exact ⟨s', out, hpull⟩

/-- All records are applied, and are in memory then. -/
theorem pullRecords_of_retains (hdim : 0 < schema.dim.toNat)
    (reading : Shard.ShardRecordRow → ℕ) {rows : List Shard.ShardRecordRow}
    (hrows : ∀ row ∈ rows, Applicable collection shardIdx schema row)
    {s : NodeState} {regs : Registers}
    (hslot : (s.shards.slots { collection, shardIdx }).Retains R collection
      shardIdx schema regs) :
    ∃ s' n, s.pullRecords R reading collection shardIdx schema rows =
        (s', .ok n) ∧
      (s.shards.slots { collection, shardIdx }).Grown R collection shardIdx
        schema (s'.shards.slots { collection, shardIdx }) ∧
      ∀ row ∈ rows, AtLeast ((s'.shards.slots
        { collection, shardIdx }).registers row.id) row.hlc := by
  induction rows generalizing s regs with
  | nil => exact ⟨s, 0, rfl, .refl _, by simp⟩
  | cons row rows ih =>
      have hrow := hrows row List.mem_cons_self
      obtain ⟨mid, out, hpull⟩ :=
        pullRecord_answers hdim hslot (reading row) hrow
      have hgrown := grown_pullRecord (R := R) s (reading row) hrow
      have hheld : AtLeast ((mid.shards.slots
          { collection, shardIdx }).registers row.id) row.hlc := by
        have hwrite := write_of_pullRecord (by rw [hpull])
        have hshards := @shards_pullRecord R s collection shardIdx schema
          (reading row) row
        rw [hpull] at hshards
        rw [show mid.shards = _ from hshards]
        exact ShardStore.atLeast_write_of_ok hwrite
      rw [hpull] at hgrown
      obtain ⟨regs', hregs', -⟩ := hgrown.kept regs hslot
      obtain ⟨s', n, hrest, hgrown', htaken⟩ :=
        ih (fun r hr => hrows r (List.mem_cons_of_mem _ hr)) hregs'
      refine ⟨s', if out = .applied then n + 1 else n, ?_,
        hgrown.trans hgrown', fun r hr => ?_⟩
      · rw [pullRecords, hpull]
        simp only [hrest]
      · rcases List.mem_cons.mp hr with rfl | hr
        · exact hgrown'.held _ _ hheld
        · exact htaken r hr

/-- A source enumerates what it has in memory. -/
theorem streamShard_of_retains (hdim : 0 < schema.dim.toNat) {s : NodeState}
    {regs : Registers}
    (hslot : (s.shards.slots { collection, shardIdx }).Retains R collection
      shardIdx schema regs) :
    ∃ rows, s.streamShard R collection shardIdx schema = (s, .ok rows) ∧
      (∀ row ∈ rows, Applicable collection shardIdx schema row) ∧
      ∀ id t, AtLeast ((s.shards.slots
        { collection, shardIdx }).registers id) t →
          ∃ row ∈ rows, row.id = id ∧ t ≤ row.hlc := by
  rcases hcase : s.shards.slots { collection, shardIdx } with dir | shard
  · refine ⟨[], ?_, by simp, ?_⟩
    · simp [streamShard, ShardStore.hasShard, hcase]
    · rintro id t ⟨p, hp, -⟩
      simp [ShardSlot.registers] at hp
  · rw [hcase] at hslot
    have hkeeps : shard.Keeps R schema.dim.toNat schema.metric regs := hslot.1
    obtain ⟨shards, rows, hstream, -, hmem, hdims⟩ :=
      @streamShard_of_valid R s collection shardIdx schema hdim
        (hcase ▸ .opened hkeeps.1.valid hkeeps.1.dim_eq)
    have hsame := @streamShard_fst R s collection shardIdx schema
    rw [hstream] at hsame
    rw [hcase] at hmem
    refine ⟨rows, hstream.trans (congrArg (·, _) hsame), fun row hrow => ?_,
      ?_⟩
    · obtain ⟨p, hp, heq⟩ := (hmem row).mp hrow
      refine ⟨hdims row hrow, ?_⟩
      have hfits := hslot.2 row.id p (hkeeps.2 ▸ hp)
      rw [heq]
      exact hfits
    · rintro id t ⟨p, hp, hle⟩
      exact ⟨Shard.rowOf id p, (hmem _).mpr ⟨p, hp, rfl⟩, rfl, hle⟩

end NodeState

end Transfer

/-! ## One shard of a pass -/

/-- Every change is committed and every call answered. -/
def ReconcileEnv.answering (reading : Shard.ShardRecordRow → ℕ) :
    ReconcileEnv where
  change _ _ := .committed
  reaches _ := true
  reading := reading

/-- The metadata is the same everywhere, and each node has records of the
shard that a transfer can carry. -/
structure World.Calm (R : Runtime) (collection : String) (shardIdx : UInt32)
    (schema : CollectionSchema) (m : MetaState) (w : World) : Prop where
  metadata_eq : ∀ node, (w node).metadata = m
  known : m.collections[collection]? = some schema
  in_range : shardIdx < schema.shardCount
  dim_pos : 0 < schema.dim.toNat
  retains : ∀ node, ∃ regs, ((w node).shards.slots
    { collection, shardIdx }).Retains R collection shardIdx schema regs

section Calm

variable {R : Runtime} {xxh64 : Bytes → UInt64} {collection : String}
variable {shardIdx : UInt32} {schema : CollectionSchema} {m : MetaState}
variable {w : World} {me : NodeId} {snapshot base : MetaState} {p : Pass}
variable {reading : Shard.ShardRecordRow → ℕ}

/-- A pull brings what the source has in memory. -/
theorem World.Calm.pullShard (h : w.Calm R collection shardIdx schema m)
    (source : NodeId) :
    ∃ w' n, Quorvec.pullShard R (.answering reading) me collection shardIdx
        schema source w = (w', .ok n) ∧
      ((w me).shards.slots { collection, shardIdx }).Grown R collection
        shardIdx schema ((w' me).shards.slots { collection, shardIdx }) ∧
      ∀ id t, AtLeast (((w source).shards.slots
          { collection, shardIdx }).registers id) t →
        AtLeast (((w' me).shards.slots
          { collection, shardIdx }).registers id) t := by
  obtain ⟨regs, hregs⟩ := h.retains source
  obtain ⟨regsMe, hregsMe⟩ := h.retains me
  have hknown : (w source).metadata.collections[collection]? =
      some schema := by
    rw [h.metadata_eq source]
    exact h.known
  obtain ⟨rows, hstream, hrows, hall⟩ :=
    NodeState.streamShard_of_retains h.dim_pos hregs
  obtain ⟨s', n, hpull, hgrown, htaken⟩ :=
    NodeState.pullRecords_of_retains h.dim_pos reading hrows hregsMe
  refine ⟨Function.update w me s', n, ?_, ?_, fun id t ht => ?_⟩
  · simp [Quorvec.pullShard, ReconcileEnv.answering, hknown, hstream, hpull,
      Function.update_eq_self]
  · rw [Function.update_self]
    exact hgrown
  · obtain ⟨row, hrow, rfl, hle⟩ := hall id t ht
    rw [Function.update_self]
    obtain ⟨q, hq, hrowLe⟩ := htaken row hrow
    exact ⟨q, hq, hle.trans hrowLe⟩

/-- Reading the length of a shard opens it. -/
theorem Pass.grown_shardLen :
    ((p.world me).shards.slots { collection, shardIdx }).Grown R collection
      shardIdx schema (((p.shardLen R me collection schema
        shardIdx).1.world me).shards.slots { collection, shardIdx }) := by
  have hworld : ((p.shardLen R me collection schema
      shardIdx).1.world me).shards = ((p.world me).shards.shardLen R
        (shardRef collection shardIdx schema)).1 := by
    unfold Pass.shardLen
    split
    · next heq => rw [heq, Pass.shards_setShards]
    · next heq => rw [heq, Pass.shards_setShards]
  rw [hworld]
  refine ⟨fun regs hregs => ⟨regs, ⟨?_, hregs.2⟩, fun _ _ => id⟩,
    fun id t ht => ShardStore.atLeast_access (fun _ hs => hs) ht⟩
  obtain ⟨s, -, -, hkeeps⟩ := @ShardStore.read_of_keeps R (p.world me).shards
    (shardRef collection shardIdx schema) regs ℕ hregs.1 fun s => .ok s.len
  exact hkeeps

/-- A replica that acquires its shard is active then, and has what the first
source has in memory. -/
theorem World.Calm.acquireShard
    (h : p.world.Calm R collection shardIdx schema m) :
    ((p.world me).shards.slots { collection, shardIdx }).Grown R collection
        shardIdx schema (((p.acquireShard R xxh64 (.answering reading) me
          snapshot collection schema shardIdx).1.world me).shards.slots
            { collection, shardIdx }) ∧
      ((p.acquireShard R xxh64 (.answering reading) me snapshot collection
        schema shardIdx).1.metadata base).shardState collection shardIdx me =
          .active ∧
      ∀ first sources, transferSources xxh64 snapshot me collection shardIdx =
          first :: sources →
        ∀ id t, AtLeast (((p.world first.1).shards.slots
            { collection, shardIdx }).registers id) t →
          AtLeast ((((p.acquireShard R xxh64 (.answering reading) me snapshot
            collection schema shardIdx).1.world me).shards.slots
              { collection, shardIdx }).registers id) t := by
  have hactive (q : Pass) :
      ((q.setState (.answering reading) me { collection, shardIdx }
        .active).1.metadata base).shardState collection shardIdx me =
          .active := by
    simp only [Pass.setState, ReconcileEnv.answering, Pass.metadata,
      List.foldr_cons]
    rw [MetaState.shardState_setShardState, if_pos ⟨rfl, rfl, rfl⟩]
  rcases hsources : transferSources xxh64 snapshot me collection shardIdx with
    _ | ⟨first, sources⟩
  · simp only [Pass.acquireShard, hsources]
    refine ⟨?_, hactive _, by simp⟩
    rw [Pass.world_setState]
    exact Pass.grown_shardLen
  · obtain ⟨w', n, hpull, hgrown, hbrings⟩ :=
      @World.Calm.pullShard R collection shardIdx schema m p.world me reading h
        first.1
    have hfirst : pullFirst R (.answering reading) me collection shardIdx
        schema (first :: sources) p.world = (w', true) := by
      simp only [pullFirst, hpull]
    simp only [Pass.acquireShard, hsources]
    rw [show p.setState (.answering reading) me { collection, shardIdx }
      .syncing = ({ p with
        requested := .setShardState collection shardIdx me .syncing ::
          p.requested
        committed := .setShardState collection shardIdx me .syncing ::
          p.committed }, true) from rfl]
    simp only [hfirst, Pass.world_setState]
    refine ⟨hgrown, hactive _, ?_⟩
    rintro first' sources' heq
    obtain ⟨rfl, rfl⟩ := List.cons.inj heq
    exact hbrings

end Calm

/-! ## The loop of a pass -/

section Loop

variable (R : Runtime) (xxh64 : Bytes → UInt64) (collection : String)
variable (shardIdx : UInt32) (schema : CollectionSchema) (me : NodeId)
variable (snapshot : MetaState)

/-- What part of a pass does about a shard: the records of its node grow or go
to disk, and its replica may become active.  If the part has `visited` the
shard, then the pass has done what it is for. -/
structure Pass.Settles (visited : Prop) (p p' : Pass) : Prop where
  metadata_eq : ∀ node, (p'.world node).metadata = (p.world node).metadata
  collections_eq :
    (p'.metadata snapshot).collections = (p.metadata snapshot).collections
  nodes_eq : (p'.metadata snapshot).nodes = (p.metadata snapshot).nodes
  elsewhere : ∀ node, node ≠ me →
    (p'.world node).shards.slots { collection, shardIdx } =
      (p.world node).shards.slots { collection, shardIdx }
  state_other : ∀ node, node ≠ me →
    (p'.metadata snapshot).shardState collection shardIdx node =
      (p.metadata snapshot).shardState collection shardIdx node
  state_self :
    (p'.metadata snapshot).shardState collection shardIdx me =
        (p.metadata snapshot).shardState collection shardIdx me ∨
      (p'.metadata snapshot).shardState collection shardIdx me = .active
  kept : ∀ regs, ((p.world me).shards.slots
      { collection, shardIdx }).Retains R collection shardIdx schema regs →
    ∃ regs', ((p'.world me).shards.slots
        { collection, shardIdx }).Retains R collection shardIdx schema regs' ∧
      ∀ id t, AtLeast (regs id) t → AtLeast (regs' id) t
  held : me ∈ snapshot.replicasForShard xxh64 collection shardIdx →
    ∀ id t, AtLeast (((p.world me).shards.slots
        { collection, shardIdx }).registers id) t →
      AtLeast (((p'.world me).shards.slots
        { collection, shardIdx }).registers id) t
  closed : me ∉ snapshot.replicasForShard xxh64 collection shardIdx →
    (p.world me).shards.hasShard collection shardIdx = false →
      (p'.world me).shards.hasShard collection shardIdx = false
  active : visited →
    me ∈ snapshot.replicasForShard xxh64 collection shardIdx →
    (snapshot.shardState collection shardIdx me = .active →
      (p.metadata snapshot).shardState collection shardIdx me = .active) →
    (p'.metadata snapshot).shardState collection shardIdx me = .active
  pulled : visited →
    me ∈ snapshot.replicasForShard xxh64 collection shardIdx →
    snapshot.shardState collection shardIdx me ≠ .active →
    ∀ first sources, transferSources xxh64 snapshot me collection shardIdx =
        first :: sources →
      ∀ id t, AtLeast (((p.world first.1).shards.slots
          { collection, shardIdx }).registers id) t →
        AtLeast (((p'.world me).shards.slots
          { collection, shardIdx }).registers id) t
  dropped : visited →
    me ∉ snapshot.replicasForShard xxh64 collection shardIdx →
    desiredAllActive snapshot collection shardIdx
        (snapshot.replicasForShard xxh64 collection shardIdx) = true →
      (p'.world me).shards.hasShard collection shardIdx = false

variable {R xxh64 collection shardIdx schema me snapshot}
variable {visited visited' : Prop} {p p' p'' : Pass} {m : MetaState}
variable {reading : Shard.ShardRecordRow → ℕ} {env : ReconcileEnv}

/-- A source is another node. -/
theorem ne_of_mem_transferSources {source : NodeId × String}
    (h : source ∈ transferSources xxh64 snapshot me collection shardIdx) :
    source.1 ≠ me ∧
      source.1 ∈ snapshot.replicasForShard xxh64 collection shardIdx ∧
      snapshot.shardState collection shardIdx source.1 = .active := by
  rw [transferSources, List.mem_filterMap] at h
  obtain ⟨node, hnode, haddr⟩ := h
  rw [Option.map_eq_some_iff] at haddr
  obtain ⟨addr, -, rfl⟩ := haddr
  simp only [List.mem_filter, decide_eq_true_eq] at hnode
  exact ⟨hnode.1.2, hnode.1.1, hnode.2⟩

namespace Pass.Settles

theorem refl (p : Pass) :
    p.Settles R xxh64 collection shardIdx schema me snapshot False p where
  metadata_eq _ := rfl
  collections_eq := rfl
  nodes_eq := rfl
  elsewhere _ _ := rfl
  state_other _ _ := rfl
  state_self := .inl rfl
  kept regs hregs := ⟨regs, hregs, fun _ _ => id⟩
  held _ _ _ := id
  closed _ := id
  active := False.elim
  pulled := False.elim
  dropped := False.elim

theorem trans
    (h : p.Settles R xxh64 collection shardIdx schema me snapshot visited p')
    (h' : p'.Settles R xxh64 collection shardIdx schema me snapshot visited'
      p'') :
    p.Settles R xxh64 collection shardIdx schema me snapshot
      (visited ∨ visited') p'' where
  metadata_eq node := (h'.metadata_eq node).trans (h.metadata_eq node)
  collections_eq := h'.collections_eq.trans h.collections_eq
  nodes_eq := h'.nodes_eq.trans h.nodes_eq
  elsewhere node hnode :=
    (h'.elsewhere node hnode).trans (h.elsewhere node hnode)
  state_other node hnode :=
    (h'.state_other node hnode).trans (h.state_other node hnode)
  state_self := by
    rcases h'.state_self with hsame | hactive
    · rw [hsame]
      exact h.state_self
    · exact .inr hactive
  kept regs hregs := by
    obtain ⟨mid, hmid, hle⟩ := h.kept regs hregs
    obtain ⟨regs', hregs', hle'⟩ := h'.kept mid hmid
    exact ⟨regs', hregs', fun id t ht => hle' id t (hle id t ht)⟩
  held hme id t ht := h'.held hme id t (h.held hme id t ht)
  closed hme hclosed := h'.closed hme (h.closed hme hclosed)
  active := by
    rintro (hv | hv) hme hstart
    · have hactive := h.active hv hme hstart
      rcases h'.state_self with hsame | hactive'
      · exact hsame.trans hactive
      · exact hactive'
    · refine h'.active hv hme fun hsnapshot => ?_
      rcases h.state_self with hsame | hactive
      · exact hsame.trans (hstart hsnapshot)
      · exact hactive
  pulled := by
    rintro (hv | hv) hme hstate first sources hsources id t ht
    · exact h'.held hme id t
        (h.pulled hv hme hstate first sources hsources id t ht)
    · apply h'.pulled hv hme hstate first sources hsources id t
      have hfirst := ne_of_mem_transferSources (hsources ▸ List.mem_cons_self)
      rwa [h.elsewhere first.1 hfirst.1]
  dropped := by
    rintro (hv | hv) hme hall
    · exact h'.closed hme (h.dropped hv hme hall)
    · exact h'.dropped hv hme hall

/-- Handling another shard does nothing to this one. -/
theorem of_handles {key : ShardKey} (h : p.Handles me key p')
    (hkey : key ≠ { collection, shardIdx }) :
    p.Settles R xxh64 collection shardIdx schema me snapshot False p' := by
  have hslots := h.world.slots_eq hkey.symm
  have hstates (node : NodeId) :
      (p'.metadata snapshot).shardState collection shardIdx node =
        (p.metadata snapshot).shardState collection shardIdx node :=
    h.shardState_eq fun hsame => hkey hsame.1
  have hmetadata := @Handles.metadata_eq me snapshot p p' key h
  refine ⟨h.world.metadata_eq, hmetadata.1, hmetadata.2,
    fun node _ => hslots node, fun node _ => hstates node, .inl (hstates me),
    fun regs hregs => ?_, fun _ id t ht => ?_, fun _ hclosed => ?_,
    False.elim, False.elim, False.elim⟩
  · rw [hslots]
    exact ⟨regs, hregs, fun _ _ => id⟩
  · rwa [hslots]
  · rwa [ShardStore.hasShard, hslots]

/-- A replica that acquires the shard. -/
theorem acquireShard (h : p.world.Calm R collection shardIdx schema m)
    (hme : me ∈ snapshot.replicasForShard xxh64 collection shardIdx) :
    p.Settles R xxh64 collection shardIdx schema me snapshot True
      (p.acquireShard R xxh64 (.answering reading) me snapshot collection
        schema shardIdx).1 := by
  have hhandles := @Handles.acquireShard R xxh64 (.answering reading) me
    snapshot collection schema shardIdx p
  obtain ⟨hgrown, hactive, hpulled⟩ := @World.Calm.acquireShard R xxh64
    collection shardIdx schema m me snapshot snapshot p reading h
  have hmetadata := @Handles.metadata_eq me snapshot _ _ _ hhandles
  exact ⟨hhandles.world.metadata_eq, hmetadata.1, hmetadata.2,
    fun node hnode => by rw [hhandles.world.elsewhere node hnode],
    fun node hnode => hhandles.shardState_eq fun hsame =>
      hnode hsame.2.symm,
    .inr hactive, hgrown.kept, fun _ => hgrown.held,
    fun hnot => absurd hme hnot, fun _ _ _ => hactive,
    fun _ _ _ => hpulled, fun _ hnot => absurd hme hnot⟩

/-- A node that is no replica. -/
theorem dropShard
    (hme : me ∉ snapshot.replicasForShard xxh64 collection shardIdx) :
    p.Settles R xxh64 collection shardIdx schema me snapshot True
      (p.setShards me ((p.world me).shards.dropShard collection
        shardIdx)) := by
  have hhandles := @Handles.dropShard me collection shardIdx p
  have hself := shards_setShards p me
    ((p.world me).shards.dropShard collection shardIdx)
  have hclosed : ((p.world me).shards.dropShard collection
      shardIdx).hasShard collection shardIdx = false := by
    rcases hslot : (p.world me).shards.slots { collection, shardIdx } with
      dir | s
    · simp [ShardStore.dropShard, ShardStore.hasShard, hslot]
    · simp [ShardStore.dropShard, ShardStore.hasShard, hslot,
        ShardStore.put]
  have hmetadata := @Handles.metadata_eq me snapshot _ _ _ hhandles
  refine ⟨hhandles.world.metadata_eq, hmetadata.1, hmetadata.2,
    fun node hnode => by rw [hhandles.world.elsewhere node hnode],
    fun node hnode => hhandles.shardState_eq fun hsame =>
      hnode hsame.2.symm,
    .inl rfl, fun regs hregs => ⟨regs, ⟨?_, hregs.2⟩, fun _ _ => id⟩,
    fun hmem => absurd hmem hme, fun _ _ => ?_, fun _ hmem => absurd hmem hme,
    fun _ hmem => absurd hmem hme, fun _ _ _ => ?_⟩
  · rw [hself]
    exact ShardStore.keeps_dropShard hregs.1
  · rw [hself]
    exact hclosed
  · rw [hself]
    exact hclosed

/-- The shard itself. -/
theorem reconcileShard (h : p.world.Calm R collection shardIdx schema m) :
    p.Settles R xxh64 collection shardIdx schema me snapshot True
      (p.reconcileShard R xxh64 (.answering reading) me snapshot collection
        schema shardIdx).1 := by
  have hrefl := @refl R xxh64 collection shardIdx schema me snapshot p
  by_cases hme : me ∈ snapshot.replicasForShard xxh64 collection shardIdx
  · rw [reconcileShard_of_mem hme]
    split
    · next hdone =>
        -- a replica that is active and has a point is left alone
        exact { hrefl with
          active := fun _ _ hstart => hstart hdone.1
          pulled := fun _ _ hstate => absurd hdone.1 hstate
          dropped := fun _ hnot => absurd hme hnot }
    · exact acquireShard h hme
  · simp only [Pass.reconcileShard, if_neg hme]
    split
    · exact dropShard hme
    · next hkeep =>
        exact { hrefl with
          active := fun _ hmem => absurd hmem hme
          pulled := fun _ hmem => absurd hmem hme
          dropped := fun _ _ hall => by
            by_contra hopen
            exact hkeep ⟨by simpa using hopen, hall⟩ }

/-- What a pass leaves is what it can go on with. -/
theorem calm
    (h : p.Settles R xxh64 collection shardIdx schema me snapshot visited p')
    (hcalm : p.world.Calm R collection shardIdx schema m) :
    p'.world.Calm R collection shardIdx schema m := by
  refine ⟨fun node => (h.metadata_eq node).trans (hcalm.metadata_eq node),
    hcalm.known, hcalm.in_range, hcalm.dim_pos, fun node => ?_⟩
  obtain ⟨regs, hregs⟩ := hcalm.retains node
  by_cases hnode : node = me
  · obtain ⟨regs', hregs', -⟩ := h.kept regs (hnode ▸ hregs)
    exact ⟨regs', hnode ▸ hregs'⟩
  · rw [h.elsewhere node hnode]
    exact ⟨regs, hregs⟩

theorem mono {visited' : Prop}
    (h : p.Settles R xxh64 collection shardIdx schema me snapshot visited p')
    (hv : visited' → visited) :
    p.Settles R xxh64 collection shardIdx schema me snapshot visited' p' :=
  { h with
    active := fun hvisited => h.active (hv hvisited)
    pulled := fun hvisited => h.pulled (hv hvisited)
    dropped := fun hvisited => h.dropped (hv hvisited) }

/-- The loop visits the shards of its list. -/
theorem reconcileAll {shards : List (String × CollectionSchema × UInt32)}
    (hshards : ∀ schema', (collection, schema', shardIdx) ∈ shards →
      schema' = schema)
    (hcalm : p.world.Calm R collection shardIdx schema m) :
    p.Settles R xxh64 collection shardIdx schema me snapshot
      ((collection, schema, shardIdx) ∈ shards)
      (p.reconcileAll R xxh64 (.answering reading) me snapshot shards).1 := by
  induction shards generalizing p with
  | nil => exact (refl p).mono (by simp)
  | cons shard shards ih =>
      obtain ⟨c, s, i⟩ := shard
      have hrest (q : Pass) (hq : q.world.Calm R collection shardIdx schema
          m) := @ih q (fun s' hs' =>
        hshards s' (List.mem_cons_of_mem _ hs')) hq
      by_cases hkey : ({ collection := c, shardIdx := i } : ShardKey) =
          { collection, shardIdx }
      · obtain ⟨rfl, rfl⟩ := ShardKey.mk.inj hkey
        obtain rfl := hshards s List.mem_cons_self
        have hone := @reconcileShard R xxh64 c i s me snapshot p m reading
          hcalm
        exact (hone.trans (hrest _ (hone.calm hcalm))).mono fun _ =>
          .inl trivial
      · have hone := @of_handles R xxh64 collection shardIdx schema me snapshot
          p _ _ (@Handles.reconcileShard R xxh64 (.answering reading) me
            snapshot c s i p) hkey
        refine (hone.trans (hrest _ (hone.calm hcalm))).mono fun hmem => ?_
        rcases List.mem_cons.mp hmem with heq | hmem
        · simp only [Prod.mk.injEq] at heq
          exact absurd (by rw [heq.1, heq.2.2]) hkey
        · exact .inr hmem

end Pass.Settles

end Loop

end Quorvec
