import Quorvec.Node.Reconcile

/-!
# Reconcile passes in the steady state

In the steady state every replica of every shard is active and has its shard
open, and nothing else is open.  A pass takes a shard without a live point for
one that it lacks, and asks the log for a change; it leaves the others alone.
-/

namespace Quorvec

open LastWriterWins ByteCodec

/-- A shard has a length exactly if it holds a live point. -/
theorem Shard.len_pos_iff {s : Shard} (h : s.Valid) :
    0 < s.len ↔ ∃ id p, registers s.mem id = some p ∧ p.2.isSome := by
  have hfinite : {id | ∃ p, registers s.mem id = some p ∧ p.2.isSome}.Finite :=
    by
      refine (List.finite_toSet s.versions.keys).subset ?_
      rintro id ⟨p, hp, -⟩
      have hsome : (s.versions[id]?).isSome := by
        by_contra hnone
        rw [Option.not_isSome_iff_eq_none] at hnone
        simp [registers, mem, hnone] at hp
      exact Std.ExtTreeMap.mem_keys.mpr
        (Std.ExtTreeMap.mem_iff_isSome_getElem?.mpr hsome)
  rw [len_eq h, Set.ncard_pos hfinite]
  rfl

/-- A shard is open and has a live point. -/
def ShardSlot.Live (slot : ShardSlot) : Prop :=
  ∃ id p, slot.registers id = some p ∧ p.2.isSome

/-- Every replica is active and has the shard open, with the same records at
each; no other node has it open. -/
structure SteadyState (xxh64 : Bytes → UInt64) (snapshot : MetaState)
    (w : World) : Prop where
  metadata_eq : ∀ node, (w node).metadata = snapshot
  active : ∀ collection schema shardIdx,
    (collection, schema, shardIdx) ∈ snapshot.allShards →
      ∀ node ∈ snapshot.replicasForShard xxh64 collection shardIdx,
        snapshot.shardState collection shardIdx node = .active
  opened : ∀ collection schema shardIdx,
    (collection, schema, shardIdx) ∈ snapshot.allShards →
      ∀ node ∈ snapshot.replicasForShard xxh64 collection shardIdx,
        ∃ s, (w node).shards.slots { collection, shardIdx } = .opened s ∧
          s.Valid
  alone : ∀ collection schema shardIdx,
    (collection, schema, shardIdx) ∈ snapshot.allShards →
      ∀ node ∉ snapshot.replicasForShard xxh64 collection shardIdx,
        (w node).shards.hasShard collection shardIdx = false
  same : ∀ collection schema shardIdx,
    (collection, schema, shardIdx) ∈ snapshot.allShards →
      ∀ node ∈ snapshot.replicasForShard xxh64 collection shardIdx,
        ∀ node' ∈ snapshot.replicasForShard xxh64 collection shardIdx,
          ((w node).shards.slots { collection, shardIdx }).registers =
            ((w node').shards.slots { collection, shardIdx }).registers

section Passes

variable (R : Runtime) (xxh64 : Bytes → UInt64)

/-- Passes of nodes one after another: the nodes, the changes that were
requested, and the transfers. -/
def runPasses :
    List (ReconcileEnv × NodeId) → World → World × List MetaRequest × ℕ
  | [], w => (w, [], 0)
  | (env, me) :: passes, w =>
      match reconcileOnce R xxh64 env me w with
      | (p, n) =>
          match runPasses passes p.world with
          | (w, requested, transfers) =>
              (w, requested ++ p.requested, n + transfers)

/-- No pass of any node, in any order and number, transfers, requests or
changes anything. -/
def Quiescent (w : World) : Prop :=
  ∀ passes, runPasses R xxh64 passes w = (w, [], 0)

end Passes

/-! ## One pass -/

section Step

variable {R : Runtime} {xxh64 : Bytes → UInt64} {env : ReconcileEnv}
variable {me : NodeId} {snapshot : MetaState} {collection : String}
variable {schema : CollectionSchema} {shardIdx : UInt32} {p : Pass}

namespace Pass

theorem requested_shardLen :
    (p.shardLen R me collection schema shardIdx).1.requested =
      p.requested := by
  unfold shardLen
  split <;> rfl

theorem requested_setState (key : ShardKey) (state : ShardState) :
    (p.setState env me key state).1.requested =
      .setShardState key.collection key.shardIdx me state :: p.requested := by
  unfold setState
  split <;> rfl

/-- Acquiring a shard requests a change. -/
theorem requested_acquireShard :
    ∃ state, .setShardState collection shardIdx me state :: p.requested <:+
      (p.acquireShard R xxh64 env me snapshot collection schema
        shardIdx).1.requested := by
  unfold acquireShard
  split
  · refine ⟨.active, ?_⟩
    rw [requested_setState, requested_shardLen]
  · have hsyncing := @requested_setState env me p { collection, shardIdx }
      .syncing
    refine ⟨.syncing, ?_⟩
    split
    · next p' hset =>
        rw [hset] at hsyncing
        rw [hsyncing]
    · next p' hset =>
        rw [hset] at hsyncing
        rw [← hsyncing]
        split
        · exact List.suffix_refl _
        · rw [requested_setState]
          exact List.suffix_cons _ _

theorem requested_reconcileShard :
    p.requested <:+ (p.reconcileShard R xxh64 env me snapshot collection schema
      shardIdx).1.requested := by
  by_cases hme : me ∈ snapshot.replicasForShard xxh64 collection shardIdx
  · rw [reconcileShard_of_mem hme]
    split
    · exact List.suffix_refl _
    · obtain ⟨state, hreq⟩ := requested_acquireShard
      exact (List.suffix_cons _ _).trans hreq
  · simp only [reconcileShard, if_neg hme]
    split
    · exact List.suffix_refl _
    · exact List.suffix_refl _

theorem requested_reconcileAll
    (shards : List (String × CollectionSchema × UInt32)) (p : Pass) :
    p.requested <:+
      (p.reconcileAll R xxh64 env me snapshot shards).1.requested := by
  induction shards generalizing p with
  | nil => exact List.suffix_refl _
  | cons shard shards ih =>
      obtain ⟨collection, schema, shardIdx⟩ := shard
      exact requested_reconcileShard.trans (ih _)

end Pass

end Step

/-! ## In the steady state -/

section Steady

variable {R : Runtime} {xxh64 : Bytes → UInt64} {env : ReconcileEnv}
variable {me : NodeId} {snapshot : MetaState} {collection : String}
variable {schema : CollectionSchema} {shardIdx : UInt32} {p : Pass}

namespace SteadyState

/-- What is open in the steady state has a live point exactly if a pass finds
it materialized. -/
theorem materialized_iff {w : World} (h : SteadyState xxh64 snapshot w)
    (hshard : (collection, schema, shardIdx) ∈ snapshot.allShards)
    {node : NodeId}
    (hnode : node ∈ snapshot.replicasForShard xxh64 collection shardIdx) :
    ((w node).shards.slots { collection, shardIdx }).materialized = true ↔
      ((w node).shards.slots { collection, shardIdx }).Live := by
  obtain ⟨s, hslot, hvalid⟩ := h.opened _ _ _ hshard node hnode
  rw [hslot, ShardSlot.materialized, decide_eq_true_eq]
  exact Shard.len_pos_iff hvalid

/-- The pass leaves a shard with a live point alone, and a shard of other
nodes. -/
theorem reconcileShard_eq (h : SteadyState xxh64 snapshot p.world)
    (hshard : (collection, schema, shardIdx) ∈ snapshot.allShards)
    (hlive : me ∈ snapshot.replicasForShard xxh64 collection shardIdx →
      ((p.world me).shards.slots { collection, shardIdx }).Live) :
    p.reconcileShard R xxh64 env me snapshot collection schema shardIdx =
      (p, 0) := by
  by_cases hme : me ∈ snapshot.replicasForShard xxh64 collection shardIdx
  · have hactive := h.active _ _ _ hshard me hme
    have hmaterialized := (h.materialized_iff hshard hme).mpr (hlive hme)
    rw [Pass.reconcileShard_of_mem hme, if_pos ⟨hactive, hmaterialized⟩]
  · have hhold := h.alone _ _ _ hshard me hme
    simp [Pass.reconcileShard, hme, hhold]

theorem requested_of_not_live (h : SteadyState xxh64 snapshot p.world)
    (hshard : (collection, schema, shardIdx) ∈ snapshot.allShards)
    (hme : me ∈ snapshot.replicasForShard xxh64 collection shardIdx)
    (hlive : ¬ ((p.world me).shards.slots
      { collection, shardIdx }).Live) :
    (p.reconcileShard R xxh64 env me snapshot collection schema
      shardIdx).1.requested ≠ [] := by
  obtain ⟨state, hreq⟩ := Pass.requested_acquireShard (R := R) (p := p)
  rw [Pass.reconcileShard_of_mem hme,
    if_neg fun hboth => hlive ((h.materialized_iff hshard hme).mp hboth.2)]
  intro hnone
  rw [hnone] at hreq
  simp at hreq

/-- A pass over shards with live points does nothing. -/
theorem reconcileAll_eq (h : SteadyState xxh64 snapshot p.world)
    {shards : List (String × CollectionSchema × UInt32)}
    (hshards : shards ⊆ snapshot.allShards)
    (hlive : ∀ collection schema shardIdx,
      (collection, schema, shardIdx) ∈ shards →
        me ∈ snapshot.replicasForShard xxh64 collection shardIdx →
        ((p.world me).shards.slots { collection, shardIdx }).Live) :
    p.reconcileAll R xxh64 env me snapshot shards = (p, 0) := by
  induction shards with
  | nil => rfl
  | cons shard shards ih =>
      obtain ⟨collection, schema, shardIdx⟩ := shard
      have hstep := @reconcileShard_eq R xxh64 env me snapshot collection
        schema shardIdx p h (hshards List.mem_cons_self)
        (hlive _ _ _ List.mem_cons_self)
      have hrest := ih (fun x hx => hshards (List.mem_cons_of_mem _ hx))
        fun c s i hmem => hlive c s i (List.mem_cons_of_mem _ hmem)
      simp only [Pass.reconcileAll, hstep, hrest, zero_add]

/-- A pass that requests nothing has found a live point in each of its
shards. -/
theorem live_of_requested (h : SteadyState xxh64 snapshot p.world)
    {shards : List (String × CollectionSchema × UInt32)}
    (hshards : shards ⊆ snapshot.allShards)
    (hnone : (p.reconcileAll R xxh64 env me snapshot shards).1.requested = [])
    (hshard : (collection, schema, shardIdx) ∈ shards)
    (hme : me ∈ snapshot.replicasForShard xxh64 collection shardIdx) :
    ((p.world me).shards.slots { collection, shardIdx }).Live := by
  induction shards with
  | nil => simp at hshard
  | cons shard shards ih =>
      obtain ⟨c, s, i⟩ := shard
      by_cases hlive : me ∈ snapshot.replicasForShard xxh64 c i →
          ((p.world me).shards.slots ⟨c, i⟩).Live
      · rcases List.mem_cons.mp hshard with heq | hshard
        · simp only [Prod.mk.injEq] at heq
          obtain ⟨rfl, rfl, rfl⟩ := heq
          exact hlive hme
        · have hstep := @reconcileShard_eq R xxh64 env me snapshot c s i p h
            (hshards List.mem_cons_self) hlive
          apply ih (fun x hx => hshards (List.mem_cons_of_mem _ hx)) _ hshard
          simpa only [Pass.reconcileAll, hstep] using hnone
      · exfalso
        obtain ⟨hmember, hdead⟩ := Classical.not_imp.mp hlive
        have hasked := @requested_of_not_live R xxh64 env me snapshot c s i p h
          (hshards List.mem_cons_self) hmember hdead
        have hsuffix := @Pass.requested_reconcileAll R xxh64 env me snapshot
          shards (p.reconcileShard R xxh64 env me snapshot c s i).1
        simp only [Pass.reconcileAll] at hnone
        rw [hnone] at hsuffix
        exact hasked (List.suffix_nil.mp hsuffix)

theorem live_of_quiescent {w : World} (h : SteadyState xxh64 snapshot w)
    (hquiet : Quiescent R xxh64 w)
    (hshard : (collection, schema, shardIdx) ∈ snapshot.allShards)
    (hme : me ∈ snapshot.replicasForShard xxh64 collection shardIdx) :
    ((w me).shards.slots { collection, shardIdx }).Live := by
  let env : ReconcileEnv :=
    { change := fun _ _ => .refused, reaches := fun _ => false
      reading := fun _ => 0 }
  have hpass := congrArg (fun out => out.2.1) (hquiet [(env, me)])
  simp only [runPasses, List.nil_append, reconcileOnce, h.metadata_eq me]
    at hpass
  exact live_of_requested h (List.Subset.refl _) hpass hshard hme

end SteadyState

/-- In the steady state passes do nothing exactly if every replica of every
shard has a live point. -/
theorem quiescent_iff (R : Runtime) {xxh64 : Bytes → UInt64}
    {snapshot : MetaState} {w : World} (h : SteadyState xxh64 snapshot w) :
    Quiescent R xxh64 w ↔ ∀ collection schema shardIdx,
      (collection, schema, shardIdx) ∈ snapshot.allShards →
        ∀ node ∈ snapshot.replicasForShard xxh64 collection shardIdx,
          ((w node).shards.slots { collection, shardIdx }).Live := by
  constructor
  · intro hquiet collection schema shardIdx hshard node hnode
    exact h.live_of_quiescent hquiet hshard hnode
  · intro hlive passes
    induction passes with
    | nil => rfl
    | cons pass passes ih =>
        obtain ⟨env, me⟩ := pass
        have hpass : reconcileOnce R xxh64 env me w =
            ({ world := w, requested := [], committed := [] }, 0) := by
          rw [reconcileOnce, h.metadata_eq me]
          exact h.reconcileAll_eq (List.Subset.refl _)
            fun c s i hshard hme => hlive c s i hshard me hme
        simp only [runPasses, hpass, ih]
        rfl

end Steady

/-! ## A shard without points -/

section Empty

/-- One node, and one collection of one shard. -/
def soleMeta : MetaState where
  nodes := (∅ : Std.ExtTreeMap NodeId String).insert 1 "a"
  collections := (∅ : Std.ExtTreeMap String CollectionSchema).insert "c"
    { dim := 1, metric := .l2, shardCount := 1, replicationN := 1 }
  shardStates := ∅

theorem allShards_soleMeta : soleMeta.allShards = [("c",
    { dim := 1, metric := .l2, shardCount := 1, replicationN := 1 }, 0)] := by
  decide +kernel

/-- The only node has this shard open. -/
def soleWorld (s : Shard) : World := fun node =>
  { metadata := soleMeta
    shards := if node = 1 then
        (ShardStore.new 0 0).put { collection := "c", shardIdx := 0 }
          (.opened s)
      else ShardStore.new 0 0
    clock := Hlc.zero
    hintLog := none }

variable {xxh64 : Bytes → UInt64} {s : Shard}

theorem slots_soleWorld (s : Shard) :
    (soleWorld s 1).shards.slots { collection := "c", shardIdx := 0 } =
      .opened s := ShardStore.slots_put_self _ _

theorem mem_replicas_soleMeta (node : NodeId) :
    node ∈ soleMeta.replicasForShard xxh64 "c" 0 ↔ node = 1 := by
  rw [@MetaState.mem_replicas_iff xxh64 soleMeta "c" 0
    { dim := 1, metric := .l2, shardCount := 1, replicationN := 1 }
    (by decide +kernel) (by decide +kernel)]
  rw [soleMeta, Std.ExtTreeMap.mem_insert, Std.compare_eq_iff_eq]
  simp [eq_comm]

theorem steadyState_soleWorld (hvalid : s.Valid) :
    SteadyState xxh64 soleMeta (soleWorld s) := by
  have hshards : ∀ collection schema shardIdx,
      (collection, schema, shardIdx) ∈ soleMeta.allShards →
        collection = "c" ∧ shardIdx = 0 := by
    intro collection schema shardIdx hmem
    rw [allShards_soleMeta] at hmem
    simp only [List.mem_singleton, Prod.mk.injEq] at hmem
    exact ⟨hmem.1, hmem.2.2⟩
  constructor
  · exact fun node => rfl
  · intro collection schema shardIdx hmem node _
    rfl
  · intro collection schema shardIdx hmem node hnode
    obtain ⟨rfl, rfl⟩ := hshards _ _ _ hmem
    obtain rfl := (mem_replicas_soleMeta node).mp hnode
    exact ⟨s, slots_soleWorld s, hvalid⟩
  · intro collection schema shardIdx hmem node hnode
    obtain ⟨rfl, rfl⟩ := hshards _ _ _ hmem
    have hne : node ≠ 1 := mt (mem_replicas_soleMeta node).mpr hnode
    simp [soleWorld, hne, ShardStore.hasShard, ShardStore.new]
  · intro collection schema shardIdx hmem node hnode node' hnode'
    obtain ⟨rfl, rfl⟩ := hshards _ _ _ hmem
    rw [(mem_replicas_soleMeta node).mp hnode,
      (mem_replicas_soleMeta node').mp hnode']

namespace TwoReplicas

def schema : CollectionSchema where
  dim := 1
  metric := .l2
  shardCount := 2
  replicationN := 2

/-- Two nodes, both replicas of the two shards of a collection. -/
def metadata : MetaState where
  nodes := (∅ : Std.ExtTreeMap NodeId String).insert 1 "a" |>.insert 2 "b"
  collections := (∅ : Std.ExtTreeMap String CollectionSchema).insert "c" schema
  shardStates := ∅

/-- Both have both shards open. -/
def world (s : Shard) : World := fun node =>
  { metadata
    shards := if node = 1 ∨ node = 2 then
        ((ShardStore.new 0 0).put { collection := "c", shardIdx := 0 }
          (.opened s)).put { collection := "c", shardIdx := 1 } (.opened s)
      else ShardStore.new 0 0
    clock := Hlc.zero
    hintLog := none }

theorem shards_eq {collection : String} {schema' : CollectionSchema}
    {shardIdx : UInt32}
    (h : (collection, schema', shardIdx) ∈ metadata.allShards) :
    collection = "c" ∧ (shardIdx = 0 ∨ shardIdx = 1) := by
  have hall : metadata.allShards = [("c", schema, 0), ("c", schema, 1)] := by
    decide +kernel
  rw [hall] at h
  simp only [List.mem_cons, List.not_mem_nil, or_false, Prod.mk.injEq] at h
  obtain ⟨rfl, -, rfl⟩ | ⟨rfl, -, rfl⟩ := h
  · exact ⟨rfl, .inl rfl⟩
  · exact ⟨rfl, .inr rfl⟩

theorem mem_replicas (shardIdx : UInt32) (node : NodeId) :
    node ∈ metadata.replicasForShard xxh64 "c" shardIdx ↔
      node = 1 ∨ node = 2 := by
  have hknown : metadata.collections["c"]? = some schema := by decide +kernel
  rw [MetaState.mem_replicas_iff hknown (by decide +kernel), metadata,
    Std.ExtTreeMap.mem_insert, Std.compare_eq_iff_eq,
    Std.ExtTreeMap.mem_insert, Std.compare_eq_iff_eq]
  simp [eq_comm, or_comm]

theorem slots_world {shardIdx : UInt32} (hidx : shardIdx = 0 ∨ shardIdx = 1)
    {node : NodeId} (hnode : node = 1 ∨ node = 2) :
    (world s node).shards.slots { collection := "c", shardIdx } =
      .opened s := by
  rw [world, if_pos hnode]
  rcases hidx with rfl | rfl
  · exact (ShardStore.slots_put_of_ne (by decide) _).trans
      (ShardStore.slots_put_self _ _)
  · exact ShardStore.slots_put_self _ _

theorem steadyState_world (hvalid : s.Valid) :
    SteadyState xxh64 metadata (world s) := by
  constructor
  · exact fun node => rfl
  · intro collection schema' shardIdx hmem node _
    rfl
  · intro collection schema' shardIdx hmem node hnode
    obtain ⟨rfl, hidx⟩ := shards_eq hmem
    exact ⟨s, slots_world hidx ((mem_replicas _ _).mp hnode), hvalid⟩
  · intro collection schema' shardIdx hmem node hnode
    obtain ⟨rfl, -⟩ := shards_eq hmem
    have hne : ¬ (node = 1 ∨ node = 2) := mt (mem_replicas _ _).mpr hnode
    rw [world, if_neg hne]
    rfl
  · intro collection schema' shardIdx hmem node hnode node' hnode'
    obtain ⟨rfl, hidx⟩ := shards_eq hmem
    rw [slots_world hidx ((mem_replicas _ _).mp hnode),
      slots_world hidx ((mem_replicas _ _).mp hnode')]

end TwoReplicas

open TwoReplicas in
/-- With a point in both of their shards two replicas are quiet. -/
theorem quiescent_iff_pair :
    ∃ s, Quiescent .constant (fun _ => 0) (world s) := by
  obtain ⟨s, -, hvalid, hdim, hempty⟩ :=
    @Shard.open_empty_returns .constant 1 (by decide) .l2 0 0
  let call : ShardCall := .upsert (Hlc.new 1 0) 7 [0] []
  have hstep := @Shard.apply_stepped .constant s hvalid call (by
    intro v hv
    rw [hdim, ← Option.some.inj hv]
    rfl)
  refine ⟨(call.apply .constant s).1, ?_⟩
  rw [quiescent_iff .constant (steadyState_world hstep.valid)]
  intro collection schema' shardIdx hmem node hnode
  obtain ⟨rfl, hidx⟩ := shards_eq hmem
  rw [slots_world hidx ((mem_replicas _ _).mp hnode)]
  refine ⟨7, (Hlc.new 1 0, some [0]), ?_, rfl⟩
  show registers (call.apply .constant s).1.mem 7 = _
  rw [hstep.registers_eq, hempty]
  rfl

/-- The sole replica of a new collection asks the log for a change in every
pass. -/
theorem not_quiescent : ¬ ∃ R xxh64, ∀ snapshot w,
    SteadyState xxh64 snapshot w → Quiescent R xxh64 w := by
  rintro ⟨R, xxh64, hall⟩
  obtain ⟨s, -, hvalid, -, hempty⟩ :=
    @Shard.open_empty_returns R 1 (by decide) .l2 0 0
  have hsteady := @steadyState_soleWorld xxh64 s hvalid
  obtain ⟨id, p, hp, -⟩ := hsteady.live_of_quiescent (hall _ _ hsteady)
    (allShards_soleMeta ▸ List.mem_singleton_self _)
    ((mem_replicas_soleMeta 1).mpr rfl)
  rw [slots_soleWorld] at hp
  simp [ShardSlot.registers, hempty] at hp

end Empty

end Quorvec
