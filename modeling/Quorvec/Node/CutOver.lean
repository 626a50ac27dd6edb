import Quorvec.Node.KeptSlot
import Quorvec.Node.OpenedSlot
import Quorvec.Node.Reconcile

/-!
# Cutting over after a transfer

A source that has a shard on disk only, or not at all, answers a transfer with
no records, as a source does whose shard is empty.  The target pulls from the
first source that answers, and becomes active then.
-/

namespace Quorvec

open LastWriterWins ByteCodec

/-! ## Applying the records -/

namespace NodeState

variable {R : Runtime} {collection : String} {shardIdx : UInt32}
variable {schema : CollectionSchema}

/-- A record that is applied is an offer to the shard, open or not. -/
theorem pullRecord_of_serves {s : NodeState} {held : Shard}
    (hdim : 0 < schema.dim.toNat)
    (hserves : ShardStore.Serves R s.shards
      (shardRef collection shardIdx schema) held)
    (hvalid : held.Valid) (hdimEq : held.dim = schema.dim.toNat)
    (reading : ℕ) {row : Shard.ShardRecordRow}
    (hvector : ∀ v, row.written.2 = some v → v.length = schema.dim.toNat) :
    ∃ s' out after, s.pullRecord R reading collection shardIdx schema row =
        (s', .ok out) ∧
      ShardStore.Serves R s'.shards (shardRef collection shardIdx schema)
        after ∧
      after.Valid ∧ after.dim = schema.dim.toNat ∧
      registers after.mem =
        deliverWith offer (registers held.mem) (row.id, row.written) := by
  let key : ShardKey := { collection, shardIdx }
  let ready : NodeState :=
    { s with shards := s.shards.put key (.opened held) }
  have hslot : ready.shards.slots key = .opened held :=
    ShardStore.slots_put_self _ _
  have hcontent : contentOf (row.request collection shardIdx).op row.vector =
      row.written.2 :=
    congrArg Prod.snd (row.written_request collection shardIdx)
  have hready : s.pullRecord R reading collection shardIdx schema row =
      ready.pullRecord R reading collection shardIdx schema row := by
    have hwrite := @ShardStore.write_put_of_serves R s.shards _ held
      (row.request collection shardIdx).op row.hlc row.id row.vector []
      hserves (hcontent ▸ hvector)
    rw [pullRecord_eq, pullRecord_eq, ← hwrite]
    rfl
  obtain ⟨shards, hpull, hslotValid, hreg, -⟩ :=
    @pullRecord_of_valid R ready collection shardIdx schema hdim
      (hslot ▸ .opened hvalid hdimEq) reading row hvector
  obtain ⟨after, hafter, hafterValid, hafterDim, hafterReg⟩ :=
    @ShardStore.serves_of_valid shards (shardRef collection shardIdx schema) R
      hdim hslotValid
  refine ⟨_, _, after, hready.trans hpull, hafter, hafterValid, hafterDim, ?_⟩
  rw [hafterReg]
  exact hreg.trans (by rw [hslot]; rfl)

end NodeState

/-! ## Which source is pulled from -/

/-- A source answers: the call arrives, and the collection is known there. -/
def answers (env : ReconcileEnv) (w : World) (collection : String)
    (source : NodeId × String) : Bool :=
  env.reaches source.1 &&
    ((w source.1).metadata.collections[collection]?).isSome

section Transfer

variable (R : Runtime) (xxh64 : Bytes → UInt64) (env : ReconcileEnv)
variable (me : NodeId) (snapshot : MetaState) (collection : String)
variable (schema : CollectionSchema) (shardIdx : UInt32) (p : Pass)

end Transfer

section Acquire

variable {R : Runtime} {xxh64 : Bytes → UInt64} {env : ReconcileEnv}
variable {me : NodeId} {snapshot : MetaState} {collection : String}
variable {schema : CollectionSchema} {shardIdx : UInt32} {p : Pass}
variable {w : World} {held : Shard} {source : NodeId × String}

end Acquire

/-! ## A source that has restarted -/

section Restarted

/-- A node to which everything happens at once and as it asks. -/
def ReconcileEnv.calm : ReconcileEnv where
  change _ _ := .committed
  reaches _ := true
  reading _ := 0

def pairSchema : CollectionSchema :=
  { dim := 1, metric := .l2, shardCount := 1, replicationN := 2 }

/-- Two nodes, and one collection of one shard on both. -/
def pairMeta : MetaState where
  nodes := ((∅ : Std.ExtTreeMap NodeId String).insert 1 "a").insert 2 "b"
  collections :=
    (∅ : Std.ExtTreeMap String CollectionSchema).insert "c" pairSchema
  shardStates := ∅

/-- The nodes with these shards. -/
def pairWorld (first second : ShardStore) : World := fun node =>
  { metadata := pairMeta
    shards := if node = 1 then first else second
    clock := Hlc.zero
    hintLog := none }

/-- A node that has taken one point. -/
def onePoint (R : Runtime) : ShardStore :=
  ((ShardStore.new 0 0).write R (shardRef "c" 0 pairSchema)
    ShardStore.opUpsert (Hlc.new 1 0) 7 [0] []).1

variable {R : Runtime} {xxh64 : Bytes → UInt64}

/-- Each of the two nodes has the other one as its source. -/
theorem transferSources_pair {me other : NodeId} {addr : String}
    (hother : ∀ node, (node = 1 ∨ node = 2) ∧ node ≠ me ↔ node = other)
    (haddr : pairMeta.nodes[other]? = some addr) :
    transferSources xxh64 pairMeta me "c" 0 = [(other, addr)] := by
  have hothers : (pairMeta.replicasForShard xxh64 "c" 0).filter
      (fun id => id ≠ me) = [other] := by
    apply List.perm_singleton.mp
    rw [List.perm_ext_iff_of_nodup (MetaState.replicas_nodup.filter _)
      (List.nodup_singleton other)]
    intro node
    rw [List.mem_filter, @MetaState.mem_replicas_iff xxh64 pairMeta "c" 0
      pairSchema (by decide +kernel) (by decide +kernel), pairMeta,
      Std.ExtTreeMap.mem_insert, Std.ExtTreeMap.mem_insert,
      Std.compare_eq_iff_eq, Std.compare_eq_iff_eq, List.mem_singleton,
      ← hother]
    simp only [Std.ExtTreeMap.not_mem_empty, false_or, decide_eq_true_eq,
      eq_comm (b := node), or_comm]
  have hactive : pairMeta.shardState "c" 0 other = .active := rfl
  simp only [transferSources, hothers, hactive, decide_true,
    List.filter_cons_of_pos, List.filter_nil, List.filterMap_cons, haddr,
    Option.map_some, List.filterMap_nil]

theorem transferSources_pairMeta_second :
    transferSources xxh64 pairMeta 2 "c" 0 = [(1, "a")] := by
  refine transferSources_pair (fun node => ?_) (by decide +kernel)
  constructor
  · rintro ⟨rfl | rfl, hne⟩
    · rfl
    · exact absurd rfl hne
  · rintro rfl
    exact ⟨.inl rfl, by decide⟩

/-- What it holds. -/
def onePointRegs : Registers :=
  deliverWith offer (fun _ => none) (7, Hlc.new 1 0, some [0])

/-- The shard is open, and keeps the point. -/
theorem exists_onePoint (R : Runtime) : ∃ s : Shard,
    (onePoint R).slots { collection := "c", shardIdx := 0 } = .opened s ∧
      s.Keeps R 1 .l2 onePointRegs := by
  have hblank : ((ShardStore.new 0 0).slots
      (shardRef "c" 0 pairSchema).key).Keeps R
        (shardRef "c" 0 pairSchema).dim (shardRef "c" 0 pairSchema).metric
        fun _ => none :=
    ShardSlot.blank_unused 1 .l2 (by decide)
  have hfits : (ShardStore.callOf ShardStore.opUpsert (Hlc.new 1 0) 7 [0]
      []).record.FitsFrame := by
    simp [ShardStore.callOf, ShardStore.opUpsert, ShardStore.opDelete,
      ShardCall.record, WalRecord.ofUpsert, WalRecord.FitsFrame,
      WalRecord.length_encodeBody]
  have hvector : ∀ v, contentOf ShardStore.opUpsert [0] = some v →
      v.length = (shardRef "c" 0 pairSchema).dim := by
    intro v hv
    rw [← Option.some.inj hv]
    rfl
  have hkeeps := ShardStore.write_keeps_offer hblank hfits hvector
  obtain ⟨s, -, haccess⟩ := ShardStore.access_of_keeps hblank fun s =>
    (ShardStore.callOf ShardStore.opUpsert (Hlc.new 1 0) 7 [0] []).apply R s
  have hslot : (onePoint R).slots { collection := "c", shardIdx := 0 } =
      .opened ((ShardStore.callOf ShardStore.opUpsert (Hlc.new 1 0) 7 [0]
        []).apply R s).1 := by
    rw [onePoint, ShardStore.write_eq_access hvector, haccess]
    exact ShardStore.slots_put_self _ _
  refine ⟨_, hslot, ?_⟩
  rw [← onePoint] at hkeeps
  have hopened : (ShardSlot.opened _).Keeps R 1 .l2 _ := hslot ▸ hkeeps
  exact hopened

theorem exists_onePoint_dropped (R : Runtime) : ∃ s : Shard,
    ((onePoint R).dropShard "c" 0).slots { collection := "c", shardIdx := 0 } =
      .closed s.close ∧ s.Keeps R 1 .l2 onePointRegs := by
  obtain ⟨s, hslot, hkeeps⟩ := exists_onePoint R
  refine ⟨s, ?_, hkeeps⟩
  simp only [ShardStore.dropShard, hslot]
  exact ShardStore.slots_put_self _ _

end Restarted

end Quorvec
