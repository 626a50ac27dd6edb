import Quorvec.Cluster.Clockwise
import Quorvec.Cluster.Overrides
import Quorvec.Node.Router

/-!
# The shard map

What the cluster reports about its shards is recomputed from the metadata, as
the routes of the coordinators are.  When every collection has come through
`create_collection`, every point has a shard on the map, with as many replicas
as it should have, and the replicas on the map are the ones it is routed to.
-/

namespace Quorvec

open ByteCodec

/-- One replica on the shard map. -/
structure ShardAssignment where
  collection : String
  shardIdx : UInt32
  nodeId : NodeId
  state : ShardState
deriving DecidableEq

namespace MetaState

variable (xxh64 : Bytes → UInt64)

/-- The replicas of one shard. -/
def assignments (s : MetaState) (name : String) (schema : CollectionSchema)
    (shardIdx : UInt32) : List ShardAssignment :=
  ((s.ring xxh64).replicasForShard xxh64 name shardIdx
      schema.replicationN).map fun nodeId =>
    { collection := name, shardIdx, nodeId
      state := s.shardState name shardIdx nodeId }

/-- Every replica of every shard, with its state. -/
def shardMap (s : MetaState) : List ShardAssignment :=
  s.collections.toList.flatMap fun (name, schema) =>
    (List.range schema.shardCount.toNat).flatMap fun i =>
      s.assignments xxh64 name schema (UInt32.ofNat i)

end MetaState

/-! ## Creating a collection -/

/-- `metric_from_proto`; every other code is `Unspecified`. -/
def metricFromProto (m : ℤ) : Except String Metric :=
  if m = 1 then .ok .l2
  else if m = 2 then .ok .cosine
  else .error "metric must be L2 or COSINE"

/-- Zeros stand for the defaults. -/
def schemaWithDefaults (dim : UInt32) (metric : Metric)
    (shardCount replicationN : UInt32) : CollectionSchema where
  dim := dim
  metric := metric
  shardCount := if shardCount = 0 then 8 else shardCount
  replicationN := if replicationN = 0 then 3 else replicationN

structure CreateCollectionRequest where
  name : String
  dim : UInt32
  metric : ℤ
  shardCount : UInt32
  replicationN : UInt32

/-- What `create_collection` asks of the log, or the text of its refusal. -/
def CreateCollectionRequest.proposal (req : CreateCollectionRequest) :
    Except String MetaRequest :=
  if req.name = "" then .error "collection name is empty"
  else if req.dim = 0 then .error "dim must be > 0"
  else do
    let metric ← metricFromProto req.metric
    return .createCollection req.name
      (schemaWithDefaults req.dim metric req.shardCount req.replicationN)

/-- What the services ask of the log. -/
def Served : MetaRequest → Prop
  | .createCollection name schema => ∃ req : CreateCollectionRequest,
      req.proposal = .ok (.createCollection name schema)
  | _ => True

/-- A schema that `create_collection` lets through. -/
structure CollectionSchema.Complete (name : String)
    (schema : CollectionSchema) : Prop where
  name_ne : name ≠ ""
  dim_pos : 0 < schema.dim
  shardCount_pos : 0 < schema.shardCount
  replicationN_pos : 0 < schema.replicationN

def MetaState.Complete (s : MetaState) : Prop :=
  ∀ (name : String) schema, s.collections[name]? = some schema →
    schema.Complete name

theorem complete_of_proposal {req : CreateCollectionRequest} {name : String}
    {schema : CollectionSchema}
    (h : req.proposal = .ok (.createCollection name schema)) :
    schema.Complete name := by
  rw [CreateCollectionRequest.proposal] at h
  by_cases hname : req.name = ""
  · rw [if_pos hname] at h
    simp at h
  · by_cases hdim : req.dim = 0
    · rw [if_neg hname, if_pos hdim] at h
      simp at h
    · rw [if_neg hname, if_neg hdim] at h
      rcases hmetric : metricFromProto req.metric with e | metric
      · rw [hmetric] at h
        simp [bind, Except.bind] at h
      · rw [hmetric] at h
        simp only [bind, Except.bind, pure, Except.pure, Except.ok.injEq,
          MetaRequest.createCollection.injEq] at h
        obtain ⟨rfl, rfl⟩ := h
        have hpos {a b : UInt32} (hb : 0 < b) :
            0 < if a = 0 then b else a := by
          split_ifs with ha
          · exact hb
          · exact UInt32.pos_iff_ne_zero.mpr ha
        exact ⟨hname, UInt32.pos_iff_ne_zero.mpr hdim, hpos (by decide),
          hpos (by decide)⟩

namespace MetaState

variable {s : MetaState}

/-- A request of the services keeps the schemas complete. -/
theorem Complete.apply (h : s.Complete) {req : MetaRequest}
    (hreq : Served req) : (s.apply req).1.Complete := by
  intro name schema hschema
  cases req with
  | createCollection name' schema' =>
      obtain ⟨create, hcreate⟩ := hreq
      rw [MetaState.apply] at hschema
      split at hschema
      · exact h name schema hschema
      · rw [Std.ExtTreeMap.getElem?_insert] at hschema
        split at hschema
        · next hsame =>
            obtain rfl := Std.compare_eq_iff_eq.mp hsame
            obtain rfl := Option.some.inj hschema
            exact complete_of_proposal hcreate
        · exact h name schema hschema
  | dropCollection name' =>
      rw [MetaState.apply, Std.ExtTreeMap.getElem?_erase] at hschema
      split at hschema
      · simp at hschema
      · exact h name schema hschema
  | registerNode => exact h name schema hschema
  | deregisterNode => exact h name schema hschema
  | setShardState => exact h name schema hschema
  | noop => exact h name schema hschema

theorem Applied.complete (h : Applied (fun _ => Served) s) : s.Complete := by
  induction h with
  | empty =>
      intro name schema hschema
      simp [MetaState.empty] at hschema
  | apply req _ hreq ih => exact ih.apply hreq

/-! ## Routing by the map -/

variable {xxh64 : Bytes → UInt64} {name : String} {schema : CollectionSchema}
variable {shardIdx : UInt32}

/-- The replicas of a shard that are on the map. -/
def mapped (xxh64 : Bytes → UInt64) (s : MetaState) (name : String)
    (shardIdx : UInt32) : List ShardAssignment :=
  (s.shardMap xxh64).filter fun a =>
    a.collection = name ∧ a.shardIdx = shardIdx

variable (xxh64) in
/-- The map is what requests are routed by. -/
structure MapsShards (s : MetaState) : Prop where
  complete : s.Complete
  /-- Only replicas of shards that exist are on the map. -/
  assigned : ∀ a ∈ s.shardMap xxh64, ∃ schema : CollectionSchema,
    s.collections[a.collection]? = some schema ∧
      a.shardIdx < schema.shardCount ∧ a.nodeId ∈ s.nodes ∧
        a.state = s.shardState a.collection a.shardIdx a.nodeId
  /-- Each shard has as many replicas as it can have, all different, and they
  are the routes of writes; the active ones are the routes of searches. -/
  routes : ∀ (name : String) (schema : CollectionSchema) shardIdx,
    s.collections[name]? = some schema → shardIdx < schema.shardCount →
      (s.mapped xxh64 name shardIdx).length =
          min schema.replicationN.toNat s.nodes.size ∧
        ((s.mapped xxh64 name shardIdx).map ShardAssignment.nodeId).Nodup ∧
        (replicasWithAddrs xxh64 s name shardIdx).map Prod.fst =
          (s.mapped xxh64 name shardIdx).map ShardAssignment.nodeId ∧
        (activeReplicasWithAddrs xxh64 s name shardIdx).map Prod.fst =
          ((s.mapped xxh64 name shardIdx).filter fun a =>
            a.state = .active).map ShardAssignment.nodeId
  /-- The shard of a point is on the map. -/
  points : ∀ (name : String) (schema : CollectionSchema) id,
    s.collections[name]? = some schema →
      shardForId xxh64 id schema.shardCount < schema.shardCount

theorem flatMap_eq_of_unique {α β : Type} {l : List α} (hnodup : l.Nodup)
    {a : α} (ha : a ∈ l) {g : α → List β} (h : ∀ b ∈ l, b ≠ a → g b = []) :
    l.flatMap g = g a := by
  induction l with
  | nil => simp at ha
  | cons b l ih =>
      rw [List.nodup_cons] at hnodup
      rw [List.flatMap_cons]
      rcases List.mem_cons.mp ha with rfl | hmem
      · have hrest : l.flatMap g = [] :=
          List.flatMap_eq_nil_iff.mpr fun c hc =>
            h c (List.mem_cons_of_mem _ hc) fun hsame => hnodup.1 (hsame ▸ hc)
        rw [hrest, List.append_nil]
      · rw [h b List.mem_cons_self fun hsame => hnodup.1 (hsame ▸ hmem),
          List.nil_append]
        exact ih hnodup.2 hmem fun c hc => h c (List.mem_cons_of_mem _ hc)

theorem nodup_collections (s : MetaState) : s.collections.toList.Nodup := by
  have hkeys := @Std.ExtTreeMap.distinct_keys_toList _ _ _ s.collections _
  refine hkeys.imp fun {a b} hne hsame => hne ?_
  rw [hsame]
  exact Std.ReflCmp.compare_self

/-- The part of the map about a shard. -/
theorem mapped_eq (hschema : s.collections[name]? = some schema)
    (hidx : shardIdx < schema.shardCount) :
    s.mapped xxh64 name shardIdx =
      s.assignments xxh64 name schema shardIdx := by
  have hmem := Std.ExtTreeMap.mem_toList_iff_getElem?_eq_some.mpr hschema
  have hlt : shardIdx.toNat < schema.shardCount.toNat :=
    UInt32.lt_iff_toNat_lt.mp hidx
  have hall (name' : String) (schema' : CollectionSchema) (idx : UInt32)
      (hne : ¬ (name' = name ∧ idx = shardIdx)) :
      (s.assignments xxh64 name' schema' idx).filter
        (fun a => a.collection = name ∧ a.shardIdx = shardIdx) = [] := by
    rw [List.filter_eq_nil_iff]
    intro a ha
    obtain ⟨node, -, rfl⟩ := List.mem_map.mp ha
    simpa using fun hname hsame => hne ⟨hname, hsame⟩
  rw [mapped, shardMap, List.filter_flatMap,
    flatMap_eq_of_unique s.nodup_collections hmem, List.filter_flatMap,
    flatMap_eq_of_unique List.nodup_range (List.mem_range.mpr hlt)]
  · rw [UInt32.ofNat_toNat, List.filter_eq_self]
    intro a ha
    obtain ⟨node, -, rfl⟩ := List.mem_map.mp ha
    simp
  · intro i hi hne
    refine hall name schema _ fun hsame => hne ?_
    have hsmall := (List.mem_range.mp hi).trans
      schema.shardCount.toNat_lt_size
    rw [← hsame.2, UInt32.toNat_ofNat_of_lt' hsmall]
  · rintro ⟨name', schema'⟩ hmem' hne
    rw [Std.ExtTreeMap.mem_toList_iff_getElem?_eq_some] at hmem'
    rw [List.filter_flatMap, List.flatMap_eq_nil_iff]
    refine fun i _ => hall name' schema' _ fun hsame => hne ?_
    rw [hsame.1] at hmem'
    rw [hsame.1, Option.some.inj (hmem'.symm.trans hschema)]

theorem length_replicas (hschema : s.collections[name]? = some schema)
    (hn : 0 < schema.replicationN) :
    (s.replicasForShard xxh64 name shardIdx).length =
      min schema.replicationN.toNat s.nodes.size := by
  have hn' : 1 ≤ schema.replicationN := by
    rw [UInt32.le_iff_toNat_le, UInt32.toNat_one]
    exact UInt32.lt_iff_toNat_lt.mp hn
  have hperm := @Ring.perm_clockwiseNodes xxh64 s.nodes.keys defaultVnodes
    Std.ExtTreeMap.nodup_keys (by decide)
    (Ring.homePosition xxh64 name shardIdx)
  rw [replicasForShard, hschema]
  show ((s.ring xxh64).replicasForShard xxh64 name shardIdx
    schema.replicationN).length = _
  rw [ring, Ring.replicasForShard_eq hn' (by decide), List.length_take,
    ← Ring.clockwiseNodes, hperm.length_eq, Std.ExtTreeMap.length_keys]
  omega

theorem map_fst_withAddrs {l : List NodeId} (h : ∀ node ∈ l, node ∈ s.nodes) :
    (l.filterMap fun id => s.nodes[id]?.map fun addr => (id, addr)).map
      Prod.fst = l := by
  induction l with
  | nil => rfl
  | cons node l ih =>
      obtain ⟨addr, haddr⟩ := Option.isSome_iff_exists.mp
        (Std.ExtTreeMap.mem_iff_isSome_getElem?.mp (h node List.mem_cons_self))
      simp only [List.filterMap_cons, haddr, Option.map_some, List.map_cons]
      rw [ih fun other hother => h other (List.mem_cons_of_mem _ hother)]

theorem Complete.mapsShards (h : s.Complete) : s.MapsShards xxh64 where
  complete := h
  assigned a ha := by
    obtain ⟨⟨name, schema⟩, hmem, hin⟩ := List.mem_flatMap.mp ha
    rw [Std.ExtTreeMap.mem_toList_iff_getElem?_eq_some] at hmem
    obtain ⟨i, hi, hin⟩ := List.mem_flatMap.mp hin
    obtain ⟨node, hnode, rfl⟩ := List.mem_map.mp hin
    have hsmall := (List.mem_range.mp hi).trans
      schema.shardCount.toNat_lt_size
    refine ⟨schema, hmem, ?_, ?_, rfl⟩
    · rw [UInt32.lt_iff_toNat_lt, UInt32.toNat_ofNat_of_lt' hsmall]
      exact List.mem_range.mp hi
    · refine @mem_nodes_of_mem_replicas xxh64 s name (UInt32.ofNat i) node ?_
      rw [replicasForShard, hmem]
      exact hnode
  routes name schema shardIdx hschema hidx := by
    have hreplicas : (s.mapped xxh64 name shardIdx).map
        ShardAssignment.nodeId = s.replicasForShard xxh64 name shardIdx := by
      rw [mapped_eq hschema hidx, assignments, List.map_map, replicasForShard,
        hschema]
      exact List.map_id _
    have hmember (node : NodeId)
        (hnode : node ∈ s.replicasForShard xxh64 name shardIdx) :
        node ∈ s.nodes := mem_nodes_of_mem_replicas hnode
    refine ⟨?_, ?_, ?_, ?_⟩
    · rw [← List.length_map (f := ShardAssignment.nodeId), hreplicas]
      exact length_replicas hschema (h name schema hschema).replicationN_pos
    · rw [hreplicas]
      exact replicas_nodup
    · rw [hreplicas]
      exact map_fst_withAddrs hmember
    · have hfilter : ((s.mapped xxh64 name shardIdx).filter fun a =>
          a.state = .active).map ShardAssignment.nodeId =
          (s.replicasForShard xxh64 name shardIdx).filter fun id =>
            s.shardState name shardIdx id = .active := by
        rw [← hreplicas, List.filter_map]
        congr 1
        refine List.filter_congr fun a ha => ?_
        rw [mapped_eq hschema hidx] at ha
        obtain ⟨node, -, rfl⟩ := List.mem_map.mp ha
        rfl
      rw [hfilter]
      exact map_fst_withAddrs fun node hnode =>
        hmember node (List.mem_filter.mp hnode).1
  points name schema id hschema := by
    have hpos : 0 < schema.shardCount.toNat :=
      UInt32.lt_iff_toNat_lt.mp (h name schema hschema).shardCount_pos
    have hmod := Nat.mod_lt
      (xxh64 (toLeBytes 8 id.toNat)).toNat hpos
    rw [shardForId, UInt32.lt_iff_toNat_lt, UInt32.toNat_ofNat_of_lt'
      (hmod.trans schema.shardCount.toNat_lt_size)]
    exact hmod

/-- In every state that the services lead to, the map is what requests are
routed by. -/
theorem mapsShards_of_served (xxh64 : Bytes → UInt64)
    (h : Applied (fun _ => Served) s) : s.MapsShards xxh64 :=
  h.complete.mapsShards

/-- Two members, and a collection with the default number of replicas. -/
def served : MetaState :=
  (((MetaState.empty.apply (.registerNode 1 "a")).1.apply
    (.registerNode 2 "b")).1.apply (.createCollection "c"
      (schemaWithDefaults 1 .l2 4 0))).1

/-- Each shard has a replica on both members. -/
theorem mapsShards_of_served_pair :
    (served.mapped (fun _ => 0) "c" 3).length = 2 := by
  have hcreate : Served (.createCollection "c"
      (schemaWithDefaults 1 .l2 4 0)) :=
    ⟨⟨"c", 1, 1, 4, 0⟩, by decide⟩
  have happlied : Applied (fun _ => Served) served :=
    .apply _ (.apply _ (.apply _ .empty trivial) trivial) hcreate
  have hroutes := (mapsShards_of_served (fun _ => 0) happlied).routes "c"
    (schemaWithDefaults 1 .l2 4 0) 3 (by decide +kernel) (by decide)
  rw [hroutes.1]
  decide +kernel

end MetaState

end Quorvec
