import Quorvec.Node.Coverage
import Quorvec.Node.Quiescence
import Quorvec.Node.Reads
import Quorvec.Hnsw.NearestPoints
import Quorvec.Hnsw.Recall

/-!
# Coordinating a search

A search asks one replica of each shard, the active ones first, and goes on to
the next when one does not answer.  The answers are merged by score and id and
truncated.  If every answer is exact, the merge is what one exact index of all
points returns, whichever replicas have answered.
-/

namespace Quorvec

open ByteCodec SortedLists

namespace NodeState

variable (R : Runtime)

/-- Search this node's replica. -/
def searchLocal (s : NodeState) (collection : String) (shardIdx : UInt32)
    (query : List F32) (k efSearch : ℕ) (schema : CollectionSchema) :
    NodeState × Except RouterError Hits :=
  match s.shards.searchShard R (shardRef collection shardIdx schema) query k
      efSearch with
  | (shards, .ok hits) => ({ s with shards }, .ok hits)
  | (shards, .error e) => ({ s with shards }, .error (.shard e))

def defaultK : UInt32 := 10

def defaultEfSearch : UInt32 := 64

/-- The handler that searches a replica. -/
def replicaSearch (s : NodeState) (collection : String) (shardIdx : UInt32)
    (vector : List F32) (k efSearch : UInt32) :
    NodeState × Except Status Hits :=
  match s.metadata.collections[collection]? with
  | none => (s, .error (.notFound collection))
  | some schema =>
      let k := if k = 0 then defaultK else k
      let efSearch := if efSearch = 0 then defaultEfSearch else efSearch
      match s.searchLocal R collection shardIdx vector k.toNat efSearch.toNat
          schema with
      | (s, .ok results) => (s, .ok results)
      | (s, .error e) => (s, .error (.internal e))

end NodeState

/-- The active replicas, then the others. -/
def orderedReplicas (xxh64 : Bytes → UInt64) (metadata : MetaState)
    (collection : String) (shardIdx : UInt32) : List (NodeId × String) :=
  let active := activeReplicasWithAddrs xxh64 metadata collection shardIdx
  let activeIds := active.map Prod.fst
  active ++ (replicasWithAddrs xxh64 metadata collection shardIdx).filter
    fun replica => replica.1 ∉ activeIds

/-- What a coordinator asks for. -/
structure SearchCall where
  collection : String
  query : List F32
  k : ℕ
  efSearch : ℕ

section Search

variable (R : Runtime) (self : NodeId) (fate : UInt32 → NodeId → CallFate)
variable (call : SearchCall)

def searchOneReplica (schema : CollectionSchema) (shardIdx : UInt32) (w : World)
    (node : NodeId) : World × Except ConnError Hits :=
  if node = self then
    match (w node).searchLocal R call.collection shardIdx call.query call.k
        call.efSearch schema with
    | (s, .ok hits) => (Function.update w node s, .ok hits)
    | (s, .error _) => (Function.update w node s, .error .connError)
  else
    let answer := (w node).replicaSearch R call.collection shardIdx call.query
      (UInt32.ofNat call.k) (UInt32.ofNat call.efSearch)
    match fate shardIdx node with
    | .unreachable => (w, .error .connError)
    | .answerLost => (Function.update w node answer.1, .error .connError)
    | .answered =>
        match answer with
        | (s, .ok hits) => (Function.update w node s, .ok hits)
        | (s, .error _) => (Function.update w node s, .error .connError)

/-- The loop over the replicas of a shard: the first answer. -/
def searchReplicas (schema : CollectionSchema) (shardIdx : UInt32) :
    List (NodeId × String) → World → World × Option Hits
  | [], w => (w, none)
  | (node, _) :: replicas, w =>
      match searchOneReplica R self fate call schema shardIdx w node with
      | (w, .ok hits) => (w, some hits)
      | (w, .error _) => searchReplicas schema shardIdx replicas w

variable (xxh64 : Bytes → UInt64)

/-- The loop over the shards. -/
def searchShards (metadata : MetaState) (schema : CollectionSchema) :
    List UInt32 → World → Hits → World × Except RouterError Hits
  | [], w, merged => (w, .ok merged)
  | shardIdx :: shards, w, merged =>
      if (replicasWithAddrs xxh64 metadata call.collection shardIdx).isEmpty
      then (w, .error (.noReplica call.collection shardIdx))
      else
        match searchReplicas R self fate call schema shardIdx
            (orderedReplicas xxh64 metadata call.collection shardIdx) w with
        | (w, some hits) => searchShards metadata schema shards w (merged ++ hits)
        | (w, none) => (w, .error (.noReplica call.collection shardIdx))

def coordinateSearch (w : World) : World × Except RouterError Hits :=
  let metadata := (w self).metadata
  match metadata.collections[call.collection]? with
  | none => (w, .error (.notFound call.collection))
  | some schema =>
      if call.query.length ≠ schema.dim.toNat then
        (w, .error (.dimMismatch schema.dim.toNat call.query.length))
      else
        let shards := (List.range schema.shardCount.toNat).map UInt32.ofNat
        match searchShards R self fate call xxh64 metadata schema shards w []
          with
        | (w, .error e) => (w, .error e)
        | (w, .ok merged) =>
            (w, .ok ((merged.mergeSort
              (BruteForceIndex.scoreLe R.kernel)).take call.k))

end Search

/-! ## Replicas do not disturb each other -/

namespace ShardStore

variable {R : Runtime} {st st' : ShardStore} {sref : ShardRef}

theorem access_congr {α : Type} (hmb : st'.snapshotWalMb = st.snapshotWalMb)
    (hms : st'.walBatchMs = st.walBatchMs)
    (hslot : st'.slots sref.key = st.slots sref.key)
    (op : Shard → Shard × Except ShardError α) :
    (st'.access R sref op).2 = (st.access R sref op).2 := by
  rw [access, access, getOrOpen, getOrOpen, hslot, hmb, hms]
  cases st.slots sref.key with
  | opened s =>
      dsimp only
      rcases op s with ⟨s', e | a⟩ <;> simp only
  | closed dir =>
      dsimp only
      cases Shard.open R dir sref.dim sref.metric st.snapshotWalMb
          st.walBatchMs with
      | error e => rfl
      | ok s => rcases hop : op s with ⟨s', e | a⟩ <;> simp only [hop]

theorem settings_access {α : Type} (op : Shard → Shard × Except ShardError α) :
    (st.access R sref op).1.snapshotWalMb = st.snapshotWalMb ∧
      (st.access R sref op).1.walBatchMs = st.walBatchMs := by
  rcases access_cases R st sref op with
    ⟨dir, dir', e, -, heq⟩ | ⟨s, -, heq⟩ <;> rw [heq] <;> exact ⟨rfl, rfl⟩

end ShardStore

namespace NodeState

variable {R : Runtime} {s s' : NodeState} {key : ShardKey}

/-- What a search of a shard depends on. -/
def shardView (s : NodeState) (key : ShardKey) :
    MetaState × ℕ × ℕ × ShardSlot :=
  (s.metadata, s.shards.snapshotWalMb, s.shards.walBatchMs, s.shards.slots key)

variable {collection : String} {shardIdx : UInt32} {query : List F32}
variable {k efSearch : ℕ} {schema : CollectionSchema}

variable (R s collection shardIdx query k efSearch schema) in
theorem searchLocal_eq :
    s.searchLocal R collection shardIdx query k efSearch schema =
      ({ s with shards := (s.shards.searchShard R
          (shardRef collection shardIdx schema) query k efSearch).1 },
        (s.shards.searchShard R (shardRef collection shardIdx schema) query k
          efSearch).2.mapError .shard) := by
  rw [searchLocal]
  rcases s.shards.searchShard R (shardRef collection shardIdx schema) query k
    efSearch with ⟨shards, e | hits⟩ <;> rfl

theorem searchLocal_congr
    (h : s'.shardView { collection, shardIdx } =
      s.shardView { collection, shardIdx }) :
    (s'.searchLocal R collection shardIdx query k efSearch schema).2 =
      (s.searchLocal R collection shardIdx query k efSearch schema).2 := by
  simp only [shardView, Prod.mk.injEq] at h
  obtain ⟨-, hmb, hms, hslot⟩ := h
  rw [searchLocal_eq, searchLocal_eq]
  exact congrArg (Except.mapError _)
    (@ShardStore.access_congr R _ _ (shardRef collection shardIdx schema) _ hmb
      hms hslot _)

theorem shardView_searchLocal (hkey : key ≠ { collection, shardIdx }) :
    (s.searchLocal R collection shardIdx query k efSearch schema).1.shardView
      key = s.shardView key := by
  obtain ⟨hmb, hms⟩ := @ShardStore.settings_access R s.shards
    (shardRef collection shardIdx schema) _
    fun shard => (shard, shard.search R query k efSearch)
  have hslots := @ShardStore.slots_access_of_ne R s.shards
    (shardRef collection shardIdx schema) _ key hkey
    fun shard => (shard, shard.search R query k efSearch)
  rw [searchLocal_eq, ShardStore.searchShard]
  simp only [shardView, hmb, hms, hslots]

variable {kU efU : UInt32}

variable (R s collection shardIdx query kU efU) in
/-- The handler searches with its own schema, if it knows the collection. -/
theorem replicaSearch_cases :
    s.metadata.collections[collection]? = none ∧
        s.replicaSearch R collection shardIdx query kU efU =
          (s, .error (.notFound collection)) ∨
      ∃ schema k efSearch, s.metadata.collections[collection]? = some schema ∧
        k < 2 ^ 32 ∧ ∀ s' : NodeState, s'.metadata = s.metadata →
          s'.replicaSearch R collection shardIdx query kU efU =
            ((s'.searchLocal R collection shardIdx query k efSearch schema).1,
              (s'.searchLocal R collection shardIdx query k efSearch
                schema).2.mapError .internal) := by
  cases hschema : s.metadata.collections[collection]? with
  | none =>
      refine .inl ⟨rfl, ?_⟩
      rw [replicaSearch, hschema]
  | some schema =>
      refine .inr ⟨schema, (if kU = 0 then defaultK else kU).toNat,
        (if efU = 0 then defaultEfSearch else efU).toNat, rfl,
        UInt32.toNat_lt _, ?_⟩
      intro s' hs'
      rw [replicaSearch, hs', hschema]
      dsimp only
      rcases s'.searchLocal R collection shardIdx query _ _ schema with
        ⟨s'', e | hits⟩ <;> rfl

theorem replicaSearch_congr
    (h : s'.shardView { collection, shardIdx } =
      s.shardView { collection, shardIdx }) :
    (s'.replicaSearch R collection shardIdx query kU efU).2 =
      (s.replicaSearch R collection shardIdx query kU efU).2 := by
  have hmeta : s'.metadata = s.metadata := congrArg Prod.fst h
  rcases replicaSearch_cases R s collection shardIdx query kU efU with
    ⟨hnone, heq⟩ | ⟨schema, k, efSearch, -, -, heq⟩
  · rw [heq, replicaSearch, hmeta, hnone]
  · rw [heq s' hmeta, heq s rfl]
    exact congrArg (Except.mapError _) (searchLocal_congr h)

theorem shardView_replicaSearch (hkey : key ≠ { collection, shardIdx }) :
    (s.replicaSearch R collection shardIdx query kU efU).1.shardView key =
      s.shardView key := by
  rcases replicaSearch_cases R s collection shardIdx query kU efU with
    ⟨-, heq⟩ | ⟨schema, k, efSearch, -, -, heq⟩
  · rw [heq]
  · rw [heq s rfl]
    exact shardView_searchLocal hkey

end NodeState

section Search

variable {R : Runtime} {self : NodeId} {fate : UInt32 → NodeId → CallFate}
variable {call : SearchCall} {schema : CollectionSchema}
variable {w w' : World} {shardIdx : UInt32} {node : NodeId}

/-- What a replica answers depends on its shard only. -/
theorem searchOneReplica_congr
    (h : (w' node).shardView ⟨call.collection, shardIdx⟩ =
      (w node).shardView ⟨call.collection, shardIdx⟩) :
    (searchOneReplica R self fate call schema shardIdx w' node).2 =
      (searchOneReplica R self fate call schema shardIdx w node).2 := by
  rw [searchOneReplica, searchOneReplica]
  split_ifs with hself
  · have hlocal := @NodeState.searchLocal_congr R _ _ _ _ call.query call.k
      call.efSearch schema h
    revert hlocal
    rcases (w' node).searchLocal R _ _ _ _ _ _ with ⟨s', e' | hits'⟩ <;>
      rcases (w node).searchLocal R _ _ _ _ _ _ with ⟨s, e | hits⟩ <;>
      simp
  · have hanswer := @NodeState.replicaSearch_congr R _ _ _ _ call.query
      (UInt32.ofNat call.k) (UInt32.ofNat call.efSearch) h
    revert hanswer
    rcases (w' node).replicaSearch R _ _ _ _ _ with ⟨s', e' | hits'⟩ <;>
      rcases (w node).replicaSearch R _ _ _ _ _ with ⟨s, e | hits⟩ <;>
      cases fate shardIdx node <;> simp

/-- Asking a replica touches its shard only. -/
theorem shardView_searchOneReplica {key : ShardKey} {other : NodeId}
    (h : other = node → key ≠ ⟨call.collection, shardIdx⟩) :
    ((searchOneReplica R self fate call schema shardIdx w node).1
      other).shardView key = (w other).shardView key := by
  have hupdate : ∀ s : NodeState,
      (key ≠ ⟨call.collection, shardIdx⟩ → s.shardView key =
        (w node).shardView key) →
      (Function.update w node s other).shardView key =
        (w other).shardView key := by
    intro s hs
    by_cases hother : other = node
    · rw [hother, Function.update_self]
      exact hs (h hother)
    · rw [Function.update_of_ne hother]
  have hlocal := @NodeState.shardView_searchLocal R (w node) key
    call.collection shardIdx call.query call.k call.efSearch schema
  have hreplica := @NodeState.shardView_replicaSearch R (w node) key
    call.collection shardIdx call.query (UInt32.ofNat call.k)
    (UInt32.ofNat call.efSearch)
  rw [searchOneReplica]
  split_ifs with hself
  · revert hlocal
    rcases (w node).searchLocal R _ _ _ _ _ _ with ⟨s, e | hits⟩ <;>
      exact hupdate s
  · revert hreplica
    rcases (w node).replicaSearch R _ _ _ _ _ with ⟨s, e | hits⟩ <;>
      cases fate shardIdx node <;>
      first
        | exact hupdate s
        | exact fun _ => rfl

variable (R self fate call schema) in
/-- The answer of a replica to a search. -/
def Answers (w : World) (shardIdx : UInt32) (node : NodeId) (hits : Hits) :
    Prop :=
  (searchOneReplica R self fate call schema shardIdx w node).2 = .ok hits

variable (R self fate call schema) in
/-- The replica is asked: none of those before it answers. -/
def Asked (w : World) (shardIdx : UInt32) (replicas : List (NodeId × String))
    (node : NodeId) : Prop :=
  ∃ before addr after, replicas = before ++ (node, addr) :: after ∧
    ∀ replica ∈ before, ∀ hits,
      ¬ Answers R self fate call schema w shardIdx replica.1 hits

theorem shardView_searchReplicas {key : ShardKey} {other : NodeId}
    (h : key ≠ ⟨call.collection, shardIdx⟩) (replicas : List (NodeId × String)) :
    ((searchReplicas R self fate call schema shardIdx replicas w).1
      other).shardView key = (w other).shardView key := by
  induction replicas generalizing w with
  | nil => rfl
  | cons replica replicas ih =>
      have hone := @shardView_searchOneReplica R self fate call schema w shardIdx
        replica.1 key other fun _ => h
      rw [searchReplicas]
      rcases hask : searchOneReplica R self fate call schema shardIdx w
        replica.1 with ⟨w₁, e | hits⟩ <;> rw [hask] at hone
      · exact ih.trans hone
      · exact hone

/-- If some replica answers, the answer is that of a replica that is asked. -/
theorem searchReplicas_of_answers {replicas : List (NodeId × String)}
    (hnodup : (replicas.map Prod.fst).Nodup)
    (hsame : ∀ node ∈ replicas.map Prod.fst,
      (w' node).shardView ⟨call.collection, shardIdx⟩ =
        (w node).shardView ⟨call.collection, shardIdx⟩)
    (hanswer : ∃ replica ∈ replicas, ∃ hits,
      Answers R self fate call schema w shardIdx replica.1 hits) :
    ∃ hits node, (searchReplicas R self fate call schema shardIdx replicas
        w').2 = some hits ∧
      Asked R self fate call schema w shardIdx replicas node ∧
      Answers R self fate call schema w shardIdx node hits := by
  induction replicas generalizing w' with
  | nil => simp at hanswer
  | cons replica replicas ih =>
      rw [List.map_cons, List.forall_mem_cons] at hsame
      rw [List.map_cons, List.nodup_cons] at hnodup
      have hfirst := @searchOneReplica_congr R self fate call schema w w'
        shardIdx replica.1 hsame.1
      have hother := @shardView_searchOneReplica R self fate call schema w'
        shardIdx replica.1 ⟨call.collection, shardIdx⟩
      rw [searchReplicas]
      rcases hask : searchOneReplica R self fate call schema shardIdx w'
        replica.1 with ⟨w₁, e | hits⟩ <;> rw [hask] at hfirst hother
      · -- this replica does not answer, and the others are as they were
        have hsame₁ : ∀ node ∈ replicas.map Prod.fst,
            (w₁ node).shardView ⟨call.collection, shardIdx⟩ =
              (w node).shardView ⟨call.collection, shardIdx⟩ := by
          intro node hnode
          refine (hother fun heq => ?_).trans (hsame.2 node hnode)
          exact absurd (heq ▸ hnode) hnodup.1
        have hanswer₁ : ∃ replica ∈ replicas, ∃ hits,
            Answers R self fate call schema w shardIdx replica.1 hits := by
          obtain ⟨r, hr, hits, hhits⟩ := hanswer
          rcases List.mem_cons.mp hr with rfl | hr
          · cases hfirst.trans hhits
          · exact ⟨r, hr, hits, hhits⟩
        obtain ⟨hits, node, hsearch, ⟨before, addr, after, rfl, hbefore⟩,
          hhits⟩ := ih hnodup.2 hsame₁ hanswer₁
        refine ⟨hits, node, hsearch, ⟨replica :: before, addr, after, rfl, ?_⟩,
          hhits⟩
        rw [List.forall_mem_cons]
        refine ⟨fun hits hhits => ?_, hbefore⟩
        cases hfirst.trans hhits
      · exact ⟨hits, replica.1, rfl, ⟨[], replica.2, replicas, rfl, by simp⟩,
          hfirst.symm⟩

end Search

/-! ## The replicas in order -/

section Replicas

variable (xxh64 : Bytes → UInt64) (metadata : MetaState)
variable (collection : String) (shardIdx : UInt32)

theorem activeReplicasWithAddrs_sublist :
    (activeReplicasWithAddrs xxh64 metadata collection shardIdx).Sublist
      (replicasWithAddrs xxh64 metadata collection shardIdx) :=
  List.filter_sublist.filterMap _

variable {xxh64 metadata collection shardIdx}

/-- The order leaves no replica out, and adds none. -/
theorem mem_orderedReplicas {replica : NodeId × String} :
    replica ∈ orderedReplicas xxh64 metadata collection shardIdx ↔
      replica ∈ replicasWithAddrs xxh64 metadata collection shardIdx := by
  have hsub := activeReplicasWithAddrs_sublist xxh64 metadata collection shardIdx
  simp only [orderedReplicas, List.mem_append, List.mem_filter,
    decide_eq_true_eq]
  constructor
  · rintro (hactive | ⟨hall, -⟩)
    · exact hsub.subset hactive
    · exact hall
  · intro hall
    by_cases hid : replica.1 ∈ (activeReplicasWithAddrs xxh64 metadata
        collection shardIdx).map Prod.fst
    · obtain ⟨active, hactive, heq⟩ := List.mem_map.mp hid
      have hsame : active = replica :=
        List.inj_on_of_nodup_map (replicasWithAddrs_nodup ..)
          (hsub.subset hactive) hall heq
      exact .inl (hsame ▸ hactive)
    · exact .inr ⟨hall, hid⟩

theorem orderedReplicas_nodup :
    ((orderedReplicas xxh64 metadata collection shardIdx).map
      Prod.fst).Nodup := by
  have hnodup : ((replicasWithAddrs xxh64 metadata collection shardIdx).map
      Prod.fst).Nodup := replicasWithAddrs_nodup ..
  have hsub := activeReplicasWithAddrs_sublist xxh64 metadata collection shardIdx
  rw [orderedReplicas, List.map_append, List.nodup_append']
  refine ⟨hnodup.sublist (hsub.map _),
    hnodup.sublist (List.filter_sublist.map _), ?_⟩
  intro node hactive hother
  obtain ⟨replica, hreplica, rfl⟩ := List.mem_map.mp hother
  rw [List.mem_filter, decide_eq_true_eq] at hreplica
  exact hreplica.2 hactive

end Replicas

/-! ## The merge -/

section Merge

variable {R : Runtime} {self : NodeId} {fate : UInt32 → NodeId → CallFate}
variable {call : SearchCall} {xxh64 : Bytes → UInt64} {metadata : MetaState}
variable {schema : CollectionSchema} {w w' : World}

variable (R self fate call xxh64 metadata schema w) in
/-- Some replica of the shard answers, and all that are asked and answer return
`hits`. -/
def ShardAnswers (shardIdx : UInt32) (hits : Hits) : Prop :=
  (∃ replica ∈ replicasWithAddrs xxh64 metadata call.collection shardIdx,
      ∃ hits, Answers R self fate call schema w shardIdx replica.1 hits) ∧
    ∀ node, Asked R self fate call schema w shardIdx
        (orderedReplicas xxh64 metadata call.collection shardIdx) node →
      ∀ hits', Answers R self fate call schema w shardIdx node hits' →
        hits' = hits

/-- The answers of the shards, one after the other. -/
theorem searchShards_of_answers {shards : List UInt32} (hnodup : shards.Nodup)
    {part : UInt32 → Hits}
    (hsame : ∀ shardIdx ∈ shards, ∀ node,
      (w' node).shardView ⟨call.collection, shardIdx⟩ =
        (w node).shardView ⟨call.collection, shardIdx⟩)
    (hparts : ∀ shardIdx ∈ shards, ShardAnswers R self fate call xxh64 metadata
      schema w shardIdx (part shardIdx)) (merged : Hits) :
    (searchShards R self fate call xxh64 metadata schema shards w' merged).2 =
      .ok (merged ++ shards.flatMap part) := by
  induction shards generalizing w' merged with
  | nil => simp [searchShards]
  | cons shardIdx shards ih =>
      rw [List.nodup_cons] at hnodup
      rw [List.forall_mem_cons] at hsame hparts
      obtain ⟨⟨hanswer, hexact⟩, hrest⟩ := hparts
      obtain ⟨replica, hreplica, hits, hhits⟩ := hanswer
      have hsome : ∃ replica ∈ orderedReplicas xxh64 metadata call.collection
          shardIdx, ∃ hits,
            Answers R self fate call schema w shardIdx replica.1 hits :=
        ⟨replica, mem_orderedReplicas.mpr hreplica, hits, hhits⟩
      obtain ⟨first, node, hfirst, hasked, hans⟩ := searchReplicas_of_answers
        orderedReplicas_nodup (fun node _ => hsame.1 node) hsome
      obtain rfl := hexact node hasked first hans
      have hothers := fun (other : UInt32) (hother : other ∈ shards)
          (node : NodeId) =>
        @shardView_searchReplicas R self fate call schema w' shardIdx
          ⟨call.collection, other⟩ node (fun heq => by
            rw [ShardKey.mk.injEq] at heq
            exact hnodup.1 (heq.2 ▸ hother))
          (orderedReplicas xxh64 metadata call.collection shardIdx)
      rw [searchShards, if_neg (by
        rw [List.isEmpty_iff]
        exact List.ne_nil_of_mem hreplica)]
      rcases hask : searchReplicas R self fate call schema shardIdx
        (orderedReplicas xxh64 metadata call.collection shardIdx) w' with
        ⟨w₁, answered⟩
      rw [hask] at hfirst hothers
      obtain rfl : answered = some _ := hfirst
      refine (ih hnodup.2 (fun other hother node =>
        (hothers other hother node).trans (hsame.2 other hother node)) hrest
        _).trans ?_
      rw [List.flatMap_cons, List.append_assoc]

end Merge

/-! ## The whole search -/

/-- The points of a shard. -/
def VectorStore.onShard (xxh64 : Bytes → UInt64) (shardCount : UInt32)
    (m : VectorStore) (shardIdx : UInt32) : VectorStore := fun id =>
  if shardForId xxh64 id shardCount = shardIdx then m id else none

theorem mem_shards {shardCount shardIdx : UInt32} :
    shardIdx ∈ (List.range shardCount.toNat).map UInt32.ofNat ↔
      shardIdx < shardCount := by
  rw [List.mem_map]
  constructor
  · rintro ⟨i, hi, rfl⟩
    have hlt := List.mem_range.mp hi
    rw [UInt32.lt_iff_toNat_lt,
      UInt32.toNat_ofNat_of_lt' (hlt.trans shardCount.toNat_lt)]
    exact hlt
  · intro hlt
    exact ⟨shardIdx.toNat, List.mem_range.mpr (UInt32.lt_iff_toNat_lt.mp hlt),
      UInt32.ofNat_toNat⟩

theorem shards_nodup (shardCount : UInt32) :
    ((List.range shardCount.toNat).map UInt32.ofNat).Nodup := by
  refine List.nodup_range.map_on fun i hi j hj heq => ?_
  have hi' := (List.mem_range.mp hi).trans shardCount.toNat_lt
  have hj' := (List.mem_range.mp hj).trans shardCount.toNat_lt
  have htoNat := congrArg UInt32.toNat heq
  rwa [UInt32.toNat_ofNat_of_lt' hi', UInt32.toNat_ofNat_of_lt' hj'] at htoNat

theorem shardForId_lt (xxh64 : Bytes → UInt64) (id : UInt64)
    {shardCount : UInt32} (h : 0 < shardCount) :
    shardForId xxh64 id shardCount < shardCount := by
  have hmod := Nat.mod_lt (xxh64 (toLeBytes 8 id.toNat)).toNat
    (UInt32.lt_iff_toNat_lt.mp h)
  rw [shardForId, UInt32.lt_iff_toNat_lt,
    UInt32.toNat_ofNat_of_lt' (hmod.trans shardCount.toNat_lt)]
  exact hmod

section Whole

variable {R : Runtime} {self : NodeId} {fate : UInt32 → NodeId → CallFate}
variable {call : SearchCall} {xxh64 : Bytes → UInt64}
variable {schema : CollectionSchema} {w : World}

theorem coordinateSearch_of_merged {merged : Hits}
    (hschema : (w self).metadata.collections[call.collection]? = some schema)
    (hquery : call.query.length = schema.dim.toNat)
    (h : (searchShards R self fate call xxh64 (w self).metadata schema
      ((List.range schema.shardCount.toNat).map UInt32.ofNat) w []).2 =
        .ok merged) :
    (coordinateSearch R self fate call xxh64 w).2 =
      .ok ((merged.mergeSort (BruteForceIndex.scoreLe R.kernel)).take
        call.k) := by
  rw [coordinateSearch, hschema]
  dsimp only
  rw [if_neg (not_not_intro hquery)]
  rcases hask : searchShards R self fate call xxh64 (w self).metadata schema
    ((List.range schema.shardCount.toNat).map UInt32.ofNat) w [] with ⟨w₁, res⟩
  rw [hask] at h
  obtain rfl : res = .ok merged := h
  rfl

/-- If every replica that is asked and answers is exact on its shard, and one of
each shard answers, the search returns what the exact index of all points
returns. -/
theorem coordinateSearch_eq_search {idx : BruteForceIndex} (hidx : idx.Valid)
    (hschema : (w self).metadata.collections[call.collection]? = some schema)
    (hcount : 0 < schema.shardCount) (hdim : idx.dim = schema.dim.toNat)
    (hmetric : idx.metric = schema.metric)
    (hK : R.kernel.PreordersOn
      (BruteForceIndex.scores R.kernel idx call.query))
    (hexact : ∀ shardIdx < schema.shardCount, ∀ node,
      Asked R self fate call schema w shardIdx (orderedReplicas xxh64
          (w self).metadata call.collection shardIdx) node →
        ∀ hits, Answers R self fate call schema w shardIdx node hits →
          Nearest R.kernel schema.metric call.query
            (VectorStore.onShard xxh64 schema.shardCount idx.store shardIdx)
            call.k hits)
    (hanswer : ∀ shardIdx < schema.shardCount, ∃ replica ∈ replicasWithAddrs
      xxh64 (w self).metadata call.collection shardIdx, ∃ hits,
        Answers R self fate call schema w shardIdx replica.1 hits) :
    if call.query.length = schema.dim.toNat then
      ∃ hits, (coordinateSearch R self fate call xxh64 w).2 = .ok hits ∧
        idx.search R.kernel call.query call.k = .ok hits ∧
        ExactHits R.kernel schema.metric call.query idx.store call.k hits
    else
      (coordinateSearch R self fate call xxh64 w).2 =
          .error (.dimMismatch schema.dim.toNat call.query.length) ∧
        idx.search R.kernel call.query call.k =
          .error (.dimMismatch schema.dim.toNat call.query.length) := by
  split_ifs with hquery
  · obtain ⟨L, hL, hsorted, horder, hsearch⟩ :=
      BruteForceIndex.search_nearest hidx hK (hquery.trans hdim.symm) call.k
    rw [hmetric] at hL
    let shards := (List.range schema.shardCount.toNat).map UInt32.ofNat
    let key : UInt64 × F32 → UInt32 := fun hit =>
      shardForId xxh64 hit.1 schema.shardCount
    have hparts : ∀ shardIdx ∈ shards, ShardAnswers R self fate call xxh64
        (w self).metadata schema w shardIdx
        ((L.filter fun hit => key hit = shardIdx).take call.k) := by
      intro shardIdx hshard
      have hlt := mem_shards.mp hshard
      refine ⟨hanswer shardIdx hlt, fun node hnode hits hhits => ?_⟩
      exact (hexact shardIdx hlt node hnode hits hhits).eq_take_filter
        hL hsorted horder
    have hmerged := searchShards_of_answers (shards_nodup schema.shardCount)
      (fun _ _ _ => rfl) hparts []
    have hsort : ((takeParts key shards L call.k).mergeSort
        (BruteForceIndex.scoreLe R.kernel)).take call.k = L.take call.k :=
      take_mergeSort_takeParts horder hsorted (.of_map _ hL.nodup)
        (shards_nodup schema.shardCount)
        (fun hit _ => mem_shards.mpr (shardForId_lt xxh64 hit.1 hcount)) call.k
    refine ⟨L.take call.k, ?_, hsearch, Nearest.exactHits ⟨L, hL, hsorted, rfl⟩⟩
    rw [coordinateSearch_of_merged hschema hquery hmerged, List.nil_append]
    exact congrArg Except.ok hsort
  · rw [coordinateSearch, hschema, BruteForceIndex.search, hdim]
    dsimp only
    rw [if_pos hquery, if_pos hquery]
    exact ⟨rfl, rfl⟩

end Whole

namespace TwoShards

def schema : CollectionSchema where
  dim := 1
  metric := .l2
  shardCount := 2
  replicationN := 1

/-- One node, and a collection of two shards. -/
def metadata : MetaState where
  nodes := (∅ : Std.ExtTreeMap NodeId String).insert 1 "a"
  collections := (∅ : Std.ExtTreeMap String CollectionSchema).insert "c" schema
  shardStates := ∅

/-- A hash that separates the ids 0 and 1. -/
def idHash (bytes : Bytes) : UInt64 := if bytes = toLeBytes 8 1 then 1 else 0

/-- The node has both shards open. -/
def world (s₀ s₁ : Shard) : World := fun _ =>
  { metadata
    shards := ((ShardStore.new 0 0).put { collection := "c", shardIdx := 0 }
      (.opened s₀)).put { collection := "c", shardIdx := 1 } (.opened s₁)
    clock := Hlc.zero
    hintLog := none }

theorem mem_replicas (xxh64 : Bytes → UInt64) (shardIdx : UInt32)
    (replica : NodeId × String) :
    replica ∈ replicasWithAddrs xxh64 metadata "c" shardIdx ↔
      replica = (1, "a") := by
  have haddr : metadata.nodes[(1 : NodeId)]? = some "a" :=
    Std.ExtTreeMap.getElem?_insert_self
  have hknown : metadata.collections["c"]? = some schema :=
    Std.ExtTreeMap.getElem?_insert_self
  have hmem : ∀ node, node ∈ metadata.replicasForShard xxh64 "c" shardIdx ↔
      node = 1 := by
    intro node
    rw [MetaState.mem_replicas_iff hknown (by decide +kernel), metadata,
      Std.ExtTreeMap.mem_insert, Std.compare_eq_iff_eq]
    simp [eq_comm]
  simp only [replicasWithAddrs, List.mem_filterMap, hmem, exists_eq_left, haddr,
    Option.map_some, Option.some.injEq, @eq_comm _ replica]

theorem slots_zero (s₀ s₁ : Shard) : (world s₀ s₁ 1).shards.slots
    { collection := "c", shardIdx := 0 } = .opened s₀ :=
  (ShardStore.slots_put_of_ne (by decide) _).trans
    (ShardStore.slots_put_self _ _)

theorem slots_one (s₀ s₁ : Shard) : (world s₀ s₁ 1).shards.slots
    { collection := "c", shardIdx := 1 } = .opened s₁ :=
  ShardStore.slots_put_self _ _

theorem shardIdx_cases {shardIdx : UInt32} (h : shardIdx < schema.shardCount) :
    shardIdx = 0 ∨ shardIdx = 1 := by
  have hlt : shardIdx.toNat < 2 := UInt32.lt_iff_toNat_lt.mp h
  rcases Nat.lt_succ_iff_lt_or_eq.mp hlt with hzero | hone
  · exact .inl (UInt32.toNat_inj.mp (Nat.lt_one_iff.mp hzero))
  · exact .inr (UInt32.toNat_inj.mp hone)

theorem shardForId_zero : shardForId idHash 0 2 = 0 := by decide +kernel

theorem shardForId_one : shardForId idHash 1 2 = 1 := by decide +kernel

end TwoShards

open TwoShards in
/-- Two shards with a point each, in equal distance of the query. -/
theorem coordinateSearch_eq_search_pair :
    ∃ (R : Runtime) (w : World) (idx : BruteForceIndex) (hits : Hits),
      (coordinateSearch R 1 (fun _ _ => .unreachable)
        { collection := "c", query := [0], k := 2, efSearch := 1 }
        idHash w).2 = .ok hits ∧
      idx.search R.kernel [0] 2 = .ok hits ∧
      ExactHits R.kernel .l2 [0]
        (fun id => if id = 1 ∨ id = 0 then some [0] else none) 2 hits := by
  let R : Runtime := { crc32 := fun _ => 0, kernel := .equalPoints }
  obtain ⟨hnsw, hhnsw, -⟩ := @HnswIndex.withParams_returns 1 .l2
    EqualPoints.params 0 one_pos le_rfl le_rfl (by decide)
  let index (n : ℕ) : HnswIndex :=
    ((HnswIndex.vectorIndex .equalPoints).call hnsw
      (EqualPoints.insertTwin n).call).1
  have hindex : (index 0).search .equalPoints [0] 2 1 = .ok [(0, 0)] ∧
      (index 1).search .equalPoints [0] 2 1 = .ok [(1, 0)] := by
    cases hhnsw
    decide +kernel
  obtain ⟨s, -⟩ := Shard.open_empty_returns R one_pos .l2 0 0
  let w : World := world { s with index := index 0 } { s with index := index 1 }
  obtain ⟨empty, -, hvalid, hdim, hmetric, hempty⟩ :=
    BruteForceIndex.new_returns .l2 one_pos
  obtain ⟨first, -, hfirst⟩ :=
    @BruteForceIndex.insert_returns empty hvalid 0 [0] hdim.symm
  obtain ⟨idx, -, hidx⟩ := @BruteForceIndex.insert_returns first hfirst.valid
    1 [0] (hfirst.dim_eq.trans hdim).symm
  have hstore : idx.store =
      fun id => if id = 1 ∨ id = 0 then some [0] else none := by
    funext id
    rw [hidx.store_eq, hfirst.store_eq, hempty]
    by_cases hone : id = 1 <;> by_cases hzero : id = 0 <;> simp [hone, hzero]
  let call : SearchCall :=
    { collection := "c", query := [0], k := 2, efSearch := 1 }
  -- a shard finds the one point that it has
  let found (shardIdx : UInt32) : Hits := [(if shardIdx = 0 then 0 else 1, 0)]
  have hanswers : ∀ shardIdx < schema.shardCount, ∀ hits,
      Answers R 1 (fun _ _ => .unreachable) call schema w shardIdx 1 hits ↔
        hits = found shardIdx := by
    intro shardIdx hlt hits
    have hserved : (w 1).shards.searchShard R (shardRef "c" shardIdx schema)
        [0] 2 1 = ((w 1).shards, .ok (found shardIdx)) := by
      rcases shardIdx_cases hlt with rfl | rfl
      · refine (ShardStore.read_of_opened (slots_zero _ _) _).trans ?_
        rw [Shard.search, show _ = _ from hindex.1]
        rfl
      · refine (ShardStore.read_of_opened (slots_one _ _) _).trans ?_
        rw [Shard.search, show _ = _ from hindex.2]
        rfl
    rw [Answers, searchOneReplica, if_pos rfl, NodeState.searchLocal_eq,
      hserved]
    simp [Except.mapError, eq_comm]
  have hnearest : ∀ shardIdx < schema.shardCount,
      Nearest .equalPoints .l2 [0] (VectorStore.onShard idHash 2 idx.store
        shardIdx) 2 (found shardIdx) := by
    intro shardIdx hlt
    refine ⟨found shardIdx, ⟨by simp [found], fun id score => ?_⟩,
      by simp [found], ?_⟩
    · rw [VectorStore.onShard, hstore]
      by_cases hone : id = 1
      · rcases shardIdx_cases hlt with rfl | rfl <;>
          simp [found, hone, shardForId_one, Kernel.equalPoints]
      by_cases hzero : id = 0
      · rcases shardIdx_cases hlt with rfl | rfl <;>
          simp [found, hzero, shardForId_zero, Kernel.equalPoints]
      · rcases shardIdx_cases hlt with rfl | rfl <;>
          simp [found, hone, hzero]
    · rfl
  have hall := @coordinateSearch_eq_search R 1 (fun _ _ => .unreachable) call
    idHash schema w idx hidx.valid
    Std.ExtTreeMap.getElem?_insert_self (by decide)
    ((hidx.dim_eq.trans hfirst.dim_eq).trans hdim)
    ((hidx.metric_eq.trans hfirst.metric_eq).trans hmetric)
    ⟨fun _ _ _ _ => rfl, fun _ _ _ _ _ _ _ _ => rfl⟩
    (fun shardIdx hlt node hnode hits hhits => by
      obtain ⟨before, addr, after, hordered, -⟩ := hnode
      have hmem : (node, addr) ∈
          replicasWithAddrs idHash metadata "c" shardIdx :=
        mem_orderedReplicas.mp (hordered ▸ by simp)
      cases (mem_replicas _ _ _).mp hmem
      rw [(hanswers shardIdx hlt hits).mp hhits]
      exact hnearest shardIdx hlt)
    (fun shardIdx hlt =>
      ⟨(1, "a"), (mem_replicas _ _ _).mpr rfl, _,
        (hanswers shardIdx hlt _).mpr rfl⟩)
  obtain ⟨hits, hcoordinate, hexact, hhits⟩ :=
    (if_pos (rfl : call.query.length = schema.dim.toNat)).mp hall
  exact ⟨R, w, idx, hits, hcoordinate, hexact, hstore ▸ hhits⟩

end Quorvec
