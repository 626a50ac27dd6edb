import Quorvec.Node.QuorumReplica

/-!
# What is known of the calls in progress

A write that has been acknowledged by some replicas is held by them from then
on.  A read that is in progress keeps, of every write that was acknowledged
before it began, a quorum whose members hold the write and have answered with
nothing older.  When the read ends, the replicas that answered share a member
with that quorum.
-/

namespace Quorvec

open LastWriterWins ByteCodec Quorum

/-- A quorum for the level holds the write or newer ones. -/
def FixedShard.Held (f : FixedShard) (regs : NodeId → Registers)
    (req : ReplicaWriteRequest) (level : Consistency) : Prop :=
  ∃ q, IsQuorum f.nodes (level.count f.n) q ∧
    ∀ node ∈ q, AtLeast (regs node req.id) req.written.1

/-- No register goes back. -/
def Grows (regs regs' : NodeId → Registers) : Prop :=
  ∀ node id t, AtLeast (regs node id) t → AtLeast (regs' node id) t

/-- The replicas that have acknowledged a write hold it. -/
structure WriteCall.Sound (f : FixedShard) (regs : NodeId → Registers)
    (issued : List ReplicaWriteRequest) (call : WriteCall) : Prop where
  issued : call.req ∈ issued
  schema_eq : call.schema = f.schema
  n_eq : call.n = f.n
  nodup : f.nodes.Nodup
  progress : ∃ acked : List NodeId, acked.length = call.acks ∧
    (acked ++ call.remaining.map Prod.fst).Sublist f.nodes ∧
    ∀ node ∈ acked, AtLeast (regs node call.req.id) call.req.written.1

/-- The answer is not older than the write. -/
def Covers (p : Option StoredPoint) (t : Hlc) : Prop :=
  ∃ point, p = some point ∧ t ≤ point.hlc

/-- The answers to a read are writes that were issued, and each write that was
acknowledged before it began has a quorum that cannot answer with less. -/
structure GetCall.Sound (f : FixedShard) (regs : NodeId → Registers)
    (issued : List ReplicaWriteRequest) (call : GetCall) : Prop where
  schema_eq : call.schema = f.schema
  n_eq : call.n = f.n
  nodup : f.nodes.Nodup
  asked : (call.responses.map Prod.fst ++
    call.remaining.map Prod.fst).Sublist f.nodes
  seen : ∀ node p, (node, some p) ∈ call.responses →
    ∃ req ∈ issued, req.id = call.id ∧ p = pointOf call.id req.written
  acked : ∀ req level, (req, level) ∈ call.ackedBefore → req ∈ issued
  covered : ∀ req level, (req, level) ∈ call.ackedBefore → req.id = call.id →
    ∃ q, IsQuorum f.nodes (level.count f.n) q ∧
      ∀ node ∈ q, AtLeast (regs node call.id) req.written.1 ∧
        ∀ p, (node, p) ∈ call.responses → Covers p req.written.1

section Calls

variable {f : FixedShard} {regs regs' : NodeId → Registers}
variable {issued issued' : List ReplicaWriteRequest}

theorem FixedShard.Held.mono {req : ReplicaWriteRequest}
    {level : Consistency} (h : f.Held regs req level)
    (hregs : Grows regs regs') : f.Held regs' req level := by
  obtain ⟨q, hq, hheld⟩ := h
  exact ⟨q, hq, fun node hnode => hregs _ _ _ (hheld node hnode)⟩

/-! ## Writes -/

namespace WriteCall.Sound

variable {call : WriteCall}

theorem mono (h : call.Sound f regs issued) (hregs : Grows regs regs')
    (hissued : issued ⊆ issued') : call.Sound f regs' issued' := by
  obtain ⟨acked, hlen, hsub, hheld⟩ := h.progress
  exact ⟨hissued h.issued, h.schema_eq, h.n_eq, h.nodup, acked, hlen, hsub,
    fun node hnode => hregs _ _ _ (hheld node hnode)⟩

/-- One more replica was tried. -/
theorem tried (h : call.Sound f regs issued) {node : NodeId} {addr : String}
    {remaining : List (NodeId × String)}
    (hrem : call.remaining = (node, addr) :: remaining)
    {res : Except ConnError Bool}
    (hres : res = .ok true →
      AtLeast (regs node call.req.id) call.req.written.1) :
    (call.tried node remaining res).Sound f regs issued := by
  obtain ⟨acked, hlen, hsub, hheld⟩ := h.progress
  rw [hrem, List.map_cons] at hsub
  unfold WriteCall.tried
  split
  · next hok =>
      refine ⟨h.issued, h.schema_eq, h.n_eq, h.nodup, acked ++ [node], ?_, ?_,
        ?_⟩
      · rw [List.length_append, hlen, List.length_singleton]
      · rwa [List.append_assoc, List.singleton_append]
      · intro other hother
        rcases List.mem_append.mp hother with hother | hother
        · exact hheld other hother
        · rw [List.mem_singleton.mp hother]
          exact hres rfl
  · refine ⟨h.issued, h.schema_eq, h.n_eq, h.nodup, acked, hlen, ?_, hheld⟩
    have hskip : (remaining.map Prod.fst).Sublist
        (node :: remaining.map Prod.fst) := List.sublist_cons_self _ _
    exact (hskip.append_left acked).trans hsub

/-- A write that succeeds is held by a quorum. -/
theorem held (h : call.Sound f regs issued) {hints : Except RouterError Unit}
    (hresult : call.result hints = .ok ()) :
    f.Held regs call.req call.consistency := by
  obtain ⟨acked, hlen, hsub, hheld⟩ := h.progress
  have hacked : acked.Sublist f.nodes :=
    (List.sublist_append_left _ _).trans hsub
  have hacks : call.consistency.count f.n ≤ call.acks := by
    rw [← h.n_eq]
    by_contra hlow
    simp only [result] at hresult
    split at hresult
    · simp at hresult
    · rw [if_neg hlow] at hresult
      simp at hresult
  refine ⟨acked, ⟨h.nodup.sublist hacked, hacked.subset, ?_⟩, hheld⟩
  rw [hlen]
  exact hacks

end WriteCall.Sound

/-! ## Reads -/

namespace GetCall.Sound

variable {call : GetCall}

theorem mono (h : call.Sound f regs issued) (hregs : Grows regs regs')
    (hissued : issued ⊆ issued') : call.Sound f regs' issued' := by
  refine ⟨h.schema_eq, h.n_eq, h.nodup, h.asked, ?_, ?_, ?_⟩
  · intro node p hp
    obtain ⟨req, hreq, hsame⟩ := h.seen node p hp
    exact ⟨req, hissued hreq, hsame⟩
  · intro req level hreq
    exact hissued (h.acked req level hreq)
  · intro req level hreq hid
    obtain ⟨q, hq, hmembers⟩ := h.covered req level hreq hid
    refine ⟨q, hq, fun node hnode => ?_⟩
    obtain ⟨hheld, hanswers⟩ := hmembers node hnode
    exact ⟨hregs _ _ _ hheld, hanswers⟩

theorem covers_of_atLeast {r : Option (Hlc × Content)} {id : UInt64} {t : Hlc}
    (h : AtLeast r t) : Covers (r.map (pointOf id)) t := by
  obtain ⟨p, rfl, hle⟩ := h
  exact ⟨pointOf id p, rfl, hle⟩

/-- One more replica was asked. -/
theorem tried (h : call.Sound f regs issued) {node : NodeId} {addr : String}
    {remaining : List (NodeId × String)}
    (hrem : call.remaining = (node, addr) :: remaining)
    {res : Except ConnError (Option StoredPoint)}
    (hres : ∀ p, res = .ok p → p = (regs node call.id).map (pointOf call.id))
    (hheld : ∀ p, regs node call.id = some p →
      ∃ req ∈ issued, req.id = call.id ∧ req.written = p) :
    (call.tried node remaining res).Sound f regs issued := by
  have hasked := h.asked
  rw [hrem, List.map_cons] at hasked
  rcases res with e | p
  · have hskip : (remaining.map Prod.fst).Sublist
        (node :: remaining.map Prod.fst) := List.sublist_cons_self _ _
    exact ⟨h.schema_eq, h.n_eq, h.nodup,
      (hskip.append_left (call.responses.map Prod.fst)).trans hasked, h.seen,
      h.acked, h.covered⟩
  · have hp := hres p rfl
    refine ⟨h.schema_eq, h.n_eq, h.nodup, ?_, ?_, h.acked, ?_⟩
    · simp only [GetCall.tried, List.map_append, List.map_singleton,
        List.append_assoc, List.singleton_append]
      exact hasked
    · intro other point hpoint
      simp only [GetCall.tried, List.mem_append, List.mem_singleton,
        Prod.mk.injEq] at hpoint
      rcases hpoint with hold | ⟨-, hnew⟩
      · exact h.seen other point hold
      · rw [hp] at hnew
        obtain ⟨r, hr, rfl⟩ := Option.map_eq_some_iff.mp hnew.symm
        obtain ⟨req, hreq, hid, rfl⟩ := hheld r hr
        exact ⟨req, hreq, hid, rfl⟩
    · intro req level hreq hid
      obtain ⟨q, hq, hmembers⟩ := h.covered req level hreq hid
      refine ⟨q, hq, fun member hmember => ?_⟩
      obtain ⟨hatLeast, hanswers⟩ := hmembers member hmember
      refine ⟨hatLeast, fun answer hanswer => ?_⟩
      simp only [GetCall.tried, List.mem_append, List.mem_singleton,
        Prod.mk.injEq] at hanswer
      rcases hanswer with hold | ⟨rfl, rfl⟩
      · exact hanswers answer hold
      · rw [hp]
        exact covers_of_atLeast hatLeast

/-- A read that has enough answers is not behind a write that a quorum held
before it began. -/
theorem outcome (h : call.Sound f regs issued) {winner : Option StoredPoint}
    (houtcome : call.responses.outcome f.collection f.shardIdx
      call.consistency call.n = .ok winner)
    {req : ReplicaWriteRequest} {level : Consistency}
    (hreq : (req, level) ∈ call.ackedBefore) (hid : req.id = call.id)
    (hquorums : f.n < level.count f.n + call.consistency.count f.n) :
    ∃ win source, winner = some win ∧ source ∈ issued ∧
      source.id = call.id ∧ win = pointOf call.id source.written ∧
      req.written.1 ≤ source.written.1 := by
  simp only [Responses.outcome] at houtcome
  split_ifs at houtcome with hfew
  rw [h.n_eq] at hfew
  have hsub : (call.responses.map Prod.fst).Sublist f.nodes :=
    (List.sublist_append_left _ _).trans h.asked
  have hanswered : IsQuorum f.nodes (call.consistency.count f.n)
      (call.responses.map Prod.fst) := by
    refine ⟨h.nodup.sublist hsub, hsub.subset, ?_⟩
    rw [List.length_map]
    exact not_lt.mp hfew
  obtain ⟨q, hq, hmembers⟩ := h.covered req level hreq hid
  obtain ⟨node, hnode, hanswer⟩ := hq.exists_common hanswered hquorums
  obtain ⟨⟨node', p⟩, hp, rfl⟩ := List.mem_map.mp hanswer
  obtain ⟨point, rfl, hle⟩ := (hmembers _ hnode).2 p hp
  have hpoint : point ∈ call.responses.filterMap Prod.snd :=
    List.mem_filterMap.mpr ⟨_, hp, rfl⟩
  obtain ⟨win, hwin, hmax⟩ :=
    @exists_maxByKey _ _ _ StoredPoint.hlc _ _ hpoint
  obtain ⟨hmem, -⟩ := maxByKey_spec hwin
  obtain ⟨⟨other, answer⟩, hother, rfl⟩ := List.mem_filterMap.mp hmem
  obtain ⟨source, hsource, hsourceId, rfl⟩ := h.seen other _ hother
  refine ⟨_, source, ?_, hsource, hsourceId, rfl, hle.trans hmax⟩
  rw [← Except.ok.inj houtcome]
  exact hwin

end GetCall.Sound

end Calls

/-! ## A shard with one replica -/

namespace OneReplica

def schema : CollectionSchema where
  dim := 1
  metric := .l2
  shardCount := 1
  replicationN := 1

/-- Two nodes, and a collection whose one shard has one replica. -/
def metadata : MetaState where
  nodes := (∅ : Std.ExtTreeMap NodeId String).insert 1 "a" |>.insert 2 "b"
  collections := (∅ : Std.ExtTreeMap String CollectionSchema).insert "c" schema
  shardStates := ∅

def shard : FixedShard where
  collection := "c"
  shardIdx := 0
  schema := schema
  nodes := [1]

/-- A node that has just started. -/
def fresh : NodeState where
  metadata := metadata
  shards := .new 0 0
  clock := Hlc.zero
  hintLog := none

/-- The first stamp of a node whose wall clock shows 5. -/
def stamp : Hlc := HlcClock.now Hlc.zero 5

/-- An upsert with that stamp. -/
def req (x : F32) : ReplicaWriteRequest where
  collection := "c"
  shardIdx := 0
  op := ShardStore.opUpsert
  id := 7
  hlc := stamp.pack
  vector := [x]
  payload := []

def call (node : NodeId) (x : F32) : WriteCall where
  coordinator := node
  req := req x
  schema := schema
  consistency := .one
  n := 1
  remaining := [(1, "a")]
  acks := 0
  unreachable := []

theorem schema_eq : metadata.collections["c"]? = some schema :=
  Std.ExtTreeMap.getElem?_insert_self

/-- When all positions on the ring coincide, the least node is the replica. -/
theorem replicas_eq :
    replicasWithAddrs (fun _ => 0) metadata "c" 0 = [(1, "a")] := by
  have hkeys : metadata.nodes.keys = [1, 2] := by decide +kernel
  have hvnodes : (Ring.new (fun _ => 0) [1, 2] defaultVnodes).vnodes =
      List.replicate 64 (0, 1) ++ List.replicate 64 (0, 2) := by
    rw [Ring.new]
    apply (List.mergeSort_of_pairwise (by decide +kernel)).trans
    decide +kernel
  rw [replicasWithAddrs, MetaState.replicasForShard, schema_eq]
  simp only [MetaState.ring, hkeys, Ring.replicasForShard, hvnodes]
  decide +kernel

theorem pinned : shard.Pinned (fun _ => 0) metadata := by
  intro known hknown
  have hreplicas : replicasWithAddrs (fun _ => 0) metadata shard.collection
      shard.shardIdx = [(1, "a")] := replicas_eq
  refine ⟨Option.some.inj (hknown.symm.trans schema_eq), ?_⟩
  rw [hreplicas]
  rfl

theorem shardForId_eq : shardForId (fun _ => 0) 7 schema.shardCount = 0 := by
  simp [shardForId, schema]

theorem fits_req (x : F32) : shard.Fits (req x) := by
  refine ⟨rfl, fun v hv => ?_, ?_⟩
  · have hvector : some [x] = some v := hv
    rw [← Option.some.inj hvector]
    rfl
  · simp [ReplicaWriteRequest.FitsFrame, WalRecord.FitsFrame,
      WalRecord.length_encodeBody, req, ShardStore.callOf,
      ShardStore.opUpsert, ShardStore.opDelete, ShardCall.record,
      WalRecord.ofUpsert]

end OneReplica

end Quorvec
