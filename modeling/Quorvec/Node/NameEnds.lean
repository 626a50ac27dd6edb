import Quorvec.Node.NameLife

/-!
# When dropping a name ends its data

If nothing of a name is left when it is created again, then from there on every
shard of the name holds only what was stamped since.
-/

namespace Quorvec

open TotalCorrectness LastWriterWins ByteCodec

namespace NameState

/-- While the name exists, what the nodes hold of it and the requests in flight
are of its present life. -/
structure Live (R : Runtime) (name : String) (s : NameState) : Prop where
  nodes : ∀ node, (s.world node).OnlySince R name s.since
  pending : ∀ req ∈ s.pending, req.Since name s.since

/-- A name that exists is live. -/
structure Sound (R : Runtime) (name : String) (s : NameState) : Prop where
  fits : ∀ req ∈ s.since, req.FitsFrame
  live : s.committed.isSome → s.Live R name

variable {R : Runtime} {xxh64 : Bytes → UInt64} {name : String}
variable {s s' : NameState}

theorem Initial.sound (h : Initial name s) : Sound R name s := by
  constructor
  · simp [h.since]
  · simp [h.committed]

namespace Sound

/-- A node changes. -/
theorem setNode (h : Sound R name s) {node : NodeId} {state : NodeState}
    (hstate : s.committed.isSome → state.OnlySince R name s.since) :
    Sound R name (s.setNode node state) := by
  refine ⟨h.fits, fun hexists => ⟨fun other => ?_, (h.live hexists).pending⟩⟩
  by_cases hnode : other = node
  · subst hnode
    simpa only [NameState.setNode, Function.update_self] using hstate hexists
  · simpa only [NameState.setNode, Function.update_of_ne hnode]
      using (h.live hexists).nodes other

theorem send (h : Sound R name s) {sent : List ReplicaWriteRequest}
    (hsent : s.committed.isSome → ∀ req ∈ sent, req.Since name s.since) :
    Sound R name { s with pending := sent ++ s.pending } := by
  refine ⟨h.fits, fun hexists => ⟨(h.live hexists).nodes, fun req hreq => ?_⟩⟩
  rcases List.mem_append.mp hreq with hreq | hreq
  · exact hsent hexists req hreq
  · exact (h.live hexists).pending req hreq

/-! ### Entries of the log -/

theorem create (h : Sound R name s) (schema : CollectionSchema)
    (hleft : s.NothingLeft R name) :
    Sound R name (s.commit (some schema)) := by
  refine ⟨h.fits, fun _ => ⟨fun node shardIdx => ?_, fun req hreq => ?_⟩⟩
  · exact (hleft.blank node shardIdx).mono fun _ _ => False.elim
  · have hnil : req ∈ ([] : List ReplicaWriteRequest) := hleft.pending ▸ hreq
    simp at hnil

theorem drop : Sound R name { s.commit none with since := [] } := by
  constructor
  · simp
  · simp [commit]

theorem learn (h : Sound R name s) (node : NodeId) (metadata : MetaState)
    (inbox : NodeId → List (Option CollectionSchema)) :
    Sound R name { s.setNode node { s.world node with metadata } with
      inbox } := by
  have hnode := @setNode R name s h node { s.world node with metadata }
    fun hexists => ((h.live hexists).nodes node).of_slots_eq fun _ => rfl
  exact ⟨hnode.fits, fun hexists =>
    ⟨(hnode.live hexists).nodes, (hnode.live hexists).pending⟩⟩

/-! ### Operations -/

theorem dropLocal (h : Sound R name s) (node : NodeId) :
    Sound R name (s.setNode node { s.world node with
      shards := (s.world node).shards.dropCollection name }) :=
  h.setNode fun hexists => ((h.live hexists).nodes node).dropCollection

theorem take (h : Sound R name s) (views : List CollectionSchema) :
    Sound R name { s with views } :=
  ⟨h.fits, fun hexists =>
    ⟨(h.live hexists).nodes, (h.live hexists).pending⟩⟩

/-- A write is stamped: only the clock moves, and the request is of the present
life. -/
theorem stamped (h : Sound R name s) {node : NodeId}
    {out : NodeState × Except RouterError ReplicaWriteRequest}
    (hname : ∀ req, out.2 = .ok req → req.collection = name)
    (hfits : ∀ req, out.2 = .ok req → req.FitsFrame) :
    Sound R name (s.stamped node out) := by
  rcases out with ⟨state, e | req⟩
  · exact h
  have hclock : Sound R name
      (s.setNode node { s.world node with clock := state.clock }) :=
    h.setNode fun hexists =>
      ((h.live hexists).nodes node).of_slots_eq fun _ => rfl
  have hsub : s.since ⊆ req :: s.since := List.subset_cons_self _ _
  refine ⟨?_, fun hexists => ?_⟩
  · intro old hold
    rcases List.mem_cons.mp hold with rfl | hold
    · exact hfits old rfl
    · exact h.fits old hold
  · obtain ⟨hnodes, hpending⟩ := hclock.live hexists
    refine ⟨fun other => (hnodes other).mono hsub, ?_⟩
    intro old hold
    rcases List.mem_cons.mp hold with rfl | hold
    · exact ⟨hname old rfl, hfits old rfl, old, List.mem_cons_self, rfl, rfl,
        rfl⟩
    · exact (hpending old hold).mono hsub

theorem receive (h : Sound R name s) {node : NodeId} {reading : ℕ}
    {req : ReplicaWriteRequest} (hreq : req ∈ s.pending) :
    Sound R name
      (s.setNode node ((s.world node).replicaWrite R reading req).1) :=
  h.setNode fun hexists => ((h.live hexists).nodes node).replicaWrite
    ((h.live hexists).pending req hreq) reading

theorem applyLocal (h : Sound R name s) {node : NodeId}
    (schema : CollectionSchema) {req : ReplicaWriteRequest}
    (hreq : req ∈ s.pending) :
    Sound R name (s.setNode node { s.world node with
      shards := ((s.world node).shards.write R
        (shardRef req.collection req.shardIdx schema) req.op
        (Hlc.unpack req.hlc) req.id req.vector req.payload).1 }) :=
  h.setNode fun hexists => ((h.live hexists).nodes node).write
    ((h.live hexists).pending req hreq) schema (s.world node).clock

/-- A replica has answered with what its shard holds. -/
theorem answered {ε : Type} (h : Sound R name s) {node : NodeId}
    {shardIdx : UInt32} {id : UInt64}
    {out : NodeState × Except ε (Option StoredPoint)}
    (hout : s.committed.isSome →
      out.1.OnlySince R name s.since ∧
        ∀ point, out.2 = .ok (some point) → ∃ p,
          WrittenBy s.since { collection := name, shardIdx } id p ∧
            point = pointOf id p) :
    Sound R name (NameState.answered name s node shardIdx out) := by
  have hnode : Sound R name (s.setNode node out.1) :=
    h.setNode fun hexists => (hout hexists).1
  rcases out with ⟨state, e | _ | point⟩
  · exact hnode
  · exact hnode
  · refine @send _ _ _ hnode [point.repair name shardIdx]
      fun hexists req hreq => ?_
    obtain ⟨p, hp, rfl⟩ := (hout hexists).2 _ rfl
    rw [List.mem_singleton.mp hreq]
    exact hp.repair h.fits

theorem get (h : Sound R name s) (node : NodeId) (shardIdx : UInt32)
    (id : UInt64) :
    Sound R name (NameState.answered name s node shardIdx
      ((s.world node).replicaGet R name shardIdx id)) :=
  h.answered fun hexists => ((h.live hexists).nodes node).replicaGet shardIdx id

theorem readLocal (h : Sound R name s) (schema : CollectionSchema)
    (node : NodeId) (shardIdx : UInt32) (id : UInt64) :
    Sound R name (NameState.answered name s node shardIdx
      ((s.world node).readLocal R name shardIdx schema id)) :=
  h.answered fun hexists =>
    ((h.live hexists).nodes node).readLocal shardIdx schema id

theorem search (h : Sound R name s) (schema : CollectionSchema)
    (node : NodeId) (shardIdx : UInt32) (query : List F32) (k efSearch : ℕ) :
    Sound R name (s.setNode node { s.world node with
      shards := ((s.world node).shards.searchShard R
        (shardRef name shardIdx schema) query k efSearch).1 }) :=
  h.setNode fun hexists => (((h.live hexists).nodes node).searchShard shardIdx
    schema query k efSearch).1

theorem stream (h : Sound R name s) (schema : CollectionSchema)
    (node : NodeId) (shardIdx : UInt32) :
    Sound R name (NameState.streamed name s node shardIdx
      ((s.world node).streamShard R name shardIdx schema)) := by
  have hout := fun hexists =>
    ((h.live hexists).nodes node).streamShard h.fits shardIdx schema
  have hnode := @setNode _ _ _ h node
    ((s.world node).streamShard R name shardIdx schema).1
    fun hexists => (hout hexists).1
  rcases hstream : (s.world node).streamShard R name shardIdx schema with
    ⟨state, e | rows⟩
  · rw [hstream] at hnode
    exact hnode
  · rw [hstream] at hnode hout
    refine hnode.send fun hexists req hreq => ?_
    obtain ⟨row, hrow, rfl⟩ := List.mem_map.mp hreq
    exact (hout hexists).2 rows rfl row hrow

theorem pull (h : Sound R name s) (schema : CollectionSchema)
    {shardIdx : UInt32} {row : Shard.ShardRecordRow}
    (hrow : row.request name shardIdx ∈ s.pending) (node : NodeId)
    (reading : ℕ) :
    Sound R name (s.setNode node ((s.world node).pullRecord R reading name
      shardIdx schema row).1) :=
  h.setNode fun hexists => ((h.live hexists).nodes node).pullRecord reading
    schema ((h.live hexists).pending _ hrow)

theorem settle (h : Sound R name s) {pending : List ReplicaWriteRequest}
    (hpending : pending ⊆ s.pending) (views : List CollectionSchema) :
    Sound R name { s with pending, views } :=
  ⟨h.fits, fun hexists => ⟨(h.live hexists).nodes,
    fun req hreq => (h.live hexists).pending req (hpending hreq)⟩⟩

theorem elsewhere (h : Sound R name s) {node : NodeId} {state : NodeState}
    (hstate : Elsewhere name (s.world node) state) :
    Sound R name (s.setNode node state) :=
  h.setNode fun hexists =>
    ((h.live hexists).nodes node).of_slots_eq hstate.slots_eq

theorem step (h : Sound R name s) {e : NameStep}
    (hclean : e.Clean R xxh64 name s) (hstep : Step R xxh64 name s e s') :
    Sound R name s' := by
  cases hstep with
  | create => exact h.create _ (hclean.nothing_left _ rfl)
  | drop => exact drop
  | learn => exact h.learn _ _ _
  | dropLocal => exact h.dropLocal _
  | begin => exact h.take _
  | upsert =>
    refine h.stamped ?_ fun req hreq => hclean.fits req ?_
    · exact NodeState.collection_stampUpsert
    · simp only [NameStep.stamps, hreq, Except.toOption]
  | delete =>
    refine h.stamped ?_ fun req hreq => hclean.fits req ?_
    · exact NodeState.collection_stampDelete
    · simp only [NameStep.stamps, hreq, Except.toOption]
  | receive hreq => exact h.receive hreq
  | applyLocal hreq => exact h.applyLocal _ hreq
  | get => exact h.get _ _ _
  | readLocal => exact h.readLocal _ _ _ _
  | search => exact h.search _ _ _ _ _ _
  | stream => exact h.stream _ _ _
  | pull _ hrow => exact h.pull _ hrow _ _
  | settle hpending => exact h.settle hpending _
  | elsewhere hstate => exact h.elsewhere hstate

end Sound

theorem Run.sound
    (h : Run R xxh64 name (fun s e => e.Clean R xxh64 name s) s) :
    Sound R name s := by
  induction h with
  | init hinit => exact hinit.sound
  | step e _ hclean hstep ih => exact ih.step hclean hstep

end NameState

/-- In every run in which a name is only created when nothing of it is left,
and what is stamped fits its frame, dropping the name ends its data. -/
theorem dropEndsData_of_clean (R : Runtime) (xxh64 : Bytes → UInt64)
    (name : String) :
    DropEndsData R xxh64 name fun s e => e.Clean R xxh64 name s := by
  intro s hrun schema hschema node shardIdx known _
  have hnode := (hrun.sound.live (by simp [hschema])).nodes node
  constructor
  · intro id point hpoint
    obtain ⟨p, ⟨req, hreq, hkey, hid, rfl⟩, rfl⟩ :=
      (hnode.readLocal shardIdx known id).2 point hpoint
    exact ⟨req, hreq, hkey, hid, rfl⟩
  · intro query k efSearch hits hhits hit hhit
    obtain ⟨p, ⟨req, hreq, hkey, hid, rfl⟩, hlive⟩ :=
      (hnode.searchShard shardIdx known query k efSearch).2 hits hhits hit hhit
    exact ⟨req, hreq, hkey, hid, hlive⟩

/-! ## A name that is created again -/

namespace Recreated

def schema : CollectionSchema where
  dim := 1
  metric := .l2
  shardCount := 1
  replicationN := 1

/-- What a node knows while the collection is there. -/
def metadata : MetaState where
  nodes := ∅
  collections := (∅ : Std.ExtTreeMap String CollectionSchema).insert "c" schema
  shardStates := ∅

/-- What a node knows otherwise. -/
def nothing : MetaState where
  nodes := ∅
  collections := ∅
  shardStates := ∅

/-- A node on which no collection was ever used. -/
def fresh : NodeState where
  metadata := nothing
  shards := .new 0 0
  clock := Hlc.zero
  hintLog := none

/-- The first stamp of a node whose wall clock shows 5. -/
def stamp : Hlc := HlcClock.now Hlc.zero 5

/-- The upsert before the drop. -/
def req : ReplicaWriteRequest where
  collection := "c"
  shardIdx := 0
  op := ShardStore.opUpsert
  id := 7
  hlc := stamp.pack
  vector := [0]
  payload := []

def start : NameState where
  world := fun _ => fresh
  committed := none
  inbox := fun _ => []
  views := []
  pending := []
  since := []

theorem schema_eq : metadata.collections["c"]? = some schema :=
  Std.ExtTreeMap.getElem?_insert_self

theorem nothing_eq : nothing.collections["c"]? = none :=
  Std.ExtTreeMap.getElem?_empty

theorem initial : NameState.Initial "c" start :=
  ⟨fun _ => nothing_eq, fun _ _ => rfl, rfl, fun _ => rfl, rfl, rfl, rfl⟩

theorem fits_req : req.FitsFrame := by
  simp [ReplicaWriteRequest.FitsFrame, WalRecord.FitsFrame,
    WalRecord.length_encodeBody, req, ShardStore.callOf,
    ShardStore.opUpsert, ShardStore.opDelete, ShardCall.record,
    WalRecord.ofUpsert]

/-- The node stamps the upsert. -/
theorem stampUpsert (s : NodeState) (hclock : s.clock = Hlc.zero) :
    { s with metadata }.stampUpsert (fun _ => 0) 5 "c" 7 [0] [] =
      ({ s with metadata, clock := stamp }, .ok req) := by
  have hdim : ¬ ([0] : List F32).length ≠ schema.dim.toNat :=
    not_not_intro rfl
  have hshard : shardForId (fun _ => 0) 7 schema.shardCount = 0 := by
    simp [shardForId, schema]
  simp only [NodeState.stampUpsert, schema_eq, if_neg hdim, hshard, hclock]
  rfl

/-- What the shard holds after the upsert. -/
def held : Registers :=
  deliverWith LastWriterWins.offer (fun _ => none) (req.id, req.written)

theorem held_eq : held 7 = some req.written := by
  simp [held, deliverWith, LastWriterWins.offer, Beats, req]

/-- The store of the node after the upsert. -/
def written (R : Runtime) : ShardStore :=
  (fresh.shards.write R (shardRef "c" 0 schema) req.op (Hlc.unpack req.hlc)
    req.id req.vector req.payload).1

theorem keeps_held (R : Runtime) :
    (((written R).dropCollection "c").slots
      { collection := "c", shardIdx := 0 }).Keeps R 1 .l2 held := by
  have hblank := ShardSlot.blank_unused (R := R) 1 .l2 Nat.one_pos
  exact ShardStore.keeps_dropCollection
    (@ShardStore.write_keeps_offer R fresh.shards (shardRef "c" 0 schema)
      (fun _ => none) req.op (Hlc.unpack req.hlc) req.id req.vector req.payload
      hblank fits_req fun v hv => by
        rw [← Option.some.inj hv]
        rfl) "c"

/-- The runs of the name, all of whose steps are admitted. -/
abbrev AnyRun (R : Runtime) (s : NameState) : Prop :=
  NameState.Run R (fun _ => 0) "c" (fun _ _ => True) s

/-- A run in which the point is written. -/
theorem upserted (R : Runtime) : ∃ s, AnyRun R s ∧
    s.committed = some schema ∧ s.inbox 1 = [] ∧
    s.world 1 = { fresh with
      metadata, shards := written R, clock := stamp } := by
  have hrun₀ : AnyRun R start := .init initial
  have hrun₁ := hrun₀.step (.create schema) trivial (.create rfl Nat.one_pos)
  have hrun₂ := hrun₁.step (.learn 1 metadata) trivial (.learn rfl schema_eq)
  have hrun₃ := hrun₂.step (.begin 1) trivial (.begin (by
    simp only [NameState.setNode, Function.update_self]
    exact schema_eq))
  have hrun₄ := hrun₃.step (.upsert 1 5 metadata 7 [0] []) trivial
    (.upsert schema_eq List.mem_cons_self)
  rw [stampUpsert _ (by simp only [NameState.setNode, Function.update_self]; rfl)]
    at hrun₄
  have hrun₅ := hrun₄.step (.applyLocal 1 schema req) trivial
    (.applyLocal List.mem_cons_self List.mem_cons_self)
  refine ⟨_, hrun₅, rfl, ?_, ?_⟩
  · simp only [NameState.stamped, NameState.setNode, Function.update_self]
  · simp only [NameState.stamped, NameState.setNode, Function.update_self]
    rfl

/-- The node that has learned of the collection. -/
def knowing : NodeState := { fresh with metadata }

/-- The node after a search of the new collection. -/
def searched (R : Runtime) : NodeState :=
  { knowing with shards := (knowing.shards.searchShard R
      (shardRef "c" 0 schema) [] 0 0).1 }

theorem hasShard_searched (R : Runtime) :
    (searched R).shards.hasShard "c" 0 = true := by
  let sref := shardRef "c" 0 schema
  have hblank : (knowing.shards.slots sref.key).Keeps R 1 .l2 fun _ => none :=
    ShardSlot.blank_unused 1 .l2 Nat.one_pos
  obtain ⟨shard, -, haccess⟩ := @ShardStore.access_of_keeps R knowing.shards
    sref (fun _ => none) _ hblank fun shard => (shard, shard.search R [] 0 0)
  rw [searched, ShardStore.searchShard, haccess, ShardStore.hasShard]
  simp only [show ({ collection := "c", shardIdx := 0 } : ShardKey) = sref.key
    from rfl, ShardStore.slots_put_self]

/-- The schema that the name gets the second time. -/
def wider : CollectionSchema := { schema with dim := 2 }

/-- The runs that the condition admits. -/
abbrev CleanRun (R : Runtime) (xxh64 : Bytes → UInt64) (s : NameState) :
    Prop :=
  NameState.Run R xxh64 "c" (fun s e => e.Clean R xxh64 "c" s) s

theorem CleanRun.next {R : Runtime} {xxh64 : Bytes → UInt64}
    {s s' : NameState} {e : NameStep} (hrun : CleanRun R xxh64 s)
    (hstep : NameState.Step R xxh64 "c" s e s')
    (hcreate : ∀ schema, e ≠ .create schema)
    (hstamps : e.stamps xxh64 "c" s = none) : CleanRun R xxh64 s' :=
  hrun.step e ⟨fun schema he => absurd he (hcreate schema),
    by simp [hstamps]⟩ hstep

/-- The name is created when no request is pending and no node holds
anything. -/
theorem CleanRun.create {R : Runtime} {xxh64 : Bytes → UInt64}
    {s : NameState} (hrun : CleanRun R xxh64 s)
    (hcommitted : s.committed = none) (hpending : s.pending = [])
    (hnodes : ∀ node, (s.world node).OnlySince R "c" [])
    (new : CollectionSchema) (hdim : 0 < new.dim.toNat) :
    CleanRun R xxh64 (s.commit (some new)) := by
  refine hrun.step (.create new) ⟨fun _ _ =>
    ⟨hpending, fun node shardIdx => ?_⟩, by simp [NameStep.stamps]⟩
    (.create hcommitted hdim)
  exact (hnodes node shardIdx).mono fun _ _ ⟨_, hreq, _⟩ =>
    List.not_mem_nil hreq

end Recreated

open Recreated in
/-- A node has opened the shard of the first life, and nothing was written: the
name is created again with another dimension. -/
theorem dropEndsData_of_clean_opened (R : Runtime) (xxh64 : Bytes → UInt64) :
    ∃ s, CleanRun R xxh64 s ∧ s.committed = some wider ∧
      (s.world 1).shards.hasShard "c" 0 = true := by
  have hunused : fresh.OnlySince R "c" [] := fun _ => ShardSlot.within_unused
  have hknowing : knowing.OnlySince R "c" [] := hunused.of_slots_eq fun _ => rfl
  have hsearched : (searched R).OnlySince R "c" [] :=
    (hknowing.searchShard 0 schema [] 0 0).1
  have hrun₁ : CleanRun R xxh64 _ := CleanRun.create (.init initial) rfl rfl
    (fun _ => hunused) schema Nat.one_pos
  have hrun₂ := hrun₁.next (e := .learn 1 metadata) (.learn rfl schema_eq)
    (by simp) rfl
  have hrun₃ := hrun₂.next (e := .begin 1) (.begin (by
    simp only [NameState.setNode, Function.update_self]
    exact schema_eq)) (by simp) rfl
  have hrun₄ := hrun₃.next (e := .search 1 schema 0 [] 0 0)
    (.search List.mem_cons_self) (by simp) rfl
  have hrun₅ := hrun₄.next (e := .drop) (.drop rfl) (by simp) rfl
  refine ⟨_, hrun₅.create rfl rfl (fun node => ?_) wider (by decide), rfl, ?_⟩
  · by_cases hnode : node = 1
    · subst hnode
      simp only [NameState.commit, NameState.setNode, Function.update_self]
      exact hsearched
    · simp only [NameState.commit, NameState.setNode,
        Function.update_of_ne hnode]
      exact hunused
  · simp only [NameState.commit, NameState.setNode, Function.update_self]
    exact hasShard_searched R

open Recreated in
/-- A point is upserted, the collection is dropped and created again.  The node
that served the drop has closed its shard, but opens the same directory again,
and returns the point. -/
theorem not_dropEndsData :
    ¬ ∀ R xxh64 name, DropEndsData R xxh64 name fun _ _ => True := by
  intro hall
  obtain ⟨s₅, hrun₅, hcommitted, hinbox, hnode⟩ := upserted .constant
  have hrun₆ := hrun₅.step .drop trivial (.drop (by rw [hcommitted]; rfl))
  have hrun₇ := hrun₆.step (.dropLocal 1) trivial .dropLocal
  have hrun₈ := hrun₇.step (.learn 1 nothing) trivial (NameState.Step.learn
    (by simp only [NameState.setNode, NameState.commit, hinbox]; rfl) nothing_eq)
  have hrun₉ := hrun₈.step (.create schema) trivial (.create rfl Nat.one_pos)
  -- the directory opens to what was written
  obtain ⟨req, hreq, -⟩ := (hall _ _ _ _ hrun₉ schema rfl 1 0 schema
    (.inl rfl)).1 7 (pointOf 7 req.written) (by
      simp only [NameState.commit, NameState.setNode, Function.update_self,
        hnode]
      rw [NodeState.readLocal_of_keeps (keeps_held .constant), held_eq]
      rfl)
  exact absurd hreq List.not_mem_nil

end Quorvec
