import Quorvec.Node.Handoff
import Quorvec.Node.QuorumIntersection
import Quorvec.Node.ReadRepair

/-!
# Eventual consistency

Any number of nodes coordinate writes and reads of a shard at once, replica by
replica, while winners are pushed, hints are replayed, and nodes restart.

At every moment each write that was issued is held by each replica, or is hinted
for it, or is still on its way there.  So once the writes have ended and the
hints have been replayed, in whatever order all of this happened, every replica
is the same as one that was offered all writes one after another, and so is
what any read returns.
-/

namespace Quorvec

open LastWriterWins ByteCodec Quorum

/-- A step that starts no write in the place of another, and ends none. -/
def QuorumStep.KeepsCalls (s : QuorumState) : QuorumStep → Prop
  | .startUpsert i .. | .startDelete i .. => s.writes i = none
  | .endWrite .. => False
  | _ => True

/-- Replay passes of some nodes, one after another. -/
def replayPasses (R : Runtime) :
    List (NodeId × (ℕ → PushEnv)) → World → World
  | [], w => w
  | (self, env) :: passes, w =>
      replayPasses R passes (replayHints R self env w).1

namespace QuorumState

/-- A replica that was offered the writes in the order of their stamping. -/
def ideal (s : QuorumState) : Registers :=
  (s.issued.reverse.map fun req => (req.id, req.written)).foldl
    (deliverWith offer) fun _ => none

/-- The write is still to be tried at the node, or is still to be hinted. -/
def InProgress (s : QuorumState) (req : ReplicaWriteRequest) (node : NodeId) :
    Prop :=
  ∃ i call, s.writes i = some call ∧ call.req = req ∧
    (node ∈ call.remaining.map Prod.fst ∨ node ∈ call.unreachable)

section Statement

variable (R : Runtime) (xxh64 : Bytes → UInt64) (f : FixedShard)

/-- The coordinator of a write has buffered its hints. -/
def hinted (s : QuorumState) (env : Env) (call : WriteCall) : QuorumState :=
  s.setNode call.coordinator { s.world call.coordinator with
    hintLog := (bufferHints R env call.req call.unreachable
      (s.world call.coordinator).hintLog).1 }

/-- Calls go on in any order.  The hint stores work, no hint is buffered at a
node while it makes a replay pass, and nodes restart when they coordinate no
write. -/
inductive HintedRun : QuorumState → Prop
  | init {s : QuorumState} : Initial xxh64 f s →
      (∀ node, (s.world node).hintLog = none) → HintedRun s
  | step {s s' : QuorumState} (e : QuorumStep) : HintedRun s →
      e.KeepsCalls s → e.FitsApart xxh64 f s →
      s.step R xxh64 f e = some s' → HintedRun s'
  | endWrite {s s' : QuorumState} {i : ℕ} {call : WriteCall} {env : Env} :
      HintedRun s → s.writes i = some call →
      (∀ hint, env.hintFault hint = none) →
      (∀ target, (call.req.hintFor target).FitsFrame) →
      (s.hinted R env call).step R xxh64 f (.endWrite i
        (bufferHints R env call.req call.unreachable
          (s.world call.coordinator).hintLog).2.2) = some s' →
      HintedRun s'
  | replay {s : QuorumState} (self : NodeId) (env : ℕ → PushEnv) :
      HintedRun s →
      HintedRun { s with world := (replayHints R self env s.world).1 }
  | restart {s : QuorumState} {node : NodeId} {state : NodeState} :
      HintedRun s →
      (∀ i call, s.writes i = some call → call.coordinator ≠ node) →
      Restarts R xxh64 f s.sent (s.world node) state →
      state.hintLog = (s.world node).hintLog →
      HintedRun (s.crash node state)
  /-- Other shards are written, and hinted. -/
  | elsewhere {s : QuorumState} {node : NodeId} {state : NodeState}
      {hints hints' : List Hint} : HintedRun s →
      Elsewhere xxh64 f (s.world node) state →
      HintLog.Holds R.crc32 (s.world node).hintLog hints →
      HintLog.Holds R.crc32 state.hintLog hints' →
      (∀ x, x.request.key = f.key → (x ∈ hints ↔ x ∈ hints')) →
      HintedRun (s.setNode node state)

/-- The node has a hint for the replica with this write. -/
def HintedAt (s : QuorumState) (req : ReplicaWriteRequest)
    (target owner : NodeId) : Prop :=
  ∃ hints, readAllHints R.crc32 (s.world owner).hintLog = .ok hints ∧
    req.hintFor target ∈ hints

/-- The node has no hint for the shard. -/
def Drained (s : QuorumState) (node : NodeId) : Prop :=
  ∃ hints, readAllHints R.crc32 (s.world node).hintLog = .ok hints ∧
    ∀ x ∈ hints, x.request.key ≠ f.key

/-- The replicas are the ideal one, and so is what any read returns. -/
structure Settled (s : QuorumState) : Prop where
  replicas : ∃ regs, s.world.Serves R xxh64 f regs ∧
    ∀ node ∈ f.nodes, regs node = s.ideal
  reads : ∀ self schema,
    (s.world self).metadata.collections[f.collection]? = some schema →
    ∀ id, shardForId xxh64 id schema.shardCount = f.shardIdx →
    ∀ consistency fate w pushes responses winner,
      getPoint R xxh64 self (s.world self).metadata schema f.collection
        consistency fate id s.world = (w, pushes, responses, .ok winner) →
      winner = (s.ideal id).map (pointOf id) ∧ pushes = []

/-- In every run, no write is ever lost on the way; and as soon as no write is
in progress and no hint is left, or passes that are answered have replayed those
that are, the replicas are settled. -/
def EventuallyConsistent : Prop :=
  ∀ s, HintedRun R xxh64 f s →
    (∃ regs, s.world.Serves R xxh64 f regs ∧
      ∀ req ∈ s.issued, ∀ node ∈ f.nodes, Taken regs req node ∨
        (∃ owner, s.HintedAt R req node owner) ∨ s.InProgress req node) ∧
    ((∀ i, s.writes i = none) → (∀ node, s.Drained R f node) →
      s.Settled R xxh64 f) ∧
    ∀ passes : List (NodeId × (ℕ → PushEnv)), (∀ i, s.writes i = none) →
      (∀ pass ∈ passes, ∀ i, (pass.2 i).fate = .answered) →
      (∀ node, (s.world node).metadata.collections[f.collection]? =
        some f.schema) →
      (∀ node, node ∈ passes.map Prod.fst ∨ s.Drained R f node) →
      Settled R xxh64 f { s with world := replayPasses R passes s.world }

end Statement

/-! ## The winner among the writes -/

/-- What was written to an id. -/
def versions (s : QuorumState) (id : UInt64) : Set (Hlc × Content) :=
  {p | ∃ req ∈ s.issued, req.id = id ∧ req.written = p}

theorem isWinner_ideal (s : QuorumState) (id : UInt64) :
    IsWinner (s.versions id) (s.ideal id) := by
  have hset : s.versions id = offered (fun _ => none)
      (s.issued.reverse.map fun req => (req.id, req.written)) id := by
    ext p
    simp [versions, offered]
  rw [hset]
  exact isWinner_deliver _ _ _

section Winner

variable {R : Runtime} {xxh64 : Bytes → UInt64} {f : FixedShard}
variable {regs : NodeId → Registers} {s : QuorumState}

theorem Sound.key_eq (h : Sound R xxh64 f regs s) {req : ReplicaWriteRequest}
    (hreq : req ∈ s.issued) : req.key = f.key :=
  (h.fits req (h.issued_sent hreq)).key_eq

theorem Sound.agree (h : Sound R xxh64 f regs s) (id : UInt64) :
    Agree (s.versions id) := by
  rintro _ ⟨a, ha, rfl, rfl⟩ _ ⟨b, hb, hid, rfl⟩ hstamp
  have hkey := (h.key_eq ha).trans (h.key_eq hb).symm
  exact h.agreeing a ha b hb hkey hid.symm hstamp

theorem Sound.eq_ideal (h : Sound R xxh64 f regs s) {node : NodeId}
    (htaken : ∀ req ∈ s.issued, Taken regs req node) :
    regs node = s.ideal := by
  funext id
  have hwinner : IsWinner (s.versions id) (regs node id) := by
    refine ⟨h.held node id, ?_⟩
    rintro _ ⟨req, hreq, rfl, rfl⟩
    exact htaken req hreq
  exact hwinner.unique (s.isWinner_ideal id) (h.agree id)

end Winner

/-! ## What a step does to the writes on their way -/

section Step

variable {R : Runtime} {xxh64 : Bytes → UInt64} {f : FixedShard}
variable {regs : NodeId → Registers} {s s' : QuorumState}

/-- Every write on its way to a node arrives or stays on its way, and no hint
is touched. -/
structure Follows (f : FixedShard) (regs regs' : NodeId → Registers)
    (s s' : QuorumState) : Prop where
  grows : Grows regs regs'
  hintLog_eq : ∀ node, (s'.world node).hintLog = (s.world node).hintLog
  sub : s.issued ⊆ s'.issued
  issued : ∀ req ∈ s'.issued, req ∈ s.issued ∨
    ∀ node ∈ f.nodes, s'.InProgress req node
  progress : ∀ req node, s.InProgress req node →
    Taken regs' req node ∨ s'.InProgress req node
  targets : (∀ i call, s.writes i = some call → call.unreachable ⊆ f.nodes) →
    ∀ i call, s'.writes i = some call → call.unreachable ⊆ f.nodes

theorem Follows.of_same {regs' : NodeId → Registers}
    (hgrows : Grows regs regs') (hkeeps : s.world.Keeps s'.world)
    (hissued : s'.issued = s.issued) (hwrites : s'.writes = s.writes) :
    Follows f regs regs' s s' := by
  refine ⟨hgrows, hkeeps.hintLog_eq, ?_, fun req hreq => ?_,
    fun req node hprogress => ?_, ?_⟩
  · rw [hissued]
    exact List.Subset.refl _
  · rw [hissued] at hreq
    exact .inl hreq
  · right
    rwa [InProgress, hwrites]
  · rw [hwrites]
    exact id

/-- A replica that was tried has taken the write, or is without an
acknowledgement. -/
theorem mem_tried {call : WriteCall} {node other : NodeId} {addr : String}
    {remaining : List (NodeId × String)} (res : Except ConnError Bool)
    (hrem : call.remaining = (node, addr) :: remaining)
    (hother : other ∈ call.remaining.map Prod.fst ∨
      other ∈ call.unreachable) :
    other = node ∧ res = .ok true ∨
      (other ∈ (call.tried node remaining res).remaining.map Prod.fst ∨
        other ∈ (call.tried node remaining res).unreachable) := by
  rw [hrem, List.map_cons, List.mem_cons, or_assoc] at hother
  unfold WriteCall.tried
  split
  · tauto
  · simp only [List.mem_append, List.mem_singleton]
    tauto

/-- A write has started. -/
theorem startWrite_eq {i : ℕ} {node : NodeId} {level : Consistency}
    {out : NodeState × Except RouterError ReplicaWriteRequest}
    (hstep : s.startWrite xxh64 f i node level out = some s') :
    ∃ call : WriteCall,
      (∃ schema, (s.world node).metadata.collections[f.collection]? =
        some schema) ∧
      call.remaining = replicasWithAddrs xxh64 (s.world node).metadata
        f.collection f.shardIdx ∧
      call.unreachable = [] ∧
      s' = { s with
        world := Function.update s.world node out.1
        sent := call.req :: s.sent
        issued := call.req :: s.issued
        writes := Function.update s.writes i (some call) } := by
  rcases out with ⟨state, e | req⟩
  · simp [startWrite] at hstep
  rcases hschema : (s.world node).metadata.collections[f.collection]? with
    _ | schema
  · simp [startWrite, hschema] at hstep
  simp only [startWrite, hschema] at hstep
  split_ifs at hstep
  refine ⟨{
    coordinator := node, req, schema, consistency := level, n := _
    remaining := _, acks := 0, unreachable := [] }, ⟨schema, rfl⟩, ?_, rfl,
    (Option.some.inj hstep).symm⟩
  rfl

/-- A write that starts is on its way to all replicas. -/
theorem Sound.follows_startWrite (h : Sound R xxh64 f regs s) {i : ℕ}
    (hfree : s.writes i = none) {node : NodeId} {level : Consistency}
    {out : NodeState × Except RouterError ReplicaWriteRequest}
    (hreplica : out.1.Replica R xxh64 f (regs node))
    (hlog : out.1.hintLog = (s.world node).hintLog)
    (hstep : s.startWrite xxh64 f i node level out = some s') :
    ∃ regs', s'.world.Serves R xxh64 f regs' ∧ Follows f regs regs' s s' := by
  obtain ⟨call, ⟨schema, hschema⟩, hrem, hunreachable, rfl⟩ :=
    startWrite_eq hstep
  obtain ⟨-, hnodes, -⟩ := h.view hschema
  have hserves : s.world.Serves R xxh64 f regs := h.replica
  refine ⟨regs, hserves.update_same hreplica, .refl _, fun other => ?_,
    List.subset_cons_self _ _, fun req hreq => ?_,
    fun req other hprogress => ?_, fun hcalls => ?_⟩
  · by_cases hnode : other = node
    · subst hnode
      simpa only [Function.update_self] using hlog
    · simp only [Function.update_of_ne hnode]
  · rcases List.mem_cons.mp hreq with rfl | hreq
    · refine .inr fun other hother => ⟨i, call, ?_, rfl, .inl ?_⟩
      · exact Function.update_self _ _ _
      · rwa [hrem, hnodes]
    · exact .inl hreq
  · obtain ⟨j, old, hold, hreq, hother⟩ := hprogress
    have hne : j ≠ i := by
      rintro rfl
      simp [hfree] at hold
    exact .inr ⟨j, old, (Function.update_of_ne hne _ _).trans hold, hreq,
      hother⟩
  · refine Sound.forall_update hcalls fun new hnew => ?_
    rw [← Option.some.inj hnew, hunreachable]
    exact List.nil_subset _

/-- A write tries a replica. -/
theorem Sound.follows_tryWrite (h : Sound R xxh64 f regs s) {i : ℕ}
    {fate : CallFate} {reading : ℕ}
    (hstep : s.step R xxh64 f (.tryWrite i fate reading) = some s') :
    ∃ regs', s'.world.Serves R xxh64 f regs' ∧ Follows f regs regs' s s' := by
  rcases hcall : s.writes i with _ | call
  · simp [QuorumState.step, hcall] at hstep
  have hsound := h.writes i call hcall
  rcases hrem : call.remaining with _ | ⟨⟨node, addr⟩, remaining⟩
  · simp [QuorumState.step, hcall, hrem] at hstep
  have hserves : s.world.Serves R xxh64 f regs := h.replica
  have hfits := h.fits call.req (h.issued_sent hsound.issued)
  obtain ⟨state, res, own, hwrite, hmeta, hlog, hreplica, hoffered, hok⟩ :=
    @World.Serves.writeOneReplica R xxh64 f (fate.env reading)
      call.coordinator node call.req call.schema regs s.world hserves
      (fun _ => ⟨hfits, hsound.schema_eq⟩)
      (fun shards hfate => absurd hfate (fate_env_ne fate reading node shards))
  rw [step_tryWrite call hcall hrem hwrite, Option.some.injEq] at hstep
  subst hstep
  obtain ⟨hserves', hgrows⟩ := hserves.update hreplica
    fun _ _ ht => hoffered.atLeast ht
  have htried : ∀ other, other ∈ call.remaining.map Prod.fst ∨
      other ∈ call.unreachable →
      Taken (Function.update regs node own) call.req other ∨
        (other ∈ (call.tried node remaining res).remaining.map Prod.fst ∨
          other ∈ (call.tried node remaining res).unreachable) := by
    intro other hother
    refine (mem_tried res hrem hother).imp_left ?_
    rintro ⟨rfl, hres⟩
    rw [Taken, Function.update_self, hok hres hfits.key_eq]
    exact call.req.atLeast_offerTo _
  have hreq : (call.tried node remaining res).req = call.req := by
    unfold WriteCall.tried
    split <;> rfl
  refine ⟨_, hserves', hgrows, (World.Keeps.update hmeta hlog).hintLog_eq,
    List.Subset.refl _, fun req hreq => .inl hreq,
    fun req other hprogress => ?_, fun hcalls => ?_⟩
  · obtain ⟨j, old, hold, rfl, hother⟩ := hprogress
    by_cases hj : j = i
    · subst hj
      obtain rfl : call = old := Option.some.inj (hcall.symm.trans hold)
      refine (htried other hother).imp_right fun hlater => ?_
      exact ⟨j, _, Function.update_self _ _ _, hreq, hlater⟩
    · exact .inr ⟨j, old, (Function.update_of_ne hj _ _).trans hold, rfl,
        hother⟩
  · refine Sound.forall_update hcalls fun new hnew => ?_
    rw [← Option.some.inj hnew]
    intro other hother
    have hmem : node ∈ f.nodes := by
      obtain ⟨acked, -, hsub, -⟩ := hsound.progress
      rw [hrem] at hsub
      exact hsub.subset (List.mem_append_right _ List.mem_cons_self)
    unfold WriteCall.tried at hother
    split at hother
    · exact hcalls i call hcall hother
    · rcases List.mem_append.mp hother with hother | hother
      · exact hcalls i call hcall hother
      · rwa [List.mem_singleton.mp hother]

/-- A read tries a replica. -/
theorem Sound.follows_tryGet (h : Sound R xxh64 f regs s) {i : ℕ}
    {fate : CallFate}
    (hstep : s.step R xxh64 f (.tryGet i fate) = some s') :
    ∃ regs', s'.world.Serves R xxh64 f regs' ∧ Follows f regs regs' s s' := by
  rcases hcall : s.gets i with _ | call
  · simp [QuorumState.step, hcall] at hstep
  rcases hrem : call.remaining with _ | ⟨⟨node, addr⟩, remaining⟩
  · simp [QuorumState.step, hcall, hrem] at hstep
  have hserves : s.world.Serves R xxh64 f regs := h.replica
  obtain ⟨state, res, hread, hmeta, hlog, hreplica, -⟩ :=
    @World.Serves.readOneReplica R xxh64 f f.collection f.shardIdx call.schema
      regs s.world call.coordinator call.id hserves
      (fun _ => (h.gets i call hcall).schema_eq) fate node
  rw [step_tryGet call hcall hrem hread, Option.some.injEq] at hstep
  subst hstep
  exact ⟨regs, hserves.update_same hreplica,
    .of_same (.refl _) (.update hmeta hlog) rfl rfl⟩

theorem Sound.follows_of_world (h : Sound R xxh64 f regs s)
    (hworld : s'.world = s.world) (hissued : s'.issued = s.issued)
    (hwrites : s'.writes = s.writes) :
    ∃ regs', s'.world.Serves R xxh64 f regs' ∧ Follows f regs regs' s s' := by
  refine ⟨regs, ?_, .of_same (.refl _) ?_ hissued hwrites⟩
  · rw [hworld]
    exact h.replica
  · rw [hworld]
    exact .refl _

theorem step_startGet_eq {i : ℕ} {node : NodeId} {id : UInt64}
    {level : Consistency}
    (hstep : s.step R xxh64 f (.startGet i node id level) = some s') :
    ∃ gets, s' = { s with gets } := by
  simp only [QuorumState.step] at hstep
  split at hstep
  · split_ifs at hstep
    exact ⟨_, (Option.some.inj hstep).symm⟩
  · simp at hstep

theorem step_endGet_eq {i : ℕ}
    (hstep : s.step R xxh64 f (.endGet i) = some s') :
    ∃ gets sent, s' = { s with gets, sent } := by
  rcases hcall : s.gets i with _ | call
  · simp [QuorumState.step, hcall] at hstep
  simp only [QuorumState.step, hcall, Option.bind_eq_bind,
    Option.bind_some] at hstep
  split at hstep
  · exact ⟨_, _, (Option.some.inj hstep).symm⟩
  · exact ⟨_, s.sent, (Option.some.inj hstep).symm⟩
  · simp at hstep

/-- One step, of any call. -/
theorem Sound.follows (h : Sound R xxh64 f regs s) {e : QuorumStep}
    (hkeeps : e.KeepsCalls s) (he : e.FitsApart xxh64 f s)
    (hstep : s.step R xxh64 f e = some s') :
    ∃ regs', Sound R xxh64 f regs' s' ∧ Follows f regs regs' s s' := by
  obtain ⟨regs', hsound⟩ := h.step he hstep
  have hserves : s.world.Serves R xxh64 f regs := h.replica
  obtain ⟨_, hserves', hfollows⟩ : ∃ regs',
      s'.world.Serves R xxh64 f regs' ∧ Follows f regs regs' s s' := by
    cases e with
    | startUpsert i node reading id vector payload level =>
        refine h.follows_startWrite hkeeps
          ((h.replica node).stampUpsert reading id vector payload).1 ?_ hstep
        unfold NodeState.stampUpsert
        split
        · rfl
        · split_ifs <;> rfl
    | startDelete i node reading id level =>
        refine h.follows_startWrite hkeeps
          ((h.replica node).stampDelete reading id).1 ?_ hstep
        unfold NodeState.stampDelete
        split <;> rfl
    | tryWrite i fate reading => exact h.follows_tryWrite hstep
    | endWrite i hints => exact hkeeps.elim
    | startGet i node id level =>
        obtain ⟨gets, rfl⟩ := step_startGet_eq hstep
        exact h.follows_of_world rfl rfl rfl
    | tryGet i fate => exact h.follows_tryGet hstep
    | endGet i =>
        obtain ⟨gets, sent, rfl⟩ := step_endGet_eq hstep
        exact h.follows_of_world rfl rfl rfl
    | deliver node reading req =>
        simp only [QuorumState.step] at hstep
        split_ifs at hstep with hsent
        obtain rfl := Option.some.inj hstep
        obtain ⟨own, hreplica, hoffered, -⟩ := (h.replica node).handles
          (fun _ => h.fits req hsent) reading
        obtain ⟨hserves', hgrows⟩ := hserves.update hreplica
          fun _ _ ht => hoffered.atLeast ht
        exact ⟨_, hserves', .of_same hgrows
          (.update (NodeState.metadata_replicaWrite _ _ _ _)
            (NodeState.hintLog_replicaWrite _ _ _ _)) rfl rfl⟩
    | deliverLocal node req =>
        simp only [QuorumState.step] at hstep
        split_ifs at hstep with hsent
        obtain rfl := Option.some.inj hstep
        have hfits := h.fits req hsent
        have hsref : f.sref =
            shardRef req.collection req.shardIdx f.schema := by
          obtain ⟨hcollection, hidx⟩ := ShardKey.mk.inj hfits.key_eq
          rw [hcollection, hidx, FixedShard.sref]
        obtain ⟨own, hreplica, hoffered, -⟩ :=
          @NodeState.Replica.writesLocally _ _ _ _ _ req (h.replica node)
            f.schema (fun _ => ⟨hfits, rfl⟩)
        rw [← hsref] at hreplica
        obtain ⟨hserves', hgrows⟩ := hserves.update hreplica
          fun _ _ ht => hoffered.atLeast ht
        exact ⟨_, hserves', .of_same hgrows (.update rfl rfl) rfl rfl⟩
  have hown : s'.world.Serves R xxh64 f regs' := hsound.replica
  obtain rfl := hown.unique hserves'
  exact ⟨_, hsound, hfollows⟩

end Step

/-! ## What is carried over a run -/

section Carried

variable {R : Runtime} {xxh64 : Bytes → UInt64} {f : FixedShard}
variable {regs : NodeId → Registers} {hints : NodeId → List Hint}
variable {s s' : QuorumState}

/-- The hints for the shard are writes that were issued, for its replicas, and
each write has arrived, is hinted, or is on its way. -/
structure Carried (R : Runtime) (f : FixedShard) (regs : NodeId → Registers)
    (hints : NodeId → List Hint) (s : QuorumState) : Prop where
  log : ∀ node,
    HintLog.Holds R.crc32 (s.world node).hintLog (hints node)
  stands : ∀ owner, ∀ x ∈ hints owner, x.request.key = f.key →
    x.targetNode ∈ f.nodes ∧ ∃ req ∈ s.issued, req.hintFor x.targetNode = x
  targets : ∀ i call, s.writes i = some call → call.unreachable ⊆ f.nodes
  carried : ∀ req ∈ s.issued, ∀ node ∈ f.nodes, Taken regs req node ∨
    (∃ owner, req.hintFor node ∈ hints owner) ∨ s.InProgress req node

theorem holds_update {w w' : World}
    (hlog : ∀ node, HintLog.Holds R.crc32 (w node).hintLog (hints node))
    {owner : NodeId} {new : List Hint}
    (howner : HintLog.Holds R.crc32 (w' owner).hintLog new)
    (hother : ∀ node, node ≠ owner → (w' node).hintLog = (w node).hintLog)
    (node : NodeId) : HintLog.Holds R.crc32 (w' node).hintLog
      (Function.update hints owner new node) := by
  by_cases hnode : node = owner
  · subst hnode
    rwa [Function.update_self]
  · rw [Function.update_of_ne hnode, hother node hnode]
    exact hlog node

namespace Carried

theorem follows (h : Carried R f regs hints s) {regs' : NodeId → Registers}
    (hfollows : Follows f regs regs' s s') : Carried R f regs' hints s' := by
  refine ⟨fun node => ?_, fun owner x hx hkey => ?_,
    hfollows.targets h.targets, fun req hreq node hnode => ?_⟩
  · rw [hfollows.hintLog_eq]
    exact h.log node
  · obtain ⟨htarget, req, hreq, hsame⟩ := h.stands owner x hx hkey
    exact ⟨htarget, req, hfollows.sub hreq, hsame⟩
  · rcases hfollows.issued req hreq with hold | hnew
    · rcases h.carried req hold node hnode with htaken | hhinted | hprogress
      · exact .inl (hfollows.grows _ _ _ htaken)
      · exact .inr (.inl hhinted)
      · exact (hfollows.progress req node hprogress).imp_right .inr
    · exact .inr (.inr (hnew node hnode))

/-- A hint for the shard fits, and stands for a write that was issued. -/
theorem request (h : Carried R f regs hints s)
    (hsound : Sound R xxh64 f regs s) {owner : NodeId} {x : Hint}
    (hx : x ∈ hints owner) (hkey : x.request.key = f.key) :
    f.Fits x.request ∧ ∃ source ∈ s.issued, source.id = x.request.id ∧
      source.written = x.request.written := by
  obtain ⟨-, req, hreq, hsame⟩ := h.stands owner x hx hkey
  rw [← hsame]
  exact ⟨(hsound.fits req (hsound.issued_sent hreq)).request _, req, hreq,
    rfl, written_request_hintFor.symm⟩

/-- A write has ended and is hinted for the replicas that it has missed. -/
theorem endWrite (h : Carried R f regs hints s) {i : ℕ} {call : WriteCall}
    {env : Env} (hcall : s.writes i = some call)
    (hissued : call.req ∈ s.issued)
    (hfault : ∀ hint, env.hintFault hint = none)
    (hframes : ∀ target, (call.req.hintFor target).FitsFrame)
    {res : Except RouterError Unit}
    (hstep : (s.hinted R env call).step R xxh64 f (.endWrite i res) =
      some s') :
    ∃ hints', Carried R f regs hints' s' := by
  obtain ⟨acked, hrem, rfl⟩ : ∃ acked, call.remaining = [] ∧
      s' = { s.hinted R env call with
        writes := Function.update s.writes i none, acked } := by
    have hsame : (s.hinted R env call).writes i = some call := hcall
    simp only [QuorumState.step, hsame, Option.bind_eq_bind,
      Option.bind_some] at hstep
    split at hstep
    · next hrem _ => exact ⟨_, hrem, (Option.some.inj hstep).symm⟩
    · next hrem _ =>
        exact ⟨s.acked, hrem, (Option.some.inj hstep).symm⟩
    · simp at hstep
  obtain ⟨owner, hcoordinator⟩ : ∃ owner, call.coordinator = owner :=
    ⟨_, rfl⟩
  have hbuffered := holds_bufferHints hfault hframes call.unreachable
    (h.log owner)
  refine ⟨Function.update hints owner
    (hints owner ++ call.unreachable.map call.req.hintFor),
    holds_update h.log ?_ fun node hnode => ?_, fun node x hx hkey => ?_,
    Sound.forall_update h.targets (by simp), fun req hreq node hnode => ?_⟩
  · simpa only [hinted, setNode, hcoordinator, Function.update_self]
      using hbuffered
  · simp only [hinted, setNode, hcoordinator, Function.update_of_ne hnode]
  · by_cases howner : node = owner
    · rw [howner, Function.update_self] at hx
      rcases List.mem_append.mp hx with hx | hx
      · exact h.stands owner x hx hkey
      · obtain ⟨target, htarget, rfl⟩ := List.mem_map.mp hx
        exact ⟨h.targets i call hcall htarget, call.req, hissued, rfl⟩
    · rw [Function.update_of_ne howner] at hx
      exact h.stands node x hx hkey
  · rcases h.carried req hreq node hnode with htaken | ⟨other, hx⟩ | hprogress
    · exact .inl htaken
    · refine .inr (.inl ⟨other, ?_⟩)
      by_cases howner : other = owner
      · subst howner
        rw [Function.update_self]
        exact List.mem_append_left _ hx
      · rwa [Function.update_of_ne howner]
    · obtain ⟨j, old, hold, rfl, hother⟩ := hprogress
      by_cases hj : j = i
      · subst hj
        obtain rfl : call = old := Option.some.inj (hcall.symm.trans hold)
        refine .inr (.inl ⟨owner, ?_⟩)
        rw [Function.update_self]
        refine List.mem_append_right _ (List.mem_map_of_mem ?_)
        simpa [hrem] using hother
      · exact .inr (.inr ⟨j, old, (Function.update_of_ne hj _ _).trans hold,
          rfl, hother⟩)

/-- A pass brings hints to their targets, and keeps the others. -/
theorem replay (h : Carried R f regs hints s)
    (hsound : Sound R xxh64 f regs s) {self : NodeId} {env : ℕ → PushEnv}
    {regs' : NodeId → Registers} {keep : List Hint} {w : World}
    (hdone : HintsReplayed R xxh64 f self env s.world regs regs' (hints self)
      keep w) :
    Carried R f regs' (Function.update hints self keep)
      { s with world := w } := by
  refine ⟨holds_update h.log hdone.log hdone.other, fun node x hx hkey => ?_,
    h.targets, fun req hreq node hnode => ?_⟩
  · by_cases hself : node = self
    · subst hself
      rw [Function.update_self] at hx
      exact h.stands node x (hdone.kept hx) hkey
    · rw [Function.update_of_ne hself] at hx
      exact h.stands node x hx hkey
  · rcases h.carried req hreq node hnode with htaken | ⟨owner, hx⟩ | hprogress
    · exact .inl (hdone.absorbs.grows _ _ _ htaken)
    · by_cases howner : owner = self
      · subst howner
        rcases hdone.pushed _ hx with hkept | hpushed
        · refine .inr (.inl ⟨owner, ?_⟩)
          rwa [Function.update_self]
        · exact .inl (hpushed.taken (hsound.key_eq hreq))
      · refine .inr (.inl ⟨owner, ?_⟩)
        rwa [Function.update_of_ne howner]
    · exact .inr (.inr hprogress)

end Carried

/-- The nodes change, and their registers have been offered writes that were
issued. -/
theorem Sound.setWorld (h : Sound R xxh64 f regs s)
    {regs' : NodeId → Registers} {w : World}
    (hserves : w.Serves R xxh64 f regs') {reqs : List ReplicaWriteRequest}
    (habsorbs : f.Absorbs reqs regs regs')
    (hfrom : ∀ req ∈ reqs, req.key = f.key → ∃ source ∈ s.issued,
      source.id = req.id ∧ source.written = req.written) :
    Sound R xxh64 f regs' { s with world := w } := by
  refine ⟨hserves, fun node id p hp => ?_, h.fits, h.issued_sent,
    h.from_issued, h.agreeing, fun i call hcall => ?_, fun i call hcall => ?_,
    fun req level hreq => ?_⟩
  · rcases habsorbs.held node id p hp with hold | ⟨req, hreq, hkey, rfl, rfl⟩
    · exact h.held node id p hold
    · exact hfrom req hreq hkey
  · exact (h.writes i call hcall).mono habsorbs.grows (List.Subset.refl _)
  · exact (h.gets i call hcall).mono habsorbs.grows (List.Subset.refl _)
  · obtain ⟨hissued, hheld⟩ := h.acked req level hreq
    exact ⟨hissued, hheld.mono habsorbs.grows⟩

/-- A replay pass of a node. -/
theorem Carried.replayHints (h : Carried R f regs hints s)
    (hsound : Sound R xxh64 f regs s) (self : NodeId) (env : ℕ → PushEnv) :
    ∃ regs' keep,
      Sound R xxh64 f regs'
        { s with world := (replayHints R self env s.world).1 } ∧
      Carried R f regs' (Function.update hints self keep)
        { s with world := (replayHints R self env s.world).1 } ∧
      HintsReplayed R xxh64 f self env s.world regs regs' (hints self) keep
        (replayHints R self env s.world).1 := by
  have hserves : s.world.Serves R xxh64 f regs := hsound.replica
  obtain ⟨regs', keep, hdone⟩ := hserves.replayHints (h.log self)
    (fun x hx hkey => (h.request hsound hx hkey).1) env
  refine ⟨regs', keep, hsound.setWorld hdone.serves hdone.absorbs ?_,
    h.replay hsound hdone, hdone⟩
  intro req hreq hkey
  obtain ⟨x, hx, rfl⟩ := List.mem_map.mp hreq
  exact (h.request hsound hx hkey).2

/-- A node restarts that coordinates no write. -/
theorem Sound.follows_restart (h : Sound R xxh64 f regs s) {node : NodeId}
    {state : NodeState}
    (hidle : ∀ i call, s.writes i = some call → call.coordinator ≠ node)
    (hstate : Restarts R xxh64 f s.sent (s.world node) state)
    (hlog : state.hintLog = (s.world node).hintLog) :
    ∃ regs', Sound R xxh64 f regs' (s.crash node state) ∧
      Follows f regs regs' s (s.crash node state) := by
  obtain ⟨regs', hsound⟩ := h.crash hstate
  obtain ⟨own, hreplica, hadvances⟩ := (h.replica node).restarts
    (fun req hreq => (h.fits req hreq).frame) hstate
  have hserves : (s.crash node state).world.Serves R xxh64 f regs' :=
    hsound.replica
  obtain rfl := hserves.unique (h.setNode hreplica hadvances).replica
  have hwrites : (s.crash node state).writes = s.writes := by
    funext i
    rcases hcall : s.writes i with _ | call
    · simp [QuorumState.crash, hcall]
    · simp [QuorumState.crash, hcall, hidle i call hcall]
  refine ⟨_, hsound, Sound.grows_update hadvances, fun other => ?_,
    List.Subset.refl _, fun req hreq => .inl hreq,
    fun req other hprogress => .inr ?_, ?_⟩
  · by_cases hnode : other = node
    · subst hnode
      simpa only [QuorumState.crash, Function.update_self] using hlog
    · simp only [QuorumState.crash, Function.update_of_ne hnode]
  · rwa [InProgress, hwrites]
  · rw [hwrites]
    exact id

/-- A node does something else, which may be to hint other shards. -/
theorem Carried.elsewhere (h : Carried R f regs hints s)
    (hsound : Sound R xxh64 f regs s) {node : NodeId} {state : NodeState}
    {old new : List Hint}
    (hold : HintLog.Holds R.crc32 (s.world node).hintLog old)
    (hnew : HintLog.Holds R.crc32 state.hintLog new)
    (hsame : ∀ x, x.request.key = f.key → (x ∈ old ↔ x ∈ new)) :
    Carried R f regs (Function.update hints node new)
      (s.setNode node state) := by
  have heq : hints node = old :=
    Except.ok.inj ((h.log node).readAll.symm.trans hold.readAll)
  refine ⟨holds_update h.log ?_ fun other hother => ?_,
    fun owner x hx hkey => ?_, h.targets, fun req hreq other hother => ?_⟩
  · simpa only [setNode, Function.update_self] using hnew
  · simp only [setNode, Function.update_of_ne hother]
  · by_cases howner : owner = node
    · subst howner
      rw [Function.update_self, ← hsame x hkey, ← heq] at hx
      exact h.stands owner x hx hkey
    · rw [Function.update_of_ne howner] at hx
      exact h.stands owner x hx hkey
  · rcases h.carried req hreq other hother with htaken | ⟨owner, hx⟩ | hprogress
    · exact .inl htaken
    · refine .inr (.inl ⟨owner, ?_⟩)
      by_cases howner : owner = node
      · have hkey : req.key = f.key := hsound.key_eq hreq
        rw [howner, heq, hsame (req.hintFor other) hkey] at hx
        rwa [howner, Function.update_self]
      · rwa [Function.update_of_ne howner]
    · exact .inr (.inr hprogress)

theorem HintedRun.sound (h : HintedRun R xxh64 f s) :
    ∃ regs hints, Sound R xxh64 f regs s ∧ Carried R f regs hints s := by
  induction h with
  | @init s hinit hlog =>
      refine ⟨_, fun _ => [], hinit.sound, fun node => ?_, by simp, ?_, ?_⟩
      · rw [hlog]
        exact HintLog.holds_none
      · simp [hinit.writes]
      · simp [hinit.issued]
  | step e _ hkeeps he hstep ih =>
      obtain ⟨regs, hints, hsound, hcarried⟩ := ih
      obtain ⟨regs', hsound', hfollows⟩ := hsound.follows hkeeps he hstep
      exact ⟨regs', hints, hsound', hcarried.follows hfollows⟩
  | @endWrite s s' i call env _ hcall hfault hframes hstep ih =>
      obtain ⟨regs, hints, hsound, hcarried⟩ := ih
      have hissued := (hsound.writes i call hcall).issued
      obtain ⟨hints', hcarried'⟩ :=
        hcarried.endWrite hcall hissued hfault hframes hstep
      have hhinted : Sound R xxh64 f regs (s.hinted R env call) :=
        hsound.setNode_same ((hsound.replica _).of_eq rfl rfl)
      exact ⟨regs, hints', hhinted.endWrite hstep, hcarried'⟩
  | replay self env _ ih =>
      obtain ⟨regs, hints, hsound, hcarried⟩ := ih
      obtain ⟨regs', keep, hsound', hcarried', -⟩ :=
        hcarried.replayHints hsound self env
      exact ⟨regs', _, hsound', hcarried'⟩
  | restart _ hidle hstate hlog ih =>
      obtain ⟨regs, hints, hsound, hcarried⟩ := ih
      obtain ⟨regs', hsound', hfollows⟩ :=
        hsound.follows_restart hidle hstate hlog
      exact ⟨regs', hints, hsound', hcarried.follows hfollows⟩
  | elsewhere _ hstate hold hnew hsame ih =>
      obtain ⟨regs, hints, hsound, hcarried⟩ := ih
      exact ⟨regs, _, hsound.setNode_same
        ((hsound.replica _).elsewhere hstate),
        hcarried.elsewhere hsound hold hnew hsame⟩

/-! ## Once nothing is on its way -/

/-- A read of replicas that are the ideal one. -/
theorem Sound.settled (h : Sound R xxh64 f regs s)
    (hideal : ∀ node ∈ f.nodes, regs node = s.ideal) :
    s.Settled R xxh64 f := by
  have hserves : s.world.Serves R xxh64 f regs := h.replica
  refine ⟨⟨regs, hserves, hideal⟩, ?_⟩
  intro self schema hknown id hidx consistency fate w pushes responses winner
    hget
  have hfitting : f.Fitting regs := by
    intro node id p hp
    obtain ⟨req, hreq, -, rfl⟩ := h.held node id p hp
    have hfits := h.fits req (h.issued_sent hreq)
    refine ⟨rfl, ?_, hfits.frame.repair _ _ _⟩
    rw [DataPlane.written_repair]
    exact hfits.dim
  obtain ⟨regs', hgot⟩ := @World.Serves.getPoint _ _ _ _ _ _ consistency _ _
    self id hserves hfitting (hserves self).pinned hknown fate
  rw [hget, hidx] at hgot
  have hanswers : ∀ node p, (node, p) ∈ responses →
      p = (s.ideal id).map (pointOf id) := by
    intro node p hp
    have hnode : node ∈ f.nodes := hgot.asked rfl (List.mem_map_of_mem hp)
    rw [hgot.answers rfl node p hp, hideal node hnode]
  obtain ⟨hnonempty, hwinner⟩ := hgot.merged winner rfl
  have hsame := Responses.winner_of_same hnonempty hanswers
  refine ⟨hwinner.trans hsame, List.eq_nil_iff_forall_not_mem.mpr ?_⟩
  intro p hp
  obtain ⟨win, hwin, hstale, -⟩ := hgot.pushes p hp
  have hwin : winner = some win := Except.ok.inj hwin
  rw [Responses.stale_of_same fun node q hq =>
    (hanswers node q hq).trans (hsame.symm.trans (hwinner.symm.trans hwin))]
    at hstale
  simp at hstale

theorem HintedRun.settled (h : HintedRun R xxh64 f s)
    (hended : ∀ i, s.writes i = none) (hdrained : ∀ node, s.Drained R f node) :
    s.Settled R xxh64 f := by
  obtain ⟨regs, hints, hsound, hcarried⟩ := h.sound
  refine hsound.settled fun node hnode => hsound.eq_ideal fun req hreq => ?_
  rcases hcarried.carried req hreq node hnode with
    htaken | ⟨owner, hx⟩ | ⟨i, call, hcall, -⟩
  · exact htaken
  · obtain ⟨left, hread, hleft⟩ := hdrained owner
    have heq : hints owner = left :=
      Except.ok.inj ((hcarried.log owner).readAll.symm.trans hread)
    have hkey : req.key = f.key := hsound.key_eq hreq
    exact absurd hkey (hleft (req.hintFor node) (heq ▸ hx))
  · simp [hended i] at hcall

/-- A pass whose calls are answered leaves its node no hint for the shard. -/
theorem HintedRun.drained_replay (h : HintedRun R xxh64 f s) (self : NodeId)
    {env : ℕ → PushEnv} (henv : ∀ i, (env i).fate = .answered)
    (hknown : ∀ node, (s.world node).metadata.collections[f.collection]? =
      some f.schema) :
    let w := (replayHints R self env s.world).1
    (∀ node, (w node).metadata = (s.world node).metadata) ∧
      ∀ node, node = self ∨ s.Drained R f node →
        Drained R f { s with world := w } node := by
  obtain ⟨regs, hints, hsound, hcarried⟩ := h.sound
  have hserves : s.world.Serves R xxh64 f regs := hsound.replica
  obtain ⟨regs', keep, -, -, hdone⟩ := hcarried.replayHints hsound self env
  have hself : Drained R f
      { s with world := (replayHints R self env s.world).1 } self :=
    ⟨keep, hdone.log.readAll, hdone.answered henv fun x hx hkey =>
      hserves.reachable hknown (hcarried.stands self x hx hkey).1⟩
  refine ⟨hdone.metadata_eq, fun node hnode => ?_⟩
  by_cases heq : node = self
  · rw [heq]
    exact hself
  · obtain ⟨left, hread, hleft⟩ := hnode.resolve_left heq
    exact ⟨left, by rw [hdone.other node heq, hread], hleft⟩

theorem HintedRun.settled_replayPasses (h : HintedRun R xxh64 f s)
    (hended : ∀ i, s.writes i = none) {passes : List (NodeId × (ℕ → PushEnv))}
    (henv : ∀ pass ∈ passes, ∀ i, (pass.2 i).fate = .answered)
    (hknown : ∀ node, (s.world node).metadata.collections[f.collection]? =
      some f.schema)
    (hpasses : ∀ node, node ∈ passes.map Prod.fst ∨ s.Drained R f node) :
    Settled R xxh64 f { s with world := replayPasses R passes s.world } := by
  induction passes generalizing s with
  | nil =>
      exact h.settled hended fun node =>
        (hpasses node).resolve_left List.not_mem_nil
  | cons pass passes ih =>
      obtain ⟨self, env⟩ := pass
      obtain ⟨hmeta, hdrained⟩ := h.drained_replay self
        (henv _ List.mem_cons_self) hknown
      refine ih (h.replay self env) hended
        (fun pass hpass => henv pass (List.mem_cons_of_mem _ hpass))
        (fun node => ?_) fun node => ?_
      · rw [hmeta]
        exact hknown node
      · rcases hpasses node with hmem | hnode
        · rcases List.mem_cons.mp hmem with hnode | hmem
          · exact .inr (hdrained node (.inl hnode))
          · exact .inl hmem
        · exact .inr (hdrained node (.inr hnode))

end Carried

end QuorumState

/-- However calls, pushes, replays and restarts have interleaved, the replicas
settle on the newest writes when the hints are replayed. -/
theorem eventuallyConsistent (R : Runtime) (xxh64 : Bytes → UInt64)
    (f : FixedShard) : QuorumState.EventuallyConsistent R xxh64 f := by
  intro s hrun
  obtain ⟨regs, hints, hsound, hcarried⟩ := hrun.sound
  refine ⟨⟨regs, hsound.replica, fun req hreq node hnode => ?_⟩,
    hrun.settled, fun passes hended henv hknown hpasses =>
      hrun.settled_replayPasses hended henv hknown hpasses⟩
  refine (hcarried.carried req hreq node hnode).imp_right fun hway =>
    hway.imp_left ?_
  rintro ⟨owner, hx⟩
  exact ⟨owner, hints owner, (hcarried.log owner).readAll, hx⟩

open OneReplica in
/-- A write that reaches no replica is hinted, and a replay pass of its
coordinator settles the shard. -/
theorem eventuallyConsistent_replayed : ∃ s : QuorumState,
    QuorumState.HintedRun .constant (fun _ => 0) shard s ∧
      s.issued = [req 0] ∧
      QuorumState.Settled .constant (fun _ => 0) shard
        { s with
          world := replayPasses .constant
            [(2, fun _ => { fate := .answered, reading := 5 })] s.world } := by
  let s₀ : QuorumState :=
    { world := fun _ => fresh, sent := [], issued := []
      writes := fun _ => none, gets := fun _ => none, acked := [] }
  have hinit : QuorumState.Initial (fun _ => 0) shard s₀ :=
    ⟨Nat.one_pos, fun _ => pinned, fun _ => rfl, fun _ => rfl, rfl, rfl,
      fun _ => rfl, fun _ => rfl, rfl⟩
  let ticked : NodeState := { fresh with clock := stamp }
  let s₁ : QuorumState :=
    { s₀ with
      world := Function.update s₀.world 2 ticked
      sent := [req 0]
      issued := [req 0]
      writes := Function.update s₀.writes 0 (some (call 2 0)) }
  have hstart : s₀.step .constant (fun _ => 0) shard
      (.startUpsert 0 2 5 7 [0] [] .one) = some s₁ := startUpsert 2 0 0 rfl
  have hrun₁ : QuorumState.HintedRun .constant (fun _ => 0) shard s₁ := by
    refine .step (.startUpsert 0 2 5 7 [0] [] .one) (.init hinit fun _ => rfl)
      rfl (fun r hr => ?_) hstart
    obtain rfl : req 0 = r := by
      simpa [QuorumStep.stamps, s₀, stampUpsert_fresh, Except.toOption]
        using hr
    exact ⟨(fits_req 0).frame, fun old hold => absurd hold List.not_mem_nil⟩
  -- the call of the replica fails
  let given : WriteCall :=
    { call 2 0 with remaining := [], unreachable := [1] }
  let s₂ : QuorumState :=
    { s₁ with writes := Function.update s₁.writes 0 (some given) }
  have hrun₂ : QuorumState.HintedRun .constant (fun _ => 0) shard s₂ := by
    refine hrun₁.step (.tryWrite 0 .unreachable 5) trivial
      (fun r hr => ?_) ?_
    · simp [QuorumStep.stamps] at hr
    · exact QuorumState.step_tryWrite (call 2 0) rfl rfl rfl
  -- the write ends with a hint
  let env : Env := CallFate.unreachable.env 5
  let s₃ : QuorumState := { s₂.hinted .constant env given with
    writes := Function.update s₂.writes 0 none }
  have hother : ∀ node, node ≠ 2 → s₃.world node = fresh := fun node hnode =>
    (Function.update_of_ne hnode _ _).trans (Function.update_of_ne hnode _ _)
  have hrun₃ : QuorumState.HintedRun .constant (fun _ => 0) shard s₃ :=
    hrun₂.endWrite (i := 0) (show s₂.writes 0 = some given from rfl)
      (fun hint => (rfl : env.hintFault hint = none)) (fun target => ?_) rfl
  · refine ⟨_, hrun₃, rfl, (eventuallyConsistent .constant (fun _ => 0) shard _
      hrun₃).2.2 _ (fun i => ?_) (fun pass hpass i => ?_) (fun node => ?_)
      fun node => ?_⟩
    · by_cases hi : i = 0
      · rw [hi]
        exact Function.update_self (0 : ℕ) (none : Option WriteCall) s₂.writes
      · exact (Function.update_of_ne hi _ _).trans
          ((Function.update_of_ne hi _ _).trans (Function.update_of_ne hi _ _))
    · rw [List.mem_singleton.mp hpass]
    · by_cases hnode : node = 2
      · rw [hnode]
        exact schema_eq
      · show (s₃.world node).metadata.collections["c"]? = _
        rw [hother node hnode]
        exact schema_eq
    · by_cases hnode : node = 2
      · exact .inl (by simp [hnode])
      · refine .inr ⟨[], ?_, by simp⟩
        rw [hother node hnode]
        rfl
  · rw [Hint.FitsFrame, Hint.length_encodeHint]
    show 4 + (41 + (utf8 "c").length + 4 * ([0] : List F32).length +
      ([] : Bytes).length) < 2 ^ 32
    decide

end Quorvec
