import Quorvec.Node.Coverage
import Quorvec.Node.QuorumReads

/-!
# Quorum intersection

Every step keeps what is known of the replicas and of the calls in progress,
and so does a crash.  Therefore a read that overlaps an acknowledged write in a
replica returns that write or a newer one, provided that a stamp stands for one
content.
-/

namespace Quorvec

open LastWriterWins ByteCodec Quorum

namespace QuorumState

/-- Every replica holds its registers, what they hold and what is sent was
issued, and the calls in progress are sound. -/
structure Sound (R : Runtime) (xxh64 : Bytes → UInt64) (f : FixedShard)
    (regs : NodeId → Registers) (s : QuorumState) : Prop where
  replica : ∀ node, (s.world node).Replica R xxh64 f (regs node)
  held : ∀ node id p, regs node id = some p →
    ∃ req ∈ s.issued, req.id = id ∧ req.written = p
  fits : ∀ req ∈ s.sent, f.Fits req
  issued_sent : s.issued ⊆ s.sent
  from_issued : ∀ req ∈ s.sent,
    ∃ source ∈ s.issued, source.id = req.id ∧ source.written = req.written
  agreeing : Agreeing s.issued
  writes : ∀ i call, s.writes i = some call → call.Sound f regs s.issued
  gets : ∀ i call, s.gets i = some call → call.Sound f regs s.issued
  acked : ∀ req level, (req, level) ∈ s.acked →
    req ∈ s.issued ∧ f.Held regs req level

variable {R : Runtime} {xxh64 : Bytes → UInt64} {f : FixedShard}
variable {regs : NodeId → Registers} {s s' : QuorumState}

theorem Initial.sound (h : Initial xxh64 f s) :
    Sound R xxh64 f (fun _ _ => none) s := by
  constructor
  · intro node
    refine ⟨h.pinned node, h.fsync node, ?_⟩
    rw [h.unused]
    exact ShardSlot.durable_unused h.dim_pos
  · simp
  · simp [h.sent]
  · simp [h.issued]
  · simp [h.sent]
  · rw [h.issued]
    exact agreeing_nil
  · simp [h.writes]
  · simp [h.gets]
  · simp [h.acked]

/-! ## Tries of a call in progress -/

section Tries

variable {i : ℕ} {fate : CallFate} {node : NodeId} {addr : String}
variable {remaining : List (NodeId × String)} {world : World}

theorem step_tryWrite {reading : ℕ} {res : Except ConnError Bool}
    (call : WriteCall) (hcall : s.writes i = some call)
    (hrem : call.remaining = (node, addr) :: remaining)
    (htry : writeOneReplica R (fate.env reading) call.coordinator s.world node
      call.req call.schema = (world, res)) :
    s.step R xxh64 f (.tryWrite i fate reading) = some { s with
      world
      writes := Function.update s.writes i
        (some (call.tried node remaining res)) } := by
  simp only [step, hcall, Option.bind_eq_bind, Option.bind_some, hrem, htry]

theorem step_tryGet {res : Except ConnError (Option StoredPoint)}
    (call : GetCall) (hcall : s.gets i = some call)
    (hrem : call.remaining = (node, addr) :: remaining)
    (htry : readOneReplica R call.coordinator fate s.world node f.collection
      f.shardIdx call.id call.schema = (world, res)) :
    s.step R xxh64 f (.tryGet i fate) = some { s with
      world
      gets := Function.update s.gets i
        (some (call.tried node remaining res)) } := by
  simp only [step, hcall, Option.bind_eq_bind, Option.bind_some, hrem, htry]

end Tries

namespace Sound

/-! ## What changes at a node -/

/-- The registers of one node advance. -/
theorem grows_update {node : NodeId} {regs' : Registers}
    {sent : List ReplicaWriteRequest}
    (h : Advances sent (regs node) regs') :
    Grows regs (Function.update regs node regs') := by
  intro other id t ht
  by_cases hnode : other = node
  · subst hnode
    rw [Function.update_self]
    exact h.atLeast ht
  · rwa [Function.update_of_ne hnode]

/-- A node changes, and its registers advance. -/
theorem setNode (h : Sound R xxh64 f regs s) {node : NodeId}
    {state : NodeState} {regs' : Registers}
    (hstate : state.Replica R xxh64 f regs')
    (hadvances : Advances s.sent (regs node) regs') :
    Sound R xxh64 f (Function.update regs node regs')
      (s.setNode node state) := by
  have hgrows := grows_update hadvances
  constructor
  · intro other
    by_cases hnode : other = node
    · subst hnode
      simpa only [QuorumState.setNode, Function.update_self] using hstate
    · simpa only [QuorumState.setNode, Function.update_of_ne hnode]
        using h.replica other
  · intro other id p hp
    by_cases hnode : other = node
    · subst hnode
      rw [Function.update_self] at hp
      rcases hadvances.held hp with hold | ⟨req, hreq, rfl, rfl⟩
      · exact h.held other id p hold
      · exact h.from_issued req hreq
    · rw [Function.update_of_ne hnode] at hp
      exact h.held other id p hp
  · exact h.fits
  · exact h.issued_sent
  · exact h.from_issued
  · exact h.agreeing
  · intro i call hcall
    exact (h.writes i call hcall).mono hgrows (List.Subset.refl _)
  · intro i call hcall
    exact (h.gets i call hcall).mono hgrows (List.Subset.refl _)
  · intro req level hreq
    obtain ⟨hissued, hheld⟩ := h.acked req level hreq
    exact ⟨hissued, hheld.mono hgrows⟩

theorem setNode_same (h : Sound R xxh64 f regs s) {node : NodeId}
    {state : NodeState} (hstate : state.Replica R xxh64 f (regs node)) :
    Sound R xxh64 f regs (s.setNode node state) := by
  have hsame := h.setNode hstate (.inl rfl)
  rwa [Function.update_eq_self] at hsame

/-! ## What changes in the calls -/

/-- What holds of every call holds after one is replaced. -/
theorem forall_update {α : Type*} {P : α → Prop} {calls : ℕ → Option α}
    (hcalls : ∀ j call, calls j = some call → P call) {i : ℕ}
    {next : Option α} (hnext : ∀ call, next = some call → P call) :
    ∀ j call, Function.update calls i next j = some call → P call := by
  intro j call hcall
  by_cases hj : j = i
  · subst hj
    rw [Function.update_self] at hcall
    exact hnext call hcall
  · rw [Function.update_of_ne hj] at hcall
    exact hcalls j call hcall

theorem setCalls (h : Sound R xxh64 f regs s)
    {writes : ℕ → Option WriteCall} {gets : ℕ → Option GetCall}
    (hwrites : ∀ i call, writes i = some call → call.Sound f regs s.issued)
    (hgets : ∀ i call, gets i = some call → call.Sound f regs s.issued) :
    Sound R xxh64 f regs { s with writes, gets } :=
  ⟨h.replica, h.held, h.fits, h.issued_sent, h.from_issued, h.agreeing,
    hwrites, hgets, h.acked⟩

theorem setWrite (h : Sound R xxh64 f regs s) (i : ℕ)
    {next : Option WriteCall}
    (hnext : ∀ call, next = some call → call.Sound f regs s.issued) :
    Sound R xxh64 f regs
      { s with writes := Function.update s.writes i next } :=
  h.setCalls (forall_update h.writes hnext) h.gets

theorem setGet (h : Sound R xxh64 f regs s) (i : ℕ) {next : Option GetCall}
    (hnext : ∀ call, next = some call → call.Sound f regs s.issued) :
    Sound R xxh64 f regs
      { s with gets := Function.update s.gets i next } :=
  h.setCalls h.writes (forall_update h.gets hnext)

/-- A crash ends calls and starts none. -/
theorem crash (h : Sound R xxh64 f regs s) {node : NodeId}
    {state : NodeState}
    (hstate : Restarts R xxh64 f s.sent (s.world node) state) :
    ∃ regs', Sound R xxh64 f regs' (s.crash node state) := by
  obtain ⟨regs', hreplica, hadvances⟩ := (h.replica node).restarts
    (fun req hreq => (h.fits req hreq).frame) hstate
  have hnode := h.setNode hreplica hadvances
  refine ⟨_, hnode.setCalls (fun i call hcall => ?_) fun i call hcall => ?_⟩
  · exact hnode.writes i call (Option.eq_some_of_filter_eq_some hcall)
  · exact hnode.gets i call (Option.eq_some_of_filter_eq_some hcall)

/-! ## Requests -/

/-- A coordinator issues a write. -/
theorem issue (h : Sound R xxh64 f regs s) {req : ReplicaWriteRequest}
    (hfits : f.Fits req) (hapart : req.Apart s.issued) :
    Sound R xxh64 f regs
      { s with sent := req :: s.sent, issued := req :: s.issued } := by
  have hsub : s.issued ⊆ req :: s.issued := List.subset_cons_self _ _
  have hgrows : Grows regs regs := fun _ _ _ ht => ht
  constructor
  · exact h.replica
  · intro node id p hp
    obtain ⟨old, hold, hsame⟩ := h.held node id p hp
    exact ⟨old, hsub hold, hsame⟩
  · intro other hother
    rcases List.mem_cons.mp hother with rfl | hother
    · exact hfits
    · exact h.fits other hother
  · exact List.cons_subset_cons req h.issued_sent
  · intro other hother
    rcases List.mem_cons.mp hother with rfl | hother
    · exact ⟨other, List.mem_cons_self, rfl, rfl⟩
    · obtain ⟨source, hsource, hsame⟩ := h.from_issued other hother
      exact ⟨source, hsub hsource, hsame⟩
  · exact h.agreeing.cons hapart
  · intro i call hcall
    exact (h.writes i call hcall).mono hgrows hsub
  · intro i call hcall
    exact (h.gets i call hcall).mono hgrows hsub
  · intro old level hold
    obtain ⟨hissued, hheld⟩ := h.acked old level hold
    exact ⟨hsub hissued, hheld⟩

/-- A read pushes what has won. -/
theorem push (h : Sound R xxh64 f regs s) {call : GetCall}
    (hcall : call.Sound f regs s.issued) {win : StoredPoint}
    (hwin : call.responses.winner = some win) (targets : List NodeId) :
    Sound R xxh64 f regs
      { s with
        sent := targets.map (fun _ => win.repair f.collection f.shardIdx) ++
          s.sent } := by
  obtain ⟨hmem, -⟩ := maxByKey_spec hwin
  obtain ⟨⟨node, answer⟩, hanswer, rfl⟩ := List.mem_filterMap.mp hmem
  obtain ⟨source, hsource, hid, rfl⟩ := hcall.seen node _ hanswer
  have hfits := h.fits source (h.issued_sent hsource)
  have hwritten := DataPlane.written_repair call.id source.written
    f.collection f.shardIdx
  constructor
  · exact h.replica
  · exact h.held
  · intro req hreq
    rcases List.mem_append.mp hreq with hreq | hreq
    · obtain ⟨-, -, rfl⟩ := List.mem_map.mp hreq
      refine ⟨rfl, ?_, hfits.frame.repair _ _ _⟩
      rw [hwritten]
      exact hfits.dim
    · exact h.fits req hreq
  · exact List.Subset.trans h.issued_sent (List.subset_append_right _ _)
  · intro req hreq
    rcases List.mem_append.mp hreq with hreq | hreq
    · obtain ⟨-, -, rfl⟩ := List.mem_map.mp hreq
      exact ⟨source, hsource, hid, hwritten.symm⟩
    · exact h.from_issued req hreq
  · exact h.agreeing
  · exact h.writes
  · exact h.gets
  · exact h.acked

/-! ## Steps -/

/-- A known collection has the schema and the replicas of the shard. -/
theorem view (h : Sound R xxh64 f regs s) {node : NodeId}
    {schema : CollectionSchema}
    (hschema : (s.world node).metadata.collections[f.collection]? =
      some schema) :
    schema = f.schema ∧ (replicasWithAddrs xxh64 (s.world node).metadata
      f.collection f.shardIdx).map Prod.fst = f.nodes ∧ f.nodes.Nodup := by
  obtain ⟨hsame, hnodes⟩ := (h.replica node).pinned schema hschema
  refine ⟨hsame, hnodes, ?_⟩
  rw [← hnodes]
  exact replicasWithAddrs_nodup

/-- A write starts with a new request, and nobody has acknowledged it. -/
theorem startWrite (h : Sound R xxh64 f regs s) {i : ℕ} {node : NodeId}
    {level : Consistency}
    {out : NodeState × Except RouterError ReplicaWriteRequest}
    (hreplica : out.1.Replica R xxh64 f (regs node))
    (hdim : ∀ req, out.2 = .ok req →
      ∀ v, req.written.2 = some v → v.length = f.sref.dim)
    (hadmits : ∀ req, out.2.toOption = some req →
      req.FitsFrame ∧ req.Apart s.issued)
    (hstep : s.startWrite xxh64 f i node level out = some s') :
    Sound R xxh64 f regs s' := by
  rcases out with ⟨state, e | req⟩
  · simp [QuorumState.startWrite] at hstep
  rcases hschema : (s.world node).metadata.collections[f.collection]? with
    _ | schema
  · simp [QuorumState.startWrite, hschema] at hstep
  obtain ⟨rfl, hnodes, hnodup⟩ := h.view hschema
  simp only [QuorumState.startWrite, hschema] at hstep
  split_ifs at hstep with hkey
  rw [← Option.some.inj hstep]
  obtain ⟨hframe, hapart⟩ := hadmits req rfl
  have hissued := (h.setNode_same hreplica).issue
    ⟨hkey, hdim req rfl, hframe⟩ hapart
  refine hissued.setWrite i fun call hcall => ?_
  rw [← Option.some.inj hcall]
  refine ⟨List.mem_cons_self, rfl, ?_, hnodup, [], rfl, ?_, by simp⟩
  · rw [FixedShard.n, ← hnodes, List.length_map]
  · rw [List.nil_append, hnodes]

theorem fate_env_ne (fate : CallFate) (reading : ℕ) (node : NodeId)
    (shards : ShardStore) :
    (fate.env reading).fate node ≠ .storageFault shards := by
  cases fate <;> simp [CallFate.env]

/-- A write tries a replica. -/
theorem tryWrite (h : Sound R xxh64 f regs s) {i : ℕ} {fate : CallFate}
    {reading : ℕ}
    (hstep : s.step R xxh64 f (.tryWrite i fate reading) = some s') :
    ∃ regs', Sound R xxh64 f regs' s' := by
  rcases hcall : s.writes i with _ | call
  · simp [QuorumState.step, hcall] at hstep
  have hsound := h.writes i call hcall
  rcases hrem : call.remaining with _ | ⟨⟨node, addr⟩, remaining⟩
  · simp [QuorumState.step, hcall, hrem] at hstep
  have hsent := h.issued_sent hsound.issued
  obtain ⟨state, next, res, htry, hreplica, hcases, hok⟩ :=
    (h.replica node).writeOneReplica call.coordinator
      (h.fits call.req hsent) (fate_env_ne fate reading node)
  rw [← hsound.schema_eq] at htry
  rw [step_tryWrite call hcall hrem htry, Option.some.injEq] at hstep
  have hadvances := Advances.of_mem hsent hcases
  have hnode := h.setNode hreplica hadvances
  have hgrown := hsound.mono (grows_update hadvances) (List.Subset.refl _)
  refine ⟨_, hstep ▸ hnode.setWrite i fun call' hcall' => ?_⟩
  rw [← Option.some.inj hcall']
  refine hgrown.tried hrem fun hres => ?_
  rw [Function.update_self, hok hres]
  exact call.req.atLeast_offerTo (regs node)

/-- A write ends; if it succeeds, a quorum holds it. -/
theorem endWrite (h : Sound R xxh64 f regs s) {i : ℕ}
    {hints : Except RouterError Unit}
    (hstep : s.step R xxh64 f (.endWrite i hints) = some s') :
    Sound R xxh64 f regs s' := by
  rcases hcall : s.writes i with _ | call
  · simp [QuorumState.step, hcall] at hstep
  have hsound := h.writes i call hcall
  rcases hrem : call.remaining with _ | ⟨replica, remaining⟩
  · have hended : Sound R xxh64 f regs
        { s with writes := Function.update s.writes i none } :=
      h.setWrite i (by simp)
    rcases hresult : call.result hints with e | ⟨⟩
    · simp only [QuorumState.step, hcall, Option.bind_eq_bind,
        Option.bind_some, hrem, hresult, Option.some.injEq] at hstep
      exact hstep ▸ hended
    · simp only [QuorumState.step, hcall, Option.bind_eq_bind,
        Option.bind_some, hrem, hresult, Option.some.injEq] at hstep
      rw [← hstep]
      refine ⟨hended.replica, hended.held, hended.fits, hended.issued_sent,
        hended.from_issued, hended.agreeing, hended.writes, hended.gets, ?_⟩
      intro req level hreq
      rcases List.mem_cons.mp hreq with hnew | hold
      · rw [Prod.mk.injEq] at hnew
        rw [hnew.1, hnew.2]
        exact ⟨hsound.issued, hsound.held hresult⟩
      · exact h.acked req level hold
  · simp [QuorumState.step, hcall, hrem] at hstep

/-- A read starts, and every acknowledged write is held by a quorum. -/
theorem startGet (h : Sound R xxh64 f regs s) {i : ℕ} {node : NodeId}
    {id : UInt64} {level : Consistency}
    (hstep : s.step R xxh64 f (.startGet i node id level) = some s') :
    Sound R xxh64 f regs s' := by
  rcases hschema : (s.world node).metadata.collections[f.collection]? with
    _ | schema
  · simp [QuorumState.step, hschema] at hstep
  obtain ⟨rfl, hnodes, hnodup⟩ := h.view hschema
  simp only [QuorumState.step, hschema] at hstep
  split_ifs at hstep
  rw [← Option.some.inj hstep]
  refine h.setGet i fun call hcall => ?_
  rw [← Option.some.inj hcall]
  refine ⟨rfl, ?_, hnodup, ?_, by simp, ?_, ?_⟩
  · rw [FixedShard.n, ← hnodes, List.length_map]
  · rw [List.map_nil, List.nil_append, hnodes]
  · intro req level' hreq
    exact (h.acked req level' hreq).1
  · intro req level' hreq hid
    obtain ⟨-, q, hq, hheld⟩ := h.acked req level' hreq
    refine ⟨q, hq, fun member hmember => ⟨?_, by simp⟩⟩
    exact hid ▸ hheld member hmember

/-- A read tries a replica. -/
theorem tryGet (h : Sound R xxh64 f regs s) {i : ℕ} {fate : CallFate}
    (hstep : s.step R xxh64 f (.tryGet i fate) = some s') :
    Sound R xxh64 f regs s' := by
  rcases hcall : s.gets i with _ | call
  · simp [QuorumState.step, hcall] at hstep
  have hsound := h.gets i call hcall
  rcases hrem : call.remaining with _ | ⟨⟨node, addr⟩, remaining⟩
  · simp [QuorumState.step, hcall, hrem] at hstep
  obtain ⟨state, res, htry, hreplica, hanswer⟩ :=
    (h.replica node).readOneReplica call.coordinator fate call.id
  rw [← hsound.schema_eq] at htry
  rw [step_tryGet call hcall hrem htry, Option.some.injEq] at hstep
  rw [← hstep]
  refine (h.setNode_same hreplica).setGet i fun call' hcall' => ?_
  rw [← Option.some.inj hcall']
  exact hsound.tried hrem hanswer (h.held node call.id)

/-- A read ends, and pushes what has won. -/
theorem endGet (h : Sound R xxh64 f regs s) {i : ℕ}
    (hstep : s.step R xxh64 f (.endGet i) = some s') :
    Sound R xxh64 f regs s' := by
  rcases hcall : s.gets i with _ | call
  · simp [QuorumState.step, hcall] at hstep
  have hsound := h.gets i call hcall
  rcases hrem : call.remaining with _ | ⟨replica, remaining⟩
  · rcases houtcome : call.responses.outcome f.collection f.shardIdx
        call.consistency call.n with e | ⟨_ | win⟩
    case ok.some =>
      have hwin : call.responses.winner = some win := by
        simp only [Responses.outcome] at houtcome
        split_ifs at houtcome
        exact Except.ok.inj houtcome
      simp only [QuorumState.step, hcall, Option.bind_eq_bind,
        Option.bind_some, hrem, houtcome, Option.some.injEq] at hstep
      rw [← hstep]
      exact (h.push hsound hwin (call.responses.stale win)).setGet i (by simp)
    all_goals
      simp only [QuorumState.step, hcall, Option.bind_eq_bind,
        Option.bind_some, hrem, houtcome, Option.some.injEq] at hstep
      rw [← hstep]
      exact h.setGet i (by simp)
  · simp [QuorumState.step, hcall, hrem] at hstep

/-- A request arrives. -/
theorem deliver (h : Sound R xxh64 f regs s) {node : NodeId} {reading : ℕ}
    {req : ReplicaWriteRequest}
    (hstep : s.step R xxh64 f (.deliver node reading req) = some s') :
    ∃ regs', Sound R xxh64 f regs' s' := by
  simp only [QuorumState.step] at hstep
  split_ifs at hstep with hsent
  rw [← Option.some.inj hstep]
  obtain ⟨next, hreplica, hcases, -⟩ :=
    (h.replica node).replicaWrite (h.fits req hsent) reading
  exact ⟨_, h.setNode hreplica (.of_mem hsent hcases)⟩

/-- A node repairs its own replica. -/
theorem deliverLocal (h : Sound R xxh64 f regs s) {node : NodeId}
    {req : ReplicaWriteRequest}
    (hstep : s.step R xxh64 f (.deliverLocal node req) = some s') :
    ∃ regs', Sound R xxh64 f regs' s' := by
  simp only [QuorumState.step] at hstep
  split_ifs at hstep with hsent
  rw [← Option.some.inj hstep]
  have hfits := h.fits req hsent
  obtain ⟨shards, out, hwrite, hreplica⟩ :=
    (h.replica node).write hfits (s.world node).clock
  have hsref : f.sref = shardRef req.collection req.shardIdx f.schema := by
    have hcollection : req.collection = f.collection :=
      congrArg ShardKey.collection hfits.key_eq
    have hidx : req.shardIdx = f.shardIdx :=
      congrArg ShardKey.shardIdx hfits.key_eq
    rw [hcollection, hidx, FixedShard.sref]
  rw [hsref, hwrite]
  exact ⟨_, h.setNode hreplica (.of_mem hsent (.inr rfl))⟩

theorem step (h : Sound R xxh64 f regs s) {e : QuorumStep}
    (he : e.FitsApart xxh64 f s) (hstep : s.step R xxh64 f e = some s') :
    ∃ regs', Sound R xxh64 f regs' s' := by
  cases e with
  | startUpsert i node reading id vector payload level =>
      obtain ⟨hreplica, hdim⟩ :=
        (h.replica node).stampUpsert reading id vector payload
      exact ⟨regs, h.startWrite hreplica hdim he hstep⟩
  | startDelete i node reading id level =>
      obtain ⟨hreplica, hdim⟩ := (h.replica node).stampDelete reading id
      exact ⟨regs, h.startWrite hreplica hdim he hstep⟩
  | tryWrite i fate reading => exact h.tryWrite hstep
  | endWrite i hints => exact ⟨regs, h.endWrite hstep⟩
  | startGet i node id level => exact ⟨regs, h.startGet hstep⟩
  | tryGet i fate => exact ⟨regs, h.tryGet hstep⟩
  | endGet i => exact ⟨regs, h.endGet hstep⟩
  | deliver node reading req => exact h.deliver hstep
  | deliverLocal node req => exact h.deliverLocal hstep

end Sound

theorem Run.sound (h : Run R xxh64 f (fun s e => e.FitsApart xxh64 f s) s) :
    ∃ regs, Sound R xxh64 f regs s := by
  induction h with
  | init hinit => exact ⟨_, hinit.sound⟩
  | step e _ he hstep ih =>
      obtain ⟨regs, hsound⟩ := ih
      exact hsound.step he hstep
  | crash _ hstate ih =>
      obtain ⟨regs, hsound⟩ := ih
      exact hsound.crash hstate
  | @elsewhere s node state _ hstate ih =>
      obtain ⟨regs, hsound⟩ := ih
      exact ⟨regs, hsound.setNode_same
        ((hsound.replica node).elsewhere hstate)⟩

end QuorumState

/-- A read returns what an acknowledged write left, or newer, in every run
whose writes fit their frames and in which no stamp is given to an id that
another content of the id already has. -/
theorem readsAcknowledged_of_fitsApart (R : Runtime)
    (xxh64 : Bytes → UInt64) (f : FixedShard) :
    ReadsAcknowledged R xxh64 f fun s e => e.FitsApart xxh64 f s := by
  intro s hrun i call hcall _ winner houtcome req level hreq hid hquorums
  obtain ⟨regs, h⟩ := hrun.sound
  have hsound := h.gets i call hcall
  obtain ⟨win, source, rfl, hsource, hsourceId, rfl, hle⟩ :=
    hsound.outcome houtcome hreq hid hquorums
  refine ⟨_, rfl, hle, source, hsource, hsourceId.trans hid.symm, ?_, ?_⟩
  · rcases hle.eq_or_lt with heq | hlt
    · left
      apply h.agreeing source hsource req (hsound.acked req level hreq) _ _
        heq.symm
      · rw [(h.fits source (h.issued_sent hsource)).key_eq,
          (h.fits req (h.issued_sent (hsound.acked req level hreq))).key_eq]
      · exact hsourceId.trans hid.symm
    · exact .inr hlt
  · rw [hid]
    rcases source.written with ⟨t, _ | vector⟩ <;> rfl

/-! ## Two writes with one stamp -/

namespace OneReplica

theorem stampUpsert_fresh (x : F32) :
    fresh.stampUpsert (fun _ => 0) 5 shard.collection 7 [x] [] =
      ({ fresh with clock := stamp }, .ok (req x)) := by
  have hknown : fresh.metadata.collections[shard.collection]? = some schema :=
    schema_eq
  have hdim : ¬ [x].length ≠ schema.dim.toNat := not_not_intro rfl
  simp only [NodeState.stampUpsert, hknown, if_neg hdim, shardForId_eq]
  rfl

/-- A fresh node stamps an upsert and is ready to try the replica. -/
theorem startUpsert (node : NodeId) (i : ℕ) (x : F32) {s : QuorumState}
    (hnode : s.world node = fresh) :
    s.step .constant (fun _ => 0) shard
        (.startUpsert i node 5 7 [x] [] .one) =
      some { s with
        world := Function.update s.world node { fresh with clock := stamp }
        sent := req x :: s.sent
        issued := req x :: s.issued
        writes := Function.update s.writes i (some (call node x)) } := by
  have hknown : fresh.metadata.collections[shard.collection]? = some schema :=
    schema_eq
  have hreplicas : replicasWithAddrs (fun _ => 0) fresh.metadata
      shard.collection shard.shardIdx = [(1, "a")] := replicas_eq
  simp only [QuorumState.step, QuorumState.startWrite, hnode,
    stampUpsert_fresh, hknown, hreplicas]
  rfl

/-- A read starts at the replica. -/
theorem startGet {s : QuorumState} (hmeta : (s.world 1).metadata = metadata)
    (i : ℕ) :
    s.step .constant (fun _ => 0) shard (.startGet i 1 7 .one) =
      some { s with
        gets := Function.update s.gets i (some
          { coordinator := 1, id := 7, schema, consistency := .one, n := 1
            remaining := [(1, "a")], responses := []
            ackedBefore := s.acked }) } := by
  have hknown : metadata.collections[shard.collection]? = some schema :=
    schema_eq
  have hreplicas : replicasWithAddrs (fun _ => 0) metadata
      shard.collection shard.shardIdx = [(1, "a")] := replicas_eq
  simp only [QuorumState.step, hmeta, hknown, hreplicas]
  rw [if_pos ⟨shardForId_eq, by simp⟩]
  rfl

theorem offerTo_twice :
    (req 1).offerTo ((req 0).offerTo fun _ => none) 7 =
      some (req 0).written := by
  simp [ReplicaWriteRequest.offerTo, deliverWith, offer, Beats, req,
    ReplicaWriteRequest.written]

end OneReplica

open OneReplica in
/-- Two coordinators stamp different vectors for one id in the same
millisecond.  The replica takes the first; the second is stale there, is
acknowledged all the same, and the read returns the first. -/
theorem not_readsAcknowledged : ¬ ∀ R xxh64 f,
    ReadsAcknowledged R xxh64 f fun _ _ => True := by
  intro hall
  let s₀ : QuorumState :=
    { world := fun _ => fresh, sent := [], issued := []
      writes := fun _ => none, gets := fun _ => none, acked := [] }
  have hinit : QuorumState.Initial (fun _ => 0) shard s₀ :=
    ⟨Nat.one_pos, fun _ => pinned, fun _ => rfl, fun _ => rfl, rfl, rfl,
      fun _ => rfl, fun _ => rfl, rfl⟩
  -- both nodes stamp a write
  have hrun₀ : QuorumState.Run .constant (fun _ => 0) shard
      (fun _ _ => True) s₀ := .init hinit
  have hrun₁ := hrun₀.step _ trivial (startUpsert 1 1 0 rfl)
  have hrun₂ := hrun₁.step _ trivial (startUpsert 2 2 1 rfl)
  -- the replica takes the one of node 1, and then acknowledges the other
  let ticked : NodeState := { fresh with clock := stamp }
  let w₂ : World := Function.update (Function.update (fun _ => fresh) 1
    ticked) 2 ticked
  have hreplica₂ : (w₂ 1).Replica .constant (fun _ => 0) shard
      fun _ => none :=
    ⟨pinned, rfl, ShardSlot.durable_unused Nat.one_pos⟩
  obtain ⟨state₃, hwrite₃, hreplica₃, hmeta₃⟩ :=
    hreplica₂.writeOneReplica_answered 1 (fits_req 0) schema_eq
      (CallFate.answered.env 5) rfl
  have hrun₃ := hrun₂.step _ trivial
    (QuorumState.step_tryWrite (i := 1) (call 1 0) rfl rfl hwrite₃)
  obtain ⟨state₄, hwrite₄, hreplica₄, hmeta₄⟩ :=
    @NodeState.Replica.writeOneReplica_answered .constant _ shard _ (req 1)
      (Function.update w₂ 1 state₃) 1
      (by simpa only [Function.update_self] using hreplica₃) 2 (fits_req 1)
      (by simp only [Function.update_self, hmeta₃]; exact schema_eq)
      (CallFate.answered.env 5) rfl
  have hrun₄ := hrun₃.step _ trivial
    (QuorumState.step_tryWrite (i := 2) (call 2 1) rfl rfl hwrite₄)
  have hrun₅ := hrun₄.step (.endWrite 2 (.ok ())) trivial rfl
  -- a read that begins now is answered with the first
  have hrun₆ := hrun₅.step _ trivial (startGet (by
    simp only [Function.update_self, hmeta₄, hmeta₃]
    rfl) 0)
  obtain ⟨state₇, hread, -⟩ := hreplica₄.readLocal 7
  rw [offerTo_twice, Option.map_some] at hread
  have hrun₇ := hrun₆.step _ trivial
    (@QuorumState.step_tryGet _ _ _ _ 0 .answered 1 _ _ _ _ _ rfl rfl (by
      simp only [readOneReplica, if_pos, Function.update_self]
      rw [show schema = shard.schema from rfl, hread]))
  obtain ⟨win, -, -, source, hsource, -, hwritten, hreturned⟩ :=
    hall _ _ _ _ hrun₇ 0 _ rfl rfl _ rfl (req 1) .one List.mem_cons_self rfl
      Nat.one_lt_two
  have hstamps : source.written.1 = (req 1).written.1 := by
    have hissued : source ∈ [req 1, req 0] := hsource
    rcases List.mem_pair.mp hissued with rfl | rfl <;> rfl
  have hsecond : source.written = (req 1).written :=
    hwritten.resolve_right fun hlt => hlt.ne hstamps.symm
  rw [hsecond] at hreturned
  have hvectors : ([(7, [0])] : List (UInt64 × List F32)) = [(7, [1])] :=
    hreturned
  exact absurd hvectors (by decide)

end Quorvec
