import Quorvec.Node.Coverage
import Quorvec.Node.ReplicaWorld

/-!
# Hinted handoff

A coordinator keeps a hint for every replica that has not acknowledged a write,
and replays its hints from time to time: each is pushed to its target, and those
that could not be pushed are kept.

For one shard, whose replicas may restart in between, every write that was
coordinated is held by each replica or is among the hints, and a pass whose
calls are answered brings it to all of them.
-/

namespace Quorvec

open LastWriterWins ByteCodec

/-- The push of a hint. -/
def Hint.request (h : Hint) : ReplicaWriteRequest where
  collection := h.collection
  shardIdx := h.shardIdx
  op :=
    match h.op with
    | .delete => ShardStore.opDelete
    | .upsert => ShardStore.opUpsert
  id := h.id
  hlc := h.hlc.pack
  vector := h.vector
  payload := h.payload

section Replay

variable (R : Runtime) (metadata : MetaState)

/-- Push one hint; says whether its target has answered without an error. -/
def pushHint (env : PushEnv) (h : Hint) (w : World) : World × Bool :=
  match metadata.nodes[h.targetNode]? with
  | none => (w, false)
  | some _ => callReplicaWrite R env w h.targetNode h.request

/-- The loop over the hints: those to keep, and the number of the others. -/
def pushHints : (ℕ → PushEnv) → List Hint → World → World × List Hint × ℕ
  | _, [], w => (w, [], 0)
  | env, h :: hints, w =>
      match pushHint R metadata (env 0) h w with
      | (w, pushed) =>
          match pushHints (fun i => env (i + 1)) hints w with
          | (w, keep, replayed) =>
              if pushed then (w, keep, replayed + 1)
              else (w, h :: keep, replayed)

end Replay

/-- Replay the hints of a node; returns how many were pushed. -/
def replayHints (R : Runtime) (self : NodeId) (env : ℕ → PushEnv)
    (w : World) : World × Except RouterError ℕ :=
  match readAllHints R.crc32 (w self).hintLog with
  | .error _ => (w, .error .hint)
  | .ok [] => (w, .ok 0)
  | .ok hints =>
      match pushHints R (w self).metadata env hints w with
      | (w, keep, replayed) =>
          (Function.update w self
            { w self with hintLog := rewriteHints R.crc32 keep },
            .ok replayed)

/-! ## Runs -/

/-- A coordinator among the nodes, and the writes to the shard that it has
coordinated. -/
structure Handoff where
  world : World
  written : List ReplicaWriteRequest

/-- The hint store works, and an operation that fails changes no shard. -/
structure Env.Harmless (env : Env) (w : World) : Prop where
  hintFault : ∀ hint, env.hintFault hint = none
  storage : ∀ node shards, env.fate node = .storageFault shards →
    shards = (w node).shards

section Statement

variable (R : Runtime) (xxh64 : Bytes → UInt64) (f : FixedShard)
variable (self : NodeId)

/-- Writes and replay passes of the coordinator, one after another.  In between
anything may happen that takes no register back and leaves its hints alone:
other coordinators write, nodes crash and restart. -/
inductive Handoff.Run : Handoff → Prop
  | init {w : World} {regs : NodeId → Registers} :
      w.Serves R xxh64 f regs → (w self).hintLog = none →
      Run { world := w, written := [] }
  | write {s : Handoff} {env : Env} {req : ReplicaWriteRequest}
      {schema : CollectionSchema} (consistency : Consistency) : Run s →
      (s.world self).metadata.collections[req.collection]? = some schema →
      env.Harmless s.world → (∀ target, (req.hintFor target).FitsFrame) →
      (req.key = f.key → f.Fits req) →
      Run
        { world := (replicateWrite R env self xxh64 s.world
            (s.world self).metadata schema req consistency).world
          written := if req.key = f.key then req :: s.written
            else s.written }
  | replay {s : Handoff} (env : ℕ → PushEnv) : Run s →
      Run { s with world := (replayHints R self env s.world).1 }
  | elsewhere {s : Handoff} {w : World} {regs regs' : NodeId → Registers} :
      Run s → s.world.Serves R xxh64 f regs → w.Serves R xxh64 f regs' →
      Grows regs regs' → (w self).hintLog = (s.world self).hintLog →
      Run { s with world := w }

/-- In every run, each replica holds each write or is the target of a hint for
it, and a replay pass whose calls are all answered brings the writes to all
replicas. -/
def HandsOff : Prop :=
  ∀ s, Handoff.Run R xxh64 f self s → ∃ regs hints,
    s.world.Serves R xxh64 f regs ∧
    readAllHints R.crc32 (s.world self).hintLog = .ok hints ∧
    (∀ req ∈ s.written, ∀ node ∈ f.nodes,
      Taken regs req node ∨ req.hintFor node ∈ hints) ∧
    ∀ env : ℕ → PushEnv, (∀ i, (env i).fate = .answered) →
      (∀ node, (s.world node).metadata.collections[f.collection]? =
        some f.schema) →
      ∃ regs', (replayHints R self env s.world).1.Serves R xxh64 f regs' ∧
        ∀ req ∈ s.written, ∀ node ∈ f.nodes, Taken regs' req node

end Statement

/-! ## Hints as requests -/

section Request

variable {f : FixedShard} {req : ReplicaWriteRequest} {target : NodeId}

theorem written_request_hintFor :
    (req.hintFor target).request.written = req.written := by
  simp only [ReplicaWriteRequest.written, Hint.request,
    ReplicaWriteRequest.hintFor, Hlc.unpack_pack]
  by_cases hop : req.op = ShardStore.opDelete
  · simp [hop]
  · rw [if_neg hop, contentOf, contentOf, if_neg hop]
    rfl

theorem FixedShard.Fits.request (h : f.Fits req) (target : NodeId) :
    f.Fits (req.hintFor target).request := by
  refine ⟨h.key_eq, ?_, ?_⟩
  · rw [written_request_hintFor]
    exact h.dim
  · have hframe := h.frame
    simp only [ReplicaWriteRequest.FitsFrame, Hint.request,
      ReplicaWriteRequest.hintFor, Hlc.unpack_pack] at hframe ⊢
    by_cases hop : req.op = ShardStore.opDelete
    · simpa [ShardStore.callOf, hop] using hframe
    · rw [ShardStore.callOf, if_neg hop] at hframe
      rw [if_neg hop]
      exact hframe

end Request

/-! ## A replay pass -/

section Push

variable {R : Runtime} {xxh64 : Bytes → UInt64} {f : FixedShard}
variable {metadata : MetaState} {regs : NodeId → Registers} {w : World}

/-- The registers of the target of a hint hold its write, or a newer one. -/
def FixedShard.Pushed (f : FixedShard) (regs : NodeId → Registers)
    (h : Hint) : Prop :=
  h.request.key = f.key → Taken regs h.request h.targetNode

theorem FixedShard.Pushed.mono {regs' : NodeId → Registers} {h : Hint}
    (hpushed : f.Pushed regs h) (hgrows : Grows regs regs') :
    f.Pushed regs' h :=
  fun hkey => hgrows _ _ _ (hpushed hkey)

theorem FixedShard.Pushed.taken {req : ReplicaWriteRequest} {node : NodeId}
    (hpushed : f.Pushed regs (req.hintFor node)) (hkey : req.key = f.key) :
    Taken regs req node := by
  have htaken := hpushed hkey
  rwa [Taken, written_request_hintFor] at htaken

/-- A push offers the hint to its target, and a success means that the target
has taken the write. -/
theorem World.Serves.pushHint (hserves : w.Serves R xxh64 f regs)
    (env : PushEnv) {h : Hint}
    (hfits : h.request.key = f.key → f.Fits h.request) :
    ∃ regs',
      (Quorvec.pushHint R metadata env h w).1.Serves R xxh64 f regs' ∧
      w.Keeps (Quorvec.pushHint R metadata env h w).1 ∧
      f.Absorbs [h.request] regs regs' ∧
      ((Quorvec.pushHint R metadata env h w).2 = true → f.Pushed regs' h) := by
  unfold Quorvec.pushHint
  split
  · exact ⟨regs, hserves, .refl w, .refl, fun hres => by simp at hres⟩
  · obtain ⟨state, regs', hworld, hcalled, hok⟩ :=
      hserves.callReplicaWrite env hfits
    obtain ⟨hupdate, -⟩ := hserves.update hcalled.replica
      fun _ _ ht => hcalled.offered.atLeast ht
    rw [hworld]
    refine ⟨_, hupdate, .update hcalled.metadata_eq hcalled.hintLog_eq,
      .of_offered hcalled.offered, fun hres hkey => ?_⟩
    rw [Taken, Function.update_self, hok hres hkey]
    exact h.request.atLeast_offerTo _

/-- What it takes for the push of a hint for the shard to succeed. -/
structure Hint.Reachable (f : FixedShard) (metadata : MetaState) (w : World)
    (h : Hint) : Prop where
  target : h.targetNode ∈ metadata.nodes
  known : (w h.targetNode).metadata.collections[f.collection]? = some f.schema

/-- Where the collection is known, every replica has an address. -/
theorem World.Serves.reachable (hserves : w.Serves R xxh64 f regs)
    (hknown : ∀ node, (w node).metadata.collections[f.collection]? =
      some f.schema) {h : Hint} (htarget : h.targetNode ∈ f.nodes)
    {self : NodeId} : h.Reachable f (w self).metadata w := by
  refine ⟨?_, hknown _⟩
  rw [← ((hserves self).pinned _ (hknown self)).2, List.mem_map] at htarget
  obtain ⟨⟨id, addr⟩, hid, heq⟩ := htarget
  rw [replicasWithAddrs, List.mem_filterMap] at hid
  obtain ⟨id', -, haddr⟩ := hid
  obtain ⟨addr', haddr', hpair⟩ := Option.map_eq_some_iff.mp haddr
  obtain ⟨rfl, -⟩ := Prod.mk.inj hpair
  rw [← heq, Std.ExtTreeMap.mem_iff_isSome_getElem?, haddr']
  rfl

theorem World.Serves.pushHint_answered (hserves : w.Serves R xxh64 f regs)
    {env : PushEnv} (henv : env.fate = .answered) {h : Hint}
    (hreq : f.Fits h.request) (hreach : h.Reachable f metadata w) :
    (Quorvec.pushHint R metadata env h w).2 = true := by
  obtain ⟨addr, haddr⟩ : ∃ addr, metadata.nodes[h.targetNode]? = some addr :=
    Option.isSome_iff_exists.mp
      (Std.ExtTreeMap.mem_iff_isSome_getElem?.mp hreach.target)
  simp only [Quorvec.pushHint, haddr]
  exact hserves.callReplicaWrite_answered henv hreq hreach.known

/-- What the loop over the hints does. -/
structure Replayed (R : Runtime) (xxh64 : Bytes → UInt64) (f : FixedShard)
    (metadata : MetaState) (env : ℕ → PushEnv) (hints : List Hint) (w : World)
    (regs regs' : NodeId → Registers) (out : World × List Hint × ℕ) :
    Prop where
  serves : out.1.Serves R xxh64 f regs'
  absorbs : f.Absorbs (hints.map Hint.request) regs regs'
  keeps : w.Keeps out.1
  keep : out.2.1 ⊆ hints
  pushed : ∀ h ∈ hints, h ∈ out.2.1 ∨ f.Pushed regs' h
  answered : (∀ i, (env i).fate = .answered) →
    (∀ h ∈ hints, h.request.key = f.key → h.Reachable f metadata w) →
    ∀ h ∈ out.2.1, h.request.key ≠ f.key

theorem World.Serves.pushHints (hserves : w.Serves R xxh64 f regs)
    (env : ℕ → PushEnv) {hints : List Hint}
    (hfits : ∀ h ∈ hints, h.request.key = f.key → f.Fits h.request) :
    ∃ regs', Replayed R xxh64 f metadata env hints w regs regs'
      (Quorvec.pushHints R metadata env hints w) := by
  induction hints generalizing env w regs with
  | nil =>
      refine ⟨regs, hserves, .refl, .refl w, List.Subset.refl _, ?_, ?_⟩
      · simp
      · exact fun _ _ h hh => by simp [Quorvec.pushHints] at hh
  | cons h hints ih =>
      obtain ⟨regs₁, hserves₁, hkeeps₁, habsorbs₁, hok⟩ :=
        @hserves.pushHint _ _ _ metadata _ _ (env 0) h
          (hfits h List.mem_cons_self)
      have hsucceeds := fun henv hkey => @hserves.pushHint_answered _ _ _
        metadata _ _ (env 0) henv h (hfits h List.mem_cons_self hkey)
      rcases hpush : Quorvec.pushHint R metadata (env 0) h w with ⟨w₁, pushed⟩
      rw [hpush] at hserves₁ hkeeps₁ hok hsucceeds
      obtain ⟨regs₂, hrest⟩ := @ih _ _ hserves₁ (fun i => env (i + 1))
        fun x hx => hfits x (List.mem_cons_of_mem _ hx)
      have habsorbs :
          f.Absorbs ((h :: hints).map Hint.request) regs regs₂ :=
        (habsorbs₁.mono (List.cons_subset_cons _ (List.nil_subset _))).trans
          (hrest.absorbs.mono (List.subset_cons_self _ _))
      have hanswered : (∀ i, (env i).fate = .answered) →
          (∀ x ∈ h :: hints, x.request.key = f.key →
            x.Reachable f metadata w) →
          ∀ x ∈ (Quorvec.pushHints R metadata (fun i => env (i + 1)) hints
            w₁).2.1, x.request.key ≠ f.key := by
        intro henv hreach
        refine hrest.answered (fun i => henv (i + 1)) fun x hx hkey => ?_
        have hx' := hreach x (List.mem_cons_of_mem _ hx) hkey
        exact ⟨hx'.target, by rw [hkeeps₁.metadata_eq]; exact hx'.known⟩
      refine ⟨regs₂, ?_⟩
      rw [Quorvec.pushHints, hpush]
      rcases hout : Quorvec.pushHints R metadata (fun i => env (i + 1)) hints
        w₁ with ⟨w₂, keep, replayed⟩
      rw [hout] at hrest hanswered
      simp only [hout]
      have hkeeps : w.Keeps w₂ := hkeeps₁.trans hrest.keeps
      cases pushed with
      | true =>
          refine ⟨hrest.serves, habsorbs, hkeeps, ?_, fun x hx => ?_,
            hanswered⟩
          · exact fun x hx => List.mem_cons_of_mem _ (hrest.keep hx)
          · rcases List.mem_cons.mp hx with rfl | hx
            · exact .inr ((hok rfl).mono hrest.absorbs.grows)
            · exact hrest.pushed x hx
      | false =>
          refine ⟨hrest.serves, habsorbs, hkeeps, ?_, fun x hx => ?_, ?_⟩
          · exact List.cons_subset_cons _ hrest.keep
          · rcases List.mem_cons.mp hx with rfl | hx
            · exact .inl List.mem_cons_self
            · exact (hrest.pushed x hx).imp_left (List.mem_cons_of_mem _)
          · intro henv hreach x hx hkey
            rcases List.mem_cons.mp hx with rfl | hx
            · have hdone := hsucceeds (henv 0) hkey
                (hreach x List.mem_cons_self hkey)
              simp at hdone
            · exact hanswered henv hreach x hx hkey

end Push

/-! ## A coordinated write -/

section Write

variable {R : Runtime} {xxh64 : Bytes → UInt64} {f : FixedShard}
variable {env : Env} {self node : NodeId} {req : ReplicaWriteRequest}
variable {schema : CollectionSchema} {regs : NodeId → Registers} {w : World}

/-- One replica's part of a write changes its node only; if it counts as an
acknowledgement, the node has taken the write. -/
theorem World.Serves.writeOneReplica (h : w.Serves R xxh64 f regs)
    (hfits : req.key = f.key → f.Fits req ∧ schema = f.schema)
    (hstorage : ∀ shards, env.fate node = .storageFault shards →
      shards = (w node).shards) :
    ∃ state res regs', Quorvec.writeOneReplica R env self w node req schema =
        (Function.update w node state, res) ∧
      state.metadata = (w node).metadata ∧
      state.hintLog = (w node).hintLog ∧
      state.Replica R xxh64 f regs' ∧ f.Offered req (regs node) regs' ∧
      (res = .ok true → req.key = f.key →
        regs' = req.offerTo (regs node)) := by
  obtain ⟨regs', hreplica, hoffered, hok⟩ := (h node).handles
    (fun hkey => (hfits hkey).1) (env.reading node)
  have hmeta := NodeState.metadata_replicaWrite R (w node) (env.reading node)
    req
  have hlog := NodeState.hintLog_replicaWrite R (w node) (env.reading node) req
  have hfault : ∀ shards, shards = (w node).shards →
      ({ w node with shards } : NodeState) = w node := by
    rintro _ rfl
    rfl
  unfold Quorvec.writeOneReplica
  by_cases hself : node = self
  · rw [if_pos hself]
    rcases hfate : env.fate node with _ | _ | _ | shards
    case storageFault =>
      refine ⟨_, .ok false, regs node, rfl, rfl, rfl, ?_, .inl rfl,
        fun hres => by simp at hres⟩
      rw [hfault shards (hstorage shards hfate)]
      exact h node
    all_goals
      obtain ⟨own, hown, hoffered, htaken⟩ := (h node).writesLocally hfits
      dsimp only
      split
      · next shards out hwrite =>
          rw [hwrite] at hown
          exact ⟨_, .ok true, own, rfl, rfl, rfl, hown, hoffered,
            fun _ => htaken⟩
      · next shards e hwrite =>
          rw [hwrite] at hown
          exact ⟨_, .ok false, own, rfl, rfl, rfl, hown, hoffered,
            fun _ => htaken⟩
  · rw [if_neg hself]
    rcases hfate : env.fate node with _ | _ | _ | shards
    case storageFault =>
      refine ⟨_, .error .connError, regs node, rfl, rfl, rfl, ?_, .inl rfl,
        fun hres => by simp at hres⟩
      rw [hfault shards (hstorage shards hfate)]
      exact h node
    case unreachable =>
      refine ⟨w node, .error .connError, regs node, ?_, rfl, rfl, h node,
        .inl rfl, fun hres => by simp at hres⟩
      rw [Function.update_eq_self]
    case answerLost =>
      exact ⟨_, .error .connError, regs', rfl, hmeta, hlog, hreplica, hoffered,
        fun hres => by simp at hres⟩
    case answered =>
      dsimp only
      split
      · next state applied hreply =>
          rw [hreply] at hmeta hlog hreplica hok
          exact ⟨_, .ok true, regs', rfl, hmeta, hlog, hreplica, hoffered,
            fun _ => hok applied rfl⟩
      · next state e hreply =>
          rw [hreply] at hmeta hlog hreplica
          exact ⟨_, .error .connError, regs', rfl, hmeta, hlog, hreplica,
            hoffered, fun hres => by simp at hres⟩

/-- What the loop over the replicas does. -/
structure Replicated (R : Runtime) (xxh64 : Bytes → UInt64) (f : FixedShard)
    (req : ReplicaWriteRequest) (replicas : List (NodeId × String)) (w : World)
    (regs regs' : NodeId → Registers) (out : World × ℕ × List NodeId) :
    Prop where
  serves : out.1.Serves R xxh64 f regs'
  absorbs : f.Absorbs [req] regs regs'
  keeps : w.Keeps out.1
  missed : out.2.2 ⊆ replicas.map Prod.fst
  taken : req.key = f.key → ∀ r ∈ replicas,
    Taken regs' req r.1 ∨ r.1 ∈ out.2.2

theorem World.Serves.writeReplicas (h : w.Serves R xxh64 f regs)
    (hfits : req.key = f.key → f.Fits req ∧ schema = f.schema)
    {replicas : List (NodeId × String)}
    (hnodup : (replicas.map Prod.fst).Nodup)
    (hstorage : ∀ node ∈ replicas.map Prod.fst, ∀ shards,
      env.fate node = .storageFault shards → shards = (w node).shards) :
    ∃ regs', Replicated R xxh64 f req replicas w regs regs'
      (Quorvec.writeReplicas R env self req schema replicas w) := by
  induction replicas generalizing w regs with
  | nil =>
      exact ⟨regs, h, .refl, .refl w, List.Subset.refl _, by simp⟩
  | cons r replicas ih =>
      obtain ⟨node, addr⟩ := r
      rw [List.map_cons, List.nodup_cons] at hnodup
      obtain ⟨state, res, own, hwrite, hmeta, hlog, hreplica, hoffered, hok⟩ :=
        @World.Serves.writeOneReplica R xxh64 f env self node req schema regs w
          h hfits (hstorage node List.mem_cons_self)
      obtain ⟨hserves, -⟩ := h.update hreplica
        fun _ _ ht => hoffered.atLeast ht
      have hothers : ∀ other ∈ replicas.map Prod.fst, ∀ shards,
          env.fate other = .storageFault shards →
            shards = (Function.update w node state other).shards := by
        intro other hother shards hfate
        have hne : other ≠ node := ne_of_mem_of_not_mem hother hnodup.1
        rw [Function.update_of_ne hne]
        exact hstorage other (List.mem_cons_of_mem _ hother) shards hfate
      obtain ⟨regs', hrest⟩ := ih hserves hnodup.2 hothers
      have hfirst : res = .ok true → req.key = f.key →
          Taken regs' req node := by
        intro hres hkey
        apply hrest.absorbs.grows
        rw [Function.update_self, hok hres hkey]
        exact req.atLeast_offerTo _
      refine ⟨regs', ?_⟩
      rcases hout : Quorvec.writeReplicas R env self req schema replicas
        (Function.update w node state) with ⟨w', acks, unreachable⟩
      rw [hout] at hrest
      have habsorbs : f.Absorbs [req] regs regs' :=
        (FixedShard.Absorbs.of_offered hoffered).trans hrest.absorbs
      have hkeeps : w.Keeps w' :=
        (World.Keeps.update hmeta hlog).trans hrest.keeps
      simp only [Quorvec.writeReplicas, hwrite, hout]
      split
      · refine ⟨hrest.serves, habsorbs, hkeeps, ?_, fun hkey r hr => ?_⟩
        · exact fun x hx => List.mem_cons_of_mem _ (hrest.missed hx)
        · rcases List.mem_cons.mp hr with rfl | hr
          · exact .inl (hfirst rfl hkey)
          · exact hrest.taken hkey r hr
      · refine ⟨hrest.serves, habsorbs, hkeeps, ?_, fun hkey r hr => ?_⟩
        · exact List.cons_subset_cons _ hrest.missed
        · rcases List.mem_cons.mp hr with rfl | hr
          · exact .inr List.mem_cons_self
          · exact (hrest.taken hkey r hr).imp_right (List.mem_cons_of_mem _)

/-- A hint store that works appends a hint for each target. -/
theorem holds_bufferHints (hfault : ∀ hint, env.hintFault hint = none)
    (hfits : ∀ target, (req.hintFor target).FitsFrame)
    (targets : List NodeId) {log : Option Bytes} {hints : List Hint}
    (h : HintLog.Holds R.crc32 log hints) :
    HintLog.Holds R.crc32 (bufferHints R env req targets log).1
      (hints ++ targets.map req.hintFor) := by
  induction targets generalizing log hints with
  | nil => simpa [bufferHints] using h
  | cons target targets ih =>
      have hnext := ih (h.append (hfits target))
      rw [List.append_assoc, List.singleton_append] at hnext
      rw [bufferHints, hfault]
      exact hnext

theorem serves_update_hintLog (h : w.Serves R xxh64 f regs)
    (log : Option Bytes) :
    World.Serves R xxh64 f regs
      (Function.update w self { w self with hintLog := log }) :=
  h.update_same ((h self).of_eq rfl rfl)

/-- What a coordinated write does: the hints that are new are for it, and for
its replicas. -/
structure Coordinated (R : Runtime) (xxh64 : Bytes → UInt64) (f : FixedShard)
    (me : NodeId) (req : ReplicaWriteRequest) (w : World)
    (regs regs' : NodeId → Registers) (hints hints' : List Hint)
    (w' : World) : Prop where
  serves : w'.Serves R xxh64 f regs'
  absorbs : f.Absorbs [req] regs regs'
  log : HintLog.Holds R.crc32 (w' me).hintLog hints'
  kept : hints ⊆ hints'
  added : ∀ x ∈ hints', x ∈ hints ∨ ∃ target, x = req.hintFor target ∧
    (req.key = f.key → target ∈ f.nodes)
  covered : req.key = f.key → ∀ node ∈ f.nodes,
    Taken regs' req node ∨ req.hintFor node ∈ hints'

theorem World.Serves.replicateWrite (h : w.Serves R xxh64 f regs)
    {hints : List Hint}
    (hlog : HintLog.Holds R.crc32 (w self).hintLog hints)
    (consistency : Consistency)
    (hschema : (w self).metadata.collections[req.collection]? = some schema)
    (henv : env.Harmless w)
    (hframes : ∀ target, (req.hintFor target).FitsFrame)
    (hfits : req.key = f.key → f.Fits req) :
    ∃ regs' hints', Coordinated R xxh64 f self req w regs regs' hints hints'
      (Quorvec.replicateWrite R env self xxh64 w (w self).metadata schema req
        consistency).world := by
  let view := replicasWithAddrs xxh64 (w self).metadata req.collection
    req.shardIdx
  have hpinned : req.key = f.key →
      schema = f.schema ∧ view.map Prod.fst = f.nodes := by
    intro hkey
    have hcollection : req.collection = f.collection :=
      congrArg ShardKey.collection hkey
    have hidx : req.shardIdx = f.shardIdx := congrArg ShardKey.shardIdx hkey
    obtain ⟨hsame, hview⟩ := (h self).pinned schema (hcollection ▸ hschema)
    refine ⟨hsame, ?_⟩
    rw [← hview, ← hcollection, ← hidx]
  rw [Quorvec.replicateWrite]
  by_cases hempty : view.isEmpty = true
  · rw [if_pos hempty]
    refine ⟨regs, hints, h, .refl, hlog, List.Subset.refl _,
      fun x hx => .inl hx, fun hkey node hnode => ?_⟩
    -- without an address there is no replica to cover
    rw [← (hpinned hkey).2, List.isEmpty_iff.mp hempty] at hnode
    simp at hnode
  · rw [if_neg hempty]
    obtain ⟨regs', hdone⟩ :=
      h.writeReplicas (fun hkey => ⟨hfits hkey, (hpinned hkey).1⟩)
        replicasWithAddrs_nodup fun node _ => henv.storage node
    let written := Quorvec.writeReplicas R env self req schema view w
    have hold : HintLog.Holds R.crc32 (written.1 self).hintLog hints := by
      rw [hdone.keeps.hintLog_eq]
      exact hlog
    have hbuffered := holds_bufferHints henv.hintFault hframes written.2.2 hold
    refine ⟨regs', hints ++ written.2.2.map req.hintFor,
      serves_update_hintLog hdone.serves _, hdone.absorbs, ?_,
      List.subset_append_left _ _, fun x hx => ?_, fun hkey node hnode => ?_⟩
    · show HintLog.Holds R.crc32 (Function.update written.1 self _ self).hintLog
        _
      rw [Function.update_self]
      exact hbuffered
    · refine (List.mem_append.mp hx).imp_right fun hx => ?_
      obtain ⟨target, htarget, rfl⟩ := List.mem_map.mp hx
      refine ⟨target, rfl, fun hkey => ?_⟩
      rw [← (hpinned hkey).2]
      exact hdone.missed htarget
    · rw [← (hpinned hkey).2, List.mem_map] at hnode
      obtain ⟨r, hr, rfl⟩ := hnode
      refine (hdone.taken hkey r hr).imp_right fun hmissed => ?_
      exact List.mem_append_right _ (List.mem_map_of_mem hmissed)

end Write

/-- What a replay pass does: each hint stays, or its write is at its target. -/
structure HintsReplayed (R : Runtime) (xxh64 : Bytes → UInt64) (f : FixedShard)
    (me : NodeId) (env : ℕ → PushEnv) (w : World)
    (regs regs' : NodeId → Registers) (hints keep : List Hint) (w' : World) :
    Prop where
  serves : w'.Serves R xxh64 f regs'
  absorbs : f.Absorbs (hints.map Hint.request) regs regs'
  log : HintLog.Holds R.crc32 (w' me).hintLog keep
  other : ∀ node, node ≠ me → (w' node).hintLog = (w node).hintLog
  metadata_eq : ∀ node, (w' node).metadata = (w node).metadata
  kept : keep ⊆ hints
  pushed : ∀ x ∈ hints, x ∈ keep ∨ f.Pushed regs' x
  answered : (∀ i, (env i).fate = .answered) →
    (∀ x ∈ hints, x.request.key = f.key →
      x.Reachable f (w me).metadata w) →
    ∀ x ∈ keep, x.request.key ≠ f.key

theorem World.Serves.replayHints {R : Runtime} {xxh64 : Bytes → UInt64}
    {f : FixedShard} {self : NodeId} {regs : NodeId → Registers} {w : World}
    (h : w.Serves R xxh64 f regs) {hints : List Hint}
    (hlog : HintLog.Holds R.crc32 (w self).hintLog hints)
    (hfits : ∀ x ∈ hints, x.request.key = f.key → f.Fits x.request)
    (env : ℕ → PushEnv) :
    ∃ regs' keep, HintsReplayed R xxh64 f self env w regs regs' hints keep
      (Quorvec.replayHints R self env w).1 := by
  have hread : readAllHints R.crc32 (w self).hintLog = .ok hints :=
    hlog.readAll
  rcases hhints : hints with _ | ⟨first, rest⟩
  · rw [hhints] at hread hlog
    refine ⟨regs, [], ?_⟩
    simp only [Quorvec.replayHints, hread]
    exact ⟨h, .refl, hlog, fun _ _ => rfl, fun _ => rfl, List.Subset.refl _,
      by simp, by simp⟩
  · rw [← hhints]
    obtain ⟨regs', hpass⟩ := h.pushHints env hfits
    rcases hout : Quorvec.pushHints R (w self).metadata env hints w with
      ⟨w', keep, replayed⟩
    rw [hout] at hpass
    have hresult : (Quorvec.replayHints R self env w).1 = Function.update w'
        self { w' self with hintLog := rewriteHints R.crc32 keep } := by
      rw [hhints] at hread hout
      simp only [Quorvec.replayHints, hread, hout]
    rw [hresult]
    refine ⟨regs', keep, serves_update_hintLog hpass.serves _, hpass.absorbs,
      ?_, fun node hne => ?_, fun node => ?_, hpass.keep, hpass.pushed,
      hpass.answered⟩
    · rw [Function.update_self]
      exact holds_rewriteHints fun x hx => hlog.2 x (hpass.keep hx)
    · rw [Function.update_of_ne hne, hpass.keeps.hintLog_eq]
    · rw [← hpass.keeps.metadata_eq]
      by_cases hnode : node = self
      · rw [hnode, Function.update_self]
      · rw [Function.update_of_ne hnode]

/-! ## Over a run -/

namespace Handoff

variable {R : Runtime} {xxh64 : Bytes → UInt64} {f : FixedShard}
variable {self : NodeId} {s : Handoff} {regs : NodeId → Registers}
variable {hints : List Hint}

/-- Each replica has taken each write or is the target of a hint for it. -/
def Covered (f : FixedShard) (regs : NodeId → Registers) (hints : List Hint)
    (req : ReplicaWriteRequest) : Prop :=
  ∀ node ∈ f.nodes, Taken regs req node ∨ req.hintFor node ∈ hints

theorem Covered.mono {req : ReplicaWriteRequest}
    (h : Covered f regs hints req) {regs' : NodeId → Registers}
    {hints' : List Hint} (hgrows : Grows regs regs')
    (hhints : ∀ x ∈ hints, x ∈ hints' ∨ f.Pushed regs' x)
    (hkey : req.key = f.key) : Covered f regs' hints' req := by
  intro node hnode
  rcases h node hnode with htaken | hhint
  · exact .inl (hgrows _ _ _ htaken)
  · exact (hhints _ hhint).symm.imp_left fun hpushed =>
      hpushed.taken hkey

structure Sound (R : Runtime) (xxh64 : Bytes → UInt64) (f : FixedShard)
    (node : NodeId) (regs : NodeId → Registers) (hints : List Hint)
    (s : Handoff) : Prop where
  serves : s.world.Serves R xxh64 f regs
  log : HintLog.Holds R.crc32 (s.world node).hintLog hints
  fits : ∀ h ∈ hints, h.request.key = f.key → f.Fits h.request
  targets : ∀ h ∈ hints, h.request.key = f.key → h.targetNode ∈ f.nodes
  keys : ∀ req ∈ s.written, req.key = f.key
  covered : ∀ req ∈ s.written, Covered f regs hints req

theorem Sound.write (h : Sound R xxh64 f self regs hints s) {env : Env}
    {req : ReplicaWriteRequest} {schema : CollectionSchema}
    (consistency : Consistency)
    (hschema : (s.world self).metadata.collections[req.collection]? =
      some schema) (henv : env.Harmless s.world)
    (hframes : ∀ target, (req.hintFor target).FitsFrame)
    (hfits : req.key = f.key → f.Fits req) :
    ∃ regs' hints', Sound R xxh64 f self regs' hints'
      { world := (replicateWrite R env self xxh64 s.world
          (s.world self).metadata schema req consistency).world
        written := if req.key = f.key then req :: s.written
          else s.written } := by
  obtain ⟨regs', hints', hdone⟩ := h.serves.replicateWrite h.log consistency
    hschema henv hframes hfits
  have hold : ∀ x ∈ s.written, Covered f regs' hints' x := fun x hx =>
    (h.covered x hx).mono hdone.absorbs.grows
      (fun y hy => .inl (hdone.kept hy)) (h.keys x hx)
  refine ⟨regs', hints', hdone.serves, hdone.log, fun x hx hkey => ?_,
    fun x hx hkey => ?_, fun x hx => ?_, fun x hx => ?_⟩
  · rcases hdone.added x hx with hx | ⟨target, rfl, -⟩
    · exact h.fits x hx hkey
    · exact (hfits hkey).request target
  · rcases hdone.added x hx with hx | ⟨target, rfl, htarget⟩
    · exact h.targets x hx hkey
    · exact htarget hkey
  · dsimp only at hx
    split_ifs at hx with hkey
    · rcases List.mem_cons.mp hx with rfl | hx
      · exact hkey
      · exact h.keys x hx
    · exact h.keys x hx
  · dsimp only at hx
    split_ifs at hx with hkey
    · rcases List.mem_cons.mp hx with rfl | hx
      · exact hdone.covered hkey
      · exact hold x hx
    · exact hold x hx

/-- A pass leaves each hint among the hints, or its write at its target. -/
theorem Sound.replay (h : Sound R xxh64 f self regs hints s)
    (env : ℕ → PushEnv) :
    ∃ regs' hints', Sound R xxh64 f self regs' hints'
        { s with world := (replayHints R self env s.world).1 } ∧
      ((∀ i, (env i).fate = .answered) →
        (∀ x ∈ hints, x.request.key = f.key →
          x.Reachable f (s.world self).metadata s.world) →
        ∀ x ∈ hints', x.request.key ≠ f.key) := by
  obtain ⟨regs', keep, hdone⟩ := h.serves.replayHints h.log h.fits env
  exact ⟨regs', keep, ⟨hdone.serves, hdone.log,
    fun x hx => h.fits x (hdone.kept hx),
    fun x hx => h.targets x (hdone.kept hx), h.keys, fun req hreq =>
      (h.covered req hreq).mono hdone.absorbs.grows hdone.pushed
        (h.keys req hreq)⟩, hdone.answered⟩

theorem Run.sound (h : Run R xxh64 f self s) :
    ∃ regs hints, Sound R xxh64 f self regs hints s := by
  induction h with
  | init hserves hlog =>
      refine ⟨_, [], hserves, ?_, by simp, by simp, by simp, by simp⟩
      rw [hlog]
      exact HintLog.holds_none
  | write consistency _ hschema henv hframes hfits ih =>
      obtain ⟨regs, hints, hsound⟩ := ih
      exact hsound.write consistency hschema henv hframes hfits
  | replay env _ ih =>
      obtain ⟨regs, hints, hsound⟩ := ih
      obtain ⟨regs', hints', hnext, -⟩ := hsound.replay env
      exact ⟨regs', hints', hnext⟩
  | elsewhere _ hserves hserves' hgrows hlog ih =>
      obtain ⟨regs, hints, hsound⟩ := ih
      obtain rfl := hsound.serves.unique hserves
      refine ⟨_, hints, hserves', ?_, hsound.fits, hsound.targets, hsound.keys,
        fun req hreq => ?_⟩
      · rw [hlog]
        exact hsound.log
      · exact (hsound.covered req hreq).mono hgrows (fun x hx => .inl hx)
          (hsound.keys req hreq)

end Handoff

/-- Writes that were coordinated are at each replica or among the hints in
every run, and a replay pass that is answered brings them to all replicas. -/
theorem handsOff (R : Runtime) (xxh64 : Bytes → UInt64) (f : FixedShard)
    (self : NodeId) : HandsOff R xxh64 f self := by
  intro s hrun
  obtain ⟨regs, hints, hsound⟩ := hrun.sound
  refine ⟨regs, hints, hsound.serves, hsound.log.readAll, hsound.covered,
    fun env henv hknown => ?_⟩
  obtain ⟨regs', hints', hnext, hrest⟩ := hsound.replay env
  refine ⟨regs', hnext.serves, fun req hreq node hnode => ?_⟩
  have hreach : ∀ x ∈ hints, x.request.key = f.key →
      x.Reachable f (s.world self).metadata s.world := fun x hx hkey =>
    hsound.serves.reachable hknown (hsound.targets x hx hkey)
  rcases hnext.covered req hreq node hnode with htaken | hhint
  · exact htaken
  · exact absurd (hnext.keys req hreq) (hrest henv hreach _ hhint)

open OneReplica in
/-- A write that reaches no replica is pushed by the next replay pass. -/
theorem handsOff_replayed : ∃ s,
    Handoff.Run .constant (fun _ => 0) shard 2 s ∧ s.written = [req 0] ∧
      ∃ regs, (replayHints .constant 2
        (fun _ => { fate := .answered, reading := 5 }) s.world).1.Serves
          .constant (fun _ => 0) shard regs ∧ Taken regs (req 0) 1 := by
  let w : World := fun _ => fresh
  let env : Env := CallFate.unreachable.env 5
  let s : Handoff :=
    { world := (replicateWrite .constant env 2 (fun _ => 0) w metadata schema
        (req 0) .one).world
      written := [req 0] }
  have hserves : w.Serves .constant (fun _ => 0) shard fun _ _ => none :=
    fun _ => ⟨pinned, rfl, ShardSlot.durable_unused Nat.one_pos⟩
  have hfits : ∀ target, ((req 0).hintFor target).FitsFrame := fun target => by
    rw [Hint.FitsFrame, Hint.length_encodeHint]
    show 4 + (41 + (utf8 "c").length + 4 * ([0] : List F32).length +
      ([] : Bytes).length) < 2 ^ 32
    decide
  have hrun : Handoff.Run .constant (fun _ => 0) shard 2 s :=
    .write .one (.init hserves rfl) schema_eq
      ⟨fun _ => rfl, fun node shards hfate => by cases hfate⟩ hfits
      fun _ => fits_req 0
  have hknown : ∀ node,
      (s.world node).metadata.collections["c"]? = some schema := by
    intro node
    have hreplicas : replicasWithAddrs (fun _ => 0) metadata (req 0).collection
        (req 0).shardIdx = [(1, "a")] := replicas_eq
    simp only [s, replicateWrite, hreplicas]
    by_cases hnode : node = 2
    · rw [hnode]
      exact schema_eq
    · show ((Function.update w 2 _ : World) node).metadata.collections["c"]? =
        _
      rw [Function.update_of_ne hnode]
      exact schema_eq
  obtain ⟨regs, hints, -, -, -, hpass⟩ :=
    handsOff .constant (fun _ => 0) shard 2 s hrun
  obtain ⟨regs', hserves', htaken⟩ := hpass
    (fun _ => { fate := .answered, reading := 5 }) (fun _ => rfl) hknown
  exact ⟨s, hrun, rfl, regs', hserves', htaken _ List.mem_cons_self 1
    List.mem_cons_self⟩

end Quorvec
