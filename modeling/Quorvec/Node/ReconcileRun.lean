import Quorvec.Node.RebalanceRun

/-!
# A pass as steps of a run

What a pass does to a shard when nothing comes between is a sequence of steps
of the run: the runs leave out nothing that a pass can do.
-/

namespace Quorvec

open ByteCodec

namespace Rebalance

section Pass

variable (R : Runtime) (xxh64 : Bytes → UInt64) (collection : String)
variable (shardIdx : UInt32) (schema : CollectionSchema)

/-- A sequence of steps. -/
def Steps : Rebalance → Rebalance → Prop :=
  Relation.ReflTransGen fun s s' =>
    ∃ e, Step R xxh64 collection shardIdx schema s e s'

/-- The nodes are as in the pass, and the log has what the pass has added. -/
structure Mirrors (base : MetaState) (s : Rebalance) (p : Pass) : Prop where
  world_eq : s.world = p.world
  committed_eq : s.committed =
    p.committed.foldr (fun req m => (m.apply req).1) base

/-- The nodes that know the collection know its schema. -/
def KnowsSchema (w : World) : Prop :=
  ∀ node known, (w node).metadata.collections[collection]? = some known →
    known = schema

variable {R xxh64 collection shardIdx schema}
variable {s : Rebalance} {p : Pass} {me : NodeId} {base snapshot : MetaState}
variable {env : ReconcileEnv}

theorem Mirrors.setState (h : Mirrors base s p) (state : ShardState) :
    Mirrors base
      (s.setState xxh64 collection shardIdx me state
        (env.change { collection, shardIdx } state))
      (p.setState env me { collection, shardIdx } state).1 := by
  cases hfate : env.change { collection, shardIdx } state with
  | refused =>
      simp only [Pass.setState, Rebalance.setState, hfate]
      exact ⟨h.world_eq, h.committed_eq⟩
  | _ =>
      simp only [Pass.setState, Rebalance.setState, hfate]
      refine ⟨h.world_eq, ?_⟩
      rw [commit, h.committed_eq]
      rfl

variable (R xxh64 collection shardIdx schema) in
/-- Steps by which a node applies records, up to an error or to the records
that are left. -/
structure Pulls {α : Type} (me : NodeId) (s s' : Rebalance)
    (sources : List (NodeId × String)) (left : List Shard.ShardRecordRow)
    (w : World) (res : Except RouterError α) : Prop where
  steps : Steps R xxh64 collection shardIdx schema s s'
  world_eq : s'.world = w
  committed_eq : s'.committed = s.committed
  metadata_eq : ∀ node, (w node).metadata = (s.world node).metadata
  done : ∀ a, res = .ok a → s'.stage me = .pulling sources left
  failed : ∀ e, res = .error e → s'.stage me = .acquiring sources

theorem metadata_update {w : World} {state : NodeState}
    (h : state.metadata = (w me).metadata) (node : NodeId) :
    (Function.update w me state node).metadata = (w node).metadata := by
  by_cases hnode : node = me
  · rw [hnode, Function.update_self, h]
  · rw [Function.update_of_ne hnode]

/-- One record is applied. -/
theorem pulls_record (reading : ℕ) {sources : List (NodeId × String)}
    {row : Shard.ShardRecordRow} {rows : List Shard.ShardRecordRow}
    (hstage : s.stage me = .pulling sources (row :: rows)) {next : NodeState}
    {res : Except RouterError WriteOutcome}
    (hrow : (s.world me).pullRecord R reading collection shardIdx schema row =
      (next, res)) :
    ∃ s', Pulls R xxh64 collection shardIdx schema me s s' sources rows
      (Function.update s.world me next) res := by
  have hstep : Step R xxh64 collection shardIdx schema s (.record me reading)
      _ := .record hstage
  rw [hrow] at hstep
  have hmeta := @NodeState.metadata_pullRecord R (s.world me) collection
    shardIdx schema reading row
  rw [hrow] at hmeta
  refine ⟨_, .single ⟨_, hstep⟩, rfl, rfl, metadata_update hmeta, ?_, ?_⟩
  · rintro out rfl
    exact stage_setStage_self _
  · rintro e rfl
    exact stage_setStage_self _

/-- The records of a source are applied one after another. -/
theorem pulls_records (reading : Shard.ShardRecordRow → ℕ)
    {sources : List (NodeId × String)} {rows : List Shard.ShardRecordRow}
    (hstage : s.stage me = .pulling sources rows) {next : NodeState}
    {res : Except RouterError ℕ}
    (hpull : (s.world me).pullRecords R reading collection shardIdx schema
      rows = (next, res)) :
    ∃ s', Pulls R xxh64 collection shardIdx schema me s s' sources []
      (Function.update s.world me next) res := by
  induction rows generalizing s next res with
  | nil =>
      obtain ⟨rfl, rfl⟩ := Prod.mk.inj hpull
      rw [Function.update_eq_self]
      exact ⟨s, .refl, rfl, rfl, fun _ => rfl, fun _ _ => hstage, by simp⟩
  | cons row rows ih =>
      rcases hrow : (s.world me).pullRecord R (reading row) collection
        shardIdx schema row with ⟨mid, e | out⟩
      · obtain ⟨s', h⟩ := pulls_record (reading row) hstage hrow
        simp only [NodeState.pullRecords, hrow, Prod.mk.injEq] at hpull
        obtain ⟨rfl, rfl⟩ := hpull
        exact ⟨s', h.steps, h.world_eq, h.committed_eq, h.metadata_eq, by simp,
          fun _ _ => h.failed e rfl⟩
      · obtain ⟨s₁, h⟩ := @pulls_record R xxh64 collection shardIdx schema s me
          (reading row) sources row rows hstage mid _ hrow
        have hmid : s₁.world me = mid := by
          rw [h.world_eq, Function.update_self]
        rcases hrest : mid.pullRecords R reading collection shardIdx schema
          rows with ⟨last, res'⟩
        obtain ⟨s', h'⟩ := ih (h.done out rfl) (hmid ▸ hrest)
        simp only [NodeState.pullRecords, hrow, hrest] at hpull
        have hnext : next = last := by
          cases res' <;> rw [← (Prod.mk.inj hpull).1]
        have hworld : Function.update s₁.world me last =
            Function.update s.world me next := by
          rw [h.world_eq, Function.update_idem, hnext]
        rw [hworld] at h'
        refine ⟨s', h.steps.trans h'.steps, h'.world_eq,
          h'.committed_eq.trans h.committed_eq, fun node => ?_, ?_, ?_⟩
        · rw [h'.metadata_eq, h.world_eq, h.metadata_eq]
        · rintro n rfl
          cases res' with
          | ok n' => exact h'.done n' rfl
          | error e => simp at hpull
        · rintro e rfl
          cases res' with
          | ok n' => simp at hpull
          | error e' => exact h'.failed e' rfl

/-- One source is tried, whose answer is as the pass gets it. -/
theorem pulls_shard {source : NodeId × String}
    {sources : List (NodeId × String)}
    (hstage : s.stage me = .acquiring (source :: sources))
    (hknows : KnowsSchema collection schema s.world) {w : World}
    {res : Except RouterError ℕ}
    (hpull : pullShard R env me collection shardIdx schema source.1 s.world =
      (w, res)) :
    ∃ s', Pulls R xxh64 collection shardIdx schema me s s' sources [] w
      res := by
  -- the call fails
  have hfails : ∀ e, (w, res) = (s.world, .error e) →
      ∃ s', Pulls R xxh64 collection shardIdx schema me s s' sources [] w
        res := by
    intro e heq
    obtain ⟨rfl, rfl⟩ := Prod.mk.inj heq
    exact ⟨_, .single ⟨_, .unreachable hstage⟩, rfl, rfl, fun _ => rfl,
      by simp, fun _ _ => stage_setStage_self _⟩
  rw [pullShard] at hpull
  split_ifs at hpull with hreach
  · split at hpull
    · exact hfails _ hpull.symm
    · next known hknown =>
        obtain rfl := hknows source.1 known hknown
        have hsource := @NodeState.streamShard_fst R (s.world source.1)
          collection shardIdx known
        split at hpull
        · next state e hstream =>
            have hstate : state = s.world source.1 := by
              rw [← hsource, hstream]
            rw [hstate, Function.update_eq_self] at hpull
            exact hfails _ hpull.symm
        · next state rows hstream =>
            have hstate : state = s.world source.1 := by
              rw [← hsource, hstream]
            have hstep : Step R xxh64 collection shardIdx known s (.stream me)
                _ := .stream hstage hstream
            rw [hstate, setNode, Function.update_eq_self] at hstep
            rw [hstate, Function.update_eq_self] at hpull
            rcases hrows : (s.world me).pullRecords R env.reading collection
              shardIdx known rows with ⟨next, res'⟩
            simp only [hrows, Prod.mk.injEq] at hpull
            obtain ⟨rfl, rfl⟩ := hpull
            obtain ⟨s', h⟩ := @pulls_records R xxh64 collection shardIdx known
              (s.setStage me (.pulling sources rows)) me env.reading sources
              rows (stage_setStage_self _) next _ hrows
            exact ⟨s', .head ⟨_, hstep⟩ h.steps, h.world_eq, h.committed_eq,
              h.metadata_eq, h.done, h.failed⟩
  · exact hfails _ hpull.symm

/-- The sources are tried in turn. -/
theorem steps_pullFirst {sources : List (NodeId × String)}
    (hstage : s.stage me = .acquiring sources)
    (hknows : KnowsSchema collection schema s.world) {w : World}
    {pulled : Bool}
    (hpull : pullFirst R env me collection shardIdx schema sources s.world =
      (w, pulled)) :
    ∃ s', Steps R xxh64 collection shardIdx schema s s' ∧ s'.world = w ∧
      s'.committed = s.committed ∧
      if pulled then ∃ left, s'.stage me = .pulling left []
      else s'.stage me = .acquiring [] := by
  induction sources generalizing s with
  | nil =>
      obtain ⟨rfl, rfl⟩ := Prod.mk.inj hpull
      exact ⟨s, .refl, rfl, rfl, hstage⟩
  | cons source sources ih =>
      rcases hshard : pullShard R env me collection shardIdx schema source.1
        s.world with ⟨w', e | n⟩
      · obtain ⟨s₁, h⟩ := @pulls_shard R xxh64 collection shardIdx schema s me
          env source sources hstage hknows w' _ hshard
        simp only [pullFirst, hshard] at hpull
        have hknows₁ : KnowsSchema collection schema s₁.world := by
          intro node known hknown
          rw [h.world_eq, h.metadata_eq] at hknown
          exact hknows node known hknown
        obtain ⟨s', hsteps, hworld, hcommitted, hdone⟩ :=
          ih (h.failed e rfl) hknows₁ (h.world_eq ▸ hpull)
        exact ⟨s', h.steps.trans hsteps, hworld,
          hcommitted.trans h.committed_eq, hdone⟩
      · obtain ⟨s₁, h⟩ := @pulls_shard R xxh64 collection shardIdx schema s me
          env source sources hstage hknows w' _ hshard
        simp only [pullFirst, hshard, Prod.mk.injEq] at hpull
        obtain ⟨rfl, rfl⟩ := hpull
        exact ⟨s₁, h.steps, h.world_eq, h.committed_eq,
          ⟨sources, h.done n rfl⟩⟩

theorem Mirrors.setStage (h : Mirrors base s p) (stage : Stage) :
    Mirrors base (s.setStage me stage) p := ⟨h.world_eq, h.committed_eq⟩

/-- The shard is opened to be counted. -/
theorem Mirrors.shardLen (h : Mirrors base s p) :
    Mirrors base
      (s.setNode me { s.world me with
        shards := ((s.world me).shards.shardLen R
          (shardRef collection shardIdx schema)).1 })
      (p.shardLen R me collection schema shardIdx).1 := by
  have hset : (p.shardLen R me collection schema shardIdx).1 =
      p.setShards me ((p.world me).shards.shardLen R
        (shardRef collection shardIdx schema)).1 := by
    unfold Pass.shardLen
    split
    · next hlen => rw [hlen]
    · next hlen => rw [hlen]
  rw [hset]
  refine ⟨?_, h.committed_eq⟩
  rw [setNode, h.world_eq]
  rfl

/-- A node acquires its shard. -/
theorem steps_acquireShard (hbegun : s.stage me = .begun snapshot)
    (hme : me ∈ snapshot.replicasForShard xxh64 collection shardIdx)
    (hsettled : ¬ s.Settled collection shardIdx snapshot me)
    (hknows : KnowsSchema collection schema s.world)
    (hmirrors : Mirrors base s p) :
    ∃ s', Steps R xxh64 collection shardIdx schema s s' ∧
      s'.stage me = .idle ∧
      Mirrors base s' (p.acquireShard R xxh64 env me snapshot collection schema
        shardIdx).1 := by
  rcases hsources : transferSources xxh64 snapshot me collection shardIdx with
    _ | ⟨source, sources⟩
  · have hfound : Step R xxh64 collection shardIdx schema s
        (.found me (env.change { collection, shardIdx } .active)) _ :=
      .found hbegun hme hsettled hsources
    refine ⟨_, .single ⟨_, hfound⟩, stage_setStage_self _, ?_⟩
    simp only [Pass.acquireShard, hsources]
    exact (hmirrors.shardLen.setState .active).setStage .idle
  · have hsyncing : Step R xxh64 collection shardIdx schema s
        (.syncing me (env.change { collection, shardIdx } .syncing)) _ :=
      .syncing hbegun hme hsettled (by simp [hsources])
    have hset := @Mirrors.setState xxh64 collection shardIdx s p me base env
      hmirrors .syncing
    have hack := @Pass.setState_snd env me p { collection, shardIdx } .syncing
    rcases hrequest : p.setState env me { collection, shardIdx } .syncing with
      ⟨p₁, ack⟩
    rw [hrequest] at hset hack
    cases hfate : env.change { collection, shardIdx } .syncing with
    | committed =>
        rw [hfate] at hsyncing hset
        obtain rfl : ack = true := hack.mpr hfate
        let s₁ := (s.setState xxh64 collection shardIdx me .syncing
          .committed).setStage me (.acquiring (source :: sources))
        rw [hsources] at hsyncing
        rcases hpull : pullFirst R env me collection shardIdx schema
          (source :: sources) p₁.world with ⟨w, pulled⟩
        have hworld : s₁.world = p₁.world := hset.world_eq
        obtain ⟨s₂, hsteps, hworld₂, hcommitted, hstage⟩ :=
          steps_pullFirst (R := R) (s := s₁) (stage_setStage_self _) hknows
            (w := w) (hworld ▸ hpull)
        have hmirrors₂ : Mirrors base s₂ { p₁ with world := w } :=
          ⟨hworld₂, hcommitted.trans hset.committed_eq⟩
        simp only [Pass.acquireShard, hsources, hrequest, hpull]
        cases pulled with
        | true =>
            obtain ⟨left, hleft⟩ := hstage
            have hcut : Step R xxh64 collection shardIdx schema s₂
                (.cutOver me (env.change { collection, shardIdx } .active)) _ :=
              .cutOver hleft
            have hactive : Mirrors base { s₂ with
                tenure := Function.update s₂.tenure me .pulled }
                { p₁ with world := w } :=
              ⟨hmirrors₂.world_eq, hmirrors₂.committed_eq⟩
            exact ⟨_, .head ⟨_, hsyncing⟩ (hsteps.tail ⟨_, hcut⟩),
              stage_setStage_self _, (hactive.setState .active).setStage _⟩
        | false =>
            exact ⟨_, .head ⟨_, hsyncing⟩ (hsteps.tail ⟨_, .giveUp hstage⟩),
              stage_setStage_self _, hmirrors₂.setStage _⟩
    | _ =>
        rw [hfate] at hsyncing hset
        obtain rfl : ack = false := by
          rw [← Bool.not_eq_true, hack, hfate]
          simp
        simp only [Pass.acquireShard, hsources, hrequest]
        exact ⟨_, .single ⟨_, hsyncing⟩, stage_setStage_self _,
          hset.setStage _⟩

/-- A pass over the shard that nothing interrupts is a sequence of steps. -/
theorem steps_reconcileShard (hbegun : s.stage me = .begun snapshot)
    (hknows : KnowsSchema collection schema s.world)
    (hmirrors : Mirrors base s p) :
    ∃ s', Steps R xxh64 collection shardIdx schema s s' ∧
      s'.stage me = .idle ∧
      Mirrors base s' (p.reconcileShard R xxh64 env me snapshot collection
        schema shardIdx).1 := by
  by_cases hme : me ∈ snapshot.replicasForShard xxh64 collection shardIdx
  · rw [Pass.reconcileShard_of_mem hme, ← hmirrors.world_eq]
    split
    · next hsettled =>
        exact ⟨_, .single ⟨_, .settled hbegun hme hsettled⟩,
          stage_setStage_self _, hmirrors.setStage _⟩
    · next hsettled =>
        exact steps_acquireShard hbegun hme hsettled hknows hmirrors
  · simp only [Pass.reconcileShard, if_neg hme, ← hmirrors.world_eq]
    split_ifs with hdrop
    · have hdropped : Step R xxh64 collection shardIdx schema s
          (.dropShard me) _ := .dropShard hbegun hme hdrop.1 hdrop.2
      refine ⟨_, .single ⟨_, hdropped⟩, stage_setStage_self _, ?_,
        hmirrors.committed_eq⟩
      rw [Pass.setShards, ← hmirrors.world_eq]
      rfl
    · exact ⟨_, .single ⟨_, .leave hbegun hme hdrop⟩, stage_setStage_self _,
        hmirrors.setStage _⟩

/-- From any state of a run, a whole pass of an idle node leads to a state of
the run. -/
theorem Run.exists_pass
    (hrun : Run R xxh64 collection shardIdx schema (fun _ _ => True) s)
    (hidle : s.stage me = .idle)
    (hknows : KnowsSchema collection schema s.world) (env : ReconcileEnv) :
    ∃ s', Run R xxh64 collection shardIdx schema (fun _ _ => True) s' ∧
      s'.stage me = .idle ∧
      Mirrors s.committed s' (Pass.reconcileShard R xxh64 env me
        (s.world me).metadata collection schema shardIdx
        { world := s.world, requested := [], committed := [] }).1 := by
  obtain ⟨s', hsteps, hstage, hmirrors⟩ := @steps_reconcileShard R xxh64
    collection shardIdx schema (s.setStage me (.begun (s.world me).metadata))
    { world := s.world, requested := [], committed := [] } me s.committed _
    env (stage_setStage_self _) hknows ⟨rfl, rfl⟩
  refine ⟨s', ?_, hstage, hmirrors⟩
  have hbegun := Run.step (.beginPass me) hrun trivial (.beginPass hidle)
  clear hmirrors hstage
  induction hsteps with
  | refl => exact hbegun
  | tail _ hstep ih =>
      obtain ⟨e, hstep⟩ := hstep
      exact .step e ih trivial hstep

end Pass

end Rebalance

end Quorvec
