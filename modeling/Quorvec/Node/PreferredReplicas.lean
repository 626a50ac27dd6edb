import Quorvec.Node.AckedRecords

/-!
# The replicas that a search prefers

A search asks the replicas first that its coordinator takes for active.  A
replica that joins without a recorded state is active by default, so every node
that applies the entry prefers it before it has pulled anything.  What a
coordinator takes for active is whole as long as a node only becomes a replica
with `Syncing` recorded for it.
-/

namespace Quorvec

open LastWriterWins ByteCodec

namespace Rebalance

section Claim

variable (R : Runtime) (xxh64 : Bytes → UInt64) (collection : String)
variable (shardIdx : UInt32) (schema : CollectionSchema)

/-- The metadata that a node has, or comes to by entries that it has not
applied yet. -/
def Views (s : Rebalance) (view : MetaState) : Prop :=
  ∃ node read rest, s.inbox node = read ++ rest ∧
    view = read.foldl (fun m req => (m.apply req).1) (s.world node).metadata

/-- Some node lists the node as a replica, or comes to do so. -/
def Listed (s : Rebalance) (node : NodeId) : Prop :=
  ∃ view, s.Views view ∧ node ∈ view.replicasForShard xxh64 collection shardIdx

/-- Some node takes the node for an active replica, or comes to do so. -/
def ShownActive (s : Rebalance) (node : NodeId) : Prop :=
  ∃ view, s.Views view ∧
    node ∈ view.replicasForShard xxh64 collection shardIdx ∧
      view.shardState collection shardIdx node = .active

/-- A search at the coordinator asks the node before those that are not
active. -/
def Preferred (s : Rebalance) (coordinator node : NodeId) : Prop :=
  ∃ addr, (node, addr) ∈ activeReplicasWithAddrs xxh64
    (s.world coordinator).metadata collection shardIdx

/-- A node becomes a replica with `Syncing` recorded for it, when no node lists
it from before and it is not pulling; a node drops a shard for which no node
lists it; a node that takes the shard for a new one is whole; and a node pulls
from a whole replica. -/
def ShowsWhole (s : Rebalance) : RebalanceStep → Prop
  | .member req => ∀ node, s.Enters xxh64 collection shardIdx req node →
      s.committed.shardState collection shardIdx node = .syncing ∧
        ¬ s.Listed xxh64 collection shardIdx node ∧ ¬ s.Pulling node
  | .write _ _ req => req.FitsFrame
  | .writeLocal _ req => req.FitsFrame
  | .found node _ => s.Whole node
  | .stream node => ∀ source sources,
      s.stage node = .acquiring (source :: sources) →
        source.1 ∈ s.replicas xxh64 collection shardIdx ∧ s.Whole source.1
  | .dropShard node => ¬ s.Listed xxh64 collection shardIdx node
  | _ => True

/-- In every admitted run, a node that some coordinator prefers has been a
replica from the beginning or has completed a pull since it became one; and
when it has become one since some state, it holds what all replicas held
then. -/
def PreferredComplete (Admits : Rebalance → RebalanceStep → Prop) : Prop :=
  ∀ s₀, Run R xxh64 collection shardIdx schema Admits s₀ →
    ∀ h s, Since R xxh64 collection shardIdx schema Admits s₀ h s →
      ∀ coordinator node, s.Preferred xxh64 collection shardIdx coordinator
        node → s.tenure node ≠ .joined ∧
          (node ∈ h.joined → ∀ id t,
            s₀.HeldByAll xxh64 collection shardIdx id t →
              s.Holds collection shardIdx node id t)

/-- Whenever a node becomes a replica without `Syncing` recorded for it, every
coordinator can come to prefer it before it has pulled anything. -/
def JoinsPreferred : Prop :=
  ∀ s, Run R xxh64 collection shardIdx schema (fun _ _ => True) s →
    ∀ req node, req.Membership → s.Enters xxh64 collection shardIdx req node →
      s.committed.shardState collection shardIdx node = .active →
      ∀ coordinator, ∃ s',
        Run R xxh64 collection shardIdx schema (fun _ _ => True) s' ∧
          s'.Preferred xxh64 collection shardIdx coordinator node ∧
          s'.tenure node = .joined

end Claim

section Invariant

variable {R : Runtime} {xxh64 : Bytes → UInt64} {collection : String}
variable {shardIdx : UInt32} {schema : CollectionSchema}
variable {s s' : Rebalance} {node : NodeId} {e : RebalanceStep}

theorem shownActive_of_preferred {coordinator : NodeId}
    (h : s.Preferred xxh64 collection shardIdx coordinator node) :
    s.ShownActive xxh64 collection shardIdx node := by
  obtain ⟨addr, haddr⟩ := h
  rw [activeReplicasWithAddrs, List.mem_filterMap] at haddr
  obtain ⟨replica, hreplica, hsome⟩ := haddr
  rw [List.mem_filter, decide_eq_true_eq] at hreplica
  rw [Option.map_eq_some_iff] at hsome
  obtain ⟨found, -, heq⟩ := hsome
  obtain ⟨rfl, -⟩ := Prod.mk.inj heq
  exact ⟨_, ⟨coordinator, [], _, rfl, rfl⟩, hreplica⟩

/-- Every node comes to the metadata of the log. -/
def Synced (s : Rebalance) : Prop :=
  ∀ node, (s.inbox node).foldl (fun m req => (m.apply req).1)
    (s.world node).metadata = s.committed

/-- A step that applies or commits nothing. -/
structure SameLog (s s' : Rebalance) : Prop where
  committed : s'.committed = s.committed
  inbox : s'.inbox = s.inbox
  metadata : ∀ node, (s'.world node).metadata = (s.world node).metadata

variable (xxh64 collection shardIdx) in
/-- What a step does to the log. -/
inductive LogStep (s s' : Rebalance) (e : RebalanceStep) : Prop
  | same : SameLog s s' → LogStep s s' e
  | learned {node : NodeId} {req : MetaRequest} {rest : List MetaRequest} :
      s.inbox node = req :: rest →
      s' = { s.setNode node { s.world node with
          metadata := ((s.world node).metadata.apply req).1 } with
        inbox := Function.update s.inbox node rest } → LogStep s s' e
  | member {req : MetaRequest} : e = .member req → req.Membership →
      SameLog (s.commit xxh64 collection shardIdx req) s' → LogStep s s' e
  | entry {req : MetaRequest} : req.Elsewhere collection shardIdx →
      SameLog (s.commit xxh64 collection shardIdx req) s' → LogStep s s' e
  | syncing {node : NodeId} :
      SameLog (s.commit xxh64 collection shardIdx
        (.setShardState collection shardIdx node .syncing)) s' →
      LogStep s s' e
  | active {node : NodeId} {fate : ChangeFate} :
      SameLog (s.commit xxh64 collection shardIdx
        (.setShardState collection shardIdx node .active)) s' →
      e = .found node fate ∨ e = .cutOver node fate → LogStep s s' e

theorem SameLog.refl (s : Rebalance) : SameLog s s :=
  ⟨rfl, rfl, fun _ => rfl⟩

theorem SameLog.setNode {state : NodeState}
    (h : state.metadata = (s.world node).metadata) :
    SameLog s (s.setNode node state) := by
  refine ⟨rfl, rfl, fun other => ?_⟩
  by_cases hother : other = node
  · rw [hother, world_setNode_self, h]
  · rw [world_setNode_of_ne s hother]

theorem SameLog.trans {t : Rebalance} (h : SameLog s s') (h' : SameLog s' t) :
    SameLog s t :=
  ⟨h'.committed.trans h.committed, h'.inbox.trans h.inbox,
    fun node => (h'.metadata node).trans (h.metadata node)⟩

theorem SameLog.setStage (s : Rebalance) (node : NodeId) (stage : Stage) :
    SameLog s (s.setStage node stage) :=
  ⟨rfl, rfl, fun _ => rfl⟩

theorem SameLog.commit (h : SameLog s s') (req : MetaRequest) :
    SameLog (s.commit xxh64 collection shardIdx req)
      (s'.commit xxh64 collection shardIdx req) := by
  refine ⟨?_, ?_, h.metadata⟩
  · simp only [Rebalance.commit, h.committed]
  · simp only [Rebalance.commit, h.inbox]

/-- A state that is requested is committed or not. -/
theorem SameLog.setState (h : SameLog s s') (node : NodeId)
    (state : ShardState) (fate : ChangeFate) :
    SameLog s (s'.setState xxh64 collection shardIdx node state fate) ∨
      SameLog (s.commit xxh64 collection shardIdx
          (.setShardState collection shardIdx node state))
        (s'.setState xxh64 collection shardIdx node state fate) := by
  cases fate with
  | refused => exact .inl h
  | committed => exact .inr (h.commit _)
  | answerLost => exact .inr (h.commit _)

theorem log_step (hstep : Step R xxh64 collection shardIdx schema s e s') :
    LogStep xxh64 collection shardIdx s s' e := by
  cases hstep with
  | member hreq => exact .member rfl hreq (.refl _)
  | entry hreq => exact .entry hreq (.refl _)
  | learn hinbox => exact .learned hinbox rfl
  | write =>
      exact .same (.setNode (NodeState.metadata_applyReplicaWrite _ _ _ _ _))
  | writeLocal => exact .same (.setNode rfl)
  | read => exact .same (.setNode rfl)
  | @found node snapshot fate =>
      have hnode : SameLog s (s.setNode node { s.world node with
          shards := ((s.world node).shards.shardLen R
            (shardRef collection shardIdx schema)).1 }) := .setNode rfl
      rcases SameLog.setState hnode node .active fate with hsame | hset
      · exact .same (hsame.trans (.setStage _ _ _))
      · exact .active (hset.trans (.setStage _ _ _)) (.inl rfl)
  | @syncing node snapshot fate =>
      rcases SameLog.setState (.refl s) node .syncing fate with hsame | hset
      · exact .same (hsame.trans (.setStage _ _ _))
      · exact .syncing (hset.trans (.setStage _ _ _))
  | @stream node source sources state rows hstage hstream =>
      have hstate : state = s.world source.1 := by
        rw [← @NodeState.streamShard_fst R (s.world source.1) collection
          shardIdx schema, hstream]
      have hnode : SameLog s (s.setNode source.1 state) :=
        .setNode (by rw [hstate])
      exact .same (hnode.trans (.setStage _ _ _))
  | @record node reading sources row rows hstage =>
      have hnode : SameLog s (s.setNode node ((s.world node).pullRecord R
          reading collection shardIdx schema row).1) :=
        .setNode (NodeState.metadata_pullRecord _ _)
      exact .same (hnode.trans (.setStage _ _ _))
  | @cutOver node fate sources hstage =>
      have hpulled : SameLog s { s with
          tenure := Function.update s.tenure node .pulled } :=
        ⟨rfl, rfl, fun _ => rfl⟩
      rcases hpulled.setState node .active fate with hsame | hset
      · exact .same (hsame.trans (.setStage _ _ _))
      · exact .active (hset.trans (.setStage _ _ _)) (.inr rfl)
  | @dropShard node =>
      have hnode : SameLog s (s.setNode node { s.world node with
          shards := (s.world node).shards.dropShard collection shardIdx }) :=
        .setNode rfl
      exact .same ⟨hnode.committed, hnode.inbox, hnode.metadata⟩
  | elsewhere hmeta => exact .same (.setNode hmeta)
  | _ => exact .same (.setStage _ _ _)

theorem SameLog.views (h : SameLog s s') {view : MetaState}
    (hview : s'.Views view) : s.Views view := by
  obtain ⟨node, read, rest, hinbox, hread⟩ := hview
  refine ⟨node, read, rest, ?_, ?_⟩
  · rw [← h.inbox, hinbox]
  · rw [← h.metadata, hread]

theorem SameLog.synced (h : SameLog s s') (hs : s.Synced) : s'.Synced := by
  intro node
  rw [h.inbox, h.metadata, h.committed]
  exact hs node

theorem Synced.commit (h : s.Synced) (req : MetaRequest) :
    (s.commit xxh64 collection shardIdx req).Synced := by
  intro node
  simp only [Rebalance.commit, List.foldl_append, List.foldl_cons,
    List.foldl_nil]
  rw [h node]

/-- An entry that is committed is what every node comes to last. -/
theorem Synced.views_commit (h : s.Synced) {req : MetaRequest}
    {view : MetaState}
    (hview : (s.commit xxh64 collection shardIdx req).Views view) :
    s.Views view ∨ view = (s.committed.apply req).1 := by
  obtain ⟨node, read, rest, hinbox, rfl⟩ := hview
  simp only [Rebalance.commit] at hinbox ⊢
  rcases List.append_eq_append_iff.mp hinbox with
    ⟨added, rfl, hadded⟩ | ⟨left, hleft, rfl⟩
  · rcases added with _ | ⟨last, added⟩
    · left
      exact ⟨node, s.inbox node, [], by simp, by simp⟩
    · right
      obtain ⟨rfl, hnil⟩ := List.cons.inj hadded
      obtain ⟨rfl, -⟩ := List.append_eq_nil_iff.mp hnil.symm
      rw [List.foldl_append, h node]
      rfl
  · exact .inl ⟨node, read, left, hleft, rfl⟩

theorem Synced.views_committed (h : s.Synced) : s.Views s.committed :=
  ⟨0, s.inbox 0, [], by simp, (h 0).symm⟩

theorem shardState_membership {m : MetaState} {req : MetaRequest}
    (hreq : req.Membership)
    (hnode : node ∈ (m.apply req).1.replicasForShard xxh64 collection
      shardIdx) :
    (m.apply req).1.shardState collection shardIdx node =
      m.shardState collection shardIdx node := by
  cases hreq with
  | registerNode => rfl
  | deregisterNode gone =>
      have hmember := MetaState.mem_nodes_of_mem_replicas hnode
      have hne : gone ≠ node := by
        rintro rfl
        simp [MetaState.apply] at hmember
      exact MetaState.shardState_filter fun _ => by simp [Ne.symm hne]

/-- A node that is shown as an active replica was so before, unless it joins or
its own pass makes it active. -/
theorem LogStep.shownActive
    (h : LogStep xxh64 collection shardIdx s s' e) (hsynced : s.Synced)
    (hshown : s'.ShownActive xxh64 collection shardIdx node) :
    s.ShownActive xxh64 collection shardIdx node ∨
      s.Joins xxh64 collection shardIdx node e ∨
      ∃ fate, e = .found node fate ∨ e = .cutOver node fate := by
  obtain ⟨view, hview, hreplica, hactive⟩ := hshown
  cases h with
  | same hsame => exact .inl ⟨view, hsame.views hview, hreplica, hactive⟩
  | @learned learner req rest hinbox hs' =>
      left
      refine ⟨view, ?_, hreplica, hactive⟩
      rw [hs'] at hview
      obtain ⟨other, read, rest', hread, rfl⟩ := hview
      by_cases hother : other = learner
      · subst hother
        simp only [Function.update_self] at hread
        refine ⟨other, req :: read, rest', ?_, ?_⟩
        · rw [hinbox, hread]
          rfl
        · dsimp only
          rw [world_setNode_self, List.foldl_cons]
      · simp only [Function.update_of_ne hother] at hread
        refine ⟨other, read, rest', hread, ?_⟩
        dsimp only
        rw [world_setNode_of_ne s hother]
  | @member req he hreq hsame =>
      rcases hsynced.views_commit (hsame.views hview) with hold | rfl
      · exact .inl ⟨view, hold, hreplica, hactive⟩
      · by_cases hjoins : node ∈ s.replicas xxh64 collection shardIdx
        · left
          refine ⟨_, hsynced.views_committed, hjoins, ?_⟩
          rwa [shardState_membership hreq hreplica] at hactive
        · right
          left
          rw [he]
          exact ⟨hjoins, hreplica⟩
  | entry hreq hsame =>
      left
      rcases hsynced.views_commit (hsame.views hview) with hold | rfl
      · exact ⟨view, hold, hreplica, hactive⟩
      · rw [shardState_elsewhere hreq] at hactive
        rw [replicas_elsewhere hreq] at hreplica
        exact ⟨_, hsynced.views_committed, hreplica, hactive⟩
  | @syncing set hsame =>
      left
      rcases hsynced.views_commit (hsame.views hview) with hold | rfl
      · exact ⟨view, hold, hreplica, hactive⟩
      · rw [MetaState.shardState_setShardState] at hactive
        split_ifs at hactive
        rw [replicas_setShardState] at hreplica
        exact ⟨_, hsynced.views_committed, hreplica, hactive⟩
  | @active set fate hsame he =>
      rcases hsynced.views_commit (hsame.views hview) with hold | rfl
      · exact .inl ⟨view, hold, hreplica, hactive⟩
      · by_cases hset : set = node
        · rw [hset] at he
          exact .inr (.inr ⟨fate, he⟩)
        · left
          rw [MetaState.shardState_setShardState,
            if_neg (fun hsame => hset hsame.2.2)] at hactive
          rw [replicas_setShardState] at hreplica
          exact ⟨_, hsynced.views_committed, hreplica, hactive⟩

theorem LogStep.synced (h : LogStep xxh64 collection shardIdx s s' e)
    (hsynced : s.Synced) : s'.Synced := by
  cases h with
  | same hsame => exact hsame.synced hsynced
  | @learned learner req rest hinbox hs' =>
      rw [hs']
      intro other
      by_cases hother : other = learner
      · subst hother
        have hcommitted := hsynced other
        rw [hinbox] at hcommitted
        simp only [Function.update_self]
        rw [world_setNode_self]
        exact hcommitted
      · simp only [Function.update_of_ne hother]
        rw [world_setNode_of_ne s hother]
        exact hsynced other
  | member _ _ hsame => exact hsame.synced (hsynced.commit _)
  | entry _ hsame => exact hsame.synced (hsynced.commit _)
  | syncing hsame => exact hsame.synced (hsynced.commit _)
  | active hsame => exact hsame.synced (hsynced.commit _)

theorem whole_of_cutOver {fate : ChangeFate}
    (hstep : Step R xxh64 collection shardIdx schema s (.cutOver node fate)
      s') : s'.Whole node := by
  cases hstep with
  | cutOver =>
      right
      rw [tenure_setStage, tenure_setState]
      exact Function.update_self _ _ _

theorem ShowsWhole.fitsFrames
    (h : s.ShowsWhole xxh64 collection shardIdx e) : FitsFrames e := by
  cases e with
  | write => exact h
  | writeLocal => exact h
  | _ => trivial

theorem ShownActive.listed
    (h : s.ShownActive xxh64 collection shardIdx node) :
    s.Listed xxh64 collection shardIdx node := by
  obtain ⟨view, hview, hreplica, -⟩ := h
  exact ⟨view, hview, hreplica⟩

theorem ShowsWhole.not_shownActive
    (h : s.ShowsWhole xxh64 collection shardIdx e) (hsynced : s.Synced)
    (hstep : Step R xxh64 collection shardIdx schema s e s')
    (hjoins : s.Joins xxh64 collection shardIdx node e) :
    ¬ s'.ShownActive xxh64 collection shardIdx node := by
  cases hstep with
  | member hreq =>
      obtain ⟨hsyncing, hlisted, -⟩ := h node hjoins
      rintro ⟨view, hview, hreplica, hactive⟩
      rcases hsynced.views_commit hview with hold | rfl
      · exact hlisted ⟨view, hold, hreplica⟩
      · rw [shardState_membership hreq hreplica, hsyncing] at hactive
        simp at hactive
  | _ => exact hjoins.elim

theorem ShowsWhole.not_pulling
    (h : s.ShowsWhole xxh64 collection shardIdx e)
    (hjoins : s.Joins xxh64 collection shardIdx node e) : ¬ s.Pulling node := by
  cases e with
  | member req => exact (h node hjoins).2.2
  | _ => exact hjoins.elim

variable (xxh64 collection shardIdx) in
/-- What is shown as an active replica is whole. -/
structure ActiveWhole (s : Rebalance) : Prop where
  synced : s.Synced
  whole : ∀ node, s.ShownActive xxh64 collection shardIdx node → s.Whole node

theorem ActiveWhole.step (hinv : s.ActiveWhole xxh64 collection shardIdx)
    (h : s.ShowsWhole xxh64 collection shardIdx e)
    (hstep : Step R xxh64 collection shardIdx schema s e s') :
    s'.ActiveWhole xxh64 collection shardIdx := by
  have hlog := log_step hstep
  refine ⟨hlog.synced hinv.synced, fun node hshown => ?_⟩
  have hjoins : ¬ s.Joins xxh64 collection shardIdx node e :=
    fun hjoins => h.not_shownActive hinv.synced hstep hjoins hshown
  rcases hlog.shownActive hinv.synced hshown with hold | hnew | ⟨fate, he⟩
  · apply (hinv.whole node hold).step hstep hjoins
    rintro rfl
    exact h hold.listed
  · exact absurd hnew hjoins
  · rcases he with rfl | rfl
    · have hwhole : s.Whole node := h
      exact hwhole.step hstep hjoins (by simp)
    · exact whole_of_cutOver hstep

theorem Run.activeWhole
    (hrun : Run R xxh64 collection shardIdx schema
      (fun s e => s.ShowsWhole xxh64 collection shardIdx e) s) :
    s.ActiveWhole xxh64 collection shardIdx := by
  apply hrun.invariant
  · intro s hinit
    refine ⟨fun node => ?_, fun node _ => .inl (hinit.original node)⟩
    rw [hinit.inbox, hinit.metadata_eq]
    rfl
  · exact fun s e s' h hshows hstep => h.step hshows hstep

/-! ### Nodes that apply the log -/

theorem Run.synced {Admits : Rebalance → RebalanceStep → Prop}
    (hrun : Run R xxh64 collection shardIdx schema Admits s) : s.Synced := by
  apply hrun.invariant
  · intro s hinit node
    rw [hinit.inbox, hinit.metadata_eq]
    rfl
  · exact fun s e s' h _ hstep => (log_step hstep).synced h

/-- What a node lists that has applied the whole log. -/
theorem Synced.preferred (h : s.Synced) {coordinator : NodeId}
    (hinbox : s.inbox coordinator = [])
    (hreplica : node ∈ s.replicas xxh64 collection shardIdx)
    (hactive : s.committed.shardState collection shardIdx node = .active) :
    s.Preferred xxh64 collection shardIdx coordinator node := by
  have hmeta : (s.world coordinator).metadata = s.committed := by
    have hsame := h coordinator
    rwa [hinbox] at hsame
  obtain ⟨addr, haddr⟩ := Option.isSome_iff_exists.mp
    (Std.ExtTreeMap.isSome_getElem?_iff_mem.mpr
      (MetaState.mem_nodes_of_mem_replicas hreplica))
  refine ⟨addr, ?_⟩
  rw [hmeta, activeReplicasWithAddrs, List.mem_filterMap]
  refine ⟨node, List.mem_filter.mpr ⟨hreplica, ?_⟩, ?_⟩
  · rw [decide_eq_true_eq]
    exact hactive
  · rw [haddr]
    rfl

/-- A join without a recorded state is preferred by every node that has applied
it. -/
theorem joinsPreferred (R : Runtime) (xxh64 : Bytes → UInt64)
    (collection : String) (shardIdx : UInt32) (schema : CollectionSchema) :
    JoinsPreferred R xxh64 collection shardIdx schema := by
  intro s hrun req node hreq henters hactive coordinator
  have hjoined := hrun.step (.member req) trivial (.member hreq)
  obtain ⟨s', hrun', happlied, hinbox, -⟩ :=
    hjoined.catchUp (fun _ _ => trivial) coordinator
  refine ⟨s', hrun', hrun'.synced.preferred hinbox ?_ ?_, ?_⟩
  · rw [replicas, happlied.committed]
    exact henters.2
  · rw [happlied.committed]
    exact (shardState_membership hreq henters.2).trans hactive
  · rw [happlied.tenure]
    exact if_pos henters

/-- What all replicas held, they and the nodes that have joined since carry. -/
theorem Since.carries {s₀ : Rebalance} {h : History}
    (hsince : Since R xxh64 collection shardIdx schema
      (fun s e => s.ShowsWhole xxh64 collection shardIdx e) s₀ h s)
    (hkept : s₀.Kept R collection shardIdx schema) {id : UInt64} {t : Hlc}
    (hheld : s₀.HeldByAll xxh64 collection shardIdx id t) :
    s.Kept R collection shardIdx schema ∧
      ∀ r, r ∈ s.replicas xxh64 collection shardIdx ∨ r ∈ h.joined →
        s.Carries collection shardIdx r id t := by
  induction hsince with
  | refl =>
      refine ⟨hkept, fun r hr => ?_⟩
      have hold := hr.resolve_right (Set.notMem_empty r)
      exact ⟨fun _ => hheld r hold, fun _ => .inl (hheld r hold)⟩
  | @step h s s' e _ hshows hstep ih =>
      obtain ⟨hkept, hcarries⟩ := ih
      refine ⟨hkept.step hshows.fitsFrames hstep, fun r hr => ?_⟩
      by_cases hjoins : s.Joins xxh64 collection shardIdx r e
      · exact carries_of_joins hstep hjoins (hshows.not_pulling hjoins) id t
      · have hold : r ∈ s.replicas xxh64 collection shardIdx ∨
            r ∈ h.joined := by
          rcases hr with hreplica | hjoined | hnew
          · exact .inl (mem_replicas_of_not_joins hstep hreplica hjoins)
          · exact .inr hjoined
          · exact absurd hnew hjoins
        apply (hcarries r hold).step hkept hstep
        rintro rfl source sources hstage
        obtain ⟨hsource, hwhole⟩ := hshows source sources hstage
        exact (hcarries source.1 (.inl hsource)).1 hwhole

end Invariant

end Rebalance

/-- While a node only becomes a replica with `Syncing` recorded for it, searches
prefer replicas that hold what all replicas held before they joined; and every
other join is one that a search can prefer at once. -/
theorem preferredComplete_of_showsWhole (R : Runtime)
    (xxh64 : Bytes → UInt64) (collection : String) (shardIdx : UInt32)
    (schema : CollectionSchema) :
    (Rebalance.PreferredComplete R xxh64 collection shardIdx schema
      fun s e => s.ShowsWhole xxh64 collection shardIdx e) ∧
    Rebalance.JoinsPreferred R xxh64 collection shardIdx schema := by
  refine ⟨?_, Rebalance.joinsPreferred R xxh64 collection shardIdx schema⟩
  intro s₀ hrun h s hsince coordinator node hpreferred
  have hwhole := (hsince.run hrun).activeWhole.whole node
    (Rebalance.shownActive_of_preferred hpreferred)
  constructor
  · intro hjoined
    rw [Rebalance.Whole, hjoined] at hwhole
    simp at hwhole
  · intro hnode id t hheld
    have hkept := hrun.kept fun _ _ hshows => hshows.fitsFrames
    exact ((hsince.carries hkept hheld).2 node (.inr hnode)).1 hwhole

/-! ## A replica that has just joined -/

namespace Rebalance

section Joined

variable {R : Runtime} {xxh64 : Bytes → UInt64}

/-- The pair of nodes, before anything is written. -/
def pairStart : Rebalance :=
  { firstStart with
    world := fun node => { firstStart.world node with metadata := pairMeta }
    committed := pairMeta }

theorem initial_pairStart : pairStart.Initial "c" 0 pairSchema where
  dim_pos := by decide
  known := Std.ExtTreeMap.getElem?_insert_self
  active _ := rfl
  metadata_eq _ := rfl
  unused _ := rfl
  inbox _ := rfl
  idle _ := rfl
  original _ := rfl

/-- The metadata after the second node has left, and its pass has recorded that
it syncs all the same. -/
def leftSyncing : MetaState :=
  (((pairMeta.apply (.deregisterNode 2)).1).apply
    (.setShardState "c" 0 2 .syncing)).1

theorem mem_replicas_leftSyncing (node : NodeId) :
    node ∈ leftSyncing.replicasForShard xxh64 "c" 0 ↔ node = 1 := by
  rw [@MetaState.mem_replicas_iff xxh64 leftSyncing "c" 0 pairSchema
    (by decide +kernel) (by decide +kernel)]
  have hnodes : node ∈ leftSyncing.nodes ↔
      2 ≠ node ∧ node ∈ pairMeta.nodes := by
    simp [leftSyncing, MetaState.apply]
  rw [hnodes, pairMeta, Std.ExtTreeMap.mem_insert, Std.ExtTreeMap.mem_insert,
    Std.compare_eq_iff_eq, Std.compare_eq_iff_eq]
  simp only [Std.ExtTreeMap.not_mem_empty, or_false]
  constructor
  · rintro ⟨hne, rfl | rfl⟩
    · exact absurd rfl hne
    · rfl
  · rintro rfl
    exact ⟨by decide, .inr rfl⟩

/-- The second node begins its pass, leaves, and records that it syncs; all
nodes apply that. -/
theorem exists_leftSyncing (R : Runtime) (xxh64 : Bytes → UInt64) :
    ∃ s : Rebalance, Run R xxh64 "c" 0 pairSchema
        (fun s e => s.ShowsWhole xxh64 "c" 0 e) s ∧
      s.committed = leftSyncing ∧ (∀ node, s.inbox node = []) ∧
      s.stage 2 = .acquiring [(1, "a")] ∧ s.tenure 1 = .original ∧
      s.slot "c" 0 1 = .closed .empty := by
  let s₁ : Rebalance := pairStart.setStage 2 (.begun pairMeta)
  let s₂ : Rebalance := s₁.commit xxh64 "c" 0 (.deregisterNode 2)
  have hleaves : ∀ node, ¬ s₁.Enters xxh64 "c" 0 (.deregisterNode 2) node := by
    rintro node ⟨hold, hnew⟩
    have hnode := MetaState.mem_nodes_of_mem_replicas hnew
    rw [MetaState.apply, Std.ExtTreeMap.mem_erase] at hnode
    apply hold
    rw [replicas, show s₁.committed = pairMeta from rfl,
      mem_replicas_pairMeta]
    have hpair := hnode.2
    rw [show s₁.committed = pairMeta from rfl, pairMeta,
      Std.ExtTreeMap.mem_insert, Std.ExtTreeMap.mem_insert,
      Std.compare_eq_iff_eq, Std.compare_eq_iff_eq] at hpair
    simpa [eq_comm, or_comm] using hpair
  have hrun₂ : Run R xxh64 "c" 0 pairSchema
      (fun s e => s.ShowsWhole xxh64 "c" 0 e) s₂ :=
    ((Run.init initial_pairStart).step (.beginPass 2) trivial
      (.beginPass rfl)).step (.member (.deregisterNode 2))
        (fun node henters => absurd henters (hleaves node))
        (.member (.deregisterNode 2))
  have hstage : s₁.stage 2 = .begun pairMeta := stage_setStage_self _
  have hunsettled : ¬ s₂.Settled "c" 0 pairMeta 2 := by
    rintro ⟨-, hmaterialized⟩
    rw [show s₂.slot "c" 0 2 = .closed .empty from rfl] at hmaterialized
    simp [ShardSlot.materialized] at hmaterialized
  have hrun₃ := hrun₂.step (.syncing 2 .committed) trivial
    (.syncing hstage ((mem_replicas_pairMeta 2).mpr (.inr rfl)) hunsettled
      (by simp [transferSources_pairMeta_second]))
  obtain ⟨s, hrun, happlied, hinbox⟩ :=
    hrun₃.catchUpAll (fun _ _ => trivial) Finset.univ.toList
  refine ⟨s, hrun, happlied.committed, fun node => hinbox node (by simp), ?_,
    ?_, ?_⟩
  · rw [happlied.stage, stage_setStage_self, transferSources_pairMeta_second]
  · rw [happlied.tenure, tenure_setStage, tenure_setState]
    exact if_neg (hleaves 1)
  · rw [happlied.slot]
    rfl

/-- Then the second node joins again, with `Syncing` recorded for it. -/
theorem admits_rejoin {s : Rebalance} (hsynced : s.Synced)
    (hcommitted : s.committed = leftSyncing)
    (hinbox : ∀ node, s.inbox node = [])
    (hstage : s.stage 2 = .acquiring [(1, "a")]) :
    s.Enters xxh64 "c" 0 (.registerNode 2 "b") 2 ∧
      s.ShowsWhole xxh64 "c" 0 (.member (.registerNode 2 "b")) := by
  have hmem : ∀ node, node ∈ (leftSyncing.apply
      (.registerNode 2 "b")).1.nodes ↔ node = 2 ∨ node ∈ leftSyncing.nodes := by
    intro node
    rw [MetaState.apply, Std.ExtTreeMap.mem_insert, Std.compare_eq_iff_eq,
      eq_comm]
  have hout : ∀ node, node ∉ s.replicas xxh64 "c" 0 ↔ node ≠ 1 := by
    intro node
    rw [replicas, hcommitted, mem_replicas_leftSyncing]
  have hlisted : ∀ node, node ≠ 1 → ¬ s.Listed xxh64 "c" 0 node := by
    rintro node hnode ⟨view, ⟨other, read, rest, hread, rfl⟩, hreplica⟩
    obtain ⟨rfl, rfl⟩ := List.append_eq_nil_iff.mp (hread.symm.trans
      (hinbox other))
    have hmeta := hsynced other
    rw [hinbox other] at hmeta
    rw [hmeta] at hreplica
    exact (hout node).mpr hnode hreplica
  refine ⟨⟨(hout 2).mpr (by decide), ?_⟩, fun node henters => ?_⟩
  · rw [hcommitted, @MetaState.mem_replicas_iff xxh64 _ "c" 0 pairSchema
      (by decide +kernel) (by decide +kernel), hmem]
    exact .inl rfl
  · have hne := (hout node).mp henters.1
    have hnode : node = 2 := by
      have hnew := MetaState.mem_nodes_of_mem_replicas henters.2
      rw [hcommitted, hmem] at hnew
      refine hnew.resolve_right fun hold => hne ?_
      rw [← @mem_replicas_leftSyncing xxh64,
        @MetaState.mem_replicas_iff xxh64 leftSyncing "c" 0 pairSchema
          (by decide +kernel) (by decide +kernel)]
      exact hold
    subst hnode
    refine ⟨?_, hlisted 2 hne, ?_⟩
    · rw [hcommitted, leftSyncing, MetaState.shardState_setShardState]
      rfl
    · rintro ⟨sources, rows, hpulling⟩
      rw [hstage] at hpulling
      simp at hpulling

/-- A run in which a node joins, pulls, and is preferred. -/
theorem preferredComplete_of_showsWhole_rejoined (R : Runtime)
    (xxh64 : Bytes → UInt64) :
    ∃ s s' : Rebalance, Run R xxh64 "c" 0 pairSchema
        (fun s e => s.ShowsWhole xxh64 "c" 0 e) s ∧
      s.Enters xxh64 "c" 0 (.registerNode 2 "b") 2 ∧
      s.ShowsWhole xxh64 "c" 0 (.member (.registerNode 2 "b")) ∧
      Run R xxh64 "c" 0 pairSchema
        (fun s e => s.ShowsWhole xxh64 "c" 0 e) s' ∧
      s'.Preferred xxh64 "c" 0 1 2 ∧ s'.tenure 2 ≠ .joined := by
  obtain ⟨s, hrun, hcommitted, hinbox, hstage, htenure, hslot⟩ :=
    exists_leftSyncing R xxh64
  obtain ⟨henters, hshows⟩ := admits_rejoin (s := s) hrun.synced hcommitted
    hinbox hstage
  let s₁ : Rebalance := s.commit xxh64 "c" 0 (.registerNode 2 "b")
  have hrun₁ : Run R xxh64 "c" 0 pairSchema
      (fun s e => s.ShowsWhole xxh64 "c" 0 e) s₁ :=
    hrun.step _ hshows (.member (.registerNode 2 "b"))
  -- the first node has nothing open, and answers with no records
  have hstream : (s₁.world 1).streamShard R "c" 0 pairSchema =
      (s₁.world 1, .ok []) := by
    have hnone : (s₁.world 1).shards.slots { collection := "c", shardIdx := 0 }
        = .closed .empty := hslot
    simp [NodeState.streamShard, ShardStore.hasShard, hnone]
  have hsource : 1 ∈ s₁.replicas xxh64 "c" 0 ∧ s₁.Whole 1 := by
    have hone : 1 ∈ s.replicas xxh64 "c" 0 := by
      rw [replicas, hcommitted]
      exact (mem_replicas_leftSyncing 1).mpr rfl
    refine ⟨?_, .inl ((if_neg fun henters => henters.1 hone).trans htenure)⟩
    rw [show s₁.replicas xxh64 "c" 0 = (leftSyncing.apply
      (.registerNode 2 "b")).1.replicasForShard xxh64 "c" 0 from
        hcommitted ▸ rfl, @MetaState.mem_replicas_iff xxh64 _ "c" 0 pairSchema
        (by decide +kernel) (by decide +kernel)]
    decide +kernel
  have hrun₂ := hrun₁.step (.stream 2) (fun source sources hacquiring => by
    obtain ⟨rfl, -⟩ := List.cons.inj
      (Stage.acquiring.inj (hstage.symm.trans hacquiring))
    exact hsource) (.stream hstage hstream)
  have hrun₃ := hrun₂.step (.cutOver 2 .committed) trivial
    (.cutOver (stage_setStage_self _))
  obtain ⟨s', hrun', happlied, hend, -⟩ :=
    hrun₃.catchUp (fun _ _ => trivial) 1
  have hpreferred : s'.Preferred xxh64 "c" 0 1 2 := by
    apply hrun'.synced.preferred hend
    · rw [replicas, happlied.committed]
      exact (replicas_setShardState s₁.committed .active).symm ▸
        henters.2
    · rw [happlied.committed]
      exact (MetaState.shardState_setShardState ..).trans
        (if_pos ⟨rfl, rfl, rfl⟩)
  exact ⟨s, s', hrun, henters, hshows, hrun', hpreferred,
    ((preferredComplete_of_showsWhole R xxh64 "c" 0 pairSchema).1 s' hrun' _ s'
      .refl 1 2 hpreferred).1⟩

/-- The second node joins, and the first one prefers it at once. -/
theorem not_preferredComplete : ¬ ∃ R xxh64, ∀ collection shardIdx schema,
    PreferredComplete R xxh64 collection shardIdx schema
      fun _ e => Undisturbed e := by
  rintro ⟨R, xxh64, hall⟩
  let s₁ : Rebalance := firstStart.commit xxh64 "c" 0 (.registerNode 2 "b")
  let s₂ : Rebalance :=
    { s₁.setNode 1 { s₁.world 1 with
        metadata := ((s₁.world 1).metadata.apply (.registerNode 2 "b")).1 }
      with inbox := Function.update s₁.inbox 1 [] }
  have hrun : Run R xxh64 "c" 0 pairSchema (fun _ e => Undisturbed e) s₂ := by
    apply Run.step (.learn 1) _ trivial
      (.learn (show s₁.inbox 1 = .registerNode 2 "b" :: [] from rfl))
    exact .step (.member (.registerNode 2 "b")) (.init initial_firstStart)
      trivial (.member (.registerNode 2 "b"))
  have htenure : s₂.tenure 2 = .joined := by
    apply if_pos
    exact ⟨fun h => absurd ((mem_replicas_firstMeta 2).mp h) (by decide),
      (mem_replicas_pairMeta 2).mpr (.inr rfl)⟩
  have hpreferred : s₂.Preferred xxh64 "c" 0 1 2 := by
    have hmeta : (s₂.world 1).metadata = pairMeta :=
      congrArg NodeState.metadata (world_setNode_self s₁ 1 _)
    refine ⟨"b", ?_⟩
    rw [hmeta, activeReplicasWithAddrs, List.mem_filterMap]
    refine ⟨2, List.mem_filter.mpr ⟨?_, rfl⟩, ?_⟩
    · exact (mem_replicas_pairMeta 2).mpr (.inr rfl)
    · decide +kernel
  exact (hall "c" 0 pairSchema s₂ hrun _ s₂ .refl 1 2 hpreferred).1 htenure

end Joined

end Rebalance

end Quorvec
