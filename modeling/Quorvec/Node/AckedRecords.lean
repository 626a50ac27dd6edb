import Quorvec.Node.SourceDrop

/-!
# What every replica has acknowledged

A record that every replica holds is to outlive the membership changes that
follow, once every node has run its pass for them.  It does as long as each
change leaves a replica that holds everything, and pulls come from such
replicas.  A change that replaces all replicas leaves no source to pull from.
-/

namespace Quorvec

open LastWriterWins ByteCodec

namespace Rebalance

section History

variable (R : Runtime) (xxh64 : Bytes → UInt64) (collection : String)
variable (shardIdx : UInt32) (schema : CollectionSchema)

/-- What has happened since some state. -/
structure History where
  /-- The nodes that have become replicas. -/
  joined : Set NodeId
  /-- The nodes that have been members. -/
  members : Set NodeId
  /-- The nodes that have begun a pass which knows the last membership
  change. -/
  running : Set NodeId
  /-- The nodes that have ended such a pass. -/
  passed : Set NodeId

/-- Nothing has happened yet. -/
def History.start (s : Rebalance) : History where
  joined := ∅
  members := {node | node ∈ s.committed.nodes}
  running := ∅
  passed := ∅

def History.next (h : History) (s s' : Rebalance) (e : RebalanceStep) :
    History where
  joined := h.joined ∪ {node | s.Joins xxh64 collection shardIdx node e}
  members := h.members ∪ {node | node ∈ s'.committed.nodes}
  running := match e with
    | .member _ => ∅
    | .beginPass begun => h.running ∪
        {node | node = begun ∧ ∀ req ∈ s.inbox node, ¬ req.Membership}
    | _ => h.running
  passed := match e with
    | .member _ => ∅
    | _ => h.passed ∪
        {node | node ∈ h.running ∧ s.stage node ≠ .idle ∧
          s'.stage node = .idle}

/-- The states that follow a state in an admitted run. -/
inductive Since (Admits : Rebalance → RebalanceStep → Prop) (s₀ : Rebalance) :
    History → Rebalance → Prop
  | refl : Since Admits s₀ (.start s₀) s₀
  | step {h : History} {s s' : Rebalance} (e : RebalanceStep) :
      Since Admits s₀ h s → Admits s e →
      Step R xxh64 collection shardIdx schema s e s' →
      Since Admits s₀ (h.next xxh64 collection shardIdx s s' e) s'

/-- Every replica holds the stamp. -/
def HeldByAll (s : Rebalance) (id : UInt64) (t : Hlc) : Prop :=
  ∀ r ∈ s.replicas xxh64 collection shardIdx,
    s.Holds collection shardIdx r id t

end History

section Claim

variable (R : Runtime) (xxh64 : Bytes → UInt64) (collection : String)
variable (shardIdx : UInt32) (schema : CollectionSchema)

/-- All calls succeed. -/
def Undisturbed : RebalanceStep → Prop
  | .unreachable _ => False
  | .found _ fate => fate = .committed
  | .syncing _ fate => fate = .committed
  | .cutOver _ fate => fate = .committed
  | _ => True

/-- A membership change keeps a replica that is whole, and makes no node a
replica whose transfer is still running; a replica pulls from a whole replica;
and a drop leaves a whole replica. -/
def KeepsWhole (s : Rebalance) : RebalanceStep → Prop
  | .member req =>
      (∃ r ∈ (s.commit xxh64 collection shardIdx req).replicas xxh64
        collection shardIdx,
          r ∈ s.replicas xxh64 collection shardIdx ∧ s.Whole r) ∧
      ∀ node, s.Enters xxh64 collection shardIdx req node → ¬ s.Pulling node
  | .write _ _ req => req.FitsFrame
  | .writeLocal _ req => req.FitsFrame
  | .stream node => node ∈ s.replicas xxh64 collection shardIdx →
      ∀ source sources, s.stage node = .acquiring (source :: sources) →
        source.1 ∈ s.replicas xxh64 collection shardIdx ∧ s.Whole source.1
  | .dropShard node =>
      ∃ r ∈ s.replicas xxh64 collection shardIdx, r ≠ node ∧ s.Whole r
  | _ => True

/-- In every admitted run, what all replicas hold at some time is held by a
replica whenever the passes for the last membership change have run at all
nodes that have been members since. -/
def AckedSurvive (Admits : Rebalance → RebalanceStep → Prop) : Prop :=
  ∀ s₀, Run R xxh64 collection shardIdx schema Admits s₀ →
    s₀.replicas xxh64 collection shardIdx ≠ [] →
    ∀ id t, s₀.HeldByAll xxh64 collection shardIdx id t →
      ∀ h s, Since R xxh64 collection shardIdx schema Admits s₀ h s →
        h.members ⊆ h.passed →
        ∃ r ∈ s.replicas xxh64 collection shardIdx,
          s.Holds collection shardIdx r id t

end Claim

section Invariant

variable {R : Runtime} {xxh64 : Bytes → UInt64} {collection : String}
variable {shardIdx : UInt32} {schema : CollectionSchema}
variable {Admits : Rebalance → RebalanceStep → Prop}
variable {s s' : Rebalance} {node : NodeId} {e : RebalanceStep}

/-- A node that is whole stays so until it drops the shard or joins again. -/
theorem Whole.step (h : s.Whole node)
    (hstep : Step R xxh64 collection shardIdx schema s e s')
    (hjoins : ¬ s.Joins xxh64 collection shardIdx node e)
    (hdrop : e ≠ .dropShard node) : s'.Whole node := by
  have htenure := tenure_step hstep node
  rw [Whole]
  generalize s'.tenure node = tenure at htenure ⊢
  cases htenure with
  | same => exact h
  | joined hnode => exact absurd hnode hjoins
  | pulled => exact .inr rfl
  | dropped heq => exact absurd heq hdrop

/-- A node that joins carries every stamp as long as it does not pull. -/
theorem carries_of_joins
    (hstep : Step R xxh64 collection shardIdx schema s e s')
    (hjoins : s.Joins xxh64 collection shardIdx node e)
    (hpulling : ¬ s.Pulling node) (id : UInt64) (t : Hlc) :
    s'.Carries collection shardIdx node id t := by
  cases hstep with
  | @member req =>
      have htenure : (s.commit xxh64 collection shardIdx req).tenure node =
          .joined := if_pos hjoins
      refine ⟨fun hwhole => ?_, fun hpull => absurd hpull hpulling⟩
      rw [Whole, htenure] at hwhole
      simp at hwhole
  | _ => exact hjoins.elim

/-- A replica that has not joined by the step was one before. -/
theorem mem_replicas_of_not_joins
    (hstep : Step R xxh64 collection shardIdx schema s e s')
    (hnode : node ∈ s'.replicas xxh64 collection shardIdx)
    (hjoins : ¬ s.Joins xxh64 collection shardIdx node e) :
    node ∈ s.replicas xxh64 collection shardIdx := by
  rcases replicas_step hstep with hsame | ⟨req, rfl, rfl⟩
  · rwa [hsame] at hnode
  · by_contra hold
    exact hjoins ⟨hold, hnode⟩

theorem Run.kept (hrun : Run R xxh64 collection shardIdx schema Admits s)
    (hfits : ∀ s e, Admits s e → FitsFrames e) :
    s.Kept R collection shardIdx schema := by
  apply hrun.invariant
  · exact fun s hinit => hinit.kept R
  · exact fun s e s' h hadmits hstep => h.step (hfits s e hadmits) hstep

theorem Since.run {s₀ : Rebalance} {h : History}
    (hsince : Since R xxh64 collection shardIdx schema Admits s₀ h s)
    (hrun : Run R xxh64 collection shardIdx schema Admits s₀) :
    Run R xxh64 collection shardIdx schema Admits s := by
  induction hsince with
  | refl => exact hrun
  | step e _ hadmits hstep ih => exact .step e ih hadmits hstep

theorem KeepsWhole.fitsFrames
    (h : s.KeepsWhole xxh64 collection shardIdx e) : FitsFrames e := by
  cases e with
  | write => exact h
  | writeLocal => exact h
  | _ => trivial

/-- Some replica is whole. -/
def SomeWhole (xxh64 : Bytes → UInt64) (collection : String)
    (shardIdx : UInt32) (s : Rebalance) : Prop :=
  ∃ r ∈ s.replicas xxh64 collection shardIdx, s.Whole r

theorem KeepsWhole.someWhole (h : s.KeepsWhole xxh64 collection shardIdx e)
    (hsome : s.SomeWhole xxh64 collection shardIdx)
    (hstep : Step R xxh64 collection shardIdx schema s e s') :
    s'.SomeWhole xxh64 collection shardIdx := by
  rcases replicas_step hstep with hreplicas | ⟨req, rfl, rfl⟩
  · have hkeeps : ∃ r ∈ s.replicas xxh64 collection shardIdx,
        e ≠ .dropShard r ∧ s.Whole r := by
      by_cases hdrop : ∃ node, e = .dropShard node
      · obtain ⟨node, rfl⟩ := hdrop
        obtain ⟨r, hr, hne, hwhole⟩ := h
        exact ⟨r, hr, by simp [Ne.symm hne], hwhole⟩
      · obtain ⟨r, hr, hwhole⟩ := hsome
        exact ⟨r, hr, fun heq => hdrop ⟨r, heq⟩, hwhole⟩
    obtain ⟨r, hr, hdrop, hwhole⟩ := hkeeps
    refine ⟨r, hreplicas ▸ hr, hwhole.step hstep ?_ hdrop⟩
    rintro hjoins
    cases e with
    | member req =>
        apply hjoins.1
        exact hr
    | _ => exact hjoins.elim
  · obtain ⟨⟨r, hr, hold, hwhole⟩, -⟩ := h
    exact ⟨r, hr, hwhole.step hstep (fun hjoins => hjoins.1 hold) (by simp)⟩

/-- The replicas carry on what they carry. -/
theorem KeepsWhole.carries (h : s.KeepsWhole xxh64 collection shardIdx e)
    (hkept : s.Kept R collection shardIdx schema)
    (hstep : Step R xxh64 collection shardIdx schema s e s') {id : UInt64}
    {t : Hlc} (hcarries : ∀ r ∈ s.replicas xxh64 collection shardIdx,
      s.Carries collection shardIdx r id t) :
    ∀ r ∈ s'.replicas xxh64 collection shardIdx,
      s'.Carries collection shardIdx r id t := by
  intro r hr
  by_cases hjoins : s.Joins xxh64 collection shardIdx r e
  · apply carries_of_joins hstep hjoins
    cases e with
    | member req => exact h.2 r hjoins
    | _ => exact hjoins.elim
  · have hold := mem_replicas_of_not_joins hstep hr hjoins
    apply (hcarries r hold).step hkept hstep
    rintro rfl source sources hstage
    obtain ⟨hsource, hwhole⟩ := h hold source sources hstage
    exact (hcarries source.1 hsource).1 hwhole

theorem Run.someWhole
    (hrun : Run R xxh64 collection shardIdx schema
      (fun s e => s.KeepsWhole xxh64 collection shardIdx e) s) :
    s.replicas xxh64 collection shardIdx = [] ∨
      s.SomeWhole xxh64 collection shardIdx := by
  apply hrun.invariant
  · intro s hinit
    rcases hreplicas : s.replicas xxh64 collection shardIdx with _ | ⟨r, rest⟩
    · exact .inl rfl
    · right
      refine ⟨r, ?_, .inl (hinit.original r)⟩
      rw [hreplicas]
      exact List.mem_cons_self
  · rintro s e s' (hnone | hsome) hkeeps hstep
    · rcases replicas_step hstep with hreplicas | ⟨req, rfl, rfl⟩
      · exact .inl (hreplicas.trans hnone)
      · obtain ⟨⟨r, -, hold, -⟩, -⟩ := hkeeps
        rw [hnone] at hold
        simp at hold
    · exact .inr (hkeeps.someWhole hsome hstep)

/-- What all replicas hold, a whole replica holds from then on. -/
theorem Since.someWhole {s₀ : Rebalance} {h : History}
    (hsince : Since R xxh64 collection shardIdx schema
      (fun s e => s.KeepsWhole xxh64 collection shardIdx e) s₀ h s)
    (hkept : s₀.Kept R collection shardIdx schema)
    (hsome : s₀.SomeWhole xxh64 collection shardIdx) {id : UInt64} {t : Hlc}
    (hheld : s₀.HeldByAll xxh64 collection shardIdx id t) :
    s.Kept R collection shardIdx schema ∧
      s.SomeWhole xxh64 collection shardIdx ∧
      ∀ r ∈ s.replicas xxh64 collection shardIdx,
        s.Carries collection shardIdx r id t := by
  induction hsince with
  | refl =>
      refine ⟨hkept, hsome, fun r hr => ⟨fun _ => hheld r hr, fun _ => ?_⟩⟩
      exact .inl (hheld r hr)
  | step e _ hkeeps hstep ih =>
      obtain ⟨hkept, hsome, hcarries⟩ := ih
      refine ⟨hkept.step hkeeps.fitsFrames hstep,
        hkeeps.someWhole hsome hstep, hkeeps.carries hkept hstep hcarries⟩

end Invariant

end Rebalance

/-- While each membership change keeps a whole replica, and pulls come from
whole replicas, nothing is lost that all replicas have held. -/
theorem ackedSurvive_of_keepsWhole (R : Runtime) (xxh64 : Bytes → UInt64)
    (collection : String) (shardIdx : UInt32) (schema : CollectionSchema) :
    Rebalance.AckedSurvive R xxh64 collection shardIdx schema
      fun s e => s.KeepsWhole xxh64 collection shardIdx e := by
  intro s₀ hrun hne id t hheld h s hsince _
  have hkept := hrun.kept fun _ _ hkeeps => hkeeps.fitsFrames
  have hsome := hrun.someWhole.resolve_left hne
  obtain ⟨-, ⟨r, hr, hwhole⟩, hcarries⟩ :=
    hsince.someWhole hkept hsome hheld
  exact ⟨r, hr, (hcarries r hr).1 hwhole⟩

/-! ## A change that replaces the only replica -/

namespace Rebalance

section Replaced

variable {R : Runtime} {xxh64 : Bytes → UInt64}

theorem admitsJoin_of_keepsWhole (R : Runtime) (xxh64 : Bytes → UInt64) :
    AdmitsJoin R xxh64 fun s e => s.KeepsWhole xxh64 "c" 0 e where
  write := fitsFrame_pointReq
  member := by
    refine ⟨⟨1, (mem_replicas_pairMeta 1).mpr (.inl rfl),
      (mem_replicas_firstMeta 1).mpr rfl, .inl rfl⟩, fun node _ => ?_⟩
    rintro ⟨sources, rows, hpulling⟩
    have hidle : (pointTaken R).stage node = .idle := rfl
    rw [hidle] at hpulling
    simp at hpulling
  learn _ _ := trivial
  beginPass _ := trivial
  syncing _ := trivial
  stream _ hstage hsource hwhole := by
    intro _ source sources hacquiring
    obtain ⟨rfl, -⟩ := List.cons.inj
      (Stage.acquiring.inj (hstage.symm.trans hacquiring))
    exact ⟨hsource, hwhole⟩
  record _ _ := trivial
  cutOver _ := trivial

/-- A run in which a node joins and pulls, and what all replicas then hold is
kept. -/
theorem ackedSurvive_of_keepsWhole_joined (R : Runtime)
    (xxh64 : Bytes → UInt64) :
    ∃ s : Rebalance, Run R xxh64 "c" 0 pairSchema
        (fun s e => s.KeepsWhole xxh64 "c" 0 e) s ∧
      2 ∉ firstStart.replicas xxh64 "c" 0 ∧ 2 ∈ s.replicas xxh64 "c" 0 ∧
      s.tenure 2 = .pulled := by
  obtain ⟨s, -, hrun, hreplica, htenure, -⟩ :=
    exists_joined (admitsJoin_of_keepsWhole R xxh64)
  exact ⟨s, hrun, fun h => absurd ((mem_replicas_firstMeta 2).mp h) (by decide),
    hreplica, htenure⟩

/-- A node that has never opened the shard, and is offered nothing by the step,
holds nothing after it. -/
theorem not_holds_of_unused {collection : String} {shardIdx : UInt32}
    {schema : CollectionSchema} {s s' : Rebalance} {e : RebalanceStep}
    {node : NodeId} (hdim : 0 < schema.dim.toNat)
    (hstep : Step R xxh64 collection shardIdx schema s e s')
    (hunused : s.slot collection shardIdx node = .closed .empty)
    (hoffers : ∀ req, ¬ s.Offers collection shardIdx node req e)
    (id : UInt64) (t : Hlc) : ¬ s'.Holds collection shardIdx node id t := by
  have hblank : (s.slot collection shardIdx node).Keeps R schema.dim.toNat
      schema.metric fun _ => none := by
    rw [hunused]
    exact ShardSlot.blank_unused _ _ hdim
  have hslot := slot_step hstep node
  unfold Holds
  generalize s'.slot collection shardIdx node = slot at hslot ⊢
  rintro ⟨p, hp, -⟩
  cases hslot with
  | same =>
      rw [hunused] at hp
      simp [ShardSlot.registers] at hp
  | written hreq => exact hoffers _ hreq
  | opened _ hopened =>
      obtain ⟨shard, rfl, hshard⟩ := hopened _ hblank
      rw [ShardSlot.registers, hshard.2] at hp
      simp at hp
  | dropped =>
      have hdropped := ShardStore.keeps_dropShard hblank
      obtain ⟨q, hq, -⟩ := hdropped.atLeast ⟨p, hp, le_refl p.1⟩
      simp at hq

theorem mem_nodes_singleMeta (old node : NodeId) :
    node ∈ (singleMeta old).nodes ↔ node = old := by
  rw [singleMeta, Std.ExtTreeMap.mem_insert, Std.compare_eq_iff_eq]
  simp [eq_comm]

theorem mem_nodes_takeover (old new node : NodeId) :
    node ∈ ((singleMeta old).apply (.registerNode new "b")).1.nodes ↔
      node = old ∨ node = new := by
  rw [MetaState.apply, Std.ExtTreeMap.mem_insert, Std.compare_eq_iff_eq,
    mem_nodes_singleMeta, or_comm]
  simp [eq_comm]

theorem mem_replicas_singleMeta (old node : NodeId) :
    node ∈ (singleMeta old).replicasForShard xxh64 "c" 0 ↔ node = old := by
  have hschema : (singleMeta old).collections["c"]? = some singleSchema :=
    Std.ExtTreeMap.getElem?_insert_self
  rw [@MetaState.mem_replicas_iff xxh64 (singleMeta old) "c" 0 singleSchema
    hschema (Std.ExtTreeMap.size_insert_le.trans (by decide))]
  exact mem_nodes_singleMeta old node

theorem transferSources_eq_nil {snapshot : MetaState} {collection : String}
    {shardIdx : UInt32} {node : NodeId}
    (h : snapshot.replicasForShard xxh64 collection shardIdx = [node]) :
    transferSources xxh64 snapshot node collection shardIdx = [] := by
  simp [transferSources, h]

theorem heldByAll_written (R : Runtime) (xxh64 : Bytes → UInt64)
    (old : NodeId) :
    (written R old).HeldByAll xxh64 "c" 0 7 (Hlc.new 1 0) := by
  intro r hr
  rw [(mem_replicas_singleMeta old r).mp hr]
  obtain ⟨shard, hslot, hkeeps⟩ := exists_onePoint R
  rw [Holds, slot, (world_written R old).1, hslot, ShardSlot.registers,
    hkeeps.2]
  exact ⟨_, rfl, le_refl _⟩

/-- A node takes the shard for a new one, and its pass ends. -/
def takesForNew (R : Runtime) (xxh64 : Bytes → UInt64) (s : Rebalance)
    (node : NodeId) : Rebalance :=
  ((s.setNode node { s.world node with
      shards := ((s.world node).shards.shardLen R
        (shardRef "c" 0 singleSchema)).1 }).setState xxh64 "c" 0 node .active
    .committed).setStage node .idle

theorem step_found {s : Rebalance} {old new : NodeId}
    (hmoved : ((singleMeta old).apply (.registerNode new
      "b")).1.replicasForShard xxh64 "c" 0 = [new])
    (hstage : s.stage new =
      .begun ((singleMeta old).apply (.registerNode new "b")).1)
    (hunused : s.slot "c" 0 new = .closed .empty) :
    Step R xxh64 "c" 0 singleSchema s (.found new .committed)
      (takesForNew R xxh64 s new) := by
  apply Step.found hstage
  · rw [hmoved]
    exact List.mem_singleton_self _
  · rintro ⟨-, hmaterialized⟩
    rw [hunused] at hmaterialized
    simp [ShardSlot.materialized] at hmaterialized
  · exact transferSources_eq_nil hmoved

/-- The only replica is replaced: the old one drops the shard, and the new one
takes it for a new shard. -/
theorem not_ackedSurvive : ¬ ∃ R xxh64, ∀ collection shardIdx schema,
    AckedSurvive R xxh64 collection shardIdx schema
      fun _ e => Undisturbed e := by
  rintro ⟨R, xxh64, hall⟩
  obtain ⟨old, new, hne, hmoved⟩ := exists_takeover xxh64
  let snapshot := ((singleMeta old).apply (.registerNode new "b")).1
  obtain ⟨hshards, hmeta⟩ := world_moved R xxh64 old new
  -- the old node drops the shard
  let s₁ : Rebalance := (moved R xxh64 old new).setStage old
    (.begun ((moved R xxh64 old new).world old).metadata)
  have hdrop := step_drop (R := R) (s := s₁) hne hmoved
    (by rw [stage_setStage_self, hmeta]) hshards
  have hworld : (s₁.drops old).world new = (singleStart old).world new := by
    rw [world_drops_of_ne hne.symm]
    exact world_moved_of_ne R xxh64 hne.symm
  -- the new node learns that it is a replica
  let s₂ : Rebalance := (s₁.drops old).learns new new
  have hinbox : (s₁.drops old).inbox new = .registerNode new "b" :: [] :=
    Function.update_of_ne hne.symm _ _
  have hlearned : (s₂.world new).metadata = snapshot ∧
      s₂.slot "c" 0 new = .closed .empty := by
    have hself : s₂.world new = { (s₁.drops old).world new with
        metadata := (((s₁.drops old).world new).metadata.apply
          (.registerNode new "b")).1 } := Function.update_self _ _ _
    rw [slot, hself, hworld]
    exact ⟨rfl, rfl⟩
  let s₃ : Rebalance := s₂.setStage new (.begun (s₂.world new).metadata)
  have hstage : s₃.stage new = .begun snapshot := by
    rw [stage_setStage_self, hlearned.1]
  let s₄ : Rebalance := takesForNew R xxh64 s₃ new
  have hfound := step_found (R := R) (s := s₃) hmoved hstage hlearned.2
  have hnone := not_holds_of_unused (by decide) hfound hlearned.2 fun _ => id
  have hidle : s₂.stage new = .idle :=
    (stage_setStage_of_ne hne.symm _).trans (stage_setStage_of_ne hne.symm _)
  obtain ⟨h, hsince, hpassed⟩ : ∃ h, Since R xxh64 "c" 0 singleSchema
      (fun _ e => Undisturbed e) (written R old) h s₄ ∧
        h.members ⊆ h.passed := by
    refine ⟨_, .step (.found new .committed) (.step (.beginPass new)
      (.step (.learn new) (.step (.dropShard old) (.step (.beginPass old)
        (.step (.learn old) (.step (.member (.registerNode new "b")) .refl
          trivial (.member (.registerNode new "b")))
          trivial (.learn rfl)) trivial (.beginPass rfl)) trivial hdrop)
        trivial (.learn hinbox)) trivial (.beginPass hidle)) rfl hfound, ?_⟩
    intro node hnode
    have hmember : node = old ∨ node = new := by
      rcases hnode with ((((((h | h) | h) | h) | h) | h) | h) | h
      · exact .inl ((mem_nodes_singleMeta old node).mp h)
      all_goals exact (mem_nodes_takeover old new node).mp h
    rcases hmember with heq | heq
    · rw [heq]
      refine .inl (.inl (.inl (.inr ⟨.inr ⟨rfl, ?_⟩, ?_, ?_⟩)))
      · have hread : (moved R xxh64 old new).inbox old = [] :=
          Function.update_self _ _ _
        exact fun req hreq => absurd (hread ▸ hreq) List.not_mem_nil
      · show s₁.stage old ≠ .idle
        rw [stage_setStage_self]
        simp
      · exact stage_setStage_self _
    · rw [heq]
      refine .inr ⟨.inr ⟨rfl, ?_⟩, ?_, ?_⟩
      · have hread : s₂.inbox new = [] := Function.update_self _ _ _
        exact fun req hreq => absurd (hread ▸ hreq) List.not_mem_nil
      · show s₃.stage new ≠ .idle
        rw [hstage]
        simp
      · exact stage_setStage_self _
  have hreplicas : s₄.replicas xxh64 "c" 0 = [new] :=
    (replicas_setState _ _).trans hmoved
  obtain ⟨r, hr, hholds⟩ := hall "c" 0 singleSchema (written R old)
    (run_written old trivial)
    (List.ne_nil_of_mem ((mem_replicas_singleMeta old old).mpr rfl)) 7 _
    (heldByAll_written R xxh64 old) h s₄ hsince hpassed
  rw [hreplicas, List.mem_singleton] at hr
  rw [hr] at hholds
  exact hnone _ _ hholds

end Replaced

end Rebalance

end Quorvec
