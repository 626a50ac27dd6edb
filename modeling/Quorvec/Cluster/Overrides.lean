import Quorvec.Cluster.Meta

/-!
# Shard-state overrides

An override names a shard of a collection and a node.  Dropping a collection
and removing a node take their overrides with them; setting the state of a
replica does not look whether the collection and the node are there.
-/

namespace Quorvec

namespace MetaState

/-- The key names a shard of an existing collection and a node of the
directory. -/
def NamesReplica (s : MetaState) (key : ReplicaKey) : Prop :=
  (∃ schema, s.collections[key.collection]? = some schema ∧
    key.shardIdx < schema.shardCount) ∧ key.nodeId ∈ s.nodes

/-- No override dangles. -/
def OverridesResolve (s : MetaState) : Prop :=
  ∀ key ∈ s.shardStates, s.NamesReplica key

/-- The states reached from the empty one by requests that are admitted. -/
inductive Applied (Admits : MetaState → MetaRequest → Prop) : MetaState → Prop
  | empty : Applied Admits .empty
  | apply {s : MetaState} (req : MetaRequest) : Applied Admits s →
      Admits s req → Applied Admits (s.apply req).1

end MetaState

/-- In every reached state no override dangles, and a collection that is
created, or a node that joins, starts with all its replicas active. -/
def NeverDangles (Admits : MetaState → MetaRequest → Prop) : Prop :=
  ∀ s, MetaState.Applied Admits s →
    s.OverridesResolve ∧
    (∀ name, name ∉ s.collections → ∀ schema shardIdx node,
      (s.apply (.createCollection name schema)).1.shardState name shardIdx
        node = .active) ∧
    ∀ node, node ∉ s.nodes → ∀ addr collection shardIdx,
      (s.apply (.registerNode node addr)).1.shardState collection shardIdx
        node = .active

/-- The state of a replica is set to something else than active only while the
replica is there. -/
def MetaRequest.Resolves (s : MetaState) : MetaRequest → Prop
  | .setShardState collection shardIdx nodeId state =>
      state ≠ .active → s.NamesReplica { collection, shardIdx, nodeId }
  | _ => True

namespace MetaState

variable {s : MetaState}

theorem overridesResolve_empty : empty.OverridesResolve := by
  intro key hkey
  exact absurd hkey Std.ExtTreeMap.not_mem_empty

theorem OverridesResolve.of_subset (h : s.OverridesResolve) {s' : MetaState}
    (hkept : ∀ key ∈ s'.shardStates, key ∈ s.shardStates ∧
      (s.NamesReplica key → s'.NamesReplica key)) :
    s'.OverridesResolve := by
  intro key hkey
  obtain ⟨hold, hnames⟩ := hkept key hkey
  exact hnames (h key hold)

theorem mem_filter_keys {p : ReplicaKey → Bool} {key : ReplicaKey} :
    key ∈ s.shardStates.filter (fun key _ => p key) ↔
      key ∈ s.shardStates ∧ p key := by
  simp [Std.ExtTreeMap.mem_filter]

theorem OverridesResolve.apply (h : s.OverridesResolve) {req : MetaRequest}
    (hreq : req.Resolves s) : (s.apply req).1.OverridesResolve := by
  cases req with
  | registerNode node addr =>
    refine h.of_subset fun key hkey => ⟨hkey, fun hnames => ?_⟩
    exact ⟨hnames.1, Std.ExtTreeMap.mem_insert.mpr (.inr hnames.2)⟩
  | deregisterNode node =>
    refine h.of_subset fun key hkey => ?_
    obtain ⟨hold, hne⟩ := mem_filter_keys.mp hkey
    refine ⟨hold, fun hnames => ⟨hnames.1, ?_⟩⟩
    refine Std.ExtTreeMap.mem_erase.mpr ⟨?_, hnames.2⟩
    rw [ne_eq, Std.compare_eq_iff_eq]
    exact fun heq => by simp [heq] at hne
  | createCollection name schema =>
    by_cases hname : name ∈ s.collections
    · simpa only [MetaState.apply, if_pos hname] using h
    · simp only [MetaState.apply, if_neg hname]
      refine h.of_subset fun key hkey => ⟨hkey, fun hnames => ?_⟩
      obtain ⟨⟨known, hknown, hlt⟩, hnode⟩ := hnames
      refine ⟨⟨known, ?_, hlt⟩, hnode⟩
      have hne : name ≠ key.collection := fun heq =>
        hname (heq ▸ Std.ExtTreeMap.mem_iff_isSome_getElem?.mpr
          (by rw [hknown]; rfl))
      rw [Std.ExtTreeMap.getElem?_insert, if_neg]
      · exact hknown
      · rwa [Std.compare_eq_iff_eq]
  | dropCollection name =>
    refine h.of_subset fun key hkey => ?_
    obtain ⟨hold, hne⟩ := mem_filter_keys.mp hkey
    refine ⟨hold, fun hnames => ⟨?_, hnames.2⟩⟩
    obtain ⟨known, hknown, hlt⟩ := hnames.1
    refine ⟨known, ?_, hlt⟩
    simp only [MetaState.apply]
    rw [Std.ExtTreeMap.getElem?_erase, if_neg]
    · exact hknown
    · rw [Std.compare_eq_iff_eq]
      exact fun heq => by simp [heq] at hne
  | setShardState collection shardIdx node state =>
    intro key hkey
    simp only [MetaState.apply] at hkey
    split_ifs at hkey with hactive
    · exact h key (Std.ExtTreeMap.mem_of_mem_erase hkey)
    · rcases Std.ExtTreeMap.mem_insert.mp hkey with heq | hold
      · rw [← Std.LawfulEqOrd.eq_of_compare heq]
        exact hreq hactive
      · exact h key hold
  | noop => exact h

theorem resolves_of_apply {req : MetaRequest}
    (h : (s.apply req).1.OverridesResolve) : req.Resolves s := by
  cases req with
  | setShardState collection shardIdx node state =>
    intro hactive
    refine h { collection, shardIdx, nodeId := node } ?_
    simp [MetaState.apply, hactive]
  | _ => trivial

theorem shardState_of_not_mem {collection : String} {shardIdx : UInt32}
    {node : NodeId}
    (h : ({ collection, shardIdx, nodeId := node } : ReplicaKey) ∉
      s.shardStates) : s.shardState collection shardIdx node = .active := by
  rw [shardState, Std.ExtTreeMap.getElem?_eq_none h]
  rfl

theorem OverridesResolve.shardState_of_absent (h : s.OverridesResolve)
    {collection : String} {shardIdx : UInt32} {node : NodeId}
    (habsent : collection ∉ s.collections ∨ node ∉ s.nodes) :
    s.shardState collection shardIdx node = .active := by
  refine shardState_of_not_mem fun hkey => ?_
  obtain ⟨⟨schema, hschema, -⟩, hnode⟩ := h _ hkey
  rcases habsent with hname | hout
  · refine hname (Std.ExtTreeMap.mem_iff_isSome_getElem?.mpr ?_)
    rw [hschema]
    rfl
  · exact hout hnode

theorem Applied.overridesResolve {Admits : MetaState → MetaRequest → Prop}
    (hresolves : ∀ s, Applied Admits s → ∀ req, Admits s req → req.Resolves s)
    (h : Applied Admits s) : s.OverridesResolve := by
  induction h with
  | empty => exact overridesResolve_empty
  | apply req hs hreq ih => exact ih.apply (hresolves _ hs req hreq)

end MetaState

/-- No override ever dangles exactly if states are only set for replicas that
are there. -/
theorem neverDangles_iff (Admits : MetaState → MetaRequest → Prop) :
    NeverDangles Admits ↔
      ∀ s, MetaState.Applied Admits s → ∀ req, Admits s req →
        req.Resolves s := by
  constructor
  · intro hnever s hs req hreq
    exact MetaState.resolves_of_apply (hnever _ (hs.apply req hreq)).1
  · intro hresolves s hs
    have hresolve := hs.overridesResolve hresolves
    refine ⟨hresolve, fun name hname schema shardIdx node => ?_,
      fun node hnode addr collection shardIdx => ?_⟩
    · rw [MetaState.apply, if_neg hname]
      exact hresolve.shardState_of_absent (.inl hname)
    · exact hresolve.shardState_of_absent (.inr hnode)

/-- The state that a pass sets commits after the collection has been dropped;
when the name is used again, the replica is syncing. -/
theorem not_neverDangles : ¬ NeverDangles fun _ _ => True := by
  intro hall
  let schema : CollectionSchema :=
    { dim := 1, metric := .l2, shardCount := 1, replicationN := 1 }
  have hempty : MetaState.Applied (fun _ _ => True) .empty := .empty
  have hdropped := ((hempty.apply (.registerNode 1 "a") trivial).apply
    (.createCollection "c" schema) trivial).apply (.dropCollection "c") trivial
  have hlate := hdropped.apply (.setShardState "c" 0 1 .syncing) trivial
  have hactive := (hall _ hlate).2.1 "c" (by decide +kernel) schema 0 1
  exact absurd hactive (by decide +kernel)

end Quorvec
