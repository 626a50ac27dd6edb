import Quorvec.Hnsw.ScoreOrder
import Quorvec.Hnsw.Traversal
import Quorvec.Hnsw.VectorIndex

/-!
# The structure of the graph

Every adjacency list is tidy: it has no duplicates, does not hold its own node
and is no longer than its layer permits.  Wiring replaces one list at a time.
While a layer is wired, the new node is listed by no node that has not been
linked back, so the search of the layer does not find it and linking back
duplicates nothing.
-/

namespace Quorvec

open TotalCorrectness PartialCorrectness

/-- The adjacency list of a node on a layer, if both exist. -/
def adjacency (nodes : Nodes) (i layer : ℕ) : Option (List ℕ) :=
  nodes[i]?.bind fun node => node.neighbors[layer]?

/-- No duplicate, no self-loop, no more than `m` neighbours. -/
structure TidyList (m i : ℕ) (adj : List ℕ) : Prop where
  nodup : adj.Nodup
  not_self : i ∉ adj
  length_le : adj.length ≤ m

def Tidy (mMax : ℕ → ℕ) (nodes : Nodes) : Prop :=
  ∀ i layer adj, adjacency nodes i layer = some adj →
    TidyList (mMax layer) i adj

/-- No node lists `new` on the layer. -/
def Unlisted (nodes : Nodes) (new layer : ℕ) : Prop :=
  ∀ i adj, adjacency nodes i layer = some adj → new ∉ adj

/-- One adjacency list has been replaced. -/
structure Relisted (nodes : Nodes) (i layer : ℕ) (adj : List ℕ)
    (nodes' : Nodes) : Prop where
  shape_eq : shape nodes' = shape nodes
  self : adjacency nodes' i layer = some adj
  other : ∀ i' l', ¬(i' = i ∧ l' = layer) →
    adjacency nodes' i' l' = adjacency nodes i' l'

/-- The graph is tidy and only one layer of it has changed. -/
structure Rewired (mMax : ℕ → ℕ) (layer : ℕ) (nodes nodes' : Nodes) :
    Prop where
  shape_eq : shape nodes' = shape nodes
  tidy : Tidy mMax nodes'
  other : ∀ i l, l ≠ layer → adjacency nodes' i l = adjacency nodes i l

section Wiring

variable {K : Kernel} {metric : Metric} {nodes : Nodes} {layer : ℕ}
variable {mMax : ℕ → ℕ}

theorem adjacency_eq_some {i : ℕ} {adj : List ℕ} :
    adjacency nodes i layer = some adj ↔
      ∃ node, nodes[i]? = some node ∧ node.neighbors[layer]? = some adj :=
  Option.bind_eq_some_iff

theorem linked_iff_adjacency :
    Linked nodes ↔ ∀ i layer adj, adjacency nodes i layer = some adj →
      AllHaveLayer nodes layer adj := by
  constructor
  · intro h i layer adj hadj
    obtain ⟨node, hnode, hlist⟩ := adjacency_eq_some.mp hadj
    exact h node (List.mem_of_getElem? hnode) layer adj hlist
  · intro h node hnode layer adj hlist
    obtain ⟨i, hi⟩ := List.mem_iff_getElem?.mp hnode
    exact h i layer adj (adjacency_eq_some.mpr ⟨node, hi, hlist⟩)

theorem exists_adjacency {i n : ℕ} {node : Node} (hnode : nodes[i]? = some node)
    (hn : n ∈ node.layerOrEmpty layer) :
    ∃ adj, adjacency nodes i layer = some adj ∧ n ∈ adj := by
  obtain ⟨adj, hadj, hmem⟩ := Node.exists_of_mem_layerOrEmpty hn
  exact ⟨adj, adjacency_eq_some.mpr ⟨node, hnode, hadj⟩, hmem⟩

theorem Unlisted.closedOn {new : ℕ} (h : Unlisted nodes new layer) :
    ClosedOn nodes layer (· ≠ new) := by
  rintro i node - hnode n hn rfl
  obtain ⟨adj, hadj, hmem⟩ := exists_adjacency hnode hn
  exact h i adj hadj hmem

theorem Tidy.relisted {i : ℕ} {adj : List ℕ} {nodes' : Nodes}
    (h : Tidy mMax nodes) (hr : Relisted nodes i layer adj nodes')
    (hadj : TidyList (mMax layer) i adj) : Tidy mMax nodes' := by
  intro i' l' adj' hadj'
  by_cases hsame : i' = i ∧ l' = layer
  · obtain ⟨rfl, rfl⟩ := hsame
    rw [hr.self, Option.some.injEq] at hadj'
    exact hadj' ▸ hadj
  · rw [hr.other i' l' hsame] at hadj'
    exact h i' l' adj' hadj'

theorem modifyLayer_ensures (i : ℕ) (f : List ℕ → List ℕ) :
    Ensures (modifyLayer nodes i layer f) (fun nodes' =>
      ∃ adj, adjacency nodes i layer = some adj ∧
        Relisted nodes i layer (f adj) nodes') := by
  refine (nodeAt_ensures i).bind fun node hnode => ?_
  refine (layerAt_ensures node layer).bind fun adj hadj => ?_
  have hi := (List.getElem?_eq_some_iff.mp hnode).1
  have hlayer := (List.getElem?_eq_some_iff.mp hadj).1
  refine Ensures.pure ⟨adj, adjacency_eq_some.mpr ⟨node, hnode, hadj⟩,
    shape_set hnode _, ?_, ?_⟩
  · rw [adjacency, List.getElem?_set_self hi, Option.bind_some]
    exact List.getElem?_set_self hlayer
  · intro i' l' hne
    rw [adjacency, adjacency]
    by_cases hsame : i = i'
    · subst hsame
      rw [List.getElem?_set_self hi, hnode, Option.bind_some,
        Option.bind_some]
      exact List.getElem?_set_ne fun hl => hne ⟨rfl, hl.symm⟩
    · rw [List.getElem?_set_ne hsame]

theorem candidateOf_ensures (base : List F32) (n : ℕ) :
    Ensures (candidateOf K metric nodes base n) (fun c => c.node = n) :=
  (Ensures.intro _).bind fun _ _ => Ensures.pure rfl

theorem pruneNeighbors_ensures (node m : ℕ) :
    Ensures (pruneNeighbors K metric nodes node layer m) (fun nodes' =>
      ∃ adj kept, adjacency nodes node layer = some adj ∧ kept.Subperm adj ∧
        kept.length ≤ m ∧ Relisted nodes node layer kept nodes') := by
  refine (Ensures.intro _).bind fun base _ => ?_
  refine (nodeAt_ensures node).bind fun self hself => ?_
  refine (layerAt_ensures self layer).bind fun current hcurrent => ?_
  refine (Ensures.mapM_map fun n => candidateOf_ensures _ n).bind
    fun cands hcands => ?_
  refine selectNeighborsHeuristic_ensures.bind fun kept hkept => ?_
  rw [hcands] at hkept
  refine (modifyLayer_ensures node fun _ => kept).mono fun nodes' hnodes' => ?_
  obtain ⟨adj, hadj, hrelisted⟩ := hnodes'
  have hsame : adj = current := Option.some.inj (hadj.symm.trans
    (adjacency_eq_some.mpr ⟨self, hself, hcurrent⟩))
  exact ⟨adj, kept, hadj, hsame ▸ hkept.1, hkept.2, hrelisted⟩

theorem Relisted.trans {i : ℕ} {adj adj' : List ℕ} {nodes' nodes'' : Nodes}
    (h : Relisted nodes i layer adj nodes')
    (h' : Relisted nodes' i layer adj' nodes'') :
    Relisted nodes i layer adj' nodes'' where
  shape_eq := h'.shape_eq.trans h.shape_eq
  self := h'.self
  other i' l' hne := (h'.other i' l' hne).trans (h.other i' l' hne)

/-- Linking back leaves the neighbour some of its list and the new node. -/
theorem linkBack_ensures (newIdx m nbr : ℕ) :
    Ensures (linkBack K metric newIdx layer m nodes nbr) (fun nodes' =>
      ∃ adj kept, adjacency nodes nbr layer = some adj ∧
        kept.Subperm (adj ++ [newIdx]) ∧ kept.length ≤ m ∧
          Relisted nodes nbr layer kept nodes') := by
  refine (modifyLayer_ensures nbr _).bind fun nodes' hnodes' => ?_
  obtain ⟨adj, hadj, hpushed⟩ := hnodes'
  refine (nodeAt_ensures nbr).bind fun node hnode => ?_
  refine (layerAt_ensures node layer).bind fun pushed hlist => ?_
  have hsame : pushed = adj ++ [newIdx] := Option.some.inj
    ((adjacency_eq_some.mpr ⟨node, hnode, hlist⟩).symm.trans hpushed.self)
  split_ifs with hfull
  · refine (pruneNeighbors_ensures nbr m).mono fun nodes'' hnodes'' => ?_
    obtain ⟨adj', kept, hadj', hsub, hlength, hkept⟩ := hnodes''
    rw [hpushed.self, Option.some.injEq] at hadj'
    exact ⟨adj, kept, hadj, hadj' ▸ hsub, hlength, hpushed.trans hkept⟩
  · exact Ensures.pure ⟨adj, adj ++ [newIdx], hadj, List.Subperm.refl _,
      hsame ▸ not_lt.mp hfull, hpushed⟩

/-- A neighbour that does not list the new node keeps a tidy list. -/
theorem TidyList.linked {m i new : ℕ} {adj kept : List ℕ}
    (h : TidyList m i adj) (hnew : new ∉ adj) (hne : i ≠ new)
    (hsub : kept.Subperm (adj ++ [new])) (hlength : kept.length ≤ m) :
    TidyList m i kept where
  nodup := by
    have hpushed : (adj ++ [new]).Nodup := by
      rw [List.nodup_append]
      refine ⟨h.nodup, List.nodup_singleton new, fun a ha b hb => ?_⟩
      rintro rfl
      exact hnew (List.mem_singleton.mp hb ▸ ha)
    simpa using nodup_map_of_subperm (f := id) hsub (by simpa using hpushed)
  not_self hmem := by
    rcases List.mem_append.mp (hsub.subset hmem) with hold | hold
    · exact h.not_self hold
    · exact hne (List.mem_singleton.mp hold)
  length_le := hlength

/-- Linking back from all selected neighbours. -/
theorem linkAll_ensures {newIdx : ℕ} {selected : List ℕ}
    (htidy : Tidy mMax nodes) (hnodup : selected.Nodup)
    (hnew : newIdx ∉ selected)
    (hunlisted : ∀ nbr ∈ selected, ∀ adj,
      adjacency nodes nbr layer = some adj → newIdx ∉ adj) :
    Ensures (selected.foldlM
      (linkBack K metric newIdx layer (mMax layer)) nodes)
      (Rewired mMax layer nodes) := by
  refine (Ensures.foldlM (fun rest nodes' => rest.Nodup ∧ newIdx ∉ rest ∧
    (∀ nbr ∈ rest, ∀ adj, adjacency nodes' nbr layer = some adj →
      newIdx ∉ adj) ∧ Rewired mMax layer nodes nodes')
    ⟨hnodup, hnew, hunlisted, rfl, htidy, fun _ _ _ => rfl⟩ ?_).mono
      fun nodes' h => h.2.2.2
  rintro nodes' nbr rest ⟨hnodup, hnew, hunlisted, hrewired⟩
  rw [List.nodup_cons] at hnodup
  rw [List.mem_cons, not_or] at hnew
  refine (linkBack_ensures newIdx (mMax layer) nbr).mono fun nodes'' h => ?_
  obtain ⟨adj, kept, hadj, hsub, hlength, hrelisted⟩ := h
  refine ⟨hnodup.2, hnew.2, ?_, hrelisted.shape_eq.trans hrewired.shape_eq,
    ?_, ?_⟩
  · intro nbr' hnbr' adj' hadj'
    -- the neighbours still to come are other nodes
    have hne : nbr' ≠ nbr := fun heq => hnodup.1 (heq ▸ hnbr')
    rw [hrelisted.other nbr' layer fun hsame => hne hsame.1] at hadj'
    exact hunlisted nbr' (List.mem_cons_of_mem _ hnbr') adj' hadj'
  · exact hrewired.tidy.relisted hrelisted
      ((hrewired.tidy nbr layer adj hadj).linked
        (hunlisted nbr List.mem_cons_self adj hadj) (Ne.symm hnew.1) hsub
        hlength)
  · intro i l hl
    rw [hrelisted.other i l fun hsame => hl hsame.2]
    exact hrewired.other i l hl

/-- Wiring one layer. -/
theorem connectLayer_ensures {efConstruction newIdx entry : ℕ}
    {vector : List F32} (htidy : Tidy mMax nodes)
    (hunlisted : Unlisted nodes newIdx layer) (hentry : entry ≠ newIdx) :
    Ensures (connectLayer K metric efConstruction (mMax layer) vector newIdx
      nodes entry layer)
      (fun r => Rewired mMax layer nodes r.1 ∧ r.2 ≠ newIdx) := by
  refine (searchLayer_ensures hunlisted.closedOn hentry).bind
    fun found hfound => ?_
  refine selectNeighborsHeuristic_ensures.bind fun selected hselected => ?_
  have hnodup : selected.Nodup := by
    have hmap := nodup_map_of_subperm (f := id) hselected.1
      (by simpa using hfound.2)
    simpa using hmap
  have hnew : newIdx ∉ selected := by
    intro hmem
    obtain ⟨c, hc, hnode⟩ := List.mem_map.mp (hselected.1.subset hmem)
    exact hfound.1 c hc hnode
  refine (modifyLayer_ensures newIdx _).bind fun nodes' hnodes' => ?_
  obtain ⟨-, -, hrelisted⟩ := hnodes'
  have htidy' : Tidy mMax nodes' :=
    htidy.relisted hrelisted ⟨hnodup, hnew, hselected.2⟩
  refine (linkAll_ensures htidy' hnodup hnew ?_).bind
    fun nodes'' hrewired => ?_
  · intro nbr hnbr adj hadj
    have hne : nbr ≠ newIdx := fun heq => hnew (heq ▸ hnbr)
    rw [hrelisted.other nbr layer fun hsame => hne hsame.1] at hadj
    exact hunlisted nbr adj hadj
  · refine Ensures.pure ⟨⟨hrewired.shape_eq.trans hrelisted.shape_eq,
      hrewired.tidy, ?_⟩, ?_⟩
    · intro i l hl
      rw [hrewired.other i l hl]
      exact hrelisted.other i l fun hsame => hl hsame.2
    · dsimp only
      cases hnearest : Candidate.nearest K found with
      | none => exact hentry
      | some c => exact hfound.1 c (Candidate.nearest_mem K hnearest)

/-- Wiring a node that no layer lists yet. -/
theorem connectLayers_ensures {efConstruction newIdx entry layers : ℕ}
    {vector : List F32} (htidy : Tidy mMax nodes)
    (hunlisted : ∀ l < layers, Unlisted nodes newIdx l)
    (hentry : entry ≠ newIdx) :
    Ensures (connectLayers K metric efConstruction mMax vector newIdx layers
      nodes entry)
      (fun nodes' => shape nodes' = shape nodes ∧ Tidy mMax nodes') := by
  induction layers generalizing nodes entry with
  | zero => exact Ensures.pure ⟨rfl, htidy⟩
  | succ layer ih =>
      rw [connectLayers]
      refine (connectLayer_ensures htidy
        (hunlisted layer (Nat.lt_succ_self _)) hentry).bind ?_
      rintro ⟨nodes', entry'⟩ ⟨hrewired, hentry'⟩
      refine (ih hrewired.tidy ?_ hentry').mono fun nodes'' h =>
        ⟨h.1.trans hrewired.shape_eq, h.2⟩
      intro l hl i adj hadj
      rw [hrewired.other i l hl.ne] at hadj
      exact hunlisted l (Nat.lt_succ_of_lt hl) i adj hadj

/-- A layer that has been wired fits its capacity; the base layer is always
wired last. -/
theorem connectLayers_fits {efConstruction newIdx entry layers : ℕ}
    {vector : List F32} :
    Ensures (connectLayers K metric efConstruction mMax vector newIdx
      (layers + 1) nodes entry) (fun _ => 4 * mMax 0 < 2 ^ 63) := by
  induction layers generalizing nodes entry with
  | zero =>
      rw [connectLayers, connectLayer]
      by_cases hm : 4 * mMax 0 < 2 ^ 63
      · exact fun _ _ => hm
      · simp only [selectNeighborsHeuristic_of_not_lt K metric nodes hm,
          bind_assoc]
        exact (Ensures.intro _).bind fun _ _ => Ensures.error
  | succ layers ih =>
      rw [connectLayers]
      exact (Ensures.intro _).bind fun _ _ => ih

theorem connectLayer_shape {efConstruction m newIdx entry : ℕ}
    {vector : List F32} :
    Ensures (connectLayer K metric efConstruction m vector newIdx nodes entry
      layer) (fun r => shape r.1 = shape nodes) := by
  refine (Ensures.intro _).bind fun found _ => (Ensures.intro _).bind
    fun selected _ => (modifyLayer_ensures newIdx _).bind fun nodes' h => ?_
  obtain ⟨-, -, hrelisted⟩ := h
  refine (Ensures.foldlM (fun _ nodes'' => shape nodes'' = shape nodes)
    hrelisted.shape_eq ?_).bind fun nodes'' h => Ensures.pure h
  intro nodes'' nbr rest h
  refine (linkBack_ensures newIdx m nbr).mono fun nodes₃ hlinked => ?_
  obtain ⟨_, _, _, _, _, hrelisted'⟩ := hlinked
  exact hrelisted'.shape_eq.trans h

theorem connectLayers_shape {efConstruction newIdx entry layers : ℕ}
    {vector : List F32} :
    Ensures (connectLayers K metric efConstruction mMax vector newIdx layers
      nodes entry) (fun nodes' => shape nodes' = shape nodes) := by
  induction layers generalizing nodes entry with
  | zero => exact Ensures.pure rfl
  | succ layers ih =>
      rw [connectLayers]
      exact connectLayer_shape.bind fun r hr =>
        ih.mono fun nodes' h => h.trans hr

end Wiring

/-! ## The entry point -/

/-- No node reaches higher. -/
def IsTop (nodes : Nodes) (e : ℕ) : Prop :=
  ∃ node, nodes[e]? = some node ∧
    ∀ other ∈ nodes, other.neighbors.length ≤ node.neighbors.length

theorem isTop_iff_shape {nodes : Nodes} {e : ℕ} :
    IsTop nodes e ↔ ∃ s, (shape nodes)[e]? = some s ∧
      ∀ t ∈ shape nodes, t.2.2 ≤ s.2.2 := by
  simp only [IsTop, shape, List.getElem?_map, Option.map_eq_some_iff,
    List.forall_mem_map]
  constructor
  · rintro ⟨node, hnode, hle⟩
    exact ⟨_, ⟨node, hnode, rfl⟩, hle⟩
  · rintro ⟨_, ⟨node, hnode, rfl⟩, hle⟩
    exact ⟨node, hnode, hle⟩

theorem IsTop.of_shape_eq {nodes nodes' : Nodes} {e : ℕ}
    (h : IsTop nodes e) (hshape : shape nodes' = shape nodes) :
    IsTop nodes' e := by
  rw [isTop_iff_shape, hshape]
  exact isTop_iff_shape.mp h

theorem topLayer_ensures (node : Node) :
    Ensures node.topLayer (fun top => node.neighbors.length = top + 1) := by
  intro top htop
  rw [Node.topLayer] at htop
  split at htop
  · simp at htop
  · next n heq => rw [heq, Except.ok.inj htop]

namespace HnswIndex

variable {K : Kernel} {idx : HnswIndex}

/-- The structure that every operation keeps. -/
structure WellFormed (idx : HnswIndex) : Prop where
  valid : idx.Valid
  degrees : idx.params.m ≤ idx.params.m0
  tidy : Tidy (mMax idx.params) idx.nodes
  entry_none : idx.entryPoint = none → idx.nodes = []
  entry_top : ∀ e, idx.entryPoint = some e → IsTop idx.nodes e

/-- The lists after the allocation: the old ones, and empty ones. -/
theorem adjacency_allocate {nodeLevel : ℕ} {rng : SplitMix64} {id : UInt64}
    {vector : List F32} {i layer : ℕ} {adj : List ℕ}
    (hadj : adjacency (idx.allocate nodeLevel rng id vector).nodes i layer =
      some adj) :
    adjacency idx.nodes i layer = some adj ∨ adj = [] := by
  obtain ⟨node, hnode, hlist⟩ := adjacency_eq_some.mp hadj
  rw [allocate] at hnode
  dsimp only at hnode
  rcases lt_or_ge i idx.nodes.length with hi | hi
  · rw [List.getElem?_append_left hi] at hnode
    exact Or.inl (adjacency_eq_some.mpr ⟨node, hnode, hlist⟩)
  · right
    rw [List.getElem?_append_right hi, List.getElem?_singleton] at hnode
    split_ifs at hnode
    rw [← Option.some.inj hnode, List.getElem?_replicate] at hlist
    split_ifs at hlist
    exact (Option.some.inj hlist).symm

theorem tidy_allocate (h : Tidy (mMax idx.params) idx.nodes)
    (nodeLevel : ℕ) (rng : SplitMix64) (id : UInt64) (vector : List F32) :
    Tidy (mMax idx.params) (idx.allocate nodeLevel rng id vector).nodes := by
  intro i layer adj hadj
  rcases adjacency_allocate hadj with hold | rfl
  · exact h i layer adj hold
  · exact ⟨List.nodup_nil, List.not_mem_nil, Nat.zero_le _⟩

theorem unlisted_allocate (h : Linked idx.nodes) (nodeLevel : ℕ)
    (rng : SplitMix64) (id : UInt64) (vector : List F32) (layer : ℕ) :
    Unlisted (idx.allocate nodeLevel rng id vector).nodes idx.nodes.length
      layer := by
  intro i adj hadj hmem
  rcases adjacency_allocate hadj with hold | rfl
  · obtain ⟨node, hnode, -⟩ :=
      linked_iff_adjacency.mp h i layer adj hold _ hmem
    exact (List.getElem?_eq_some_iff.mp hnode).1.ne rfl
  · simp at hmem

/-- The higher one of the entry and the new node is the next entry. -/
theorem connect_ensures {entry newIdx nodeLevel : ℕ} {node new : Node}
    {vector : List F32}
    (htidy : Tidy (mMax idx.params) idx.nodes)
    (hunlisted : ∀ layer, Unlisted idx.nodes newIdx layer)
    (hentry : idx.entryPoint = some entry) (hne : entry ≠ newIdx)
    (hnode : idx.nodes[entry]? = some node)
    (hnew : idx.nodes[newIdx]? = some new)
    (hlevel : new.neighbors.length = nodeLevel + 1)
    (htop : ∀ other ∈ idx.nodes, other.neighbors.length ≤
      max node.neighbors.length new.neighbors.length) :
    Ensures (idx.connect K entry nodeLevel newIdx vector) (fun idx' =>
      idx'.params = idx.params ∧ Tidy (mMax idx.params) idx'.nodes ∧
        ∃ e, idx'.entryPoint = some e ∧ IsTop idx'.nodes e) := by
  refine (nodeAt_ensures entry).bind fun node' hnode' => ?_
  rw [hnode, Option.some.injEq] at hnode'
  subst hnode'
  refine (topLayer_ensures node).bind fun entryLevel hentryLevel => ?_
  refine (descend_ensures (fun layer => (hunlisted layer).closedOn)
    hne).bind fun curr hcurr => ?_
  refine (connectLayers_ensures htidy (fun l _ => hunlisted l)
    hcurr).bind fun nodes hnodes => ?_
  refine Ensures.pure ⟨rfl, hnodes.2, ?_⟩
  dsimp only
  split_ifs with hrises
  · refine ⟨newIdx, rfl, IsTop.of_shape_eq ⟨new, hnew, ?_⟩ hnodes.1⟩
    intro other hother
    have hle := htop other hother
    omega
  · refine ⟨entry, hentry, IsTop.of_shape_eq ⟨node, hnode, ?_⟩ hnodes.1⟩
    intro other hother
    have hle := htop other hother
    omega

/-- The structure after a new node has been wired. -/
structure Entered (idx idx' : HnswIndex) : Prop where
  params : idx'.params = idx.params
  tidy : Tidy (mMax idx.params) idx'.nodes
  entry : ∃ e, idx'.entryPoint = some e ∧ IsTop idx'.nodes e

theorem insertNew_ensures (h : idx.WellFormed) (id : UInt64)
    (vector : List F32) :
    Ensures (idx.insertNew K id vector) (Entered idx) := by
  have htidy := tidy_allocate h.tidy (idx.randomLevel K).1
    (idx.randomLevel K).2 id vector
  cases hentry : idx.entryPoint with
  | none =>
      rw [insertNew_of_none hentry]
      refine Ensures.pure ⟨rfl, htidy, idx.nodes.length, rfl, _,
        getElem?_allocate (idx.randomLevel K).1 (idx.randomLevel K).2 id
          vector, ?_⟩
      intro other hother
      rcases List.mem_append.mp hother with hold | hnew
      · rw [h.entry_none hentry] at hold
        simp at hold
      · rw [List.mem_singleton.mp hnew]
  | some entry =>
      rw [insertNew_of_some hentry]
      obtain ⟨node, hnode, htop⟩ := h.entry_top entry hentry
      have hlt := (List.getElem?_eq_some_iff.mp hnode).1
      refine (connect_ensures htidy
        (unlisted_allocate h.valid.linked _ _ id vector) hentry hlt.ne
        ((List.getElem?_append_left hlt).trans hnode)
        (getElem?_allocate ..) (List.length_replicate ..) ?_).mono
          fun idx' hidx' => ⟨hidx'.1, hidx'.2.1, hidx'.2.2⟩
      intro other hother
      rcases List.mem_append.mp hother with hold | hnew
      · exact le_max_of_le_left (htop other hold)
      · rw [List.mem_singleton.mp hnew]
        exact le_max_right _ _

/-! ## Replacing and deleting -/

theorem WellFormed.of_same_graph {idx' : HnswIndex} (h : idx.WellFormed)
    (hvalid : idx'.Valid) (hparams : idx'.params = idx.params)
    (hentry : idx'.entryPoint = idx.entryPoint)
    (hadj : ∀ i l, adjacency idx'.nodes i l = adjacency idx.nodes i l)
    (hlength : idx'.nodes.length = idx.nodes.length)
    (htop : ∀ e, IsTop idx.nodes e → IsTop idx'.nodes e) :
    idx'.WellFormed where
  valid := hvalid
  degrees := hparams ▸ h.degrees
  tidy i layer adj hlist := by
    rw [hparams]
    exact h.tidy i layer adj (hadj i layer ▸ hlist)
  entry_none hnone := by
    rw [← List.length_eq_zero_iff, hlength, List.length_eq_zero_iff]
    exact h.entry_none (hentry ▸ hnone)
  entry_top e he := htop e (h.entry_top e (hentry ▸ he))

section SetVector

variable {nodes : Nodes} {i : ℕ} {node : Node}

theorem adjacency_set_vector (hnode : nodes[i]? = some node)
    (vector : List F32) (j layer : ℕ) :
    adjacency (nodes.set i { node with vector }) j layer =
      adjacency nodes j layer := by
  have hi := (List.getElem?_eq_some_iff.mp hnode).1
  rw [adjacency, adjacency]
  by_cases hij : i = j
  · subst hij
    rw [List.getElem?_set_self hi, hnode, Option.bind_some, Option.bind_some]
  · rw [List.getElem?_set_ne hij]

theorem isTop_set_vector (hnode : nodes[i]? = some node) (vector : List F32)
    {e : ℕ} (h : IsTop nodes e) :
    IsTop (nodes.set i { node with vector }) e := by
  have hi := (List.getElem?_eq_some_iff.mp hnode).1
  obtain ⟨top, htop, hle⟩ := h
  have hall : ∀ other ∈ nodes.set i { node with vector },
      other.neighbors.length ≤ top.neighbors.length := by
    intro other hother
    rcases List.mem_or_eq_of_mem_set hother with hold | rfl
    · exact hle other hold
    · exact hle node (List.mem_of_getElem? hnode)
  by_cases hie : i = e
  · subst hie
    rw [hnode, Option.some.injEq] at htop
    subst htop
    exact ⟨_, List.getElem?_set_self hi, hall⟩
  · exact ⟨top, by rw [List.getElem?_set_ne hie, htop], hall⟩

end SetVector

theorem overwrite_ensures (i : ℕ) (vector : List F32) :
    Ensures (idx.overwrite i vector) (fun idx' =>
      idx'.params = idx.params ∧ idx'.entryPoint = idx.entryPoint ∧
        ∃ node, idx.nodes[i]? = some node ∧
          idx'.nodes = idx.nodes.set i { node with vector }) := by
  refine (nodeAt_ensures i).bind fun node hnode => ?_
  split_ifs
  · exact Ensures.error
  · dsimp only
    split
    · exact Ensures.error
    · exact Ensures.pure ⟨rfl, rfl, node, hnode, rfl⟩
    · exact Ensures.pure ⟨rfl, rfl, node, hnode, rfl⟩

theorem connect_fits (hdegrees : idx.params.m ≤ idx.params.m0)
    {entry nodeLevel newIdx : ℕ} {vector : List F32} :
    Ensures (idx.connect K entry nodeLevel newIdx vector)
      (fun _ => idx.params.Fits) := by
  refine (Ensures.intro _).bind fun _ _ => (Ensures.intro _).bind
    fun _ _ => (Ensures.intro _).bind fun _ _ => ?_
  refine connectLayers_fits.bind fun _ hfits => Ensures.pure ?_
  have hm0 : 4 * idx.params.m0 < 2 ^ 63 := hfits
  constructor <;> omega

/-- An insert that returns has updated the store. -/
theorem insert_ensures (h : idx.WellFormed) (id : UInt64)
    {vector : List F32} (hdim : vector.length = idx.dim) :
    Ensures (idx.insert K id vector) (Updated idx id (some vector)) := by
  intro idx' hinsert
  rw [insert, if_neg (not_not_intro hdim)] at hinsert
  cases hid : idx.idToNode[id]? with
  | some i =>
      rw [hid] at hinsert
      exact (overwrite_returns h.valid hid hdim).of_eq_ok hinsert
  | none =>
      rw [hid] at hinsert
      refine (insertNew_returns (fun hsome => ?_) h.valid hid hdim).of_eq_ok
        hinsert
      obtain ⟨entry, hentry⟩ := Option.ne_none_iff_exists'.mp hsome
      rw [insertNew_of_some hentry] at hinsert
      have hdegrees : (idx.allocate (idx.randomLevel K).1
          (idx.randomLevel K).2 id vector).params.m ≤ idx.params.m0 :=
        h.degrees
      exact connect_fits hdegrees idx' hinsert

theorem insert_wellFormed (h : idx.WellFormed) (id : UInt64)
    {vector : List F32} (hdim : vector.length = idx.dim) :
    Ensures (idx.insert K id vector) WellFormed := by
  intro idx' hinsert
  have hupdated := insert_ensures h id hdim idx' hinsert
  rw [insert, if_neg (not_not_intro hdim)] at hinsert
  cases hid : idx.idToNode[id]? with
  | none =>
      rw [hid] at hinsert
      have hentered := insertNew_ensures h id vector idx' hinsert
      obtain ⟨e, he, htop⟩ := hentered.entry
      refine ⟨hupdated.valid, hentered.params ▸ h.degrees,
        hentered.params ▸ hentered.tidy, ?_, ?_⟩
      · rw [he]
        simp
      · intro e' he'
        rw [he, Option.some.injEq] at he'
        exact he' ▸ htop
  | some i =>
      rw [hid] at hinsert
      obtain ⟨hparams, hentry, node, hnode, hnodes⟩ :=
        overwrite_ensures i vector idx' hinsert
      apply h.of_same_graph hupdated.valid hparams hentry
      · intro j layer
        rw [hnodes]
        exact adjacency_set_vector hnode vector j layer
      · rw [hnodes, List.length_set]
      · intro e he
        rw [hnodes]
        exact isTop_set_vector hnode vector he

theorem delete_ensures (id : UInt64) :
    Ensures (idx.delete id) (fun r => r.1.params = idx.params ∧
      r.1.entryPoint = idx.entryPoint ∧ r.1.nodes = idx.nodes) := by
  rw [delete]
  split
  · exact Ensures.pure ⟨rfl, rfl, rfl⟩
  · split
    · exact Ensures.error
    · exact Ensures.pure ⟨rfl, rfl, rfl⟩
    · exact Ensures.pure ⟨rfl, rfl, rfl⟩

theorem delete_wellFormed (h : idx.WellFormed) (id : UInt64) :
    Returns (idx.delete id) (fun r => r.1.WellFormed) := by
  obtain ⟨r, hdelete, hupdated, -⟩ := delete_returns h.valid id
  obtain ⟨hparams, hentry, hnodes⟩ := delete_ensures id r hdelete
  refine ⟨r, hdelete, h.of_same_graph hupdated.valid hparams hentry ?_ ?_ ?_⟩
  · intro i l
    rw [hnodes]
  · rw [hnodes]
  · intro e he
    rwa [hnodes]

/-! ## Every sequence of calls -/

/-- The structural invariant, field by field. -/
structure Structured (idx : HnswIndex) : Prop where
  /-- Existing nodes with the layer, no self-loop, no duplicate, `mMax`. -/
  neighbors : ∀ i layer adj, adjacency idx.nodes i layer = some adj →
    AllHaveLayer idx.nodes layer adj ∧ i ∉ adj ∧ adj.Nodup ∧
      adj.length ≤ mMax idx.params layer
  has_layer : ∀ node ∈ idx.nodes, 0 < node.neighbors.length
  entry_iff : idx.entryPoint.isSome ↔ idx.nodes ≠ []
  entry_top : ∀ e, idx.entryPoint = some e → IsTop idx.nodes e
  /-- Ids and node indices correspond one to one, as the nodes say. -/
  idToNode : ∀ (id : UInt64) (i : ℕ), idx.idToNode[id]? = some i ↔
    ∃ node, idx.nodes[i]? = some node ∧ node.id = id
  existsUnique_id : ∀ i < idx.nodes.length,
    ∃! id : UInt64, idx.idToNode[id]? = some i
  length_deleted : idx.deleted.length = idx.nodes.length
  live_eq : idx.live = idx.deleted.count false

theorem WellFormed.structured (h : idx.WellFormed) : idx.Structured := by
  have hindex : ∀ (id : UInt64) (i : ℕ), idx.idToNode[id]? = some i ↔
      ∃ node, idx.nodes[i]? = some node ∧ node.id = id := by
    intro id i
    refine (h.valid.coherent.index_iff id i).trans ?_
    simp [table]
  constructor
  · intro i layer adj hadj
    have htidy := h.tidy i layer adj hadj
    exact ⟨linked_iff_adjacency.mp h.valid.linked i layer adj hadj,
      htidy.not_self, htidy.nodup, htidy.length_le⟩
  · exact h.valid.heights
  · constructor
    · intro hsome
      obtain ⟨e, he⟩ := Option.isSome_iff_exists.mp hsome
      obtain ⟨node, hnode, -⟩ := h.entry_top e he
      exact List.ne_nil_of_mem (List.mem_of_getElem? hnode)
    · intro hnodes
      rw [Option.isSome_iff_ne_none]
      exact fun hnone => hnodes (h.entry_none hnone)
  · exact h.entry_top
  · exact hindex
  · intro i hi
    refine ⟨idx.nodes[i].id, (hindex _ i).mpr
      ⟨_, List.getElem?_eq_getElem hi, rfl⟩, ?_⟩
    intro id hid
    obtain ⟨node, hnode, rfl⟩ := (hindex id i).mp hid
    rw [List.getElem?_eq_getElem hi, Option.some.injEq] at hnode
    rw [hnode]
  · simpa [table] using h.valid.coherent.length_deleted
  · exact h.valid.coherent.live_eq

theorem withParams_wellFormed {dim : ℕ} {metric : Metric}
    {params : HnswParams} {seed : UInt64}
    (hidx : withParams dim metric params seed = .ok idx) :
    idx.WellFormed := by
  obtain ⟨hdim, hm, hm0, hef⟩ := admissible_of_withParams hidx
  have hvalid := ((withParams_returns hdim hm hm0 hef).of_eq_ok hidx).1
  rw [withParams, if_pos ⟨hdim, hm, hm0, hef⟩, Except.ok.injEq] at hidx
  subst hidx
  refine ⟨hvalid, hm0, ?_, fun _ => rfl, ?_⟩
  · intro i layer adj hadj
    simp [adjacency] at hadj
  · intro e he
    simp at he

/-- Every call keeps the structure and the kind of the index. -/
theorem call_wellFormed (h : idx.WellFormed) (c : VectorIndexCall) :
    ((vectorIndex K).call idx c).1.WellFormed ∧
      idx.SameKind ((vectorIndex K).call idx c).1 := by
  cases c with
  | insert id vector =>
      by_cases hdim : vector.length = idx.dim
      · cases hinsert : idx.insert K id vector with
        | ok idx' =>
            have hcall : (vectorIndex K).insert idx id vector =
                (idx', .ok ()) := insertChecked_of_ok hdim hinsert
            rw [VectorIndex.call, hcall]
            exact ⟨insert_wellFormed h id hdim idx' hinsert,
              (insert_ensures h id hdim idx' hinsert).kind⟩
        | error e =>
            have hcall : (vectorIndex K).insert idx id vector =
                (idx, .error e) := insertChecked_of_error hdim hinsert
            rw [VectorIndex.call, hcall]
            exact ⟨h, rfl, rfl, rfl⟩
      · have hcall : (vectorIndex K).insert idx id vector =
            (idx, .error (.dimMismatch idx.dim vector.length)) :=
          insertChecked_mismatch hdim _
        rw [VectorIndex.call, hcall]
        exact ⟨h, rfl, rfl, rfl⟩
  | delete id =>
      obtain ⟨r, hdelete, hr⟩ := delete_wellFormed h id
      have hupdated := ((delete_returns h.valid id).of_eq_ok hdelete).1
      have hdelete' : (vectorIndex K).delete idx id = .ok r := hdelete
      rw [VectorIndex.call, hdelete']
      exact ⟨hr, hupdated.kind⟩
  | getVector id => exact ⟨h, rfl, rfl, rfl⟩
  | len => exact ⟨h, rfl, rfl, rfl⟩

theorem call_ne_panic (h : idx.Valid) (hfits : idx.params.Fits)
    (c : VectorIndexCall) :
    ((vectorIndex K).call idx c).2 ≠ .error .panic := by
  have hcall := ((implements K idx.dim).simulates idx idx.store c
    ⟨⟨h, hfits⟩, rfl, rfl⟩).1
  rw [hcall]
  cases c with
  | insert id vector =>
      by_cases hdim : vector.length = idx.dim <;>
        simp [VectorStore.call, hdim]
  | delete id => simp [VectorStore.call]
  | getVector id => simp [VectorStore.call]
  | len => simp [VectorStore.call]

/-- One call under its own kernel, so that an insert may draw any level. -/
def callUnder (idx : HnswIndex) (c : Kernel × VectorIndexCall) :
    HnswIndex × VectorIndexResult :=
  (vectorIndex c.1).call idx c.2

/-- The vectors that the calls insert. -/
def insertedVectors (calls : List (Kernel × VectorIndexCall)) :
    Set (List F32) :=
  {v | ∃ K id, (K, VectorIndexCall.insert id v) ∈ calls}

/-- Calls under whose kernels the distances of the inserted vectors can be
ordered; `sort_by` may panic on others. -/
structure OrderedCalls (metric : Metric) where
  calls : List (Kernel × VectorIndexCall)
  preorders : ∀ c ∈ calls,
    c.1.PreordersOn (c.1.scores metric (insertedVectors calls))

/-- After every sequence of calls the graph is structured, and none of them
panics, where the lists of neighbours fit their capacity. -/
theorem structured_of_calls {dim : ℕ} {metric : Metric} {params : HnswParams}
    {seed : UInt64} (hidx : withParams dim metric params seed = .ok idx)
    (hfits : params.m0 < 2 ^ 61) (calls : OrderedCalls metric) :
    let out := CallMachine.run callUnder idx calls.calls
    out.1.Structured ∧ ∀ reply ∈ out.2, reply ≠ .error .panic := by
  have hstep : ∀ idx c, (WellFormed idx ∧ idx.params.Fits) →
      ((callUnder idx c).1.WellFormed ∧ (callUnder idx c).1.params.Fits) ∧
        (callUnder idx c).2 ≠ .error .panic := by
    rintro idx ⟨K, c⟩ ⟨h, hparams⟩
    obtain ⟨hnext, hsame⟩ := call_wellFormed (K := K) h c
    exact ⟨⟨hnext, hsame.params ▸ hparams⟩, call_ne_panic h.valid hparams c⟩
  have hrun := CallMachine.run_invariant
    (fun idx => WellFormed idx ∧ idx.params.Fits)
    (fun reply => reply ≠ Except.error IndexError.panic) hstep
    ⟨withParams_wellFormed hidx, fits_of_withParams hidx hfits⟩ calls.calls
  exact ⟨hrun.1.1.structured, hrun.2⟩

/-- The calls of the kernel under which all points are equal. -/
def OrderedCalls.ofEqual (calls : List VectorIndexCall) :
    OrderedCalls .l2 where
  calls := calls.map fun c => (.equalPoints, c)
  preorders := by
    rintro ⟨K, c⟩ hc
    obtain ⟨c', -, heq⟩ := List.mem_map.mp hc
    obtain ⟨rfl, rfl⟩ := Prod.mk.inj heq
    exact ⟨fun _ _ _ _ => rfl, fun _ _ _ _ _ _ _ _ => rfl⟩

/-- Two inserts, a delete, a revival and a replacement. -/
theorem structured_of_calls_two :
    ∃ idx, withParams 1 .l2 .default 0 = .ok idx ∧
      let out := CallMachine.run callUnder idx (OrderedCalls.ofEqual
        [.insert 0 [0], .insert 1 [0], .delete 0, .insert 0 [0],
          .insert 1 [0]]).calls
      out.1.Structured ∧ ∀ reply ∈ out.2, reply ≠ .error .panic :=
  ⟨_, rfl, @structured_of_calls _ 1 .l2 .default 0 rfl (by decide) _⟩

/-- The second insert selects neighbours for the first time, with a capacity of
`2 ^ 61`. -/
theorem not_structured_of_calls :
    ¬ ∀ (params : HnswParams) (idx : HnswIndex),
      withParams 1 .l2 params 0 = .ok idx →
      ∀ calls : OrderedCalls .l2,
        ∀ reply ∈ (CallMachine.run callUnder idx calls.calls).2,
          reply ≠ .error .panic := by
  intro hall
  refine hall { m := 2, m0 := 2 ^ 61, efConstruction := 1 } _ rfl
    (.ofEqual [.insert 0 [0], .insert 1 [0]]) (.error .panic) ?_ rfl
  decide +kernel

theorem search_overflow :
    ∃ idx, withParams 1 .l2 .default 0 = .ok idx ∧
      (CallMachine.run callUnder idx
        [(.equalPoints, .insert 0 [0])]).1.search .equalPoints [0] (2 ^ 59) 1 =
          .error .panic := by
  refine ⟨_, rfl, ?_⟩
  decide +kernel

end HnswIndex

end Quorvec
