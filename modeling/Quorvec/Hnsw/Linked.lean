import Quorvec.Hnsw.Graph

/-!
# Searching and wiring a linked graph

A graph is linked when every neighbour that a node lists on a layer exists and
has that layer itself.  On a linked graph every search returns, and finds only
nodes that have the layer searched; wiring a node that has the layer returns a
linked graph of the same shape.
-/

namespace Quorvec

open TotalCorrectness

/-- Everything about the nodes except their adjacency: id, vector, height. -/
def shape (nodes : Nodes) : List (UInt64 × List F32 × ℕ) :=
  nodes.map fun node => (node.id, node.vector, node.neighbors.length)

@[simp] theorem length_shape (nodes : Nodes) :
    (shape nodes).length = nodes.length :=
  List.length_map _

theorem length_eq_of_shape_eq {nodes nodes' : Nodes}
    (h : shape nodes' = shape nodes) : nodes'.length = nodes.length := by
  rw [← length_shape, h, length_shape]

/-- The node exists and reaches up to the layer. -/
def HasLayer (nodes : Nodes) (i layer : ℕ) : Prop :=
  ∃ node, nodes[i]? = some node ∧ layer < node.neighbors.length

theorem HasLayer.mono {nodes : Nodes} {i l l' : ℕ} (h : HasLayer nodes i l)
    (hl : l' ≤ l) : HasLayer nodes i l' := by
  obtain ⟨node, hnode, hlayer⟩ := h
  exact ⟨node, hnode, lt_of_le_of_lt hl hlayer⟩

theorem hasLayer_iff_shape {nodes : Nodes} {i layer : ℕ} :
    HasLayer nodes i layer ↔
      ∃ s, (shape nodes)[i]? = some s ∧ layer < s.2.2 := by
  simp only [HasLayer, shape, List.getElem?_map, Option.map_eq_some_iff]
  constructor
  · rintro ⟨node, hnode, hlayer⟩
    exact ⟨_, ⟨node, hnode, rfl⟩, hlayer⟩
  · rintro ⟨_, ⟨node, hnode, rfl⟩, hlayer⟩
    exact ⟨node, hnode, hlayer⟩

theorem HasLayer.of_shape_eq {nodes nodes' : Nodes} {i layer : ℕ}
    (h : HasLayer nodes i layer) (hshape : shape nodes' = shape nodes) :
    HasLayer nodes' i layer := by
  rw [hasLayer_iff_shape, hshape]
  exact hasLayer_iff_shape.mp h

/-- All listed nodes have the layer. -/
def AllHaveLayer (nodes : Nodes) (layer : ℕ) (adj : List ℕ) : Prop :=
  ∀ n ∈ adj, HasLayer nodes n layer

/-- Every adjacency list holds nodes that have its layer. -/
def Linked (nodes : Nodes) : Prop :=
  ∀ node ∈ nodes, ∀ layer adj, node.neighbors[layer]? = some adj →
    AllHaveLayer nodes layer adj

theorem Node.exists_of_mem_layerOrEmpty {node : Node} {layer n : ℕ}
    (hn : n ∈ node.layerOrEmpty layer) :
    ∃ adj, node.neighbors[layer]? = some adj ∧ n ∈ adj := by
  unfold Node.layerOrEmpty at hn
  split_ifs at hn with hlayer
  · refine ⟨_, List.getElem?_eq_getElem hlayer, ?_⟩
    rwa [List.getD_eq_getElem _ _ hlayer] at hn
  · simp at hn

theorem Linked.layerOrEmpty {nodes : Nodes} (h : Linked nodes) {node : Node}
    (hnode : node ∈ nodes) (layer : ℕ) :
    AllHaveLayer nodes layer (node.layerOrEmpty layer) := by
  intro n hn
  obtain ⟨adj, hadj, hmem⟩ := Node.exists_of_mem_layerOrEmpty hn
  exact h node hnode layer adj hadj n hmem

theorem HasLayer.append {nodes : Nodes} {i layer : ℕ}
    (h : HasLayer nodes i layer) (more : Nodes) :
    HasLayer (nodes ++ more) i layer := by
  obtain ⟨node, hnode, hlayer⟩ := h
  refine ⟨node, ?_, hlayer⟩
  rw [List.getElem?_append_left (List.getElem?_eq_some_iff.mp hnode).1, hnode]

/-- A node without neighbours may be added. -/
theorem Linked.append_isolated {nodes : Nodes} (h : Linked nodes) (id : UInt64)
    (vector : List F32) (height : ℕ) :
    Linked (nodes ++
      [{ id, vector, neighbors := List.replicate height [] }]) := by
  intro node hnode layer adj hadj n hn
  rcases List.mem_append.mp hnode with hold | hnew
  · exact HasLayer.append (h node hold layer adj hadj n hn) _
  · rw [List.mem_singleton.mp hnew, List.getElem?_replicate] at hadj
    split_ifs at hadj
    rw [Option.some.injEq] at hadj
    rw [← hadj] at hn
    simp at hn

/-! ## Checked access -/

section Access

variable {nodes : Nodes} {i layer : ℕ}

theorem nodeAt_of_getElem? {node : Node} (h : nodes[i]? = some node) :
    nodeAt nodes i = .ok node := by
  rw [nodeAt, h]

theorem nodeAt_returns (h : HasLayer nodes i layer) :
    Returns (nodeAt nodes i)
      (fun node => nodes[i]? = some node ∧ layer < node.neighbors.length) := by
  obtain ⟨node, hnode, hlayer⟩ := h
  exact ⟨node, nodeAt_of_getElem? hnode, hnode, hlayer⟩

theorem layerAt_returns {node : Node} (h : layer < node.neighbors.length) :
    Returns (node.layerAt layer)
      (fun adj => node.neighbors[layer]? = some adj) :=
  ⟨node.neighbors[layer],
    by rw [Node.layerAt, List.getElem?_eq_getElem h],
    List.getElem?_eq_getElem h⟩

theorem topLayer_returns {node : Node} (h : 0 < node.neighbors.length) :
    Returns node.topLayer (fun top => top < node.neighbors.length) := by
  obtain ⟨n, hn⟩ := Nat.exists_eq_add_one_of_ne_zero h.ne'
  exact ⟨n, by rw [Node.topLayer, hn], by omega⟩

end Access

/-! ## Searching -/

section Search

variable {K : Kernel} {metric : Metric} {nodes : Nodes} {layer : ℕ}
variable {query : List F32}

theorem dist_of_getElem? {a : ℕ} {node : Node} (h : nodes[a]? = some node) :
    dist K metric nodes a query =
      .ok (K.distance metric node.vector query) := by
  rw [dist, nodeAt_of_getElem? h]
  rfl

theorem dist_returns_of_lt {a : ℕ} (h : a < nodes.length) :
    Returns (dist K metric nodes a query)
      (fun d => dist K metric nodes a query = .ok d) := by
  have hdist := @dist_of_getElem? K metric nodes query a _
    (List.getElem?_eq_getElem h)
  exact ⟨_, hdist, hdist⟩

theorem dist_returns {a : ℕ} (h : HasLayer nodes a layer) :
    Returns (dist K metric nodes a query) (fun _ => True) :=
  (nodeAt_returns h).bind fun _ _ => Returns.pure trivial

theorem greedyPass_returns {nbrs : List ℕ} {current : ℕ} {currentDist : F32}
    (hnbrs : AllHaveLayer nodes layer nbrs)
    (hcurrent : HasLayer nodes current layer) :
    Returns (greedyPass K metric nodes query nbrs current currentDist)
      (fun r => HasLayer nodes r.1 layer) := by
  apply Returns.foldlM (fun r : ℕ × F32 × Bool => HasLayer nodes r.1 layer)
  · exact hcurrent
  · rintro ⟨best, bestDist, improved⟩ nbr hnbr hbest
    refine (dist_returns (hnbrs nbr hnbr)).bind fun d _ => ?_
    split_ifs
    · exact Returns.pure (hnbrs nbr hnbr)
    · exact Returns.pure hbest

theorem greedyLoop_returns (hlinked : Linked nodes) {fuel current : ℕ}
    {currentDist : F32} (hcurrent : HasLayer nodes current layer) :
    Returns (greedyLoop K metric nodes query layer fuel current currentDist)
      (fun r => HasLayer nodes r layer) := by
  induction fuel generalizing current currentDist with
  | zero => exact Returns.pure hcurrent
  | succ fuel ih =>
      rw [greedyLoop]
      refine (nodeAt_returns hcurrent).bind fun node hnode => ?_
      have hmem := List.mem_of_getElem? hnode.1
      refine (greedyPass_returns (hlinked.layerOrEmpty hmem layer)
        hcurrent).bind ?_
      rintro ⟨best, bestDist, improved⟩ hbest
      dsimp only
      split_ifs
      · exact ih hbest
      · exact Returns.pure hbest

theorem greedySearchLayer_returns (hlinked : Linked nodes) {entry : ℕ}
    (hentry : HasLayer nodes entry layer) :
    Returns (greedySearchLayer K metric nodes query entry layer)
      (fun r => HasLayer nodes r layer) :=
  (dist_returns hentry).bind fun _ _ => greedyLoop_returns hlinked hentry

theorem descend_returns (hlinked : Linked nodes) {floor top curr : ℕ}
    (hcurr : HasLayer nodes curr top) :
    Returns (descend K metric nodes query floor top curr)
      (fun r => HasLayer nodes r (min floor top)) := by
  induction top generalizing curr with
  | zero => exact Returns.pure (hcurr.mono (Nat.min_le_right _ _))
  | succ top ih =>
      rw [descend]
      split_ifs with habove
      · refine (greedySearchLayer_returns hlinked hcurr).bind fun r hr => ?_
        refine (ih (hr.mono (Nat.le_succ top))).mono fun r hr => ?_
        rwa [min_eq_left (by omega)] at hr ⊢
      · exact Returns.pure (hcurr.mono (Nat.min_le_right _ _))

/-- Both heaps of a search hold nodes that have the layer. -/
structure SearchState.Within (nodes : Nodes) (layer : ℕ)
    (st : SearchState) : Prop where
  candidates : ∀ c ∈ st.candidates, HasLayer nodes c.node layer
  results : ∀ c ∈ st.results, HasLayer nodes c.node layer

theorem mem_of_mem_dropFarthest {ef : ℕ} {results : List Candidate}
    {c : Candidate} (h : c ∈ dropFarthest K ef results) : c ∈ results := by
  unfold dropFarthest at h
  split_ifs at h with hfull
  · split at h
    · next hpop =>
        exact (BinaryHeap.pop_perm hpop).mem_iff.mp (List.mem_cons_of_mem _ h)
    · exact h
  · exact h

theorem visitNeighbor_returns {ef nbr : ℕ} {st : SearchState}
    (hnbr : HasLayer nodes nbr layer) (hst : st.Within nodes layer) :
    Returns (visitNeighbor K metric nodes query ef st nbr)
      (SearchState.Within nodes layer) := by
  unfold visitNeighbor
  split_ifs with hseen
  · exact Returns.pure hst
  · refine (dist_returns hnbr).bind fun d _ => ?_
    have hpush : ∀ (le : Candidate → Candidate → Bool) (heap : List Candidate),
        (∀ c ∈ heap, HasLayer nodes c.node layer) →
        ∀ c ∈ BinaryHeap.push le heap ⟨d, nbr⟩, HasLayer nodes c.node layer := by
      intro le heap hheap c hc
      rcases BinaryHeap.mem_push.mp hc with rfl | hc
      · exact hnbr
      · exact hheap c hc
    dsimp only
    split_ifs
    · refine Returns.pure ⟨hpush _ _ hst.candidates, fun c hc => ?_⟩
      exact hpush _ _ hst.results c (mem_of_mem_dropFarthest hc)
    · exact Returns.pure ⟨hst.candidates, hst.results⟩

theorem searchLoop_returns (hlinked : Linked nodes) {ef fuel : ℕ}
    {st : SearchState} (hst : st.Within nodes layer) :
    Returns (searchLoop K metric nodes query ef layer fuel st)
      (SearchState.Within nodes layer) := by
  induction fuel generalizing st with
  | zero => exact Returns.pure hst
  | succ fuel ih =>
      rw [searchLoop]
      split
      · exact Returns.pure hst
      · next c candidates hpop =>
          have hmem : ∀ x ∈ c :: candidates, HasLayer nodes x.node layer :=
            fun x hx => hst.candidates x
              ((BinaryHeap.pop_perm hpop).mem_iff.mp hx)
          have hrest : SearchState.Within nodes layer
              { st with candidates } :=
            ⟨fun x hx => hmem x (List.mem_cons_of_mem c hx), hst.results⟩
          split_ifs
          · exact Returns.pure hrest
          · refine (nodeAt_returns (hmem c List.mem_cons_self)).bind
              fun node hnode => ?_
            have hadj := hlinked.layerOrEmpty
              (List.mem_of_getElem? hnode.1) layer
            exact (Returns.foldlM _ hrest fun st n hn hst =>
              visitNeighbor_returns (hadj n hn) hst).bind fun st hst => ih hst

theorem searchLayer_returns (hlinked : Linked nodes) {entry ef : ℕ}
    (hentry : HasLayer nodes entry layer) :
    Returns (searchLayer K metric nodes query entry ef layer)
      (fun found => ∀ c ∈ found, HasLayer nodes c.node layer) := by
  refine (dist_returns hentry).bind fun d _ => ?_
  refine (searchLoop_returns hlinked ⟨?_, ?_⟩).bind fun st hst =>
    Returns.pure hst.results
  all_goals
    intro c hc
    rcases BinaryHeap.mem_push.mp hc with rfl | hc
    · exact hentry
    · simp at hc

theorem keeps_returns {candDist : F32} {cand : ℕ} {selected : List ℕ}
    (hcand : HasLayer nodes cand layer)
    (hselected : AllHaveLayer nodes layer selected) :
    Returns (keeps K metric nodes candDist cand selected)
      (fun _ => True) := by
  induction selected with
  | nil => exact Returns.pure trivial
  | cons s selected ih =>
      rw [keeps]
      refine (nodeAt_returns hcand).bind fun a _ => ?_
      refine (nodeAt_returns (hselected s List.mem_cons_self)).bind
        fun b _ => ?_
      dsimp only
      split_ifs
      · exact Returns.pure trivial
      · exact ih fun n hn => hselected n (List.mem_cons_of_mem s hn)

theorem selectLoop_returns {m : ℕ} {cands : List Candidate}
    {selected : List ℕ} (hcands : ∀ c ∈ cands, HasLayer nodes c.node layer)
    (hselected : AllHaveLayer nodes layer selected) :
    Returns (selectLoop K metric nodes m cands selected)
      (AllHaveLayer nodes layer) := by
  induction cands generalizing selected with
  | nil => exact Returns.pure hselected
  | cons c cands ih =>
      have hc := hcands c List.mem_cons_self
      have hrest := fun x hx => hcands x (List.mem_cons_of_mem c hx)
      rw [selectLoop]
      split_ifs
      · exact Returns.pure hselected
      · refine (keeps_returns hc hselected).bind fun keep _ => ?_
        split_ifs
        · refine ih hrest fun n hn => ?_
          rcases List.mem_append.mp hn with hn | hn
          · exact hselected n hn
          · rw [List.mem_singleton.mp hn]
            exact hc
        · exact ih hrest hselected

theorem selectNeighborsHeuristic_returns {cands : List Candidate} {m : ℕ}
    (hm : 4 * m < 2 ^ 63)
    (hcands : ∀ c ∈ cands, HasLayer nodes c.node layer) :
    Returns (selectNeighborsHeuristic K metric nodes cands m)
      (AllHaveLayer nodes layer) := by
  rw [selectNeighborsHeuristic_of_lt K metric nodes hm]
  apply selectLoop_returns
  · intro c hc
    exact hcands c ((Candidate.sortByDist_perm K cands).mem_iff.mp hc)
  · intro n hn
    simp at hn

end Search

/-! ## Wiring -/

section Wiring

variable {K : Kernel} {metric : Metric} {nodes : Nodes} {layer : ℕ}

/-- The outcome of wiring `nodes`. -/
structure Wired (nodes nodes' : Nodes) : Prop where
  shape_eq : shape nodes' = shape nodes
  linked : Linked nodes'

theorem Wired.refl (h : Linked nodes) : Wired nodes nodes := ⟨rfl, h⟩

theorem Wired.trans {nodes' nodes'' : Nodes} (h : Wired nodes nodes')
    (h' : Wired nodes' nodes'') : Wired nodes nodes'' :=
  ⟨h'.shape_eq.trans h.shape_eq, h'.linked⟩

/-- Replacing one adjacency list of one node keeps the shape. -/
theorem shape_set {i : ℕ} {node : Node} (hnode : nodes[i]? = some node)
    (adj : List ℕ) :
    shape (nodes.set i
      { node with neighbors := node.neighbors.set layer adj }) =
      shape nodes := by
  rw [shape, List.map_set, List.length_set, shape]
  apply List.ext_getElem?
  intro k
  rw [List.getElem?_set]
  split_ifs with hk hlen
  · rw [← hk, List.getElem?_map, hnode, Option.map_some]
  · rw [← hk, List.getElem?_eq_none (not_lt.mp hlen)]
  · rfl

theorem modifyLayer_returns {i : ℕ} {f : List ℕ → List ℕ}
    (hlinked : Linked nodes) (hi : HasLayer nodes i layer)
    (hf : ∀ adj, AllHaveLayer nodes layer adj →
      AllHaveLayer nodes layer (f adj)) :
    Returns (modifyLayer nodes i layer f) (Wired nodes) := by
  refine (nodeAt_returns hi).bind fun node hnode => ?_
  refine (layerAt_returns hnode.2).bind fun adj hadj => ?_
  have hmem := List.mem_of_getElem? hnode.1
  refine Returns.pure ⟨shape_set hnode.1 _, ?_⟩
  intro node' hnode' l adj' hadj' n hn
  refine HasLayer.of_shape_eq ?_ (shape_set hnode.1 _)
  rcases List.mem_or_eq_of_mem_set hnode' with hold | rfl
  · exact hlinked node' hold l adj' hadj' n hn
  · by_cases hl : l = layer
    · subst hl
      rw [List.getElem?_set_self hnode.2, Option.some.injEq] at hadj'
      subst hadj'
      exact hf adj (hlinked node hmem l adj hadj) n hn
    · rw [List.getElem?_set_ne (Ne.symm hl)] at hadj'
      exact hlinked node hmem l adj' hadj' n hn

theorem candidateOf_returns {base : List F32} {n : ℕ}
    (hn : HasLayer nodes n layer) :
    Returns (candidateOf K metric nodes base n)
      (fun c => HasLayer nodes c.node layer) :=
  (nodeAt_returns hn).bind fun _ _ => Returns.pure hn

theorem pruneNeighbors_returns {node m : ℕ} (hm : 4 * m < 2 ^ 63)
    (hlinked : Linked nodes) (hnode : HasLayer nodes node layer) :
    Returns (pruneNeighbors K metric nodes node layer m) (Wired nodes) := by
  refine (nodeAt_returns hnode).bind fun base _ => ?_
  refine (nodeAt_returns hnode).bind fun self hself => ?_
  refine (layerAt_returns hself.2).bind fun current hcurrent => ?_
  have hadj := hlinked self (List.mem_of_getElem? hself.1) layer current
    hcurrent
  refine (Returns.mapM fun n hn => candidateOf_returns (hadj n hn)).bind
    fun cands hcands => ?_
  refine (selectNeighborsHeuristic_returns hm hcands).bind
    fun kept hkept => ?_
  exact modifyLayer_returns hlinked hnode fun _ _ => hkept

theorem linkBack_returns {newIdx m nbr : ℕ} (hm : 4 * m < 2 ^ 63)
    (hlinked : Linked nodes)
    (hnew : HasLayer nodes newIdx layer) (hnbr : HasLayer nodes nbr layer) :
    Returns (linkBack K metric newIdx layer m nodes nbr) (Wired nodes) := by
  have hpush : ∀ adj, AllHaveLayer nodes layer adj →
      AllHaveLayer nodes layer (adj ++ [newIdx]) := by
    intro adj hadj n hn
    rcases List.mem_append.mp hn with hn | hn
    · exact hadj n hn
    · rwa [List.mem_singleton.mp hn]
  refine (modifyLayer_returns hlinked hnbr hpush).bind
    fun nodes' hnodes' => ?_
  have hnbr' := hnbr.of_shape_eq hnodes'.shape_eq
  refine (nodeAt_returns hnbr').bind fun node hnode => ?_
  refine (layerAt_returns hnode.2).bind fun adj _ => ?_
  split_ifs
  · exact (pruneNeighbors_returns hm hnodes'.linked hnbr').mono
      fun _ h => hnodes'.trans h
  · exact Returns.pure hnodes'

theorem connectLayer_returns {efConstruction m newIdx entry : ℕ}
    {vector : List F32} (hm : 4 * m < 2 ^ 63) (hlinked : Linked nodes)
    (hnew : HasLayer nodes newIdx layer)
    (hentry : HasLayer nodes entry layer) :
    Returns (connectLayer K metric efConstruction m vector newIdx nodes entry
      layer)
      (fun r => Wired nodes r.1 ∧ HasLayer nodes r.2 layer) := by
  refine (searchLayer_returns hlinked hentry).bind fun found hfound => ?_
  refine (selectNeighborsHeuristic_returns hm hfound).bind
    fun selected hselected => ?_
  refine (modifyLayer_returns hlinked hnew fun _ _ => hselected).bind
    fun nodes' hnodes' => ?_
  have hnearest : HasLayer nodes
      (((Candidate.nearest K found).map Candidate.node).getD entry)
      layer := by
    cases hn : Candidate.nearest K found with
    | none => exact hentry
    | some c => exact hfound c (Candidate.nearest_mem K hn)
  refine (Returns.foldlM (Wired nodes) hnodes' ?_).bind
    fun nodes'' hnodes'' => Returns.pure ⟨hnodes'', hnearest⟩
  intro nodes'' nbr hnbr hnodes''
  exact (linkBack_returns hm hnodes''.linked
    (hnew.of_shape_eq hnodes''.shape_eq)
    ((hselected nbr hnbr).of_shape_eq hnodes''.shape_eq)).mono
    fun _ h => hnodes''.trans h

/-- Wiring a node on all layers up to its own and the entry's. -/
theorem connectLayers_returns {efConstruction newIdx entry layers : ℕ}
    {mMax : ℕ → ℕ} {vector : List F32}
    (hfits : ∀ l < layers, 4 * mMax l < 2 ^ 63) (hlinked : Linked nodes)
    (hnew : ∀ l < layers, HasLayer nodes newIdx l)
    (hentry : ∀ l < layers, HasLayer nodes entry l) :
    Returns (connectLayers K metric efConstruction mMax vector newIdx layers
      nodes entry) (Wired nodes) := by
  induction layers generalizing nodes entry with
  | zero => exact Returns.pure (Wired.refl hlinked)
  | succ layer ih =>
      rw [connectLayers]
      refine (connectLayer_returns (hfits layer (Nat.lt_succ_self _)) hlinked
        (hnew layer (Nat.lt_succ_self _))
        (hentry layer (Nat.lt_succ_self _))).bind ?_
      rintro ⟨nodes', entry'⟩ ⟨hnodes', hentry'⟩
      refine (ih (fun l hl => hfits l (Nat.lt_succ_of_lt hl)) hnodes'.linked
        ?_ ?_).mono fun _ h => hnodes'.trans h
      · intro l hl
        exact (hnew l (Nat.lt_succ_of_lt hl)).of_shape_eq hnodes'.shape_eq
      · intro l hl
        exact (hentry'.mono hl.le).of_shape_eq hnodes'.shape_eq

end Wiring

end Quorvec
