import Quorvec.Hnsw.Exhaustive
import Quorvec.Hnsw.ScoreLaws
import Quorvec.Support.SteepestDescent

/-!
# The greedy search of a layer

A pass of the greedy search goes through all neighbours of the node from which
it starts, also when it has moved on to one of them, so it ends on a closest
neighbour.  The passes are the hops of a steepest descent.  Of the graph only
this is asked, that the neighbours listed exist: they need not reach up to the
layer, nor list each other.
-/

namespace Quorvec

open TotalCorrectness SteepestDescent

/-- Node `i` is strictly closer to the query than node `j`. -/
def Closer (K : Kernel) (metric : Metric) (nodes : Nodes) (query : List F32)
    (i j : ℕ) : Prop :=
  ∃ d e, dist K metric nodes i query = .ok d ∧
    dist K metric nodes j query = .ok e ∧ K.lt d e

/-- Node `i` is at least as close to the query as node `j`. -/
def AtLeastAsClose (K : Kernel) (metric : Metric) (nodes : Nodes)
    (query : List F32) (i j : ℕ) : Prop :=
  ∃ d e, dist K metric nodes i query = .ok d ∧
    dist K metric nodes j query = .ok e ∧ ¬ K.lt e d

/-! ## Nodes and their distances -/

section Nodes

variable {K : Kernel} {metric : Metric} {nodes : Nodes} {query : List F32}
variable {layer i j : ℕ}

/-- A node without neighbours may be added. -/
theorem NeighborsExist.append_isolated (h : NeighborsExist nodes) (id : UInt64)
    (vector : List F32) (height : ℕ) :
    NeighborsExist (nodes ++
      [{ id, vector, neighbors := List.replicate height [] }]) := by
  intro node hnode adj hadj n hn
  rw [List.length_append]
  rcases List.mem_append.mp hnode with hold | hnew
  · exact Nat.lt_add_right _ (h node hold adj hadj n hn)
  · rw [List.mem_singleton.mp hnew] at hadj
    rw [List.eq_of_mem_replicate hadj] at hn
    simp at hn

theorem closer_iff {d e : F32} (hd : dist K metric nodes i query = .ok d)
    (he : dist K metric nodes j query = .ok e) :
    Closer K metric nodes query i j ↔ K.lt d e := by
  constructor
  · rintro ⟨d', e', hd', he', hlt⟩
    rw [hd, Except.ok.injEq] at hd'
    rw [he, Except.ok.injEq] at he'
    rwa [hd', he']
  · exact fun hlt => ⟨d, e, hd, he, hlt⟩

theorem atLeastAsClose_of_not_closer (hi : i < nodes.length)
    (hj : j < nodes.length) (h : ¬ Closer K metric nodes query j i) :
    AtLeastAsClose K metric nodes query i j := by
  obtain ⟨d, hd, -⟩ := dist_returns_of_lt hi
  obtain ⟨e, he, -⟩ := dist_returns_of_lt hj
  rw [closer_iff he hd] at h
  exact ⟨d, e, hd, he, h⟩

theorem Kernel.StrictOn.closer
    (h : K.StrictOn (nodeScores K metric nodes query)) :
    IsStrictOrder ℕ (Closer K metric nodes query) where
  irrefl := by
    intro i hcloser
    have hdist := hcloser
    obtain ⟨d, -, hd, -⟩ := hdist
    exact h.irrefl ⟨d, i, hd⟩ ((closer_iff hd hd).mp hcloser)
  trans := by
    rintro i j k ⟨d, e, hd, he, hde⟩ ⟨e', f, he', hf, hef⟩
    rw [he, Except.ok.injEq] at he'
    subst he'
    exact ⟨d, f, hd, hf,
      h.trans ⟨d, i, hd⟩ ⟨e, j, he⟩ ⟨f, k, hf⟩ hde hef⟩

theorem nodeScores_subset {S : Set F32}
    (h : ∀ node ∈ nodes, K.distance metric node.vector query ∈ S) :
    nodeScores K metric nodes query ⊆ S := by
  rintro d ⟨i, hd⟩
  have hi := dist_ensures i d hd
  rw [dist_of_getElem? (List.getElem?_eq_getElem hi)] at hd
  rw [← Except.ok.inj hd]
  exact h _ (List.getElem_mem hi)

end Nodes

/-! ## One pass -/

section Pass

variable {K : Kernel} {metric : Metric} {nodes : Nodes} {query : List F32}
variable {layer start : ℕ} {nbrs rest : List ℕ}

/-- A pass over `nbrs` that started from `start`, with the neighbours in `rest`
still to come.  The best node is that of the triple. -/
structure Scanned (K : Kernel) (metric : Metric) (nodes : Nodes)
    (query : List F32) (nbrs : List ℕ) (start : ℕ) (rest : List ℕ)
    (r : ℕ × F32 × Bool) : Prop where
  rest_subset : ∀ n ∈ rest, n ∈ nbrs
  dist_eq : dist K metric nodes r.1 query = .ok r.2.1
  stayed : r.2.2 = false → r.1 = start
  moved : r.2.2 = true →
    r.1 ∈ nbrs ∧ Closer K metric nodes query r.1 start
  least : ∀ n ∈ nbrs, n ∈ rest ∨ ¬ Closer K metric nodes query n r.1

namespace Scanned

variable {nbr best : ℕ} {bestDist e : F32} {improved : Bool}

/-- The next neighbour is closer than the best so far, which may be another
than the node that lists it. -/
theorem hop (hstrict : IsStrictOrder ℕ (Closer K metric nodes query))
    (h : Scanned K metric nodes query nbrs start (nbr :: rest)
      (best, bestDist, improved))
    (he : dist K metric nodes nbr query = .ok e) (hlt : K.lt e bestDist) :
    Scanned K metric nodes query nbrs start rest (nbr, e, true) := by
  have hcloser : Closer K metric nodes query nbr best :=
    (closer_iff he h.dist_eq).mpr hlt
  refine ⟨fun n hn => h.rest_subset n (List.mem_cons_of_mem nbr hn), he,
    by simp, fun _ => ⟨h.rest_subset nbr List.mem_cons_self, ?_⟩,
    fun n hn => ?_⟩
  · cases improved with
    | false => exact h.stayed rfl ▸ hcloser
    | true => exact hstrict.trans _ _ _ hcloser (h.moved rfl).2
  · rcases h.least n hn with hrest | hnot
    · rcases List.mem_cons.mp hrest with rfl | hrest
      · exact .inr (hstrict.irrefl n)
      · exact .inl hrest
    · exact .inr fun hn => hnot (hstrict.trans _ _ _ hn hcloser)

theorem skip (h : Scanned K metric nodes query nbrs start (nbr :: rest)
      (best, bestDist, improved))
    (he : dist K metric nodes nbr query = .ok e) (hlt : ¬ K.lt e bestDist) :
    Scanned K metric nodes query nbrs start rest
      (best, bestDist, improved) := by
  refine ⟨fun n hn => h.rest_subset n (List.mem_cons_of_mem nbr hn),
    h.dist_eq, h.stayed, h.moved, fun n hn => ?_⟩
  rcases h.least n hn with hrest | hnot
  · rcases List.mem_cons.mp hrest with rfl | hrest
    · exact .inr fun hcloser => hlt ((closer_iff he h.dist_eq).mp hcloser)
    · exact .inl hrest
  · exact .inr hnot

end Scanned

theorem greedyPass_scanned
    (hstrict : IsStrictOrder ℕ (Closer K metric nodes query)) {d : F32}
    (hd : dist K metric nodes start query = .ok d)
    (hnbrs : ∀ n ∈ nbrs, n < nodes.length) :
    Returns (greedyPass K metric nodes query nbrs start d)
      (Scanned K metric nodes query nbrs start []) := by
  apply Returns.foldlM_rest (Scanned K metric nodes query nbrs start)
  · exact ⟨fun n hn => hn, hd, fun _ => rfl, by simp, fun n hn => .inl hn⟩
  · rintro ⟨best, bestDist, improved⟩ nbr rest h
    have hnbr := hnbrs nbr (h.rest_subset nbr List.mem_cons_self)
    refine (dist_returns_of_lt hnbr).bind fun e he => ?_
    split_ifs with hlt
    · exact Returns.pure (h.hop hstrict he hlt)
    · exact Returns.pure (h.skip he hlt)

theorem lists_iff {node : Node} (hnode : nodes[start]? = some node) {n : ℕ} :
    Lists nodes layer start n ↔ n ∈ node.layerOrEmpty layer := by
  simp [Lists, hnode]

theorem Scanned.isLocalMin {node : Node} (hnode : nodes[start]? = some node)
    {r : ℕ × F32 × Bool} (h : Scanned K metric nodes query
      (node.layerOrEmpty layer) start [] r) (himproved : r.2.2 = false) :
    IsLocalMin (Lists nodes layer) (Closer K metric nodes query) start := by
  intro n hn
  rcases h.least n ((lists_iff hnode).mp hn) with hnil | hnot
  · simp at hnil
  · rwa [h.stayed himproved] at hnot

theorem Scanned.toHop {node : Node} (hnode : nodes[start]? = some node)
    {r : ℕ × F32 × Bool} (h : Scanned K metric nodes query
      (node.layerOrEmpty layer) start [] r) (himproved : r.2.2 = true) :
    Hop (Lists nodes layer) (Closer K metric nodes query) start r.1 := by
  obtain ⟨hmem, hcloser⟩ := h.moved himproved
  refine ⟨(lists_iff hnode).mpr hmem, hcloser, fun n hn => ?_⟩
  rcases h.least n ((lists_iff hnode).mp hn) with hnil | hnot
  · simp at hnil
  · exact hnot

end Pass

/-! ## The loop -/

section Loop

variable (K : Kernel) (metric : Metric) (nodes : Nodes) (query : List F32)
variable (layer : ℕ)

/-- The loop of `greedy_search_layer` as it stands, without fuel: being at
`current`, it passes over lists until it returns a node. -/
inductive Settles : ℕ → F32 → ℕ → Prop
  | stop {current currentDist node best bestDist}
      (hnode : nodes[current]? = some node)
      (hpass : greedyPass K metric nodes query (node.layerOrEmpty layer)
        current currentDist = .ok (best, bestDist, false)) :
      Settles current currentDist best
  | again {current currentDist node best bestDist r}
      (hnode : nodes[current]? = some node)
      (hpass : greedyPass K metric nodes query (node.layerOrEmpty layer)
        current currentDist = .ok (best, bestDist, true))
      (hrest : Settles best bestDist r) :
      Settles current currentDist r

variable {K metric nodes query layer} {current entry r : ℕ} {d : F32}

theorem Settles.greedyLoop_eq
    (h : Settles K metric nodes query layer current d r) :
    ∃ enough, ∀ more, greedyLoop K metric nodes query layer (enough + more)
      current d = .ok r := by
  induction h with
  | stop hnode hpass =>
      refine ⟨1, fun more => ?_⟩
      rw [Nat.add_comm, greedyLoop, nodeAt_of_getElem? hnode]
      simp only [bind, Except.bind, hpass]
      rfl
  | again hnode hpass _ ih =>
      obtain ⟨enough, hreturns⟩ := ih
      refine ⟨enough + 1, fun more => ?_⟩
      rw [Nat.add_right_comm, greedyLoop, nodeAt_of_getElem? hnode]
      simp only [bind, Except.bind, hpass]
      exact hreturns more

/-- The loop ends, and its passes are a descent. -/
theorem exists_settles (hexist : NeighborsExist nodes)
    (hstrict : IsStrictOrder ℕ (Closer K metric nodes query))
    (hcurrent : current < nodes.length)
    (hd : dist K metric nodes current query = .ok d) :
    ∃ r, Settles K metric nodes query layer current d r ∧
      Descent (Lists nodes layer) (Closer K metric nodes query) current r := by
  -- Along the hops; the distance is always that of the node.
  refine hop_induction (Lists nodes layer) (Closer K metric nodes query)
    (S := {i | i < nodes.length}) (motive := fun i => ∀ d,
      dist K metric nodes i query = .ok d →
        ∃ r, Settles K metric nodes query layer i d r ∧
          Descent (Lists nodes layer) (Closer K metric nodes query) i r)
    (Set.finite_lt_nat _) (fun i _ n hn => hexist.lt_of_lists hn)
    (fun i hi ih d hd => ?_) hcurrent d hd
  have hnode := List.getElem?_eq_getElem hi
  have hnbrs : ∀ n ∈ nodes[i].layerOrEmpty layer, n < nodes.length :=
    fun n hn => hexist.lt_of_lists ((lists_iff hnode).mpr hn)
  obtain ⟨⟨best, bestDist, improved⟩, hpass, hscanned⟩ :=
    greedyPass_scanned hstrict hd hnbrs
  cases improved with
  | false =>
      obtain rfl := hscanned.stayed rfl
      exact ⟨_, .stop hnode hpass, .stay (hscanned.isLocalMin hnode rfl)⟩
  | true =>
      have hop := hscanned.toHop hnode rfl
      obtain ⟨r, hsettles, hdescent⟩ := ih best hop bestDist hscanned.dist_eq
      exact ⟨r, .again hnode hpass hsettles, hop.descent hdescent⟩

theorem greedySearchLayer_descent (hexist : NeighborsExist nodes)
    (horder : K.StrictOn (nodeScores K metric nodes query))
    (hentry : entry < nodes.length) :
    ∃ d r, dist K metric nodes entry query = .ok d ∧
      Settles K metric nodes query layer entry d r ∧
      greedySearchLayer K metric nodes query entry layer = .ok r ∧
      Descent (Lists nodes layer) (Closer K metric nodes query) entry r := by
  obtain ⟨d, hd, -⟩ := dist_returns_of_lt hentry
  obtain ⟨r, hsettles, hdescent⟩ := exists_settles hexist horder.closer hentry
    hd
  refine ⟨d, r, hd, hsettles, ?_, hdescent⟩
  obtain ⟨enough, hreturns⟩ := hsettles.greedyLoop_eq
  rw [greedySearchLayer_add_fuel horder enough, hd, Nat.add_comm]
  exact hreturns _

theorem atLeastAsClose_of_descent (hexist : NeighborsExist nodes)
    (hstrict : IsStrictOrder ℕ (Closer K metric nodes query))
    (hentry : entry < nodes.length)
    (h : Descent (Lists nodes layer) (Closer K metric nodes query) entry r) :
    AtLeastAsClose K metric nodes query r entry :=
  atLeastAsClose_of_not_closer (hexist.lt_of_reachable hentry h.reachable)
    hentry h.not_closer

end Loop

/-! ## From layer to layer -/

section Layers

variable (K : Kernel) (metric : Metric) (nodes : Nodes) (query : List F32)

/-- `descend`, with the node at which it leaves each layer. -/
def descents (floor : ℕ) : ℕ → ℕ → Except IndexError (List ℕ)
  | 0, _ => return []
  | layer + 1, curr =>
      if layer + 1 > floor then do
        let curr ← greedySearchLayer K metric nodes query curr (layer + 1)
        let path ← descents floor layer curr
        return curr :: path
      else return []

variable {K metric nodes query} {curr floor top : ℕ}

theorem descend_eq_descents :
    descend K metric nodes query floor top curr = (do
      let path ← descents K metric nodes query floor top curr
      return path.getLastD curr) := by
  induction top generalizing curr with
  | zero => rfl
  | succ top ih =>
      rw [descend, descents]
      split_ifs
      · simp only [ih, bind_assoc, pure_bind, List.getLastD_cons]
      · rfl

/-- Each layer is left no farther from the query than it is entered. -/
theorem descents_returns (hexist : NeighborsExist nodes)
    (horder : K.StrictOn (nodeScores K metric nodes query))
    (hcurr : curr < nodes.length) :
    Returns (descents K metric nodes query floor top curr) (fun path =>
      (curr :: path).IsChain
        fun i j => AtLeastAsClose K metric nodes query j i) := by
  induction top generalizing curr with
  | zero => exact Returns.pure (List.isChain_singleton curr)
  | succ top ih =>
      rw [descents]
      split_ifs
      · obtain ⟨d, r, -, -, hsearch, hdescent⟩ := @greedySearchLayer_descent K
          metric nodes query (top + 1) curr hexist horder hcurr
        have hr := hexist.lt_of_reachable hcurr hdescent.reachable
        have hclose := atLeastAsClose_of_descent hexist horder.closer hcurr
          hdescent
        have hreturns : Returns (greedySearchLayer K metric nodes query curr
          (top + 1)) (· = r) := ⟨r, hsearch, rfl⟩
        refine hreturns.bind ?_
        rintro _ rfl
        refine (ih hr).bind fun path hpath => Returns.pure ?_
        exact List.isChain_cons_cons.mpr ⟨hclose, hpath⟩
      · exact Returns.pure (List.isChain_singleton curr)

/-- The descent from `top` returns, and no layer is left farther from the query
than it is entered. -/
def DescendsCloser (K : Kernel) (metric : Metric) (nodes : Nodes)
    (query : List F32) (floor top entry : ℕ) : Prop :=
  ∃ path, descents K metric nodes query floor top entry = .ok path ∧
    descend K metric nodes query floor top entry =
      .ok (path.getLastD entry) ∧
    (entry :: path).IsChain fun i j => AtLeastAsClose K metric nodes query j i

theorem descendsCloser (hexist : NeighborsExist nodes)
    (horder : K.StrictOn (nodeScores K metric nodes query))
    (hcurr : curr < nodes.length) :
    DescendsCloser K metric nodes query floor top curr := by
  obtain ⟨path, hpath, hchain⟩ := descents_returns hexist horder hcurr
  refine ⟨path, hpath, ?_, hchain⟩
  rw [descend_eq_descents, hpath]
  rfl

end Layers

namespace HnswIndex

variable {K : Kernel} {idx : HnswIndex} {entry : ℕ}

/-- Where all listed neighbours exist and `<` is a strict weak order of the
scores, the greedy search of a layer ends, at a node that can be reached from
its entry and is at least as close to the query as the entry and as each of its
own neighbours.  The descent of a search, and that of an insertion among the
nodes with the new one, comes no farther from the query on any layer. -/
theorem greedy_descends (hexist : NeighborsExist idx.nodes)
    (hentry : entry < idx.nodes.length) :
    (∀ query layer,
      K.StrictWeakOn (nodeScores K idx.metric idx.nodes query) →
      ∃ d r, dist K idx.metric idx.nodes entry query = .ok d ∧
        Settles K idx.metric idx.nodes query layer entry d r ∧
        greedySearchLayer K idx.metric idx.nodes query entry layer = .ok r ∧
        ReachableOn idx.nodes layer entry r ∧
        AtLeastAsClose K idx.metric idx.nodes query r entry ∧
        ∀ n, Lists idx.nodes layer r n →
          AtLeastAsClose K idx.metric idx.nodes query r n) ∧
    (∀ query entryLevel,
      K.StrictWeakOn (nodeScores K idx.metric idx.nodes query) →
      DescendsCloser K idx.metric idx.nodes query 0 entryLevel entry) ∧
    ∀ nodeLevel rng id vector entryLevel,
      K.StrictWeakOn (nodeScores K idx.metric
        (idx.allocate nodeLevel rng id vector).nodes vector) →
      DescendsCloser K idx.metric (idx.allocate nodeLevel rng id vector).nodes
        vector nodeLevel entryLevel entry := by
  refine ⟨fun query layer horder => ?_, fun query entryLevel horder => ?_,
    fun nodeLevel rng id vector entryLevel horder => ?_⟩
  · have hstrict : K.StrictOn _ := horder.toIsStrictOrder
    obtain ⟨d, r, hd, hsettles, hsearch, hdescent⟩ :=
      greedySearchLayer_descent hexist hstrict hentry
    have hreach := hdescent.reachable
    refine ⟨d, r, hd, hsettles, hsearch, hreach, ?_, fun n hn => ?_⟩
    · exact atLeastAsClose_of_descent hexist hstrict.closer hentry hdescent
    · exact atLeastAsClose_of_not_closer
        (hexist.lt_of_reachable hentry hreach) (hexist.lt_of_lists hn)
        (hdescent.isLocalMin n hn)
  · exact descendsCloser hexist horder.toIsStrictOrder hentry
  · refine descendsCloser (hexist.append_isolated id vector (nodeLevel + 1))
      horder.toIsStrictOrder ?_
    rw [allocate, List.length_append]
    exact Nat.lt_add_right _ hentry

/-- Three points on a line, of which the first lists the others and only the
second lists it back.  The first two are equally far from the third. -/
def triangle : HnswIndex where
  dim := 1
  metric := .l2
  params := .default
  nodes :=
    [⟨1, [F32.one], [[1, 2], [1, 2]]⟩, ⟨2, [F32.one], [[0], [0]]⟩,
      ⟨3, [F32.zero], [[], []]⟩]
  idToNode := .ofList [((1 : UInt64), 0), (2, 1), (3, 2)]
  deleted := [false, false, false]
  live := 3
  entryPoint := some 0
  rng := ⟨0⟩

example : greedySearchLayer .onLine .l2 triangle.nodes [F32.zero] 0 1 =
    .ok 2 := by
  decide +kernel

theorem greedy_descends_triangle :
    (∃ d r, dist .onLine .l2 triangle.nodes 0 [F32.zero] = .ok d ∧
      Settles .onLine .l2 triangle.nodes [F32.zero] 1 0 d r ∧
      greedySearchLayer .onLine .l2 triangle.nodes [F32.zero] 0 1 = .ok r ∧
      ReachableOn triangle.nodes 1 0 r ∧
      AtLeastAsClose .onLine .l2 triangle.nodes [F32.zero] r 0 ∧
      ∀ n, Lists triangle.nodes 1 r n →
        AtLeastAsClose .onLine .l2 triangle.nodes [F32.zero] r n) ∧
    DescendsCloser .onLine .l2 triangle.nodes [F32.zero] 0 1 0 ∧
    DescendsCloser .onLine .l2
      (triangle.allocate 0 ⟨0⟩ 4 [F32.zero]).nodes [F32.zero] 0 1 0 := by
  have hexist : NeighborsExist triangle.nodes := by
    unfold NeighborsExist
    decide +kernel
  have hnumbers := Kernel.preordersOn_numbers Kernel.onLine_partialCmp
  have horder : Kernel.StrictWeakOn .onLine
      (nodeScores .onLine .l2 triangle.nodes [F32.zero]) := by
    apply (hnumbers.mono (nodeScores_subset _)).strictWeakOn
    change ∀ node ∈ triangle.nodes,
      F32.place (Kernel.onLine.distance .l2 node.vector [F32.zero]) ≠ none
    decide +kernel
  have horder' : Kernel.StrictWeakOn .onLine (nodeScores .onLine .l2
      (triangle.allocate 0 ⟨0⟩ 4 [F32.zero]).nodes [F32.zero]) := by
    apply (hnumbers.mono (nodeScores_subset _)).strictWeakOn
    change ∀ node ∈ (triangle.allocate 0 ⟨0⟩ 4 [F32.zero]).nodes,
      F32.place (Kernel.onLine.distance .l2 node.vector [F32.zero]) ≠ none
    decide +kernel
  obtain ⟨hlayer, hsearch, hinsert⟩ :=
    @greedy_descends .onLine triangle 0 hexist (by decide)
  exact ⟨hlayer [F32.zero] 1 horder, hsearch [F32.zero] 1 horder,
    hinsert 0 ⟨0⟩ 4 [F32.zero] 1 horder'⟩

end HnswIndex

end Quorvec
