import Quorvec.Hnsw.Distance
import Quorvec.Support.BinaryHeap
import Quorvec.Support.TotalCorrectness

/-!
# The layered graph: searching and wiring

The nodes of the graph are addressed by their index.  Every access to a node or
to one of its layers is checked, and an access outside the graph is a panic, as
it is in the source; node indices are natural numbers, which agree with `u32`
for graphs of fewer than `2 ^ 32` nodes.

No search panics on a linked graph, that is, one in which every listed
neighbour exists and reaches up to the layer that lists it.  Wiring changes
adjacency lists only: the ids, the vectors and the heights of the nodes form
the shape of the graph, which wiring preserves.
-/

namespace Quorvec

open TotalCorrectness

/-- Errors of an index operation; an access out of range is a panic. -/
inductive IndexError
  | dimMismatch (expected got : ℕ)
  | panic
deriving DecidableEq, Repr

/-- The text of an error. -/
def IndexError.text : IndexError → String
  | dimMismatch expected got =>
      s!"dimension mismatch: index is {expected}-d, got {got}-d"
  | panic => "panic"

structure Node where
  id : UInt64
  vector : List F32
  /-- One adjacency list for each layer; the last is the top layer. -/
  neighbors : List (List ℕ)
deriving DecidableEq, Repr

abbrev Nodes := List Node

/-- `self.nodes[i]`. -/
def nodeAt (nodes : Nodes) (i : ℕ) : Except IndexError Node :=
  match nodes[i]? with
  | some node => .ok node
  | none => .error .panic

/-- `Vec::with_capacity(n)` for elements of `size` bytes, which panics when
their bytes do not fit an `isize`. -/
def withCapacity (size n : ℕ) : Except IndexError Unit :=
  if size * n < 2 ^ 63 then return () else .error .panic

theorem withCapacity_of_lt {size n : ℕ} (h : size * n < 2 ^ 63) :
    withCapacity size n = .ok () :=
  if_pos h

theorem withCapacity_of_not_lt {size n : ℕ} (h : ¬ size * n < 2 ^ 63) :
    withCapacity size n = .error .panic :=
  if_neg h

namespace Node

/-- `self.neighbors.len() - 1`, which panics on a node of no layer. -/
def topLayer (node : Node) : Except IndexError ℕ :=
  match node.neighbors.length with
  | 0 => .error .panic
  | n + 1 => .ok n

/-- `self.neighbors[layer]`. -/
def layerAt (node : Node) (layer : ℕ) : Except IndexError (List ℕ) :=
  match node.neighbors[layer]? with
  | some adj => .ok adj
  | none => .error .panic

/-- The adjacency list of a layer, empty above the top layer. -/
def layerOrEmpty (node : Node) (layer : ℕ) : List ℕ :=
  if layer < node.neighbors.length then node.neighbors.getD layer [] else []

end Node

/-- Apply `f` to one adjacency list. -/
def modifyLayer (nodes : Nodes) (i layer : ℕ) (f : List ℕ → List ℕ) :
    Except IndexError Nodes := do
  let node ← nodeAt nodes i
  let adj ← node.layerAt layer
  return nodes.set i
    { node with neighbors := node.neighbors.set layer (f adj) }

/-! ## Searching -/

section Search

variable (K : Kernel) (metric : Metric) (nodes : Nodes)

/-- Distance of a node to the query. -/
def dist (a : ℕ) (query : List F32) : Except IndexError F32 := do
  return K.distance metric (← nodeAt nodes a).vector query

/-- One pass over the neighbours of a node, hopping to each closer one. -/
def greedyPass (query : List F32) (nbrs : List ℕ) (current : ℕ)
    (currentDist : F32) : Except IndexError (ℕ × F32 × Bool) :=
  nbrs.foldlM (fun (current, currentDist, improved) nbr => do
    let d ← dist K metric nodes nbr query
    if K.lt d currentDist then return (nbr, d, true)
    else return (current, currentDist, improved))
    (current, currentDist, false)

/-- Passes until one does not improve. -/
def greedyLoop (query : List F32) (layer : ℕ) :
    ℕ → ℕ → F32 → Except IndexError ℕ
  | 0, current, _ => return current
  | fuel + 1, current, currentDist => do
      let node ← nodeAt nodes current
      let (current, currentDist, improved) ← greedyPass K metric nodes query
        (node.layerOrEmpty layer) current currentDist
      if improved then greedyLoop query layer fuel current currentDist
      else return current

/-- Greedy descent on one layer.  Each improving pass ends on a node strictly
closer than all before, so there are at most as many as there are nodes. -/
def greedySearchLayer (query : List F32) (entry layer : ℕ) :
    Except IndexError ℕ := do
  let currentDist ← dist K metric nodes entry query
  greedyLoop K metric nodes query layer (nodes.length + 1) entry currentDist

structure SearchState where
  visited : Finset ℕ
  /-- Min-heap of the candidates to expand. -/
  candidates : List Candidate
  /-- Max-heap of the best results, the farthest at the top. -/
  results : List Candidate

/-- Remove the farthest result while there are more than `ef`. -/
def dropFarthest (ef : ℕ) (results : List Candidate) : List Candidate :=
  if results.length > ef then
    match BinaryHeap.pop (Candidate.maxLe K) results with
    | some (_, rest) => rest
    | none => results
  else results

/-- Visit one neighbour of the expanded candidate. -/
def visitNeighbor (query : List F32) (ef : ℕ) (st : SearchState) (nbr : ℕ) :
    Except IndexError SearchState :=
  if nbr ∈ st.visited then return st
  else do
    let visited := insert nbr st.visited
    let d ← dist K metric nodes nbr query
    let worst := ((BinaryHeap.peek st.results).map Candidate.dist).getD
      K.infinity
    if K.lt d worst ∨ st.results.length < ef then
      let candidates :=
        BinaryHeap.push (Candidate.minLe K) st.candidates ⟨d, nbr⟩
      let results := BinaryHeap.push (Candidate.maxLe K) st.results ⟨d, nbr⟩
      return { visited, candidates, results := dropFarthest K ef results }
    else return { st with visited }

/-- The nearest unexpanded candidate is farther than the worst of `ef`
results. -/
def isFarther (ef : ℕ) (results : List Candidate) (c : Candidate) : Bool :=
  match BinaryHeap.peek results with
  | some worst => K.gt c.dist worst.dist && decide (results.length ≥ ef)
  | none => false

/-- Expand candidates, nearest first. -/
def searchLoop (query : List F32) (ef layer : ℕ) :
    ℕ → SearchState → Except IndexError SearchState
  | 0, st => return st
  | fuel + 1, st =>
      match BinaryHeap.pop (Candidate.minLe K) st.candidates with
      | none => return st
      | some (c, candidates) =>
          if isFarther K ef st.results c then return { st with candidates }
          else do
            let node ← nodeAt nodes c.node
            let st ← (node.layerOrEmpty layer).foldlM
              (visitNeighbor K metric nodes query ef) { st with candidates }
            searchLoop query ef layer fuel st

/-- Up to `ef` nodes near the query that are reachable from `entry` on a
layer, unsorted.  Each node is expanded at most once. -/
def searchLayer (query : List F32) (entry ef layer : ℕ) :
    Except IndexError (List Candidate) := do
  let entryDist ← dist K metric nodes entry query
  let st ← searchLoop K metric nodes query ef layer (nodes.length + 1)
    { visited := {entry}
      candidates := BinaryHeap.push (Candidate.minLe K) [] ⟨entryDist, entry⟩
      results := BinaryHeap.push (Candidate.maxLe K) [] ⟨entryDist, entry⟩ }
  return st.results

/-- No selected neighbour is closer to the candidate than `candDist`. -/
def keeps (candDist : F32) (cand : ℕ) : List ℕ → Except IndexError Bool
  | [] => return true
  | s :: selected => do
      let dToSelected := K.distance metric (← nodeAt nodes cand).vector
        (← nodeAt nodes s).vector
      if K.lt dToSelected candDist then return false
      else keeps candDist cand selected

/-- Select from sorted candidates until `m` are selected. -/
def selectLoop (m : ℕ) :
    List Candidate → List ℕ → Except IndexError (List ℕ)
  | [], selected => return selected
  | c :: cands, selected =>
      if selected.length ≥ m then return selected
      else do
        if ← keeps K metric nodes c.dist c.node selected then
          selectLoop m cands (selected ++ [c.node])
        else selectLoop m cands selected

/-- The pruning heuristic: at most `m` of the candidates, nearest first, each
closer to the base than to every one selected before. -/
def selectNeighborsHeuristic (candidates : List Candidate) (m : ℕ) :
    Except IndexError (List ℕ) := do
  -- the capacity of a `Vec<u32>`
  withCapacity 4 m
  selectLoop K metric nodes m (Candidate.sortByDist K candidates) []

theorem selectNeighborsHeuristic_of_lt {m : ℕ} (h : 4 * m < 2 ^ 63)
    (candidates : List Candidate) :
    selectNeighborsHeuristic K metric nodes candidates m =
      selectLoop K metric nodes m (Candidate.sortByDist K candidates) [] := by
  rw [selectNeighborsHeuristic, withCapacity_of_lt h]
  rfl

theorem selectNeighborsHeuristic_of_not_lt {m : ℕ} (h : ¬ 4 * m < 2 ^ 63)
    (candidates : List Candidate) :
    selectNeighborsHeuristic K metric nodes candidates m = .error .panic := by
  rw [selectNeighborsHeuristic, withCapacity_of_not_lt h]
  rfl

/-- Descend greedily from `layer` to the layer above `floor`. -/
def descend (query : List F32) (floor : ℕ) : ℕ → ℕ → Except IndexError ℕ
  | 0, curr => return curr
  | layer + 1, curr =>
      if layer + 1 > floor then do
        let curr ← greedySearchLayer K metric nodes query curr (layer + 1)
        descend query floor layer curr
      else return curr

end Search

/-! ## Wiring -/

section Wiring

variable (K : Kernel) (metric : Metric)

/-- Distance of two nodes, with the second. -/
def candidateOf (nodes : Nodes) (base : List F32) (n : ℕ) :
    Except IndexError Candidate := do
  return ⟨K.distance metric base (← nodeAt nodes n).vector, n⟩

/-- Re-select an adjacency list that has become too long. -/
def pruneNeighbors (nodes : Nodes) (node layer m : ℕ) :
    Except IndexError Nodes := do
  let base := (← nodeAt nodes node).vector
  let current ← (← nodeAt nodes node).layerAt layer
  let cands ← current.mapM (candidateOf K metric nodes base)
  let kept ← selectNeighborsHeuristic K metric nodes cands m
  modifyLayer nodes node layer fun _ => kept

/-- List the new node at one of its neighbours. -/
def linkBack (newIdx layer m : ℕ) (nodes : Nodes) (nbr : ℕ) :
    Except IndexError Nodes := do
  let nodes ← modifyLayer nodes nbr layer (· ++ [newIdx])
  let adj ← (← nodeAt nodes nbr).layerAt layer
  if adj.length > m then pruneNeighbors K metric nodes nbr layer m
  else return nodes

/-- Find and wire the neighbours of the new node on one layer.  Returns the
entry for the layer below. -/
def connectLayer (efConstruction m : ℕ) (vector : List F32) (newIdx : ℕ)
    (nodes : Nodes) (entry layer : ℕ) : Except IndexError (Nodes × ℕ) := do
  let found ← searchLayer K metric nodes vector entry efConstruction layer
  let entry := ((Candidate.nearest K found).map Candidate.node).getD entry
  let selected ← selectNeighborsHeuristic K metric nodes found m
  let nodes ← modifyLayer nodes newIdx layer fun _ => selected
  let nodes ← selected.foldlM (linkBack K metric newIdx layer m) nodes
  return (nodes, entry)

/-- Wire the new node on the layers below `layers`, from the top. -/
def connectLayers (efConstruction : ℕ) (mMax : ℕ → ℕ) (vector : List F32)
    (newIdx : ℕ) : ℕ → Nodes → ℕ → Except IndexError Nodes
  | 0, nodes, _ => return nodes
  | layer + 1, nodes, entry => do
      let (nodes, entry) ← connectLayer K metric efConstruction (mMax layer)
        vector newIdx nodes entry layer
      connectLayers efConstruction mMax vector newIdx layer nodes entry

end Wiring

end Quorvec
