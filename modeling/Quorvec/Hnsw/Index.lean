import Quorvec.Hnsw.Graph
import Std.Data.ExtTreeMap

/-!
# The index

The index is a graph together with the map from ids to nodes, the tombstones,
the live counter, the entry point and the generator that draws the layer of
each new node.  Deleted nodes stay in the graph as waypoints; inserting a known
id overwrites its vector in place and revives it.
-/

namespace Quorvec

structure HnswParams where
  /-- Neighbours on layers above the base layer. -/
  m : ℕ
  /-- Neighbours on the base layer. -/
  m0 : ℕ
  efConstruction : ℕ
deriving DecidableEq, Repr

/-- `HnswParams::default`. -/
def HnswParams.default : HnswParams :=
  { m := 16, m0 := 32, efConstruction := 200 }

/-- No list of selected neighbours overflows its capacity. -/
def HnswParams.Fits (params : HnswParams) : Prop :=
  params.m < 2 ^ 61 ∧ params.m0 < 2 ^ 61
deriving Decidable

/-- The generator's state. -/
structure SplitMix64 where
  state : UInt64
deriving DecidableEq, Repr

namespace SplitMix64

def nextU64 (g : SplitMix64) : UInt64 × SplitMix64 :=
  let state := g.state + 0x9E3779B97F4A7C15
  let z := (state ^^^ (state >>> 30)) * 0xBF58476D1CE4E5B9
  let z := (z ^^^ (z >>> 27)) * 0x94D049BB133111EB
  (z ^^^ (z >>> 31), { state })

/-- The 53 bits from which the unit float is made. -/
def nextBits (g : SplitMix64) : UInt64 × SplitMix64 :=
  let (v, g) := g.nextU64
  (v >>> 11, g)

end SplitMix64

structure HnswIndex where
  dim : ℕ
  metric : Metric
  params : HnswParams
  nodes : Nodes
  idToNode : Std.ExtTreeMap UInt64 ℕ
  deleted : List Bool
  /-- Number of nodes without a tombstone. -/
  live : ℕ
  entryPoint : Option ℕ
  rng : SplitMix64

namespace HnswIndex

/-- `HnswIndex::with_params`, which asserts that its arguments are admissible. -/
def withParams (dim : ℕ) (metric : Metric) (params : HnswParams)
    (seed : UInt64) : Except IndexError HnswIndex :=
  if 0 < dim ∧ 2 ≤ params.m ∧ params.m ≤ params.m0 ∧
      1 ≤ params.efConstruction then
    .ok
      { dim, metric, params
        nodes := []
        idToNode := ∅
        deleted := []
        live := 0
        entryPoint := none
        rng := { state := seed } }
  else .error .panic

def new (dim : ℕ) (metric : Metric) : Except IndexError HnswIndex :=
  withParams dim metric .default 0x5EED1234ABCD0001

/-- Live points. -/
def len (idx : HnswIndex) : ℕ := idx.live

/-- Neighbours permitted on a layer. -/
def mMax (params : HnswParams) (layer : ℕ) : ℕ :=
  if layer = 0 then params.m0 else params.m

theorem mMax_fits {params : HnswParams} (h : params.Fits) (layer : ℕ) :
    4 * mMax params layer < 2 ^ 63 := by
  obtain ⟨hm, hm0⟩ := h
  rw [mMax]
  split_ifs <;> omega

section Operations

variable (K : Kernel)

/-- Draw the top layer of a new node. -/
def randomLevel (idx : HnswIndex) : ℕ × SplitMix64 :=
  let (bits, rng) := idx.rng.nextBits
  (K.level idx.params.m bits, rng)

/-- Descend to the new node's layers and wire it on each. -/
def connect (idx : HnswIndex) (entry nodeLevel newIdx : ℕ)
    (vector : List F32) : Except IndexError HnswIndex := do
  let entryLevel ← (← nodeAt idx.nodes entry).topLayer
  let curr ← descend K idx.metric idx.nodes vector nodeLevel entryLevel entry
  let nodes ← connectLayers K idx.metric idx.params.efConstruction
    (mMax idx.params) vector newIdx (min nodeLevel entryLevel + 1) idx.nodes
    curr
  return { idx with
    nodes
    entryPoint := if nodeLevel > entryLevel then some newIdx
      else idx.entryPoint }

/-- Allocate a node of the drawn height with empty adjacency. -/
def allocate (idx : HnswIndex) (nodeLevel : ℕ) (rng : SplitMix64)
    (id : UInt64) (vector : List F32) : HnswIndex :=
  { idx with
    nodes := idx.nodes ++
      [{ id, vector, neighbors := List.replicate (nodeLevel + 1) [] }]
    idToNode := idx.idToNode.insert id idx.nodes.length
    deleted := idx.deleted ++ [false]
    live := idx.live + 1
    rng }

/-- Insert an id that has no node yet. -/
def insertNew (idx : HnswIndex) (id : UInt64) (vector : List F32) :
    Except IndexError HnswIndex :=
  let (nodeLevel, rng) := idx.randomLevel K
  let newIdx := idx.nodes.length
  let idx := idx.allocate nodeLevel rng id vector
  match idx.entryPoint with
  | none => return { idx with entryPoint := some newIdx }
  | some entry => idx.connect K entry nodeLevel newIdx vector

/-- Overwrite the vector of a node in place and revive it.  The copy panics
when the lengths differ. -/
def overwrite (idx : HnswIndex) (i : ℕ) (vector : List F32) :
    Except IndexError HnswIndex := do
  let node ← nodeAt idx.nodes i
  if node.vector.length ≠ vector.length then .error .panic
  else
    let idx := { idx with nodes := idx.nodes.set i { node with vector } }
    match idx.deleted[i]? with
    | none => .error .panic
    | some true =>
        return { idx with
          deleted := idx.deleted.set i false, live := idx.live + 1 }
    | some false => return idx

/-- Insert or replace. -/
def insert (idx : HnswIndex) (id : UInt64) (vector : List F32) :
    Except IndexError HnswIndex :=
  if vector.length ≠ idx.dim then
    .error (.dimMismatch idx.dim vector.length)
  else match idx.idToNode[id]? with
    | some i => idx.overwrite i vector
    | none => idx.insertNew K id vector

/-- Mark the id's node dead.  Returns whether a live point was removed. -/
def delete (idx : HnswIndex) (id : UInt64) :
    Except IndexError (HnswIndex × Bool) :=
  match idx.idToNode[id]? with
  | none => return (idx, false)
  | some i =>
      match idx.deleted[i]? with
      | none => .error .panic
      | some true => return (idx, false)
      | some false =>
          return ({ idx with
            deleted := idx.deleted.set i true, live := idx.live - 1 }, true)

/-- The stored vector of a live id. -/
def getVector (idx : HnswIndex) (id : UInt64) :
    Except IndexError (Option (List F32)) :=
  match idx.idToNode[id]? with
  | none => return none
  | some i =>
      match idx.deleted[i]? with
      | none => .error .panic
      | some true => return none
      | some false => return some (← nodeAt idx.nodes i).vector

/-- The result loop of `search`: skip tombstones, stop at `k` results. -/
def collect (idx : HnswIndex) (k : ℕ) :
    List Candidate → List (UInt64 × F32) →
      Except IndexError (List (UInt64 × F32))
  | [], out => return out
  | c :: found, out =>
      match idx.deleted[c.node]? with
      | none => .error .panic
      | some true => collect idx k found out
      | some false => do
          let node ← nodeAt idx.nodes c.node
          let out := out ++ [(node.id, c.dist)]
          if out.length = k then return out else collect idx k found out

/-- The `k` nearest live points that the graph search finds. -/
def search (idx : HnswIndex) (query : List F32) (k efSearch : ℕ) :
    Except IndexError (List (UInt64 × F32)) :=
  if query.length ≠ idx.dim then
    .error (.dimMismatch idx.dim query.length)
  else if k = 0 ∨ idx.live = 0 then return []
  else match idx.entryPoint with
    | none => return []
    | some entry => do
        let entryLevel ← (← nodeAt idx.nodes entry).topLayer
        let curr ← descend K idx.metric idx.nodes query 0 entryLevel entry
        let found ← searchLayer K idx.metric idx.nodes query curr
          (max efSearch k) 0
        -- the capacity of a `Vec<(u64, f32)>`
        withCapacity 16 k
        collect idx k (Candidate.sortByDist K found) []

end Operations

end HnswIndex

end Quorvec
