import Bigraphs.Bipartite.Maximum
import Bigraphs.Control
import Bigraphs.Matching.Problem

/-! # The table of explained neighbours

For an agent vertex `v` and a redex vertex `u`, the table records which members of the neighbourhood
of `u` are explained when `v` plays `u`. It records `u` itself if all neighbours of `u` can be
played by distinct children of `v`; it records the neighbour `w` if all the others can. So `v` can
play the redex node `u` together with everything below it when the parent of `u` is recorded.

The table is filled from the leaves of the agent upwards. At `(v, u)` a maximum pairing matches the
neighbours of `u` with the children of `v`, once with all neighbours and once with each of them held
out. A vertex that tolerates more children may leave some of them unpaired. -/

namespace Bigraphs

/-- A table of lists, one for each agent place and redex place. -/
structure Table where
  rows : Array (Array (List PlaceId))
deriving DecidableEq

namespace Table

/-- The table without entries. -/
def empty : Table := ⟨#[]⟩

variable (t : Table)

/-- The neighbours explained at `(v, u)`; none when nothing is recorded there. -/
def get (v u : PlaceId) : List PlaceId := (t.rows[v]?.bind (·[u]?)).getD []

/-- `w` is explained at `(v, u)`. -/
def explains (v u w : PlaceId) : Bool := (t.get v u).contains w

end Table

namespace Problem

variable (q : Problem)

/-- The redex vertex `u` is a root, or the agent vertex `v` is a node of the same control. -/
def vertexCompatible (v u : PlaceId) : Bool :=
  q.redex.control u = none || q.redex.control u = q.agent.control v

/-- The cases at the redex vertex `u`: what is explained, the position of the neighbour that is
held out, and the neighbours that have to be played. -/
def cases (u : PlaceId) : List (PlaceId × Option Nat × List PlaceId) :=
  let neighbours := q.redex.neighbourhood u
  (u, none, neighbours) :: neighbours.zipIdx.map fun (w, i) => (w, some i, neighbours.eraseIdx i)

/-- The neighbours `played` of `u`, those of the graph except the one held out, can be played by
distinct children of an agent vertex: all of the `children` if `u` does not tolerate others. With
nothing held out, a neighbour that no child can play decides the case before any pairing is made. -/
def caseHolds (u : PlaceId) (children : List PlaceId) (graph : BipartiteGraph)
    (heldOut : Option Nat) (played : List PlaceId) : Bool :=
  (q.redex.isOpen u || played.length = children.length) &&
    !(graph.hasIsolated && heldOut.isNone) &&
    (graph.maximum heldOut).size = played.length &&
    Control.compatible (played.filterMap q.redex.control) (children.filterMap q.agent.control)
      (if q.redex.isOpen u then .within else .equal)

/-- What is explained at `(v, u)`, for an agent vertex `v` that is no leaf. -/
def explained (t : Table) (v u : PlaceId) : List PlaceId :=
  let children := q.agent.vertexChildren v
  if q.redex.isSite u || children.length + 1 < q.redex.degree u || !q.vertexCompatible v u then []
  else
    let graph := BipartiteGraph.ofLists (fun w c => t.explains c w u) (q.redex.neighbourhood u)
      children
    ((q.cases u).filter fun (_, heldOut, played) =>
      q.caseHolds u children graph heldOut played).map (·.1)

/-- What is explained at `(v, u)`, for an agent leaf `v`: all neighbours of a redex leaf of the same
control. -/
def leafExplained (v u : PlaceId) : List PlaceId :=
  if q.redex.isLeaf u && q.agent.control v = q.redex.control u then q.redex.neighbourhood u else []

/-- The entries of the agent vertex `v`, given those of its children. -/
def row (t : Table) (v : PlaceId) : Array (List PlaceId) :=
  (q.redex.placeIds.map (if q.agent.isLeaf v then q.leafExplained v else q.explained t v)).toArray

/-- **The table,** filled with every agent vertex after its children. -/
def table : Table :=
  q.agent.postOrder.foldl (fun t v => ⟨t.rows.setIfInBounds v (q.row t v)⟩)
    ⟨.replicate q.agent.places.size #[]⟩

/-- The entries that are not empty, over the vertices of the agent and of the redex. -/
def entries (t : Table) : List (PlaceId × PlaceId × List PlaceId) :=
  q.agent.vertices.flatMap fun v => q.redex.vertices.filterMap fun u =>
    if (t.get v u).isEmpty then none else some (v, u, t.get v u)

end Problem

end Bigraphs
