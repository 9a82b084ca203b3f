/-! # Bipartite graphs and pairings

A bipartite graph lists, for each left vertex, its right neighbours in the order in which the edges
were added. A pairing holds the partner of every vertex on both sides, and the left vertex that was
held out of it, if any. -/

namespace Bigraphs

/-- A bipartite graph. -/
structure BipartiteGraph where
  /-- The right neighbours of each left vertex. -/
  adjacency : Array (List Nat)
  /-- The number of right vertices. -/
  rightSize : Nat
deriving DecidableEq

namespace BipartiteGraph

/-- The graph with this many vertices on either side and no edges. -/
def new (leftSize rightSize : Nat) : BipartiteGraph := ⟨.replicate leftSize [], rightSize⟩

/-- The graph between two lists in which `a` and `b` are adjacent when `adjacent a b`. -/
def ofLists {α β : Type} (adjacent : α → β → Bool) (as : List α) (bs : List β) : BipartiteGraph :=
  ⟨(as.map fun a => (bs.zipIdx.filter fun (b, _) => adjacent a b).map (·.2)).toArray, bs.length⟩

variable (g : BipartiteGraph)

/-- The number of left vertices. -/
def leftSize : Nat := g.adjacency.size

/-- The neighbours of the left vertex `x`. -/
def neighbours (x : Nat) : List Nat := g.adjacency[x]?.getD []

/-- The graph with the edge from `x` to `y` added, if there is a left vertex `x`. -/
def addEdge? (x y : Nat) : Option BipartiteGraph :=
  if x < g.leftSize then some { g with adjacency := g.adjacency.modify x (· ++ [y]) } else none

/-- Some left vertex has no edge. -/
def hasIsolated : Bool := g.adjacency.toList.any (·.isEmpty)

/-- Every edge ends in a right vertex. -/
def InRange : Prop := ∀ ys ∈ g.adjacency.toList, ∀ y ∈ ys, y < g.rightSize

instance : Decidable g.InRange := by unfold InRange; infer_instance

end BipartiteGraph

/-- A pairing between the two sides of a bipartite graph. -/
structure Pairing where
  /-- The partner of each left vertex. -/
  left : Array (Option Nat)
  /-- The partner of each right vertex. -/
  right : Array (Option Nat)
  /-- The left vertex that takes no part. -/
  heldOut : Option Nat
deriving DecidableEq

namespace Pairing

/-- The pairing on no vertices. -/
def empty : Pairing := ⟨#[], #[], none⟩

variable (p : Pairing)

/-- The partner of the left vertex `x`. -/
def partner (x : Nat) : Option Nat := p.left[x]?.join

/-- The left vertex `x` takes part and has no partner. -/
def isFree (x : Nat) : Bool := p.heldOut ≠ some x && p.left[x]? = some none

/-- The pairing with `x` and `y` as partners. -/
def join (x y : Nat) : Pairing :=
  { p with left := p.left.setIfInBounds x (some y), right := p.right.setIfInBounds y (some x) }

/-- **The pairs,** by left vertex. -/
def pairs : List (Nat × Nat) :=
  (List.range p.left.size).filterMap fun x => (p.partner x).map (x, ·)

/-- The number of pairs. -/
def size : Nat := p.pairs.length

end Pairing

end Bigraphs
