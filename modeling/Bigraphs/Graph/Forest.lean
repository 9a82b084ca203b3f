import Bigraphs.Graph.Basic

/-! # Walks through the forest of places

Ancestors, descendants, and the two orders in which all places are visited. A walk goes down or up
one generation at a time, and a forest of `n` places has at most `n` generations: that number is
the bound of every recursion here.

For matching, the vertices of a bigraph are its roots and its nodes. A site is no vertex: it only
says that the vertex above it tolerates more children than it shows. -/

namespace Bigraphs

namespace Bigraph

variable (g : Bigraph)

/-! ### Up and down -/

/-- The nearest `n` strict ancestors of `p`, nearest first. -/
def ancestorsUpTo : Nat → PlaceId → List PlaceId
  | 0, _ => []
  | n + 1, p =>
    match g.parent p with
    | none => []
    | some q => q :: ancestorsUpTo n q

/-- **The strict ancestors** of `p`, nearest first. -/
def ancestors (p : PlaceId) : List PlaceId := g.ancestorsUpTo g.places.size p

/-- `a` is a strict ancestor of `p`. -/
def isAncestor (a p : PlaceId) : Bool := (g.ancestors p).contains a

/-- The first `n` generations that start with `generation`, one after the other. -/
def generations (below : PlaceId → List PlaceId) : Nat → List PlaceId → List PlaceId
  | 0, _ => []
  | _ + 1, [] => []
  | n + 1, generation => generation ++ generations below n (generation.flatMap below)

/-- **The strict descendants** of `p`, by generations. -/
def descendants (p : PlaceId) : List PlaceId := generations g.children g.places.size (g.children p)

/-- **Breadth-first order:** the roots by index, then each generation below the one before. -/
def bfsOrder : List PlaceId := generations g.children g.places.size g.roots

/-- The first `n` generations of the tree at `p`, each place after what lies below it. -/
def postOrderFrom : Nat → PlaceId → List PlaceId
  | 0, _ => []
  | n + 1, p => (g.children p).flatMap (postOrderFrom n) ++ [p]

/-- **Post-order:** the trees of the roots by index, each place after its descendants. -/
def postOrder : List PlaceId := g.roots.flatMap (g.postOrderFrom g.places.size)

/-! ### Vertices and neighbourhoods -/

/-- **The vertices:** the roots, then the nodes. -/
def vertices : List PlaceId := g.roots ++ g.nodes

/-- The children of `v` that are no sites. -/
def vertexChildren (v : PlaceId) : List PlaceId := (g.children v).filter (!g.isSite ·)

/-- The number of neighbours of `v`. -/
def degree (v : PlaceId) : Nat := (g.vertexChildren v).length + (g.parent v).toList.length

/-- **The neighbourhood** of `v`: its children that are no sites, then its parent. -/
def neighbourhood (v : PlaceId) : List PlaceId := g.vertexChildren v ++ (g.parent v).toList

/-- A node whose children are all sites. -/
def isLeaf (v : PlaceId) : Bool := g.isNode v && (g.vertexChildren v).isEmpty

/-- `v` tolerates more children: it is a root, or it has a site as a child. -/
def isOpen (v : PlaceId) : Bool := g.isRoot v || (g.children v).any g.isSite

/-- The roots, and the nodes with children, each after what lies below it. -/
def internalPostOrder : List PlaceId := g.postOrder.filter fun v => g.isRoot v || !g.isLeaf v

end Bigraph

end Bigraphs
