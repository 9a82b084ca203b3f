import Bigraphs.Signature

/-! # Bigraphs

A bigraph is a forest of places and a hypergraph of links over one set of nodes. The places are the
roots, the nodes and the sites; the links are the edges, which are closed, and the outer names,
which are open. A link holds points: ports of nodes, and inner names.

Places, links and inner names are numbered in the order of their creation, and every reference from
one to another is such a number. The children of a place, and the points of a link, are kept in
the order in which they were attached. Everything else is read off: the roots and the sites in the
order of their indices (`roots`, `sites`), the nodes in creation order (`nodes`).

A number that belongs to nothing has no parent, no children, no ports and no points. -/

namespace Bigraphs

/-! ### Lists in order

The program stands on the core library alone, so the insertion sort is written out here. It is the one of
Mathlib (`sortBy_eq_insertionSort`). -/

/-- Puts `a` before the first element that it does not exceed. -/
def insertBy {α : Type} (le : α → α → Prop) [DecidableRel le] (a : α) : List α → List α
  | [] => [a]
  | b :: bs => if le a b then a :: b :: bs else b :: insertBy le a bs

/-- **The list in the order `le`.** Elements that the order does not tell apart keep their places. -/
def sortBy {α : Type} (le : α → α → Prop) [DecidableRel le] (l : List α) : List α :=
  l.foldr (insertBy le) []

/-! ### Places and links -/

/-- The number of a place. -/
abbrev PlaceId := Nat

/-- The number of a link. -/
abbrev LinkId := Nat

/-- The number of an inner name. -/
abbrev InnerId := Nat

/-- What a node is. -/
structure NodeData where
  control : Control
  /-- Unique within the bigraph. -/
  label : String
  /-- The links of the ports in use, in port order. -/
  ports : List LinkId
deriving DecidableEq

/-- The three kinds of place. -/
inductive PlaceKind where
  /-- A region, at this position of the outer face. -/
  | root (index : Nat)
  /-- A hole, at this position of the inner face. -/
  | site (index : Nat)
  | node (data : NodeData)
deriving DecidableEq

/-- A place of the forest. -/
structure Place where
  kind : PlaceKind
  parent : Option PlaceId
  children : List PlaceId
deriving DecidableEq

/-- The two kinds of link. -/
inductive LinkKind where
  /-- A closed link. Labels are unique among edges. -/
  | edge (label : String)
  /-- An open link. Names are unique among outer names. -/
  | outer (name : String)
deriving DecidableEq

/-- What a link can hold. -/
inductive Point where
  /-- The port `port` of the node `node`. -/
  | port (node : PlaceId) (port : Nat)
  | inner (name : InnerId)
deriving DecidableEq

/-- A link and the points attached to it. -/
structure Link where
  kind : LinkKind
  points : List Point
deriving DecidableEq

/-- An inner name and the link it is attached to. -/
structure InnerName where
  name : String
  link : Option LinkId
deriving DecidableEq

/-- **A bigraph** over a signature. -/
structure Bigraph where
  signature : Signature
  places : Array Place
  links : Array Link
  innerNames : Array InnerName
deriving DecidableEq

/-! ### One place -/

namespace PlaceKind

/-- The data of a node. -/
def node? : PlaceKind → Option NodeData
  | node data => some data
  | _ => none

/-- The index of a root. -/
def rootIndex : PlaceKind → Option Nat
  | root i => some i
  | _ => none

/-- The index of a site. -/
def siteIndex : PlaceKind → Option Nat
  | site i => some i
  | _ => none

end PlaceKind

namespace Place

/-- The data of a node. -/
def node? (p : Place) : Option NodeData := p.kind.node?

/-- The links of the ports in use; none for a root or a site. -/
def ports (p : Place) : List LinkId := (p.node?.map (·.ports)).getD []

end Place

namespace LinkKind

/-- True for an edge. -/
def isEdge : LinkKind → Bool
  | edge _ => true
  | outer _ => false

/-- The label of an edge, the name of an outer name. -/
def name : LinkKind → String
  | edge label => label
  | outer name => name

end LinkKind

/-- True for an inner name. -/
def Point.isInner : Point → Bool
  | port _ _ => false
  | inner _ => true

/-- The node that owns the port. -/
def Point.owner : Point → Option PlaceId
  | port n _ => some n
  | inner _ => none

namespace Link

/-- The number of ports, inner names not counted. -/
def portCount (l : Link) : Nat := l.points.countP (!·.isInner)

/-- The nodes with a port on the link, each once, in point order. -/
def nodes (l : Link) : List PlaceId := (l.points.filterMap Point.owner).eraseDups

end Link

namespace Bigraph

variable (g : Bigraph)

/-- The bigraph without places, links and names. -/
def empty (s : Signature) : Bigraph := ⟨s, #[], #[], #[]⟩

/-! ### Places by number -/

/-- The kind of place `p`. -/
def kind (p : PlaceId) : Option PlaceKind := g.places[p]?.map (·.kind)

/-- The data of node `p`. -/
def node? (p : PlaceId) : Option NodeData := (g.kind p).bind PlaceKind.node?

/-- The index of root `p`. -/
def rootIndex (p : PlaceId) : Option Nat := (g.kind p).bind PlaceKind.rootIndex

/-- The index of site `p`. -/
def siteIndex (p : PlaceId) : Option Nat := (g.kind p).bind PlaceKind.siteIndex

/-- `p` is a root. -/
def isRoot (p : PlaceId) : Bool := (g.rootIndex p).isSome

/-- `p` is a site. -/
def isSite (p : PlaceId) : Bool := (g.siteIndex p).isSome

/-- `p` is a node. -/
def isNode (p : PlaceId) : Bool := (g.node? p).isSome

/-- The control of node `p`. -/
def control (p : PlaceId) : Option Control := (g.node? p).map (·.control)

/-- The label of node `p`. -/
def label (p : PlaceId) : Option String := (g.node? p).map (·.label)

/-- The parent of `p`. -/
def parent (p : PlaceId) : Option PlaceId := g.places[p]?.bind (·.parent)

/-- The nodes and sites directly below `p`, in the order of attachment. -/
def children (p : PlaceId) : List PlaceId := (g.places[p]?.map (·.children)).getD []

/-- The links of the ports that `p` uses, in port order. -/
def ports (p : PlaceId) : List LinkId := (g.places[p]?.map (·.ports)).getD []

/-- The link of port `i` of `p`. -/
def portLink (p : PlaceId) (i : Nat) : Option LinkId := (g.ports p)[i]?

/-! ### Links by number -/

/-- The kind of link `l`. -/
def linkKind (l : LinkId) : Option LinkKind := g.links[l]?.map (·.kind)

/-- `l` is an edge. -/
def isEdge (l : LinkId) : Bool := ((g.linkKind l).map (·.isEdge)).getD false

/-- The label of the edge `l`, or the outer name `l`. -/
def linkName (l : LinkId) : String := ((g.linkKind l).map (·.name)).getD ""

/-- The points of `l`, in the order of attachment. -/
def points (l : LinkId) : List Point := (g.links[l]?.map (·.points)).getD []

/-- The number of ports on `l`. -/
def portCount (l : LinkId) : Nat := (g.links[l]?.map (·.portCount)).getD 0

/-- The nodes with a port on `l`, each once, in point order. -/
def linkNodes (l : LinkId) : List PlaceId := (g.links[l]?.map (·.nodes)).getD []

/-! ### Inner names by number -/

/-- The inner name `i`. -/
def innerName (i : InnerId) : String := (g.innerNames[i]?.map (·.name)).getD ""

/-- The link of inner name `i`. -/
def innerLink (i : InnerId) : Option LinkId := g.innerNames[i]?.bind (·.link)

/-! ### All places, links and inner names -/

/-- All places. -/
def placeIds : List PlaceId := List.range g.places.size

/-- All links. -/
def linkIds : List LinkId := List.range g.links.size

/-- All inner names. -/
def innerIds : List InnerId := List.range g.innerNames.size

/-- The roots, by index. -/
def roots : List PlaceId :=
  sortBy (fun p q => (g.rootIndex p).getD 0 ≤ (g.rootIndex q).getD 0) (g.placeIds.filter g.isRoot)

/-- The sites, by index. -/
def sites : List PlaceId :=
  sortBy (fun p q => (g.siteIndex p).getD 0 ≤ (g.siteIndex q).getD 0) (g.placeIds.filter g.isSite)

/-- The nodes, in creation order. -/
def nodes : List PlaceId := g.placeIds.filter g.isNode

/-- The edges, in creation order. -/
def edges : List LinkId := g.linkIds.filter g.isEdge

/-- The outer names, in creation order. -/
def outerNames : List LinkId := g.linkIds.filter (!g.isEdge ·)

/-- The node with this label. -/
def nodeLabelled (label : String) : Option PlaceId := g.nodes.find? (g.label · = some label)

/-- The outer name with this name. -/
def outerNamed (name : String) : Option LinkId := g.outerNames.find? (g.linkName · = name)

end Bigraph

end Bigraphs
