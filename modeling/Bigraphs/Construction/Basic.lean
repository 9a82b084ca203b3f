import Bigraphs.FreshName
import Bigraphs.Graph.Forest

/-! # Constructing bigraphs

A construction is a bigraph in the making. Each step checks the structural rules before it changes
anything, so that what `finish` hands out never has to be checked again: indices, labels and names
are unique within their kind, every node has a control of the signature and no more ports than its
arity, atomic nodes and sites have no children, and the forest has no cycle.

A step returns what it created, or the cause of its refusal, beside the construction after it.
A refused step leaves the construction as it was, with one exception: `child` has drawn its label,
and has made its node if only the nesting is refused. -/

namespace Bigraphs

/-- A bigraph in the making. -/
structure Construction where
  graph : Bigraph
  /-- The next number of a generated label, for nodes and edges alike. -/
  nextLabel : Nat
deriving DecidableEq

namespace Construction

/-- The construction over `s` with nothing in it. -/
def new (s : Signature) : Construction := ⟨.empty s, 0⟩

/-- The answer of a step beside the construction after it. -/
abbrev Step (α : Type) := Construction → Except BuildError α × Construction

variable (c : Construction)

/-! ### What is taken -/

/-- The labels of the nodes. -/
def nodeLabels : List String := c.graph.placeIds.filterMap c.graph.label

/-- The labels of the edges. -/
def edgeLabels : List String := c.graph.edges.map c.graph.linkName

/-- The inner names. -/
def innerNames : List String := c.graph.innerIds.map c.graph.innerName

/-! ### Places -/

/-- Adds a place without parent and children. -/
def addPlace (kind : PlaceKind) : Construction :=
  { c with graph.places := c.graph.places.push ⟨kind, none, []⟩ }

/-- Creates the root with this index. -/
def root (index : Nat) : Step PlaceId := fun c =>
  if c.graph.placeIds.any (c.graph.rootIndex · = some index) then
    (.error (.duplicateRoot index), c)
  else
    (.ok c.graph.places.size, c.addPlace (.root index))

/-- Creates the site with this index, without a parent. -/
def site (index : Nat) : Step PlaceId := fun c =>
  if c.graph.placeIds.any (c.graph.siteIndex · = some index) then
    (.error (.duplicateSite index), c)
  else
    (.ok c.graph.places.size, c.addPlace (.site index))

/-- Creates a node with this control and label, without a parent. -/
def node (control label : String) : Step PlaceId := fun c =>
  match c.graph.signature.find control with
  | none => (.error (.unknownControl control), c)
  | some k =>
    if label ∈ c.nodeLabels then
      (.error (.duplicateNode label), c)
    else
      (.ok c.graph.places.size, c.addPlace (.node ⟨k, label, []⟩))

/-- Why `child` cannot be nested under `parent`, if it cannot. -/
def nestRefusal (child parent : PlaceId) : Option BuildError :=
  if c.graph.places.size ≤ child ∨ c.graph.places.size ≤ parent then
    some .unknownPlace
  else
    match c.graph.kind parent with
    | some (.site _) => some .invalidParent
    | some (.node d) => if d.control.isAtomic then some (.atomicParent d.control.name) else circle
    | _ => circle
where
  /-- Roots are not nested, and nothing comes to lie below itself. -/
  circle : Option BuildError :=
    if c.graph.isRoot child || child = parent || c.graph.isAncestor child parent then
      some .invalidParent
    else
      none

/-- Takes `child` away from the children of its parent. -/
def detach (places : Array Place) (child : PlaceId) : Array Place :=
  match places[child]?.bind (·.parent) with
  | none => places
  | some old => places.modify old fun p => { p with children := p.children.filter (· ≠ child) }

/-- Makes `child` the last child of `parent`. -/
def attach (places : Array Place) (child parent : PlaceId) : Array Place :=
  ((detach places child).modify child fun p => { p with parent := some parent }).modify parent
    fun p => { p with children := p.children ++ [child] }

/-- Nests `child` under `parent`, as its last child, away from any earlier parent. -/
def nest (child parent : PlaceId) : Step Unit := fun c =>
  match c.nestRefusal child parent with
  | some e => (.error e, c)
  | none => (.ok (), { c with graph.places := attach c.graph.places child parent })

/-- A label with this stem that is not taken, and the construction that will not draw it again. -/
def drawLabel (stem : String) (taken : List String) : String × Construction :=
  let n := firstFree stem taken c.nextLabel
  (numbered stem n, { c with nextLabel := n + 1 })

/-- Creates a node with a generated label and nests it under `parent`. -/
def child (parent : PlaceId) (control : String) : Step PlaceId := fun c =>
  let (label, c) := c.drawLabel "v" c.nodeLabels
  match c.node control label with
  | (.error e, c) => (.error e, c)
  | (.ok n, c) =>
    match c.nest n parent with
    | (.error e, c) => (.error e, c)
    | (.ok (), c) => (.ok n, c)

/-! ### Links -/

/-- Adds a link without points. -/
def addLink (kind : LinkKind) : Construction :=
  { c with graph.links := c.graph.links.push ⟨kind, []⟩ }

/-- Creates the outer name `name`. -/
def outer (name : String) : Step LinkId := fun c =>
  if (c.graph.outerNamed name).isSome then
    (.error (.duplicateOuterName name), c)
  else
    (.ok c.graph.links.size, c.addLink (.outer name))

/-- Creates the edge with this label. -/
def edge (label : String) : Step LinkId := fun c =>
  if label ∈ c.edgeLabels then
    (.error (.duplicateEdge label), c)
  else
    (.ok c.graph.links.size, c.addLink (.edge label))

/-- Creates an edge with a generated label. It is never refused. -/
def freshEdge : Step LinkId := fun c =>
  let (label, c) := c.drawLabel "e" c.edgeLabels
  (.ok c.graph.links.size, c.addLink (.edge label))

/-- Creates the inner name `name`, without a link. -/
def inner (name : String) : Step InnerId := fun c =>
  if name ∈ c.innerNames then
    (.error (.duplicateInnerName name), c)
  else
    (.ok c.graph.innerNames.size,
      { c with graph.innerNames := c.graph.innerNames.push ⟨name, none⟩ })

/-- The links after `point` is attached to `l`. -/
def addPoint (links : Array Link) (l : LinkId) (point : Point) : Array Link :=
  links.modify l fun link => { link with points := link.points ++ [point] }

/-- The place with one more port, on the link `l`. -/
def addPort (l : LinkId) (p : Place) : Place :=
  match p.kind with
  | .node d => { p with kind := .node { d with ports := d.ports ++ [l] } }
  | _ => p

/-- Attaches the next free port of node `n` to the link `l`. The answer is the number of the
port. -/
def connect (n : PlaceId) (l : LinkId) : Step Nat := fun c =>
  if c.graph.links.size ≤ l then
    (.error .unknownLink, c)
  else
    match c.graph.node? n with
    | none => (.error .unknownPlace, c)
    | some d =>
      if d.control.arity ≤ d.ports.length then
        (.error (.arityExceeded d.control.name d.control.arity), c)
      else
        (.ok d.ports.length,
          { c with
            graph.places := c.graph.places.modify n (addPort l)
            graph.links := addPoint c.graph.links l (.port n d.ports.length) })

/-- Attaches the inner name `i` to the link `l`. -/
def wire (i : InnerId) (l : LinkId) : Step Unit := fun c =>
  if c.graph.links.size ≤ l then
    (.error .unknownLink, c)
  else
    match c.graph.innerNames[i]? with
    | none => (.error .unknownInnerName, c)
    | some entry =>
      if entry.link.isSome then
        (.error .alreadyLinked, c)
      else
        (.ok (),
          { c with
            graph.innerNames := c.graph.innerNames.setIfInBounds i { entry with link := some l }
            graph.links := addPoint c.graph.links l (.inner i) })

/-- Turns the outer name `name` into the edge with that label. Its points stay. -/
def close (name : String) : Step LinkId := fun c =>
  match c.graph.outerNamed name with
  | none => (.error (.unknownOuterName name), c)
  | some l =>
    if name ∈ c.edgeLabels then
      (.error (.duplicateEdge name), c)
    else
      (.ok l, { c with
        graph.links := c.graph.links.modify l fun link => { link with kind := .edge name } })

/-! ### The end -/

/-- The refusal for a node or a site without a parent. -/
def orphan (p : Place) : Option BuildError :=
  match p.parent, p.kind with
  | some _, _ => none
  | none, .root _ => none
  | none, .site i => some (.orphanSite i)
  | none, .node d => some (.orphanNode d.label)

/-- **The finished bigraph,** refused for the first node or site that has no parent. -/
def finish : Except BuildError Bigraph :=
  match c.graph.places.toList.findSome? orphan with
  | some e => .error e
  | none => .ok c.graph

end Construction

end Bigraphs
