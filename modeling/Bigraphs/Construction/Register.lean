import Bigraphs.Construction.Action
import Mathlib.Data.List.Nodup

/-! # Constructions with a register

The steps of a construction look through the bigraph for what is taken. A register knows it: beside the
construction it keeps tables of the indices, labels and names in use, and lists the places of each kind as
they are created. Each step that takes an index, a label or a name asks one table, and enters what it
creates. `close` moves a name from the table of the outer names to that of the edges, so that the name is
free again for an outer name. -/

namespace Bigraphs

/-- **A construction with a register** of what it holds. -/
structure Register where
  construction : Construction
  rootIndices : Std.HashSet Nat
  siteIndices : Std.HashSet Nat
  labels : Std.HashSet String
  /-- The outer names with their links. -/
  outerNames : Std.HashMap String LinkId
  edgeLabels : Std.HashSet String
  innerNames : Std.HashSet String
  /-- The roots, in creation order. -/
  roots : List PlaceId
  /-- The sites, in creation order. -/
  sites : List PlaceId
  /-- The nodes, in creation order. -/
  nodes : List PlaceId

namespace Register

/-- The register of the construction with nothing in it. -/
def new (s : Signature) : Register where
  construction := .new s
  rootIndices := ∅
  siteIndices := ∅
  labels := ∅
  outerNames := ∅
  edgeLabels := ∅
  innerNames := ∅
  roots := []
  sites := []
  nodes := []

/-- The answer of a step beside the register after it. -/
abbrev Step (α : Type) := Register → Except BuildError α × Register

variable (r : Register)

/-- The bigraph in the making. -/
abbrev graph : Bigraph := r.construction.graph

/-! ### Entries -/

/-- Adds a place and enters it. -/
def addPlace (kind : PlaceKind) : Register :=
  let p := r.graph.places.size
  let r := { r with construction := r.construction.addPlace kind }
  match kind with
  | .root i => { r with rootIndices := r.rootIndices.insert i, roots := r.roots ++ [p] }
  | .site i => { r with siteIndices := r.siteIndices.insert i, sites := r.sites ++ [p] }
  | .node d => { r with labels := r.labels.insert d.label, nodes := r.nodes ++ [p] }

/-- Adds a link and enters it. -/
def addLink (kind : LinkKind) : Register :=
  let l := r.graph.links.size
  let r := { r with construction := r.construction.addLink kind }
  match kind with
  | .outer name => { r with outerNames := r.outerNames.insert name l }
  | .edge label => { r with edgeLabels := r.edgeLabels.insert label }

/-- A label with this stem that is not in the table. -/
def drawLabel (stem : String) (taken : Std.HashSet String) : String × Register :=
  let (label, c) := r.construction.drawLabel stem taken.toList
  (label, { r with construction := c })

/-- **A round of the search for a label.** The next number is tried, and its label is the answer if it is
not in the table. -/
def labelRound (stem : String) (table : Register → Std.HashSet String) (r : Register) :
    Option (Register ⊕ (String × Register)) :=
  let label := numbered stem r.construction.nextLabel
  let r := { r with construction.nextLabel := r.construction.nextLabel + 1 }
  some (if label ∈ table r then .inl r else .inr (label, r))

/-- A step for which no table is asked and nothing is entered. -/
def unregistered {α : Type} (step : Construction.Step α) : Step α := fun r =>
  let (answer, c) := step r.construction
  (answer, { r with construction := c })

/-! ### Steps -/

/-- Creates the root with this index. -/
def root (index : Nat) : Step PlaceId := fun r =>
  if index ∈ r.rootIndices then (.error (.duplicateRoot index), r)
  else (.ok r.graph.places.size, r.addPlace (.root index))

/-- Creates the site with this index, without a parent. -/
def site (index : Nat) : Step PlaceId := fun r =>
  if index ∈ r.siteIndices then (.error (.duplicateSite index), r)
  else (.ok r.graph.places.size, r.addPlace (.site index))

/-- Creates a node with this control and label, without a parent. -/
def node (control label : String) : Step PlaceId := fun r =>
  match r.graph.signature.find control with
  | none => (.error (.unknownControl control), r)
  | some k =>
    if label ∈ r.labels then (.error (.duplicateNode label), r)
    else (.ok r.graph.places.size, r.addPlace (.node ⟨k, label, []⟩))

/-- Nests `child` under `parent`. -/
def nest (child parent : PlaceId) : Step Unit := unregistered (Construction.nest child parent)

/-- Creates a node with a generated label and nests it under `parent`. -/
def child (parent : PlaceId) (control : String) : Step PlaceId := fun r =>
  let (label, r) := r.drawLabel "v" r.labels
  match r.node control label with
  | (.error e, r) => (.error e, r)
  | (.ok n, r) =>
    match r.nest n parent with
    | (.error e, r) => (.error e, r)
    | (.ok (), r) => (.ok n, r)

/-- Creates the outer name `name`. -/
def outer (name : String) : Step LinkId := fun r =>
  if name ∈ r.outerNames then (.error (.duplicateOuterName name), r)
  else (.ok r.graph.links.size, r.addLink (.outer name))

/-- Creates the edge with this label. -/
def edge (label : String) : Step LinkId := fun r =>
  if label ∈ r.edgeLabels then (.error (.duplicateEdge label), r)
  else (.ok r.graph.links.size, r.addLink (.edge label))

/-- Creates an edge with a generated label. It is never refused. -/
def freshEdge : Step LinkId := fun r =>
  let (label, r) := r.drawLabel "e" r.edgeLabels
  (.ok r.graph.links.size, r.addLink (.edge label))

/-- Creates the inner name `name`, without a link. -/
def inner (name : String) : Step InnerId := fun r =>
  if name ∈ r.innerNames then (.error (.duplicateInnerName name), r)
  else (.ok r.graph.innerNames.size,
    { r with
      construction.graph.innerNames := r.graph.innerNames.push ⟨name, none⟩
      innerNames := r.innerNames.insert name })

/-- Attaches the next free port of node `n` to the link `l`. -/
def connect (n : PlaceId) (l : LinkId) : Step Nat := unregistered (Construction.connect n l)

/-- Attaches the inner name `i` to the link `l`. -/
def wire (i : InnerId) (l : LinkId) : Step Unit := unregistered (Construction.wire i l)

/-- Turns the outer name `name` into the edge with that label. -/
def close (name : String) : Step LinkId := fun r =>
  match r.outerNames[name]? with
  | none => (.error (.unknownOuterName name), r)
  | some l =>
    if name ∈ r.edgeLabels then (.error (.duplicateEdge name), r)
    else (.ok l,
      { r with
        construction.graph.links := r.graph.links.modify l fun link => { link with kind := .edge name }
        outerNames := r.outerNames.erase name
        edgeLabels := r.edgeLabels.insert name })

/-! ### Actions -/

/-- The step with its answer read as a reply. -/
def Step.replying {α : Type} (reply : α → Reply) (step : Step α) : Step Reply := fun r =>
  let (answer, r) := step r
  (answer.map reply, r)

/-- **The step that an action stands for.** -/
def perform : Action → Step Reply
  | .root i => (root i).replying .place
  | .site i => (site i).replying .place
  | .node control label => (node control label).replying .place
  | .child parent control => (child parent control).replying .place
  | .nest child parent => (nest child parent).replying fun () => .done
  | .outer name => (outer name).replying .link
  | .edge label => (edge label).replying .link
  | .freshEdge => freshEdge.replying .link
  | .inner name => (inner name).replying .inner
  | .connect node link => (connect node link).replying .port
  | .wire inner link => (wire inner link).replying fun () => .done
  | .close name => (close name).replying .link

/-- The register after the actions, refused or not. -/
def run (actions : List Action) : Register := actions.foldl (fun r a => (perform a r).2) r

/-- The answers to the actions, one by one. -/
def answers (r : Register) : List Action → List (Except BuildError Reply)
  | [] => []
  | a :: actions => (perform a r).1 :: answers (perform a r).2 actions

/-- The roots by index. -/
def sortedRoots : List PlaceId :=
  sortBy (fun p q => (r.graph.rootIndex p).getD 0 ≤ (r.graph.rootIndex q).getD 0) r.roots

/-- The sites by index. -/
def sortedSites : List PlaceId :=
  sortBy (fun p q => (r.graph.siteIndex p).getD 0 ≤ (r.graph.siteIndex q).getD 0) r.sites

end Register

end Bigraphs
