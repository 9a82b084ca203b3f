import Bigraphs.Graph.Interface
import Bigraphs.Graph.Worklist

/-! # The order in which redex nodes are placed

The nodes of the redex are placed generation by generation, so that the parent of a node is placed
before it. Each step of the plan says where the image of its node has to hang.

Two siblings with equal subtrees can exchange their images without changing what is found. To find
each such pair only once, the later one is marked as the twin of the earlier one, and its image has
to come after that of the earlier one. Subtrees are compared by their `shape`: a text that holds the
control names, the links of the ports, and the shapes of the children in order. A subtree with a
site in it has no shape.

The planner makes the plan with a queue, which hands out the nodes and gives the nodes below each one its
step as their anchor, a table that collects the shapes of the places in post-order, and a last pass that
marks the twins. -/

namespace Bigraphs

/-- Where the image of a redex node hangs. -/
inductive Anchor where
  /-- Under the host of the root at this position. -/
  | root (position : Nat)
  /-- Under the image of the node placed at this step. -/
  | step (index : Nat)
deriving DecidableEq

/-- One redex node in the order of placement. -/
structure PlanStep where
  node : PlaceId
  anchor : Anchor
  /-- The position of the root above the node. -/
  root : Nat
  /-- The nearest earlier step with the same anchor and shape. -/
  twin : Option Nat
deriving DecidableEq

namespace Bigraph

variable (g : Bigraph)

/-! ### Shapes -/

/-- How a shape speaks of a link. -/
def linkMark (l : LinkId) : String := "LinkIx(" ++ toString l ++ ")"

/-- The text of a node with this name, these links and these shapes below it. -/
def shapeText (name : String) (ports : List LinkId) (shapes : List String) : String :=
  name ++ "[" ++ ", ".intercalate (ports.map linkMark) ++ "]" ++ "[" ++
    ",".intercalate (sortNames shapes) ++ "]"

/-- The shape of the subtree at `p`, if it has at most `n` generations and no site. -/
def shapeWithin : Nat → PlaceId → Option String
  | 0, _ => none
  | n + 1, p =>
    match g.node? p with
    | none => none
    | some d =>
      ((g.children p).mapM (shapeWithin n)).map (shapeText d.control.name d.ports)

/-- **The shape** of the subtree at `p`. -/
def shape (p : PlaceId) : Option String := g.shapeWithin g.places.size p

/-! ### Placement -/

/-- The steps for the children of the nodes placed at steps `first`, `first + 1`, … -/
def stepsBelow (first : Nat) (steps : List PlanStep) : List PlanStep :=
  (steps.zipIdx first).flatMap fun (s, k) =>
    (g.vertexChildren s.node).map fun c => ⟨c, .step k, s.root, none⟩

/-- The generation `steps`, whose first step has the number `first`, and at most `n - 1` generations
below it. -/
def stepsFrom : Nat → Nat → List PlanStep → List PlanStep
  | 0, _, _ => []
  | _ + 1, _, [] => []
  | n + 1, first, steps =>
    steps ++ stepsFrom n (first + steps.length) (g.stepsBelow first steps)

/-- The nodes in the order of placement, twins not yet marked. -/
def placement : List PlanStep :=
  g.stepsFrom g.places.size 0 <| g.roots.zipIdx.flatMap fun (r, i) =>
    (g.vertexChildren r).map fun c => ⟨c, .root i, i, none⟩

/-! ### Twins -/

/-- The later step has the same anchor as the earlier one and the same shape. -/
def areTwins (shape : PlaceId → Option String) (earlier later : PlanStep) : Bool :=
  earlier.anchor = later.anchor && (shape later.node).isSome &&
    shape earlier.node = shape later.node

/-- The position of the last of the steps that `later` is a twin of. -/
def lastTwin (shape : PlaceId → Option String) (steps : List PlanStep) (later : PlanStep) :
    Option Nat :=
  (steps.zipIdx.findRev? fun (s, _) => areTwins shape s later).map (·.2)

/-- **The plan:** the nodes in the order of placement, with their twins. -/
def plan : List PlanStep :=
  let shapes := (g.placeIds.map g.shape).toArray
  let steps := g.placement
  steps.zipIdx.map fun (s, i) =>
    { s with twin := lastTwin (fun p => shapes[p]?.join) (steps.take i) s }

/-! ### The planner -/

/-- The nodes under the roots wait first. -/
def plannerStart : Queue PlanStep where
  waiting := g.roots.zipIdx.flatMap fun (r, i) =>
    (g.vertexChildren r).map fun c => ⟨c, .root i, i, none⟩
  done := []

/-- **A round of the planner.** The nodes under the node that is handed out hang at its step. -/
def plannerRound : Queue PlanStep → Option (Queue PlanStep ⊕ List PlanStep) :=
  Queue.round fun k s => (g.readChildren s.node).map fun cs =>
    (cs.filter (!g.isSite ·)).map fun c => ⟨c, .step k, s.root, none⟩

/-- Enters the shape of `p`, if it is a node and its children have one. -/
def enterShape (shapes : Array (Option String)) (p : PlaceId) : Array (Option String) :=
  match g.node? p with
  | none => shapes
  | some d =>
    match (g.children p).mapM fun c => shapes[c]?.join with
    | none => shapes
    | some below => shapes.setIfInBounds p (some (shapeText d.control.name d.ports below))

/-- **The table of shapes,** by place. -/
def shapeTable : Array (Option String) :=
  g.postOrder.foldl g.enterShape (Array.replicate g.places.size none)

/-- The steps with their twins. -/
def markTwins (shape : PlaceId → Option String) (steps : List PlanStep) : List PlanStep :=
  steps.zipIdx.map fun (s, i) => { s with twin := lastTwin shape (steps.take i) s }

end Bigraph

end Bigraphs
