import Bigraphs.Graph.Worklist
import Bigraphs.LazyList
import Bigraphs.Matching.Links
import Bigraphs.Matching.Plan
import Bigraphs.Matching.Table

/-! # Embeddings below given hosts

Once the roots have hosts, the nodes of the redex are placed one after the other along the plan.
The candidates for a node are the children of its anchor that can play its subtree (`canPlay`); a
candidate is taken if it has not been taken before and if it comes after the image of the twin.
When all nodes are placed, the links are checked as a whole, and no node may be placed on or above
the host of another root.

`canPlay` goes down the redex generation by generation. The same test with a stack goes node by node
(`TestEnds`): the redex nodes wait on the stack, each with the agent nodes that could play it, and the test
is over as soon as one is found that nothing could play.

The embeddings are a lazy list: one is searched for when it is asked for. -/

namespace Bigraphs

/-- The redex nodes that wait, the top first, each with the agent nodes that could play it. -/
abbrev Casting := List (PlaceId × List PlaceId)

namespace Problem

variable (q : Problem) (t : Table)

/-! ### Candidates -/

/-- Agent node `v` can play redex node `u`, as far as `u`, its children and its ports tell. -/
def locallyCompatible (v u : PlaceId) : Bool :=
  match q.redex.parent u with
  | none => false
  | some p =>
    let here := (q.agent.vertexChildren v).length
    let needed := (q.redex.vertexChildren u).length
    (if q.redex.isOpen u then needed ≤ here else here = needed) &&
      (q.agent.control v).isSome && q.agent.control v = q.redex.control u && t.explains v u p &&
      q.portsCompatible v u

/-- For each node in the next `n` generations below redex node `u`, some node below the agent nodes
`images` is locally compatible with it, generation by generation. -/
def playableBelow : Nat → List PlaceId → PlaceId → Bool
  | 0, _, _ => true
  | n + 1, images, u =>
    (q.redex.vertexChildren u).all fun c =>
      let candidates := (images.flatMap q.agent.vertexChildren).filter (q.locallyCompatible t · c)
      !candidates.isEmpty && playableBelow n candidates c

/-- **Agent node `v` can play redex node `u`** with its subtree, as far as the candidates for each
node of it tell. -/
def canPlay (v u : PlaceId) : Bool :=
  q.locallyCompatible t v u && q.playableBelow t q.redex.places.size [v] u

/-- The children of `p` that can play redex node `u`. -/
def players (p u : PlaceId) : List PlaceId := (q.agent.vertexChildren p).filter (q.canPlay t · u)

/-- The candidates for a step, when the images of the steps before it are `chosen`. -/
def candidates (hosts chosen : List PlaceId) (s : PlanStep) : Except MatchError (List PlaceId) :=
  match s.anchor with
  | .step k => .ok ((chosen[k]?.map (q.players t · s.node)).getD [])
  | .root i =>
    match hosts[i]? with
    | none => .error (.missingHost i)
    | some h =>
      if q.agent.places.size ≤ h then .error (.unknownPlace h) else .ok (q.players t h s.node)

/-- The candidate `c` is new, and it comes after the image of the twin. -/
def isAllowed (chosen : List PlaceId) (s : PlanStep) (c : PlaceId) : Bool :=
  c ∉ chosen &&
    match s.twin.bind (chosen[·]?) with
    | none => true
    | some floor => floor < c

/-! ### The test of a subtree, node by node -/

/-- The agent nodes below `images` that could play redex node `c`. -/
def candidatesBelow (images : List PlaceId) (c : PlaceId) : List PlaceId :=
  (images.flatMap q.agent.vertexChildren).filter (q.locallyCompatible t · c)

/-- **A round of the test.** The nodes below the top come to the stack, the last of them on top. -/
def testRound : Casting → Option (Casting ⊕ Bool)
  | [] => some (.inr true)
  | (x, images) :: waiting => (q.redex.readChildren x).map fun cs =>
    let found := (cs.filter (!q.redex.isSite ·)).map fun c => (c, q.candidatesBelow t images c)
    if found.any (·.2.isEmpty) then .inr false else .inl (found.reverse ++ waiting)

/-- **The test says `b`** of agent node `v` and redex node `u`. -/
def TestEnds (v u : PlaceId) (b : Bool) : Prop :=
  if q.locallyCompatible t v u then Ends (q.testRound t) [(u, [v])] b else b = false

/-! ### Complete mappings -/

/-- The image `y` is neither the host `h` nor above it. -/
def isClear (y h : PlaceId) : Except MatchError Bool :=
  if y = h then .ok false
  else if q.agent.places.size ≤ h then .error (.unknownPlace h)
  else .ok (!q.agent.isAncestor y h)

/-- No node is placed on or above the host of another root than its own. -/
def hostsDisjoint (plan : List PlanStep) (hosts images : List PlaceId) : Except MatchError Bool :=
  (plan.zip images).allM fun (s, y) => hosts.zipIdx.allM fun (h, i) =>
    if i = s.root then .ok true else q.isClear y h

/-- The mapping that sends the nodes of the plan to these images. -/
def mappingOf (plan : List PlanStep) (images : List PlaceId) : Mapping :=
  (plan.map (·.node)).zip images

/-- The complete mapping if it passes, with an error in its place if a host is not there. -/
def settled (plan : List PlanStep) (hosts images : List PlaceId) :
    LazyList (Except MatchError Mapping) :=
  match q.linksConsistent (mappingOf plan images), q.hostsDisjoint plan hosts images with
  | .error e, _ => .singleton (.error e)
  | .ok false, _ => .nil
  | .ok true, .error e => .singleton (.error e)
  | .ok true, .ok false => .nil
  | .ok true, .ok true => .singleton (.ok (mappingOf plan images))

/-! ### The search -/

/-- The embeddings that extend the images `chosen` of the earlier steps to the remaining ones. -/
def embeddingsFrom (plan : List PlanStep) (hosts : List PlaceId) :
    List PlanStep → List PlaceId → LazyList (Except MatchError Mapping)
  | [], chosen => q.settled plan hosts chosen
  | s :: rest, chosen =>
    match q.candidates t hosts chosen s with
    | .error e => .singleton (.error e)
    | .ok cs =>
      .ofBranches (fun c => embeddingsFrom plan hosts rest (chosen ++ [c]))
        (cs.filter (isAllowed chosen s))

/-- **The embeddings** of the redex below the hosts of its roots. -/
def embeddings (plan : List PlanStep) (hosts : List PlaceId) :
    LazyList (Except MatchError Mapping) :=
  q.embeddingsFrom t plan hosts plan []

end Problem

end Bigraphs
