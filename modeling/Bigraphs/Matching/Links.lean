import Bigraphs.Matching.Problem

/-! # Which links answer for which

A redex node and its image use equally many ports, and the link on a port of the redex node is
answered for by the link on the same port of the image. One agent link answers for all ports of a
redex link, and it has at least as many ports. A redex edge without inner names is closed: only an
agent edge with exactly as many ports answers for it.

`portsCompatible` says this of one pair of nodes, `linksConsistent` of a whole mapping. -/

namespace Bigraphs

namespace Problem

variable (q : Problem)

/-- Every outer name of the redex without points is an outer name of the agent. -/
def idleNamesPresent : Bool :=
  q.redex.idleOuterNames.all fun l => (q.agent.outerNamed (q.redex.linkName l)).isSome

/-- The redex link `l` is an edge that no inner name is attached to. -/
def isClosed (l : LinkId) : Bool := q.redex.isEdge l && !(q.redex.points l).any (·.isInner)

/-- The agent link `a` can answer for the redex link `l`. -/
def linkFits (a l : LinkId) : Bool :=
  if q.isClosed l then q.agent.isEdge a && q.agent.portCount a = q.redex.portCount l
  else q.redex.portCount l ≤ q.agent.portCount a

/-- **The ports of agent node `y` fit those of redex node `x`,** pair by pair. -/
def portsCompatible (y x : PlaceId) : Bool :=
  let pairs := (q.agent.ports y).zip (q.redex.ports x)
  (q.agent.ports y).length = (q.redex.ports x).length &&
    pairs.all (fun (a, l) => q.linkFits a l) &&
    decide (pairs.Pairwise fun s t => s.2 = t.2 → s.1 = t.1)

/-- The agent links that answer for redex links. -/
abbrev LinkImages := List (LinkId × LinkId)

/-- The images with those of further ports, pairs of a redex link and an agent link. None if a
redex link would have two images. -/
def extendImages : LinkImages → List (LinkId × LinkId) → Option LinkImages
  | images, [] => some images
  | images, (l, a) :: ports =>
    match images.lookup l with
    | none => extendImages ((l, a) :: images) ports
    | some b => if b = a then extendImages images ports else none

/-- The images of all redex links under the mapping. None if a pair of nodes uses different numbers
of ports or a redex link would have two images. -/
def imagesFrom (images : LinkImages) : Mapping → Except MatchError (Option LinkImages)
  | [] => .ok (some images)
  | (x, y) :: rest =>
    if q.redex.places.size ≤ x then .error (.unknownPlace x)
    else if q.agent.places.size ≤ y then .error (.unknownPlace y)
    else if (q.redex.ports x).length ≠ (q.agent.ports y).length then .ok none
    else
      match extendImages images ((q.redex.ports x).zip (q.agent.ports y)) with
      | none => .ok none
      | some images => imagesFrom images rest

/-- **The mapping sends every redex link to one agent link that fits.** -/
def linksConsistent (m : Mapping) : Except MatchError Bool :=
  match q.imagesFrom [] m with
  | .error e => .error e
  | .ok none => .ok false
  | .ok (some images) => .ok (images.all fun (l, a) => q.linkFits a l)

end Problem

end Bigraphs
