import Bigraphs.LazyList
import Bigraphs.Matching.Links
import Bigraphs.Matching.Table

/-! # Hosts for the roots of the redex

A root of the redex hits an agent vertex when the table explains the root by itself there. A hit is
confirmed when each redex node below the root has a counterpart below the vertex whose ports fit;
that is necessary for an occurrence, and cheap.

An assignment picks a host for each root of the redex. All combinations are enumerated, the host of
the last root varying fastest; several roots may share a host. -/

namespace Bigraphs

/-! ### Hits -/

/-- A redex root found at an agent vertex. -/
structure RootHit where
  /-- The agent vertex that hosts the root. -/
  host : PlaceId
  root : PlaceId
  /-- The index of the root. -/
  index : Nat
deriving DecidableEq

namespace Problem

variable (q : Problem) (t : Table)

/-- Each redex node below `root` can be played by some agent node below `host`, ports included. -/
def hostConsistent (host root : PlaceId) : Bool :=
  let below := q.agent.descendants host
  (q.redex.descendants root).all fun x =>
    match q.redex.parent x with
    | none => true
    | some p =>
      !q.redex.isNode x ||
        below.any fun y =>
          q.agent.control y = q.redex.control x && t.explains y x p && q.portsCompatible y x

/-- **The hits,** by agent vertex in post-order and by redex root. -/
def rootHits : List RootHit :=
  q.agent.internalPostOrder.flatMap fun v => q.redex.roots.filterMap fun r =>
    match q.redex.rootIndex r with
    | none => none
    | some i => if t.explains v r r then some ⟨v, r, i⟩ else none

/-- **The confirmed hits.** -/
def confirmedHits : List RootHit := (q.rootHits t).filter fun h => q.hostConsistent t h.host h.root

end Problem

/-- The vertices of the hits, each with the indices of the roots that it can host. -/
def hitsByVertex (hits : List RootHit) : List (PlaceId × List Nat) :=
  (hits.map (·.host)).eraseDups.map fun v => (v, (hits.filter (·.host = v)).map (·.index))

/-! ### Assignments -/

/-- The hosts of each root, among the vertices that can host the root with its index. -/
def hostChoices (hits : List (PlaceId × List Nat)) (rootIndices : List Nat) :
    List (List PlaceId) :=
  rootIndices.map fun i => (hits.filter (·.2.contains i)).map (·.1)

/-- One member of each list, the last one varying fastest. -/
def combinations : List (List PlaceId) → LazyList (List PlaceId)
  | [] => .singleton []
  | hosts :: rest =>
    .ofBranches (fun h => (combinations rest).filterMap fun hs => some (h :: hs)) hosts

/-- **The assignments** of hosts to the roots with these indices. There is none for a redex without
roots, nor when some root has no host. -/
def assignments (hits : List (PlaceId × List Nat)) (rootIndices : List Nat) :
    LazyList (List PlaceId) :=
  let choices := hostChoices hits rootIndices
  if choices.isEmpty || choices.any (·.isEmpty) then .nil else combinations choices

end Bigraphs
