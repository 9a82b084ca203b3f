import Bigraphs.Matching.Problem
import Bigraphs.Matching.Copy
import Bigraphs.Matching.Links

/-! # Taking the agent apart around an occurrence

Around an occurrence of the redex, the agent falls into a context and parameters. The context is the
agent down to the matched nodes, with a site below each host, one for each root of the redex that it
hosts. A parameter holds what the agent has where the redex has a site: the first site below a redex
node takes all children of the image that are not matched, with everything below them.

Links are cut where they pass from one piece to another. An outer name of the redex becomes an inner
name of the context, on the copy of the agent link that answers for it. A link that leaves its
parameter becomes an outer name of it: the redex inner name that the link answers for, if that is
still to be had, or else a fresh name, which becomes an inner name of the context. -/

namespace Bigraphs

/-- **The pieces** of the agent around an occurrence. -/
structure Decomposition where
  context : Bigraph
  /-- One parameter for each site of the redex, by index. -/
  parameters : List Bigraph
  /-- The names that join the parameters to the context, in the order in which they were drawn. -/
  freshNames : List String

/-! ### Names at the border of the parameters -/

/-- The names that links take when they leave a parameter. -/
structure Border where
  supply : NameSupply
  /-- The agent links that answer for redex inner names not used yet. -/
  named : List (LinkId × String)
  /-- The redex inner names that are used. -/
  placed : List String
  /-- The fresh names, each with the agent link it stands for, in the order of drawing. -/
  fresh : List (String × LinkId)

/-- The name of link `l` where it leaves a parameter, and the border after that. -/
def Border.name (b : Border) (l : LinkId) : String × Border :=
  match b.named.lookup l with
  | some name =>
    (name, { b with named := b.named.filter (·.1 ≠ l), placed := name :: b.placed })
  | none =>
    let (name, supply) := b.supply.fresh
    (name, { b with supply, fresh := b.fresh ++ [(name, l)] })

namespace Problem

variable (q : Problem) (config : MatchConfig) (hosts : List PlaceId) (m : Mapping)

/-! ### What is matched -/

/-- The image of redex node `x`. -/
def imageOf (x : PlaceId) : Option PlaceId := (m.findRev? (·.1 = x)).map (·.2)

/-- The children of agent vertex `p` that are not matched. -/
def unmatchedBelow (p : PlaceId) : List PlaceId :=
  (q.agent.children p).filter fun c => !m.any (·.2 = c)

/-- The indices of the roots that `p` hosts, by position. -/
def hostedBy (p : PlaceId) : List Nat :=
  ((hosts.zip q.redex.roots).filter (·.1 = p)).filterMap fun (_, r) => q.redex.rootIndex r

/-- The agent link on the image of the first of these points whose image has one. -/
def portImage : List Point → Except MatchError (Option LinkId)
  | [] => .ok none
  | .inner _ :: points => portImage points
  | .port x i :: points =>
    match imageOf m x with
    | none => portImage points
    | some y =>
      if q.agent.places.size ≤ y then .error (.unknownPlace y)
      else
        match q.agent.portLink y i with
        | none => portImage points
        | some l => .ok (some l)

/-- **The agent link that answers for the redex link `l`:** through a matched port, or by its name
if it is an outer name. -/
def linkImage (l : LinkId) : Except MatchError (Option LinkId) := do
  match ← q.portImage m (q.redex.points l) with
  | some a => return some a
  | none => return if q.redex.isEdge l then none else q.agent.outerNamed (q.redex.linkName l)

/-! ### The context -/

/-- What an agent link becomes in the context: the same. -/
def contextKind (l : LinkId) : LinkKind := (q.agent.linkKind l).getD (.edge "")

/-- Copies what lies directly below the agent vertex `p`: the nodes that are not matched, and a site
for each root hosted there. -/
def copyBelow (s : Copy) (p : PlaceId) : Except MatchError Copy := do
  match s.places.lookup p with
  | none => return s
  | some copy =>
    let s ← (q.unmatchedBelow m p).foldlM (Copy.node q.contextKind q.agent copy) s
    (q.hostedBy hosts p).foldlM (Copy.site copy) s

/-- The agent down to the matched nodes, and its idle outer names. -/
def copyContext : Except MatchError Copy := do
  let s ← q.agent.roots.foldlM (fun s r => s.root r ((q.agent.rootIndex r).getD 0))
    (Copy.new q.agent.signature)
  let s ← (Bigraph.generations (q.unmatchedBelow m) q.agent.places.size q.agent.roots).foldlM
    (q.copyBelow hosts m) s
  q.agent.idleOuterNames.foldlM (fun s l => return (← s.link q.contextKind l).2) s

/-- Adds the outer name `l` of the redex to the inner names of the context. -/
def addRedexName (s : Copy) (l : LinkId) : Except MatchError Copy := do
  s.inner q.contextKind (q.redex.linkName l) (← q.linkImage m l)

/-! ### The parameters -/

/-- The agent links that answer for inner names of the redex, each with the first such name. -/
def namedLinks : Except MatchError (List (LinkId × String)) :=
  q.redex.innerIds.foldlM (fun named i => do
    match q.redex.innerLink i with
    | none => return named
    | some l =>
      match ← q.linkImage m l with
      | none => return named
      | some a =>
        return if (named.lookup a).isSome then named else named ++ [(a, q.redex.innerName i)]) []

/-- The top nodes of the parameter for the site `s` of the redex, after the sites `earlier`. -/
def contentOf (earlier : List PlaceId) (s : PlaceId) : Except MatchError (List PlaceId) :=
  match q.redex.parent s with
  | none => .ok []
  | some owner =>
    if !q.redex.isNode owner || earlier.any (q.redex.parent · = some owner) then .ok []
    else
      match imageOf m owner with
      | none => .ok []
      | some y =>
        if q.agent.places.size ≤ y then .error (.unknownPlace y) else .ok (q.unmatchedBelow m y)

/-- What the link `l` becomes in the parameter that holds the nodes `region`: an edge that stays
inside remains one, any other link becomes an outer name. -/
def borderKind (region : List PlaceId) (kinds : List (LinkId × LinkKind)) (b : Border)
    (l : LinkId) : List (LinkId × LinkKind) × Border :=
  if q.agent.isEdge l && (q.agent.linkNodes l).all region.contains then
    ((l, .edge (q.agent.linkName l)) :: kinds, b)
  else
    let (name, b) := b.name l
    ((l, .outer name) :: kinds, b)

/-- What the links of the nodes `region` become, and the border after that. Links are named in the
order in which the ports are met. -/
def borderKinds (region : List PlaceId) (b : Border) : List (LinkId × LinkKind) × Border :=
  (region.flatMap q.agent.ports).eraseDups.foldl
    (fun (kinds, b) l => q.borderKind region kinds b l) ([], b)

/-- **The parameter** with these top nodes, not finished yet, and the border after it. -/
def copyParameter (content : List PlaceId) (b : Border) :
    Except MatchError (Construction × Border) := do
  let region := Bigraph.generations q.agent.children q.agent.places.size content
  let (kinds, b) := q.borderKinds region b
  let (top, target) ← accept ((Construction.new q.agent.signature).root 0)
  let s ← region.foldlM (fun s v =>
    let parent := ((q.agent.parent v).bind fun p => s.places.lookup p).getD top
    Copy.node (fun l => (kinds.lookup l).getD (.edge "")) q.agent parent s v) ⟨target, [], []⟩
  return (s.target, b)

/-- The parameters for the sites of the redex, after the sites `earlier`. -/
def copyParameters (earlier : List PlaceId) (b : Border) :
    List PlaceId → Except MatchError (List Construction × Border)
  | [] => .ok ([], b)
  | s :: sites => do
    let (c, b) ← q.copyParameter (← q.contentOf m earlier s) b
    let (cs, b) ← copyParameters (s :: earlier) b sites
    return (c :: cs, b)

/-- Adds the names as outer names. -/
def addOuterNames (c : Construction) (names : List String) : Except MatchError Construction :=
  names.foldlM (fun c name => return (← accept (c.outer name)).2) c

/-- The first parameter takes the inner names of the redex that no link answers for. -/
def parkNames (names : List String) : List Construction → Except MatchError (List Construction)
  | [] => .ok []
  | c :: cs => return (← addOuterNames c names) :: cs

/-! ### All together -/

/-- **The decomposition** of the agent for these hosts and this mapping. It is refused when a piece
cannot be constructed, and when the context has to be active and is not. -/
def decompose : Except MatchError Decomposition := do
  let s ← q.copyContext hosts m
  let s ← q.redex.outerNames.foldlM (q.addRedexName m) s
  let named ← q.namedLinks m
  let innerNames := q.redex.innerIds.map q.redex.innerName
  let taken := q.redex.outerNames.map q.redex.linkName ++ innerNames
  let (parts, b) ← q.copyParameters m [] ⟨.new config.stem taken, named, [], []⟩ q.redex.sites
  let parts ← parkNames (innerNames.filter (· ∉ b.placed)) parts
  let parameters ← parts.mapM fun c => c.finish.mapError .build
  let s ← b.fresh.foldlM (fun s (name, l) => s.inner q.contextKind name (some l)) s
  let context ← s.target.finish.mapError .build
  if config.requireActive && !context.inactiveSites.isEmpty then
    throw (.contextNotActive context.inactiveSites)
  return ⟨context, parameters, b.fresh.map (·.1)⟩

end Problem

end Bigraphs
