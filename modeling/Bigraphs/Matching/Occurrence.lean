import Bigraphs.Construction.Action
import Bigraphs.Matching.Hits
import Bigraphs.Matching.Decomposition
import Bigraphs.Matching.Embedding

/-! # Occurrences

An occurrence of the redex in the agent: hosts for its roots, a mapping of its nodes, and the agent
taken apart around it. Plugging the parameters into the redex, beside the identity on the fresh
names, and the result into the context gives the agent back.

`Matches` holds what is computed once for a problem. Its occurrences are a lazy list: the
assignments of hosts are explored one after the other, for each of them the embeddings, and a
candidate that cannot be taken apart is passed over. -/

namespace Bigraphs

/-- **An occurrence** of the redex in the agent. -/
structure Occurrence where
  /-- The host of each root, by position. -/
  hosts : List PlaceId
  mapping : Mapping
  pieces : Decomposition
  /-- The identity on the fresh names. -/
  identity : Bigraph

/-- What is computed once to find all occurrences. -/
structure Matches where
  problem : Problem
  config : MatchConfig
  table : Table
  /-- The confirmed hits of the redex roots. -/
  hits : List RootHit
  plan : List PlanStep

namespace Problem

variable (q : Problem) (config : MatchConfig)

/-- The occurrence with these hosts and this mapping, if the agent can be taken apart around it. -/
def occurrence? (hosts : List PlaceId) (m : Mapping) : Option Occurrence :=
  match q.decompose config hosts m with
  | .error _ => none
  | .ok pieces =>
    let identity := match Bigraph.identityLinking q.agent.signature pieces.freshNames with
      | .ok g => g
      | .error _ => .empty q.agent.signature
    some ⟨hosts, m, pieces, identity⟩

/-- The matches of the problem. There are none if an idle outer name of the redex is missing from
the agent. -/
def toMatches : Matches :=
  let table := if q.idleNamesPresent then q.table else .empty
  ⟨q, config, table, q.confirmedHits table, q.redex.plan⟩

end Problem

namespace Matches

/-- **The matches of `redex` in `agent`,** refused when the signatures differ or the agent is not
ground. -/
def of (config : MatchConfig) (agent redex : Bigraph) : Except MatchError Matches :=
  if agent.signature = redex.signature then (Problem.of agent redex).map (·.toMatches config)
  else .error .incompatibleSignature

variable (ms : Matches)

/-- The assignments of hosts to the roots of the redex. -/
def assignments : LazyList (List PlaceId) :=
  Bigraphs.assignments (hitsByVertex ms.hits)
    (ms.problem.redex.roots.filterMap ms.problem.redex.rootIndex)

/-- The occurrences with these hosts. -/
def occurrencesAt (hosts : List PlaceId) : LazyList Occurrence :=
  (ms.problem.embeddings ms.table ms.plan hosts).filterMap fun
    | .error _ => none
    | .ok m => ms.problem.occurrence? ms.config hosts m

/-- **The occurrences,** within the limits of the settings. -/
def occurrences : LazyList Occurrence :=
  .upTo ms.config.maxMatches fun () =>
    (LazyList.upTo ms.config.maxAssignments fun () => ms.assignments).flatMap ms.occurrencesAt

/-- The labels of the matched nodes, redex label and agent label. -/
def labels (o : Occurrence) : List (String × String) :=
  o.mapping.map fun (x, y) =>
    ((ms.problem.redex.label x).getD "", (ms.problem.agent.label y).getD "")

end Matches

end Bigraphs
