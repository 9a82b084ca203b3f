import Bigraphs.Graph.Interface

/-! # Matching problems

A matching problem asks where a redex occurs in an agent. The agent is ground; the redex may have
sites and inner names, which stand for whatever the agent has there. A problem comes with settings for
the search, and a pair of bigraphs or a single candidate may be refused. -/

namespace Bigraphs

/-! ### Settings -/

/-- How matches are searched for and built. -/
structure MatchConfig where
  /-- The stem of the names that join the parameters to the context. -/
  stem : String := "y"
  /-- Candidates whose context is not active are passed over. -/
  requireActive : Bool := true
  /-- At most this many matches are found. -/
  maxMatches : Option Nat := none
  /-- At most this many assignments of hosts are explored. -/
  maxAssignments : Option Nat := none
deriving DecidableEq

/-! ### Refusals

The first two causes refuse a pair of bigraphs as a whole, the others a single candidate. The last
two only arise from hosts and mappings that the search would not produce. -/

/-- The cause for which a match or a candidate is refused. -/
inductive MatchError where
  /-- The agent and the redex are over different signatures. -/
  | incompatibleSignature
  /-- The agent has sites or inner names. -/
  | agentNotGround (sites innerNames : Nat)
  /-- A piece of the agent cannot be constructed. -/
  | build (e : BuildError)
  /-- Sites of the context lie below nodes that are not active. -/
  | contextNotActive (sites : List Nat)
  /-- A host or a mapping names a place that is not there. -/
  | unknownPlace (p : PlaceId)
  /-- No host is given for the root at this position. -/
  | missingHost (position : Nat)
deriving DecidableEq

/-- The wording of the cause. -/
def MatchError.message : MatchError → String
  | incompatibleSignature => "agent and redex signatures differ"
  | agentNotGround sites innerNames =>
    "agent is not ground: " ++ toString sites ++ " sites, " ++ toString innerNames ++ " inner names"
  | build e => e.message
  | contextNotActive sites =>
    "context is not active at sites [" ++ ", ".intercalate (sites.map toString) ++ "]"
  | unknownPlace p => "unknown place: " ++ toString p
  | missingHost position => "no host for root " ++ toString position

/-! ### Problems -/

/-- **A matching problem.** -/
structure Problem where
  agent : Bigraph
  redex : Bigraph
  ground : agent.isGround = true

/-- Which agent node each redex node is mapped to. -/
abbrev Mapping := List (PlaceId × PlaceId)

/-- The problem of finding `redex` in `agent`, refused when the agent is not ground. -/
def Problem.of (agent redex : Bigraph) : Except MatchError Problem :=
  if h : agent.isGround = true then .ok ⟨agent, redex, h⟩
  else .error (.agentNotGround agent.sites.length agent.innerNames.size)

end Bigraphs
