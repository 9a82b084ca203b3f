import Bigraphs.Construction.Basic

/-! # Construction by a list of actions

The steps of a construction as data. `perform` runs one of them, `replayFrom` a whole list up to the
first refusal, and `identityLinking` is a first bigraph built this way. -/

namespace Bigraphs

/-- A step of a construction, as data. -/
inductive Action where
  | root (index : Nat)
  | site (index : Nat)
  | node (control label : String)
  /-- A node with a generated label, under `parent`. -/
  | child (parent : PlaceId) (control : String)
  | nest (child parent : PlaceId)
  | outer (name : String)
  | edge (label : String)
  /-- An edge with a generated label. -/
  | freshEdge
  | inner (name : String)
  /-- The next port of the node goes to the link. -/
  | connect (node : PlaceId) (link : LinkId)
  /-- The inner name goes to the link. -/
  | wire (inner : InnerId) (link : LinkId)
  /-- The outer name becomes an edge. -/
  | close (name : String)
deriving DecidableEq

/-- The answer to an action that is not refused. -/
inductive Reply where
  | place (p : PlaceId)
  | link (l : LinkId)
  | inner (i : InnerId)
  | port (i : Nat)
  | done
deriving DecidableEq

namespace Construction

/-- The step with its answer read as a reply. -/
def Step.replying {α : Type} (reply : α → Reply) (step : Step α) : Step Reply := fun c =>
  let (answer, c) := step c
  (answer.map reply, c)

/-- **The step that an action stands for.** -/
def perform : Action → Step Reply
  | .root i => (root i).replying .place
  | .site i => (site i).replying .place
  | .node control label => (node control label).replying .place
  | .child parent control => (child parent control).replying .place
  | .nest child parent => (nest child parent).replying fun () => .done
  | .outer name => (outer name).replying .link
  | .edge label => (edge label).replying .link
  | .freshEdge => freshEdge.replying .link
  | .inner name => (inner name).replying .inner
  | .connect node link => (connect node link).replying .port
  | .wire inner link => (wire inner link).replying fun () => .done
  | .close name => (close name).replying .link

/-- The construction after the actions, refused or not. -/
def run (c : Construction) (actions : List Action) : Construction :=
  actions.foldl (fun c a => (perform a c).2) c

/-- The answers to the actions, one by one. A refusal does not end the run. -/
def answers (c : Construction) : List Action → List (Except BuildError Reply)
  | [] => []
  | a :: actions => (perform a c).1 :: answers (perform a c).2 actions

/-- Performs the actions up to the first refusal, which comes with its position; the first of the
actions stands at position `i`. -/
def replayFrom (i : Nat) (c : Construction) : List Action → Except (Nat × BuildError) Construction
  | [] => .ok c
  | a :: actions =>
    match perform a c with
    | (.ok _, c) => replayFrom (i + 1) c actions
    | (.error e, _) => .error (i, e)

end Construction

namespace Bigraph

/-- **The bigraph that the actions construct.** A refusal comes with the position of the refused
action; the last position stands for the end of the construction. -/
def ofActions (s : Signature) (actions : List Action) : Except (Nat × BuildError) Bigraph :=
  match (Construction.new s).replayFrom 0 actions with
  | .error e => .error e
  | .ok c => c.finish.mapError fun e => (actions.length, e)

/-- The actions that wire the inner name `name`, the `i`-th of its kind, to an outer name of the
same name. -/
def throughActions (name : String) (i : Nat) : List Action :=
  [.outer name, .inner name, .wire i i]

/-- **The identity on `names`:** each inner name is wired to the outer name of the same name.
Refused when a name is repeated. -/
def identityLinking (s : Signature) (names : List String) : Except BuildError Bigraph :=
  (ofActions s (names.zipIdx.flatMap fun (name, i) => throughActions name i)).mapError (·.2)

end Bigraph

end Bigraphs
