/-! # Why a construction step is refused

One constructor for each cause, and one wording for each constructor. -/

namespace Bigraphs

/-- The cause for which a step of a construction is refused. -/
inductive BuildError where
  /-- The signature has no control of this name. -/
  | unknownControl (name : String)
  /-- Every port that the control allows is taken. -/
  | arityExceeded (control : String) (arity : Nat)
  /-- Nodes of this control have no children. -/
  | atomicParent (control : String)
  | duplicateRoot (index : Nat)
  | duplicateSite (index : Nat)
  | duplicateOuterName (name : String)
  | duplicateInnerName (name : String)
  | duplicateEdge (label : String)
  | duplicateNode (label : String)
  | duplicateControl (name : String)
  /-- There is no such place, or a node is needed and the place is none. -/
  | unknownPlace
  | unknownLink
  | unknownOuterName (name : String)
  | unknownInnerName
  /-- The inner name already has a link. -/
  | alreadyLinked
  /-- Roots are not nested, sites hold nothing, and nothing lies below itself. -/
  | invalidParent
  /-- The site was left without a parent. -/
  | orphanSite (index : Nat)
  /-- The node was left without a parent. -/
  | orphanNode (label : String)
deriving DecidableEq

/-- The wording of the cause. -/
def BuildError.message : BuildError → String
  | unknownControl name => "unknown control: " ++ name
  | arityExceeded control arity =>
    "control " ++ control ++ " allows at most " ++ toString arity ++ " ports"
  | atomicParent control => "atomic control " ++ control ++ " cannot have children"
  | duplicateRoot index => "duplicate root index: " ++ toString index
  | duplicateSite index => "duplicate site index: " ++ toString index
  | duplicateOuterName name => "duplicate outer name: " ++ name
  | duplicateInnerName name => "duplicate inner name: " ++ name
  | duplicateEdge label => "duplicate edge: " ++ label
  | duplicateNode label => "duplicate node: " ++ label
  | duplicateControl name => "duplicate control: " ++ name
  | unknownPlace => "unknown place"
  | unknownLink => "unknown link"
  | unknownOuterName name => "unknown outer name: " ++ name
  | unknownInnerName => "unknown inner name"
  | alreadyLinked => "point already linked"
  | invalidParent => "invalid parent"
  | orphanSite index => "orphaned place: site " ++ toString index
  | orphanNode label => "orphaned place: " ++ label

end Bigraphs
