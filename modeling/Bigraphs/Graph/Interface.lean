import Bigraphs.Graph.Forest

/-! # Faces and kinds of bigraphs

The inner face of a bigraph counts its sites and lists its inner names, the outer face counts its
roots and lists its outer names. The predicates are those of the theory of bigraphs: ground, prime,
epimorphic, monomorphic, lean, active, guarding, discrete. -/

namespace Bigraphs

/-- One side of the interface of a bigraph. -/
structure Face where
  /-- The number of roots or of sites. -/
  places : Nat
  /-- The outer or the inner names, in order. -/
  names : List String
deriving DecidableEq

/-- The strings in the order of their code points. -/
def sortNames (names : List String) : List String := sortBy (· ≤ ·) names

namespace Bigraph

variable (g : Bigraph)

/-- The sites and the inner names. -/
def innerFace : Face := ⟨g.sites.length, sortNames (g.innerIds.map g.innerName)⟩

/-- The roots and the outer names. -/
def outerFace : Face := ⟨g.roots.length, sortNames (g.outerNames.map g.linkName)⟩

/-- No sites and no inner names. -/
def isGround : Bool := g.sites.isEmpty && g.innerNames.isEmpty

/-- One root and no inner names. -/
def isPrime : Bool := g.roots.length = 1 && g.innerNames.isEmpty

/-- The outer names without points. -/
def idleOuterNames : List LinkId := g.outerNames.filter fun l => (g.points l).isEmpty

/-- Some outer name has no point. -/
def hasIdleOuterName : Bool := !g.idleOuterNames.isEmpty

/-- No root is childless and no outer name is idle. -/
def isEpimorphic : Bool := g.roots.all (fun r => !(g.children r).isEmpty) && !g.hasIdleOuterName

/-- No two sites have the same parent and no two inner names the same link. -/
def isMonomorphic : Bool :=
  decide (g.sites.map g.parent).Nodup &&
    g.linkIds.all fun l => (g.points l).countP Point.isInner ≤ 1

/-- No edge is without points. -/
def isLean : Bool := g.edges.all fun l => !(g.points l).isEmpty

/-- Every node above `p` has an active control. -/
def isActiveAbove (p : PlaceId) : Bool :=
  (g.ancestors p).all fun q => ((g.control q).map (·.isActive)).getD true

/-- Every node above the site with this index has an active control. False if there is none. -/
def isActiveAt (index : Nat) : Bool :=
  match g.sites.find? (g.siteIndex · = some index) with
  | none => false
  | some s => g.isActiveAbove s

/-- The indices of the sites below a node that is not active, ascending. -/
def inactiveSites : List Nat := (g.sites.filterMap g.siteIndex).filter (!g.isActiveAt ·)

/-- Active at every site. -/
def isActive : Bool := (g.sites.filterMap g.siteIndex).all g.isActiveAt

/-- No site lies directly under a root and no inner name is attached to an outer name. -/
def isGuarding : Bool :=
  g.sites.all (fun s => ((g.parent s).map (!g.isRoot ·)).getD false) &&
    g.innerIds.all fun i => ((g.innerLink i).map g.isEdge).getD true

/-- No edges, and one point on every outer name. -/
def isDiscrete : Bool :=
  g.edges.isEmpty && g.outerNames.all fun l => (g.points l).length = 1

end Bigraph

end Bigraphs
