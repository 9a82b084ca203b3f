import Bigraphs.Construction.Basic
import Bigraphs.Matching.Problem

/-! # Copying parts of a bigraph

A copy in the making: the construction it goes into, and what has been copied so far. Nodes keep
their control, their label and the order of their ports. A link is created when the first port on it
is copied; what it becomes is said by a function from the links of the source. -/

namespace Bigraphs

/-- The result of a step that has to succeed. -/
def accept {α : Type} : Except BuildError α × Construction → Except MatchError (α × Construction)
  | (.ok a, c) => .ok (a, c)
  | (.error e, _) => .error (.build e)

/-- A copy in the making. -/
structure Copy where
  target : Construction
  /-- The copies of places. -/
  places : List (PlaceId × PlaceId)
  /-- The copies of links. -/
  links : List (LinkId × LinkId)

namespace Copy

/-- Nothing copied yet. -/
def new (s : Signature) : Copy := ⟨.new s, [], []⟩

variable (become : LinkId → LinkKind) (s : Copy)

/-- The copy of the root or site, with the same index. -/
def root (source : PlaceId) (index : Nat) : Except MatchError Copy := do
  let (r, target) ← accept (s.target.root index)
  return { s with target, places := (source, r) :: s.places }

/-- A new site with this index under `parent`. -/
def site (parent : PlaceId) (s : Copy) (index : Nat) : Except MatchError Copy := do
  let (p, target) ← accept (s.target.site index)
  let ((), target) ← accept (target.nest p parent)
  return { s with target }

/-- The copy of link `l`, created if there is none yet. -/
def link (l : LinkId) : Except MatchError (LinkId × Copy) :=
  match s.links.lookup l with
  | some k => return (k, s)
  | none => do
    let (k, target) ← accept <|
      match become l with
      | .edge label => s.target.edge label
      | .outer name => s.target.outer name
    return (k, { s with target, links := (l, k) :: s.links })

/-- The next port of `n` goes to the copy of link `l`. -/
def port (n : PlaceId) (s : Copy) (l : LinkId) : Except MatchError Copy := do
  let (k, s) ← s.link become l
  let (_, target) ← accept (s.target.connect n k)
  return { s with target }

/-- The copy of node `v`, under `parent` and with its ports. -/
def node (source : Bigraph) (parent : PlaceId) (s : Copy) (v : PlaceId) :
    Except MatchError Copy := do
  match source.node? v with
  | none => return s
  | some d =>
    let (n, target) ← accept (s.target.node d.control.name d.label)
    let ((), target) ← accept (target.nest n parent)
    d.ports.foldlM (port become n) { s with target, places := (v, n) :: s.places }

/-- A new inner name, attached to the copy of the link if there is one. -/
def inner (name : String) (l : Option LinkId) : Except MatchError Copy := do
  let (i, target) ← accept (s.target.inner name)
  match l with
  | none => return { s with target }
  | some l => do
    let (k, s) ← { s with target }.link become l
    let ((), target) ← accept (s.target.wire i k)
    return { s with target }

end Copy

end Bigraphs
