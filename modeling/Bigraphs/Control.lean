/-! # Controls

A control is the type of a node: its name, the number of ports a node may use, and whether
reactions may happen inside. Two controls are equal when all three agree. Lists of controls are compared as
multisets: by how often each control occurs, not by order. -/

namespace Bigraphs

/-- What may happen below a node. -/
inductive Activity where
  /-- The node has no children. -/
  | atomic
  /-- Reactions may occur inside. -/
  | active
  /-- Reactions may not occur inside. -/
  | passive
deriving DecidableEq

/-- The place of an activity in the order `atomic`, `active`, `passive`. -/
def Activity.rank : Activity → Nat
  | atomic => 0
  | active => 1
  | passive => 2

/-- The type of a node. -/
structure Control where
  name : String
  /-- The most ports a node may use. -/
  arity : Nat
  activity : Activity
deriving DecidableEq

/-- How two multisets are to be related. -/
inductive Comparison where
  /-- The first is contained in the second. -/
  | within
  /-- Both are equal. -/
  | equal
deriving DecidableEq

namespace Control

/-- Nodes have no children. -/
def isAtomic (c : Control) : Bool := c.activity = .atomic

/-- Reactions may occur inside. -/
def isActive (c : Control) : Bool := c.activity = .active

/-- The written form, `name:arity`. -/
def text (c : Control) : String := c.name ++ ":" ++ toString c.arity

/-- Controls are ordered by name, then by arity, then by activity. -/
def cmp (c d : Control) : Ordering :=
  (compare c.name d.name).then
    ((compare c.arity d.arity).then (compare c.activity.rank d.activity.rank))

/-- No control occurs in `x` more often than in `y`. -/
def countsWithin (x y : List Control) : Bool := x.all fun c => x.count c ≤ y.count c

/-- **The comparison of two multisets of controls.** -/
def compatible (x y : List Control) : Comparison → Bool
  | .within => countsWithin x y
  | .equal => countsWithin x y && countsWithin y x

end Control

end Bigraphs
