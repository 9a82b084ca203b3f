import Bigraphs.Graph.Forest
import Bigraphs.Loop

/-! # Walks with a worklist

The walks of `Bigraphs.Graph.Forest`, place by place: up from a place with a cursor, by generations with
a queue, and in post-order with a stack. No round looks at what has been handed out. So a place that
could be reached in two ways would be handed out twice, and on a cycle the walk would never end; what
keeps this from happening is the forest alone. -/

namespace Bigraphs

/-- What waits to be handed out, first come first served, and what has been handed out. -/
structure Queue (α : Type) where
  waiting : List α
  done : List α

/-- Hands out the next of the queue. What hangs under it comes to the end of the queue: `below k a`, for
the `a` that is the `k`-th to be handed out. -/
def Queue.round {α : Type} (below : Nat → α → Option (List α)) (w : Queue α) :
    Option (Queue α ⊕ List α) :=
  match w.waiting with
  | [] => some (.inr w.done)
  | a :: waiting => (below w.done.length a).map fun more =>
      .inl ⟨waiting ++ more, w.done ++ [a]⟩

/-- What waits on the stack, the top first, and what has been handed out. A place waits to be expanded,
or, its children being on the stack above it already, to be handed out. -/
structure Stack where
  waiting : List (PlaceId × Bool)
  done : List PlaceId

namespace Bigraph

variable (g : Bigraph)

/-- The children of a place that is there. -/
def readChildren (p : PlaceId) : Option (List PlaceId) := g.places[p]?.map (·.children)

/-- **A round of the walk by generations.** -/
def queueRound : Queue PlaceId → Option (Queue PlaceId ⊕ List PlaceId) :=
  Queue.round fun _ p => g.readChildren p

/-- **A round of the walk in post-order.** -/
def stackRound (w : Stack) : Option (Stack ⊕ List PlaceId) :=
  match w.waiting with
  | [] => some (.inr w.done)
  | (p, true) :: waiting => some (.inl ⟨waiting, w.done ++ [p]⟩)
  | (p, false) :: waiting => (g.readChildren p).map fun cs =>
      .inl ⟨cs.map (·, false) ++ (p, true) :: waiting, w.done⟩

/-- **A round of the way up** in search of `a`, from the place that is looked at. -/
def climbRound (a : PlaceId) : Option PlaceId → Option (Option PlaceId ⊕ Bool)
  | none => some (.inr false)
  | some p => if p = a then some (.inr true) else g.places[p]?.map fun x => .inl x.parent

end Bigraph

end Bigraphs
