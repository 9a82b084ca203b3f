import Bigraphs.Bipartite.Basic

/-! # Maximum pairings

A pairing with the most pairs, by the method of Hopcroft and Karp. A first pairing is made greedily:
each left vertex takes its first free neighbour. Then, as long as an augmenting path exists, the
left vertices are put into layers by their distance from the free ones (`layers`), and from each
free vertex a path is sought that goes down one layer with each pair (`augment`), so that it is one
of the shortest. A path that is found is turned over at once; a vertex that leads nowhere is taken
out of its layer. -/

namespace Bigraphs

namespace BipartiteGraph

variable (g : BipartiteGraph)

/-! ### The greedy start -/

/-- Pairs `x` with its first free neighbour, if it takes part and has one. -/
def claim (p : Pairing) (x : Nat) : Pairing :=
  if p.heldOut = some x then p
  else
    match (g.neighbours x).find? (p.right[·]? = some none) with
    | none => p
    | some y => p.join x y

/-- The greedy pairing without `heldOut`. -/
def greedy (heldOut : Option Nat) : Pairing :=
  (List.range g.leftSize).foldl g.claim
    ⟨.replicate g.leftSize none, .replicate g.rightSize none, heldOut⟩

/-! ### Layers -/

/-- A layer in the making. -/
structure Layer where
  /-- The distance of each left vertex that is reached. -/
  depth : Array (Option Nat)
  /-- The left vertices of the next layer. -/
  next : List Nat
  /-- A free right vertex is adjacent to the layer. -/
  found : Bool

/-- Follows an edge to `y` from a vertex at distance `d`. -/
def follow (p : Pairing) (d : Nat) (s : Layer) (y : Nat) : Layer :=
  match p.right[y]? with
  | none => s
  | some none => { s with found := true }
  | some (some x) =>
    if s.depth[x]? = some none then
      { s with depth := s.depth.setIfInBounds x (some (d + 1)), next := x :: s.next }
    else s

/-- The layers below the vertices `layer` at distance `d`, at most `fuel` of them: the distances,
and the distance of the nearest free right vertex if one is reached. -/
def layersFrom (p : Pairing) : Nat → Nat → List Nat → Array (Option Nat) →
    Array (Option Nat) × Option Nat
  | 0, _, _, depth => (depth, none)
  | _ + 1, _, [], depth => (depth, none)
  | fuel + 1, d, layer, depth =>
    let s := (layer.flatMap g.neighbours).foldl (follow p d) ⟨depth, [], false⟩
    if s.found then (s.depth, some (d + 1)) else layersFrom p fuel (d + 1) s.next s.depth

/-- **The layers** below the free left vertices. -/
def layers (p : Pairing) : Array (Option Nat) × Option Nat :=
  let free := (List.range g.leftSize).filter p.isFree
  g.layersFrom p (g.leftSize + 1) 0 free
    (free.foldl (fun depth x => depth.setIfInBounds x (some 0)) (.replicate g.leftSize none))

/-! ### Augmenting paths -/

/-- A pairing, and the layers that are left to search. -/
structure Sweep where
  pairing : Pairing
  depth : Array (Option Nat)

/-- Seeks a path over the edges of `x`, a vertex at distance `d`, to a free right vertex at
distance `target`. `deeper` seeks one from a vertex of the next layer. -/
def tryEdges (deeper : Nat → Sweep → Bool × Sweep) (target d x : Nat) :
    List Nat → Sweep → Bool × Sweep
  | [], s => (false, { s with depth := s.depth.setIfInBounds x none })
  | y :: ys, s =>
    match s.pairing.right[y]? with
    | none => tryEdges deeper target d x ys s
    | some none =>
      if d + 1 = target then (true, { s with pairing := s.pairing.join x y })
      else tryEdges deeper target d x ys s
    | some (some z) =>
      if s.depth[z]? = some (some (d + 1)) then
        match deeper z s with
        | (true, s) => (true, { s with pairing := s.pairing.join x y })
        | (false, s) => tryEdges deeper target d x ys s
      else tryEdges deeper target d x ys s

/-- **Seeks an augmenting path** from `x`, a vertex at distance `d`, through at most `fuel` layers,
and turns it over if there is one. -/
def augment (target : Nat) : Nat → Nat → Nat → Sweep → Bool × Sweep
  | 0, _, _, s => (false, s)
  | fuel + 1, d, x, s =>
    tryEdges (augment target fuel (d + 1)) target d x (g.neighbours x) s

/-- Seeks a path from each left vertex that is free when its turn comes. -/
def sweep (target : Nat) (s : Sweep) : Sweep :=
  (List.range g.leftSize).foldl
    (fun s x => if s.pairing.isFree x then (g.augment target (g.leftSize + 1) 0 x s).2 else s) s

/-- Sweeps, at most `fuel` times, until no augmenting path is left. -/
def improve : Nat → Pairing → Pairing
  | 0, p => p
  | fuel + 1, p =>
    match g.layers p with
    | (_, none) => p
    | (depth, some target) => improve fuel (g.sweep target ⟨p, depth⟩).pairing

/-- **A pairing with the most pairs** among those without `heldOut`. Every sweep adds a pair. -/
def maximum (heldOut : Option Nat) : Pairing := g.improve (g.leftSize + 1) (g.greedy heldOut)

end BipartiteGraph

end Bigraphs
