import Bigraphs.Bipartite.Basic

/-! # The matcher

A maximum pairing is sought by a matcher that keeps its arrays from one run to the next
(`maxCardinality`). Its search is the one of `BipartiteGraph.maximum`, in the order in which the steps
are made: the layers grow along one queue, the distances that a vertex had in them are written to one
array, a path is sought by a recursion that reads its own distance from there, and the pairs are counted
as they are made. The sweeps end as soon as every left vertex that takes part has a partner.

What is infinitely far has no distance, and what has no partner has none. A run fails when it reads
outside an array, when it goes one further than what is infinitely far, and when it does not end. The
layers always end (`pending_follow`), and so does the search for a path, since distances are bounded. -/

namespace Bigraphs

/-- **A matcher,** with what is left over from its last run. -/
structure BipartiteMatcher where
  pairing : Pairing
  /-- The distance of each left vertex from the free ones. -/
  dist : Array (Option Nat)
  /-- The left vertices that are reached but not looked at yet. -/
  queue : List Nat
  /-- The distance of the nearest free right vertex. -/
  nilDist : Option Nat
deriving DecidableEq

/-- The pairs of a run, and who is left over. -/
structure Matching where
  pairs : List (Nat × Nat)
  /-- The left vertices without a partner, the one held out not counted. -/
  unmatchedLeft : List Nat
  /-- The right vertices without a partner. -/
  unmatchedRight : List Nat
deriving DecidableEq

namespace BipartiteMatcher

/-- A matcher that has not been run. -/
def new : BipartiteMatcher := ⟨.empty, #[], [], some 0⟩

/-- The machine number that marks what is infinitely far. -/
def infinity : Nat := UInt64.size - 1

/-- One further than `d`; this fails if there is no such distance. -/
def further (d : Option Nat) : Option Nat :=
  match d with
  | none => none
  | some d => if d + 1 < infinity then some (d + 1) else none

/-- Distance `d` is as far as `e`, or farther. -/
def atLeast (d e : Option Nat) : Bool :=
  match d, e with
  | none, _ => true
  | some _, none => false
  | some d, some e => e ≤ d

/-- Makes `x` and `y` partners. -/
def join (m : BipartiteMatcher) (x y : Nat) : Option BipartiteMatcher :=
  if x < m.pairing.left.size ∧ y < m.pairing.right.size then
    some { m with pairing := m.pairing.join x y }
  else none

/-- Sets the distance of `x`. -/
def setDist (m : BipartiteMatcher) (x : Nat) (d : Option Nat) : Option BipartiteMatcher :=
  if x < m.dist.size then some { m with dist := m.dist.setIfInBounds x d } else none

/-- `x` takes part and has no partner. -/
def isFree (m : BipartiteMatcher) (x : Nat) : Option Bool :=
  if m.pairing.heldOut = some x then some false
  else (m.pairing.left[x]?).map (·.isNone)

variable (g : BipartiteGraph)

/-! ### The greedy start -/

/-- The first right vertex of the list without a partner, if there is one. -/
def firstFree (m : BipartiteMatcher) : List Nat → Option (Option Nat)
  | [] => some none
  | y :: ys =>
    match m.pairing.right[y]? with
    | none => none
    | some none => some (some y)
    | some (some _) => firstFree m ys

/-- Pairs `x` with its first free neighbour, and counts the pair. -/
def claim (s : Nat × BipartiteMatcher) (x : Nat) : Option (Nat × BipartiteMatcher) := do
  let (size, m) := s
  if m.pairing.heldOut = some x then return s
  match ← m.firstFree (← g.adjacency[x]?) with
  | none => return s
  | some y => return (size + 1, ← m.join x y)

/-! ### Layers -/

/-- Puts `x` at distance 0 and into the queue if it is free, infinitely far if it is not. -/
def start (m : BipartiteMatcher) (x : Nat) : Option BipartiteMatcher := do
  if ← m.isFree x then
    let m ← m.setDist x (some 0)
    return { m with queue := m.queue ++ [x] }
  else m.setDist x none

/-- Follows the edge from `x` to `y`. -/
def follow (x : Nat) (m : BipartiteMatcher) (y : Nat) : Option BipartiteMatcher := do
  match ← m.pairing.right[y]? with
  | none =>
    match m.nilDist with
    | some _ => return m
    | none => return { m with nilDist := some (← further (← m.dist[x]?)) }
  | some z =>
    match ← m.dist[z]? with
    | some _ => return m
    | none =>
      let m ← m.setDist z (some (← further (← m.dist[x]?)))
      return { m with queue := m.queue ++ [z] }

/-- The vertices that are in the queue or can still come into it. -/
def pending (m : BipartiteMatcher) : Nat := m.queue.length + m.dist.count none

section Pending
variable {m m' : BipartiteMatcher} {x y : Nat}

/-- A vertex that was infinitely far is so no longer. -/
theorem count_setDist {d : Nat} (hx : m.dist[x]? = some none)
    (h : m.setDist x (some d) = some m') :
    m'.queue = m.queue ∧ m'.dist.count none + 1 = m.dist.count none := by
  obtain ⟨hlt, hnone⟩ := Array.getElem?_eq_some_iff.mp hx
  have hpos : 0 < m.dist.count none := Array.count_pos_iff.mpr (hnone ▸ Array.getElem_mem hlt)
  unfold setDist at h
  rw [if_pos hlt, Option.some.injEq] at h
  subst h
  refine ⟨rfl, ?_⟩
  have hcount : (m.dist.setIfInBounds x (some d)).count none = m.dist.count none - 1 := by
    rw [Array.setIfInBounds, dif_pos hlt, Array.count_set, hnone]
    simp
  simp only [hcount]
  omega

/-- What comes into the queue is no longer infinitely far. -/
theorem pending_follow (h : follow x m y = some m') : m'.pending = m.pending := by
  unfold follow at h
  simp only [Option.bind_eq_bind, Option.bind_eq_some_iff] at h
  obtain ⟨partner, -, h⟩ := h
  cases partner with
  | none =>
    cases hnear : m.nilDist with
    | some e =>
      simp only [hnear] at h
      cases h
      rfl
    | none =>
      simp only [hnear, Option.bind_eq_some_iff] at h
      obtain ⟨_, -, _, -, h⟩ := h
      cases h
      rfl
  | some z =>
    obtain ⟨d, hd, h⟩ := Option.bind_eq_some_iff.mp h
    cases d with
    | some d => cases h; rfl
    | none =>
      simp only [Option.bind_eq_some_iff] at h
      obtain ⟨_, -, _, -, m₁, hset, h⟩ := h
      obtain ⟨hqueue, hcount⟩ := count_setDist hd hset
      cases h
      simp only [pending, hqueue, List.length_append, List.length_singleton]
      omega

theorem pending_follows {ys : List Nat} (h : ys.foldlM (follow x) m = some m') :
    m'.pending = m.pending := by
  induction ys generalizing m with
  | nil => cases h; rfl
  | cons y ys ih =>
    rw [List.foldlM_cons, Option.bind_eq_bind, Option.bind_eq_some_iff] at h
    obtain ⟨m₁, hfollow, hrest⟩ := h
    rw [ih hrest, pending_follow hfollow]

end Pending

/-- Follows the edges of the vertices in the queue, but not of those as far as the nearest free right
vertex. -/
def drain (m : BipartiteMatcher) : Option BipartiteMatcher := do
  match _ : m.queue with
  | [] => return m
  | x :: queue =>
    if atLeast (← m.dist[x]?) m.nilDist then drain { m with queue }
    else
      match _ : (← g.adjacency[x]?).foldlM (follow x) { m with queue } with
      | none => none
      | some m' => drain m'
termination_by m.pending
decreasing_by
  · simp [pending, ‹m.queue = x :: queue›]
  · have hpending := pending_follows ‹List.foldlM (follow x) { m with queue } _ = some m'›
    simp only [pending, ‹m.queue = x :: queue›, List.length_cons] at hpending ⊢
    omega

/-- **Builds the layers,** and tells whether a free right vertex is reached. -/
def layer (m : BipartiteMatcher) : Option (Bool × BipartiteMatcher) := do
  let m ← (List.range g.leftSize).foldlM start { m with queue := [] }
  let m ← drain g { m with nilDist := none }
  return (m.nilDist.isSome, m)

/-! ### Augmenting paths -/

/-- Seeks a path over the edges from `x` to the vertices of the list. From a left vertex in the next
layer the path is sought by `deeper`. -/
def tryEdges (deeper : Nat → BipartiteMatcher → Option (Bool × BipartiteMatcher)) (x : Nat) :
    List Nat → BipartiteMatcher → Option (Bool × BipartiteMatcher)
  | [], m => do return (false, ← m.setDist x none)
  | y :: ys, m => do
    let d ← further (← m.dist[x]?)
    match ← m.pairing.right[y]? with
    | none =>
      if m.nilDist = some d then return (true, ← m.join x y) else tryEdges deeper x ys m
    | some z =>
      if (← m.dist[z]?) = some d then
        let (found, m) ← deeper z m
        if found then return (true, ← m.join x y) else tryEdges deeper x ys m
      else tryEdges deeper x ys m

/-- Seeks an augmenting path from `x` that goes through no more than this many layers. -/
def augmentWithin : Nat → Nat → BipartiteMatcher → Option (Bool × BipartiteMatcher)
  | 0, _, _ => none
  | layers + 1, x, m => do tryEdges (augmentWithin layers) x (← g.adjacency[x]?) m

/-- **Seeks an augmenting path** from `x`, and turns it over if there is one. Each of its left vertices
is one further than the one before, so there is no path through more layers than there are distances. -/
def augment (x : Nat) (m : BipartiteMatcher) : Option (Bool × BipartiteMatcher) :=
  augmentWithin g infinity x m

/-! ### All sweeps -/

/-- Seeks a path from `x` if it is free, and counts the pair that is made. -/
def seek (s : Nat × BipartiteMatcher) (x : Nat) : Option (Nat × BipartiteMatcher) := do
  let (size, m) := s
  if ← m.isFree x then
    let (found, m) ← augment g x m
    return (if found then size + 1 else size, m)
  else return s

/-- Sweeps until there are `target` pairs or no augmenting path is left. -/
def improve (target size : Nat) (m : BipartiteMatcher) : Option (Nat × BipartiteMatcher) := do
  if size < target then
    let (found, m) ← layer g m
    if found then
      let (more, m) ← (List.range g.leftSize).foldlM (seek g) (size, m)
      -- the sweep after one without a new pair would be the same again, and so on without end
      if size < more then improve target more m else none
    else return (size, m)
  else return (size, m)
termination_by target - size

/-- **The most pairs without `heldOut`,** and the matcher after the run. -/
def maxCardinality (heldOut : Option Nat) (m : BipartiteMatcher) :
    Option (Nat × BipartiteMatcher) := do
  let m := { m with
    pairing := ⟨.replicate g.leftSize none, .replicate g.rightSize none, heldOut⟩
    dist := .replicate g.leftSize none }
  let (size, m) ← (List.range g.leftSize).foldlM (claim g) (0, m)
  improve g (g.leftSize - if heldOut.any (· < g.leftSize) then 1 else 0) size m

/-- **The pairing of the last run,** by left vertex. -/
def matching (m : BipartiteMatcher) : Matching :=
  let left := (List.range m.pairing.left.size).filter fun x => m.pairing.heldOut ≠ some x
  ⟨left.filterMap fun x => (m.pairing.partner x).map (x, ·),
    left.filter fun x => (m.pairing.partner x).isNone,
    (List.range m.pairing.right.size).filter (m.pairing.right[·]? = some none)⟩

end BipartiteMatcher

end Bigraphs
