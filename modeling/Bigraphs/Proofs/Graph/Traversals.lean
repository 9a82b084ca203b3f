import Bigraphs.Graph.Worklist
import Bigraphs.Graph.Interface
import Bigraphs.Proofs.Construction.Steps
import Bigraphs.Proofs.Graph.Listing
import Bigraphs.Proofs.Graph.Order
import Bigraphs.Proofs.Graph.Vertices

/-! # The walks with a worklist end with all places, in order

The queue works through a generation and has the next one waiting then (`Queue.ends_generation`); the stack
works through a place and all below it before it looks at what waits underneath (`ends_stack_list`). No
place is deeper than there are places, so both run empty (`ends_queue`, `ends_stack`), with the lists of
`Bigraphs.Graph.Forest`. What these lists hold, and in which order, is `traversals_spec`. -/

namespace Bigraphs

/-! ### A queue -/

section Queue
variable {α : Type} {below : Nat → α → Option (List α)}

/-- What hangs under the members of a list that are handed out from the `k`-th on. -/
def Queue.nextLayer (more : Nat → α → List α) (k : Nat) (l : List α) : List α :=
  (l.zipIdx k).flatMap fun (a, i) => more i a

/-- **The queue hands out what stands in front,** and what hangs under it waits at the end. -/
theorem Queue.ends_layer (more : Nat → α → List α) {l rest done r : List α}
    (hbelow : ∀ k, ∀ a ∈ l, below k a = some (more k a))
    (h : Ends (Queue.round below) ⟨rest ++ nextLayer more done.length l, done ++ l⟩ r) :
    Ends (Queue.round below) ⟨l ++ rest, done⟩ r := by
  induction l generalizing rest done with
  | nil => simpa [nextLayer] using h
  | cons a l ih =>
    have hround : Queue.round below ⟨a :: l ++ rest, done⟩ =
        some (.inl ⟨l ++ (rest ++ more done.length a), done ++ [a]⟩) := by
      simp [Queue.round, hbelow done.length a (by simp)]
    refine .later hround (ih (fun k b hb => hbelow k b (List.mem_cons_of_mem _ hb)) ?_)
    simpa [nextLayer, List.zipIdx_cons] using h

/-- When all that waited has been handed out, what hangs under it is what waits. -/
theorem Queue.ends_generation (more : Nat → α → List α) {l done r : List α}
    (hbelow : ∀ k, ∀ a ∈ l, below k a = some (more k a))
    (h : Ends (Queue.round below) ⟨nextLayer more done.length l, done ++ l⟩ r) :
    Ends (Queue.round below) ⟨l, done⟩ r := by
  have hl : Ends (Queue.round below) ⟨l ++ [], done⟩ r := ends_layer more hbelow h
  rwa [List.append_nil] at hl

end Queue

namespace Bigraph

variable {g : Bigraph}

theorem readChildren_eq {p : PlaceId} (hp : p < g.places.size) :
    g.readChildren p = some (g.children p) := by
  simp [readChildren, children, hp]

theorem nextLayer_children (k : Nat) (l : List PlaceId) :
    Queue.nextLayer (fun _ p => g.children p) k l = l.flatMap g.children := by
  rw [Queue.nextLayer, ← List.flatMap_map Prod.fst, List.zipIdx_map_fst]

/-- **The stack hands out the trees of the places on top,** one after the other, if that is what it does
with each of them. -/
theorem ends_stack_list {f : PlaceId → List PlaceId} {r l : List PlaceId}
    (htree : ∀ p ∈ l, ∀ waiting done, Ends g.stackRound ⟨waiting, done ++ f p⟩ r →
      Ends g.stackRound ⟨(p, false) :: waiting, done⟩ r)
    {waiting : List (PlaceId × Bool)} {done : List PlaceId}
    (h : Ends g.stackRound ⟨waiting, done ++ l.flatMap f⟩ r) :
    Ends g.stackRound ⟨l.map (·, false) ++ waiting, done⟩ r := by
  induction l generalizing done with
  | nil => simpa using h
  | cons p l ih =>
    refine htree p (by simp) _ _ (ih (fun q hq => htree q (List.mem_cons_of_mem _ hq)) ?_)
    rwa [List.append_assoc, ← List.flatMap_cons]

namespace WellFormed

variable (hg : g.WellFormed)
include hg

/-- **The queue ends,** and has handed out generation by generation. -/
theorem ends_queue {n d : Nat} {l done : List PlaceId} (hl : g.Level n d l) :
    Ends g.queueRound ⟨l, done⟩ (done ++ generations g.children n l) := by
  induction n generalizing d l done with
  | zero =>
    rw [hl.eq_nil hg]
    exact .now (by simp [queueRound, Queue.round, generations])
  | succ n ih =>
    have hrest : Ends g.queueRound ⟨l.flatMap g.children, done ++ l⟩
        (done ++ l ++ generations g.children n (l.flatMap g.children)) :=
      ih (hl.flatMap hg fun h => h)
    rw [List.append_assoc, ← generations_cons, ← nextLayer_children done.length] at hrest
    exact Queue.ends_generation (fun _ p => g.children p)
      (fun _ p hp => readChildren_eq (hl.lt_size p hp)) hrest

/-! ### A stack -/

/-- The tree of one place: its children wait above it, so it is handed out when they and all below
them have been. -/
theorem ends_stack_tree {n : Nat} {p : PlaceId} (hp : p < g.places.size)
    (hn : g.places.size ≤ g.depth p + n) {waiting : List (PlaceId × Bool)} {done : List PlaceId}
    (h : Ends g.stackRound ⟨waiting, done ++ g.postOrderFrom n p⟩ r) :
    Ends g.stackRound ⟨(p, false) :: waiting, done⟩ r := by
  induction n generalizing p waiting done with
  | zero => exact absurd (hg.depth_lt hp) (by omega)
  | succ n ih =>
    have hexpand : g.stackRound ⟨(p, false) :: waiting, done⟩ =
        some (.inl ⟨(g.children p).map (·, false) ++ (p, true) :: waiting, done⟩) := by
      simp [stackRound, readChildren_eq hp]
    refine .later hexpand (ends_stack_list (f := g.postOrderFrom n) ?_ (.later rfl ?_))
    · intro c hc waiting' done' hr
      have hdepth := hg.depth_of_parent (hg.mem_children.mp hc)
      exact ih (lt_of_parent (hg.mem_children.mp hc)) (by omega) hr
    · rwa [postOrderFrom, ← List.append_assoc] at h

/-- **The stack ends,** and has handed out tree by tree. -/
theorem ends_stack : Ends g.stackRound ⟨g.roots.map (·, false), []⟩ g.postOrder := by
  have hroots : ∀ r ∈ g.roots, r < g.places.size := hg.level_roots.lt_size
  rw [← List.append_nil (g.roots.map _)]
  refine ends_stack_list (f := g.postOrderFrom g.places.size) (fun r hr waiting done hl => ?_)
    (.now rfl)
  exact hg.ends_stack_tree (hroots r hr) (by omega) hl

/-! ### A cursor -/

/-- **The way up ends,** and finds what lies above. -/
theorem ends_climb (a p : PlaceId) : Ends (g.climbRound a) (g.parent p) (g.isAncestor a p) := by
  refine hg.acyclic.induction
    (C := fun p => Ends (g.climbRound a) (g.parent p) (g.isAncestor a p)) p fun p ih => ?_
  cases hq : g.parent p with
  | none =>
    have hnone : g.isAncestor a p = false := by
      rw [Bool.eq_false_iff, Ne, hg.isAncestor_iff]
      exact not_above_of_parent_eq_none hq
    exact .now (by rw [hnone]; rfl)
  | some q =>
    have hstep : g.isAncestor a p = (decide (q = a) || g.isAncestor a q) := by
      rw [isAncestor, hg.ancestors_of_parent hq, List.contains_cons, isAncestor, beq_eq_decide]
      simp only [eq_comm]
    rw [hstep]
    by_cases hqa : q = a
    · exact .now (by simp [climbRound, hqa])
    · have hround : g.climbRound a (some q) = some (.inl (g.parent q)) := by
        simp [climbRound, hqa, parent, hg.lt_of_isParent hq]
      have hrest := ih q hq
      rw [decide_eq_false hqa, Bool.false_or]
      exact .later hround hrest

end WellFormed

/-! ### What the lists hold -/

/-- **Breadth-first:** all places, each once, no place before one that is less deep, and none before one
above it. -/
structure BreadthFirst (g : Bigraph) (l : List PlaceId) : Prop where
  perm : l.Perm g.placeIds
  deeper_later : l.Pairwise fun x y => g.depth x ≤ g.depth y
  parents_first : l.Pairwise fun x y => ¬ g.Above y x

/-- **Post-order:** all places, each once, no place before one below it, and tree after tree by the
indices of the roots. -/
structure PostOrdered (g : Bigraph) (l : List PlaceId) : Prop where
  perm : l.Perm g.placeIds
  below_first : l.Pairwise fun x y => ¬ g.Above x y
  tree_by_tree : l.Pairwise fun x y => ∀ r s i j, g.rootIndex r = some i → g.rootIndex s = some j →
    g.AboveEq r x → g.AboveEq s y → i ≤ j

/-- **What lies below `p`,** each place once, no place before one that is less deep. -/
structure ListsBelow (g : Bigraph) (p : PlaceId) (l : List PlaceId) : Prop where
  nodup : l.Nodup
  mem_iff : ∀ q, q ∈ l ↔ g.isAncestor p q = true
  above : ∀ q ∈ l, g.Above p q
  deeper_later : l.Pairwise fun x y => g.depth x ≤ g.depth y

/-- **The roots and the nodes that have children,** each once and none before one below it. -/
structure ListsInternal (g : Bigraph) (l : List PlaceId) : Prop where
  nodup : l.Nodup
  mem_iff : ∀ v, v ∈ l ↔ g.isRoot v ∨ g.isNode v ∧ g.children v ≠ []
  below_first : l.Pairwise fun x y => ¬ g.Above x y

namespace WellFormed

variable (hg : g.WellFormed)
include hg

theorem breadthFirst_bfsOrder (hr : g.Rooted) : g.BreadthFirst g.bfsOrder := by
  have hdepth : g.bfsOrder.Pairwise fun x y => g.depth x ≤ g.depth y :=
    pairwise_depth_generations hg (fun h => h) hg.level_roots
  have hnodup : g.bfsOrder.Nodup :=
    nodup_generations hg (fun h => h) hg.nodup_children hg.level_roots nodup_roots
  refine ⟨(List.perm_ext_iff_of_nodup hnodup List.nodup_range).mpr fun x => ?_, hdepth,
    hdepth.imp fun {x y} hle habove => ?_⟩
  · rw [bfsOrder, mem_generations hg (fun h => h) hg.level_roots, List.mem_range]
    constructor
    · rintro ⟨r, hroot, hrx⟩
      rcases aboveEq_iff.mp (hg.reachable_children_iff.mp hrx) with rfl | h
      · exact hg.level_roots.lt_size r hroot
      · obtain ⟨q, -, hq⟩ := Relation.TransGen.tail'_iff.mp h
        exact lt_of_parent hq
    · intro hx
      obtain ⟨r, hroot, hrx⟩ := hg.exists_root hr hx
      exact ⟨r, mem_roots.mpr hroot, hg.reachable_children_iff.mpr hrx⟩
  · exact absurd (hg.depth_lt_of_above habove) (by omega)

theorem below_first_postOrderFrom {n : Nat} {p : PlaceId} :
    (g.postOrderFrom n p).Pairwise fun x y => ¬ g.Above x y := by
  induction n generalizing p with
  | zero => exact .nil
  | succ n ih =>
    rw [postOrderFrom]
    refine List.pairwise_append.mpr ⟨List.pairwise_flatMap.mpr ⟨fun c _ => ih, ?_⟩, by simp, ?_⟩
    · refine (hg.nodup_children p).imp_of_mem fun {c d} hc hd hne x hx y hy habove => hne ?_
      have hcy := (hg.mem_postOrderFrom.mp hx).1.trans habove.to_reflTransGen
      refine hg.eq_of_depth_eq ?_ hcy (hg.mem_postOrderFrom.mp hy).1
      rw [hg.depth_of_parent (hg.mem_children.mp hc), hg.depth_of_parent (hg.mem_children.mp hd)]
    · intro x hx y hy habove
      obtain ⟨c, hc, hcx⟩ := List.mem_flatMap.mp hx
      have hpx : g.Above p x := .head' (hg.mem_children.mp hc) (hg.mem_postOrderFrom.mp hcx).1
      rw [List.mem_singleton.mp hy] at habove
      exact hg.not_above_self p (hpx.trans habove)

theorem postOrdered_postOrder (hr : g.Rooted) : g.PostOrdered g.postOrder := by
  have habove : ∀ {r x}, x ∈ g.postOrderFrom g.places.size r → g.AboveEq r x := fun h =>
    (hg.mem_postOrderFrom.mp h).1
  refine ⟨(List.perm_ext_iff_of_nodup hg.nodup_postOrder List.nodup_range).mpr fun x => ?_, ?_, ?_⟩
  · rw [hg.mem_postOrder hr, List.mem_range]
  · refine List.pairwise_flatMap.mpr ⟨fun r _ => hg.below_first_postOrderFrom, ?_⟩
    refine nodup_roots.imp_of_mem fun {r s} hrm hsm hne x hx y hy hxy => hne ?_
    exact hg.root_unique (mem_roots.mp hrm) (mem_roots.mp hsm)
      ((habove hx).trans hxy.to_reflTransGen) (habove hy)
  · -- the root above a place is the one whose tree hands it out
    have htree : ∀ {r s x i}, r ∈ g.roots → x ∈ g.postOrderFrom g.places.size r →
        g.rootIndex s = some i → g.AboveEq s x → g.rootIndex r = some i := by
      intro r s x i hrm hx hs hsx
      have hroot : g.isRoot s := by rw [isRoot, hs]; rfl
      rw [hg.root_unique (mem_roots.mp hrm) hroot (habove hx) hsx]
      exact hs
    refine List.pairwise_flatMap.mpr ⟨fun r hrm => ?_, ?_⟩
    · refine List.pairwise_of_forall_mem_list fun x hx y hy s t i j hs ht hsx hty => ?_
      have hij := (htree hrm hx hs hsx).symm.trans (htree hrm hy ht hty)
      exact (Option.some.inj hij).le
    · refine (g.pairwise_roots hg).imp_of_mem fun {r r'} hrm hrm' hlt => ?_
      intro x hx y hy s t i j hs ht hsx hty
      rw [htree hrm hx hs hsx, htree hrm' hy ht hty] at hlt
      exact hlt.le

theorem listsBelow_descendants (p : PlaceId) : g.ListsBelow p (g.descendants p) where
  nodup := nodup_generations hg (fun h => h) hg.nodup_children (hg.level_children p) (hg.nodup_children p)
  mem_iff q := by rw [hg.mem_descendants, hg.isAncestor_iff]
  above _ hq := hg.mem_descendants.mp hq
  deeper_later := pairwise_depth_generations hg (fun h => h) (hg.level_children p)

theorem listsInternal_internalPostOrder (hr : g.Rooted) (h : g.isGround) :
    g.ListsInternal g.internalPostOrder where
  nodup := hg.nodup_postOrder.filter _
  mem_iff v := by
    rw [hg.mem_internalPostOrder hr h]
    constructor
    · rintro (hroot | ⟨c, hc⟩)
      · exact Or.inl hroot
      · cases hroot : g.isRoot v with
        | true => exact Or.inl rfl
        | false =>
          refine Or.inr ⟨hg.isNode_of_above hc hroot, ?_⟩
          exact List.ne_nil_of_mem (hg.mem_children.mpr hc)
    · rintro (hroot | ⟨-, hc⟩)
      · exact Or.inl hroot
      · obtain ⟨c, hc⟩ := List.exists_mem_of_ne_nil _ hc
        exact Or.inr ⟨c, hg.mem_children.mp hc⟩
  below_first := (hg.postOrdered_postOrder hr).below_first.filter _

end WellFormed

/-- **The walks of a finished bigraph end,** each with all places it is to go through, in the order it
is to go through them. -/
theorem traversals_spec (h : g.Constructible) :
    (Ends g.queueRound ⟨g.roots, []⟩ g.bfsOrder ∧ g.BreadthFirst g.bfsOrder) ∧
    (Ends g.stackRound ⟨g.roots.map (·, false), []⟩ g.postOrder ∧ g.PostOrdered g.postOrder) ∧
    (∀ p q, Ends (g.climbRound p) (g.parent q) (g.isAncestor p q)) ∧
    (∀ p, Ends g.queueRound ⟨g.children p, []⟩ (g.descendants p) ∧
      g.ListsBelow p (g.descendants p)) ∧
    (g.isGround → g.ListsInternal g.internalPostOrder) := by
  have hg := h.wellFormed
  exact ⟨⟨hg.ends_queue hg.level_roots, hg.breadthFirst_bfsOrder h.rooted⟩,
    ⟨hg.ends_stack, hg.postOrdered_postOrder h.rooted⟩, hg.ends_climb,
    fun p => ⟨hg.ends_queue (hg.level_children p), hg.listsBelow_descendants p⟩,
    hg.listsInternal_internalPostOrder h.rooted⟩

end Bigraph

/-! ### Two houses -/

/-- Two houses, the second one built first, with a room that is moved between them and takes the room in
it along. -/
def houses : Bigraph :=
  ((Construction.new ⟨[⟨"Room", 1, .active⟩], by decide⟩).run [.root 1, .root 0, .node "Room" "a",
    .nest 2 0, .node "Room" "b", .nest 3 2, .node "Room" "c", .nest 4 1, .nest 2 4]).graph

theorem traversals_spec_houses : houses.Constructible ∧ houses.isGround = true ∧
    Ends houses.queueRound ⟨[1, 0], []⟩ [1, 0, 4, 2, 3] ∧
    Ends houses.stackRound ⟨[(1, false), (0, false)], []⟩ [3, 2, 4, 1, 0] ∧
    houses.ListsBelow 4 [2, 3] ∧ houses.ListsInternal [2, 4, 1, 0] := by
  have h : houses.Constructible := Bigraph.constructible_run (by decide)
  have hground : houses.isGround = true := by decide
  obtain ⟨⟨hbfs, -⟩, ⟨hpost, -⟩, -, hbelow, hinternal⟩ := Bigraph.traversals_spec h
  have hroots : houses.roots = [1, 0] := by decide
  have hqueue : houses.bfsOrder = [1, 0, 4, 2, 3] := by decide
  have hstack : houses.postOrder = [3, 2, 4, 1, 0] := by decide
  have hunder : houses.descendants 4 = [2, 3] := by decide
  have hinner : houses.internalPostOrder = [2, 4, 1, 0] := by decide
  rw [hroots, hqueue] at hbfs
  rw [hroots, hstack] at hpost
  exact ⟨h, hground, hbfs, hpost, hunder ▸ (hbelow 4).2, hinner ▸ hinternal hground⟩

end Bigraphs
