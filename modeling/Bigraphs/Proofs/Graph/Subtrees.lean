import Bigraphs.Proofs.Graph.Order
import Bigraphs.Proofs.Graph.Vertices

/-! # Subtrees

A node of a subtree is its top, or lies in the subtree at one child of it (`SubtreeNode.cases`,
`eq_of_siblings`). So maps on the subtrees at the children can be put together to one on the subtree
(`glue`). -/

namespace Bigraphs

/-- `x` is a node of the subtree at `u`. -/
structure Bigraph.SubtreeNode (g : Bigraph) (u x : PlaceId) : Prop where
  aboveEq : g.AboveEq u x
  isNode : g.isNode x

namespace Bigraph

variable {g : Bigraph} {u x : PlaceId}

/-- A place of a subtree is its top, or lies in the subtree at a child. -/
theorem aboveEq_cases (h : g.AboveEq u x) :
    x = u ∨ ∃ c, g.parent c = some u ∧ g.AboveEq c x := by
  rcases Relation.ReflTransGen.cases_head h with h | ⟨c, hc, hcx⟩
  · exact Or.inl h.symm
  · exact Or.inr ⟨c, hc, hcx⟩

theorem SubtreeNode.of_child {c : PlaceId} (hc : g.parent c = some u) (hx : g.SubtreeNode c x) :
    g.SubtreeNode u x :=
  ⟨.head hc hx.aboveEq, hx.isNode⟩

/-- `u` and the map `f c` on the subtree at each child `c` of `u`, as one map that sends `u` to `v`. -/
def glue (g : Bigraph) (v u : PlaceId) (f : PlaceId → PlaceId → PlaceId) (x : PlaceId) : PlaceId :=
  match (g.vertexChildren u).find? fun c => c = x || g.isAncestor c x with
  | none => v
  | some c => f c x

section Subtree
variable (hg : g.WellFormed)
include hg

/-- The nodes of the subtree at a node are reached by way of child nodes. -/
theorem subtreeNode_iff (hu : g.isNode u) : g.SubtreeNode u x ↔
    Relation.ReflTransGen (fun a b => b ∈ g.vertexChildren a) u x := by
  rw [hg.reachable_vertexChildren_iff]
  constructor
  · rintro ⟨habove, hn⟩
    exact (aboveEq_iff.mp habove).imp_right fun h => ⟨h, hn⟩
  · rintro (rfl | ⟨h, hn⟩)
    · exact ⟨.refl, hu⟩
    · exact ⟨h.to_reflTransGen, hn⟩

/-- A node of a subtree is its top, or lies in the subtree at a child of that. -/
theorem SubtreeNode.cases (hu : g.isNode u) (hx : g.SubtreeNode u x) :
    x = u ∨ ∃ c, g.isNode c ∧ g.parent c = some u ∧ g.SubtreeNode c x := by
  rcases Relation.ReflTransGen.cases_head ((subtreeNode_iff hg hu).mp hx) with h | ⟨c, hc, hcx⟩
  · exact Or.inl h.symm
  · obtain ⟨hc, hn⟩ := hg.mem_vertexChildren.mp hc
    exact Or.inr ⟨c, hn, hc, (subtreeNode_iff hg hn).mpr hcx⟩

/-- Siblings have nothing below them in common. -/
theorem eq_of_siblings {c d : PlaceId} (hc : g.parent c = some u) (hd : g.parent d = some u)
    (hcx : g.AboveEq c x) (hdx : g.AboveEq d x) : c = d :=
  hg.eq_of_depth_eq (by rw [hg.depth_of_parent hc, hg.depth_of_parent hd]) hcx hdx

theorem glue_top (v : PlaceId) (f : PlaceId → PlaceId → PlaceId) : g.glue v u f u = v := by
  unfold glue
  rw [List.find?_eq_none.mpr fun c hc => ?_]
  rw [Bool.not_eq_true, Bool.or_eq_false_iff, decide_eq_false_iff_not]
  have habove : g.Above u c := .single (hg.mem_vertexChildren.mp hc).1
  refine ⟨?_, Bool.eq_false_iff.mpr fun h => ?_⟩
  · rintro rfl
    exact hg.not_above_self c habove
  · exact hg.not_above_self u (habove.trans (hg.isAncestor_iff.mp h))

theorem glue_below (v : PlaceId) (f : PlaceId → PlaceId → PlaceId) {c : PlaceId} (hn : g.isNode c)
    (hc : g.parent c = some u) (hx : g.AboveEq c x) : g.glue v u f x = f c x := by
  have hiff : ∀ d, (decide (d = x) || g.isAncestor d x) = true ↔ g.AboveEq d x := by
    intro d
    rw [Bool.or_eq_true, decide_eq_true_eq, hg.isAncestor_iff, aboveEq_iff]
  unfold glue
  cases hfind : (g.vertexChildren u).find? fun c => c = x || g.isAncestor c x with
  | none =>
    have := List.find?_eq_none.mp hfind c (hg.mem_vertexChildren.mpr ⟨hc, hn⟩)
    exact absurd ((hiff c).mpr hx) this
  | some d =>
    have hd := (hg.mem_vertexChildren.mp (List.mem_of_find?_eq_some hfind)).1
    have hdx := List.find?_some hfind
    rw [eq_of_siblings hg hd hc ((hiff d).mp hdx) hx]

end Subtree

end Bigraph

end Bigraphs
