import Bigraphs.Graph.Interface
import Bigraphs.Graph.Forest
import Bigraphs.Proofs.Graph.Walks

/-! # Vertices below vertices

In a well-formed bigraph the children of a vertex that are no sites are its child nodes, and the nodes
are what is reached from the roots by way of such children. -/

namespace Bigraphs

namespace Bigraph

variable {g : Bigraph}

theorem mem_children_of_mem_vertexChildren {c p : PlaceId} (h : c ∈ g.vertexChildren p) :
    c ∈ g.children p :=
  (List.mem_filter.mp h).1

theorem lt_of_mem_vertices {v : PlaceId} (h : v ∈ g.vertices) : v < g.places.size := by
  rcases List.mem_append.mp h with h | h
  · obtain ⟨i, hi⟩ := isRoot_iff.mp (mem_roots.mp h)
    exact lt_of_kind hi
  · exact lt_of_isNode (mem_nodes.mp h)

/-! ### Ground bigraphs -/

theorem isSite_of_isGround (h : g.isGround) (p : PlaceId) : g.isSite p = false := by
  unfold isGround at h
  rw [Bool.and_eq_true, List.isEmpty_iff] at h
  rw [← Bool.not_eq_true, ← mem_sites, h.1]
  simp

theorem vertexChildren_of_isGround (h : g.isGround) (p : PlaceId) :
    g.vertexChildren p = g.children p :=
  List.filter_eq_self.mpr fun c _ => by rw [isSite_of_isGround h]; rfl

namespace WellFormed

variable (hg : g.WellFormed)
include hg

theorem mem_internalPostOrder (hr : g.Rooted) (h : g.isGround) {v : PlaceId} :
    v ∈ g.internalPostOrder ↔ g.isRoot v ∨ ∃ c, g.parent c = some v := by
  unfold internalPostOrder isLeaf
  rw [List.mem_filter, hg.mem_postOrder hr, vertexChildren_of_isGround h, Bool.or_eq_true,
    Bool.not_eq_true', Bool.and_eq_false_iff]
  constructor
  · rintro ⟨hlt, hroot | hn | hc⟩
    · exact Or.inl hroot
    · cases hroot : g.isRoot v with
      | true => exact Or.inl rfl
      | false => rw [isNode_of_not hlt hroot (isSite_of_isGround h v)] at hn; cases hn
    · rw [List.isEmpty_eq_false_iff_exists_mem] at hc
      obtain ⟨c, hc⟩ := hc
      exact Or.inr ⟨c, hg.mem_children.mp hc⟩
  · rintro (hroot | ⟨c, hc⟩)
    · obtain ⟨i, hi⟩ := isRoot_iff.mp hroot
      exact ⟨lt_of_kind hi, Or.inl hroot⟩
    · refine ⟨hg.lt_of_isParent hc, Or.inr (Or.inr ?_)⟩
      rw [List.isEmpty_eq_false_iff_exists_mem]
      exact ⟨c, hg.mem_children.mpr hc⟩

/-! ### Children that are no sites -/

theorem mem_vertexChildren {c p : PlaceId} :
    c ∈ g.vertexChildren p ↔ g.parent c = some p ∧ g.isNode c := by
  rw [vertexChildren, List.mem_filter, hg.mem_children]
  refine and_congr_right fun h => ?_
  constructor
  · intro hs
    refine (hg.isNode_or_isSite_of_parent h).resolve_right fun hs' => ?_
    rw [hs'] at hs
    cases hs
  · intro hn
    rw [isSite_eq_false_of_isNode hn]; rfl

theorem nodup_vertexChildren (p : PlaceId) : (g.vertexChildren p).Nodup :=
  (hg.nodup_children p).filter _

theorem vertexChildren_eq_children {p : PlaceId}
    (h : ∀ s, g.isSite s → g.parent s ≠ some p) : g.vertexChildren p = g.children p := by
  refine List.filter_eq_self.mpr fun c hc => ?_
  cases hs : g.isSite c with
  | false => rfl
  | true => exact absurd (hg.mem_children.mp hc) (h c hs)

/-- What lies above a node is a vertex. -/
theorem isNode_of_above {p q : PlaceId} (h : g.parent p = some q) (hr : g.isRoot q = false) :
    g.isNode q := by
  have hq := hg.lt_of_isParent h
  refine isNode_of_not hq hr ?_
  cases hs : g.isSite q with
  | false => rfl
  | true =>
    have hm := hg.mem_children.mpr h
    rw [hg.children_site hs] at hm
    simp at hm

theorem reachable_vertexChildren_iff {a b : PlaceId} :
    Relation.ReflTransGen (fun a b => b ∈ g.vertexChildren a) a b ↔
      a = b ∨ g.Above a b ∧ g.isNode b := by
  constructor
  · intro h
    induction h with
    | refl => exact Or.inl rfl
    | tail _ hbc ih =>
      obtain ⟨hp, hn⟩ := hg.mem_vertexChildren.mp hbc
      refine Or.inr ⟨?_, hn⟩
      rcases ih with rfl | ⟨ih, -⟩
      · exact .single hp
      · exact .tail ih hp
  · rintro (rfl | ⟨h, hn⟩)
    · exact .refl
    · revert hn
      induction h with
      | single hp => exact fun hn => .single (hg.mem_vertexChildren.mpr ⟨hp, hn⟩)
      | @tail c d hac hcd ih =>
        intro hn
        refine .tail (ih (hg.isNode_of_above hcd ?_)) (hg.mem_vertexChildren.mpr ⟨hcd, hn⟩)
        cases hr : g.isRoot c with
        | false => rfl
        | true => exact absurd hac (not_above_of_parent_eq_none (hg.parent_root hr))

theorem level_topNodes : g.Level g.places.size 1 (g.roots.flatMap g.vertexChildren) :=
  Level.flatMap (n := g.places.size) hg mem_children_of_mem_vertexChildren
    ⟨hg.level_roots.depth_eq, hg.level_roots.lt_size, by omega⟩

/-- Generation by generation below the roots, all nodes are met. -/
theorem mem_generations_topNodes (hr : g.Rooted) {x : PlaceId} :
    x ∈ generations g.vertexChildren g.places.size (g.roots.flatMap g.vertexChildren) ↔
      g.isNode x := by
  rw [mem_generations hg mem_children_of_mem_vertexChildren hg.level_topNodes]
  constructor
  · rintro ⟨c, hc, hcx⟩
    obtain ⟨r, -, hrc⟩ := List.mem_flatMap.mp hc
    rcases hg.reachable_vertexChildren_iff.mp hcx with rfl | ⟨-, hn⟩
    · exact (hg.mem_vertexChildren.mp hrc).2
    · exact hn
  · intro hn
    obtain ⟨r, hroot, hrx⟩ := hg.exists_root hr (lt_of_isNode hn)
    have hne : r ≠ x := by
      rintro rfl
      exact absurd hroot (not_isRoot_of_isNode hn)
    have habove := (aboveEq_iff.mp hrx).resolve_left hne
    have hreach := hg.reachable_vertexChildren_iff.mpr (Or.inr ⟨habove, hn⟩)
    rcases Relation.ReflTransGen.cases_head hreach with h | ⟨c, hrc, hcx⟩
    · exact absurd h hne
    · exact ⟨c, List.mem_flatMap.mpr ⟨r, mem_roots.mpr hroot, hrc⟩, hcx⟩

theorem nodup_generations_topNodes :
    (generations g.vertexChildren g.places.size (g.roots.flatMap g.vertexChildren)).Nodup :=
  nodup_generations hg mem_children_of_mem_vertexChildren hg.nodup_vertexChildren hg.level_topNodes
    (nodup_flatMap_below hg mem_children_of_mem_vertexChildren hg.nodup_vertexChildren nodup_roots)

end WellFormed

end Bigraph

end Bigraphs
