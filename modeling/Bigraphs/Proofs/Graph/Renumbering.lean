import Bigraphs.Graph.Interface
import Bigraphs.Proofs.Graph.Listing
import Bigraphs.Proofs.Graph.Walks
import Mathlib.Algebra.Group.End

/-! # Renumbering

A bigraph that is constructed again in another order is the same but for the numbers of its places, links
and inner names, and the order of children and points (`Renumbering`). All that a bigraph says by name or
by index stays: the roots and sites in their order (`roots_eq`), parents, controls, labels, the link of
each port, and which links are edges. Children and points are the same up to their order
(`children_perm`, `points_perm`). -/

namespace Bigraphs

/-- The kind of place with its ports on other links. -/
def PlaceKind.relinked (f : LinkId → LinkId) : PlaceKind → PlaceKind
  | .node d => .node { d with ports := d.ports.map f }
  | k => k

/-- An exchange of two numbers in use leaves the others. -/
theorem swap_apply_of_le {a b k n : Nat} (ha : a < k) (hb : b < k) (h : k ≤ n) :
    Equiv.swap a b n = n :=
  Equiv.swap_apply_of_ne_of_ne (by omega) (by omega)

namespace Bigraph

/-- **A renumbering** of places, links and inner names. It keeps the indices of roots and sites, controls,
labels, parents, the link of each port, the kinds and names of links, and inner names with their links.
Numbers that belong to nothing go to numbers that belong to nothing. -/
structure Renumbering (g g' : Bigraph) where
  place : Equiv.Perm PlaceId
  link : Equiv.Perm LinkId
  inner : Equiv.Perm InnerId
  kind_eq : ∀ p, g'.kind (place p) = (g.kind p).map (PlaceKind.relinked link)
  parent_eq : ∀ p, g'.parent (place p) = (g.parent p).map place
  linkKind_eq : ∀ l, g'.linkKind (link l) = g.linkKind l
  inner_eq : ∀ i, g'.innerNames[inner i]? =
    g.innerNames[i]?.map fun x => ⟨x.name, x.link.map link⟩

namespace Renumbering

variable {g g' : Bigraph}

/-- A renumbering that moves only numbers in use is checked for these. -/
def ofUsed (place : Equiv.Perm PlaceId) (link : Equiv.Perm LinkId) (inner : Equiv.Perm InnerId)
    (hsize : g'.places.size = g.places.size ∧ g'.links.size = g.links.size ∧
      g'.innerNames.size = g.innerNames.size)
    (hrest : ∀ n, (g.places.size ≤ n → place n = n) ∧ (g.links.size ≤ n → link n = n) ∧
      (g.innerNames.size ≤ n → inner n = n))
    (hplace : ∀ p < g.places.size, g'.kind (place p) = (g.kind p).map (PlaceKind.relinked link) ∧
      g'.parent (place p) = (g.parent p).map place)
    (hlink : ∀ l < g.links.size, g'.linkKind (link l) = g.linkKind l)
    (hinner : ∀ i < g.innerNames.size, g'.innerNames[inner i]? =
      g.innerNames[i]?.map fun x => ⟨x.name, x.link.map link⟩) : Renumbering g g' where
  place := place
  link := link
  inner := inner
  kind_eq p := by
    by_cases h : p < g.places.size
    · exact (hplace p h).1
    · have hp := Nat.not_lt.mp h
      rw [(hrest p).1 hp, kind_eq_none_iff.mpr hp, kind_eq_none_iff.mpr (by rw [hsize.1]; exact hp)]
      rfl
  parent_eq p := by
    by_cases h : p < g.places.size
    · exact (hplace p h).2
    · have hp := Nat.not_lt.mp h
      have hnone : ∀ b : Bigraph, b.places.size ≤ p → b.parent p = none := fun b hb => by
        rw [parent, Array.getElem?_eq_none hb]
        rfl
      rw [(hrest p).1 hp, hnone g hp, hnone g' (by rw [hsize.1]; exact hp)]
      rfl
  linkKind_eq l := by
    by_cases h : l < g.links.size
    · exact hlink l h
    · have hl := Nat.not_lt.mp h
      rw [(hrest l).2.1 hl, linkKind_eq_none_iff.mpr hl,
        linkKind_eq_none_iff.mpr (by rw [hsize.2.1]; exact hl)]
  inner_eq i := by
    by_cases h : i < g.innerNames.size
    · exact hinner i h
    · have hi := Nat.not_lt.mp h
      rw [(hrest i).2.2 hi, Array.getElem?_eq_none hi,
        Array.getElem?_eq_none (by rw [hsize.2.2]; exact hi)]
      rfl

/-- Every bigraph is a renumbering of itself. -/
def refl (g : Bigraph) : Renumbering g g where
  place := 1
  link := 1
  inner := 1
  kind_eq p := by
    rw [Equiv.Perm.one_apply]
    cases g.kind p with
    | none => rfl
    | some k => cases k <;> simp [PlaceKind.relinked]
  parent_eq p := by simp
  linkKind_eq _ := rfl
  inner_eq i := by
    rw [Equiv.Perm.one_apply]
    cases g.innerNames[i]? with
    | none => rfl
    | some x => simp

/-- The renumbering read backwards. -/
def symm (f : Renumbering g g') : Renumbering g' g where
  place := f.place.symm
  link := f.link.symm
  inner := f.inner.symm
  kind_eq p := by
    have h := f.kind_eq (f.place.symm p)
    rw [Equiv.apply_symm_apply] at h
    rw [h, Option.map_map]
    cases hk : g.kind (f.place.symm p) with
    | none => rfl
    | some k => cases k <;> simp [PlaceKind.relinked]
  parent_eq p := by
    have h := f.parent_eq (f.place.symm p)
    rw [Equiv.apply_symm_apply] at h
    rw [h, Option.map_map]
    simp
  linkKind_eq l := by rw [← f.linkKind_eq, Equiv.apply_symm_apply]
  inner_eq i := by
    have h := f.inner_eq (f.inner.symm i)
    rw [Equiv.apply_symm_apply] at h
    rw [h, Option.map_map]
    cases g.innerNames[f.inner.symm i]? with
    | none => rfl
    | some x => simp

variable (f : Renumbering g g')

/-! ### Places -/

theorem rootIndex_eq (p : PlaceId) : g'.rootIndex (f.place p) = g.rootIndex p := by
  rw [rootIndex, f.kind_eq, rootIndex]
  cases g.kind p with
  | none => rfl
  | some k => cases k <;> rfl

theorem siteIndex_eq (p : PlaceId) : g'.siteIndex (f.place p) = g.siteIndex p := by
  rw [siteIndex, f.kind_eq, siteIndex]
  cases g.kind p with
  | none => rfl
  | some k => cases k <;> rfl

theorem node?_eq (p : PlaceId) :
    g'.node? (f.place p) = (g.node? p).map fun d => { d with ports := d.ports.map f.link } := by
  rw [node?, f.kind_eq, node?]
  cases g.kind p with
  | none => rfl
  | some k => cases k <;> rfl

theorem control_eq (p : PlaceId) : g'.control (f.place p) = g.control p := by
  rw [control, f.node?_eq, Option.map_map]
  rfl

theorem label_eq (p : PlaceId) : g'.label (f.place p) = g.label p := by
  rw [label, f.node?_eq, Option.map_map]
  rfl

theorem isRoot_eq (p : PlaceId) : g'.isRoot (f.place p) = g.isRoot p := by
  rw [isRoot, f.rootIndex_eq, isRoot]

theorem isSite_eq (p : PlaceId) : g'.isSite (f.place p) = g.isSite p := by
  rw [isSite, f.siteIndex_eq, isSite]

theorem isNode_eq (p : PlaceId) : g'.isNode (f.place p) = g.isNode p := by
  rw [isNode, f.node?_eq, Option.isSome_map, isNode]

theorem ports_eq (p : PlaceId) : g'.ports (f.place p) = (g.ports p).map f.link := by
  rw [Bigraph.ports_eq, Bigraph.ports_eq, f.node?_eq]
  cases g.node? p <;> rfl

theorem portLink_eq (p : PlaceId) (i : Nat) :
    g'.portLink (f.place p) i = (g.portLink p i).map f.link := by
  rw [portLink, f.ports_eq, List.getElem?_map, portLink]

theorem portLink_iff {p : PlaceId} {i : Nat} {l : LinkId} :
    g'.portLink (f.place p) i = some (f.link l) ↔ g.portLink p i = some l := by
  rw [f.portLink_eq, Option.map_eq_some_iff]
  simp

/-! ### The forest -/

theorem parent_iff {p q : PlaceId} :
    g'.parent (f.place p) = some (f.place q) ↔ g.parent p = some q := by
  rw [f.parent_eq, Option.map_eq_some_iff]
  simp

theorem above_apply {a p : PlaceId} (h : g.Above a p) : g'.Above (f.place a) (f.place p) := by
  induction h with
  | single h => exact .single (f.parent_iff.mpr h)
  | tail _ h ih => exact .tail ih (f.parent_iff.mpr h)

theorem above_iff {a p : PlaceId} : g'.Above (f.place a) (f.place p) ↔ g.Above a p := by
  refine ⟨fun h => ?_, f.above_apply⟩
  have h' := f.symm.above_apply h
  simpa [symm] using h'

theorem aboveEq_iff {a p : PlaceId} : g'.AboveEq (f.place a) (f.place p) ↔ g.AboveEq a p := by
  rw [Bigraph.aboveEq_iff, Bigraph.aboveEq_iff, f.above_iff, f.place.injective.eq_iff]

/-- Lists that grow along an index correspond when the index does. -/
theorem eq_map_of_index {index index' : PlaceId → Option Nat} {l l' : List PlaceId}
    (hindex : ∀ p, index' (f.place p) = index p)
    (hl : l.Pairwise fun p q => (index p).getD 0 < (index q).getD 0)
    (hl' : l'.Pairwise fun p q => (index' p).getD 0 < (index' q).getD 0)
    (hmem : ∀ p, p ∈ l ↔ (index p).isSome) (hmem' : ∀ p, p ∈ l' ↔ (index' p).isSome) :
    l' = l.map f.place := by
  refine eq_of_pairwise_index hl' ?_ fun p' => ?_
  · refine List.pairwise_map.mpr (hl.imp fun {p q} h => ?_)
    rwa [hindex, hindex]
  · rw [hmem', List.mem_map]
    constructor
    · intro h
      refine ⟨f.place.symm p', (hmem _).mpr ?_, by simp⟩
      rwa [← hindex, Equiv.apply_symm_apply]
    · rintro ⟨p, hp, rfl⟩
      rw [hindex]
      exact (hmem p).mp hp

/-- **The roots** keep their order. -/
theorem roots_eq (hg : g.WellFormed) (hg' : g'.WellFormed) : g'.roots = g.roots.map f.place :=
  f.eq_map_of_index f.rootIndex_eq (pairwise_roots hg) (pairwise_roots hg') (fun _ => mem_roots)
    fun _ => mem_roots

/-- **The sites** keep their order. -/
theorem sites_eq (hg : g.WellFormed) (hg' : g'.WellFormed) : g'.sites = g.sites.map f.place :=
  f.eq_map_of_index f.siteIndex_eq (pairwise_sites hg) (pairwise_sites hg') (fun _ => mem_sites)
    fun _ => mem_sites

theorem nodes_perm : (g.nodes.map f.place).Perm g'.nodes := by
  refine (List.perm_ext_iff_of_nodup (nodup_nodes.map f.place.injective) nodup_nodes).mpr fun p' => ?_
  rw [List.mem_map, mem_nodes]
  constructor
  · rintro ⟨p, hp, rfl⟩
    rw [f.isNode_eq]
    exact mem_nodes.mp hp
  · intro h
    refine ⟨f.place.symm p', mem_nodes.mpr ?_, by simp⟩
    rwa [← f.isNode_eq, Equiv.apply_symm_apply]

/-- **The children** are the same, in some order. -/
theorem children_perm (hg : g.WellFormed) (hg' : g'.WellFormed) (p : PlaceId) :
    (g'.children (f.place p)).Perm ((g.children p).map f.place) := by
  refine (List.perm_ext_iff_of_nodup (hg'.nodup_children _)
    ((hg.nodup_children p).map f.place.injective)).mpr fun c' => ?_
  rw [hg'.mem_children, List.mem_map]
  constructor
  · intro h
    refine ⟨f.place.symm c', hg.mem_children.mpr ?_, by simp⟩
    rw [← f.parent_iff]
    simpa using h
  · rintro ⟨c, hc, rfl⟩
    exact f.parent_iff.mpr (hg.mem_children.mp hc)

/-! ### Links -/

theorem isEdge_eq (l : LinkId) : g'.isEdge (f.link l) = g.isEdge l := by
  rw [isEdge, f.linkKind_eq, isEdge]

theorem linkName_eq (l : LinkId) : g'.linkName (f.link l) = g.linkName l := by
  rw [linkName, f.linkKind_eq, linkName]

theorem innerName_eq (i : InnerId) : g'.innerName (f.inner i) = g.innerName i := by
  rw [innerName, f.inner_eq, innerName]
  cases g.innerNames[i]? <;> rfl

theorem innerLink_eq (i : InnerId) : g'.innerLink (f.inner i) = (g.innerLink i).map f.link := by
  rw [innerLink, f.inner_eq, innerLink]
  cases g.innerNames[i]? <;> rfl

theorem innerLink_iff {i : InnerId} {l : LinkId} :
    g'.innerLink (f.inner i) = some (f.link l) ↔ g.innerLink i = some l := by
  rw [f.innerLink_eq, Option.map_eq_some_iff]
  simp

/-- What a point becomes. -/
def point : Point → Point
  | .port v i => .port (f.place v) i
  | .inner n => .inner (f.inner n)

theorem point_injective : Function.Injective f.point := by
  intro x y h
  cases x <;> cases y <;> simp_all [point]

/-- **The points** of a link are the same, in some order. -/
theorem points_perm (hg : g.WellFormed) (hg' : g'.WellFormed) (l : LinkId) :
    (g'.points (f.link l)).Perm ((g.points l).map f.point) := by
  refine (List.perm_ext_iff_of_nodup (hg'.nodup_points _)
    ((hg.nodup_points l).map f.point_injective)).mpr fun x' => ?_
  have hmem : ∀ x, f.point x ∈ g'.points (f.link l) ↔ x ∈ g.points l := by
    intro x
    cases x with
    | port v i => rw [point, hg'.mem_points_port, hg.mem_points_port, f.portLink_iff]
    | inner n => rw [point, hg'.mem_points_inner, hg.mem_points_inner, f.innerLink_iff]
  have hsurj : ∃ x, f.point x = x' := by
    cases x' with
    | port v i => exact ⟨.port (f.place.symm v) i, by simp [point]⟩
    | inner n => exact ⟨.inner (f.inner.symm n), by simp [point]⟩
  obtain ⟨x, rfl⟩ := hsurj
  rw [hmem, List.mem_map_of_injective f.point_injective]

theorem portCount_eq (hg : g.WellFormed) (hg' : g'.WellFormed) (l : LinkId) :
    g'.portCount (f.link l) = g.portCount l := by
  rw [Bigraph.portCount_eq, Bigraph.portCount_eq, (f.points_perm hg hg' l).countP_eq, List.countP_map]
  refine List.countP_congr fun x _ => ?_
  cases x <;> rfl

theorem points_eq_nil_iff (hg : g.WellFormed) (hg' : g'.WellFormed) {l : LinkId} :
    g'.points (f.link l) = [] ↔ g.points l = [] := by
  rw [← List.length_eq_zero_iff, (f.points_perm hg hg' l).length_eq, List.length_map,
    List.length_eq_zero_iff]

/-! ### All places, links and inner names -/

omit f in
/-- The numbers below a bound go to the numbers below a bound. -/
theorem map_range_perm {σ : Equiv.Perm Nat} {n n' : Nat} (h : ∀ i, σ i < n' ↔ i < n) :
    ((List.range n).map σ).Perm (List.range n') := by
  refine (List.perm_ext_iff_of_nodup (List.nodup_range.map σ.injective)
    List.nodup_range).mpr fun i' => ?_
  rw [List.mem_map, List.mem_range]
  constructor
  · rintro ⟨i, hi, rfl⟩
    exact (h i).mpr (List.mem_range.mp hi)
  · intro hi'
    refine ⟨σ.symm i', List.mem_range.mpr ?_, by simp⟩
    rwa [← h, Equiv.apply_symm_apply]

theorem placeIds_perm : (g.placeIds.map f.place).Perm g'.placeIds :=
  map_range_perm fun p => by
    rw [← Nat.not_le, ← kind_eq_none_iff, f.kind_eq, Option.map_eq_none_iff, kind_eq_none_iff,
      Nat.not_le]

theorem linkIds_perm : (g.linkIds.map f.link).Perm g'.linkIds :=
  map_range_perm fun l => by
    rw [← Nat.not_le, ← linkKind_eq_none_iff, f.linkKind_eq, linkKind_eq_none_iff, Nat.not_le]

theorem innerIds_perm : (g.innerIds.map f.inner).Perm g'.innerIds :=
  map_range_perm fun i => by
    rw [← Nat.not_le, ← Array.getElem?_eq_none_iff, f.inner_eq, Option.map_eq_none_iff,
      Array.getElem?_eq_none_iff, Nat.not_le]

include f in
theorem size_innerNames_eq : g'.innerNames.size = g.innerNames.size := by
  simpa [innerIds] using f.innerIds_perm.length_eq.symm

/-! ### The interface -/

include f in
theorem isGround_eq (hg : g.WellFormed) (hg' : g'.WellFormed) : g'.isGround = g.isGround := by
  rw [isGround, isGround, f.sites_eq hg hg', List.isEmpty_map]
  simp only [Array.isEmpty, f.size_innerNames_eq]

end Renumbering

end Bigraph

end Bigraphs
