import Bigraphs.Graph.Forest
import Bigraphs.Proofs.Lists
import Mathlib.Data.List.Nodup
import Mathlib.Logic.Relation
import Mathlib.Order.Nat
import Mathlib.Tactic.ByContra

/-! # Well-formed bigraphs

The two-way relations of a bigraph agree: a place is among the children of its parent, and a point is
on the link of its port or inner name. The forest has no cycle, what has to be unique is unique, and
every node keeps to its control. `Rooted` adds that only roots lie at the top.

`Above` is the order of the forest that all walks are measured against. -/

namespace Bigraphs

namespace Bigraph

/-- `a` is the parent of `p`. -/
def IsParent (g : Bigraph) (a p : PlaceId) : Prop := g.parent p = some a

/-- `a` lies strictly above `p`. -/
def Above (g : Bigraph) : PlaceId → PlaceId → Prop := Relation.TransGen g.IsParent

/-- `a` is `p` or lies above it. -/
def AboveEq (g : Bigraph) : PlaceId → PlaceId → Prop := Relation.ReflTransGen g.IsParent

/-- **A bigraph whose parts fit together.** -/
structure WellFormed (g : Bigraph) : Prop where
  mem_children : ∀ {c p}, c ∈ g.children p ↔ g.parent c = some p
  nodup_children : ∀ p, (g.children p).Nodup
  parent_root : ∀ {p}, g.isRoot p → g.parent p = none
  children_site : ∀ {p}, g.isSite p → g.children p = []
  children_atomic : ∀ {p c}, g.control p = some c → c.isAtomic → g.children p = []
  acyclic : WellFounded g.IsParent
  rootIndex_inj : ∀ {p q i}, g.rootIndex p = some i → g.rootIndex q = some i → p = q
  siteIndex_inj : ∀ {p q i}, g.siteIndex p = some i → g.siteIndex q = some i → p = q
  label_inj : ∀ {p q s}, g.label p = some s → g.label q = some s → p = q
  linkKind_inj : ∀ {l k i}, g.linkKind l = some i → g.linkKind k = some i → l = k
  innerName_inj : ∀ {i j}, i < g.innerNames.size → j < g.innerNames.size →
    g.innerName i = g.innerName j → i = j
  find_control : ∀ {p d}, g.node? p = some d → g.signature.find d.control.name = some d.control
  length_ports : ∀ {p d}, g.node? p = some d → d.ports.length ≤ d.control.arity
  mem_points_port : ∀ {v i l}, Point.port v i ∈ g.points l ↔ g.portLink v i = some l
  mem_points_inner : ∀ {i l}, Point.inner i ∈ g.points l ↔ g.innerLink i = some l
  nodup_points : ∀ l, (g.points l).Nodup

/-- Every place but the roots has a parent. -/
def Rooted (g : Bigraph) : Prop := ∀ p < g.places.size, g.parent p = none → g.isRoot p

variable {g : Bigraph}

/-! ### Which numbers are taken -/

theorem kind_eq_none_iff {p : PlaceId} : g.kind p = none ↔ g.places.size ≤ p := by
  simp [kind]

theorem lt_of_kind {p : PlaceId} {k : PlaceKind} (h : g.kind p = some k) : p < g.places.size := by
  by_contra hp
  rw [kind_eq_none_iff.mpr (Nat.not_lt.mp hp)] at h
  cases h

theorem exists_kind {p : PlaceId} (h : p < g.places.size) : ∃ k, g.kind p = some k := by
  cases hk : g.kind p with
  | none => exact absurd h (Nat.not_lt.mpr (kind_eq_none_iff.mp hk))
  | some k => exact ⟨k, rfl⟩

theorem lt_of_parent {p q : PlaceId} (h : g.parent p = some q) : p < g.places.size := by
  by_contra hp
  rw [parent, Array.getElem?_eq_none (Nat.not_lt.mp hp)] at h
  cases h

theorem lt_of_mem_children {c p : PlaceId} (h : c ∈ g.children p) : p < g.places.size := by
  by_contra hp
  rw [children, Array.getElem?_eq_none (Nat.not_lt.mp hp)] at h
  cases h

theorem linkKind_eq_none_iff {l : LinkId} : g.linkKind l = none ↔ g.links.size ≤ l := by
  simp [linkKind]

theorem lt_of_linkKind {l : LinkId} {k : LinkKind} (h : g.linkKind l = some k) :
    l < g.links.size := by
  by_contra hl
  rw [linkKind_eq_none_iff.mpr (Nat.not_lt.mp hl)] at h
  cases h

theorem exists_linkKind {l : LinkId} (h : l < g.links.size) : ∃ k, g.linkKind l = some k := by
  cases hk : g.linkKind l with
  | none => exact absurd h (Nat.not_lt.mpr (linkKind_eq_none_iff.mp hk))
  | some k => exact ⟨k, rfl⟩

theorem lt_of_mem_points {x : Point} {l : LinkId} (h : x ∈ g.points l) : l < g.links.size := by
  by_contra hl
  rw [points, Array.getElem?_eq_none (Nat.not_lt.mp hl)] at h
  cases h

/-! ### Kinds of places -/

theorem isRoot_iff {p : PlaceId} : g.isRoot p ↔ ∃ i, g.kind p = some (.root i) := by
  unfold isRoot rootIndex PlaceKind.rootIndex
  cases g.kind p with
  | none => simp
  | some k => cases k <;> simp

theorem isSite_iff {p : PlaceId} : g.isSite p ↔ ∃ i, g.kind p = some (.site i) := by
  unfold isSite siteIndex PlaceKind.siteIndex
  cases g.kind p with
  | none => simp
  | some k => cases k <;> simp

theorem isNode_iff {p : PlaceId} : g.isNode p ↔ ∃ d, g.kind p = some (.node d) := by
  unfold isNode node? PlaceKind.node?
  cases g.kind p with
  | none => simp
  | some k => cases k <;> simp

theorem node?_eq_some_iff {p : PlaceId} {d : NodeData} :
    g.node? p = some d ↔ g.kind p = some (.node d) := by
  unfold node? PlaceKind.node?
  cases g.kind p with
  | none => simp
  | some k => cases k <;> simp

theorem rootIndex_eq_some_iff {p : PlaceId} {i : Nat} :
    g.rootIndex p = some i ↔ g.kind p = some (.root i) := by
  unfold rootIndex PlaceKind.rootIndex
  cases g.kind p with
  | none => simp
  | some k => cases k <;> simp

theorem siteIndex_eq_some_iff {p : PlaceId} {i : Nat} :
    g.siteIndex p = some i ↔ g.kind p = some (.site i) := by
  unfold siteIndex PlaceKind.siteIndex
  cases g.kind p with
  | none => simp
  | some k => cases k <;> simp

theorem control_eq_some_iff {p : PlaceId} {c : Control} :
    g.control p = some c ↔ ∃ d, g.node? p = some d ∧ d.control = c := by
  simp [control]

theorem label_eq_some_iff {p : PlaceId} {s : String} :
    g.label p = some s ↔ ∃ d, g.node? p = some d ∧ d.label = s := by
  simp [label]

theorem ports_eq (p : PlaceId) : g.ports p = ((g.node? p).map (·.ports)).getD [] := by
  unfold ports node? kind
  cases g.places[p]? <;> rfl

theorem ports_eq_of_node? {p : PlaceId} {d : NodeData} (h : g.node? p = some d) :
    g.ports p = d.ports := by
  rw [ports_eq, h]; rfl

theorem lt_of_node? {p : PlaceId} {d : NodeData} (h : g.node? p = some d) :
    p < g.places.size :=
  lt_of_kind (node?_eq_some_iff.mp h)

theorem isNode_of_portLink {v : PlaceId} {i : Nat} {l : LinkId} (h : g.portLink v i = some l) :
    g.isNode v := by
  unfold isNode
  cases hd : g.node? v with
  | some d => rfl
  | none => rw [portLink, ports_eq, hd] at h; cases h

theorem isSite_eq_false_of_isNode {p : PlaceId} (h : g.isNode p) : g.isSite p = false := by
  obtain ⟨d, hd⟩ := isNode_iff.mp h
  simp [isSite, siteIndex, hd, PlaceKind.siteIndex]

theorem isSite_eq_false_of_isRoot {p : PlaceId} (h : g.isRoot p) : g.isSite p = false := by
  obtain ⟨i, hi⟩ := isRoot_iff.mp h
  simp [isSite, siteIndex, hi, PlaceKind.siteIndex]

theorem isRoot_eq_false_of_isNode {p : PlaceId} (h : g.isNode p) : g.isRoot p = false := by
  obtain ⟨d, hd⟩ := isNode_iff.mp h
  simp [isRoot, rootIndex, hd, PlaceKind.rootIndex]

theorem not_isRoot_of_isNode {p : PlaceId} (h : g.isNode p) : ¬ g.isRoot p := by
  rw [isRoot_eq_false_of_isNode h]
  exact Bool.false_ne_true

theorem isNode_eq_false_of_isRoot {p : PlaceId} (h : g.isRoot p) : g.isNode p = false :=
  Bool.eq_false_iff.mpr fun hn => not_isRoot_of_isNode hn h

theorem isNode_eq_false_of_isSite {p : PlaceId} (h : g.isSite p) : g.isNode p = false := by
  refine Bool.eq_false_iff.mpr fun hn => ?_
  rw [isSite_eq_false_of_isNode hn] at h
  cases h

theorem lt_of_isNode {p : PlaceId} (h : g.isNode p) : p < g.places.size := by
  obtain ⟨d, hd⟩ := isNode_iff.mp h
  exact lt_of_kind hd

/-- A node of a rooted bigraph has a parent. -/
theorem Rooted.exists_parent (hr : g.Rooted) {p : PlaceId} (h : g.isNode p) :
    ∃ q, g.parent p = some q := by
  cases hp : g.parent p with
  | none => exact absurd (hr p (lt_of_isNode h) hp) (not_isRoot_of_isNode h)
  | some q => exact ⟨q, rfl⟩

theorem isNode_of_not {p : PlaceId} (hp : p < g.places.size) (hr : g.isRoot p = false)
    (hs : g.isSite p = false) : g.isNode p := by
  obtain ⟨k, hk⟩ := exists_kind hp
  cases k with
  | root i => rw [isRoot_iff.mpr ⟨i, hk⟩] at hr; cases hr
  | site i => rw [isSite_iff.mpr ⟨i, hk⟩] at hs; cases hs
  | node d => exact isNode_iff.mpr ⟨d, hk⟩

/-! ### The lists of places and links -/

theorem roots_perm : g.roots.Perm (g.placeIds.filter g.isRoot) := by
  rw [roots, sortBy_eq_insertionSort]
  exact List.perm_insertionSort _ _

theorem sites_perm : g.sites.Perm (g.placeIds.filter g.isSite) := by
  rw [sites, sortBy_eq_insertionSort]
  exact List.perm_insertionSort _ _

theorem mem_roots {p : PlaceId} : p ∈ g.roots ↔ g.isRoot p := by
  rw [roots_perm.mem_iff, List.mem_filter, placeIds, List.mem_range, and_iff_right_iff_imp]
  intro h
  obtain ⟨i, hi⟩ := isRoot_iff.mp h
  exact lt_of_kind hi

theorem mem_sites {p : PlaceId} : p ∈ g.sites ↔ g.isSite p := by
  rw [sites_perm.mem_iff, List.mem_filter, placeIds, List.mem_range, and_iff_right_iff_imp]
  intro h
  obtain ⟨i, hi⟩ := isSite_iff.mp h
  exact lt_of_kind hi

theorem mem_nodes {p : PlaceId} : p ∈ g.nodes ↔ g.isNode p := by
  rw [nodes, List.mem_filter, placeIds, List.mem_range, and_iff_right_iff_imp]
  intro h
  obtain ⟨d, hd⟩ := isNode_iff.mp h
  exact lt_of_kind hd

theorem nodup_roots : g.roots.Nodup := roots_perm.nodup_iff.mpr (List.nodup_range.filter _)

theorem nodup_sites : g.sites.Nodup := sites_perm.nodup_iff.mpr (List.nodup_range.filter _)

/-- A root has one position. -/
theorem roots_position_unique {i j : Nat} {r : PlaceId} (hi : g.roots[i]? = some r)
    (hj : g.roots[j]? = some r) : i = j :=
  (List.getElem?_inj (List.getElem?_eq_some_iff.mp hi).1 nodup_roots).mp (hi.trans hj.symm)

theorem nodup_nodes : g.nodes.Nodup := List.nodup_range.filter _

theorem isEdge_iff {l : LinkId} : g.isEdge l ↔ ∃ s, g.linkKind l = some (.edge s) := by
  unfold isEdge LinkKind.isEdge
  cases g.linkKind l with
  | none => simp
  | some k => cases k <;> simp

theorem mem_outerNames {l : LinkId} :
    l ∈ g.outerNames ↔ ∃ s, g.linkKind l = some (.outer s) := by
  rw [outerNames, List.mem_filter, linkIds, List.mem_range]
  constructor
  · rintro ⟨hl, he⟩
    obtain ⟨k, hk⟩ := exists_linkKind hl
    cases k with
    | edge s => rw [isEdge_iff.mpr ⟨s, hk⟩] at he; cases he
    | outer s => exact ⟨s, hk⟩
  · rintro ⟨s, hs⟩
    exact ⟨lt_of_linkKind hs, by simp [isEdge, hs, LinkKind.isEdge]⟩

theorem linkName_of_linkKind {l : LinkId} {k : LinkKind} (h : g.linkKind l = some k) :
    g.linkName l = k.name := by
  simp [linkName, h]

theorem outerNamed_eq_some_iff (hg : g.WellFormed) {s : String} {l : LinkId} :
    g.outerNamed s = some l ↔ g.linkKind l = some (.outer s) := by
  constructor
  · intro h
    obtain ⟨n, hn⟩ := mem_outerNames.mp (List.mem_of_find?_eq_some h)
    have hs := List.find?_some h
    rw [decide_eq_true_eq, linkName_of_linkKind hn] at hs
    rw [hn, ← hs]; rfl
  · intro h
    have hl : l ∈ g.outerNames := mem_outerNames.mpr ⟨s, h⟩
    have hn : g.linkName l = s := linkName_of_linkKind h
    cases hf : g.outerNames.find? (g.linkName · = s) with
    | none => exact absurd hn (by simpa using List.find?_eq_none.mp hf l hl)
    | some k =>
      obtain ⟨n, hk⟩ := mem_outerNames.mp (List.mem_of_find?_eq_some hf)
      have hs := List.find?_some hf
      rw [decide_eq_true_eq, linkName_of_linkKind hk] at hs
      have hks : g.linkKind k = some (.outer s) := by rw [hk, ← hs]; rfl
      rw [outerNamed, hf, hg.linkKind_inj hks h]

theorem portCount_eq (l : LinkId) : g.portCount l = (g.points l).countP (!·.isInner) := by
  unfold portCount points Link.portCount
  cases g.links[l]? <;> rfl

namespace WellFormed

variable (hg : g.WellFormed)
include hg

/-- No outer name is listed twice. -/
theorem nodup_outerNames : (g.outerNames.map g.linkName).Nodup := by
  refine List.Nodup.map_on (fun l hl k hk h => ?_) (List.nodup_range.filter _)
  obtain ⟨s, hs⟩ := mem_outerNames.mp hl
  obtain ⟨t, ht⟩ := mem_outerNames.mp hk
  rw [linkName_of_linkKind hs, linkName_of_linkKind ht] at h
  have hst : s = t := h
  rw [← hst] at ht
  exact hg.linkKind_inj hs ht

/-- No inner name is listed twice. -/
theorem nodup_innerNames : (g.innerIds.map g.innerName).Nodup :=
  List.Nodup.map_on (fun _ hi _ hj h =>
    hg.innerName_inj (List.mem_range.mp hi) (List.mem_range.mp hj) h) List.nodup_range

theorem lt_of_isParent {p q : PlaceId} (h : g.parent p = some q) : q < g.places.size :=
  lt_of_mem_children (hg.mem_children.mpr h)

theorem lt_of_mem_ports {v : PlaceId} {l : LinkId} (h : l ∈ g.ports v) : l < g.links.size := by
  obtain ⟨i, hi⟩ := List.mem_iff_getElem?.mp h
  exact lt_of_mem_points (hg.mem_points_port.mpr hi)

theorem not_above_self (p : PlaceId) : ¬ g.Above p p := by
  exact hg.acyclic.transGen.induction (C := fun q => ¬ g.Above q q) p fun q ih hq => ih q hq hq

theorem isNode_or_isSite_of_parent {p q : PlaceId} (h : g.parent p = some q) :
    g.isNode p ∨ g.isSite p := by
  have hp := lt_of_parent h
  have hr : g.isRoot p = false := by
    by_contra hr
    rw [hg.parent_root (by simpa using hr)] at h
    cases h
  by_cases hs : g.isSite p
  · exact Or.inr hs
  · exact Or.inl (isNode_of_not hp hr (by simpa using hs))

end WellFormed

end Bigraph

end Bigraphs
