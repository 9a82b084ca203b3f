import Bigraphs.Proofs.Construction.Invariant
import Bigraphs.Proofs.FreshName

/-! # The steps of a construction

Each step in the case in which it is not refused (`root_ok`, `nest_ok`, …), and what any list of
actions keeps: a construction is well-formed at every moment (`wellFormed_run`). A place just made can be
nested under those that `CanHold` one. A bigraph is `Constructible` when some list of actions, refused
ones included, ends in it; such a bigraph is well-formed and rooted. -/

namespace Bigraphs

namespace Construction

open Bigraph

variable {c : Construction}

/-! ### What is taken -/

theorem any_rootIndex_iff {i : Nat} :
    c.graph.placeIds.any (c.graph.rootIndex · = some i) = true ↔
      ∃ p, c.graph.rootIndex p = some i := by
  rw [List.any_eq_true]
  constructor
  · rintro ⟨p, -, hp⟩; exact ⟨p, by simpa using hp⟩
  · rintro ⟨p, hp⟩
    refine ⟨p, List.mem_range.mpr (lt_of_kind (rootIndex_eq_some_iff.mp hp)), by simpa using hp⟩

theorem any_siteIndex_iff {i : Nat} :
    c.graph.placeIds.any (c.graph.siteIndex · = some i) = true ↔
      ∃ p, c.graph.siteIndex p = some i := by
  rw [List.any_eq_true]
  constructor
  · rintro ⟨p, -, hp⟩; exact ⟨p, by simpa using hp⟩
  · rintro ⟨p, hp⟩
    refine ⟨p, List.mem_range.mpr (lt_of_kind (siteIndex_eq_some_iff.mp hp)), by simpa using hp⟩

theorem mem_nodeLabels {s : String} : s ∈ c.nodeLabels ↔ ∃ p, c.graph.label p = some s := by
  rw [nodeLabels, List.mem_filterMap]
  constructor
  · rintro ⟨p, -, hp⟩; exact ⟨p, hp⟩
  · rintro ⟨p, hp⟩
    obtain ⟨d, hd, -⟩ := label_eq_some_iff.mp hp
    exact ⟨p, List.mem_range.mpr (lt_of_node? hd), hp⟩

theorem mem_edgeLabels {s : String} :
    s ∈ c.edgeLabels ↔ ∃ l, c.graph.linkKind l = some (.edge s) := by
  rw [edgeLabels, List.mem_map]
  constructor
  · rintro ⟨l, hl, rfl⟩
    obtain ⟨t, ht⟩ := isEdge_iff.mp (by simpa using (List.mem_filter.mp hl).2)
    exact ⟨l, by rw [linkName_of_linkKind ht]; exact ht⟩
  · rintro ⟨l, hl⟩
    refine ⟨l, List.mem_filter.mpr ⟨List.mem_range.mpr (lt_of_linkKind hl), ?_⟩, ?_⟩
    · exact isEdge_iff.mpr ⟨s, hl⟩
    · rw [linkName_of_linkKind hl]; rfl

theorem mem_innerNames {s : String} :
    s ∈ c.innerNames ↔ ∃ i < c.graph.innerNames.size, c.graph.innerName i = s := by
  simp [innerNames, innerIds]

theorem outerNamed_isSome_iff (hg : c.graph.WellFormed) {s : String} :
    (c.graph.outerNamed s).isSome ↔ ∃ l, c.graph.linkKind l = some (.outer s) := by
  rw [Option.isSome_iff_exists]
  exact exists_congr fun l => outerNamed_eq_some_iff hg

/-! ### The steps that go through -/

theorem root_ok {i : Nat} (h : ∀ p, c.graph.rootIndex p ≠ some i) :
    c.root i = (.ok c.graph.places.size, ⟨c.graph.addPlace (.root i), c.nextLabel⟩) := by
  unfold root
  rw [if_neg (fun hp => (any_rootIndex_iff.mp hp).elim h)]
  rfl

theorem site_ok {i : Nat} (h : ∀ p, c.graph.siteIndex p ≠ some i) :
    c.site i = (.ok c.graph.places.size, ⟨c.graph.addPlace (.site i), c.nextLabel⟩) := by
  unfold site
  rw [if_neg (fun hp => (any_siteIndex_iff.mp hp).elim h)]
  rfl

theorem node_ok {k : Control} {label : String} (hk : c.graph.signature.find k.name = some k)
    (h : ∀ p, c.graph.label p ≠ some label) :
    c.node k.name label =
      (.ok c.graph.places.size, ⟨c.graph.addPlace (.node ⟨k, label, []⟩), c.nextLabel⟩) := by
  unfold node
  simp only [hk]
  rw [if_neg (fun hp => (mem_nodeLabels.mp hp).elim h)]
  rfl

/-- `child` may be moved under `par`. -/
structure CanNest (g : Bigraph) (child par : PlaceId) : Prop where
  child_lt : child < g.places.size
  parent_lt : par < g.places.size
  not_root : ¬ g.isRoot child
  not_site : ¬ g.isSite par
  not_atomic : ∀ c, g.control par = some c → ¬ c.isAtomic
  ne : child ≠ par
  not_above : ¬ g.Above child par

theorem nestRefusal_eq_none_iff (hg : c.graph.WellFormed) {child par : PlaceId} :
    c.nestRefusal child par = none ↔ CanNest c.graph child par := by
  have hcircle : nestRefusal.circle c child par = none ↔
      ¬ c.graph.isRoot child ∧ child ≠ par ∧ ¬ c.graph.Above child par := by
    unfold nestRefusal.circle
    rw [← hg.isAncestor_iff]
    split <;> grind
  unfold nestRefusal
  split
  next h =>
    refine ⟨fun h' => by simp at h', fun hn => ?_⟩
    have h1 := hn.child_lt
    have h2 := hn.parent_lt
    grind
  next h =>
    have hc : child < c.graph.places.size := by grind
    have hp : par < c.graph.places.size := by grind
    split
    next i hk =>
      refine ⟨fun h' => by simp at h', fun hn => absurd (isSite_iff.mpr ⟨i, hk⟩) hn.not_site⟩
    next d hk =>
      have hctl : c.graph.control par = some d.control :=
        control_eq_some_iff.mpr ⟨d, node?_eq_some_iff.mpr hk, rfl⟩
      have hs := isSite_eq_false_of_isNode (isNode_iff.mpr ⟨d, hk⟩)
      split
      next hat =>
        refine ⟨fun h' => by simp at h', fun hn => absurd hat (hn.not_atomic _ hctl)⟩
      next hat =>
        rw [hcircle]
        refine ⟨fun ⟨h1, h2, h3⟩ => ⟨hc, hp, h1, by simp [hs], fun k hk => ?_, h2, h3⟩,
          fun hn => ⟨hn.not_root, hn.ne, hn.not_above⟩⟩
        rw [hctl] at hk
        cases hk; exact hat
    next h1 h2 =>
      rw [hcircle]
      refine ⟨fun ⟨h3, h4, h5⟩ => ⟨hc, hp, h3, fun hs => ?_, fun k hk => ?_, h4, h5⟩,
        fun hn => ⟨hn.not_root, hn.ne, hn.not_above⟩⟩
      · obtain ⟨i, hi⟩ := isSite_iff.mp hs
        exact absurd hi (h1 i)
      · obtain ⟨d, hd, -⟩ := control_eq_some_iff.mp hk
        exact absurd (node?_eq_some_iff.mp hd) (h2 d)

theorem nestRefusal_ne_duplicateNode {child par : PlaceId} {s : String} :
    c.nestRefusal child par ≠ some (.duplicateNode s) := by
  unfold nestRefusal nestRefusal.circle
  split
  · simp
  · split
    · simp
    · split
      · simp
      · split <;> simp
    · split <;> simp

theorem nest_ok (hg : c.graph.WellFormed) {child par : PlaceId} (h : CanNest c.graph child par) :
    c.nest child par = (.ok (), ⟨c.graph.nest child par, c.nextLabel⟩) := by
  unfold nest
  rw [(nestRefusal_eq_none_iff hg).mpr h]
  rfl

theorem outer_ok (hg : c.graph.WellFormed) {s : String}
    (h : ∀ l, c.graph.linkKind l ≠ some (.outer s)) :
    c.outer s = (.ok c.graph.links.size, ⟨c.graph.addLink (.outer s), c.nextLabel⟩) := by
  unfold outer
  rw [if_neg (fun hp => ((outerNamed_isSome_iff hg).mp hp).elim h)]
  rfl

theorem edge_ok {s : String} (h : ∀ l, c.graph.linkKind l ≠ some (.edge s)) :
    c.edge s = (.ok c.graph.links.size, ⟨c.graph.addLink (.edge s), c.nextLabel⟩) := by
  unfold edge
  rw [if_neg (fun hp => (mem_edgeLabels.mp hp).elim h)]
  rfl

theorem inner_ok {s : String} (h : ∀ i < c.graph.innerNames.size, c.graph.innerName i ≠ s) :
    c.inner s = (.ok c.graph.innerNames.size, ⟨c.graph.addInner s, c.nextLabel⟩) := by
  unfold inner
  rw [if_neg (fun hp => by obtain ⟨i, hi, hs⟩ := mem_innerNames.mp hp; exact h i hi hs)]
  rfl

theorem connect_ok {v : PlaceId} {d : NodeData} {l : LinkId} (hl : l < c.graph.links.size)
    (hv : c.graph.node? v = some d) (ha : d.ports.length < d.control.arity) :
    c.connect v l =
      (.ok d.ports.length, ⟨c.graph.connect v l d.ports.length, c.nextLabel⟩) := by
  unfold connect
  rw [if_neg (Nat.not_le.mpr hl)]
  simp only [hv]
  rw [if_neg (Nat.not_le.mpr ha)]
  rfl

theorem wire_ok {i : InnerId} {l : LinkId} (hl : l < c.graph.links.size)
    (hi : i < c.graph.innerNames.size) (hfree : c.graph.innerLink i = none) :
    c.wire i l = (.ok (), ⟨c.graph.wire i (c.graph.innerName i) l, c.nextLabel⟩) := by
  have hget := Array.getElem?_eq_getElem hi
  have hname : c.graph.innerName i = c.graph.innerNames[i].name := by
    unfold innerName; rw [hget]; rfl
  have hlink : c.graph.innerNames[i].link = none := by
    unfold innerLink at hfree; rw [hget] at hfree; exact hfree
  unfold wire
  rw [if_neg (Nat.not_le.mpr hl), hget]
  simp only [hlink]
  rw [hname]
  rfl

/-! ### Every construction is well-formed -/

theorem wellFormed_root (hg : c.graph.WellFormed) (i : Nat) :
    (c.root i).2.graph.WellFormed := by
  by_cases h : ∃ p, c.graph.rootIndex p = some i
  · unfold root; rwa [if_pos (any_rootIndex_iff.mpr h)]
  · have h' : ∀ p, c.graph.rootIndex p ≠ some i := fun p hp => h ⟨p, hp⟩
    rw [root_ok h']
    exact hg.addPlace (k := .root i) h'

theorem wellFormed_site (hg : c.graph.WellFormed) (i : Nat) :
    (c.site i).2.graph.WellFormed := by
  by_cases h : ∃ p, c.graph.siteIndex p = some i
  · unfold site; rwa [if_pos (any_siteIndex_iff.mpr h)]
  · have h' : ∀ p, c.graph.siteIndex p ≠ some i := fun p hp => h ⟨p, hp⟩
    rw [site_ok h']
    exact hg.addPlace (k := .site i) h'

theorem wellFormed_node (hg : c.graph.WellFormed) (control label : String) :
    (c.node control label).2.graph.WellFormed := by
  unfold node
  split
  next => exact hg
  next k hk =>
    split
    next => exact hg
    next h =>
      have hname := ((c.graph.signature.find_eq_some_iff control k).mp hk).2
      refine hg.addPlace (k := .node ⟨k, label, []⟩) ⟨fun p hp => ?_, ?_, rfl⟩
      · exact h (mem_nodeLabels.mpr ⟨p, hp⟩)
      · rw [hname]; exact hk

theorem wellFormed_nest (hg : c.graph.WellFormed) (child par : PlaceId) :
    (c.nest child par).2.graph.WellFormed := by
  cases h : c.nestRefusal child par with
  | some e => unfold nest; rw [h]; exact hg
  | none =>
    have hn := (nestRefusal_eq_none_iff hg).mp h
    rw [nest_ok hg hn]
    exact hg.nest hn.child_lt hn.parent_lt hn.not_root hn.not_site hn.not_atomic hn.ne hn.not_above

/-- What `child` leaves behind is left behind by the making of its node, or by the nesting after it. -/
theorem exists_child_snd (c : Construction) (par : PlaceId) (control : String) :
    ∃ label n, let made := (node control label ⟨c.graph, n⟩).2
      (c.child par control).2 = made ∨ ∃ p, (c.child par control).2 = (made.nest p par).2 := by
  let n := firstFree "v" c.nodeLabels c.nextLabel
  refine ⟨numbered "v" n, n + 1, ?_⟩
  unfold child drawLabel
  simp only
  split
  next e c₁ h =>
    rw [h]
    exact Or.inl rfl
  next p c₁ h =>
    rw [h]
    refine Or.inr ⟨p, ?_⟩
    simp only
    split
    next e c₂ h => rw [h]
    next c₂ h => rw [h]

theorem wellFormed_child (hg : c.graph.WellFormed) (par : PlaceId) (control : String) :
    (c.child par control).2.graph.WellFormed := by
  obtain ⟨label, n, hchild⟩ := exists_child_snd c par control
  have hmade := wellFormed_node (c := ⟨c.graph, n⟩) hg control label
  rcases hchild with hchild | ⟨p, hchild⟩
  · rw [hchild]
    exact hmade
  · rw [hchild]
    exact wellFormed_nest hmade p par

theorem wellFormed_outer (hg : c.graph.WellFormed) (s : String) :
    (c.outer s).2.graph.WellFormed := by
  by_cases h : ∃ l, c.graph.linkKind l = some (.outer s)
  · unfold outer; rwa [if_pos ((outerNamed_isSome_iff hg).mpr h)]
  · have h' : ∀ l, c.graph.linkKind l ≠ some (.outer s) := fun l hl => h ⟨l, hl⟩
    rw [outer_ok hg h']
    exact hg.addLink h'

theorem wellFormed_edge (hg : c.graph.WellFormed) (s : String) :
    (c.edge s).2.graph.WellFormed := by
  by_cases h : ∃ l, c.graph.linkKind l = some (.edge s)
  · unfold edge; rwa [if_pos (mem_edgeLabels.mpr h)]
  · have h' : ∀ l, c.graph.linkKind l ≠ some (.edge s) := fun l hl => h ⟨l, hl⟩
    rw [edge_ok h']
    exact hg.addLink h'

theorem wellFormed_freshEdge (hg : c.graph.WellFormed) : (c.freshEdge).2.graph.WellFormed := by
  refine hg.addLink (k := .edge (numbered "e" (firstFree "e" c.edgeLabels c.nextLabel)))
    fun l hl => ?_
  exact numbered_firstFree_not_mem _ _ _ (mem_edgeLabels.mpr ⟨l, hl⟩)

theorem wellFormed_inner (hg : c.graph.WellFormed) (s : String) :
    (c.inner s).2.graph.WellFormed := by
  by_cases h : s ∈ c.innerNames
  · unfold inner; rwa [if_pos h]
  · have h' : ∀ i < c.graph.innerNames.size, c.graph.innerName i ≠ s :=
      fun i hi hs => h (mem_innerNames.mpr ⟨i, hi, hs⟩)
    rw [inner_ok h']
    exact hg.addInner h'

theorem wellFormed_connect (hg : c.graph.WellFormed) (v : PlaceId) (l : LinkId) :
    (c.connect v l).2.graph.WellFormed := by
  unfold connect
  split
  next => exact hg
  next hl =>
    split
    next => exact hg
    next d hd =>
      split
      next => exact hg
      next ha => exact hg.connect hd (Nat.not_le.mp hl) (Nat.not_le.mp ha)

theorem wellFormed_wire (hg : c.graph.WellFormed) (i : InnerId) (l : LinkId) :
    (c.wire i l).2.graph.WellFormed := by
  by_cases hl : l < c.graph.links.size
  · by_cases hi : i < c.graph.innerNames.size
    · cases hfree : c.graph.innerLink i with
      | none => rw [wire_ok hl hi hfree]; exact hg.wire hi hl hfree
      | some k =>
        unfold innerLink at hfree
        rw [Array.getElem?_eq_getElem hi] at hfree
        unfold wire
        rw [if_neg (Nat.not_le.mpr hl), Array.getElem?_eq_getElem hi]
        simp only [Option.bind_some] at hfree
        simp only [hfree]
        exact hg
    · unfold wire
      rw [if_neg (Nat.not_le.mpr hl), Array.getElem?_eq_none (Nat.not_lt.mp hi)]
      exact hg
  · unfold wire
    rw [if_pos (Nat.not_lt.mp hl)]
    exact hg

theorem wellFormed_close (hg : c.graph.WellFormed) (s : String) :
    (c.close s).2.graph.WellFormed := by
  unfold close
  split
  next => exact hg
  next l hl =>
    split
    next => exact hg
    next he =>
      have hk := (outerNamed_eq_some_iff hg).mp hl
      exact hg.close (lt_of_linkKind hk) fun k hk => he (mem_edgeLabels.mpr ⟨k, hk⟩)

/-- **No action breaks the rules,** refused or not. -/
theorem wellFormed_perform (hg : c.graph.WellFormed) (a : Action) :
    (perform a c).2.graph.WellFormed := by
  cases a with
  | root i => exact wellFormed_root hg i
  | site i => exact wellFormed_site hg i
  | node control label => exact wellFormed_node hg control label
  | child parent control => exact wellFormed_child hg parent control
  | nest child parent => exact wellFormed_nest hg child parent
  | outer name => exact wellFormed_outer hg name
  | edge label => exact wellFormed_edge hg label
  | freshEdge => exact wellFormed_freshEdge hg
  | inner name => exact wellFormed_inner hg name
  | connect node link => exact wellFormed_connect hg node link
  | wire inner link => exact wellFormed_wire hg inner link
  | close name => exact wellFormed_close hg name

theorem wellFormed_run (hg : c.graph.WellFormed) (actions : List Action) :
    (c.run actions).graph.WellFormed := by
  induction actions generalizing c with
  | nil => exact hg
  | cons a actions ih => exact ih (wellFormed_perform hg a)

/-! ### The end -/

theorem finish_eq_ok_iff {g : Bigraph} : c.finish = .ok g ↔ c.graph = g ∧ c.graph.Rooted := by
  have horphan : c.graph.places.toList.findSome? orphan = none ↔ c.graph.Rooted := by
    rw [List.findSome?_eq_none_iff]
    constructor
    · intro h p hp hpar
      have hget := Array.getElem?_eq_getElem hp
      have ho := h _ (Array.getElem_mem_toList hp)
      unfold parent at hpar
      rw [hget, Option.bind_some] at hpar
      unfold orphan at ho
      rw [hpar] at ho
      rw [isRoot_iff]
      cases hk : c.graph.places[p].kind with
      | root i => exact ⟨i, by rw [kind, hget, Option.map_some, hk]⟩
      | site i => rw [hk] at ho; cases ho
      | node d => rw [hk] at ho; cases ho
    · intro h x hx
      obtain ⟨p, hp, rfl⟩ := List.getElem_of_mem hx
      rw [Array.length_toList] at hp
      rw [Array.getElem_toList]
      have hget := Array.getElem?_eq_getElem hp
      unfold orphan
      cases hpar : c.graph.places[p].parent with
      | some q => rfl
      | none =>
        obtain ⟨i, hi⟩ := isRoot_iff.mp (h p hp (by rw [parent, hget, Option.bind_some, hpar]))
        rw [kind, hget, Option.map_some, Option.some.injEq] at hi
        rw [hi]
  unfold finish
  split
  next e he =>
    constructor
    · intro h
      cases h
    · rintro ⟨-, h⟩
      rw [horphan.mpr h] at he
      cases he
  next h =>
    constructor
    · intro hc
      cases hc
      exact ⟨rfl, horphan.mp h⟩
    · rintro ⟨rfl, -⟩
      rfl

end Construction

namespace Bigraph

variable {g : Bigraph}

/-! ### A new place under an old one -/

/-- The graph with one more place, under `p`. -/
def grow (g : Bigraph) (k : PlaceKind) (p : PlaceId) : Bigraph :=
  (g.addPlace k).nest g.places.size p

theorem kind_grow (k : PlaceKind) (p n : PlaceId) :
    (g.grow k p).kind n = if n = g.places.size then some k else g.kind n := by
  rw [grow, kind_nest, kind_addPlace]

theorem parent_grow (k : PlaceKind) (p n : PlaceId) :
    (g.grow k p).parent n = if n = g.places.size then some p else g.parent n := by
  rw [grow, parent_nest _ (by rw [size_addPlace]; exact Nat.lt_succ_self _), parent_addPlace]

theorem ports_grow {k : PlaceKind} (hk : g.CanAdd k) (p n : PlaceId) :
    (g.grow k p).ports n = g.ports n := by
  rw [← ports_addPlace hk, ports_eq, ports_eq, node?, node?, grow, kind_nest]

/-- Where a place can be added below. -/
structure CanHold (g : Bigraph) (p : PlaceId) : Prop where
  lt_size : p < g.places.size
  not_site : ¬ g.isSite p
  not_atomic : ∀ c, g.control p = some c → ¬ c.isAtomic

theorem canNest_addPlace (hg : g.WellFormed) {k : PlaceKind} (hk : g.CanAdd k)
    (hroot : ∀ i, k ≠ .root i) {p : PlaceId} (hp : g.CanHold p) :
    Construction.CanNest (g.addPlace k) g.places.size p where
  child_lt := by rw [size_addPlace]; exact Nat.lt_succ_self _
  parent_lt := by rw [size_addPlace]; exact Nat.lt_succ_of_lt hp.lt_size
  not_root h := by
    obtain ⟨i, hi⟩ := isRoot_iff.mp h
    rw [kind_addPlace, if_pos rfl, Option.some.injEq] at hi
    exact hroot i hi
  not_site h := by
    obtain ⟨i, hi⟩ := isSite_iff.mp h
    rw [kind_addPlace, if_neg (Nat.ne_of_lt hp.lt_size)] at hi
    exact hp.not_site (isSite_iff.mpr ⟨i, hi⟩)
  not_atomic c h := by
    refine hp.not_atomic c ?_
    rwa [control, node?_addPlace, if_neg (Nat.ne_of_lt hp.lt_size)] at h
  ne := (Nat.ne_of_lt hp.lt_size).symm
  not_above h := by
    obtain ⟨c, hc, -⟩ := Relation.TransGen.head'_iff.mp h
    have := (hg.addPlace hk).mem_children.mpr hc
    rw [children_addPlace, children_size] at this
    simp at this

theorem WellFormed.grow (hg : g.WellFormed) {k : PlaceKind} (hk : g.CanAdd k)
    (hroot : ∀ i, k ≠ .root i) {p : PlaceId} (hp : g.CanHold p) : (g.grow k p).WellFormed := by
  have h := canNest_addPlace hg hk hroot hp
  exact (hg.addPlace hk).nest h.child_lt h.parent_lt h.not_root h.not_site h.not_atomic h.ne
    h.not_above

/-- What a place just made can be nested under was there before it. -/
theorem canHold_of_canNest {k : PlaceKind} {p : PlaceId}
    (h : Construction.CanNest (g.addPlace k) g.places.size p) : g.CanHold p := by
  have hlt : p < g.places.size := by
    have hp := h.parent_lt
    rw [size_addPlace] at hp
    exact Nat.lt_of_le_of_ne (Nat.le_of_lt_succ hp) h.ne.symm
  refine ⟨hlt, fun hs => h.not_site ?_, fun c hc => h.not_atomic c ?_⟩
  · rwa [isSite, siteIndex_addPlace, if_neg (Nat.ne_of_lt hlt)]
  · rwa [control, node?_addPlace, if_neg (Nat.ne_of_lt hlt)]

/-! ### Bigraphs that are finished -/

/-- Some list of actions ends in this bigraph. -/
def Constructible (g : Bigraph) : Prop :=
  ∃ s actions, ((Construction.new s).run actions).finish = .ok g

theorem constructible_run {s : Signature} {actions : List Action}
    (h : ((Construction.new s).run actions).finish =
      .ok ((Construction.new s).run actions).graph) :
    ((Construction.new s).run actions).graph.Constructible :=
  ⟨s, actions, h⟩

theorem Constructible.wellFormed (h : g.Constructible) : g.WellFormed := by
  obtain ⟨s, actions, hf⟩ := h
  rw [← (Construction.finish_eq_ok_iff.mp hf).1]
  exact Construction.wellFormed_run (WellFormed.empty s) actions

theorem Constructible.rooted (h : g.Constructible) : g.Rooted := by
  obtain ⟨s, actions, hf⟩ := h
  obtain ⟨rfl, hr⟩ := Construction.finish_eq_ok_iff.mp hf
  exact hr

end Bigraph

end Bigraphs
