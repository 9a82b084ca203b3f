import Bigraphs.Matching.Copy
import Bigraphs.Proofs.Construction.Steps

/-! # What a copy shows

A copy in the making shows part of its source: the places and links copied so far stand for different
places and links of the source, copied nodes have the control and the label of their original, and
the links of their ports are the copies of the links there (`Copy.Shows`). Each step of copying, in a
state in which it makes sense, goes through and shows that much more (`root_ok`, `node_ok`, …).

A `Blueprint` says what does not change while a copy is made: the source, what its links become, and
whether there is one root that stands for everything outside. -/

namespace Bigraphs

/-- A place of a kind, without its ports. -/
def PlaceKind.bare : PlaceKind → PlaceKind
  | .node d => .node { d with ports := [] }
  | k => k

namespace Bigraph

variable {g : Bigraph}

/-! ### Kinds without ports -/

/-- The kind of a place, without its ports. -/
def bare (g : Bigraph) (p : PlaceId) : Option PlaceKind := (g.kind p).map PlaceKind.bare

section Bare
variable {g' : Bigraph} {p p' : PlaceId} (h : g.bare p = g'.bare p')
include h

theorem rootIndex_of_bare : g.rootIndex p = g'.rootIndex p' := by
  have key : ∀ (g : Bigraph) p, g.rootIndex p = (g.bare p).bind PlaceKind.rootIndex := by
    intro g p
    unfold rootIndex bare
    cases g.kind p with
    | none => rfl
    | some k => cases k <;> rfl
  rw [key, h, ← key]

theorem siteIndex_of_bare : g.siteIndex p = g'.siteIndex p' := by
  have key : ∀ (g : Bigraph) p, g.siteIndex p = (g.bare p).bind PlaceKind.siteIndex := by
    intro g p
    unfold siteIndex bare
    cases g.kind p with
    | none => rfl
    | some k => cases k <;> rfl
  rw [key, h, ← key]

theorem control_of_bare : g.control p = g'.control p' := by
  have key : ∀ (g : Bigraph) p,
      g.control p = ((g.bare p).bind PlaceKind.node?).map (·.control) := by
    intro g p
    unfold control node? bare
    cases g.kind p with
    | none => rfl
    | some k => cases k <;> rfl
  rw [key, h, ← key]

theorem label_of_bare : g.label p = g'.label p' := by
  have key : ∀ (g : Bigraph) p, g.label p = ((g.bare p).bind PlaceKind.node?).map (·.label) := by
    intro g p
    unfold label node? bare
    cases g.kind p with
    | none => rfl
    | some k => cases k <;> rfl
  rw [key, h, ← key]

theorem isRoot_of_bare : g.isRoot p = g'.isRoot p' := by
  rw [isRoot, rootIndex_of_bare h]; rfl

theorem isSite_of_bare : g.isSite p = g'.isSite p' := by
  rw [isSite, siteIndex_of_bare h]; rfl

theorem isNode_of_bare : g.isNode p = g'.isNode p' := by
  have key : ∀ (g : Bigraph) p, g.isNode p = (g.control p).isSome := by
    intro g p
    unfold isNode control
    cases g.node? p <;> rfl
  rw [key, key, control_of_bare h]

end Bare

theorem bare_grow (k : PlaceKind) (p n : PlaceId) :
    (g.grow k p).bare n = if n = g.places.size then some k.bare else g.bare n := by
  unfold bare
  rw [kind_grow]
  split <;> rfl

theorem bare_addPlace (k : PlaceKind) (n : PlaceId) :
    (g.addPlace k).bare n = if n = g.places.size then some k.bare else g.bare n := by
  unfold bare
  rw [kind_addPlace]
  split <;> rfl

theorem bare_connect {v : PlaceId} {d : NodeData} (hv : g.node? v = some d) (l : LinkId)
    (i : Nat) (p : PlaceId) : (g.connect v l i).bare p = g.bare p := by
  unfold bare
  rw [kind_connect g hv]
  split
  next h => rw [h, node?_eq_some_iff.mp hv]; rfl
  next => rfl

theorem ports_connect {v : PlaceId} {d : NodeData} (hv : g.node? v = some d) (l : LinkId) (i : Nat)
    (p : PlaceId) : (g.connect v l i).ports p = if p = v then d.ports ++ [l] else g.ports p := by
  rw [ports_eq, node?, kind_connect g hv]
  split
  next => rfl
  next => rw [ports_eq, node?]

theorem bare_eq_none_iff {p : PlaceId} : g.bare p = none ↔ g.places.size ≤ p := by
  unfold bare
  rw [Option.map_eq_none_iff, kind_eq_none_iff]

/-! ### One more place -/

/-- `g'` has one more place, of kind `k`, and the others are as they were. -/
structure OneMore (g g' : Bigraph) (k : PlaceKind) : Prop where
  bare_eq : ∀ n, g'.bare n = if n = g.places.size then some k.bare else g.bare n
  parent_eq : ∀ {n}, n ≠ g.places.size → g'.parent n = g.parent n

theorem oneMore_addPlace (k : PlaceKind) : g.OneMore (g.addPlace k) k where
  bare_eq := bare_addPlace k
  parent_eq _ := by simp

theorem oneMore_grow (k : PlaceKind) (p : PlaceId) : g.OneMore (g.grow k p) k where
  bare_eq := bare_grow k p
  parent_eq hn := by rw [parent_grow, if_neg hn]

namespace OneMore

variable {g' : Bigraph} {k : PlaceKind} {n : PlaceId} {i : Nat} (h : g.OneMore g' k)
include h

theorem bare_new : g'.bare g.places.size = some k.bare := by
  rw [h.bare_eq, if_pos rfl]

theorem bare_old (hn : n ≠ g.places.size) : g'.bare n = g.bare n := by
  rw [h.bare_eq, if_neg hn]

theorem rootIndex_old (hi : g.rootIndex n = some i) : g'.rootIndex n = some i := by
  have hn := lt_of_kind (rootIndex_eq_some_iff.mp hi)
  rw [rootIndex_of_bare (h.bare_old hn.ne), hi]

theorem siteIndex_old (hi : g.siteIndex n = some i) : g'.siteIndex n = some i := by
  have hn := lt_of_kind (siteIndex_eq_some_iff.mp hi)
  rw [siteIndex_of_bare (h.bare_old hn.ne), hi]

end OneMore

end Bigraph

/-- What stays the same while a copy is made. -/
structure Blueprint where
  source : Bigraph
  /-- What the links of the source become. -/
  become : LinkId → LinkKind
  /-- The links that may be copied. -/
  Admits : LinkId → Prop
  /-- The root of the copy that stands for everything outside the region, if there is one. It has
  index `0`. -/
  top : Option PlaceId
  /-- The places of the source that are copied below `top`. -/
  Inside : PlaceId → Prop

/-- A sound blueprint: different links become different things. -/
structure Blueprint.Sound (b : Blueprint) : Prop where
  source : b.source.WellFormed
  become_inj : ∀ {l k}, b.Admits l → b.Admits k → b.become l = b.become k → l = k

namespace Copy

variable {b : Blueprint} {s : Copy} {holes : List (Nat × PlaceId)}
  {pending : PlaceId → List LinkId} {names : List (String × Option LinkId)}

/-- The copy `n` may be what the copy of `v` hangs under. -/
def Hangs (b : Blueprint) (s : Copy) (v n : PlaceId) : Prop :=
  (∃ p, b.source.parent v = some p ∧ (p, n) ∈ s.places) ∨
    (b.top = some n ∧ ∀ p, b.source.parent v = some p → ¬ b.Inside p)

/-- The places copied so far, with a site for each of `holes`: its index and the place it is below. -/
structure ShowsPlaces (b : Blueprint) (holes : List (Nat × PlaceId)) (s : Copy) : Prop where
  keys_nodup : (s.places.map (·.1)).Nodup
  copies_nodup : (s.places.map (·.2)).Nodup
  bare_eq : ∀ {v n}, (v, n) ∈ s.places → s.target.graph.bare n = b.source.bare v
  is_vertex : ∀ {v n}, (v, n) ∈ s.places → b.source.isRoot v ∨ b.source.isNode v
  of_node : ∀ {n}, s.target.graph.isNode n → ∃ v, (v, n) ∈ s.places
  of_root : ∀ {n}, s.target.graph.isRoot n → b.top = some n ∨ ∃ v, (v, n) ∈ s.places
  top_root : ∀ {n}, b.top = some n → s.target.graph.rootIndex n = some 0
  hangs : ∀ {v n}, (v, n) ∈ s.places → b.source.isNode v →
    ∃ n', s.target.graph.parent n = some n' ∧ Hangs b s v n'
  site : ∀ {p i}, s.target.graph.siteIndex p = some i →
    ∃ h n, (i, h) ∈ holes ∧ (h, n) ∈ s.places ∧ s.target.graph.parent p = some n
  exists_site : ∀ {i h}, (i, h) ∈ holes →
    ∃ p n, s.target.graph.siteIndex p = some i ∧ (h, n) ∈ s.places ∧
      s.target.graph.parent p = some n

theorem ShowsPlaces.isRoot_top (h : ShowsPlaces b holes s) {n : PlaceId} (hn : b.top = some n) :
    s.target.graph.isRoot n := by
  rw [Bigraph.isRoot, h.top_root hn]; rfl

/-- The inner name `x` has the name of the entry `e`, and goes to the copy of the link there. -/
def Goes (links : List (LinkId × LinkId)) (e : String × Option LinkId) (x : InnerName) : Prop :=
  x.name = e.1 ∧
    match e.2 with
    | none => x.link = none
    | some l => ∃ k, x.link = some k ∧ (l, k) ∈ links

/-- The links copied so far; `pending` are the ports of each place that are still to come, and `names`
the inner names, each with the link of the source that it goes to. -/
structure ShowsLinks (b : Blueprint) (pending : PlaceId → List LinkId)
    (names : List (String × Option LinkId)) (s : Copy) : Prop where
  keys_nodup : (s.links.map (·.1)).Nodup
  copies_nodup : (s.links.map (·.2)).Nodup
  admits : ∀ {l k}, (l, k) ∈ s.links → b.Admits l
  kind_eq : ∀ {l k}, (l, k) ∈ s.links → s.target.graph.linkKind k = some (b.become l)
  of_link : ∀ {k}, k < s.target.graph.links.size → ∃ l, (l, k) ∈ s.links
  ports : ∀ {v n}, (v, n) ∈ s.places → ∃ done, b.source.ports v = done ++ pending v ∧
    List.Forall₂ (fun l k => (l, k) ∈ s.links) done (s.target.graph.ports n)
  inner : List.Forall₂ (Goes s.links) names s.target.graph.innerNames.toList

/-- **What a copy in the making shows of its source.** -/
structure Shows (b : Blueprint) (holes : List (Nat × PlaceId)) (pending : PlaceId → List LinkId)
    (names : List (String × Option LinkId)) (s : Copy) : Prop where
  wellFormed : s.target.graph.WellFormed
  signature_eq : s.target.graph.signature = b.source.signature
  places : ShowsPlaces b holes s
  links : ShowsLinks b pending names s

/-! ### What does not change -/

theorem Goes.mono {links links' : List (LinkId × LinkId)} (hsub : links ⊆ links')
    {e : String × Option LinkId} {x : InnerName} (h : Goes links e x) : Goes links' e x := by
  obtain ⟨hn, hx⟩ := h
  refine ⟨hn, ?_⟩
  cases h2 : e.2 with
  | none => rw [h2] at hx; exact hx
  | some l =>
    rw [h2] at hx
    obtain ⟨k, hk, hm⟩ := hx
    exact ⟨k, hk, hsub hm⟩

theorem Hangs.mono {s' : Copy} (hsub : s.places ⊆ s'.places) {v n : PlaceId}
    (h : Hangs b s v n) : Hangs b s' v n := by
  rcases h with ⟨p, hp, hm⟩ | h
  · exact Or.inl ⟨p, hp, hsub hm⟩
  · exact Or.inr h

theorem ShowsPlaces.of_eq {s' : Copy} (h : ShowsPlaces b holes s) (hplaces : s'.places = s.places)
    (hbare : ∀ n, s'.target.graph.bare n = s.target.graph.bare n)
    (hparent : ∀ n, s'.target.graph.parent n = s.target.graph.parent n) :
    ShowsPlaces b holes s' where
  keys_nodup := by rw [hplaces]; exact h.keys_nodup
  copies_nodup := by rw [hplaces]; exact h.copies_nodup
  bare_eq hm := by rw [hbare, h.bare_eq (hplaces ▸ hm)]
  is_vertex hm := h.is_vertex (hplaces ▸ hm)
  of_node {n} hn := by
    rw [Bigraph.isNode_of_bare (hbare n)] at hn
    rw [hplaces]
    exact h.of_node hn
  of_root {n} hn := by
    rw [Bigraph.isRoot_of_bare (hbare n)] at hn
    rw [hplaces]
    exact h.of_root hn
  top_root {n} hn := by
    rw [Bigraph.rootIndex_of_bare (hbare n)]
    exact h.top_root hn
  hangs {v n} hm hv := by
    obtain ⟨n', hn', hangs⟩ := h.hangs (hplaces ▸ hm) hv
    exact ⟨n', by rw [hparent, hn'], hangs.mono (hplaces ▸ List.Subset.refl _)⟩
  site {p i} hp := by
    rw [Bigraph.siteIndex_of_bare (hbare p)] at hp
    simp only [hparent, hplaces]
    exact h.site hp
  exists_site hm := by
    simp only [hparent, hplaces, Bigraph.siteIndex_of_bare (hbare _)]
    exact h.exists_site hm

/-- A step that creates no link keeps the links; a new place starts without ports. -/
theorem ShowsLinks.of_eq {s' : Copy} {pending' : PlaceId → List LinkId}
    (h : ShowsLinks b pending names s) (hlinks : s'.links = s.links)
    (harray : s'.target.graph.links = s.target.graph.links)
    (hinner : s'.target.graph.innerNames = s.target.graph.innerNames)
    (hports : ∀ {v n}, (v, n) ∈ s'.places →
      ((v, n) ∈ s.places ∧ pending' v = pending v ∧
          s'.target.graph.ports n = s.target.graph.ports n) ∨
        (pending' v = b.source.ports v ∧ s'.target.graph.ports n = [])) :
    ShowsLinks b pending' names s' where
  keys_nodup := by rw [hlinks]; exact h.keys_nodup
  copies_nodup := by rw [hlinks]; exact h.copies_nodup
  admits hm := h.admits (hlinks ▸ hm)
  kind_eq hm := by
    unfold Bigraph.linkKind
    rw [harray]
    exact h.kind_eq (hlinks ▸ hm)
  of_link hk := by
    rw [harray] at hk
    rw [hlinks]
    exact h.of_link hk
  ports {v n} hm := by
    rcases hports hm with ⟨hm, hp, he⟩ | ⟨hp, he⟩
    · rw [hp, he, hlinks]
      exact h.ports hm
    · exact ⟨[], by rw [hp, List.nil_append], by rw [he]; exact .nil⟩
  inner := by
    rw [hinner, hlinks]
    exact h.inner

section Views
variable (hs : s.Shows b holes pending names)
include hs

theorem Shows.lt_of_mem {v n : PlaceId} (h : (v, n) ∈ s.places) :
    n < s.target.graph.places.size := by
  by_contra hn
  have hbare := hs.places.bare_eq h
  rw [Bigraph.bare_eq_none_iff.mpr (Nat.not_lt.mp hn), eq_comm, Bigraph.bare_eq_none_iff] at hbare
  rcases hs.places.is_vertex h with hr | hv
  · obtain ⟨i, hi⟩ := Bigraph.isRoot_iff.mp hr
    exact absurd (Bigraph.lt_of_kind hi) (Nat.not_lt.mpr hbare)
  · obtain ⟨d, hd⟩ := Bigraph.isNode_iff.mp hv
    exact absurd (Bigraph.lt_of_kind hd) (Nat.not_lt.mpr hbare)

theorem Shows.canHold_of_mem {v n : PlaceId} (h : (v, n) ∈ s.places)
    (hv : ∀ c, b.source.control v = some c → ¬ c.isAtomic) : s.target.graph.CanHold n where
  lt_size := hs.lt_of_mem h
  not_site := by
    rw [Bigraph.isSite_of_bare (hs.places.bare_eq h), Bool.not_eq_true]
    exact (hs.places.is_vertex h).elim Bigraph.isSite_eq_false_of_isRoot
      Bigraph.isSite_eq_false_of_isNode
  not_atomic := by
    rw [Bigraph.control_of_bare (hs.places.bare_eq h)]
    exact hv

theorem Shows.key_unique {v n n' : PlaceId} (h : (v, n) ∈ s.places) (h' : (v, n') ∈ s.places) :
    n = n' :=
  congrArg Prod.snd (List.inj_on_of_nodup_map hs.places.keys_nodup h h' rfl)

theorem Shows.copy_unique {v v' n : PlaceId} (h : (v, n) ∈ s.places) (h' : (v', n) ∈ s.places) :
    v = v' :=
  congrArg Prod.fst (List.inj_on_of_nodup_map hs.places.copies_nodup h h' rfl)

theorem Shows.link_unique {l k k' : LinkId} (h : (l, k) ∈ s.links) (h' : (l, k') ∈ s.links) :
    k = k' :=
  congrArg Prod.snd (List.inj_on_of_nodup_map hs.links.keys_nodup h h' rfl)

theorem Shows.original_unique {l l' k : LinkId} (h : (l, k) ∈ s.links) (h' : (l', k) ∈ s.links) :
    l = l' :=
  congrArg Prod.fst (List.inj_on_of_nodup_map hs.links.copies_nodup h h' rfl)

theorem Shows.lt_of_mem_links {l k : LinkId} (h : (l, k) ∈ s.links) :
    k < s.target.graph.links.size :=
  Bigraph.lt_of_linkKind (hs.links.kind_eq h)

/-- A copy has no orphans. -/
theorem Shows.rooted : s.target.graph.Rooted := by
  intro p hp hpar
  cases hr : s.target.graph.isRoot p with
  | true => rfl
  | false =>
    cases hsite : s.target.graph.isSite p with
    | true =>
      obtain ⟨i, hi⟩ := Option.isSome_iff_exists.mp hsite
      obtain ⟨h, n, -, -, hn⟩ := hs.places.site hi
      rw [hpar] at hn
      cases hn
    | false =>
      have hn := Bigraph.isNode_of_not hp hr hsite
      obtain ⟨v, hv⟩ := hs.places.of_node hn
      rw [Bigraph.isNode_of_bare (hs.places.bare_eq hv)] at hn
      obtain ⟨n', hn', -⟩ := hs.places.hangs hv hn
      rw [hpar] at hn'
      cases hn'

end Views

/-! ### Copying places -/

section OneMore
variable {s' : Copy} {k : PlaceKind} {v n p : PlaceId} {i : Nat}
  (hs : s.Shows b holes pending names) (hmore : s.target.graph.OneMore s'.target.graph k)
include hs

theorem Shows.ne_size (hm : (v, n) ∈ s.places) : n ≠ s.target.graph.places.size :=
  (hs.lt_of_mem hm).ne

include hmore

theorem Shows.bare_of_oneMore (hm : (v, n) ∈ s.places) :
    s'.target.graph.bare n = b.source.bare v := by
  rw [hmore.bare_old (hs.ne_size hm), hs.places.bare_eq hm]

variable (hsub : s.places ⊆ s'.places)
include hsub

theorem Shows.of_node_of_oneMore (hn : n ≠ s.target.graph.places.size)
    (hnode : s'.target.graph.isNode n) : ∃ v, (v, n) ∈ s'.places := by
  rw [Bigraph.isNode_of_bare (hmore.bare_old hn)] at hnode
  obtain ⟨v, hv⟩ := hs.places.of_node hnode
  exact ⟨v, hsub hv⟩

theorem Shows.of_root_of_oneMore (hn : n ≠ s.target.graph.places.size)
    (hroot : s'.target.graph.isRoot n) : b.top = some n ∨ ∃ v, (v, n) ∈ s'.places := by
  rw [Bigraph.isRoot_of_bare (hmore.bare_old hn)] at hroot
  exact (hs.places.of_root hroot).imp_right fun ⟨v, hv⟩ => ⟨v, hsub hv⟩

theorem Shows.hangs_of_oneMore (hm : (v, n) ∈ s.places) (hv : b.source.isNode v) :
    ∃ n', s'.target.graph.parent n = some n' ∧ Hangs b s' v n' := by
  obtain ⟨n', hn', hangs⟩ := hs.places.hangs hm hv
  exact ⟨n', by rw [hmore.parent_eq (hs.ne_size hm), hn'], hangs.mono hsub⟩

theorem Shows.site_of_oneMore (hp : p ≠ s.target.graph.places.size)
    (hi : s'.target.graph.siteIndex p = some i) :
    ∃ h n, (i, h) ∈ holes ∧ (h, n) ∈ s'.places ∧ s'.target.graph.parent p = some n := by
  rw [Bigraph.siteIndex_of_bare (hmore.bare_old hp)] at hi
  obtain ⟨h, n, hh, hm, hn⟩ := hs.places.site hi
  exact ⟨h, n, hh, hsub hm, by rw [hmore.parent_eq hp, hn]⟩

theorem Shows.exists_site_of_oneMore {h : PlaceId} (hh : (i, h) ∈ holes) :
    ∃ p n, s'.target.graph.siteIndex p = some i ∧ (h, n) ∈ s'.places ∧
      s'.target.graph.parent p = some n := by
  obtain ⟨p, n, hp, hm, hn⟩ := hs.places.exists_site hh
  have hlt := Bigraph.lt_of_kind (Bigraph.siteIndex_eq_some_iff.mp hp)
  exact ⟨p, n, hmore.siteIndex_old hp, hsub hm, by rw [hmore.parent_eq hlt.ne, hn]⟩

end OneMore

/-- **A root or a node is copied.** -/
theorem Shows.places_add (hs : s.Shows b holes pending names) {s' : Copy} {v : PlaceId}
    {k : PlaceKind} (hmore : s.target.graph.OneMore s'.target.graph k)
    (hplaces : s'.places = (v, s.target.graph.places.size) :: s.places)
    (hkind : b.source.bare v = some k.bare) (hvertex : b.source.isRoot v ∨ b.source.isNode v)
    (hnew : ∀ n, (v, n) ∉ s.places)
    (hhangs : b.source.isNode v →
      ∃ n, s'.target.graph.parent s.target.graph.places.size = some n ∧ Hangs b s v n) :
    ShowsPlaces b holes s' := by
  have hsub : s.places ⊆ s'.places := hplaces ▸ List.subset_cons_self _ _
  have hmem : ∀ {w n}, (w, n) ∈ s'.places →
      (w = v ∧ n = s.target.graph.places.size) ∨ (w, n) ∈ s.places := fun hm => by
    rwa [hplaces, List.mem_cons, Prod.mk.injEq] at hm
  have hv : (v, s.target.graph.places.size) ∈ s'.places := hplaces ▸ List.mem_cons_self
  have hbare : s'.target.graph.bare s.target.graph.places.size = b.source.bare v :=
    hmore.bare_new.trans hkind.symm
  exact {
    keys_nodup := by
      rw [hplaces, List.map_cons, List.nodup_cons]
      refine ⟨fun hm => ?_, hs.places.keys_nodup⟩
      obtain ⟨⟨w, n⟩, hm, hw : w = v⟩ := List.mem_map.mp hm
      exact hnew n (hw ▸ hm)
    copies_nodup := by
      rw [hplaces, List.map_cons, List.nodup_cons]
      refine ⟨fun hm => ?_, hs.places.copies_nodup⟩
      obtain ⟨⟨w, n⟩, hm, hn⟩ := List.mem_map.mp hm
      exact hs.ne_size hm hn
    bare_eq := fun hm => by
      rcases hmem hm with ⟨rfl, rfl⟩ | hm
      · exact hbare
      · exact hs.bare_of_oneMore hmore hm
    is_vertex := fun hm => by
      rcases hmem hm with ⟨rfl, rfl⟩ | hm
      · exact hvertex
      · exact hs.places.is_vertex hm
    of_node := fun {n} hn => by
      by_cases hsize : n = s.target.graph.places.size
      · exact ⟨v, hsize ▸ hv⟩
      · exact hs.of_node_of_oneMore hmore hsub hsize hn
    of_root := fun {n} hn => by
      by_cases hsize : n = s.target.graph.places.size
      · exact Or.inr ⟨v, hsize ▸ hv⟩
      · exact hs.of_root_of_oneMore hmore hsub hsize hn
    top_root := fun hn => hmore.rootIndex_old (hs.places.top_root hn)
    hangs := fun hm hw => by
      rcases hmem hm with ⟨rfl, rfl⟩ | hm
      · obtain ⟨n, hn, hangs⟩ := hhangs hw
        exact ⟨n, hn, hangs.mono hsub⟩
      · exact hs.hangs_of_oneMore hmore hsub hm hw
    site := fun {p i} hi => by
      refine hs.site_of_oneMore hmore hsub (fun hsize => ?_) hi
      have hsite : s'.target.graph.isSite p = false := by
        rw [hsize, Bigraph.isSite_of_bare hbare]
        exact hvertex.elim Bigraph.isSite_eq_false_of_isRoot Bigraph.isSite_eq_false_of_isNode
      rw [Bigraph.isSite, hi] at hsite
      cases hsite
    exists_site := hs.exists_site_of_oneMore hmore hsub }

/-- **A site is added** below the copy of `h`. -/
theorem Shows.places_site (hs : s.Shows b holes pending names) {h n : PlaceId} {i label : Nat}
    (hm : (h, n) ∈ s.places) :
    ShowsPlaces b (holes ++ [(i, h)])
      ⟨⟨s.target.graph.grow (.site i) n, label⟩, s.places, s.links⟩ := by
  let s' : Copy := ⟨⟨s.target.graph.grow (.site i) n, label⟩, s.places, s.links⟩
  have hmore : s.target.graph.OneMore s'.target.graph (.site i) := Bigraph.oneMore_grow (.site i) n
  have hsub : s.places ⊆ s'.places := List.Subset.refl _
  have hkind : s'.target.graph.kind s.target.graph.places.size = some (.site i) := by
    rw [Bigraph.kind_grow, if_pos rfl]
  have hparent : s'.target.graph.parent s.target.graph.places.size = some n := by
    rw [Bigraph.parent_grow, if_pos rfl]
  exact {
    keys_nodup := hs.places.keys_nodup
    copies_nodup := hs.places.copies_nodup
    bare_eq := hs.bare_of_oneMore hmore
    is_vertex := hs.places.is_vertex
    of_node := fun {p} hp => by
      refine hs.of_node_of_oneMore hmore hsub (fun hsize => ?_) hp
      obtain ⟨d, hd⟩ := Bigraph.isNode_iff.mp hp
      rw [hsize, hkind] at hd
      cases hd
    of_root := fun {p} hp => by
      refine hs.of_root_of_oneMore hmore hsub (fun hsize => ?_) hp
      obtain ⟨j, hj⟩ := Bigraph.isRoot_iff.mp hp
      rw [hsize, hkind] at hj
      cases hj
    top_root := fun hp => hmore.rootIndex_old (hs.places.top_root hp)
    hangs := hs.hangs_of_oneMore hmore hsub
    site := fun {p j} hj => by
      by_cases hsize : p = s.target.graph.places.size
      · rw [hsize, Bigraph.siteIndex_eq_some_iff, hkind] at hj
        cases hj
        exact ⟨h, n, by simp, hm, hsize ▸ hparent⟩
      · obtain ⟨w, n', hw, hold⟩ := hs.site_of_oneMore hmore hsub hsize hj
        exact ⟨w, n', List.mem_append_left _ hw, hold⟩
    exists_site := fun {j w} hw => by
      rcases List.mem_append.mp hw with hw | hw
      · exact hs.exists_site_of_oneMore hmore hsub hw
      · obtain ⟨rfl, rfl⟩ := by simpa using hw
        exact ⟨_, n, Bigraph.siteIndex_eq_some_iff.mpr hkind, hm, hparent⟩ }

theorem Shows.ports_of_root {r : PlaceId} {i : Nat} (hr : b.source.rootIndex r = some i) :
    b.source.ports r = [] := by
  rw [Bigraph.ports_eq, Bigraph.node?, Bigraph.rootIndex_eq_some_iff.mp hr]; rfl

theorem ports_size (g : Bigraph) : g.ports g.places.size = [] := by
  rw [Bigraph.ports_eq, Bigraph.node?, Bigraph.kind_size]; rfl

section Steps
variable (hb : b.Sound) (hs : s.Shows b holes pending names)
include hs

include hb in
theorem root_ok {r : PlaceId} {i : Nat} (htop : b.top = none)
    (hr : b.source.rootIndex r = some i) (hnew : ∀ n, (r, n) ∉ s.places) (hpend : pending r = []) :
    ∃ s' n, s.root r i = .ok s' ∧ s'.places = (r, n) :: s.places ∧
      s'.Shows b holes pending names := by
  have hfree : ∀ p, s.target.graph.rootIndex p ≠ some i := by
    intro p hp
    have hroot : s.target.graph.isRoot p := by rw [Bigraph.isRoot, hp]; rfl
    obtain ⟨w, hw⟩ := (hs.places.of_root hroot).resolve_left (by rw [htop]; simp)
    rw [Bigraph.rootIndex_of_bare (hs.places.bare_eq hw)] at hp
    rw [hb.source.rootIndex_inj hp hr] at hw
    exact hnew _ hw
  have hkind := Bigraph.rootIndex_eq_some_iff.mp hr
  have hisRoot : b.source.isRoot r := Bigraph.isRoot_iff.mpr ⟨i, hkind⟩
  refine ⟨⟨⟨s.target.graph.addPlace (.root i), s.target.nextLabel⟩,
    (r, s.target.graph.places.size) :: s.places, s.links⟩, s.target.graph.places.size, ?_, rfl,
    ⟨hs.wellFormed.addPlace (k := .root i) hfree, hs.signature_eq, ?_, ?_⟩⟩
  · unfold root
    rw [Construction.root_ok hfree]
    rfl
  · exact hs.places_add (Bigraph.oneMore_addPlace (.root i)) rfl (by rw [Bigraph.bare, hkind]; rfl)
      (Or.inl hisRoot) hnew fun hn => absurd hisRoot (Bigraph.not_isRoot_of_isNode hn)
  · refine hs.links.of_eq rfl rfl rfl fun {v n} hm => ?_
    rw [Bigraph.ports_addPlace (k := .root i) hfree]
    rcases List.mem_cons.mp hm with h | hm
    · cases h
      exact Or.inr ⟨by rw [hpend, Shows.ports_of_root hr], ports_size _⟩
    · exact Or.inl ⟨hm, rfl, rfl⟩

/-- A new site below the copy of `h`. -/
theorem site_ok {h n : PlaceId} {i : Nat} (hm : (h, n) ∈ s.places)
    (hh : ∀ c, b.source.control h = some c → ¬ c.isAtomic) (hnew : ∀ h', (i, h') ∉ holes) :
    ∃ s', site n s i = .ok s' ∧ s'.places = s.places ∧
      s'.Shows b (holes ++ [(i, h)]) pending names := by
  have hold := hs.canHold_of_mem hm hh
  have hfree : ∀ p, s.target.graph.siteIndex p ≠ some i := by
    intro p hp
    obtain ⟨h', _, hh', -⟩ := hs.places.site hp
    exact hnew h' hh'
  have hadd : s.target.graph.CanAdd (.site i) := hfree
  have hroot : ∀ j, PlaceKind.site i ≠ .root j := fun j h => by cases h
  refine ⟨⟨⟨s.target.graph.grow (.site i) n, s.target.nextLabel⟩, s.places, s.links⟩, ?_, rfl,
    ⟨hs.wellFormed.grow hadd hroot hold, hs.signature_eq, hs.places_site hm, ?_⟩⟩
  · unfold site
    rw [Construction.site_ok hfree]
    have hnest := Bigraph.canNest_addPlace hs.wellFormed hadd hroot hold
    simp only [accept, bind, Except.bind, pure, Except.pure]
    rw [Construction.nest_ok (hs.wellFormed.addPlace hadd) hnest]
    rfl
  · refine hs.links.of_eq rfl rfl rfl fun {v p} hv => Or.inl ⟨hv, rfl, ?_⟩
    exact Bigraph.ports_grow hadd n p

/-! ### Copying links -/

/-- **A link is copied.** -/
theorem Shows.links_add {l : LinkId} (hl : b.Admits l) (hnew : ∀ k, (l, k) ∉ s.links) (label : Nat) :
    ShowsLinks b pending names ⟨⟨s.target.graph.addLink (b.become l), label⟩, s.places,
      (l, s.target.graph.links.size) :: s.links⟩ where
  keys_nodup := by
    rw [List.map_cons, List.nodup_cons]
    refine ⟨fun hm => ?_, hs.links.keys_nodup⟩
    obtain ⟨⟨l', k⟩, hm, hl' : l' = l⟩ := List.mem_map.mp hm
    exact hnew k (hl' ▸ hm)
  copies_nodup := by
    rw [List.map_cons, List.nodup_cons]
    refine ⟨fun hm => ?_, hs.links.copies_nodup⟩
    obtain ⟨⟨l', k⟩, hm, hk'⟩ := List.mem_map.mp hm
    exact (hs.lt_of_mem_links hm).ne hk'
  admits hm := by
    rcases List.mem_cons.mp hm with hm | hm
    · cases hm
      exact hl
    · exact hs.links.admits hm
  kind_eq hm := by
    rw [Bigraph.linkKind_addLink]
    rcases List.mem_cons.mp hm with hm | hm
    · cases hm
      rw [if_pos rfl]
    · rw [if_neg (hs.lt_of_mem_links hm).ne]
      exact hs.links.kind_eq hm
  of_link hk := by
    rw [Bigraph.size_addLink] at hk
    rcases Nat.lt_succ_iff_lt_or_eq.mp hk with hk | rfl
    · obtain ⟨l', hm⟩ := hs.links.of_link hk
      exact ⟨l', List.mem_cons_of_mem _ hm⟩
    · exact ⟨l, List.mem_cons_self⟩
  ports hm := by
    obtain ⟨done, hdone, hports⟩ := hs.links.ports hm
    exact ⟨done, hdone, hports.imp fun _ _ hm => List.mem_cons_of_mem _ hm⟩
  inner := hs.links.inner.imp fun _ _ => Goes.mono (List.subset_cons_self _ _)

include hb in
/-- The copy of a link is there afterwards. -/
theorem link_ok {l : LinkId} (hl : b.Admits l) :
    ∃ s' k, s.link b.become l = .ok (k, s') ∧ (l, k) ∈ s'.links ∧ s.links ⊆ s'.links ∧
      s'.places = s.places ∧ s'.Shows b holes pending names := by
  unfold link
  cases hk : s.links.lookup l with
  | some k => exact ⟨s, k, rfl, mem_of_lookup hk, List.Subset.refl _, rfl, hs⟩
  | none =>
    have hnew : ∀ k, (l, k) ∉ s.links := fun k hm => by
      simpa using List.lookup_eq_none_iff.mp hk (l, k) hm
    have hfree : ∀ k, s.target.graph.linkKind k ≠ some (b.become l) := by
      intro k hkind
      obtain ⟨l', hm⟩ := hs.links.of_link (Bigraph.lt_of_linkKind hkind)
      rw [hs.links.kind_eq hm, Option.some.injEq] at hkind
      rw [hb.become_inj (hs.links.admits hm) hl hkind] at hm
      exact hnew k hm
    refine ⟨⟨⟨s.target.graph.addLink (b.become l), s.target.nextLabel⟩, s.places,
      (l, s.target.graph.links.size) :: s.links⟩, s.target.graph.links.size, ?_,
      List.mem_cons_self, List.subset_cons_self _ _, rfl,
      ⟨hs.wellFormed.addLink hfree, hs.signature_eq, hs.places.of_eq rfl (fun _ => rfl)
        (fun _ => rfl), hs.links_add hl hnew _⟩⟩
    cases hbl : b.become l with
    | edge label =>
      rw [hbl] at hfree
      simp only [accept, bind, Except.bind, pure, Except.pure]
      rw [Construction.edge_ok hfree]
    | outer name =>
      rw [hbl] at hfree
      simp only [accept, bind, Except.bind, pure, Except.pure]
      rw [Construction.outer_ok hs.wellFormed hfree]

include hb in
/-- The copy of a node with ports to come has room for the next. -/
theorem Shows.exists_node {v n : PlaceId} {l : LinkId} {rest : List LinkId}
    (hm : (v, n) ∈ s.places) (hv : b.source.isNode v) (hpend : pending v = l :: rest) :
    ∃ e, s.target.graph.node? n = some e ∧ e.ports.length < e.control.arity := by
  obtain ⟨d, hd⟩ := Bigraph.isNode_iff.mp hv
  have hd := Bigraph.node?_eq_some_iff.mpr hd
  obtain ⟨e, he⟩ : ∃ e, s.target.graph.node? n = some e := by
    rw [← Bigraph.isNode_of_bare (hs.places.bare_eq hm), Bigraph.isNode,
      Option.isSome_iff_exists] at hv
    exact hv
  have hcontrol : e.control = d.control := by
    have h := Bigraph.control_of_bare (hs.places.bare_eq hm)
    rw [Bigraph.control, Bigraph.control, he, hd] at h
    exact Option.some.inj h
  obtain ⟨done, hdone, hports⟩ := hs.links.ports hm
  refine ⟨e, he, ?_⟩
  have h := hb.source.length_ports hd
  rw [← Bigraph.ports_eq_of_node? hd, hdone, hpend, List.length_append, List.length_cons,
    hports.length_eq, ← hcontrol, Bigraph.ports_eq_of_node? he] at h
  omega

/-- One more port of the copy `n` of `v` goes to the copy of its link. -/
theorem Shows.connect {v n : PlaceId} {l k : LinkId} {rest : List LinkId} {e : NodeData}
    (hm : (v, n) ∈ s.places) (hpend : pending v = l :: rest) (hk : (l, k) ∈ s.links)
    (he : s.target.graph.node? n = some e) (harity : e.ports.length < e.control.arity)
    (label : Nat) :
    Shows b holes (Function.update pending v rest) names
      ⟨⟨s.target.graph.connect n k e.ports.length, label⟩, s.places, s.links⟩ where
  wellFormed := hs.wellFormed.connect he (hs.lt_of_mem_links hk) harity
  signature_eq := hs.signature_eq
  places := hs.places.of_eq rfl (fun p => Bigraph.bare_connect he k _ p) fun p =>
    Bigraph.parent_connect _ n k _ p
  links :=
    { hs.links with
      kind_eq := fun hm => by
        rw [Bigraph.linkKind_connect]
        exact hs.links.kind_eq hm
      of_link := fun hk' => hs.links.of_link (by rwa [Bigraph.links_size_connect] at hk')
      ports := fun {w p} hw => by
        rw [Bigraph.ports_connect he]
        by_cases hwv : w = v
        · subst hwv
          obtain ⟨done, hdone, hports⟩ := hs.links.ports hm
          rw [Bigraph.ports_eq_of_node? he] at hports
          rw [hs.key_unique hw hm, if_pos rfl, Function.update_self]
          refine ⟨done ++ [l], by rw [hdone, hpend, List.append_assoc]; rfl, ?_⟩
          exact List.rel_append hports (.cons hk .nil)
        · have hpn : p ≠ n := by
            rintro rfl
            exact hwv (hs.copy_unique hw hm)
          rw [Function.update_of_ne hwv, if_neg hpn]
          exact hs.links.ports hw }

include hb in
/-- One more port of the copy `n` of `v`. -/
theorem port_ok {v n : PlaceId} {l : LinkId} {rest : List LinkId} (hm : (v, n) ∈ s.places)
    (hv : b.source.isNode v) (hpend : pending v = l :: rest) (hl : b.Admits l) :
    ∃ s', port b.become n s l = .ok s' ∧ s'.places = s.places ∧ s.links ⊆ s'.links ∧
      s'.Shows b holes (Function.update pending v rest) names := by
  obtain ⟨s₁, k, hstep, hk, hsub, hplaces, hs₁⟩ := link_ok hb hs hl
  have hm₁ : (v, n) ∈ s₁.places := by rw [hplaces]; exact hm
  obtain ⟨e, he, harity⟩ := hs₁.exists_node hb hm₁ hv hpend
  refine ⟨⟨⟨s₁.target.graph.connect n k e.ports.length, s₁.target.nextLabel⟩, s₁.places,
    s₁.links⟩, ?_, hplaces, hsub, hs₁.connect hm₁ hpend hk he harity _⟩
  unfold port
  rw [hstep]
  simp only [accept, bind, Except.bind, pure, Except.pure]
  rw [Construction.connect_ok (hs₁.lt_of_mem_links hk) he harity]

include hb in
theorem ports_ok {v n : PlaceId} {todo : List LinkId} (hm : (v, n) ∈ s.places)
    (hv : b.source.isNode v) (hpend : pending v = todo) (hl : ∀ l ∈ todo, b.Admits l) :
    ∃ s', todo.foldlM (port b.become n) s = .ok s' ∧ s'.places = s.places ∧ s.links ⊆ s'.links ∧
      s'.Shows b holes (Function.update pending v []) names := by
  induction todo generalizing s pending with
  | nil =>
    refine ⟨s, rfl, rfl, List.Subset.refl _, ?_⟩
    rw [← hpend, Function.update_eq_self]
    exact hs
  | cons l rest ih =>
    obtain ⟨s₁, hstep, hplaces, hsub, hs₁⟩ := port_ok hb hs hm hv hpend (hl l (by simp))
    obtain ⟨s₂, hfold, hplaces', hsub', hs₂⟩ := ih hs₁ (by rw [hplaces]; exact hm)
      (Function.update_self ..) fun l hm => hl l (by simp [hm])
    refine ⟨s₂, ?_, by rw [hplaces', hplaces], List.Subset.trans hsub hsub', ?_⟩
    · rw [List.foldlM_cons, hstep]
      exact hfold
    · rwa [Function.update_idem] at hs₂

end Steps

/-! ### Copying nodes -/

section Nodes
variable (hb : b.Sound) (hs : s.Shows b holes (fun _ => []) names)
include hb hs

theorem canHold_of_hangs {v n : PlaceId} (h : Hangs b s v n) :
    s.target.graph.CanHold n := by
  rcases h with ⟨p, hp, hm⟩ | ⟨htop, -⟩
  · refine hs.canHold_of_mem hm fun c hc hatomic => ?_
    have hchild := hb.source.mem_children.mpr hp
    rw [hb.source.children_atomic hc hatomic] at hchild
    simp at hchild
  · have hi := Bigraph.rootIndex_eq_some_iff.mp (hs.places.top_root htop)
    refine ⟨Bigraph.lt_of_kind hi, fun hsite => ?_, fun c hc => ?_⟩
    · obtain ⟨j, hj⟩ := Bigraph.isSite_iff.mp hsite
      rw [hi] at hj
      cases hj
    · obtain ⟨e, he, -⟩ := Bigraph.control_eq_some_iff.mp hc
      rw [Bigraph.node?_eq_some_iff, hi] at he
      cases he

/-- **A node is copied** with its control, its label and its ports. -/
theorem node_ok {v n : PlaceId} (hv : b.source.isNode v) (hnew : ∀ n, (v, n) ∉ s.places)
    (hn : Hangs b s v n) (hl : ∀ l ∈ b.source.ports v, b.Admits l) :
    ∃ s' n', node b.become b.source n s v = .ok s' ∧ s'.places = (v, n') :: s.places ∧
      s.links ⊆ s'.links ∧ s'.Shows b holes (fun _ => []) names := by
  obtain ⟨d, hd⟩ := Bigraph.isNode_iff.mp hv
  have hkind := hd
  have hd := Bigraph.node?_eq_some_iff.mpr hd
  have hhold := canHold_of_hangs hb hs hn
  have hfind : s.target.graph.signature.find d.control.name = some d.control := by
    rw [hs.signature_eq]
    exact hb.source.find_control hd
  have hlabel : ∀ p, s.target.graph.label p ≠ some d.label := by
    intro p hp
    have hnode : s.target.graph.isNode p := by
      obtain ⟨e, he, -⟩ := Bigraph.label_eq_some_iff.mp hp
      rw [Bigraph.isNode, he]; rfl
    obtain ⟨w, hw⟩ := hs.places.of_node hnode
    rw [Bigraph.label_of_bare (hs.places.bare_eq hw)] at hp
    rw [hb.source.label_inj hp (Bigraph.label_eq_some_iff.mpr ⟨d, hd, rfl⟩)] at hw
    exact hnew p hw
  have hadd : s.target.graph.CanAdd (.node ⟨d.control, d.label, []⟩) := ⟨hlabel, hfind, rfl⟩
  have hroot : ∀ i, PlaceKind.node ⟨d.control, d.label, []⟩ ≠ .root i := fun i h => by cases h
  let s₁ : Copy := ⟨⟨s.target.graph.grow (.node ⟨d.control, d.label, []⟩) n, s.target.nextLabel⟩,
    (v, s.target.graph.places.size) :: s.places, s.links⟩
  have hs₁ : s₁.Shows b holes (Function.update (fun _ => []) v d.ports) names := by
    refine ⟨hs.wellFormed.grow hadd hroot hhold, hs.signature_eq, ?_, ?_⟩
    · refine hs.places_add (Bigraph.oneMore_grow _ n) rfl ?_ (Or.inr hv) hnew fun _ => ⟨n, ?_, hn⟩
      · rw [Bigraph.bare, hkind]; rfl
      · rw [Bigraph.parent_grow, if_pos rfl]
    · refine hs.links.of_eq rfl rfl rfl fun {w p} hm => ?_
      rw [Bigraph.ports_grow hadd]
      rcases List.mem_cons.mp hm with h | hold
      · cases h
        rw [Function.update_self]
        exact Or.inr ⟨(Bigraph.ports_eq_of_node? hd).symm, ports_size _⟩
      · have hwv : w ≠ v := fun h => hnew p (h ▸ hold)
        exact Or.inl ⟨hold, Function.update_of_ne hwv .., rfl⟩
  obtain ⟨s₂, hfold, hplaces, hsub, hs₂⟩ := ports_ok hb hs₁ List.mem_cons_self hv
    (Function.update_self ..) (by rw [← Bigraph.ports_eq_of_node? hd]; exact hl)
  refine ⟨s₂, s.target.graph.places.size, ?_, hplaces, hsub, ?_⟩
  · unfold node
    rw [hd]
    simp only [accept, bind, Except.bind]
    rw [Construction.node_ok hfind hlabel]
    simp only
    rw [Construction.nest_ok (hs.wellFormed.addPlace hadd)
      (Bigraph.canNest_addPlace hs.wellFormed hadd hroot hhold)]
    exact hfold
  · rwa [Function.update_idem, Function.update_eq_self] at hs₂

end Nodes

/-! ### Inner names -/

section InnerNames
variable {name : String}

/-- A name that is not among the entries is no inner name of the copy. -/
theorem Shows.innerName_ne (hs : s.Shows b holes pending names) (hnew : ∀ e ∈ names, e.1 ≠ name)
    {i : InnerId} (hi : i < s.target.graph.innerNames.size) :
    s.target.graph.innerName i ≠ name := by
  intro hname
  obtain ⟨e, he, hgoes⟩ := exists_of_forall₂ hs.links.inner.flip (Array.getElem_mem_toList hi)
  refine hnew e he ?_
  rw [← hgoes.1, ← hname]
  simp [Bigraph.innerName, hi]

/-- A new inner name comes last and is on no link. -/
theorem Shows.addInner (hs : s.Shows b holes pending names)
    (hfree : ∀ i < s.target.graph.innerNames.size, s.target.graph.innerName i ≠ name)
    (label : Nat) :
    Shows b holes pending (names ++ [(name, none)])
      ⟨⟨s.target.graph.addInner name, label⟩, s.places, s.links⟩ where
  wellFormed := hs.wellFormed.addInner hfree
  signature_eq := hs.signature_eq
  places := hs.places.of_eq rfl (fun _ => rfl) fun _ => rfl
  links :=
    { hs.links with
      inner := by
        have hlist : (s.target.graph.addInner name).innerNames.toList =
            s.target.graph.innerNames.toList ++ [⟨name, none⟩] := by
          simp [Bigraph.addInner]
        rw [hlist]
        exact List.rel_append hs.links.inner (.cons ⟨rfl, rfl⟩ .nil) }

/-- The inner names of the copy when the last of them is on no link. -/
theorem Shows.exists_before (hs : s.Shows b holes pending (names ++ [(name, none)])) :
    ∃ before, s.target.graph.innerNames.toList = before ++ [⟨name, none⟩] ∧
      List.Forall₂ (Goes s.links) names before := by
  have hinner := hs.links.inner.flip
  have hlast := List.forall₂_drop_append _ _ _ hinner
  obtain ⟨⟨x, link⟩, rest, ⟨hx, hlink⟩, hrest, hdrop⟩ := List.forall₂_cons_right_iff.mp hlast
  rw [List.forall₂_nil_right_iff] at hrest
  subst hrest
  cases hx
  cases hlink
  refine ⟨_, ?_, (List.forall₂_take_append _ _ _ hinner).flip⟩
  rw [← hdrop, List.take_append_drop]

/-- The last inner name, on no link, stands where its entry stands. -/
theorem Shows.getElem?_last (hs : s.Shows b holes pending (names ++ [(name, none)])) :
    s.target.graph.innerNames[names.length]? = some ⟨name, none⟩ := by
  obtain ⟨before, hlist, hbefore⟩ := hs.exists_before
  rw [← Array.getElem?_toList, hlist, hbefore.length_eq, List.getElem?_concat_length]

/-- The last inner name goes to the copy of a link. -/
theorem Shows.wire (hs : s.Shows b holes pending (names ++ [(name, none)])) {l k : LinkId}
    (hk : (l, k) ∈ s.links) (label : Nat) :
    Shows b holes pending (names ++ [(name, some l)])
      ⟨⟨s.target.graph.wire names.length name k, label⟩, s.places, s.links⟩ where
  wellFormed := by
    have hlast := hs.getElem?_last
    have hname : s.target.graph.innerName names.length = name := by
      rw [Bigraph.innerName, hlast]; rfl
    have hwire := hs.wellFormed.wire (Array.getElem?_eq_some_iff.mp hlast).1
      (hs.lt_of_mem_links hk) (by rw [Bigraph.innerLink, hlast]; rfl)
    rwa [hname] at hwire
  signature_eq := hs.signature_eq
  places := hs.places.of_eq rfl (fun _ => rfl) fun _ => rfl
  links :=
    { hs.links with
      kind_eq := fun hm => by
        rw [Bigraph.linkKind_wire]
        exact hs.links.kind_eq hm
      of_link := fun hk' => hs.links.of_link (by rwa [Bigraph.links_size_wire] at hk')
      inner := by
        obtain ⟨before, hlist, hbefore⟩ := hs.exists_before
        have hset : (s.target.graph.wire names.length name k).innerNames.toList =
            before ++ [⟨name, some k⟩] := by
          rw [Bigraph.wire, Array.toList_setIfInBounds, hlist, hbefore.length_eq,
            List.set_append_right _ _ (Nat.le_refl _), Nat.sub_self]
          rfl
        rw [hset]
        exact List.rel_append hbefore (.cons ⟨rfl, k, rfl, hk⟩ .nil) }

/-- **A new inner name** goes to the copy of its link. -/
theorem inner_ok (hb : b.Sound) (hs : s.Shows b holes pending names) {l : Option LinkId}
    (hnew : ∀ e ∈ names, e.1 ≠ name) (hl : ∀ a, l = some a → b.Admits a) :
    ∃ s', s.inner b.become name l = .ok s' ∧ s'.places = s.places ∧ s.links ⊆ s'.links ∧
      s'.Shows b holes pending (names ++ [(name, l)]) := by
  have hfree : ∀ i < s.target.graph.innerNames.size, s.target.graph.innerName i ≠ name :=
    fun i hi => hs.innerName_ne hnew hi
  have hsize : s.target.graph.innerNames.size = names.length := hs.links.inner.length_eq.symm
  have hs₁ := hs.addInner hfree s.target.nextLabel
  unfold inner
  simp only [accept, bind, Except.bind, pure, Except.pure]
  rw [Construction.inner_ok hfree]
  cases l with
  | none => exact ⟨_, rfl, rfl, List.Subset.refl _, hs₁⟩
  | some a =>
    obtain ⟨s₂, k, hstep, hk, hsub, hplaces, hs₂⟩ := link_ok hb hs₁ (hl a rfl)
    have hlast := hs₂.getElem?_last
    have hname : s₂.target.graph.innerName names.length = name := by
      rw [Bigraph.innerName, hlast]; rfl
    have hwire := Construction.wire_ok (c := s₂.target) (hs₂.lt_of_mem_links hk)
      (Array.getElem?_eq_some_iff.mp hlast).1 (by rw [Bigraph.innerLink, hlast]; rfl)
    rw [hname] at hwire
    refine ⟨⟨⟨s₂.target.graph.wire names.length name k, s₂.target.nextLabel⟩, s₂.places, s₂.links⟩,
      ?_, hplaces, hsub, hs₂.wire hk _⟩
    simp only
    rw [hstep]
    simp only
    rw [hsize, hwire]

end InnerNames

end Copy

end Bigraphs
