import Bigraphs.Proofs.Matching.Pieces
import Bigraphs.Proofs.Matching.Soundness

/-! # Gluing the places back

Roots and nodes are told apart by their index or label (`PlaceKey`), in the agent and in its pieces.
`GluedUnder` is the parent relation that arises when the redex, renamed through the mapping, is put
in place of the sites of the context, and each parameter in place of a site of the redex. It is the
parent relation of the agent, and the nodes of the agent are dealt out to the pieces without loss or
repetition (`occurrences_restore_places`). -/

namespace Bigraphs

/-- What a root or a node is known by. -/
inductive PlaceKey where
  | root (index : Nat)
  | node (label : String)
deriving DecidableEq

namespace Bigraph

variable {g : Bigraph}

/-- The index of a root, the label of a node. -/
def key (g : Bigraph) (p : PlaceId) : Option PlaceKey :=
  ((g.rootIndex p).map .root).or ((g.label p).map .node)

theorem key_of_bare {g' : Bigraph} {p p' : PlaceId} (h : g.bare p = g'.bare p') :
    g.key p = g'.key p' := by
  rw [key, key, rootIndex_of_bare h, label_of_bare h]

theorem key_of_root {p : PlaceId} {i : Nat} (h : g.rootIndex p = some i) :
    g.key p = some (.root i) := by
  rw [key, h]; rfl

/-- A place with a key is a root or a node. -/
theorem isRoot_or_isNode_of_key {p : PlaceId} {k : PlaceKey} (h : g.key p = some k) :
    g.isRoot p ∨ g.isNode p := by
  unfold key at h
  cases hr : g.rootIndex p with
  | some i => exact Or.inl (by rw [isRoot, hr]; rfl)
  | none =>
    rw [hr, Option.map_none, Option.none_or, Option.map_eq_some_iff] at h
    obtain ⟨s, hs, -⟩ := h
    obtain ⟨d, hd, -⟩ := label_eq_some_iff.mp hs
    exact Or.inr (by rw [isNode, hd]; rfl)

end Bigraph

namespace Problem

open Bigraph

/-- Where the redex place `p` comes to stand: a node at its image, a root at the place above the site
of the context with its index. -/
def PlacedAt (q : Problem) (m : Mapping) (context : Bigraph) (p : PlaceId) (k : PlaceKey) : Prop :=
  (∃ y, (p, y) ∈ m ∧ q.agent.key y = some k) ∨
    ∃ i s n, q.redex.rootIndex p = some i ∧ context.siteIndex s = some i ∧
      context.parent s = some n ∧ context.key n = some k

/-- **The glued parent relation,** child and parent. -/
inductive GluedUnder (q : Problem) (m : Mapping) (pieces : Decomposition) :
    PlaceKey → PlaceKey → Prop where
  | context {n n' k k'} : pieces.context.parent n = some n' → pieces.context.key n = some k →
      pieces.context.key n' = some k' → GluedUnder q m pieces k k'
  | redex {x y p k k'} : (x, y) ∈ m → q.redex.parent x = some p → q.agent.key y = some k →
      q.PlacedAt m pieces.context p k' → GluedUnder q m pieces k k'
  | parameter {j : Nat} {P : Bigraph} {n n' k k'} : pieces.parameters[j]? = some P → P.isNode n' →
      P.parent n = some n' → P.key n = some k → P.key n' = some k' → GluedUnder q m pieces k k'
  | plug {j : Nat} {P : Bigraph} {n n' s p k k'} : pieces.parameters[j]? = some P → P.isRoot n' →
      P.parent n = some n' → P.key n = some k → q.redex.sites[j]? = some s →
      q.redex.parent s = some p → q.PlacedAt m pieces.context p k' → GluedUnder q m pieces k k'

/-- **The places of the agent are restored by its pieces.** -/
structure PlacesRestored (q : Problem) (hosts : List PlaceId) (m : Mapping)
    (pieces : Decomposition) : Prop where
  context_wellFormed : pieces.context.WellFormed
  parameters_wellFormed : ∀ P ∈ pieces.parameters, P.WellFormed
  length_parameters : pieces.parameters.length = q.redex.sites.length
  parameter_root : ∀ P ∈ pieces.parameters, ∃ r, ∀ r', P.isRoot r' ↔ r' = r
  labels_nodup : (q.agent.nodes.filterMap q.agent.label).Nodup
  labels_perm : (q.agent.nodes.filterMap q.agent.label).Perm
    (pieces.context.nodes.filterMap pieces.context.label ++
      (m.map (·.2)).filterMap q.agent.label ++
      pieces.parameters.flatMap fun P => P.nodes.filterMap P.label)
  controls : ∀ P ∈ pieces.context :: pieces.parameters, ∀ n v s, P.label n = some s →
    q.agent.label v = some s → P.control n = q.agent.control v
  root_indices : ∀ i, (∃ r, pieces.context.rootIndex r = some i) ↔
    ∃ r, q.agent.rootIndex r = some i
  site_indices : ∀ i, (∃ s, pieces.context.siteIndex s = some i) ↔
    ∃ r, q.redex.rootIndex r = some i
  site_below_host : ∀ (p : Nat) r i h s, q.redex.roots[p]? = some r →
    q.redex.rootIndex r = some i → hosts[p]? = some h → pieces.context.siteIndex s = some i →
    ∃ n k, pieces.context.parent s = some n ∧ pieces.context.key n = some k ∧ q.agent.key h = some k
  parents : ∀ k k', GluedUnder q m pieces k k' ↔
    ∃ v p, q.agent.parent v = some p ∧ q.agent.key v = some k ∧ q.agent.key p = some k'

variable {q : Problem} {hosts : List PlaceId} {m : Mapping} {pieces : Decomposition}
  {context : Copy} {parts : List Part} {b : Border}

theorem exists_key {v : PlaceId} (hv : v < q.agent.places.size) : ∃ k, q.agent.key v = some k := by
  cases hr : q.agent.rootIndex v with
  | some i => exact ⟨_, key_of_root hr⟩
  | none =>
    have hn := isNode_of_not hv (by rw [isRoot, hr]; rfl) (isSite_agent q v)
    obtain ⟨d, hd⟩ := Option.isSome_iff_exists.mp hn
    exact ⟨.node d.label, by rw [key, hr, label, hd]; rfl⟩

/-! ### Labels -/

/-- The nodes of a copy have the labels of their originals. -/
theorem labels_copy {plan : Blueprint} {holes : List (Nat × PlaceId)} {c : Copy}
    (h : Copy.ShowsPlaces plan holes c) : (c.target.graph.nodes.filterMap c.target.graph.label).Perm
      ((c.places.map (·.1)).filterMap plan.source.label) := by
  have hnodes : c.target.graph.nodes.Perm ((c.places.map (·.2)).filter c.target.graph.isNode) := by
    rw [List.perm_ext_iff_of_nodup nodup_nodes (h.copies_nodup.filter _)]
    intro n
    rw [mem_nodes, List.mem_filter, and_iff_right_of_imp]
    intro hn
    obtain ⟨v, hv⟩ := h.of_node hn
    exact List.mem_map.mpr ⟨(v, n), hv, rfl⟩
  refine (hnodes.filterMap _).trans ?_
  rw [List.filterMap_filter]
  have heq : (c.places.map (·.2)).filterMap
      (fun n => if c.target.graph.isNode n then c.target.graph.label n else none) =
      (c.places.map (·.1)).filterMap plan.source.label := by
    rw [List.filterMap_map, List.filterMap_map]
    refine List.filterMap_congr fun e he => ?_
    have hbare := h.bare_eq (v := e.1) (n := e.2) he
    simp only [Function.comp_apply]
    rw [label_of_bare hbare, isNode_of_bare hbare]
    split
    next => rfl
    next hn =>
      cases hl : plan.source.label e.1 with
      | none => rfl
      | some s =>
        obtain ⟨d, hd, -⟩ := label_eq_some_iff.mp hl
        rw [isNode, hd] at hn
        exact absurd rfl hn
  rw [heq]


theorem perm_flatMap {α β γ : Type} {f : α → List γ} {g : β → List γ} {l : List α} {k : List β}
    (h : List.Forall₂ (fun x y => (f x).Perm (g y)) l k) : (l.flatMap f).Perm (k.flatMap g) := by
  induction h with
  | nil => exact .refl _
  | cons hxy _ ih =>
    rw [List.flatMap_cons, List.flatMap_cons]
    exact hxy.append ih

section Restored
variable (hq : q.Proper) (ho : q.Occurs hosts m)
  (ha : q.Anatomy hosts m pieces context parts b)
include hq ho ha

omit ho in
/-- The labels in the parameters are those of their regions. -/
theorem parameters_labels : (pieces.parameters.flatMap fun P => P.nodes.filterMap P.label).Perm
    (parts.flatMap fun part => part.region.filterMap q.agent.label) := by
  obtain ⟨b₀, -, -, hparts⟩ := ha.parts
  refine perm_flatMap (List.forall₂_iff_get.mpr
    ⟨by rw [ha.length_parameters, hparts.length_eq], fun j hj hj' => ?_⟩)
  obtain ⟨part, c, hpart, hc, -, hcov, hshows⟩ :=
    parameter_spec hq ha (List.getElem?_eq_getElem hj)
  have hpart' : part = parts[j] := by
    rw [List.getElem?_eq_getElem hj'] at hpart
    exact (Option.some.inj hpart).symm
  obtain ⟨s, -, -, hnd, -⟩ := part_spec hq ha hpart
  have hlabels := labels_copy hshows
  rw [hc] at hlabels
  rw [List.get_eq_getElem, List.get_eq_getElem, ← hpart']
  exact hlabels.trans ((map_fst_perm hshows.keys_nodup hnd hcov).filterMap _)

omit ho in
theorem context_labels : (pieces.context.nodes.filterMap pieces.context.label).Perm
    ((q.contextRegion m).filterMap q.agent.label) := by
  obtain ⟨holes, hshows, -⟩ := ha.context.shows
  rw [ha.context_eq]
  exact (labels_copy hshows.places).trans ((map_fst_perm hshows.places.keys_nodup
    (nodup_contextRegion hq) ha.context.covers).filterMap _)

/-- **The labels of the agent are dealt out to the pieces.** -/
theorem labels_perm : (q.agent.nodes.filterMap q.agent.label).Perm
    (pieces.context.nodes.filterMap pieces.context.label ++
      (m.map (·.2)).filterMap q.agent.label ++
      pieces.parameters.flatMap fun P => P.nodes.filterMap P.label) := by
  have hnodes : q.agent.nodes.filterMap q.agent.label =
      q.agent.placeIds.filterMap q.agent.label := by
    unfold Bigraph.nodes
    rw [List.filterMap_filter]
    refine List.filterMap_congr fun v _ => ?_
    split
    next => rfl
    next hn =>
      rw [isNode, Option.not_isSome_iff_eq_none] at hn
      rw [label, hn]; rfl
  rw [hnodes]
  refine ((places_perm hq ho ha).filterMap _).trans ?_
  rw [List.filterMap_append, List.filterMap_append, List.filterMap_flatMap]
  exact ((context_labels hq ha).symm.append_right _).append (parameters_labels hq ha).symm

omit ho ha in
theorem labels_nodup : (q.agent.nodes.filterMap q.agent.label).Nodup := by
  refine List.Nodup.filterMap (fun v w s hv hw => ?_) nodup_nodes
  exact hq.agent.label_inj hv hw

/-! ### Places -/

omit hq ho in
theorem key_context {v n : PlaceId} (h : (v, n) ∈ context.places) :
    pieces.context.key n = q.agent.key v := by
  obtain ⟨holes, hshows, -⟩ := ha.context.shows
  rw [ha.context_eq]
  exact key_of_bare (hshows.places.bare_eq h)

omit ho in
/-- Copies have the control of the node with their label. -/
theorem controls_eq {P : Bigraph} (hP : P ∈ pieces.context :: pieces.parameters) {n v : PlaceId}
    {s : String} (hn : P.label n = some s) (hv : q.agent.label v = some s) :
    P.control n = q.agent.control v := by
  have key : ∀ {plan : Blueprint} {holes : List (Nat × PlaceId)} {c : Copy}, plan.source = q.agent →
      c.target.graph = P → Copy.ShowsPlaces plan holes c → P.control n = q.agent.control v := by
    rintro plan holes c hsource rfl hshows
    have hmem := mem_places_of_label hshows (by rw [hsource]; exact hq.agent) hn
      (by rw [hsource]; exact hv)
    rw [control_of_bare (hshows.bare_eq hmem), hsource]
  rcases List.mem_cons.mp hP with rfl | hP
  · obtain ⟨holes, hshows, -⟩ := ha.context.shows
    exact key rfl ha.context_eq.symm hshows.places
  · obtain ⟨j, hj⟩ := List.mem_iff_getElem?.mp hP
    obtain ⟨part, c, -, hc, -, -, hshows⟩ := parameter_spec hq ha hj
    exact key rfl hc hshows

/-- The context has the roots of the agent. -/
theorem root_indices (i : Nat) : (∃ r, pieces.context.rootIndex r = some i) ↔
    ∃ r, q.agent.rootIndex r = some i := by
  obtain ⟨holes, hshows, -⟩ := ha.context.shows
  rw [ha.context_eq]
  constructor
  · rintro ⟨r, hr⟩
    rcases hshows.places.of_root (by rw [isRoot, hr]; rfl) with htop | ⟨v, hv⟩
    · cases htop
    · exact ⟨v, by rw [← hr]; exact (rootIndex_of_bare (hshows.places.bare_eq hv)).symm⟩
  · rintro ⟨r, hr⟩
    have hroot : q.agent.isRoot r := by rw [isRoot, hr]; rfl
    obtain ⟨n, hn⟩ := (ha.context.covers r).mpr ((mem_contextRegion hq ho).mpr
      ⟨hq.agent.level_roots.lt_size r (mem_roots.mpr hroot), fun w hw => by
        rcases aboveEq_iff.mp hw with rfl | hw
        · exact not_matched_root ho hroot
        · exact absurd hw (not_above_of_parent_eq_none (hq.agent.parent_root hroot))⟩)
    exact ⟨n, (rootIndex_of_bare (hshows.places.bare_eq hn)).trans hr⟩

omit hq ho in
/-- The context has a site for each root of the redex. -/
theorem site_indices (hlen : hosts.length = q.redex.roots.length) (i : Nat) :
    (∃ s, pieces.context.siteIndex s = some i) ↔ ∃ r, q.redex.rootIndex r = some i := by
  obtain ⟨holes, hshows, hholes⟩ := ha.context.shows
  rw [ha.context_eq]
  constructor
  · rintro ⟨s, hs⟩
    obtain ⟨h, n, hhole, -⟩ := hshows.places.site hs
    obtain ⟨pos, r, -, -, hr⟩ := mem_hostedBy.mp ((hholes i h).mp hhole)
    exact ⟨r, hr⟩
  · rintro ⟨r, hr⟩
    have hroot : q.redex.isRoot r := by rw [isRoot, hr]; rfl
    obtain ⟨pos, hpos⟩ := List.mem_iff_getElem?.mp (mem_roots.mpr hroot)
    have hlt : pos < hosts.length := by
      rw [hlen]
      exact (List.getElem?_eq_some_iff.mp hpos).1
    obtain ⟨s, -, hs, -⟩ := hshows.places.exists_site ((hholes i hosts[pos]).mpr
      (mem_hostedBy.mpr ⟨pos, r, List.getElem?_eq_getElem hlt, hpos, hr⟩))
    exact ⟨s, hs⟩

/-- Each site of the context is below the copy of the host. -/
theorem site_below_host {p : Nat} {r h s : PlaceId} {i : Nat} (hr : q.redex.roots[p]? = some r)
    (hi : q.redex.rootIndex r = some i) (hh : hosts[p]? = some h)
    (hs : pieces.context.siteIndex s = some i) :
    ∃ n k, pieces.context.parent s = some n ∧ pieces.context.key n = some k ∧
      q.agent.key h = some k := by
  obtain ⟨holes, hshows, hholes⟩ := ha.context.shows
  rw [ha.context_eq] at hs
  obtain ⟨h', n, hhole, hn, hp⟩ := hshows.places.site hs
  have hhost := hostedBy_unique hq.redex ((hholes i h').mp hhole)
    (mem_hostedBy.mpr ⟨p, r, hh, hr, hi⟩)
  subst hhost
  have hmem := (ha.context.covers h').mp ⟨n, hn⟩
  obtain ⟨k, hk⟩ := exists_key (q := q) ((mem_contextRegion hq ho).mp hmem).1
  exact ⟨n, k, by rw [ha.context_eq, hp], by rw [key_context ha hn, hk], hk⟩

/-- Where the redex place above a matched node is placed, the image has its parent. -/
theorem placedAt_iff {x y p : PlaceId} (hm : (x, y) ∈ m) (hp : q.redex.parent x = some p)
    {k : PlaceKey} : q.PlacedAt m pieces.context p k ↔
      ∃ w, q.agent.parent y = some w ∧ q.agent.key w = some k := by
  obtain ⟨holes, hshows, hholes⟩ := ha.context.shows
  constructor
  · rintro (⟨w, hw, hk⟩ | ⟨i, s, n, hi, hs, hn, hk⟩)
    · exact ⟨w, ho.under_node x y p w hm hw hp, hk⟩
    · rw [ha.context_eq] at hs hn
      obtain ⟨h, n', hhole, hn', hpar⟩ := hshows.places.site hs
      rw [hn, Option.some.injEq] at hpar
      subst hpar
      obtain ⟨pos, r, hh, hr, hri⟩ := mem_hostedBy.mp ((hholes i h).mp hhole)
      have hrp : r = p := hq.redex.rootIndex_inj hri hi
      subst hrp
      obtain ⟨h', hh', hy⟩ := ho.under_root x y pos r hm hr hp
      rw [hh, Option.some.injEq] at hh'
      subst hh'
      exact ⟨h, hy, by rw [← key_context ha hn', hk]⟩
  · rintro ⟨w, hy, hk⟩
    cases hroot : q.redex.isRoot p with
    | false =>
      obtain ⟨w', hw'⟩ := ho.exists_image (hq.redex.isNode_of_above hp hroot)
      have hyw := ho.under_node x y p w' hm hw' hp
      rw [hy, Option.some.injEq] at hyw
      subst hyw
      exact Or.inl ⟨w, hw', hk⟩
    | true =>
      obtain ⟨i, hi⟩ := Option.isSome_iff_exists.mp hroot
      obtain ⟨pos, hpos⟩ := List.mem_iff_getElem?.mp (mem_roots.mpr hroot)
      obtain ⟨h, hh, hyh⟩ := ho.under_root x y pos p hm hpos hp
      rw [hy, Option.some.injEq] at hyh
      subst hyh
      obtain ⟨s, n, hs, hn, hpar⟩ :=
        hshows.places.exists_site ((hholes i w).mpr (mem_hostedBy.mpr ⟨pos, p, hh, hpos, hi⟩))
      rw [← ha.context_eq] at hs hpar
      exact Or.inr ⟨i, s, n, hi, hs, hpar, by rw [key_context ha hn, hk]⟩

omit hq ho ha in
/-- What is below a place of a copy, and has a key, is the copy of a node. -/
theorem exists_original_of_child {plan : Blueprint} {holes : List (Nat × PlaceId)} {c : Copy}
    (h : Copy.ShowsPlaces plan holes c) (hg : c.target.graph.WellFormed) {n n' : PlaceId}
    {k : PlaceKey} (hp : c.target.graph.parent n = some n') (hk : c.target.graph.key n = some k) :
    ∃ v, (v, n) ∈ c.places ∧ Copy.Hangs plan c v n' := by
  have hn : c.target.graph.isNode n := by
    rcases isRoot_or_isNode_of_key hk with hr | hn
    · rw [hg.parent_root hr] at hp
      cases hp
    · exact hn
  obtain ⟨v, hv⟩ := h.of_node hn
  obtain ⟨n'', hn'', hhangs⟩ := h.hangs hv (by rw [← isNode_of_bare (h.bare_eq hv)]; exact hn)
  rw [hp, Option.some.injEq] at hn''
  subst hn''
  exact ⟨v, hv, hhangs⟩

omit ho ha in
/-- In a parameter, a node hangs below the copy of its parent or, if that is the image, below the
root. -/
theorem parent_of_hangs {part : Part} {c : Copy} {v y n' : PlaceId}
    (hr : part.region = q.regionBelow m y) (hcov : Covers c.places (· ∈ part.region))
    (hshows : Copy.ShowsPlaces (part.blueprint q) [] c) (hv : v ∈ part.region)
    (h : Copy.Hangs (part.blueprint q) c v n') :
    (∃ p, q.agent.parent v = some p ∧ (p, n') ∈ c.places ∧ c.target.graph.isNode n') ∨
      q.agent.parent v = some y ∧ c.target.graph.isRoot n' := by
  rw [hr] at hv
  rcases h with ⟨p, hp, hn'⟩ | ⟨htop, hout⟩
  · have hin := (hcov p).mp ⟨n', hn'⟩
    rw [hr] at hin
    exact Or.inl ⟨p, hp, hn', by rw [isNode_of_bare (hshows.bare_eq hn')]; exact isNode_of_region hq hin⟩
  · obtain ⟨w, hw⟩ := exists_parent_of_region hq hv
    refine Or.inr ⟨?_, hshows.isRoot_top htop⟩
    rcases parent_region hq hv hw with hin | rfl
    · exact absurd (show w ∈ part.region by rw [hr]; exact hin) (hout w hw)
    · exact hw

omit ho in
/-- One parameter that holds something. -/
theorem parameter_region {j : Nat} {v n : PlaceId} {part : Part} {c : Copy}
    (hpart : parts[j]? = some part) (hcov : Covers c.places (· ∈ part.region)) (hv : (v, n) ∈ c.places) :
    ∃ s x y, q.redex.sites[j]? = some s ∧ q.redex.parent s = some x ∧ (x, y) ∈ m ∧
      part.region = q.regionBelow m y := by
  obtain ⟨s, hs, ⟨x, y, hsx, hm, -, hr⟩ | hr, -⟩ := part_spec hq ha hpart
  · exact ⟨s, x, y, hs, hsx, hm, hr⟩
  · have hregion := (hcov v).mp ⟨n, hv⟩
    rw [hr] at hregion
    simp at hregion

omit ho in
/-- A parameter has one root. -/
theorem parameter_root {j : Nat} {P : Bigraph} (hP : pieces.parameters[j]? = some P) :
    ∃ r, ∀ r', P.isRoot r' ↔ r' = r := by
  obtain ⟨part, c, hpart, rfl, -, hcov, hshows⟩ := parameter_spec hq ha hP
  refine ⟨0, fun r' => ⟨fun hr' => ?_, ?_⟩⟩
  · rcases hshows.of_root hr' with htop | ⟨v, hv⟩
    · exact (Option.some.inj htop).symm
    · obtain ⟨s, x, y, -, -, -, hr⟩ := parameter_region hq ha hpart hcov hv
      have hin := (hcov v).mp ⟨r', hv⟩
      rw [hr] at hin
      rw [isRoot_of_bare (hshows.bare_eq hv)] at hr'
      exact absurd hr' (not_isRoot_of_isNode (isNode_of_region hq hin))
  · rintro rfl
    exact hshows.isRoot_top rfl

/-- **What is glued is in the agent.** -/
theorem parent_of_gluedUnder {k k' : PlaceKey} (h : GluedUnder q m pieces k k') :
    ∃ v p, q.agent.parent v = some p ∧ q.agent.key v = some k ∧ q.agent.key p = some k' := by
  cases h with
  | @context n n' _ _ hp hk hk' =>
    obtain ⟨holes, hshows, -⟩ := ha.context.shows
    rw [ha.context_eq] at hp hk
    obtain ⟨v, hv, hhangs⟩ := exists_original_of_child hshows.places hshows.wellFormed hp hk
    rcases hhangs with ⟨p, hvp, hp'⟩ | ⟨htop, -⟩
    · rw [← ha.context_eq] at hk
      exact ⟨v, p, hvp, by rw [← key_context ha hv, hk], by rw [← key_context ha hp', hk']⟩
    · cases htop
  | @redex x y p _ _ hm hp hk hplaced =>
    obtain ⟨w, hw, hk'⟩ := (placedAt_iff hq ho ha hm hp).mp hplaced
    exact ⟨y, w, hw, hk, hk'⟩
  | @parameter j P n n' _ _ hP hnode hp hk hk' =>
    obtain ⟨part, c, hpart, rfl, hwf, hcov, hshows⟩ := parameter_spec hq ha hP
    obtain ⟨v, hv, hhangs⟩ := exists_original_of_child hshows hwf hp hk
    obtain ⟨s, x, y, -, -, -, hr⟩ := parameter_region hq ha hpart hcov hv
    rcases parent_of_hangs hq hr hcov hshows ((hcov v).mp ⟨n, hv⟩) hhangs with
      ⟨p, hvp, hp', -⟩ | ⟨-, hroot⟩
    · exact ⟨v, p, hvp, (key_of_bare (hshows.bare_eq hv)).symm.trans hk,
        (key_of_bare (hshows.bare_eq hp')).symm.trans hk'⟩
    · exact absurd hroot (not_isRoot_of_isNode hnode)
  | @plug j P n n' s p _ _ hP hroot hp hk hs hsp hplaced =>
    obtain ⟨part, c, hpart, rfl, hwf, hcov, hshows⟩ := parameter_spec hq ha hP
    obtain ⟨v, hv, hhangs⟩ := exists_original_of_child hshows hwf hp hk
    obtain ⟨s', x, y, hs', hsx, hm, hr⟩ := parameter_region hq ha hpart hcov hv
    rw [hs, Option.some.injEq] at hs'
    subst hs'
    rw [hsp, Option.some.injEq] at hsx
    subst hsx
    have hkey : q.agent.key y = some k' := by
      rcases hplaced with ⟨y', hm', hk'⟩ | ⟨i, -, -, hi, -⟩
      · rw [ho.image_unique hm hm', hk']
      · have hp : q.redex.isRoot p := by rw [isRoot, hi]; rfl
        exact absurd hp (not_isRoot_of_isNode (ho.isNode_fst hm))
    rcases parent_of_hangs hq hr hcov hshows ((hcov v).mp ⟨n, hv⟩) hhangs with
      ⟨-, -, -, hnode⟩ | ⟨hvy, -⟩
    · exact absurd hroot (not_isRoot_of_isNode hnode)
    · exact ⟨v, y, hvy, (key_of_bare (hshows.bare_eq hv)).symm.trans hk, hkey⟩

/-- **What is in the agent is glued.** -/
theorem gluedUnder_of_parent {v p : PlaceId} {k k' : PlaceKey} (hvp : q.agent.parent v = some p)
    (hk : q.agent.key v = some k) (hk' : q.agent.key p = some k') :
    GluedUnder q m pieces k k' := by
  have hv := lt_of_parent hvp
  have hnode : q.agent.isNode v := (hq.agent.isNode_or_isSite_of_parent hvp).resolve_right
    (by rw [isSite_agent]; exact Bool.false_ne_true)
  rcases region_cases hq ho hv with hc | ⟨x, hx⟩ | ⟨x, y, hm, hregion⟩
  · -- both are copied into the context
    obtain ⟨holes, hshows, -⟩ := ha.context.shows
    obtain ⟨n, hn⟩ := (ha.context.covers v).mpr hc
    obtain ⟨n', hp, ⟨p', hvp', hn'⟩ | ⟨htop, -⟩⟩ := hshows.places.hangs hn hnode
    · have hpp : some p = some p' := hvp.symm.trans hvp'
      cases hpp
      exact .context (by rw [ha.context_eq, hp]) (by rw [key_context ha hn, hk])
        (by rw [key_context ha hn', hk'])
    · cases htop
  · -- the child is matched
    obtain ⟨x', hxp⟩ := hq.redex_rooted.exists_parent (ho.isNode_fst hx)
    exact .redex hx hxp hk ((placedAt_iff hq ho ha hx hxp).mpr ⟨p, hvp, hk'⟩)
  · -- the child is in a parameter, and so is its parent unless that is the image
    obtain ⟨j, P, s, part, hP, hpart, hs, hsx, hr⟩ := exists_parameter hq ho ha hm hregion
    obtain ⟨part', c, hpart', rfl, -, hcov, hshows⟩ := parameter_spec hq ha hP
    rw [hpart, Option.some.injEq] at hpart'
    subst hpart'
    rw [← hr] at hregion
    obtain ⟨n, hn⟩ := (hcov v).mpr hregion
    obtain ⟨n', hp, hhangs⟩ := hshows.hangs hn hnode
    have hkn : c.target.graph.key n = some k := (key_of_bare (hshows.bare_eq hn)).trans hk
    rcases parent_of_hangs hq hr hcov hshows hregion hhangs with
      ⟨p', hvp', hn', hnode'⟩ | ⟨hvy, hroot⟩
    · rw [hvp, Option.some.injEq] at hvp'
      subst hvp'
      exact .parameter hP hnode' hp hkn ((key_of_bare (hshows.bare_eq hn')).trans hk')
    · rw [hvp, Option.some.injEq] at hvy
      subst hvy
      exact .plug hP hroot hp hkn hs hsx (Or.inl ⟨p, hm, hk'⟩)

/-! ### The result -/

/-- **The pieces restore the places.** -/
theorem placesRestored (hlen : hosts.length = q.redex.roots.length) :
    q.PlacesRestored hosts m pieces where
  context_wellFormed := by
    obtain ⟨holes, hshows, -⟩ := ha.context.shows
    rw [ha.context_eq]
    exact hshows.wellFormed
  parameters_wellFormed P hP := by
    obtain ⟨j, hj⟩ := List.mem_iff_getElem?.mp hP
    obtain ⟨-, -, -, -, hwf, -⟩ := parameter_spec hq ha hj
    exact hwf
  length_parameters := ha.length_parameters
  parameter_root P hP := by
    obtain ⟨j, hj⟩ := List.mem_iff_getElem?.mp hP
    exact parameter_root hq ha hj
  labels_nodup := labels_nodup hq
  labels_perm := labels_perm hq ho ha
  controls _ hP _ _ _ hn hv := controls_eq hq ha hP hn hv
  root_indices := root_indices hq ho ha
  site_indices := site_indices ha hlen
  site_below_host _ _ _ _ _ hr hi hh hs := site_below_host hq ho ha hr hi hh hs
  parents k k' := ⟨parent_of_gluedUnder hq ho ha,
    fun ⟨_, _, hvp, hk, hk'⟩ => gluedUnder_of_parent hq ho ha hvp hk hk'⟩

end Restored

end Problem

/-- **The places of the agent are restored** by the pieces of everything that is yielded. -/
theorem Matches.occurrences_restore_places (config : MatchConfig) {agent redex : Bigraph}
    (ha : agent.Constructible) (hr : redex.Constructible)
    (hs : agent.signature = redex.signature) (hg : agent.isGround = true) :
    ∃ ms, Matches.of config agent redex = .ok ms ∧ ∀ o ∈ ms.occurrences.toList,
      ms.problem.PlacesRestored o.hosts o.mapping o.pieces := by
  refine ⟨_, of_eq_ok hs hg, fun o ho => ?_⟩
  have hq := proper_of_constructible ha hr hs hg
  obtain ⟨hin, hocc, context, parts, b, hanatomy⟩ := anatomy_of_mem_occurrences hq ho
  exact Problem.placesRestored hq hocc hanatomy hin.length_eq

/-- Both times the context has two sites below the one root, and the parameter two people. -/
theorem occurrences_restore_places_busyRooms : busyRooms.Constructible ∧ roomsInTouch.Constructible ∧
    busyRooms.signature = roomsInTouch.signature ∧ busyRooms.isGround = true ∧
    numberOfOccurrences {} busyRooms roomsInTouch = 2 ∧
    ∃ ms, Matches.of {} busyRooms roomsInTouch = .ok ms ∧ ∀ o ∈ ms.occurrences.toList,
      ms.problem.PlacesRestored o.hosts o.mapping o.pieces :=
  ⟨constructible_busyRooms, constructible_roomsInTouch, signature_busyRooms, isGround_busyRooms, by decide +kernel,
    Matches.occurrences_restore_places {} constructible_busyRooms constructible_roomsInTouch signature_busyRooms
      isGround_busyRooms⟩

end Bigraphs
