import Bigraphs.Proofs.Construction.Register
import Bigraphs.Proofs.Graph.Listing

/-! # The rules that a construction keeps

Every list of actions, refused ones included, leaves a bigraph whose parts fit together
(`run_keeps_rules`): its two-way relations agree, its forest has no cycle, so that the walk up from a
place finds what is above it and ends, and the roots, sites and nodes are listed once each. A register
that is kept along the way holds just this. That is why the end of a construction has nothing left to
check but the parents (`finish_eq_ok_iff`, `finish_eq_error_iff`). -/

namespace Bigraphs

namespace Bigraph

/-- `p` is a node or a site without a parent. -/
def IsOrphan (g : Bigraph) (p : PlaceId) : Prop :=
  p < g.places.size ∧ g.parent p = none ∧ ¬ g.isRoot p

/-- **The places are listed by kind,** each once: the roots and the sites by index, the nodes by
number. -/
structure Listed (g : Bigraph) : Prop where
  roots : g.roots.Nodup ∧ ∀ p, p ∈ g.roots ↔ ∃ i, g.kind p = some (.root i)
  sites : g.sites.Nodup ∧ ∀ p, p ∈ g.sites ↔ ∃ i, g.kind p = some (.site i)
  nodes : g.nodes.Nodup ∧ ∀ p, p ∈ g.nodes ↔ ∃ d, g.kind p = some (.node d)
  root_indices : (g.roots.filterMap g.rootIndex).Pairwise (· < ·)
  site_indices : (g.sites.filterMap g.siteIndex).Pairwise (· < ·)
  node_order : g.nodes.Pairwise (· < ·)

variable {g : Bigraph}

theorem rooted_iff : g.Rooted ↔ ∀ p, ¬ g.IsOrphan p := by
  unfold Rooted IsOrphan
  grind

theorem WellFormed.listed (hg : g.WellFormed) : g.Listed where
  roots := ⟨nodup_roots, fun _ => mem_roots.trans isRoot_iff⟩
  sites := ⟨nodup_sites, fun _ => mem_sites.trans isSite_iff⟩
  nodes := ⟨nodup_nodes, fun _ => mem_nodes.trans isNode_iff⟩
  root_indices := pairwise_filterMap_index (pairwise_roots hg)
  site_indices := pairwise_filterMap_index (pairwise_sites hg)
  node_order := List.pairwise_lt_range.filter _

end Bigraph

namespace Construction

open Bigraph

variable {c : Construction}

/-! ### The signature stays -/

theorem signature_node (control label : String) :
    (c.node control label).2.graph.signature = c.graph.signature := by
  unfold node
  split
  · rfl
  · split <;> rfl

theorem signature_nest (child par : PlaceId) :
    (c.nest child par).2.graph.signature = c.graph.signature := by
  unfold nest
  split <;> rfl

theorem signature_child (par : PlaceId) (control : String) :
    (c.child par control).2.graph.signature = c.graph.signature := by
  obtain ⟨label, n, hchild⟩ := exists_child_snd c par control
  have hmade := signature_node (c := ⟨c.graph, n⟩) control label
  rcases hchild with hchild | ⟨p, hchild⟩
  · rw [hchild]
    exact hmade
  · rw [hchild]
    exact (signature_nest p par).trans hmade

theorem signature_connect (v : PlaceId) (l : LinkId) :
    (c.connect v l).2.graph.signature = c.graph.signature := by
  unfold connect
  split
  · rfl
  · split
    · rfl
    · split <;> rfl

theorem signature_wire (i : InnerId) (l : LinkId) :
    (c.wire i l).2.graph.signature = c.graph.signature := by
  unfold wire
  split
  · rfl
  · split
    · rfl
    · split <;> rfl

theorem signature_close (s : String) :
    (c.close s).2.graph.signature = c.graph.signature := by
  unfold close
  split
  · rfl
  · split <;> rfl

/-- No action changes the signature. -/
theorem signature_perform (a : Action) : (perform a c).2.graph.signature = c.graph.signature := by
  cases a with
  | root i => show (c.root i).2.graph.signature = _; unfold root; split <;> rfl
  | site i => show (c.site i).2.graph.signature = _; unfold site; split <;> rfl
  | node control label => exact signature_node control label
  | child parent control => exact signature_child parent control
  | nest child parent => exact signature_nest child parent
  | outer name => show (c.outer name).2.graph.signature = _; unfold outer; split <;> rfl
  | edge label => show (c.edge label).2.graph.signature = _; unfold edge; split <;> rfl
  | freshEdge => rfl
  | inner name => show (c.inner name).2.graph.signature = _; unfold inner; split <;> rfl
  | connect node link => exact signature_connect node link
  | wire inner link => exact signature_wire inner link
  | close name => exact signature_close name

theorem signature_run (actions : List Action) :
    (c.run actions).graph.signature = c.graph.signature := by
  induction actions generalizing c with
  | nil => rfl
  | cons a actions ih => exact ih.trans (signature_perform a)

/-! ### Refusals at the end -/

/-- The refusal for the place `p`. -/
theorem orphan_eq_some_iff {p : PlaceId} (hp : p < c.graph.places.size) {e : BuildError} :
    orphan c.graph.places[p] = some e ↔ c.graph.IsOrphan p ∧
      ((∃ i, c.graph.siteIndex p = some i ∧ e = .orphanSite i) ∨
        ∃ s, c.graph.label p = some s ∧ e = .orphanNode s) := by
  have hget := Array.getElem?_eq_getElem hp
  unfold orphan IsOrphan isRoot rootIndex siteIndex label node? kind parent
  rw [hget]
  simp only [Option.map_some, Option.bind_some, PlaceKind.rootIndex, PlaceKind.siteIndex,
    PlaceKind.node?]
  cases c.graph.places[p].parent with
  | some q => simp
  | none =>
    cases c.graph.places[p].kind with
    | root i => simp
    | site i => simp [hp, eq_comm]
    | node d => simp [hp, eq_comm]

theorem orphan_eq_none_iff {p : PlaceId} (hp : p < c.graph.places.size) :
    orphan c.graph.places[p] = none ↔ ¬ c.graph.IsOrphan p := by
  rw [← not_iff_not, not_not, ← ne_eq, Option.ne_none_iff_exists']
  simp only [orphan_eq_some_iff hp]
  refine ⟨fun ⟨_, h, _⟩ => h, fun h => ?_⟩
  by_cases hs : c.graph.isSite p
  · obtain ⟨i, hi⟩ := Option.isSome_iff_exists.mp hs
    exact ⟨_, h, Or.inl ⟨i, hi, rfl⟩⟩
  · obtain ⟨d, hd⟩ := Option.isSome_iff_exists.mp
      (isNode_of_not hp (by simpa using h.2.2) (by simpa using hs))
    exact ⟨_, h, Or.inr ⟨d.label, label_eq_some_iff.mpr ⟨d, hd, rfl⟩, rfl⟩⟩

/-- A refusal at the end is that of the first node or site without a parent. -/
theorem exists_orphan_of_finish {e : BuildError} (h : c.finish = .error e) :
    ∃ (p : PlaceId) (hp : p < c.graph.places.size), orphan c.graph.places[p] = some e ∧
      ∀ r < p, ¬ c.graph.IsOrphan r := by
  have hfirst : c.graph.places.toList.findSome? orphan = some e := by
    unfold finish at h
    split at h
    next e' he => rw [he, Except.error.inj h]
    next => cases h
  obtain ⟨earlier, place, later, hl, he, hnone⟩ := List.findSome?_eq_some_iff.mp hfirst
  have hlen : earlier.length < c.graph.places.size := by
    rw [← Array.length_toList, hl]
    simp
  have hget : ∀ r (hr : r < c.graph.places.size), (earlier ++ place :: later)[r]? =
      some c.graph.places[r] := fun r hr => by
    rw [← hl, Array.getElem?_toList, Array.getElem?_eq_getElem hr]
  refine ⟨earlier.length, hlen, ?_, fun r hr => ?_⟩
  · have hplace := hget _ hlen
    rw [List.getElem?_append_right (Nat.le_refl _), Nat.sub_self, List.getElem?_cons_zero,
      Option.some.injEq] at hplace
    rw [← hplace, he]
  · have hplace := hget r (Nat.lt_trans hr hlen)
    rw [List.getElem?_append_left hr] at hplace
    exact (orphan_eq_none_iff _).mp (hnone _ (List.mem_of_getElem? hplace))

/-- **The end is refused** for the first node or site without a parent. -/
theorem finish_eq_error_iff {e : BuildError} : c.finish = .error e ↔
    ∃ p, c.graph.IsOrphan p ∧ (∀ r < p, ¬ c.graph.IsOrphan r) ∧
      ((∃ i, c.graph.siteIndex p = some i ∧ e = .orphanSite i) ∨
        ∃ s, c.graph.label p = some s ∧ e = .orphanNode s) := by
  constructor
  · intro h
    obtain ⟨p, hp, he, hfirst⟩ := exists_orphan_of_finish h
    obtain ⟨ho, he⟩ := (orphan_eq_some_iff hp).mp he
    exact ⟨p, ho, hfirst, he⟩
  · rintro ⟨p, ho, hfirst, he⟩
    cases h : c.finish with
    | ok g => exact absurd ho (rooted_iff.mp (finish_eq_ok_iff.mp h).2 p)
    | error e' =>
      obtain ⟨p', hp', he', hfirst'⟩ := exists_orphan_of_finish h
      have ho' := ((orphan_eq_some_iff hp').mp he').1
      have hpp : p = p' := Nat.le_antisymm (Nat.not_lt.mp fun hlt => hfirst _ hlt ho')
        (Nat.not_lt.mp fun hlt => hfirst' _ hlt ho)
      subst hpp
      rw [(orphan_eq_some_iff hp').mpr ⟨ho, he⟩, Option.some.injEq] at he'
      rw [he']

/-! ### At every moment -/

/-- **Every list of actions keeps the rules,** whether or not its actions are refused: the parts of the
bigraph fit together over the signature given at the beginning, no place lies above itself, and the
walk up from a place meets what is above it. A register asks only its own tables, and yet gives the
answers of the construction and lists its places. So the construction can be finished as soon as every
node and every site has a parent, and what is handed out is the bigraph as it is. -/
theorem run_keeps_rules (s : Signature) (actions : List Action) :
    let c := (Construction.new s).run actions
    let r := (Register.new s).run actions
    c.graph.WellFormed ∧ c.graph.signature = s ∧ c.graph.Listed ∧
      (∀ p, ¬ c.graph.Above p p) ∧ (∀ a p, c.graph.isAncestor a p ↔ c.graph.Above a p) ∧
      (r.construction = c ∧ r.Faithful ∧
        (Register.new s).answers actions = (Construction.new s).answers actions ∧
        r.sortedRoots = c.graph.roots ∧ r.sortedSites = c.graph.sites ∧ r.nodes = c.graph.nodes) ∧
      (∀ g, c.finish = .ok g ↔ c.graph = g ∧ ∀ p, ¬ c.graph.IsOrphan p) ∧
      ∀ e, c.finish = .error e ↔ ∃ p, c.graph.IsOrphan p ∧ (∀ a < p, ¬ c.graph.IsOrphan a) ∧
        ((∃ i, c.graph.siteIndex p = some i ∧ e = .orphanSite i) ∨
          ∃ t, c.graph.label p = some t ∧ e = .orphanNode t) := by
  intro c r
  have hg : c.graph.WellFormed := wellFormed_run (WellFormed.empty s) actions
  obtain ⟨hconstruction, hanswers, hfaithful⟩ :=
    Register.agrees_run (Register.faithful_new s) (WellFormed.empty s) actions
  have hgraph : r.graph = c.graph := congrArg Construction.graph hconstruction
  refine ⟨hg, signature_run actions, hg.listed, hg.not_above_self, fun _ _ => hg.isAncestor_iff,
    ⟨hconstruction, hfaithful, hanswers, ?_, ?_, ?_⟩, fun g => ?_, fun e => finish_eq_error_iff⟩
  · rw [hfaithful.sortedRoots, ← hgraph]
  · rw [hfaithful.sortedSites, ← hgraph]
  · rw [hfaithful.nodes, ← hgraph, Bigraph.nodes]
  · rw [finish_eq_ok_iff, rooted_iff]

end Construction

end Bigraphs
