import Bigraphs.Proofs.Graph.Renumbering
import Bigraphs.Proofs.Matching.LinkRoundTrip
import Bigraphs.Proofs.Matching.PlaceRoundTrip

/-! # What the pieces tell

Two decompositions of one agent have the same content if their contexts, and their parameters in order,
are the same but for the numbers of places, links and inner names (`SameContent`). The content tells
where the hosts are (`hosts_eq`), which nodes are matched (`matched_iff`), the image of a redex node with a
site if something unmatched hangs below it (`image_of_unmatched`), and what answers for a redex link that
is an outer name (`answer_of_outer`) or has an inner name with a port of a parameter on it
(`answer_of_seen`). -/

namespace Bigraphs

namespace Bigraph

theorem WellFormed.key_inj {g : Bigraph} (hg : g.WellFormed) {p p' : PlaceId} {k : PlaceKey}
    (h : g.key p = some k) (h' : g.key p' = some k) : p = p' := by
  have hcases : ∀ {p : PlaceId}, g.key p = some k →
      (∃ i, g.rootIndex p = some i ∧ k = .root i) ∨ ∃ s, g.label p = some s ∧ k = .node s := by
    intro p h
    unfold key at h
    cases hr : g.rootIndex p with
    | some i => exact Or.inl ⟨i, rfl, by simpa [hr] using h.symm⟩
    | none =>
      rw [hr, Option.map_none, Option.none_or, Option.map_eq_some_iff] at h
      obtain ⟨s, hs, rfl⟩ := h
      exact Or.inr ⟨s, hs, rfl⟩
  obtain ⟨i, hi, rfl⟩ | ⟨s, hs, rfl⟩ := hcases h
  · obtain ⟨j, hj, heq⟩ | ⟨s, -, heq⟩ := hcases h'
    · cases heq
      exact hg.rootIndex_inj hi hj
    · cases heq
  · obtain ⟨j, -, heq⟩ | ⟨t, ht, heq⟩ := hcases h'
    · cases heq
    · cases heq
      exact hg.label_inj hs ht

namespace Renumbering

variable {g g' : Bigraph} (f : Renumbering g g')

theorem key_eq (p : PlaceId) : g'.key (f.place p) = g.key p := by
  rw [key, key, f.rootIndex_eq, f.label_eq]

/-- An inner name goes to the same link. -/
theorem innerTo {s : String} {k : LinkId} (h : g.InnerTo s k) : g'.InnerTo s (f.link k) := by
  obtain ⟨n, hn, hname, hlink⟩ := h
  have hinner := f.inner_eq n
  rw [Array.getElem?_eq_getElem hn, Option.map_some] at hinner
  refine ⟨f.inner n, (Array.getElem?_eq_some_iff.mp hinner).1, ?_, ?_⟩
  · unfold innerName at hname ⊢
    rw [hinner]
    rw [Array.getElem?_eq_getElem hn] at hname
    exact hname
  · exact f.innerLink_iff.mpr hlink

end Renumbering

end Bigraph

open Bigraph

/-- **The pieces are the same by content:** labels, controls, nesting, indices, links and names. -/
structure SameContent (pieces pieces' : Decomposition) : Prop where
  context : Nonempty (Renumbering pieces.context pieces'.context)
  parameters : List.Forall₂ (fun P P' => Nonempty (Renumbering P P')) pieces.parameters
    pieces'.parameters

theorem SameContent.symm {pieces pieces' : Decomposition} (h : SameContent pieces pieces') :
    SameContent pieces' pieces where
  context := h.context.map (·.symm)
  parameters := (h.parameters.imp fun _ _ hP => hP.map (·.symm)).flip

/-- The parameter at a position has a counterpart. -/
theorem SameContent.parameter {pieces pieces' : Decomposition} (h : SameContent pieces pieces')
    {j : Nat} {P : Bigraph} (hP : pieces.parameters[j]? = some P) :
    ∃ P', pieces'.parameters[j]? = some P' ∧ Nonempty (Renumbering P P') := by
  obtain ⟨hj, rfl⟩ := List.getElem?_eq_some_iff.mp hP
  have hj' := hj
  rw [h.parameters.length_eq] at hj'
  exact ⟨_, List.getElem?_eq_getElem hj', h.parameters.get hj hj'⟩

namespace Problem

/-- A port in a parameter is under an inner name of the redex link `l`. -/
def Seen (q : Problem) (pieces : Decomposition) (l : LinkId) : Prop :=
  ∃ (j : Nat) (P : Bigraph) (n : PlaceId) (i : Nat) (k : LinkId) (s : String),
    pieces.parameters[j]? = some P ∧ P.portLink n i = some k ∧ P.linkKind k = some (.outer s) ∧
      q.redex.InnerTo s l

variable {q : Problem} {hosts hosts' : List PlaceId} {m m' : Mapping}
  {pieces pieces' : Decomposition} {context context' : Copy} {parts parts' : List Part}
  {b b' : Border}

/-! ### Where a label is -/

section Labels
variable (hq : q.Proper) (ha : q.Anatomy hosts m pieces context parts b) {v : PlaceId} {s : String}
include hq ha

theorem label_context_iff (hv : q.agent.label v = some s) :
    (∃ n, pieces.context.label n = some s) ↔ v ∈ q.contextRegion m := by
  obtain ⟨holes, hshows, -⟩ := ha.context.shows
  rw [ha.context_eq]
  constructor
  · rintro ⟨n, hn⟩
    exact (ha.context.covers v).mp ⟨n, mem_places_of_label hshows.places hq.agent hn hv⟩
  · intro h
    obtain ⟨n, hn⟩ := (ha.context.covers v).mpr h
    exact ⟨n, (label_of_bare (hshows.places.bare_eq hn)).trans hv⟩

theorem label_parameter_iff {j : Nat} {P : Bigraph} {part : Part}
    (hP : pieces.parameters[j]? = some P) (hpart : parts[j]? = some part)
    (hv : q.agent.label v = some s) : (∃ n, P.label n = some s) ↔ v ∈ part.region := by
  obtain ⟨part', c, hpart', rfl, -, hcov, hshows⟩ := parameter_spec hq ha hP
  rw [hpart, Option.some.injEq] at hpart'
  subst hpart'
  constructor
  · rintro ⟨n, hn⟩
    exact (hcov v).mp ⟨n, mem_places_of_label hshows hq.agent hn hv⟩
  · intro h
    obtain ⟨n, hn⟩ := (hcov v).mpr h
    exact ⟨n, (label_of_bare (hshows.bare_eq hn)).trans hv⟩

end Labels

section Same
variable (hq : q.Proper) (ho : q.Occurs hosts m) (ho' : q.Occurs hosts' m')
  (ha : q.Anatomy hosts m pieces context parts b)
  (ha' : q.Anatomy hosts' m' pieces' context' parts' b') (hsame : SameContent pieces pieces')
include hq ho ho' ha ha' hsame

/-! ### Matched nodes -/

omit ho ho' in
theorem mem_contextRegion_of_same {v : PlaceId} (hn : q.agent.isNode v)
    (hv : v ∈ q.contextRegion m) : v ∈ q.contextRegion m' := by
  obtain ⟨f⟩ := hsame.context
  obtain ⟨d, hd⟩ := Option.isSome_iff_exists.mp hn
  have hlabel : q.agent.label v = some d.label := label_eq_some_iff.mpr ⟨d, hd, rfl⟩
  obtain ⟨n, hn⟩ := (label_context_iff hq ha hlabel).mpr hv
  exact (label_context_iff hq ha' hlabel).mp ⟨f.place n, (f.label_eq n).trans hn⟩

omit ho ho' in
theorem mem_region_of_same {j : Nat} {part : Part} (hpart : parts[j]? = some part) {v : PlaceId}
    (hn : q.agent.isNode v) (hv : v ∈ part.region) :
    ∃ part', parts'[j]? = some part' ∧ v ∈ part'.region := by
  obtain ⟨b₀, -, -, hparts⟩ := ha.parts
  have hlt : j < pieces.parameters.length := by
    rw [ha.length_parameters, ← hparts.length_eq]
    exact (List.getElem?_eq_some_iff.mp hpart).1
  have hP := List.getElem?_eq_getElem hlt
  obtain ⟨P', hP', ⟨f⟩⟩ := hsame.parameter hP
  obtain ⟨part', -, hpart', -⟩ := parameter_spec hq ha' hP'
  obtain ⟨d, hd⟩ := Option.isSome_iff_exists.mp hn
  have hlabel : q.agent.label v = some d.label := label_eq_some_iff.mpr ⟨d, hd, rfl⟩
  obtain ⟨n, hn⟩ := (label_parameter_iff hq ha hP hpart hlabel).mpr hv
  exact ⟨part', hpart', (label_parameter_iff hq ha' hP' hpart' hlabel).mp
    ⟨f.place n, (f.label_eq n).trans hn⟩⟩

theorem matched_of_same {v : PlaceId} (h : Matched m v) : Matched m' v := by
  obtain ⟨x, hx⟩ := h
  have hn := ho.isNode_snd hx
  rcases region_cases hq ho' (lt_of_isNode hn) with hc | hm | ⟨x', y', hm', hv⟩
  · have hc := mem_contextRegion_of_same hq ha' ha hsame.symm hn hc
    exact absurd ⟨x, hx⟩ (((mem_contextRegion hq ho).mp hc).2 v .refl)
  · exact hm
  · obtain ⟨j, -, -, part', -, hpart', -, -, hr⟩ := exists_parameter hq ho' ha' hm' hv
    rw [← hr] at hv
    obtain ⟨part, hpart, hv⟩ := mem_region_of_same hq ha' ha hsame.symm hpart' hn hv
    exact absurd ⟨x, hx⟩ (not_matched_of_mem_region hq ho ha hpart hv).1

/-- **The same nodes are matched.** -/
theorem matched_iff (v : PlaceId) : Matched m v ↔ Matched m' v :=
  ⟨matched_of_same hq ho ho' ha ha' hsame, matched_of_same hq ho' ho ha' ha hsame.symm⟩

/-! ### Hosts -/

/-- **The hosts are the same.** -/
theorem hosts_eq : hosts = hosts' := by
  obtain ⟨f⟩ := hsame.context
  have hlen := ho.length_hosts
  have hlen' := ho'.length_hosts
  refine List.ext_getElem (hlen.trans hlen'.symm) fun p hp hp' => ?_
  have hr := List.getElem?_eq_getElem (hlen ▸ hp : p < q.redex.roots.length)
  obtain ⟨i, hi⟩ := Option.isSome_iff_exists.mp (mem_roots.mp (List.mem_of_getElem? hr))
  obtain ⟨s, hs⟩ := (site_indices ha hlen i).mpr ⟨_, hi⟩
  obtain ⟨n, k, hn, hk, hh⟩ := site_below_host hq ho ha hr hi (List.getElem?_eq_getElem hp) hs
  obtain ⟨n', k', hn', hk', hh'⟩ := site_below_host hq ho' ha' hr hi (List.getElem?_eq_getElem hp')
    ((f.siteIndex_eq s).trans hs)
  rw [f.parent_eq, hn, Option.map_some, Option.some.injEq] at hn'
  rw [← hn', f.key_eq, hk, Option.some.injEq] at hk'
  rw [← hk'] at hh'
  exact hq.agent.key_inj hh hh'

/-! ### Images above something unmatched -/

/-- **A redex node above a site has the same image** if something unmatched hangs below it. -/
theorem image_of_unmatched {x y c : PlaceId} (hm : (x, y) ∈ m) (hc : q.agent.parent c = some y)
    (hn : ¬ Matched m c) : (x, y) ∈ m' := by
  have hregion : c ∈ q.regionBelow m y := (mem_regionBelow hq).mpr ⟨c, hc, hn, .refl⟩
  have hnode := isNode_of_region hq hregion
  obtain ⟨j, -, s, part, -, hpart, hs, hsx, hr⟩ := exists_parameter hq ho ha hm hregion
  rw [← hr] at hregion
  obtain ⟨part', hpart', hregion'⟩ := mem_region_of_same hq ha ha' hsame hpart hnode hregion
  obtain ⟨s', hs', ⟨x', y', hsx', hm', -, hr'⟩ | hr', -⟩ := part_spec hq ha' hpart'
  · rw [hs, Option.some.injEq] at hs'
    subst hs'
    rw [hsx, Option.some.injEq] at hsx'
    subst hsx'
    rw [hr'] at hregion'
    obtain ⟨d, hd, hdn, hdc⟩ := (mem_regionBelow hq).mp hregion'
    rcases aboveEq_iff.mp hdc with rfl | hdc
    · rw [hc, Option.some.injEq] at hd
      rwa [hd]
    · -- the place above `c` is matched, so it cannot be below an unmatched child
      have hy := matched_of_same hq ho ho' ha ha' hsame ⟨x, hm⟩
      exact absurd (matched_between hq ho' hm' (.single hd) ((above_iff_of_parent hc).mp hdc) hy) hdn
  · rw [hr'] at hregion'
    simp at hregion'

/-! ### Answers -/

omit ho' in
/-- **An outer name of the redex** is answered for by the same link. -/
theorem answer_of_outer {l a : LinkId} {s : String} (hl : q.redex.linkKind l = some (.outer s))
    (hans : q.answer m l = some a) : q.answer m' l = some a := by
  obtain ⟨f⟩ := hsame.context
  obtain ⟨k, hk, hak⟩ := exists_innerTo_context ha (mem_contextNames.mpr (Or.inl ⟨l, hl, hans⟩))
  obtain ⟨a', hnames, hak'⟩ := (innerTo_context ha').mp (f.innerTo hk)
  have hkind : q.agent.linkKind a = q.agent.linkKind a' := by
    rw [← linkKind_context ha hak, ← linkKind_context ha' hak', f.linkKind_eq]
  obtain ⟨kind, hsome⟩ := exists_linkKind (lt_of_answer hq ho hans)
  rcases mem_contextNames.mp hnames with ⟨l', hl', hans'⟩ | hfresh
  · rw [hq.redex.linkKind_inj hl hl', hans', hq.agent.linkKind_inj hsome (hkind ▸ hsome)]
  · exact absurd (mem_redexNames_of_outer hl)
      (ha'.border.fresh_new s (List.mem_map.mpr ⟨_, hfresh, rfl⟩))

/-- **A redex link that is seen** is answered for by the same link. -/
theorem answer_of_seen {l : LinkId} (hl : q.Seen pieces l) : q.answer m' l = q.answer m l := by
  obtain ⟨j, P, n, i, k, s, hP, hk, hkind, hs⟩ := hl
  obtain ⟨P', hP', ⟨f⟩⟩ := hsame.parameter hP
  obtain ⟨part, c, -, rfl, -, -, hshows⟩ := parameter_spec hq ha hP
  obtain ⟨v, hv⟩ := hshows.of_node (isNode_of_portLink hk)
  obtain ⟨t, hvt, hnt⟩ := exists_label_of_port hshows hv hk
  have hat : PortAt q m pieces v i (.parameter j k) := .parameter hP hvt hnt hk
  have hat' : PortAt q m' pieces' v i (.parameter j (f.link k)) :=
    .parameter hP' hvt ((f.label_eq n).trans hnt) (f.portLink_iff.mpr hk)
  obtain ⟨a, hva, hmeans⟩ := hat.means hq ho ha
  obtain ⟨a', hva', hmeans'⟩ := hat'.means hq ho' ha'
  rw [hva, Option.some.injEq] at hva'
  subst hva'
  rw [means_parameter_outer hq ha hP hkind, stands_of_innerTo hq ho ha hs] at hmeans
  rw [means_parameter_outer hq ha' hP' ((f.linkKind_eq k).trans hkind),
    stands_of_innerTo hq ho' ha' hs] at hmeans'
  rw [hmeans, hmeans']

end Same

end Problem

end Bigraphs
