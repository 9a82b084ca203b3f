import Bigraphs.Proofs.Matching.LinkRoundTrip

/-! # Closed links stay inside

A redex edge is answered for by one agent link. If the edge has no inner name, that link is an edge with
all its ports on matched nodes, so nothing of it is left for the context or a parameter
(`closed_inside`): no name of the context goes to it, since an outer name of the redex answers elsewhere
and a fresh name stands for a link with a port in some parameter (`exists_port_of_fresh`).

An edge with an inner name is treated like an outer name: any agent link with enough ports answers for
it, which may be an outer name, or have ports in the context. What is left of the link in a parameter has
a name that stands for it (`answered`), but the name need not be one of the redex edge. -/

namespace Bigraphs

namespace Problem

open Bigraph

/-- The agent link `a` answers for the redex link `l`; what a parameter has of it is named. -/
structure Answered (q : Problem) (m : Mapping) (pieces : Decomposition) (l a : LinkId) : Prop where
  images : ∀ x y i, (x, y) ∈ m → q.redex.portLink x i = some l → q.agent.portLink y i = some a
  enough_ports : q.redex.portCount l ≤ q.agent.portCount a
  named : ∀ v i j k, q.agent.portLink v i = some a → PortAt q m pieces v i (.parameter j k) →
    ∃ P s, pieces.parameters[j]? = some P ∧ P.linkKind k = some (.outer s) ∧
      ((∃ l', q.redex.InnerTo s l' ∧ q.linkImage m l' = .ok (some a)) ∨
        s ∈ pieces.freshNames ∧ ∃ c, pieces.context.InnerTo s c ∧
          pieces.context.linkKind c = q.agent.linkKind a)

/-- **The agent link `a` is taken up by the redex link `l`:** it is an edge whose ports are the images of
those of `l`, and a copy of it in the context would have neither ports nor inner names. -/
structure TakenUp (q : Problem) (m : Mapping) (pieces : Decomposition) (l a : LinkId) : Prop where
  is_edge : q.agent.isEdge a
  ports : ∀ v i, q.agent.portLink v i = some a ↔ ∃ x, (x, v) ∈ m ∧ q.redex.portLink x i = some l
  inside : ∀ v i y, q.agent.portLink v i = some a → PortAt q m pieces v i y → y = .redex l
  not_in_context : ∀ k, pieces.context.linkKind k = q.agent.linkKind a →
    pieces.context.points k = []

variable {q : Problem} {hosts : List PlaceId} {m : Mapping} {pieces : Decomposition}
  {context : Copy} {parts : List Part} {b : Border}

section ClosedLinks
variable (hq : q.Proper) (ho : q.Occurs hosts m)
  (ha : q.Anatomy hosts m pieces context parts b)
include hq ho ha

/-- The link that a fresh name stands for has a port in some parameter. -/
theorem exists_port_of_fresh {s : String} {a : LinkId} (h : (s, a) ∈ b.fresh) :
    ∃ (j : Nat) (part : Part) (v : PlaceId) (i : Nat), parts[j]? = some part ∧ v ∈ part.region ∧
      q.agent.portLink v i = some a := by
  obtain ⟨b₀, hfresh₀, hplaced₀, hparts⟩ := ha.parts
  have hused : UsedAt b s := Or.inr (List.mem_map.mpr ⟨_, h, rfl⟩)
  obtain hused₀ | ⟨part, hmem, l, hl⟩ := (hparts.used_iff s).mp hused
  · unfold UsedAt at hused₀
    simp [hfresh₀, hplaced₀] at hused₀
  obtain ⟨j, hj⟩ := List.mem_iff_getElem?.mp hmem
  have hlt : j < q.redex.sites.length := by
    rw [← hparts.length_eq]
    exact (List.getElem?_eq_some_iff.mp hj).1
  obtain ⟨content, b₁, b₂, -, hok, hfresh, -⟩ := hparts.get (List.getElem?_eq_getElem hlt) hj
  have hout : ¬ q.IsInternal part.region l := fun hi => by cases hok.kinds.internal l _ hl hi
  obtain ⟨t, ht, hstands, -⟩ := hok.kinds.leaving l _ hl hout
  cases ht
  have hla : l = a := (stands_of_fresh hq ho ha h).mp (hstands.mono hfresh)
  rw [hla] at hl
  obtain ⟨v, hv, hports⟩ := List.mem_flatMap.mp
    (List.mem_eraseDups.mp ((hok.kinds.covers a).mp ⟨_, hl⟩))
  obtain ⟨i, hi⟩ := List.mem_iff_getElem?.mp hports
  exact ⟨j, part, v, i, hj, hv, hi⟩

/-- **A redex link with a port is answered for** by one agent link, and what a parameter has of that link
is named there. -/
theorem answered {l : LinkId} (hp : ∃ x i, q.redex.portLink x i = some l) :
    ∃ a, q.Answered m pieces l a := by
  obtain ⟨x₀, i₀, hl₀⟩ := hp
  obtain ⟨y₀, hm₀⟩ := ho.exists_image (isNode_of_portLink hl₀)
  obtain ⟨a, ha₀⟩ := ho.exists_portLink hm₀ hl₀
  have himages : ∀ x y i, (x, y) ∈ m → q.redex.portLink x i = some l →
      q.agent.portLink y i = some a :=
    fun x y i hm hl => by rw [ho.links x y i x₀ y₀ i₀ l hm hm₀ hl hl₀, ha₀]
  refine ⟨a, himages, ?_, fun v i j k hva hx => ?_⟩
  · have hlen := (ho.portImages_subperm hq himages).length_le
    rwa [List.length_map, ← List.countP_eq_length_filter, ← List.countP_eq_length_filter,
      ← portCount_eq, ← portCount_eq] at hlen
  · obtain ⟨part, n, hpart, hn, hk⟩ := (portAt_parameter hq ha).mp hx
    obtain ⟨-, -, -, -, hcov, hshows⟩ := part_spec hq ha hpart
    obtain ⟨a', hva', hlink⟩ := (hshows.portLink_spec hn i).2 k hk
    have haa : some a = some a' := hva.symm.trans hva'
    cases haa
    have hlt : j < pieces.parameters.length := by
      obtain ⟨b₀, -, -, hparts⟩ := ha.parts
      rw [ha.length_parameters, ← hparts.length_eq]
      exact (List.getElem?_eq_some_iff.mp hpart).1
    have hP := List.getElem?_eq_getElem hlt
    rcases parameter_link hq ha hP hpart hlink with ⟨hin, -⟩ | ⟨-, s, hs, hanswers | hfresh⟩
    · -- the link has a matched port, so it leaves the parameter
      obtain ⟨part', hpart', -, hnot, -⟩ := hx.of_parameter hq ho ha
      rw [hpart, Option.some.injEq] at hpart'
      subst hpart'
      exact absurd ⟨x₀, hm₀⟩
        (not_matched_of_mem_region hq ho ha hpart (hin.2 y₀ i₀ ha₀)).1
    · obtain ⟨l', hl', hans⟩ := (answers_iff hq ho).mp hanswers
      exact ⟨_, s, hP, hs, Or.inl ⟨l', hl', by rw [linkImage_eq hq ho, hans]⟩⟩
    · obtain ⟨c, hc, hac⟩ := exists_innerTo_context ha (mem_contextNames.mpr (Or.inr hfresh))
      refine ⟨_, s, hP, hs, Or.inr ⟨?_, c, hc, linkKind_context ha hac⟩⟩
      rw [ha.fresh_eq]
      exact List.mem_map.mpr ⟨_, hfresh, rfl⟩

/-- No inner name of the context goes to a link that is taken up. -/
theorem not_named_of_exact {l a : LinkId} (he : q.redex.isEdge l) (hea : q.agent.isEdge a)
    (hports : ∀ v i, q.agent.portLink v i = some a ↔
      ∃ x, (x, v) ∈ m ∧ q.redex.portLink x i = some l) (s : String) :
    (s, some a) ∉ q.contextNames m b := by
  intro hs
  rcases mem_contextNames.mp hs with ⟨l', hl', hans⟩ | hfresh
  · obtain ⟨r, hr, -, hport, hidle⟩ := linkImage_spec hq ho l'
    rw [linkImage_eq hq ho, Except.ok.injEq, hans] at hr
    obtain ⟨t, ht⟩ := isEdge_iff.mp hea
    by_cases hp : ∃ x i, q.redex.portLink x i = some l'
    · -- a port of the outer name would have its image among those of the edge
      obtain ⟨x, i, hxl'⟩ := hp
      obtain ⟨y, hm⟩ := ho.exists_image (isNode_of_portLink hxl')
      obtain ⟨x', hm', hxl⟩ := (hports y i).mp (by rw [hport x y i hm hxl', hr])
      rw [ho.node_unique hm' hm, hxl', Option.some.injEq] at hxl
      subst hxl
      obtain ⟨u, hu⟩ := isEdge_iff.mp he
      rw [hl'] at hu
      cases hu
    · have hr' := hidle fun x i hxl => hp ⟨x, i, hxl⟩
      have hedge : q.redex.isEdge l' = false := by
        rw [isEdge, hl']; rfl
      rw [hedge, if_neg Bool.false_ne_true, ← hr, eq_comm, outerNamed_eq_some_iff hq.agent, ht] at hr'
      cases hr'
  · obtain ⟨j, part, v, i, hj, hv, hi⟩ := exists_port_of_fresh hq ho ha hfresh
    obtain ⟨x, hm, -⟩ := (hports v i).mp hi
    exact absurd ⟨x, hm⟩ (not_matched_of_mem_region hq ho ha hj hv).1

/-- **A closed redex edge stays inside:** it takes up the agent edge that answers for it. -/
theorem closed_inside {l a : LinkId} (hans : q.Answered m pieces l a) (he : q.redex.isEdge l)
    (hp : ∃ x i, q.redex.portLink x i = some l) (hn : ∀ n, q.redex.innerLink n ≠ some l) :
    q.TakenUp m pieces l a := by
  obtain ⟨a', hea, hports⟩ := ho.exists_exact_edge hq he hn hp
  obtain ⟨x₀, i₀, hl₀⟩ := hp
  obtain ⟨y₀, hm₀⟩ := ho.exists_image (isNode_of_portLink hl₀)
  have hy₀ := hans.images x₀ y₀ i₀ hm₀ hl₀
  have haa := (hports y₀ i₀).mpr ⟨x₀, hm₀, hl₀⟩
  rw [hy₀, Option.some.injEq] at haa
  subst haa
  have hinside := (PortAt.inside_of_redex hq ho ha hm₀ hl₀ hy₀ he hn).2
  refine ⟨hea, hports, hinside, fun k hk => List.eq_nil_iff_forall_not_mem.mpr fun z hz => ?_⟩
  -- the copy is that of `a`, since labels tell edges apart
  obtain ⟨holes, hshows, -⟩ := ha.context.shows
  have hwf : pieces.context.WellFormed := by rw [ha.context_eq]; exact hshows.wellFormed
  have hlt : k < context.target.graph.links.size := by
    rw [← ha.context_eq]
    exact lt_of_mem_points hz
  obtain ⟨a', hcopy⟩ := hshows.links.of_link hlt
  obtain ⟨t, ht⟩ := isEdge_iff.mp hea
  have ha' : a' = a := by
    rw [linkKind_context ha hcopy, ht] at hk
    exact hq.agent.linkKind_inj hk ht
  subst ha'
  cases z with
  | port n i =>
    have hnk := hwf.mem_points_port.mp hz
    rw [ha.context_eq] at hnk
    obtain ⟨v, hv⟩ := hshows.places.of_node (isNode_of_portLink hnk)
    obtain ⟨a'', hva, hcopy'⟩ := (hshows.portLink_spec hv i).2 k hnk
    rw [hshows.original_unique hcopy' hcopy] at hva
    have hat := (portAt_context hq ha).mpr ⟨n, hv, hnk⟩
    cases hinside v i _ hva hat
  | inner n =>
    have hnk := hwf.mem_points_inner.mp hz
    have hnlt : n < pieces.context.innerNames.size := by
      by_contra hge
      rw [innerLink, Array.getElem?_eq_none (Nat.not_lt.mp hge)] at hnk
      cases hnk
    obtain ⟨a'', hnames, hcopy'⟩ := (innerTo_context ha).mp ⟨n, hnlt, rfl, hnk⟩
    rw [hshows.original_unique hcopy' hcopy] at hnames
    exact not_named_of_exact hq ho ha he hea hports _ hnames

end ClosedLinks

end Problem

/-! ### The result -/

/-- **No closed link leaks** into the context or into a parameter, in anything that is yielded: each
redex edge with a port is answered for by one agent link, and it takes up that link if it has no inner
name. -/
theorem Matches.occurrences_closed_links (config : MatchConfig) {agent redex : Bigraph}
    (ha : agent.Constructible) (hr : redex.Constructible)
    (hs : agent.signature = redex.signature) (hg : agent.isGround = true) :
    ∃ ms, Matches.of config agent redex = .ok ms ∧ ∀ o ∈ ms.occurrences.toList,
      ∀ l, redex.isEdge l → (∃ x i, redex.portLink x i = some l) →
        ∃ a, ms.problem.Answered o.mapping o.pieces l a ∧
          ((∀ n, redex.innerLink n ≠ some l) → ms.problem.TakenUp o.mapping o.pieces l a) := by
  refine ⟨_, of_eq_ok hs hg, fun o ho l he hp => ?_⟩
  have hq := proper_of_constructible ha hr hs hg
  obtain ⟨-, hocc, context, parts, b, hanatomy⟩ := anatomy_of_mem_occurrences hq ho
  obtain ⟨a, hans⟩ := Problem.answered hq hocc hanatomy hp
  exact ⟨a, hans, fun hn => Problem.closed_inside hq hocc hanatomy hans he hp hn⟩

/-- Two rooms on one corridor, with a person in each, linked to one another and to nobody else. -/
def linkedRooms : Bigraph :=
  ((Construction.new building).run [.root 0, .node "Room" "r", .nest 1 0, .node "Room" "t",
    .nest 2 0, .node "Person" "p", .nest 3 1, .node "Person" "q", .nest 4 2, .edge "f",
    .connect 3 0, .connect 4 0, .outer "door", .connect 1 1, .connect 2 1]).graph

theorem constructible_linkedRooms : linkedRooms.Constructible :=
  Bigraph.constructible_run (by decide +kernel)

theorem occurrences_closed_links_twoRooms : twoRooms.Constructible ∧ linkedRooms.Constructible ∧
    twoRooms.signature = linkedRooms.signature ∧ twoRooms.isGround = true ∧
    numberOfOccurrences {} twoRooms linkedRooms = 1 ∧ linkedRooms.isEdge 0 ∧
    linkedRooms.portLink 3 0 = some 0 ∧ linkedRooms.innerNames.size = 0 ∧
    ∃ ms, Matches.of {} twoRooms linkedRooms = .ok ms ∧ ∀ o ∈ ms.occurrences.toList,
      ∀ l, linkedRooms.isEdge l → (∃ x i, linkedRooms.portLink x i = some l) →
        ∃ a, ms.problem.Answered o.mapping o.pieces l a ∧
          ((∀ n, linkedRooms.innerLink n ≠ some l) → ms.problem.TakenUp o.mapping o.pieces l a) :=
  ⟨constructible_twoRooms, constructible_linkedRooms, rfl, by decide, by decide +kernel,
    by decide +kernel, by decide +kernel, by decide +kernel,
    Matches.occurrences_closed_links {} constructible_twoRooms constructible_linkedRooms rfl
      (by decide)⟩

/-! ### An edge with an inner name -/

/-- A room on the corridor. -/
def roomOnCorridor : Bigraph :=
  ((Construction.new building).run [.root 0, .node "Room" "a", .nest 1 0, .outer "corridor",
    .connect 1 0]).graph

/-- A room with whatever it holds, on an edge that this may be on too. -/
def closedRoom : Bigraph :=
  ((Construction.new building).run [.root 0, .node "Room" "r", .nest 1 0, .site 0, .nest 2 1,
    .edge "e", .connect 1 0, .inner "x", .wire 0 0]).graph

theorem isGround_roomOnCorridor : roomOnCorridor.isGround = true := by decide +kernel

/-- An outer name of the agent answers for a redex edge with an inner name, and is not in the context. -/
theorem outer_name_answers_closedRoom : roomOnCorridor.Constructible ∧ closedRoom.Constructible ∧
    ∃ ms, Matches.of {} roomOnCorridor closedRoom = .ok ms ∧ ∃ o ∈ ms.occurrences.toList,
      closedRoom.isEdge 0 ∧ closedRoom.portLink 1 0 = some 0 ∧ o.mapping = [(1, 1)] ∧
      roomOnCorridor.portLink 1 0 = some 0 ∧
      roomOnCorridor.linkKind 0 = some (.outer "corridor") ∧ o.pieces.context.links = #[] := by
  let ms := (Problem.mk roomOnCorridor closedRoom isGround_roomOnCorridor).toMatches {}
  have hmem : ([(1, 1)], #[]) ∈
      ms.occurrences.toList.map fun o => (o.mapping, o.pieces.context.links) := by decide +kernel
  have hsignature : roomOnCorridor.signature = closedRoom.signature := rfl
  obtain ⟨o, ho, hpair⟩ := List.mem_map.mp hmem
  obtain ⟨hmapping, hlinks⟩ := Prod.mk.inj hpair
  exact ⟨Bigraph.constructible_run (by decide +kernel), Bigraph.constructible_run (by decide +kernel),
    ms, Matches.of_eq_ok hsignature isGround_roomOnCorridor, o, ho, by decide +kernel, by decide +kernel, hmapping,
    by decide +kernel, by decide +kernel, hlinks⟩

end Bigraphs
