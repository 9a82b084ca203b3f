import Bigraphs.Proofs.Construction.Identity
import Bigraphs.Proofs.Graph.Listing
import Bigraphs.Proofs.Matching.LinkRoundTrip
import Bigraphs.Proofs.Matching.PlaceRoundTrip

/-! # The interfaces of the pieces

The outer names of the parameters are the inner names of the redex and the fresh names, each on one
parameter (`names_perm`), and the inner names of the context are the outer names of the redex and the
fresh names. So the parameters can be plugged into the redex beside the identity on the fresh names, and
the result into the context (`occurrences_interfaces`).

What a parameter takes is what the border has given away while it was copied (`mem_namesOut_part`); the
border never gives a name twice, so the names add up along the parameters by one induction
(`PartsOk.namesOut_spec`). The inner names that no link took are on the first parameter. -/

namespace Bigraphs

namespace Bigraph

variable {g : Bigraph}

theorem namesIn_eq_map : g.namesIn = g.innerNames.toList.map (·.name) := by
  unfold namesIn innerIds
  refine List.ext_getElem (by simp) fun i hi hi' => ?_
  have hlt : i < g.innerNames.size := by simpa using hi'
  simp [innerName, Array.getElem?_eq_getElem hlt]

theorem namesOut_addLink (s : String) : (g.addLink (.outer s)).namesOut = g.namesOut ++ [s] := by
  have hview : ∀ l ∈ List.range g.links.size, (g.addLink (.outer s)).linkKind l = g.linkKind l := by
    intro l hl
    rw [linkKind_addLink, if_neg (Nat.ne_of_lt (List.mem_range.mp hl))]
  have hlast : (g.addLink (.outer s)).linkKind g.links.size = some (.outer s) := by
    rw [linkKind_addLink, if_pos rfl]
  unfold namesOut outerNames linkIds
  rw [size_addLink, List.range_succ, List.filter_append, List.map_append]
  congr 1
  · rw [List.filter_congr fun l hl => by rw [isEdge, hview l hl, ← isEdge]]
    refine List.map_congr_left fun l hl => ?_
    rw [linkName, hview l (List.mem_filter.mp hl).1, ← linkName]
  · rw [List.filter_singleton, isEdge, hlast]
    exact congrArg (· :: []) (linkName_of_linkKind hlast)

theorem namesOut_addOuters (names : List String) :
    (g.addOuters names).namesOut = g.namesOut ++ names := by
  unfold addOuters
  induction names generalizing g with
  | nil => rw [List.append_nil]; rfl
  | cons s names ih => rw [List.foldl_cons, ih, namesOut_addLink, List.append_assoc]; rfl

theorem innerNames_addOuters (names : List String) :
    (g.addOuters names).innerNames = g.innerNames := by
  unfold addOuters
  induction names generalizing g with
  | nil => rfl
  | cons s names ih => exact ih

end Bigraph

namespace Problem

open Bigraph

/-- **The interfaces of the pieces fit together:** the parameters into the redex beside the identity,
and these into the context. -/
structure Composable (q : Problem) (pieces : Decomposition) (identity : Bigraph) : Prop where
  one_per_site : pieces.parameters.length = q.redex.sites.length
  one_root : ∀ P ∈ pieces.parameters, ∃ r, P.roots = [r] ∧ P.rootIndex r = some 0
  ground : ∀ P ∈ pieces.parameters, P.sites = [] ∧ P.innerNames.size = 0
  disjoint : pieces.parameters.Pairwise fun P P' => P.namesOut.Disjoint P'.namesOut
  parameter_names :
    (pieces.parameters.flatMap namesOut).Perm (q.redex.namesIn ++ pieces.freshNames)
  parameter_names_nodup : (q.redex.namesIn ++ pieces.freshNames).Nodup
  context_names : pieces.context.namesIn = q.redex.namesOut ++ pieces.freshNames
  context_names_nodup : (q.redex.namesOut ++ pieces.freshNames).Nodup
  context_sites : pieces.context.sites.filterMap pieces.context.siteIndex =
    q.redex.roots.filterMap q.redex.rootIndex
  identity_eq : identityLinking q.agent.signature pieces.freshNames = .ok identity
  identity_no_places : identity.places.size = 0
  identity_in : identity.namesIn = pieces.freshNames
  identity_out : identity.namesOut = pieces.freshNames
  identity_wired : ∀ i < identity.innerNames.size, ∃ l, identity.innerLink i = some l ∧
    identity.linkKind l = some (.outer (identity.innerName i))

variable {q : Problem} {hosts : List PlaceId} {m : Mapping} {pieces : Decomposition}
  {context : Copy} {parts : List Part} {b b' : Border}

/-! ### The names of the parameters -/

/-- **What a part takes:** the names given away while it is copied. -/
theorem mem_namesOut_part {content : List PlaceId} {part : Part}
    (hpart : q.PartOk m b content part b') {s : String} :
    s ∈ part.copy.target.graph.namesOut ↔ UsedAt b' s ∧ ¬ UsedAt b s := by
  constructor
  · intro hs
    obtain ⟨k, hk⟩ := mem_namesOut.mp hs
    exact new_of_linkKind hpart hk
  · rintro ⟨hused, hnew⟩
    obtain ⟨l, hl⟩ := ((hpart.kinds.used s).mp hused).resolve_left hnew
    have hadmits := List.mem_eraseDups.mp ((hpart.kinds.covers l).mp ⟨_, hl⟩)
    -- the link has a port in the region, so it was copied with the node of the port
    obtain ⟨v, hv, hports⟩ := List.mem_flatMap.mp hadmits
    obtain ⟨i, hi⟩ := List.mem_iff_getElem?.mp hports
    obtain ⟨n, hn⟩ := (hpart.covers v).mpr hv
    obtain ⟨k, -, hk⟩ := (hpart.shows.portLink_spec hn i).1 l hi
    have hbecome := become_eq (s := part.copy) hpart.kinds hadmits
    have heq := congrArg Prod.snd (List.inj_on_of_nodup_map hpart.kinds.nodup hbecome hl rfl)
    exact mem_namesOut.mpr ⟨k, by rw [hpart.shows.links.kind_eq hk]; exact congrArg some heq⟩

/-- A name that has been given away stays given away. -/
theorem PartOk.used_mono {content : List PlaceId} {part : Part}
    (hpart : q.PartOk m b content part b') {s : String} (h : UsedAt b s) : UsedAt b' s :=
  (hpart.kinds.used s).mpr (Or.inl h)

/-- **What all parts take:** the names given away in between, each by one part. -/
theorem PartsOk.namesOut_spec {earlier sites : List PlaceId}
    (h : q.PartsOk m earlier b sites parts b') :
    (parts.flatMap (·.copy.target.graph.namesOut)).Nodup ∧
      ∀ s, s ∈ parts.flatMap (·.copy.target.graph.namesOut) ↔ UsedAt b' s ∧ ¬ UsedAt b s := by
  induction h with
  | nil => simp
  | @cons _ _ _ _ b b₁ b₂ part parts _ _ hpart hrest ih =>
    obtain ⟨hnodup, hmem⟩ := ih
    have hhead : ∀ s, s ∈ part.copy.target.graph.namesOut ↔ UsedAt b₁ s ∧ ¬ UsedAt b s :=
      fun s => mem_namesOut_part hpart
    have hmono : ∀ s, UsedAt b₁ s → UsedAt b₂ s := fun s hs =>
      (hrest.used_iff s).mpr (Or.inl hs)
    refine ⟨?_, fun s => ?_⟩
    · rw [List.flatMap_cons]
      refine List.nodup_append.mpr ⟨hpart.shows.wellFormed.nodup_outerNames, hnodup, ?_⟩
      rintro s hs t ht rfl
      exact ((hmem s).mp ht).2 ((hhead s).mp hs).1
    · rw [List.flatMap_cons, List.mem_append, hhead, hmem]
      constructor
      · rintro (⟨hs, hn⟩ | ⟨hs, hn⟩)
        · exact ⟨hmono s hs, hn⟩
        · exact ⟨hs, fun hb => hn (hpart.used_mono hb)⟩
      · rintro ⟨hs, hn⟩
        by_cases hs₁ : UsedAt b₁ s
        · exact Or.inl ⟨hs₁, hn⟩
        · exact Or.inr ⟨hs, hs₁⟩

/-- The names of the parameters are those that the parts take, and those parked on the first. -/
theorem namesOut_partGraphs (hparts : parts ≠ []) (parked : List String) :
    ((partGraphs parts parked).flatMap namesOut).Perm
      (parts.flatMap (·.copy.target.graph.namesOut) ++ parked) := by
  cases parts with
  | nil => exact absurd rfl hparts
  | cons part parts =>
    unfold partGraphs
    rw [List.flatMap_cons, List.flatMap_cons, List.flatMap_map, namesOut_addOuters, List.append_assoc,
      List.append_assoc]
    exact List.perm_append_comm.append_left _

section Names
variable (hq : q.Proper) (ha : q.Anatomy hosts m pieces context parts b)
include hq ha

theorem nodup_inner_fresh : (q.redex.namesIn ++ pieces.freshNames).Nodup := by
  rw [ha.fresh_eq]
  refine List.nodup_append.mpr ⟨hq.redex.nodup_innerNames, ha.border.fresh_nodup, ?_⟩
  rintro s hs t ht rfl
  exact ha.border.fresh_new s ht (List.mem_append_right _ hs)

theorem nodup_outer_fresh : (q.redex.namesOut ++ pieces.freshNames).Nodup := by
  rw [ha.fresh_eq]
  refine List.nodup_append.mpr ⟨hq.redex.nodup_outerNames, ha.border.fresh_nodup, ?_⟩
  rintro s hs t ht rfl
  exact ha.border.fresh_new s ht (List.mem_append_left _ hs)

/-- **The names of the parameters** are the inner names of the redex and the fresh names. -/
theorem names_perm (hsites : q.redex.sites ≠ []) :
    (pieces.parameters.flatMap namesOut).Perm (q.redex.namesIn ++ pieces.freshNames) := by
  obtain ⟨b₀, hfresh₀, hplaced₀, hparts⟩ := ha.parts
  have hne : parts ≠ [] := by
    rintro rfl
    exact hsites (List.length_eq_zero_iff.mp hparts.length_eq.symm)
  obtain ⟨hnodup, hmem⟩ := hparts.namesOut_spec
  have hunused : ∀ s, ¬ UsedAt b₀ s := fun s hs => by
    unfold UsedAt at hs
    simp [hfresh₀, hplaced₀] at hs
  have hfresh : ∀ s, s ∈ pieces.freshNames ↔ s ∈ b.fresh.map (·.1) := fun s => by rw [ha.fresh_eq]
  rw [ha.parameters_eq]
  refine (namesOut_partGraphs hne _).trans ?_
  refine (List.perm_ext_iff_of_nodup ?_ (nodup_inner_fresh hq ha)).mpr fun s => ?_
  · refine List.nodup_append.mpr ⟨hnodup, hq.redex.nodup_innerNames.filter _, ?_⟩
    rintro s hs t ht rfl
    exact not_used_of_parked ha.border ht ((hmem s).mp hs).1
  · rw [List.mem_append, List.mem_append, hmem, hfresh]
    constructor
    · rintro (⟨hplaced | hdrawn, -⟩ | hparked)
      · exact Or.inl (ha.border.placed_inner s hplaced)
      · exact Or.inr hdrawn
      · exact Or.inl (List.mem_filter.mp hparked).1
    · rintro (hinner | hdrawn)
      · by_cases hplaced : s ∈ b.placed
        · exact Or.inl ⟨Or.inl hplaced, hunused s⟩
        · exact Or.inr (List.mem_filter.mpr ⟨hinner, by simpa using hplaced⟩)
      · exact Or.inl ⟨Or.inr hdrawn, hunused s⟩

/-- No name is on two parameters. -/
theorem names_disjoint (hsites : q.redex.sites ≠ []) :
    pieces.parameters.Pairwise fun P P' => P.namesOut.Disjoint P'.namesOut :=
  (List.nodup_flatMap.mp
    ((names_perm hq ha hsites).nodup_iff.mpr (nodup_inner_fresh hq ha))).2

omit hq in
/-- **The inner names of the context** are the outer names of the redex and the fresh names. -/
theorem namesIn_context : pieces.context.namesIn = q.redex.namesOut ++ pieces.freshNames := by
  obtain ⟨holes, hshows, -⟩ := ha.context.shows
  have hnames : ∀ {names : List (String × Option LinkId)} {inner : List InnerName},
      List.Forall₂ (Copy.Goes context.links) names inner →
        inner.map (·.name) = names.map (·.1) := by
    intro names inner h
    induction h with
    | nil => rfl
    | cons h _ ih => rw [List.map_cons, List.map_cons, ih, h.1]
  rw [namesIn_eq_map, ha.context_eq, hnames hshows.links.inner, ha.fresh_eq]
  unfold contextNames namesOut
  rw [List.map_append, List.map_map, List.map_map]
  rfl

/-! ### The places of the interfaces -/

omit hq in
/-- The sites of the context have the indices of the roots of the redex. -/
theorem siteIndices_context (hredex : q.redex.WellFormed)
    (hlen : hosts.length = q.redex.roots.length) :
    pieces.context.sites.filterMap pieces.context.siteIndex =
      q.redex.roots.filterMap q.redex.rootIndex := by
  have hwf : pieces.context.WellFormed := by
    obtain ⟨holes, hshows, -⟩ := ha.context.shows
    rw [ha.context_eq]
    exact hshows.wellFormed
  refine eq_of_pairwise_index (f := id) (pairwise_filterMap_index (pairwise_sites hwf))
    (pairwise_filterMap_index (pairwise_roots hredex)) fun i => ?_
  simp only [List.mem_filterMap, mem_sites, mem_roots]
  constructor
  · rintro ⟨s, -, hs⟩
    obtain ⟨r, hr⟩ := (site_indices ha hlen i).mp ⟨s, hs⟩
    exact ⟨r, by rw [isRoot, hr]; rfl, hr⟩
  · rintro ⟨r, -, hr⟩
    obtain ⟨s, hs⟩ := (site_indices ha hlen i).mpr ⟨r, hr⟩
    exact ⟨s, by rw [isSite, hs]; rfl, hs⟩

/-- A parameter has one root, of index `0`. -/
theorem roots_parameter {P : Bigraph} (hP : P ∈ pieces.parameters) :
    ∃ r, P.roots = [r] ∧ P.rootIndex r = some 0 := by
  obtain ⟨j, hj⟩ := List.mem_iff_getElem?.mp hP
  obtain ⟨r, hr⟩ := parameter_root hq ha hj
  obtain ⟨part, c, -, rfl, -, -, hshows⟩ := parameter_spec hq ha hj
  have hzero : (0 : PlaceId) = r := (hr 0).mp (hshows.isRoot_top rfl)
  refine ⟨r, ?_, by rw [← hzero]; exact hshows.top_root rfl⟩
  exact List.perm_singleton.mp ((List.perm_ext_iff_of_nodup nodup_roots (List.nodup_singleton r)).mpr
    fun r' => by rw [mem_roots, hr, List.mem_singleton])

/-- A parameter has no sites. -/
theorem sites_parameter {P : Bigraph} (hP : P ∈ pieces.parameters) : P.sites = [] := by
  obtain ⟨j, hj⟩ := List.mem_iff_getElem?.mp hP
  obtain ⟨part, c, -, rfl, -, -, hshows⟩ := parameter_spec hq ha hj
  refine List.eq_nil_iff_forall_not_mem.mpr fun s hs => ?_
  obtain ⟨i, hi⟩ := Option.isSome_iff_exists.mp (mem_sites.mp hs)
  obtain ⟨h, n, hhole, -⟩ := hshows.site hi
  simp at hhole

/-- A parameter has no inner names. -/
theorem innerNames_parameter {P : Bigraph} (hP : P ∈ pieces.parameters) :
    P.innerNames.size = 0 := by
  have hpart : ∀ part ∈ parts, part.copy.target.graph.innerNames.size = 0 := fun part hp => by
    obtain ⟨j, hj⟩ := List.mem_iff_getElem?.mp hp
    obtain ⟨-, -, -, -, -, hshows⟩ := part_spec hq ha hj
    rw [← Array.length_toList, ← hshows.links.inner.length_eq]
    rfl
  rw [ha.parameters_eq] at hP
  unfold partGraphs at hP
  cases parts with
  | nil => simp at hP
  | cons part parts =>
    rcases List.mem_cons.mp hP with rfl | hP
    · rw [innerNames_addOuters]
      exact hpart part (by simp)
    · obtain ⟨part', hp, rfl⟩ := List.mem_map.mp hP
      exact hpart part' (by simp [hp])

end Names

end Problem

/-! ### The result -/

namespace Matches

open Problem

/-- The identity beside the redex is the one on the fresh names; there is no need to fall back. -/
theorem identity_of_mem_occurrences {q : Problem} {config : MatchConfig} {o : Occurrence}
    (h : o ∈ (q.toMatches config).occurrences.toList) (hnd : o.pieces.freshNames.Nodup) :
    Bigraph.identityLinking q.agent.signature o.pieces.freshNames = .ok o.identity ∧
      o.identity.Through o.pieces.freshNames := by
  obtain ⟨-, -, ho⟩ := occurrence?_of_mem_occurrences h
  have hdec := (of_occurrence?_eq_some ho).2.2
  obtain ⟨g, hg, hthrough⟩ := Bigraph.identityLinking_ok q.agent.signature hnd
  unfold occurrence? at ho
  rw [hdec] at ho
  simp only [hg, Option.some.injEq] at ho
  rw [← ho]
  exact ⟨hg, hthrough⟩

/-- **The interfaces of the pieces compose,** for everything that is yielded, whatever the stem of the
fresh names, as long as the redex has a site. -/
theorem occurrences_interfaces (config : MatchConfig) {agent redex : Bigraph}
    (ha : agent.Constructible) (hr : redex.Constructible)
    (hs : agent.signature = redex.signature) (hg : agent.isGround = true)
    (hsites : redex.sites ≠ []) :
    ∃ ms, Matches.of config agent redex = .ok ms ∧ ∀ o ∈ ms.occurrences.toList,
      ms.problem.Composable o.pieces o.identity := by
  refine ⟨_, of_eq_ok hs hg, fun o ho => ?_⟩
  have hq := proper_of_constructible ha hr hs hg
  obtain ⟨hin, hocc, context, parts, b, hanatomy⟩ := anatomy_of_mem_occurrences hq ho
  have hfresh : o.pieces.freshNames.Nodup := (List.nodup_append.mp (nodup_inner_fresh hq hanatomy)).2.1
  obtain ⟨hidentity, hthrough⟩ := identity_of_mem_occurrences ho hfresh
  exact
    { one_per_site := hanatomy.length_parameters
      one_root := fun P hP => roots_parameter hq hanatomy hP
      ground := fun P hP => ⟨sites_parameter hq hanatomy hP, innerNames_parameter hq hanatomy hP⟩
      disjoint := names_disjoint hq hanatomy hsites
      parameter_names := names_perm hq hanatomy hsites
      parameter_names_nodup := nodup_inner_fresh hq hanatomy
      context_names := namesIn_context hanatomy
      context_names_nodup := nodup_outer_fresh hq hanatomy
      context_sites := siteIndices_context hanatomy hq.redex hin.length_eq
      identity_eq := hidentity
      identity_no_places := hthrough.no_places
      identity_in := hthrough.namesIn_eq
      identity_out := hthrough.namesOut_eq
      identity_wired := fun i hi => hthrough.wired hi }

end Matches

/-! ### A room on a corridor -/

/-- Two rooms, the first on the corridor; it has a person on the corridor too, and one who is linked to
the person in the second room. -/
def meeting : Bigraph :=
  ((Construction.new building).run [.root 0, .node "Room" "a", .nest 1 0, .node "Room" "b",
    .nest 2 0, .node "Person" "x", .nest 3 1, .node "Person" "y", .nest 4 1, .node "Person" "z",
    .nest 5 2, .outer "corridor", .connect 1 0, .connect 3 0, .edge "e", .connect 4 1,
    .connect 5 1]).graph

/-- A room with whatever it holds, which may be on the link of the room. The names are ones that a
supply with the stem `y` would generate. -/
def openRoom : Bigraph :=
  ((Construction.new building).run [.root 0, .node "Room" "r", .nest 1 0, .site 0, .nest 2 1,
    .outer "y0", .connect 1 0, .inner "y1", .wire 0 0]).graph

theorem constructible_meeting : meeting.Constructible :=
  Bigraph.constructible_run (by decide +kernel)

theorem constructible_openRoom : openRoom.Constructible := Bigraph.constructible_run (by decide)

theorem occurrences_interfaces_meeting : meeting.Constructible ∧ openRoom.Constructible ∧
    meeting.signature = openRoom.signature ∧ meeting.isGround = true ∧ openRoom.sites ≠ [] ∧
    numberOfOccurrences {} meeting openRoom = 1 ∧
    ∃ ms, Matches.of {} meeting openRoom = .ok ms ∧ ∀ o ∈ ms.occurrences.toList,
      ms.problem.Composable o.pieces o.identity :=
  have hg : meeting.isGround = true := by decide +kernel
  have hsites : openRoom.sites ≠ [] := by decide +kernel
  ⟨constructible_meeting, constructible_openRoom, rfl, hg, hsites, by decide +kernel,
    Matches.occurrences_interfaces {} constructible_meeting constructible_openRoom rfl hg hsites⟩

end Bigraphs
