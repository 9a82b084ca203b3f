import Bigraphs.Proofs.Matching.Decomposition

/-! # What the pieces hold

The first site below a redex node stands for everything below its image that is not matched
(`exists_parameter`), and the other sites for nothing. So the places of the agent are dealt out to the
context, the images and the parameters, each to one of them (`places_perm`). -/

namespace Bigraphs

namespace Problem

open Bigraph

variable {q : Problem} {hosts : List PlaceId} {m : Mapping} {pieces : Decomposition}
  {context : Copy} {parts : List Part} {b : Border}

/-! ### A parameter and its region -/

/-- What a parameter holds: all that is below an image, for the first site below its node. -/
theorem region_spec {content : List PlaceId} {b₁ b₂ : Border} {part : Part} {earlier : List PlaceId}
    {s : PlaceId} (hclaims : q.Claims m earlier s content) (hok : q.PartOk m b₁ content part b₂) :
    (∃ x y, q.redex.parent s = some x ∧ (x, y) ∈ m ∧
        (∀ s' ∈ earlier, q.redex.parent s' ≠ some x) ∧ part.region = q.regionBelow m y) ∨
      part.region = [] := by
  rcases hclaims with ⟨x, y, hp, hm, hfirst, rfl⟩ | ⟨-, rfl⟩
  · exact Or.inl ⟨x, y, hp, hm, hfirst, hok.region_eq⟩
  · refine Or.inr ?_
    rw [hok.region_eq]
    cases q.agent.places.size <;> rfl

/-- A place of the agent below an image belongs to the parameter of some site below the node. -/
theorem exists_parameter (hq : q.Proper) (ho : q.Occurs hosts m)
    (ha : q.Anatomy hosts m pieces context parts b) {x y v : PlaceId} (hm : (x, y) ∈ m)
    (hv : v ∈ q.regionBelow m y) : ∃ (j : Nat) (P : Bigraph) (s : PlaceId) (part : Part),
      pieces.parameters[j]? = some P ∧ parts[j]? = some part ∧ q.redex.sites[j]? = some s ∧
      q.redex.parent s = some x ∧ part.region = q.regionBelow m y := by
  obtain ⟨c, hp, hc, -⟩ := (mem_regionBelow hq).mp hv
  obtain ⟨s, hs, hsx⟩ := exists_site_of_unmatched hq ho hm hp hc
  obtain ⟨j, s, hj, hsx, hfirst⟩ :=
    exists_first (P := fun s => q.redex.parent s = some x) ⟨s, mem_sites.mpr hs, hsx⟩
  have hlt : j < pieces.parameters.length := by
    rw [ha.length_parameters]
    exact (List.getElem?_eq_some_iff.mp hj).1
  have hP : pieces.parameters[j]? = some pieces.parameters[j] := List.getElem?_eq_getElem hlt
  obtain ⟨part, s', content, b₁, b₂, hpart, hs', hclaims, hok, -⟩ := ha.parameter hq hP
  rw [hj, Option.some.injEq] at hs'
  subst hs'
  refine ⟨j, _, s, part, hP, hpart, hj, hsx, ?_⟩
  rcases hclaims with ⟨x', y', hx', hm', -, rfl⟩ | ⟨hnone, -⟩
  · rw [hsx, Option.some.injEq] at hx'
    subst hx'
    rw [hok.region_eq, ho.image_unique hm' hm]; rfl
  · obtain ⟨s', hs', hsx'⟩ := hnone x y hsx hm
    exact absurd hsx' (hfirst s' (List.mem_reverse.mp hs'))

/-- A copy has the label of its original only. -/
theorem mem_places_of_label {plan : Blueprint} {holes : List (Nat × PlaceId)} {c : Copy}
    (h : Copy.ShowsPlaces plan holes c) (hp : plan.source.WellFormed) {v n : PlaceId} {s : String}
    (hn : c.target.graph.label n = some s) (hv : plan.source.label v = some s) :
    (v, n) ∈ c.places := by
  obtain ⟨d, hd, -⟩ := label_eq_some_iff.mp hn
  obtain ⟨w, hw⟩ := h.of_node (by rw [isNode, hd]; rfl)
  rw [label_of_bare (h.bare_eq hw)] at hn
  rwa [← hp.label_inj hn hv]

/-- The places of a parameter are a copy of its region. -/
theorem parameter_shows {part : Part} (hs : part.copy.Shows (part.blueprint q) [] (fun _ => []) [])
    {P : Bigraph} (hplaces : P.places = part.copy.target.graph.places) :
    ∃ c : Copy, c.target.graph = P ∧ c.places = part.copy.places ∧
      Copy.ShowsPlaces (part.blueprint q) [] c := by
  refine ⟨{ part.copy with target := ⟨P, 0⟩ }, rfl, rfl, hs.places.of_eq rfl (fun n => ?_)
    fun n => ?_⟩
  · simp only [bare, kind, hplaces]
  · simp only [parent, hplaces]

theorem map_fst_perm {places : List (PlaceId × PlaceId)} {region : List PlaceId}
    (hnd : (places.map (·.1)).Nodup) (hr : region.Nodup) (hcov : Covers places (· ∈ region)) :
    (places.map (·.1)).Perm region := by
  rw [List.perm_ext_iff_of_nodup hnd hr]
  intro v
  refine Iff.trans ?_ (hcov v)
  rw [List.mem_map]
  constructor
  · rintro ⟨⟨w, n⟩, hm, rfl⟩
    exact ⟨n, hm⟩
  · rintro ⟨n, hm⟩
    exact ⟨(v, n), hm, rfl⟩

section Pieces
variable (hq : q.Proper) (ho : q.Occurs hosts m)
  (ha : q.Anatomy hosts m pieces context parts b)
include hq ho ha

omit ho in
/-- One part, by position. -/
theorem part_spec {j : Nat} {part : Part} (hj : parts[j]? = some part) :
    ∃ s, q.redex.sites[j]? = some s ∧
      ((∃ x y, q.redex.parent s = some x ∧ (x, y) ∈ m ∧
          (∀ s' ∈ q.redex.sites.take j, q.redex.parent s' ≠ some x) ∧
          part.region = q.regionBelow m y) ∨ part.region = []) ∧
      part.region.Nodup ∧ Covers part.copy.places (· ∈ part.region) ∧
      part.copy.Shows (part.blueprint q) [] (fun _ => []) [] := by
  obtain ⟨b₀, -, -, hparts⟩ := ha.parts
  have hlt : j < q.redex.sites.length := by
    rw [← hparts.length_eq]
    exact (List.getElem?_eq_some_iff.mp hj).1
  obtain ⟨content, b₁, b₂, hclaims, hok, -⟩ := hparts.get (List.getElem?_eq_getElem hlt) hj
  have hspec := region_spec hclaims hok
  refine ⟨_, List.getElem?_eq_getElem hlt, ?_, ?_, hok.covers, hok.shows⟩
  · refine hspec.imp_left fun ⟨x, y, hp, hm, hfirst, hr⟩ => ⟨x, y, hp, hm, fun s' hs' => ?_, hr⟩
    exact hfirst s' (by simpa using hs')
  · rcases hspec with ⟨x, y, -, -, -, hr⟩ | hr
    · rw [hr]
      exact nodup_regionBelow hq y
    · rw [hr]
      exact .nil

/-- Different parameters hold different places. -/
theorem not_mem_region {i j : Nat} {part part' : Part} (hi : parts[i]? = some part)
    (hj : parts[j]? = some part') (hij : i < j) {v : PlaceId} (hv : v ∈ part.region) :
    v ∉ part'.region := by
  intro hv'
  obtain ⟨s, hs, ⟨x, y, hsx, hm, -, hr⟩ | hr, -⟩ := part_spec hq ha hi
  · obtain ⟨t, ht, ⟨x', y', htx, hm', hfirst, hr'⟩ | hr', -⟩ := part_spec hq ha hj
    · rw [hr] at hv
      rw [hr'] at hv'
      have hyy := region_unique hq ho ⟨x, hm⟩ ⟨x', hm'⟩ hv hv'
      rw [← hyy] at hm'
      refine hfirst s ?_ (by rw [hsx, ho.node_unique hm hm'])
      refine List.mem_iff_getElem?.mpr ⟨i, ?_⟩
      rw [List.getElem?_take, if_pos hij, hs]
    · rw [hr'] at hv'
      simp at hv'
  · rw [hr] at hv
    simp at hv

theorem part_unique {i j : Nat} {part part' : Part} (hi : parts[i]? = some part)
    (hj : parts[j]? = some part') {v : PlaceId} (hv : v ∈ part.region) (hv' : v ∈ part'.region) :
    i = j := by
  rcases Nat.lt_trichotomy i j with h | h | h
  · exact absurd hv' (not_mem_region hq ho ha hi hj h hv)
  · exact h
  · exact absurd hv (not_mem_region hq ho ha hj hi h hv')

theorem nodup_regions : (parts.flatMap (·.region)).Nodup := by
  refine List.nodup_flatMap.mpr ⟨fun part hp => ?_, List.pairwise_iff_getElem.mpr ?_⟩
  · obtain ⟨j, hj⟩ := List.mem_iff_getElem?.mp hp
    obtain ⟨s, -, -, hnd, -⟩ := part_spec hq ha hj
    exact hnd
  · exact fun i j hi hj hij v hvi hvj => not_mem_region hq ho ha (List.getElem?_eq_getElem hi)
      (List.getElem?_eq_getElem hj) hij hvi hvj

/-- What a parameter holds is neither matched nor in the context. -/
theorem not_matched_of_mem_region {j : Nat} {part : Part} (hj : parts[j]? = some part) {v : PlaceId}
    (hv : v ∈ part.region) : ¬ Matched m v ∧ v ∉ q.contextRegion m := by
  obtain ⟨s, -, ⟨x, y, -, hm, -, hr⟩ | hr, -⟩ := part_spec hq ha hj
  · rw [hr] at hv
    exact ⟨not_matched_of_region hq ho ⟨x, hm⟩ hv, not_context_of_region hq ho ⟨x, hm⟩ hv⟩
  · rw [hr] at hv
    simp at hv

/-- **The places of the agent are dealt out to the pieces.** -/
theorem places_perm : q.agent.placeIds.Perm
    (q.contextRegion m ++ m.map (·.2) ++ parts.flatMap (·.region)) := by
  have hregion : ∀ v, v ∈ parts.flatMap (·.region) ↔ ∃ x y, (x, y) ∈ m ∧ v ∈ q.regionBelow m y := by
    intro v
    rw [List.mem_flatMap]
    constructor
    · rintro ⟨part, hp, hv⟩
      obtain ⟨j, hj⟩ := List.mem_iff_getElem?.mp hp
      obtain ⟨s, -, ⟨x, y, -, hm, -, hr⟩ | hr, -⟩ := part_spec hq ha hj
      · exact ⟨x, y, hm, by rwa [hr] at hv⟩
      · rw [hr] at hv
        simp at hv
    · rintro ⟨x, y, hm, hv⟩
      obtain ⟨j, P, s, part, -, hj, -, -, hr⟩ := exists_parameter hq ho ha hm hv
      exact ⟨part, List.mem_of_getElem? hj, by rwa [hr]⟩
  have hmatched : ∀ v, v ∈ m.map (·.2) ↔ Matched m v := by
    intro v
    rw [List.mem_map]
    exact ⟨fun ⟨e, he, hv⟩ => ⟨e.1, by rw [← hv]; exact he⟩, fun ⟨x, hx⟩ => ⟨(x, v), hx, rfl⟩⟩
  refine (List.perm_ext_iff_of_nodup List.nodup_range ?_).mpr fun v => ?_
  · refine List.nodup_append.mpr ⟨List.nodup_append.mpr ⟨nodup_contextRegion hq,
      ho.nodup_images, ?_⟩, nodup_regions hq ho ha, ?_⟩
    · rintro v hv w hw rfl
      exact ((mem_contextRegion hq ho).mp hv).2 v .refl ((hmatched v).mp hw)
    · rintro v hv w hw rfl
      obtain ⟨x, y, hm, hr⟩ := (hregion v).mp hw
      rcases List.mem_append.mp hv with hc | hm'
      · exact not_context_of_region hq ho ⟨x, hm⟩ hr hc
      · exact not_matched_of_region hq ho ⟨x, hm⟩ hr ((hmatched v).mp hm')
  · rw [List.mem_append, List.mem_append, hregion, hmatched, List.mem_range, or_assoc]
    constructor
    · exact region_cases hq ho
    · rintro (hc | ⟨x, hx⟩ | ⟨x, y, -, hv⟩)
      · exact ((mem_contextRegion hq ho).mp hc).1
      · exact lt_of_mapped ho hx
      · obtain ⟨c, hp, -, hcv⟩ := (mem_regionBelow hq).mp hv
        rcases aboveEq_iff.mp hcv with rfl | hcv
        · exact lt_of_parent hp
        · obtain ⟨b, -, hb⟩ := Relation.TransGen.tail'_iff.mp hcv
          exact lt_of_parent hb

omit ho in
/-- **A parameter is a copy of its region,** with a root that stands for the image above it. -/
theorem parameter_spec {j : Nat} {P : Bigraph} (hP : pieces.parameters[j]? = some P) :
    ∃ part c, parts[j]? = some part ∧ c.target.graph = P ∧ P.WellFormed ∧
      Covers c.places (· ∈ part.region) ∧ Copy.ShowsPlaces (part.blueprint q) [] c := by
  obtain ⟨part, s, content, b₁, b₂, hpart, -, -, hok, -, hwf, hplaces, -⟩ := ha.parameter hq hP
  obtain ⟨c, hc, hcp, hshows⟩ := parameter_shows hok.shows hplaces
  refine ⟨part, c, hpart, hc, hwf, ?_, hshows⟩
  rw [hcp]
  exact hok.covers

omit ho ha in
theorem exists_parent_of_region {v y : PlaceId} (hv : v ∈ q.regionBelow m y) :
    ∃ p, q.agent.parent v = some p := by
  obtain ⟨c, hp, -, hcv⟩ := (mem_regionBelow hq).mp hv
  rcases aboveEq_iff.mp hcv with rfl | hcv
  · exact ⟨y, hp⟩
  · obtain ⟨p, -, hpv⟩ := Relation.TransGen.tail'_iff.mp hcv
    exact ⟨p, hpv⟩

omit ho ha in
/-- What hangs below an image are nodes. -/
theorem isNode_of_region {v y : PlaceId} (hv : v ∈ q.regionBelow m y) : q.agent.isNode v := by
  obtain ⟨p, hp⟩ := exists_parent_of_region hq hv
  exact (hq.agent.isNode_or_isSite_of_parent hp).resolve_right
    (by rw [isSite_agent]; exact Bool.false_ne_true)

omit ho ha in
/-- The parent of what hangs below an image hangs there too, or is the image. -/
theorem parent_region {v p y : PlaceId} (hv : v ∈ q.regionBelow m y)
    (hp : q.agent.parent v = some p) : p ∈ q.regionBelow m y ∨ p = y := by
  obtain ⟨c, hc, hn, hcv⟩ := (mem_regionBelow hq).mp hv
  rcases aboveEq_iff.mp hcv with rfl | hcv
  · rw [hc, Option.some.injEq] at hp
    exact Or.inr hp.symm
  · exact Or.inl ((mem_regionBelow hq).mpr ⟨c, hc, hn, (above_iff_of_parent hp).mp hcv⟩)

end Pieces

end Problem

/-- What is yielded was taken apart. -/
theorem Matches.anatomy_of_mem_occurrences {q : Problem} (hq : q.Proper) {config : MatchConfig}
    {o : Occurrence} (h : o ∈ (q.toMatches config).occurrences.toList) :
    q.HostsIn o.hosts ∧ q.Occurs o.hosts o.mapping ∧
      ∃ context parts b, q.Anatomy o.hosts o.mapping o.pieces context parts b := by
  have ho := occurs_of_mem_occurrences hq h
  obtain ⟨hhosts, -, hdec⟩ := of_mem_occurrences h
  have hin := (of_mem_assignments hq hhosts).1
  refine ⟨hin, ho, ?_⟩
  obtain ⟨pieces, context, parts, b, ha, heq⟩ := Problem.decompose_ok hq ho hin config
  rw [hdec] at heq
  split at heq
  · cases heq
  · cases heq
    exact ⟨context, parts, b, ha⟩

end Bigraphs
