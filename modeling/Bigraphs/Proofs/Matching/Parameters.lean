import Bigraphs.Proofs.Matching.Border
import Bigraphs.Proofs.Matching.Context

/-! # The parameters are copied

For an occurrence the copies of the parameters go through, one after the other, with the border handed
on from each to the next (`copyParameters_ok`). A site whose owner is matched and that is the first
below it claims what is not matched below the image; the other sites claim nothing
(`contentOf_spec`). -/

namespace Bigraphs

namespace Problem

open Bigraph

variable {q : Problem} {hosts : List PlaceId} {m : Mapping}

/-- A parameter with what it was made from: the places it holds and what their links become. -/
structure Part where
  region : List PlaceId
  kinds : List (LinkId × LinkKind)
  copy : Copy

/-- The blueprint of a parameter. -/
def Part.blueprint (part : Part) (q : Problem) : Blueprint where
  source := q.agent
  become l := (part.kinds.lookup l).getD (.edge "")
  Admits l := l ∈ part.region.flatMap q.agent.ports
  top := some 0
  Inside v := v ∈ part.region

/-- The parameter with these top nodes is in order; on the way the border goes from `b` to `b'`. -/
structure PartOk (q : Problem) (m : Mapping) (b : Border) (content : List PlaceId) (part : Part)
    (b' : Border) : Prop where
  region_eq : part.region = generations q.agent.children q.agent.places.size content
  kinds : q.KindsOk m part.region b (part.region.flatMap q.agent.ports).eraseDups part.kinds b'
  covers : Covers part.copy.places (· ∈ part.region)
  shows : part.copy.Shows (part.blueprint q) [] (fun _ => []) []

/-! ### Blueprints -/

section Blueprint
variable {region : List PlaceId} {kinds : List (LinkId × LinkKind)} {b b' : Border} {s : Copy}

theorem become_eq (hk : q.KindsOk m region b (region.flatMap q.agent.ports).eraseDups kinds b')
    {l : LinkId} (hl : l ∈ region.flatMap q.agent.ports) :
    (l, ((Part.mk region kinds s).blueprint q).become l) ∈ kinds := by
  obtain ⟨k, hm⟩ := (hk.covers l).mpr (List.mem_eraseDups.mpr hl)
  unfold Part.blueprint
  simp only
  rw [lookup_of_nodup hk.nodup hm]
  exact hm

theorem blueprint_sound (hq : q.Proper)
    (hk : q.KindsOk m region b (region.flatMap q.agent.ports).eraseDups kinds b') :
    ((Part.mk region kinds s).blueprint q).Sound where
  source := hq.agent
  become_inj {l l'} hl hl' heq := by
    have h := become_eq (s := s) hk hl
    have h' := become_eq (s := s) hk hl'
    rw [← heq] at h'
    generalize ((Part.mk region kinds s).blueprint q).become l = k at h h'
    by_cases hi : q.IsInternal region l
    · have he := hk.internal l k h hi
      by_cases hi' : q.IsInternal region l'
      · have he' := hk.internal l' k h' hi'
        rw [he, LinkKind.edge.injEq] at he'
        obtain ⟨t, ht⟩ := isEdge_iff.mp hi.1
        obtain ⟨t', ht'⟩ := isEdge_iff.mp hi'.1
        rw [linkName_of_linkKind ht, linkName_of_linkKind ht'] at he'
        have htt : t = t' := he'
        rw [← htt] at ht'
        exact hq.agent.linkKind_inj ht ht'
      · obtain ⟨t, ht, -⟩ := hk.leaving l' k h' hi'
        rw [he] at ht
        cases ht
    · obtain ⟨t, ht, -⟩ := hk.leaving l k h hi
      rw [ht] at h h'
      exact hk.inj l l' t h h'

end Blueprint

/-! ### One parameter -/

/-- What can be the content of a parameter. -/
structure IsContent (q : Problem) (content : List PlaceId) : Prop where
  level : ∃ d, q.agent.Level q.agent.places.size d content
  nodup : content.Nodup
  parent : ∀ v ∈ content, ∃ p, q.agent.parent v = some p ∧
    p ∉ generations q.agent.children q.agent.places.size content

theorem isContent_nil : q.IsContent [] :=
  ⟨⟨q.agent.places.size, ⟨by simp, by simp, by omega⟩⟩, .nil, by simp⟩

theorem isContent_unmatchedBelow (hq : q.Proper) (y : PlaceId) :
    q.IsContent (q.unmatchedBelow m y) where
  level := ⟨_, level_unmatchedBelow hq y⟩
  nodup := nodup_unmatchedBelow hq y
  parent v hv := by
    refine ⟨y, ((mem_unmatchedBelow hq).mp hv).1, fun hy => ?_⟩
    obtain ⟨c, hp, -, hcy⟩ := (mem_regionBelow hq).mp hy
    exact hq.agent.not_above_self y (Relation.TransGen.head' hp hcy)

section Parameter

/-- The copy of a parameter before anything has been copied. -/
theorem shows_top {part : Part} {s : Copy}
    (hs : s = ⟨⟨(Bigraph.empty q.agent.signature).addPlace (.root 0), 0⟩, [], []⟩) :
    s.Shows (part.blueprint q) [] (fun _ => []) [] := by
  have hfree : (Bigraph.empty q.agent.signature).CanAdd (.root 0) := fun p hp => by
    simp [rootIndex, kind, Bigraph.empty] at hp
  have hkind : ∀ n, ((Bigraph.empty q.agent.signature).addPlace (.root 0)).kind n =
      if n = 0 then some (.root 0) else none := by
    intro n
    rw [kind_addPlace]
    split
    next h => rw [if_pos (show n = 0 from h)]
    next h =>
      rw [if_neg (show ¬ n = 0 from h)]
      simp [kind, Bigraph.empty]
  subst hs
  exact {
    wellFormed := (WellFormed.empty _).addPlace hfree
    signature_eq := rfl
    places := {
      keys_nodup := .nil
      copies_nodup := .nil
      bare_eq := by simp
      is_vertex := by simp
      of_node := fun {n} hn => by
        obtain ⟨d, hd⟩ := isNode_iff.mp hn
        rw [hkind] at hd
        split at hd <;> cases hd
      of_root := fun {n} hn => by
        obtain ⟨i, hi⟩ := isRoot_iff.mp hn
        rw [hkind] at hi
        split at hi
        next h => exact Or.inl (by rw [h]; rfl)
        next => cases hi
      top_root := by
        rintro n ⟨rfl⟩
        exact rootIndex_eq_some_iff.mpr (by rw [hkind]; rfl)
      hangs := by simp
      site := fun {p i} hp => by
        rw [siteIndex_eq_some_iff, hkind] at hp
        split at hp <;> cases hp
      exists_site := by simp }
    links := by constructor <;> simp [Bigraph.empty, Bigraph.addPlace] }

variable (hq : q.Proper)
include hq

/-- A vertex of the region hangs from its copied parent, or from the root of the parameter. -/
theorem hangs_of_region {content done rest : List PlaceId} (hc : q.IsContent content) {part : Part}
    {s : Copy} {v p : PlaceId} (hs : s.Shows (part.blueprint q) [] (fun _ => []) [])
    (hregion : part.region = generations q.agent.children q.agent.places.size content)
    (hl : part.region = done ++ v :: rest) (hcov : Covers s.places (· ∈ done))
    (hp : q.agent.parent v = some p) :
    Copy.Hangs (part.blueprint q) s v ((s.places.lookup p).getD 0) := by
  by_cases hin : p ∈ done
  · obtain ⟨n, hn⟩ := (hcov p).mpr hin
    rw [lookup_of_nodup hs.places.keys_nodup hn]
    exact Or.inl ⟨p, hp, hn⟩
  · have hlookup : s.places.lookup p = none := by
      refine List.lookup_eq_none_iff.mpr fun e he => ?_
      have hne : p ≠ e.1 := by
        rintro rfl
        exact hin ((hcov e.1).mp ⟨e.2, he⟩)
      simpa using hne
    rw [hlookup]
    refine Or.inr ⟨rfl, fun p' hp' hinside => ?_⟩
    have hpp : some p = some p' := hp.symm.trans hp'
    cases hpp
    obtain ⟨d, hlevel⟩ := hc.level
    rcases exists_before_of_generations hq.agent id hlevel (hregion.symm.trans hl) with
      hv | ⟨p'', hd, hv⟩
    · obtain ⟨p'', hp'', hout⟩ := hc.parent v hv
      rw [hp, Option.some.injEq] at hp''
      rw [← hp'', ← hregion] at hout
      exact hout hinside
    · have hpp : some p = some p'' := hp.symm.trans (hq.agent.mem_children.mp hv)
      cases hpp
      exact hin hd

theorem parent_of_mem_region {content : List PlaceId} (hc : q.IsContent content) {v : PlaceId}
    (hv : v ∈ generations q.agent.children q.agent.places.size content) :
    ∃ p, q.agent.parent v = some p := by
  obtain ⟨d, hlevel⟩ := hc.level
  obtain ⟨done, rest, hl⟩ := List.append_of_mem hv
  rcases exists_before_of_generations hq.agent id hlevel hl with hv | ⟨p, -, hv⟩
  · obtain ⟨p, hp, -⟩ := hc.parent v hv
    exact ⟨p, hp⟩
  · exact ⟨p, hq.agent.mem_children.mp hv⟩

/-- **A parameter is copied.** -/
theorem copyParameter_ok {content : List PlaceId} (hc : q.IsContent content) {b : Border}
    (hb : q.BorderOk m b) :
    ∃ part b', q.copyParameter content b = .ok (part.copy.target, b') ∧
      q.PartOk m b content part b' := by
  obtain ⟨d, hlevel⟩ := hc.level
  let region := generations q.agent.children q.agent.places.size content
  have hkinds := borderKinds_spec hq region hb
  let kinds := (q.borderKinds region b).1
  let start : Copy := ⟨⟨(Bigraph.empty q.agent.signature).addPlace (.root 0), 0⟩, [], []⟩
  have hsound := blueprint_sound (s := start) hq hkinds
  have hnd : region.Nodup := nodup_generations hq.agent id hq.agent.nodup_children hlevel hc.nodup
  obtain ⟨s, hfold, hs, hcov⟩ := foldlM_ok
    (f := fun (s : Copy) v => Copy.node (fun l => (kinds.lookup l).getD (.edge "")) q.agent
      (((q.agent.parent v).bind fun p => s.places.lookup p).getD 0) s v)
    (P := fun done (s : Copy) =>
      s.Shows ((Part.mk region kinds start).blueprint q) [] (fun _ => []) [] ∧
        Covers s.places (· ∈ done))
    (l := region) (s := start) ⟨shows_top rfl, fun v => by simp [start]⟩ (by
      rintro done v rest s hl ⟨hs, hcov⟩
      have hv : v ∈ region := by rw [hl]; simp
      have hnew : ∀ n, (v, n) ∉ s.places := by
        intro n hn
        exact not_mem_before hnd hl ((hcov v).mp ⟨n, hn⟩)
      obtain ⟨p, hp⟩ := parent_of_mem_region hq hc hv
      have hnode : q.agent.isNode v := (hq.agent.isNode_or_isSite_of_parent hp).resolve_right
        (by rw [isSite_agent]; exact Bool.false_ne_true)
      have hhangs := hangs_of_region hq hc hs rfl hl hcov hp
      obtain ⟨s', n, hstep, hplaces, -, hs'⟩ := Copy.node_ok hsound hs hnode hnew hhangs
        fun l hl => List.mem_flatMap.mpr ⟨v, hv, hl⟩
      refine ⟨s', ?_, hs', ?_⟩
      · rw [hp]
        exact hstep
      · rw [hplaces]
        exact hcov.cons fun w => by rw [List.mem_append, List.mem_singleton, or_comm])
  refine ⟨⟨region, kinds, s⟩, (q.borderKinds region b).2, ?_, rfl, hkinds, hcov, hs⟩
  have hroot := Construction.root_ok (c := Construction.new q.agent.signature) (i := 0) fun p hp => by
    simp [rootIndex, kind, Construction.new, Bigraph.empty] at hp
  have hrun : q.copyParameter content b =
      (Except.ok s : Except MatchError Copy).bind fun s =>
        .ok (s.target, (q.borderKinds region b).2) := by
    rw [← hfold]
    unfold copyParameter
    simp only [accept]
    rw [hroot]
    rfl
  exact hrun

end Parameter

/-! ### All parameters -/

/-- What the site `s` claims after the sites `earlier`. -/
def Claims (q : Problem) (m : Mapping) (earlier : List PlaceId) (s : PlaceId)
    (content : List PlaceId) : Prop :=
  (∃ x y, q.redex.parent s = some x ∧ (x, y) ∈ m ∧
      (∀ s' ∈ earlier, q.redex.parent s' ≠ some x) ∧ content = q.unmatchedBelow m y) ∨
    (∀ x y, q.redex.parent s = some x → (x, y) ∈ m → ∃ s' ∈ earlier, q.redex.parent s' = some x) ∧
      content = []

/-- **What a site claims.** -/
theorem contentOf_spec (ho : q.Occurs hosts m) (earlier : List PlaceId) (s : PlaceId) :
    ∃ content, q.contentOf m earlier s = .ok content ∧ q.Claims m earlier s content := by
  unfold contentOf Claims
  cases hp : q.redex.parent s with
  | none => exact ⟨[], rfl, Or.inr ⟨by simp, rfl⟩⟩
  | some owner =>
    simp only
    by_cases hn : q.redex.isNode owner
    · by_cases he : ∃ s' ∈ earlier, q.redex.parent s' = some owner
      · refine ⟨[], ?_, Or.inr ⟨?_, rfl⟩⟩
        · rw [if_pos]
          rw [Bool.or_eq_true, List.any_eq_true]
          exact Or.inr (by simpa using he)
        · intro x y hx _
          rw [← hx]
          exact he
      · obtain ⟨y, hm⟩ := ho.exists_image hn
        refine ⟨q.unmatchedBelow m y, ?_, Or.inl ⟨owner, y, rfl, hm, ?_, rfl⟩⟩
        · rw [if_neg, ho.imageOf_eq_some_iff.mpr hm]
          · simp only
            rw [if_neg (Nat.not_le.mpr (lt_of_mapped ho hm))]
          · rw [Bool.or_eq_true, List.any_eq_true, hn]
            simpa using he
        · intro s' hs' hp'
          exact he ⟨s', hs', hp'⟩
    · refine ⟨[], ?_, Or.inr ⟨?_, rfl⟩⟩
      · rw [if_pos]
        simp [hn]
      · intro x y hx hm
        cases hx
        exact absurd (ho.isNode_fst hm) hn

/-- The parameters for these sites are in order; on the way the border goes from the first to the
last. -/
inductive PartsOk (q : Problem) (m : Mapping) :
    List PlaceId → Border → List PlaceId → List Part → Border → Prop where
  | nil {earlier b} : q.BorderOk m b → PartsOk q m earlier b [] [] b
  | cons {earlier s sites content b b₁ b₂ part parts} : q.Claims m earlier s content →
      q.BorderOk m b → q.PartOk m b content part b₁ → PartsOk q m (s :: earlier) b₁ sites parts b₂ →
      PartsOk q m earlier b (s :: sites) (part :: parts) b₂

section Parameters
variable (hq : q.Proper) (ho : q.Occurs hosts m)
include hq ho

/-- **All parameters are copied.** -/
theorem copyParameters_ok (earlier sites : List PlaceId) {b : Border} (hb : q.BorderOk m b) :
    ∃ parts b', q.copyParameters m earlier b sites = .ok (parts.map (·.copy.target), b') ∧
      q.PartsOk m earlier b sites parts b' := by
  induction sites generalizing earlier b with
  | nil => exact ⟨[], b, rfl, .nil hb⟩
  | cons s sites ih =>
    obtain ⟨content, hcontent, hclaims⟩ := contentOf_spec ho earlier s
    have hc : q.IsContent content := by
      rcases hclaims with ⟨x, y, -, -, -, rfl⟩ | ⟨-, rfl⟩
      · exact isContent_unmatchedBelow hq y
      · exact isContent_nil
    obtain ⟨part, b₁, hcopy, hpart⟩ := copyParameter_ok hq hc hb
    obtain ⟨parts, b₂, hrest, hparts⟩ := ih (s :: earlier) hpart.kinds.border
    refine ⟨part :: parts, b₂, ?_, .cons hclaims hb hpart hparts⟩
    unfold copyParameters
    simp only [hcontent, hcopy, hrest, bind, Except.bind, pure, Except.pure]
    rfl

end Parameters

namespace PartsOk

variable {earlier sites : List PlaceId} {b b' : Border} {parts : List Part}
  (h : q.PartsOk m earlier b sites parts b')
include h

theorem length_eq : parts.length = sites.length := by
  induction h with
  | nil => rfl
  | cons _ _ _ _ ih => rw [List.length_cons, List.length_cons, ih]

theorem border : q.BorderOk m b' := by
  induction h with
  | nil hb => exact hb
  | cons _ _ _ _ ih => exact ih

theorem fresh_mono : b.fresh ⊆ b'.fresh := by
  induction h with
  | nil => exact List.Subset.refl _
  | cons _ _ hpart _ ih => exact List.Subset.trans hpart.kinds.fresh_mono ih

/-- The names used are those given to the links of the parameters. -/
theorem used_iff (s : String) : UsedAt b' s ↔
    UsedAt b s ∨ ∃ part ∈ parts, ∃ l, (l, .outer s) ∈ part.kinds := by
  induction h with
  | nil => simp
  | cons _ _ hpart _ ih =>
    rw [ih, hpart.kinds.used s, or_assoc]
    simp only [List.mem_cons, exists_eq_or_imp]

/-- One of the parameters. -/
theorem get {j : Nat} {s : PlaceId} {part : Part} (hs : sites[j]? = some s)
    (hpart : parts[j]? = some part) : ∃ content b₁ b₂,
      q.Claims m ((sites.take j).reverse ++ earlier) s content ∧ q.PartOk m b₁ content part b₂ ∧
        b₂.fresh ⊆ b'.fresh ∧ ∀ t, UsedAt b₂ t → UsedAt b' t := by
  induction h generalizing j with
  | nil => simp at hs
  | @cons earlier t sites content b b₁ b₂ part' parts hclaims _ hok hrest ih =>
    cases j with
    | zero =>
      simp only [List.getElem?_cons_zero, Option.some.injEq] at hs hpart
      subst hs hpart
      exact ⟨content, b, b₁, by simpa using hclaims, hok, hrest.fresh_mono,
        fun t ht => (hrest.used_iff t).mpr (Or.inl ht)⟩
    | succ j =>
      obtain ⟨content', c₁, c₂, hclaims', hok', hf⟩ := ih (by simpa using hs) (by simpa using hpart)
      refine ⟨content', c₁, c₂, ?_, hok', hf⟩
      rw [List.take_succ_cons, List.reverse_cons, List.append_assoc]
      exact hclaims'

end PartsOk

end Problem

end Bigraphs
