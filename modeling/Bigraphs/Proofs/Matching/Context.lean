import Bigraphs.Matching.Decomposition
import Bigraphs.Proofs.Matching.Copy
import Bigraphs.Proofs.Matching.Regions

/-! # The context is copied

For an occurrence the copy of the context goes through. It shows the places of the context region, a
site for each root of the redex below the copy of its host, and all idle outer names of the agent
(`copyContext_ok`). -/

namespace Bigraphs

namespace Problem

open Bigraph

variable {q : Problem} {hosts : List PlaceId} {m : Mapping}

/-- The blueprint of the context: every link becomes what it is. -/
def contextBlueprint (q : Problem) : Blueprint where
  source := q.agent
  become := q.contextKind
  Admits l := l < q.agent.links.size
  top := none
  Inside _ := True

theorem contextKind_eq {l : LinkId} (h : l < q.agent.links.size) :
    q.agent.linkKind l = some (q.contextKind l) := by
  obtain ⟨k, hk⟩ := exists_linkKind h
  rw [contextKind, hk]
  rfl

theorem contextBlueprint_sound (hq : q.Proper) : q.contextBlueprint.Sound where
  source := hq.agent
  become_inj {l k} hl hk h := by
    have h1 := contextKind_eq hl
    have h2 := contextKind_eq hk
    rw [← show q.contextKind l = q.contextKind k from h] at h2
    exact hq.agent.linkKind_inj h1 h2

/-! ### Who hosts which root -/

theorem mem_hostedBy {p : PlaceId} {i : Nat} : i ∈ q.hostedBy hosts p ↔
    ∃ (k : Nat) (r : PlaceId), hosts[k]? = some p ∧ q.redex.roots[k]? = some r ∧
      q.redex.rootIndex r = some i := by
  unfold hostedBy
  simp only [List.mem_filterMap, List.mem_filter, decide_eq_true_eq, Prod.exists]
  constructor
  · rintro ⟨h, r, ⟨hm, rfl⟩, hi⟩
    obtain ⟨k, hk⟩ := List.mem_iff_getElem?.mp hm
    obtain ⟨hk, hr⟩ := List.getElem?_zip_eq_some.mp hk
    exact ⟨k, r, hk, hr, hi⟩
  · rintro ⟨k, r, hk, hr, hi⟩
    exact ⟨p, r, ⟨List.mem_iff_getElem?.mpr ⟨k, List.getElem?_zip_eq_some.mpr ⟨hk, hr⟩⟩, rfl⟩, hi⟩

section Hosted
variable (hr : q.redex.WellFormed)
include hr

theorem hostedBy_unique {p p' : PlaceId} {i : Nat} (h : i ∈ q.hostedBy hosts p)
    (h' : i ∈ q.hostedBy hosts p') : p = p' := by
  obtain ⟨k, r, hk, hrk, hi⟩ := mem_hostedBy.mp h
  obtain ⟨k', r', hk', hrk', hi'⟩ := mem_hostedBy.mp h'
  have hrr : r = r' := hr.rootIndex_inj hi hi'
  subst hrr
  rw [roots_position_unique hrk hrk', hk'] at hk
  exact (Option.some.inj hk).symm

theorem nodup_hostedBy (hlen : hosts.length = q.redex.roots.length) (p : PlaceId) :
    (q.hostedBy hosts p).Nodup := by
  have hzip : (hosts.zip q.redex.roots).Pairwise fun a b => a.2 ≠ b.2 := by
    refine List.pairwise_map.mp ?_
    rw [List.map_snd_zip (by rw [hlen])]
    exact nodup_roots
  refine (List.Pairwise.filterMap (S := (· ≠ ·)) _ (fun a a' hne i hi i' hi' => ?_)
    (hzip.filter _))
  rintro rfl
  exact hne (hr.rootIndex_inj hi hi')

end Hosted

/-! ### The copy -/

/-- All of these places are copied, and no others. -/
def Covers (places : List (PlaceId × PlaceId)) (P : PlaceId → Prop) : Prop :=
  ∀ v, (∃ n, (v, n) ∈ places) ↔ P v

theorem Covers.cons {places : List (PlaceId × PlaceId)} {P Q : PlaceId → Prop} {v n : PlaceId}
    (h : Covers places P) (hQ : ∀ w, Q w ↔ w = v ∨ P w) : Covers ((v, n) :: places) Q := by
  intro w
  rw [hQ, ← h w]
  constructor
  · rintro ⟨n', hn'⟩
    rcases List.mem_cons.mp hn' with hw | hw
    · exact Or.inl (Prod.mk.inj hw).1
    · exact Or.inr ⟨n', hw⟩
  · rintro (rfl | ⟨n', hn'⟩)
    · exact ⟨n, List.mem_cons_self⟩
    · exact ⟨n', List.mem_cons_of_mem _ hn'⟩

section Context
variable (hq : q.Proper) (hh : q.HostsIn hosts)
include hq

theorem copyRoots_ok :
    ∃ s, q.agent.roots.foldlM (fun s r => s.root r ((q.agent.rootIndex r).getD 0))
        (Copy.new q.agent.signature) = .ok s ∧
      s.Shows q.contextBlueprint [] (fun _ => []) [] ∧ Covers s.places (· ∈ q.agent.roots) := by
  have hb := contextBlueprint_sound hq
  refine foldlM_ok (P := fun done (s : Copy) => s.Shows q.contextBlueprint [] (fun _ => []) [] ∧
    Covers s.places (· ∈ done)) ?_ ?_
  · refine ⟨⟨WellFormed.empty _, rfl, ?_, ?_⟩, fun v => by simp [Copy.new]⟩
    · constructor <;> simp [Copy.new, Construction.new, Bigraph.empty, isNode, node?, kind, isRoot,
        rootIndex, siteIndex, contextBlueprint]
    · constructor <;> simp [Copy.new, Construction.new, Bigraph.empty]
  · rintro done r rest s hl ⟨hs, hcov⟩
    have hr : r ∈ q.agent.roots := by rw [hl]; simp
    obtain ⟨i, hi⟩ := Option.isSome_iff_exists.mp (mem_roots.mp hr)
    have hnew : ∀ n, (r, n) ∉ s.places := by
      intro n hn
      exact not_mem_before nodup_roots hl ((hcov r).mp ⟨n, hn⟩)
    obtain ⟨s', n, hstep, hplaces, hs'⟩ := Copy.root_ok hb hs rfl hi hnew rfl
    refine ⟨s', by rw [hi]; exact hstep, hs', ?_⟩
    rw [hplaces]
    exact hcov.cons fun w => by rw [List.mem_append, List.mem_singleton, or_comm]

/-- The unmatched children of a place that is copied. -/
theorem copyChildren_ok {holes : List (Nat × PlaceId)} {names : List (String × Option LinkId)}
    {s : Copy} (hs : s.Shows q.contextBlueprint holes (fun _ => []) names) {p copy : PlaceId}
    (hp : (p, copy) ∈ s.places) (hnew : ∀ v ∈ q.unmatchedBelow m p, ∀ n, (v, n) ∉ s.places) :
    ∃ s', (q.unmatchedBelow m p).foldlM (Copy.node q.contextKind q.agent copy) s = .ok s' ∧
      s'.Shows q.contextBlueprint holes (fun _ => []) names ∧ s.places ⊆ s'.places ∧
      Covers s'.places fun v => (∃ n, (v, n) ∈ s.places) ∨ v ∈ q.unmatchedBelow m p := by
  have hb := contextBlueprint_sound hq
  refine foldlM_ok (P := fun done (s' : Copy) => s'.Shows q.contextBlueprint holes (fun _ => []) names ∧
    s.places ⊆ s'.places ∧ Covers s'.places fun v => (∃ n, (v, n) ∈ s.places) ∨ v ∈ done) ?_ ?_
  · exact ⟨hs, List.Subset.refl _, fun v => by simp⟩
  · rintro done v rest s' hl ⟨hs', hsub, hcov⟩
    have hv : v ∈ q.unmatchedBelow m p := by rw [hl]; simp
    obtain ⟨hpar, -⟩ := (mem_unmatchedBelow hq).mp hv
    have hnode : q.agent.isNode v := (hq.agent.isNode_or_isSite_of_parent hpar).resolve_right
      (by rw [isSite_agent]; exact Bool.false_ne_true)
    have hnew' : ∀ n, (v, n) ∉ s'.places := by
      intro n hn
      rcases (hcov v).mp ⟨n, hn⟩ with ⟨n', hn'⟩ | hdone
      · exact hnew v hv n' hn'
      · exact not_mem_before (nodup_unmatchedBelow hq p) hl hdone
    obtain ⟨s₂, n, hstep, hplaces, -, hs₂⟩ := Copy.node_ok hb hs' hnode hnew'
      (Or.inl ⟨p, hpar, hsub hp⟩) fun l hl => hq.agent.lt_of_mem_ports hl
    refine ⟨s₂, hstep, hs₂, fun x hx => by rw [hplaces]; exact List.mem_cons_of_mem _ (hsub hx), ?_⟩
    rw [hplaces]
    refine hcov.cons fun w => ?_
    rw [List.mem_append, List.mem_singleton, ← or_assoc, or_comm]

/-- A site for each root that the place hosts. -/
theorem copySites_ok (hlen : hosts.length = q.redex.roots.length)
    {holes : List (Nat × PlaceId)} {names : List (String × Option LinkId)} {s : Copy}
    (hs : s.Shows q.contextBlueprint holes (fun _ => []) names) {p copy : PlaceId}
    (hp : (p, copy) ∈ s.places)
    (hatomic : q.hostedBy hosts p ≠ [] → ∀ c, q.agent.control p = some c → ¬ c.isAtomic)
    (hnew : ∀ i ∈ q.hostedBy hosts p, ∀ h, (i, h) ∉ holes) :
    ∃ s', (q.hostedBy hosts p).foldlM (Copy.site copy) s = .ok s' ∧ s'.places = s.places ∧
      s'.Shows q.contextBlueprint (holes ++ (q.hostedBy hosts p).map (·, p)) (fun _ => [])
        names := by
  refine foldlM_ok (P := fun done (s' : Copy) => s'.places = s.places ∧
    s'.Shows q.contextBlueprint (holes ++ done.map (·, p)) (fun _ => []) names) ?_ ?_
  · exact ⟨rfl, by simpa using hs⟩
  · rintro done i rest s' hl ⟨hplaces, hs'⟩
    have hi : i ∈ q.hostedBy hosts p := by rw [hl]; simp
    have hnew' : ∀ h, (i, h) ∉ holes ++ done.map (·, p) := by
      intro h hm
      rcases List.mem_append.mp hm with hm | hm
      · exact hnew i hi h hm
      · obtain ⟨j, hj, hji⟩ := List.mem_map.mp hm
        rw [(Prod.mk.inj hji).1] at hj
        exact not_mem_before (nodup_hostedBy hq.redex hlen p) hl hj
    obtain ⟨s₂, hstep, hplaces₂, hs₂⟩ := Copy.site_ok hs' (by rw [hplaces]; exact hp)
      (hatomic (List.ne_nil_of_mem hi)) hnew'
    refine ⟨s₂, hstep, by rw [hplaces₂, hplaces], ?_⟩
    rw [List.map_append, ← List.append_assoc]
    exact hs₂

/-- What has been copied once the places `done` of the context have been visited. -/
structure Visited (q : Problem) (hosts : List PlaceId) (m : Mapping) (done : List PlaceId)
    (s : Copy) : Prop where
  covers : Covers s.places fun v => v ∈ q.agent.roots ∨ ∃ p ∈ done, v ∈ q.unmatchedBelow m p
  shows : ∃ holes, s.Shows q.contextBlueprint holes (fun _ => []) [] ∧
    ∀ i h, (i, h) ∈ holes ↔ h ∈ done ∧ i ∈ q.hostedBy hosts h

/-- The children of a place that has not been visited are not copied yet. -/
theorem Visited.not_copied {done : List PlaceId} {s : Copy} (hs : q.Visited hosts m done s)
    {p v : PlaceId} (hp : p ∉ done) (hv : v ∈ q.unmatchedBelow m p) (n : PlaceId) :
    (v, n) ∉ s.places := by
  intro hn
  have hpar := ((mem_unmatchedBelow hq).mp hv).1
  rcases (hs.covers v).mp ⟨n, hn⟩ with hr | ⟨p', hp', hv'⟩
  · rw [hq.agent.parent_root (mem_roots.mp hr)] at hpar
    cases hpar
  · have hpar' := ((mem_unmatchedBelow hq).mp hv').1
    rw [hpar, Option.some.injEq] at hpar'
    exact hp (hpar' ▸ hp')

include hh in
/-- **One more place of the context is visited.** -/
theorem copyBelow_ok {done rest : List PlaceId} {p : PlaceId} {s : Copy}
    (hl : q.contextRegion m = done ++ p :: rest) (hs : q.Visited hosts m done s) :
    ∃ s', q.copyBelow hosts m s p = .ok s' ∧ q.Visited hosts m (done ++ [p]) s' := by
  have hpdone : p ∉ done := not_mem_before (nodup_contextRegion hq) hl
  obtain ⟨holes, hshows, hholes⟩ := hs.shows
  obtain ⟨copy, hcopy⟩ := (hs.covers p).mpr (exists_before_of_generations hq.agent
    mem_children_of_mem_unmatchedBelow hq.agent.level_roots hl)
  obtain ⟨s₁, hfold₁, hs₁, hsub, hcov₁⟩ :=
    copyChildren_ok hq hshows hcopy fun v hv => hs.not_copied hq hpdone hv
  obtain ⟨s₂, hfold₂, hplaces, hs₂⟩ := copySites_ok hq hh.length_eq hs₁ (hsub hcopy)
    (fun hne => by
      obtain ⟨i, hi⟩ := List.exists_mem_of_ne_nil _ hne
      obtain ⟨k, r, hk, -, -⟩ := mem_hostedBy.mp hi
      exact hh.not_atomic p (List.mem_of_getElem? hk))
    (fun i hi h hm => by
      obtain ⟨hd, hi'⟩ := (hholes i h).mp hm
      rw [hostedBy_unique hq.redex hi' hi] at hd
      exact hpdone hd)
  have hlookup : s.places.lookup p = some copy := by
    cases hk : s.places.lookup p with
    | none => simpa using List.lookup_eq_none_iff.mp hk _ hcopy
    | some n => rw [hshows.key_unique (mem_of_lookup hk) hcopy]
  have hstep : q.copyBelow hosts m s p = .ok s₂ := by
    unfold copyBelow
    rw [hlookup]
    simp only [bind, Except.bind]
    rw [hfold₁]
    exact hfold₂
  exact ⟨s₂, hstep, {
    covers := fun v => by
      rw [hplaces]
      refine (hcov₁ v).trans ((or_congr_left (hs.covers v)).trans ?_)
      simp only [List.mem_append, List.mem_singleton, or_and_right, exists_or, exists_eq_left,
        or_assoc]
    shows := by
      refine ⟨_, hs₂, fun i h => ?_⟩
      rw [List.mem_append, hholes, List.mem_append, List.mem_singleton, List.mem_map]
      constructor
      · rintro (⟨hd, hi⟩ | ⟨j, hj, hji⟩)
        · exact ⟨Or.inl hd, hi⟩
        · cases hji
          exact ⟨Or.inr rfl, hj⟩
      · rintro ⟨hd | rfl, hi⟩
        · exact Or.inl ⟨hd, hi⟩
        · exact Or.inr ⟨i, hi, rfl⟩ }⟩

/-- Once the whole region is visited, the whole region is copied. -/
theorem Visited.covers_region {s : Copy} (hs : q.Visited hosts m (q.contextRegion m) s) :
    Covers s.places (· ∈ q.contextRegion m) := by
  intro v
  rw [hs.covers v]
  constructor
  · rintro (hr | ⟨p, hp, hv⟩)
    · exact mem_generations_of_reachable hq.agent mem_children_of_mem_unmatchedBelow
        hq.agent.level_roots hr .refl
    · exact mem_generations_of_below hq.agent mem_children_of_mem_unmatchedBelow
        hq.agent.level_roots hp hv
  · intro hv
    obtain ⟨done, rest, hl⟩ := List.append_of_mem hv
    rcases exists_before_of_generations hq.agent mem_children_of_mem_unmatchedBelow
      hq.agent.level_roots hl with hr | ⟨p, hp, hvp⟩
    · exact Or.inl hr
    · exact Or.inr ⟨p, by rw [hl]; exact List.mem_append_left _ hp, hvp⟩

/-- What the finished copy of the context shows, with these inner names. -/
structure ShowsContext (q : Problem) (hosts : List PlaceId) (m : Mapping)
    (names : List (String × Option LinkId)) (s : Copy) : Prop where
  covers : Covers s.places (· ∈ q.contextRegion m)
  shows : ∃ holes, s.Shows q.contextBlueprint holes (fun _ => []) names ∧
    ∀ i h, (i, h) ∈ holes ↔ i ∈ q.hostedBy hosts h
  idle : ∀ l ∈ q.agent.idleOuterNames, ∃ k, (l, k) ∈ s.links

omit hq in
theorem lt_of_mem_idleOuterNames {g : Bigraph} {l : LinkId} (h : l ∈ g.idleOuterNames) :
    l < g.links.size := by
  obtain ⟨n, hn⟩ := mem_outerNames.mp (List.mem_filter.mp h).1
  exact lt_of_linkKind hn

/-- The outer names without points are copied, whatever else is there. -/
theorem copyIdle_ok {holes : List (Nat × PlaceId)} {s : Copy}
    (hs : s.Shows q.contextBlueprint holes (fun _ => []) []) :
    ∃ s', q.agent.idleOuterNames.foldlM
        (fun s l => do return (← Copy.link q.contextKind s l).2) s = .ok s' ∧
      s'.places = s.places ∧ s'.Shows q.contextBlueprint holes (fun _ => []) [] ∧
        ∀ l ∈ q.agent.idleOuterNames, ∃ k, (l, k) ∈ s'.links := by
  refine foldlM_ok (P := fun done (s' : Copy) => s'.places = s.places ∧
    s'.Shows q.contextBlueprint holes (fun _ => []) [] ∧ ∀ l ∈ done, ∃ k, (l, k) ∈ s'.links)
    ⟨rfl, hs, by simp⟩ ?_
  rintro done l rest s₁ hl ⟨hplaces, hs₁, hdone⟩
  have hmem : l ∈ q.agent.idleOuterNames := by rw [hl]; simp
  obtain ⟨s₂, k, hstep, hk, hsub, hplaces₂, hs₂⟩ := Copy.link_ok (contextBlueprint_sound hq) hs₁
    (l := l) (lt_of_mem_idleOuterNames hmem)
  refine ⟨s₂, ?_, by rw [hplaces₂, hplaces], hs₂, fun l' hl' => ?_⟩
  · simp only [bind, Except.bind, pure, Except.pure]
    rw [show Copy.link q.contextKind s₁ l = .ok (k, s₂) from hstep]
  · rcases List.mem_append.mp hl' with hl' | hl'
    · obtain ⟨k', hk'⟩ := hdone l' hl'
      exact ⟨k', hsub hk'⟩
    · rw [List.mem_singleton] at hl'
      exact ⟨k, by rw [hl']; exact hk⟩

include hh in
/-- **The context is copied.** -/
theorem copyContext_ok (ho : q.Occurs hosts m) :
    ∃ s, q.copyContext hosts m = .ok s ∧ q.ShowsContext hosts m [] s := by
  obtain ⟨s₁, hfold₁, hs₁, hcov₁⟩ := copyRoots_ok hq
  obtain ⟨s₂, hfold₂, hs₂⟩ := foldlM_ok (f := q.copyBelow hosts m)
    (P := fun done (s : Copy) => q.Visited hosts m done s) (l := q.contextRegion m) (s := s₁)
    ⟨fun v => by rw [hcov₁ v]; simp, [], hs₁, by simp⟩
    fun done p rest s hl hs => copyBelow_ok hq hh hl hs
  obtain ⟨holes, hshows, hholes⟩ := hs₂.shows
  obtain ⟨s₃, hfold₃, hplaces, hs₃, hidle⟩ := copyIdle_ok hq hshows
  have hcopy : q.copyContext hosts m = .ok s₃ := by
    unfold copyContext
    simp only [bind, Except.bind]
    rw [hfold₁]
    simp only
    rw [show generations (q.unmatchedBelow m) q.agent.places.size q.agent.roots =
      q.contextRegion m from rfl, hfold₂]
    exact hfold₃
  exact ⟨s₃, hcopy, {
    covers := by
      rw [hplaces]
      exact hs₂.covers_region hq
    shows := by
      refine ⟨holes, hs₃, fun i h => ?_⟩
      rw [hholes, and_iff_right_iff_imp]
      intro hi
      obtain ⟨k, r, hk, -, -⟩ := mem_hostedBy.mp hi
      have hmem := List.mem_of_getElem? hk
      exact host_mem_contextRegion hq ho hmem (hh.lt_size h hmem)
    idle := hidle }⟩

end Context

end Problem

end Bigraphs
