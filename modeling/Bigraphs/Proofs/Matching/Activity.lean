import Bigraphs.Proofs.Graph.Listing
import Bigraphs.Proofs.Matching.Decomposition

/-! # When a context is active

A place is in the open when all nodes at and above it have active controls (`ActiveFrom`). A copy keeps
controls and what lies above what, so the copy of a place is in the open just when the place is. The
sites of the context lie below the copies of the hosts, one for each root, hence the inactive ones are
those for the roots whose hosts are not in the open (`Anatomy.passiveRoots`). -/

namespace Bigraphs

namespace Bigraph

variable {g : Bigraph}

/-- All nodes at and above `p` have active controls. -/
def ActiveFrom (g : Bigraph) (p : PlaceId) : Prop :=
  ∀ a c, g.AboveEq a p → g.control a = some c → c.isActive

theorem activeFrom_of_parent {p q : PlaceId} (h : g.parent p = some q) :
    g.ActiveFrom p ↔ (∀ c, g.control p = some c → c.isActive) ∧ g.ActiveFrom q := by
  constructor
  · exact fun hp => ⟨fun c hc => hp p c .refl hc, fun a c ha hc => hp a c (ha.tail h) hc⟩
  · rintro ⟨hp, hq⟩ a c ha hc
    rcases aboveEq_iff.mp ha with rfl | ha
    · exact hp c hc
    · exact hq a c ((above_iff_of_parent h).mp ha) hc

/-- A bigraph is active when no site is inactive. -/
theorem isActive_eq_isEmpty (g : Bigraph) : g.isActive = g.inactiveSites.isEmpty := by
  unfold isActive inactiveSites
  induction g.sites.filterMap g.siteIndex with
  | nil => rfl
  | cons i is ih =>
    rw [List.all_cons, List.filter_cons, ih]
    cases g.isActiveAt i <;> rfl

section WellFormed
variable (hg : g.WellFormed)
include hg

theorem activeFrom_of_root {r : PlaceId} (h : g.isRoot r) : g.ActiveFrom r := by
  intro a c ha hc
  rcases aboveEq_iff.mp ha with rfl | ha
  · obtain ⟨i, hi⟩ := isRoot_iff.mp h
    obtain ⟨d, hd, -⟩ := control_eq_some_iff.mp hc
    rw [node?_eq_some_iff, hi] at hd
    cases hd
  · exact absurd ha (not_above_of_parent_eq_none (hg.parent_root h))

theorem isActiveAbove_iff {s p : PlaceId} (h : g.parent s = some p) :
    g.isActiveAbove s ↔ g.ActiveFrom p := by
  unfold isActiveAbove ActiveFrom
  rw [List.all_eq_true]
  constructor
  · intro hs a c ha hc
    have := hs a (hg.mem_ancestors.mpr ((above_iff_of_parent h).mpr ha))
    rwa [hc] at this
  · intro hp a ha
    cases hc : g.control a with
    | none => rfl
    | some c => exact hp a c ((above_iff_of_parent h).mp (hg.mem_ancestors.mp ha)) hc

theorem isActiveAt_of_siteIndex {s : PlaceId} {i : Nat} (h : g.siteIndex s = some i) :
    g.isActiveAt i = g.isActiveAbove s := by
  have hs : s ∈ g.sites := mem_sites.mpr (by rw [isSite, h]; rfl)
  unfold isActiveAt
  cases hf : g.sites.find? (g.siteIndex · = some i) with
  | none => exact absurd h (by simpa using List.find?_eq_none.mp hf s hs)
  | some s' =>
    have hi := List.find?_some hf
    rw [decide_eq_true_eq] at hi
    rw [hg.siteIndex_inj hi h]

/-- The sites that are listed have a node above them that is not active. -/
theorem mem_inactiveSites {i : Nat} :
    i ∈ g.inactiveSites ↔ ∃ s, g.siteIndex s = some i ∧ ¬ g.isActiveAbove s := by
  unfold inactiveSites
  rw [List.mem_filter, List.mem_filterMap]
  constructor
  · rintro ⟨⟨s, -, hs⟩, hi⟩
    rw [isActiveAt_of_siteIndex hg hs] at hi
    exact ⟨s, hs, by simpa using hi⟩
  · rintro ⟨s, hs, hi⟩
    refine ⟨⟨s, mem_sites.mpr (by rw [isSite, hs]; rfl), hs⟩, ?_⟩
    rw [isActiveAt_of_siteIndex hg hs]
    simpa using hi

/-- The sites are listed in ascending order, each once. -/
theorem pairwise_inactiveSites : g.inactiveSites.Pairwise (· < ·) :=
  (pairwise_filterMap_index (pairwise_sites hg)).filter _

end WellFormed

end Bigraph

namespace Problem

open Bigraph

variable {q : Problem} {hosts : List PlaceId} {m : Mapping}

/-- The copy of a place is in the open just when the place is. -/
theorem activeFrom_copy {s : Copy} {holes : List (Nat × PlaceId)}
    {names : List (String × Option LinkId)} (hq : q.Proper)
    (hs : s.Shows q.contextBlueprint holes (fun _ => []) names) {v n : PlaceId}
    (h : (v, n) ∈ s.places) : s.target.graph.ActiveFrom n ↔ q.agent.ActiveFrom v := by
  induction v using hq.agent.acyclic.induction generalizing n with
  | _ v ih =>
    have hbare := hs.places.bare_eq h
    rcases hs.places.is_vertex h with hr | hn
    · have hroot : s.target.graph.isRoot n := by rw [isRoot_of_bare hbare]; exact hr
      exact ⟨fun _ => activeFrom_of_root hq.agent hr, fun _ => activeFrom_of_root hs.wellFormed hroot⟩
    · obtain ⟨n', hp', ⟨p, hp, hm⟩ | ⟨htop, -⟩⟩ := hs.places.hangs h hn
      · have hpar : q.agent.parent v = some p := hp
        rw [activeFrom_of_parent hp', activeFrom_of_parent hpar, ih p hpar hm,
          control_of_bare hbare]
        rfl
      · cases htop

/-- These are the indices of the roots whose hosts are not in the open, ascending. -/
structure PassiveRoots (q : Problem) (hosts : List PlaceId) (indices : List Nat) : Prop where
  ascending : indices.Pairwise (· < ·)
  mem_iff : ∀ i, i ∈ indices ↔ ∃ (p : Nat) (h r : PlaceId), hosts[p]? = some h ∧
    q.redex.roots[p]? = some r ∧ q.redex.rootIndex r = some i ∧ ¬ q.agent.ActiveFrom h

/-- There is such a root just when some host is not in the open. -/
theorem PassiveRoots.eq_nil_iff {indices : List Nat} (h : q.PassiveRoots hosts indices)
    (hlen : hosts.length = q.redex.roots.length) :
    indices = [] ↔ ∀ host ∈ hosts, q.agent.ActiveFrom host := by
  constructor
  · rintro rfl host hhost
    by_contra hpassive
    obtain ⟨p, hp⟩ := List.mem_iff_getElem?.mp hhost
    have hlt : p < q.redex.roots.length := by
      rw [← hlen]
      exact (List.getElem?_eq_some_iff.mp hp).1
    obtain ⟨i, hi⟩ := isRoot_iff.mp (mem_roots.mp (List.getElem_mem hlt))
    have hmem := (h.mem_iff i).mpr ⟨p, host, _, hp, List.getElem?_eq_getElem hlt,
      rootIndex_eq_some_iff.mpr hi, hpassive⟩
    exact List.not_mem_nil hmem
  · intro hopen
    refine List.eq_nil_iff_forall_not_mem.mpr fun i hi => ?_
    obtain ⟨p, host, -, hp, -, -, hpassive⟩ := (h.mem_iff i).mp hi
    exact hpassive (hopen host (List.mem_of_getElem? hp))

/-- **The inactive sites of the context** are those for the roots whose hosts are not in the open. -/
theorem Anatomy.passiveRoots {pieces : Decomposition} {context : Copy} {parts : List Part}
    {b : Border} (hq : q.Proper) (ha : q.Anatomy hosts m pieces context parts b) :
    q.PassiveRoots hosts pieces.context.inactiveSites := by
  obtain ⟨holes, hshows, hholes⟩ := ha.context.shows
  rw [ha.context_eq]
  refine ⟨pairwise_inactiveSites hshows.wellFormed, fun i => ?_⟩
  rw [mem_inactiveSites hshows.wellFormed]
  constructor
  · rintro ⟨s, hs, hpassive⟩
    obtain ⟨host, n, hhole, hn, hpar⟩ := hshows.places.site hs
    obtain ⟨p, r, hp, hr, hi⟩ := mem_hostedBy.mp ((hholes i host).mp hhole)
    refine ⟨p, host, r, hp, hr, hi, fun hopen => hpassive ?_⟩
    exact (isActiveAbove_iff hshows.wellFormed hpar).mpr ((activeFrom_copy hq hshows hn).mpr hopen)
  · rintro ⟨p, host, r, hp, hr, hi, hpassive⟩
    obtain ⟨s, n, hs, hn, hpar⟩ := hshows.places.exists_site ((hholes i host).mpr
      (mem_hostedBy.mpr ⟨p, r, hp, hr, hi⟩))
    refine ⟨s, hs, fun habove => hpassive ?_⟩
    exact (activeFrom_copy hq hshows hn).mp ((isActiveAbove_iff hshows.wellFormed hpar).mp habove)

/-- **The context is active** just when the hosts are in the open. -/
theorem Anatomy.inactiveSites_eq_nil_iff {pieces : Decomposition} {context : Copy}
    {parts : List Part} {b : Border} (hq : q.Proper)
    (hlen : hosts.length = q.redex.roots.length)
    (ha : q.Anatomy hosts m pieces context parts b) :
    pieces.context.inactiveSites = [] ↔ ∀ h ∈ hosts, q.agent.ActiveFrom h :=
  (ha.passiveRoots hq).eq_nil_iff hlen

end Problem

end Bigraphs
