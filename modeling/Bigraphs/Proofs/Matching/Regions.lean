import Bigraphs.Proofs.Matching.Occurs

/-! # How an occurrence divides the agent

The matched nodes below a host form a connected piece: what lies between two of them is matched
(`matched_between`). Hence the places of the agent fall into three parts: the context, reached from the
roots without passing a matched node (`mem_contextRegion`), the matched nodes, and what hangs below an
unmatched child of a matched node, where nothing is matched (`not_matched_of_region`). Such a child is
only there when the redex node has a site (`exists_site_of_unmatched`), and no host lies outside the
context (`host_mem_contextRegion`). -/

namespace Bigraphs

namespace Problem

open Bigraph

variable {q : Problem} {hosts : List PlaceId} {m : Mapping}

/-- Agent place `y` is matched. -/
def Matched (m : Mapping) (y : PlaceId) : Prop := ∃ x, (x, y) ∈ m

/-- The context: what is reached from the roots without passing a matched node. -/
def contextRegion (q : Problem) (m : Mapping) : List PlaceId :=
  generations (q.unmatchedBelow m) q.agent.places.size q.agent.roots

/-- What hangs below the unmatched children of `y`. -/
def regionBelow (q : Problem) (m : Mapping) (y : PlaceId) : List PlaceId :=
  generations q.agent.children q.agent.places.size (q.unmatchedBelow m y)

theorem mem_unmatchedBelow (hq : q.Proper) {c p : PlaceId} :
    c ∈ q.unmatchedBelow m p ↔ q.agent.parent c = some p ∧ ¬ Matched m c := by
  unfold unmatchedBelow Matched
  rw [List.mem_filter, hq.agent.mem_children]
  refine and_congr_right fun _ => ?_
  rw [Bool.not_eq_true', ← Bool.not_eq_true, List.any_eq_true, Prod.exists]
  simp

theorem nodup_unmatchedBelow (hq : q.Proper) (p : PlaceId) : (q.unmatchedBelow m p).Nodup :=
  (hq.agent.nodup_children p).filter _

theorem mem_children_of_mem_unmatchedBelow {c p : PlaceId} (h : c ∈ q.unmatchedBelow m p) :
    c ∈ q.agent.children p :=
  (List.mem_filter.mp h).1

theorem level_unmatchedBelow (hq : q.Proper) (p : PlaceId) :
    q.agent.Level q.agent.places.size (q.agent.depth p + 1) (q.unmatchedBelow m p) where
  depth_eq x hx := (hq.agent.level_children p).depth_eq x (mem_children_of_mem_unmatchedBelow hx)
  lt_size x hx := (hq.agent.level_children p).lt_size x (mem_children_of_mem_unmatchedBelow hx)
  enough := (hq.agent.level_children p).enough

section Regions
variable (hq : q.Proper) (ho : q.Occurs hosts m)
include hq ho

/-- The image of a node hangs under the host of a root, or under the image of a node. -/
theorem parent_cases {x y : PlaceId} (h : (x, y) ∈ m) :
    (∃ (p : Nat) (r k : PlaceId), q.redex.roots[p]? = some r ∧ q.redex.parent x = some r ∧
      hosts[p]? = some k ∧ q.agent.parent y = some k) ∨
        ∃ x' y', q.redex.parent x = some x' ∧ (x', y') ∈ m ∧ q.agent.parent y = some y' := by
  obtain ⟨x', hp⟩ := hq.redex_rooted.exists_parent (ho.isNode_fst h)
  cases hroot : q.redex.isRoot x' with
  | true =>
    obtain ⟨p, hpos⟩ := List.mem_iff_getElem?.mp (mem_roots.mpr hroot)
    obtain ⟨k, hk, hy⟩ := ho.under_root x y p x' h hpos hp
    exact Or.inl ⟨p, x', k, hpos, hp, hk, hy⟩
  | false =>
    obtain ⟨y', hm'⟩ := ho.exists_image (hq.redex.isNode_of_above hp hroot)
    exact Or.inr ⟨x', y', hp, hm', ho.under_node x y x' y' h hm' hp⟩

/-- A matched node lies below the host of the root above its node. -/
theorem below_host {x y : PlaceId} (h : (x, y) ∈ m) :
    ∃ (p : Nat) (r k : PlaceId), q.redex.roots[p]? = some r ∧ q.redex.Above r x ∧
      hosts[p]? = some k ∧ q.agent.Above k y := by
  induction x using hq.redex.acyclic.induction generalizing y with
  | _ x ih =>
    rcases parent_cases hq ho h with ⟨p, r, k, hpos, hp, hk, hy⟩ | ⟨x', y', hp, hm', hy⟩
    · exact ⟨p, r, k, hpos, .single hp, hk, .single hy⟩
    · obtain ⟨p, r, k, hpos, hr, hk, hky⟩ := ih x' hp hm'
      exact ⟨p, r, k, hpos, hr.tail hp, hk, hky.tail hy⟩

/-- No matched node is a host or lies above one. -/
theorem not_aboveEq_host {x y k : PlaceId} (h : (x, y) ∈ m) (hk : k ∈ hosts) :
    ¬ q.agent.AboveEq y k := by
  obtain ⟨p, r, k', hpos, hr, hk', hky⟩ := below_host hq ho h
  obtain ⟨p', hp'⟩ := List.mem_iff_getElem?.mp hk
  intro hyk
  by_cases hpp : p' = p
  · rw [hpp, hk', Option.some.injEq] at hp'
    subst hp'
    refine hq.agent.not_above_self k' ?_
    exact Relation.TransGen.trans_left hky hyk
  · exact ho.disjoint x y p p' r k h hpos hr hp' hpp hyk

/-- Below a matched node, the parent of a matched node is matched. -/
theorem matched_parent {x y x' z : PlaceId} (h : (x, y) ∈ m) (h' : (x', z) ∈ m)
    (hyz : q.agent.Above y z) :
    ∃ x'' w, q.redex.parent x' = some x'' ∧ (x'', w) ∈ m ∧ q.agent.parent z = some w := by
  rcases parent_cases hq ho h' with ⟨p, r, k, -, -, hk, hz⟩ | hmatched
  · exact absurd ((above_iff_of_parent hz).mp hyz)
      (not_aboveEq_host hq ho h (List.mem_of_getElem? hk))
  · exact hmatched

/-- What lies between two matched nodes is matched. -/
theorem matched_between {x y c z : PlaceId} (h : (x, y) ∈ m) (hyc : q.agent.Above y c)
    (hcz : q.agent.AboveEq c z) (hz : Matched m z) : Matched m c := by
  induction hcz with
  | refl => exact hz
  | @tail b z hcb hbz ih =>
    obtain ⟨x', hz⟩ := hz
    have hyb : q.agent.Above y b := Relation.TransGen.trans_left hyc hcb
    obtain ⟨x'', w, -, hw, hpw⟩ := matched_parent hq ho h hz (hyb.tail hbz)
    have hbw : some b = some w := hbz.symm.trans hpw
    cases hbw
    exact ih ⟨x'', hw⟩

/-! ### The three parts -/

omit hq in
theorem not_matched_root {r : PlaceId} (hr : q.agent.isRoot r) : ¬ Matched m r := by
  rintro ⟨x, hx⟩
  exact absurd hr (not_isRoot_of_isNode (ho.isNode_snd hx))

theorem mem_contextRegion {v : PlaceId} :
    v ∈ q.contextRegion m ↔ v < q.agent.places.size ∧ ∀ w, q.agent.AboveEq w v → ¬ Matched m w := by
  unfold contextRegion
  rw [mem_generations hq.agent mem_children_of_mem_unmatchedBelow hq.agent.level_roots]
  constructor
  · rintro ⟨r, hr, hrv⟩
    have hroot := mem_roots.mp hr
    induction hrv with
    | refl =>
      refine ⟨hq.agent.level_roots.lt_size r hr, fun w hw => ?_⟩
      rcases aboveEq_iff.mp hw with rfl | hw
      · exact not_matched_root ho hroot
      · exact absurd hw (not_above_of_parent_eq_none (hq.agent.parent_root hroot))
    | @tail b c _ hbc ih =>
      obtain ⟨hp, hc⟩ := (mem_unmatchedBelow hq).mp hbc
      refine ⟨lt_of_parent hp, fun w hw => ?_⟩
      rcases aboveEq_iff.mp hw with rfl | hw
      · exact hc
      · exact ih.2 w ((above_iff_of_parent hp).mp hw)
  · rintro ⟨hv, hw⟩
    obtain ⟨r, hr, hrv⟩ := hq.agent.exists_root hq.agent_rooted hv
    refine ⟨r, mem_roots.mpr hr, ?_⟩
    clear hv
    induction hrv with
    | refl => exact .refl
    | @tail b c hrb hbc ih =>
      exact (ih fun w hwb => hw w (hwb.tail hbc)).tail
        ((mem_unmatchedBelow hq).mpr ⟨hbc, hw c .refl⟩)

omit ho in
theorem mem_regionBelow {v y : PlaceId} :
    v ∈ q.regionBelow m y ↔
      ∃ c, q.agent.parent c = some y ∧ ¬ Matched m c ∧ q.agent.AboveEq c v := by
  unfold regionBelow
  rw [mem_generations hq.agent id (level_unmatchedBelow hq y)]
  constructor
  · rintro ⟨c, hc, hcv⟩
    obtain ⟨hp, hn⟩ := (mem_unmatchedBelow hq).mp hc
    exact ⟨c, hp, hn, hq.agent.reachable_children_iff.mp hcv⟩
  · rintro ⟨c, hp, hn, hcv⟩
    exact ⟨c, (mem_unmatchedBelow hq).mpr ⟨hp, hn⟩, hq.agent.reachable_children_iff.mpr hcv⟩

omit ho in
theorem nodup_contextRegion : (q.contextRegion m).Nodup :=
  nodup_generations hq.agent mem_children_of_mem_unmatchedBelow (nodup_unmatchedBelow hq)
    hq.agent.level_roots nodup_roots

omit ho in
theorem nodup_regionBelow (y : PlaceId) : (q.regionBelow m y).Nodup :=
  nodup_generations hq.agent id hq.agent.nodup_children (level_unmatchedBelow hq y)
    (nodup_unmatchedBelow hq y)

/-- **The hosts lie in the context.** -/
theorem host_mem_contextRegion {k : PlaceId} (hk : k ∈ hosts) (hlt : k < q.agent.places.size) :
    k ∈ q.contextRegion m := by
  refine (mem_contextRegion hq ho).mpr ⟨hlt, ?_⟩
  rintro w hw ⟨x, hx⟩
  exact not_aboveEq_host hq ho hx hk hw

/-- **Nothing is matched in a parameter.** -/
theorem not_matched_of_region {v y : PlaceId} (hy : Matched m y) (hv : v ∈ q.regionBelow m y) :
    ¬ Matched m v := by
  obtain ⟨x, hx⟩ := hy
  obtain ⟨c, hp, hn, hcv⟩ := (mem_regionBelow hq).mp hv
  exact fun hmv => hn (matched_between hq ho hx (.single hp) hcv hmv)

/-- **Every place is in the context, matched, or below a matched node.** -/
theorem region_cases {v : PlaceId} (hv : v < q.agent.places.size) :
    v ∈ q.contextRegion m ∨ Matched m v ∨ ∃ x y, (x, y) ∈ m ∧ v ∈ q.regionBelow m y := by
  induction v using hq.agent.acyclic.induction with
  | _ v ih =>
    by_cases hm : Matched m v
    · exact Or.inr (Or.inl hm)
    · cases hp : q.agent.parent v with
      | none =>
        refine Or.inl ((mem_contextRegion hq ho).mpr ⟨hv, fun w hw => ?_⟩)
        rcases aboveEq_iff.mp hw with rfl | hw
        · exact hm
        · exact absurd hw (not_above_of_parent_eq_none hp)
      | some p =>
        rcases ih p hp (hq.agent.lt_of_isParent hp) with hc | ⟨x, hx⟩ | ⟨x, y, hx, hy⟩
        · refine Or.inl ((mem_contextRegion hq ho).mpr ⟨hv, fun w hw => ?_⟩)
          rcases aboveEq_iff.mp hw with rfl | hw
          · exact hm
          · exact ((mem_contextRegion hq ho).mp hc).2 w ((above_iff_of_parent hp).mp hw)
        · exact Or.inr (Or.inr ⟨x, p, hx, (mem_regionBelow hq).mpr ⟨v, hp, hm, .refl⟩⟩)
        · obtain ⟨c, hcy, hc, hcp⟩ := (mem_regionBelow hq).mp hy
          exact Or.inr (Or.inr ⟨x, y, hx, (mem_regionBelow hq).mpr ⟨c, hcy, hc, hcp.tail hp⟩⟩)

theorem not_context_of_region {v y : PlaceId} (hy : Matched m y) (hv : v ∈ q.regionBelow m y) :
    v ∉ q.contextRegion m := by
  obtain ⟨c, hp, -, hcv⟩ := (mem_regionBelow hq).mp hv
  exact fun h => ((mem_contextRegion hq ho).mp h).2 y (.head hp hcv) hy

/-- A place is below one matched node only. -/
theorem region_unique {v y y' : PlaceId} (hy : Matched m y) (hy' : Matched m y')
    (hv : v ∈ q.regionBelow m y) (hv' : v ∈ q.regionBelow m y') : y = y' := by
  have key : ∀ {y y' : PlaceId}, Matched m y → Matched m y' → v ∈ q.regionBelow m y →
      q.agent.AboveEq y' v → q.agent.AboveEq y y' → y = y' := by
    rintro y y' ⟨x, hx⟩ hy' hv hyv' hyy'
    obtain ⟨c, hp, hc, hcv⟩ := (mem_regionBelow hq).mp hv
    rcases aboveEq_iff.mp hyy' with h | hyy'
    · exact h
    · obtain ⟨c', hyc', hcy'⟩ := Relation.TransGen.head'_iff.mp hyy'
      have hcc' : c = c' := by
        rcases WellFormed.aboveEq_total hcv (hcy'.trans hyv') with h | h
        · rcases aboveEq_iff.mp h with h | h
          · exact h
          · exact absurd ((above_iff_of_parent hyc').mp h)
              (fun h => hq.agent.not_above_self y (.head' hp h))
        · rcases aboveEq_iff.mp h with h | h
          · exact h.symm
          · exact absurd ((above_iff_of_parent hp).mp h)
              (fun h => hq.agent.not_above_self y (.head' hyc' h))
      rw [← hcc'] at hcy'
      exact absurd (matched_between hq ho hx (.single hp) hcy' hy') hc
  have habove : ∀ {y}, v ∈ q.regionBelow m y → q.agent.AboveEq y v := by
    intro y hv
    obtain ⟨c, hp, -, hcv⟩ := (mem_regionBelow hq).mp hv
    exact .head hp hcv
  rcases WellFormed.aboveEq_total (habove hv) (habove hv') with h | h
  · exact key hy hy' hv (habove hv') h
  · exact (key hy' hy hv' (habove hv) h).symm

/-- An unmatched child of a matched node is tolerated by a site. -/
theorem exists_site_of_unmatched {x y c : PlaceId} (h : (x, y) ∈ m) (hp : q.agent.parent c = some y)
    (hc : ¬ Matched m c) : ∃ s, q.redex.isSite s ∧ q.redex.parent s = some x := by
  by_contra hsite
  have hno : ∀ s, q.redex.isSite s → q.redex.parent s ≠ some x := fun s hs hps =>
    hsite ⟨s, hs, hps⟩
  have hlen := ho.closed_below x y h hno
  rw [← hq.redex.vertexChildren_eq_children hno] at hlen
  obtain ⟨hnodup, hmem⟩ := ho.childImages_spec hq h
  have hperm := (List.subperm_of_subset hnodup fun d hd => (hmem d hd).1).perm_of_length_le
    (by simp [hlen])
  exact hc (hmem c (hperm.mem_iff.mpr (hq.agent.mem_children.mpr hp))).2

end Regions

end Problem

end Bigraphs
