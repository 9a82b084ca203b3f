import Bigraphs.Proofs.Matching.Plan
import Bigraphs.Proofs.Matching.Symmetry
import Mathlib.Data.List.Induction
import Mathlib.Data.List.Shortlex

/-! # Twins

Steps of the plan with one anchor and one shape are interchangeable. Each but the first of them has
the one before it as its twin (`twin_spec`), so a rule on twins is a rule on all of them: where the
value of a node has to exceed that of its twin, the values ascend along interchangeable steps
(`Ordered.lt`).

Values for the nodes can always be brought in order by a symmetry (`exists_ordered`): among all
rearrangements, the one with the least list of values along the plan is in order, since otherwise two
twins could be exchanged. And only one rearrangement is in order (`Symmetry.eq_self_of_ordered`): at
the first step that a symmetry moves, one order or the other is violated. -/

namespace Bigraphs

namespace Bigraph

variable {g : Bigraph}

/-- The steps hang at the same place and have one shape. -/
def Interchangeable (g : Bigraph) (s t : PlanStep) : Prop :=
  s.anchor = t.anchor ∧ g.shape s.node = g.shape t.node ∧ ∃ text, g.shape s.node = some text

/-- The value of each node exceeds that of its twin. -/
def Ordered (g : Bigraph) (f : PlaceId → Nat) : Prop :=
  ∀ (j i : Nat) s t, g.plan[j]? = some s → s.twin = some i → g.plan[i]? = some t → f t.node < f s.node

theorem Interchangeable.symm {s t : PlanStep} (h : g.Interchangeable s t) : g.Interchangeable t s := by
  obtain ⟨ha, hs, text, htext⟩ := h
  exact ⟨ha.symm, hs.symm, text, hs.symm.trans htext⟩

theorem Interchangeable.trans {s t u : PlanStep} (h : g.Interchangeable s t)
    (h' : g.Interchangeable t u) : g.Interchangeable s u :=
  ⟨h.1.trans h'.1, h.2.1.trans h'.2.1, h.2.2⟩

/-! ### The twin of a step -/

theorem areTwins_iff {s t : PlanStep} : areTwins g.shape s t ↔ g.Interchangeable s t := by
  unfold areTwins Interchangeable
  rw [Bool.and_eq_true, Bool.and_eq_true, decide_eq_true_eq, decide_eq_true_eq,
    Option.isSome_iff_exists]
  constructor
  · rintro ⟨⟨ha, x, hx⟩, hs⟩
    exact ⟨ha, hs, x, by rw [hs, hx]⟩
  · rintro ⟨ha, hs, x, hx⟩
    exact ⟨⟨ha, x, by rw [← hs, hx]⟩, hs⟩

theorem lastTwin_concat (steps : List PlanStep) (s t : PlanStep) :
    lastTwin g.shape (steps ++ [s]) t =
      if areTwins g.shape s t then some steps.length else lastTwin g.shape steps t := by
  unfold lastTwin
  rw [List.zipIdx_append, List.findRev?_eq_find?_reverse, List.findRev?_eq_find?_reverse,
    List.reverse_append]
  simp only [List.zipIdx_cons, List.zipIdx_nil, List.reverse_singleton, List.singleton_append,
    List.find?_cons]
  cases areTwins g.shape s t <;> simp

/-- The last of the steps that are interchangeable with `t`. -/
theorem lastTwin_spec {steps : List PlanStep} {t : PlanStep} :
    (∀ i, lastTwin g.shape steps t = some i → ∃ s, steps[i]? = some s ∧ g.Interchangeable s t) ∧
      ∀ (k : Nat) u, steps[k]? = some u → g.Interchangeable u t →
        ∃ i, lastTwin g.shape steps t = some i ∧ k ≤ i := by
  induction steps using List.reverseRecOn with
  | nil => exact ⟨fun i h => by simp [lastTwin] at h, fun k u h => by simp at h⟩
  | append_singleton steps s ih =>
    rw [lastTwin_concat]
    by_cases hs : areTwins g.shape s t
    · rw [if_pos hs]
      refine ⟨fun i hi => ?_, fun k u hu _ => ⟨_, rfl, ?_⟩⟩
      · cases hi
        exact ⟨s, by simp, areTwins_iff.mp hs⟩
      · have hk := (List.getElem?_eq_some_iff.mp hu).1
        rw [List.length_append, List.length_singleton] at hk
        omega
    · rw [if_neg hs]
      refine ⟨fun i hi => ?_, fun k u hu hut => ?_⟩
      · obtain ⟨u, hu, hut⟩ := ih.1 i hi
        exact ⟨u, by rw [List.getElem?_append_left (List.getElem?_eq_some_iff.mp hu).1]; exact hu, hut⟩
      · refine ih.2 k u ?_ hut
        rcases Nat.lt_or_ge k steps.length with hk | hk
        · rwa [List.getElem?_append_left hk] at hu
        · rw [List.getElem?_append_right hk, List.getElem?_singleton] at hu
          split at hu
          · cases hu
            exact absurd (areTwins_iff.mpr hut) hs
          · cases hu

/-- **The twin of a step** is the last earlier one that is interchangeable with it. -/
theorem twin_spec {j : Nat} {s : PlanStep} (h : g.plan[j]? = some s) :
    (∀ i, s.twin = some i → i < j ∧ ∃ t, g.plan[i]? = some t ∧ g.Interchangeable t s) ∧
      ∀ (k : Nat) u, k < j → g.plan[k]? = some u → g.Interchangeable u s →
        ∃ i, s.twin = some i ∧ k ≤ i := by
  obtain ⟨t, ht, rfl⟩ := getElem?_plan.mp h
  obtain ⟨hfound, hlast⟩ := @lastTwin_spec g (g.placement.take j) t
  constructor
  · intro i hi
    obtain ⟨u, hu, hut⟩ := hfound i hi
    rw [List.getElem?_take] at hu
    split at hu
    next hij => exact ⟨hij, _, getElem?_plan.mpr ⟨u, hu, rfl⟩, hut⟩
    next => cases hu
  · intro k u hk hu hut
    obtain ⟨v, hv, rfl⟩ := getElem?_plan.mp hu
    exact hlast k v (by rw [List.getElem?_take, if_pos hk]; exact hv) hut

/-- **Values in order ascend** along interchangeable steps. -/
theorem Ordered.lt {f : PlaceId → Nat} (hf : g.Ordered f) {i j : Nat} {s t : PlanStep}
    (hs : g.plan[i]? = some s) (ht : g.plan[j]? = some t) (hij : i < j)
    (hst : g.Interchangeable s t) : f s.node < f t.node := by
  induction j using Nat.strong_induction_on generalizing t with
  | _ j ih =>
    obtain ⟨k, hk, hik⟩ := (twin_spec ht).2 i s hij hs hst
    obtain ⟨hkj, u, hu, hut⟩ := (twin_spec ht).1 k hk
    have hlast := hf j k t u ht hk hu
    rcases Nat.eq_or_lt_of_le hik with rfl | hik
    · rw [hs, Option.some.injEq] at hu
      rwa [hu]
    · exact (ih k hkj hu hik (hst.trans hut.symm)).trans hlast

/-! ### Anchors and parents -/

section Plan
variable (hg : g.WellFormed)
include hg

/-- Only the values of nodes count. -/
theorem Ordered.congr {f f' : PlaceId → Nat} (h : g.Ordered f)
    (heq : ∀ x, g.isNode x → f' x = f x) : g.Ordered f' := by
  intro j i s t hs htwin ht
  have hlt := h j i s t hs htwin ht
  rwa [← heq _ (hg.isNode_of_plan hs), ← heq _ (hg.isNode_of_plan ht)] at hlt

/-- Steps hang at the same place if their nodes are siblings. -/
theorem anchor_eq_iff {i j : Nat} {s t : PlanStep} (hs : g.plan[i]? = some s)
    (ht : g.plan[j]? = some t) : s.anchor = t.anchor ↔ g.parent s.node = g.parent t.node := by
  have hroot : ∀ {p r u : PlaceId}, g.roots[p]? = some r → g.isNode u → r ≠ u := by
    rintro p r u hr hu rfl
    exact not_isRoot_of_isNode hu (mem_roots.mp (List.mem_of_getElem? hr))
  rcases plan_anchor hs with ⟨r, ha, hr, hm⟩ | ⟨k, u, ha, -, hu, hm, -⟩ <;>
    rcases plan_anchor ht with ⟨r', ha', hr', hm'⟩ | ⟨k', u', ha', -, hu', hm', -⟩ <;>
    rw [ha, ha', (hg.mem_vertexChildren.mp hm).1, (hg.mem_vertexChildren.mp hm').1,
      Option.some.injEq]
  · rw [Anchor.root.injEq]
    constructor
    · intro h
      rw [h, hr', Option.some.injEq] at hr
      exact hr.symm
    · rintro rfl
      exact roots_position_unique hr hr'
  · simp [hroot hr (hg.isNode_of_plan hu')]
  · simp [Ne.symm (hroot hr' (hg.isNode_of_plan hu))]
  · rw [Anchor.step.injEq]
    constructor
    · intro h
      rw [h, hu', Option.some.injEq] at hu
      rw [hu]
    · exact fun h => hg.plan_inj hu hu' h

/-- What lies below a node is not placed before it. -/
theorem le_of_aboveEq {i j : Nat} {s t : PlanStep} (hs : g.plan[i]? = some s)
    (ht : g.plan[j]? = some t) (h : g.AboveEq s.node t.node) : i ≤ j := by
  induction j using Nat.strong_induction_on generalizing t with
  | _ j ih =>
    rcases aboveEq_iff.mp h with heq | habove
    · exact (hg.plan_inj hs ht heq).le
    · rcases plan_anchor ht with ⟨r, -, hr, hm⟩ | ⟨k, u, -, hk, hu, hm, -⟩
      · have hroot := mem_roots.mp (List.mem_of_getElem? hr)
        have hsr := (above_iff_of_parent (hg.mem_vertexChildren.mp hm).1).mp habove
        rcases aboveEq_iff.mp hsr with heq | habove
        · exact absurd (heq ▸ hroot) (not_isRoot_of_isNode (hg.isNode_of_plan hs))
        · exact absurd habove (not_above_of_parent_eq_none (hg.parent_root hroot))
      · have := ih k hk hu ((above_iff_of_parent (hg.mem_vertexChildren.mp hm).1).mp habove)
        omega

/-- **Twins can be swapped.** -/
theorem exists_siblingSwap_of_twin (hplain : g.PlainNames) {i j : Nat} {s t : PlanStep}
    (hs : g.plan[j]? = some s) (htwin : s.twin = some i) (ht : g.plan[i]? = some t) :
    ∃ τ, g.SiblingSwap t.node s.node τ := by
  obtain ⟨hij, t', ht', hts⟩ := (twin_spec hs).1 i htwin
  rw [ht, Option.some.injEq] at ht'
  subst ht'
  obtain ⟨text, htext⟩ := hts.2.2
  have hpar := (anchor_eq_iff hg ht hs).mp hts.1
  have hne : t.node ≠ s.node := fun h => absurd (hg.plan_inj ht hs h) (Nat.ne_of_lt hij)
  obtain ⟨p, hp⟩ : ∃ p, g.parent t.node = some p := by
    rcases plan_anchor ht with ⟨r, -, -, hm⟩ | ⟨k, u, -, -, -, hm, -⟩
    · exact ⟨_, (hg.mem_vertexChildren.mp hm).1⟩
    · exact ⟨_, (hg.mem_vertexChildren.mp hm).1⟩
  exact exists_siblingSwap hg hplain htext (hts.2.1 ▸ htext) hp (hpar ▸ hp) hne

/-- **Values can be brought in order.** -/
theorem exists_ordered (hplain : g.PlainNames) {f : PlaceId → Nat}
    (hf : ∀ x y, g.isNode x → g.isNode y → f x = f y → x = y) :
    ∃ σ ∈ g.swaps, g.Ordered fun x => f (σ x) := by
  let values (σ : Equiv.Perm PlaceId) : List Nat := g.plan.map fun s => f (σ s.node)
  obtain ⟨_, ⟨σ, hσ, rfl⟩, hmin⟩ := (List.Shortlex.wf (r := (· < · : Nat → Nat → Prop))
    wellFounded_lt).has_min {l | ∃ σ ∈ g.swaps, values σ = l} ⟨_, 1, one_mem _, rfl⟩
  have hsymm := symmetry_of_mem_swaps hσ
  refine ⟨σ, hσ, fun j i s t hs hi ht => ?_⟩
  by_contra hnot
  obtain ⟨hij, -⟩ := (twin_spec hs).1 i hi
  have hne : t.node ≠ s.node := fun h => absurd (hg.plan_inj ht hs h) (Nat.ne_of_lt hij)
  obtain ⟨τ, hτ⟩ := exists_siblingSwap_of_twin hg hplain hs hi ht
  have hlt : f (σ s.node) < f (σ t.node) := by
    refine Nat.lt_of_le_of_ne (Nat.not_lt.mp hnot) fun heq => hne ?_
    refine (σ.injective (hf _ _ ?_ ?_ heq)).symm
    · rw [hsymm.isNode_apply]
      exact hg.isNode_of_plan hs
    · rw [hsymm.isNode_apply]
      exact hg.isNode_of_plan ht
  -- exchanging the twins lowers the value at step `i` and changes none before it
  refine hmin (values (σ * τ)) ⟨_, mul_mem hσ (Subgroup.subset_closure ⟨_, _, hτ⟩), rfl⟩
    (List.Shortlex.of_lex (by simp [values]) ?_)
  refine (List.lt_iff_lex_lt _ _).mp (List.lt_iff_exists.mpr (Or.inr ?_))
  have hilt := (List.getElem?_eq_some_iff.mp ht).1
  refine ⟨i, by simpa [values] using hilt, by simpa [values] using hilt, fun k hk => ?_, ?_⟩
  · have hklt : k < g.plan.length := hk.trans hilt
    have hu : g.plan[k]? = some g.plan[k] := List.getElem?_eq_getElem hklt
    have hfix : τ g.plan[k].node = g.plan[k].node := by
      refine hτ.outside _ (fun h => ?_) fun h => ?_
      · exact absurd (le_of_aboveEq hg ht hu h) (Nat.not_le.mpr hk)
      · exact absurd (le_of_aboveEq hg hs hu h) (Nat.not_le.mpr (hk.trans hij))
    simp [values, hfix]
  · have hti : g.plan[i] = t := (List.getElem?_eq_some_iff.mp ht).2
    simpa [values, hti, hτ.left] using hlt

/-- A symmetry that fixes the parent of a node moves the node to an interchangeable one. -/
theorem Symmetry.interchangeable {σ : Equiv.Perm PlaceId} (hσ : g.Symmetry σ) {j k : Nat}
    {s t : PlanStep} {p : PlaceId} {text : String} (hs : g.plan[j]? = some s)
    (ht : g.plan[k]? = some t) (hst : t.node = σ s.node) (hp : g.parent s.node = some p)
    (hfix : σ p = p) (htext : g.shape s.node = some text) : g.Interchangeable s t := by
  refine ⟨(anchor_eq_iff hg hs ht).mpr ?_, ?_, text, htext⟩
  · rw [hst, hσ.parent_apply hp, hfix, hp]
  · rw [hst, hσ.shape_eq hg]

omit hg in
/-- The first node that is moved goes to the node of a later step. -/
theorem lt_of_first_moved {σ : Equiv.Perm PlaceId} {j k : Nat} {s t : PlanStep}
    (hs : g.plan[j]? = some s) (ht : g.plan[k]? = some t) (hst : t.node = σ s.node)
    (hne : σ s.node ≠ s.node)
    (hfirst : ∀ i < j, ∀ u, g.plan[i]? = some u → σ u.node = u.node) : j < k := by
  rcases Nat.lt_trichotomy j k with hjk | rfl | hkj
  · exact hjk
  · rw [hs, Option.some.injEq] at ht
    rw [← ht] at hst
    exact absurd hst.symm hne
  · have hfix := hfirst k hkj t ht
    rw [hst] at hfix
    exact absurd (σ.injective hfix) hne

/-- **Only one rearrangement is in order.** -/
theorem Symmetry.eq_self_of_ordered (hr : g.Rooted) {ρ : Equiv.Perm PlaceId} (hρ : g.Symmetry ρ)
    {f : PlaceId → Nat} (hf : g.Ordered f) (hf' : g.Ordered fun x => f (ρ x)) {x : PlaceId}
    (hx : g.isNode x) : ρ x = x := by
  obtain ⟨j, s, hs, rfl⟩ := hg.exists_step hr hx
  induction j using Nat.strong_induction_on generalizing s with
  | _ j ih =>
    by_contra hne
    have hfirst : ∀ i < j, ∀ u, g.plan[i]? = some u → ρ u.node = u.node :=
      fun i hi u hu => ih i hi u hu (hg.isNode_of_plan hu)
    obtain ⟨p, hp, hρp⟩ : ∃ p, g.parent s.node = some p ∧ ρ p = p := by
      rcases plan_anchor hs with ⟨r, -, hr, hm⟩ | ⟨k, t, -, hk, ht, hm, -⟩
      · have hroot := mem_roots.mp (List.mem_of_getElem? hr)
        exact ⟨r, (hg.mem_vertexChildren.mp hm).1, hρ.fixes r (isNode_eq_false_of_isRoot hroot)⟩
      · exact ⟨t.node, (hg.mem_vertexChildren.mp hm).1, hfirst k hk t ht⟩
    have hnodes : ∀ y, g.AboveEq s.node y → g.isNode y := by
      intro y hy
      by_contra hn
      exact hne (hρ.fixes_above hy (hρ.fixes y (by simpa using hn)))
    obtain ⟨text, htext⟩ : ∃ text, g.shape s.node = some text :=
      exists_shape hg (Nat.le_add_left _ _) hnodes
    -- the step that the node is moved to, and the one that is moved to the node
    obtain ⟨k, t, ht, htx⟩ := hg.exists_step hr
      (x := ρ s.node) (by rw [hρ.isNode_apply]; exact hx)
    obtain ⟨i, u, hu, hux⟩ := hg.exists_step hr
      (x := ρ.symm s.node) (by rw [hρ.symm.isNode_apply]; exact hx)
    have hst := hρ.interchangeable hg hs ht htx hp hρp htext
    have hsu := hρ.symm.interchangeable hg hs hu hux hp
      ((Equiv.symm_apply_eq ρ).mpr hρp.symm) htext
    have hjk : j < k := lt_of_first_moved hs ht htx hne hfirst
    have hji : j < i := by
      refine lt_of_first_moved hs hu hux (fun h => hne ?_) fun l hl v hv => ?_
      · exact ((Equiv.symm_apply_eq ρ).mp h).symm
      · exact (Equiv.symm_apply_eq ρ).mpr (hfirst l hl v hv).symm
    have hup : f s.node < f t.node := hf.lt hs ht hjk hst
    have hdown : f (ρ s.node) < f (ρ u.node) := hf'.lt hs hu hji hsu
    rw [htx] at hup
    rw [hux, Equiv.apply_symm_apply] at hdown
    exact absurd hup (Nat.not_lt.mpr hdown.le)

/-- **The symmetries are what swaps of siblings bring about.** -/
theorem symmetry_iff_mem_swaps (hr : g.Rooted) (hplain : g.PlainNames) {σ : Equiv.Perm PlaceId} :
    g.Symmetry σ ↔ σ ∈ g.swaps := by
  refine ⟨fun hσ => ?_, symmetry_of_mem_swaps⟩
  -- the positions in the plan are in order, and so they are again after `σ` and some swaps
  let f (x : PlaceId) : Nat := (g.plan.map (·.node)).idxOf x
  have hpos : ∀ (j : Nat) s, g.plan[j]? = some s → f s.node = j := by
    intro j s hs
    obtain ⟨hj, rfl⟩ := List.getElem?_eq_some_iff.mp hs
    have := hg.nodup_plan.idxOf_getElem j (by simpa using hj)
    simpa [f] using this
  have hf : g.Ordered f := by
    intro j i s t hs htwin ht
    rw [hpos j s hs, hpos i t ht]
    exact ((twin_spec hs).1 i htwin).1
  have hinj : ∀ x y, g.isNode x → g.isNode y → f (σ x) = f (σ y) → x = y := by
    intro x y hx hy hxy
    obtain ⟨j, s, hs, hsx⟩ := hg.exists_step hr (x := σ x) (by rw [hσ.isNode_apply]; exact hx)
    obtain ⟨k, t, ht, hty⟩ := hg.exists_step hr (x := σ y) (by rw [hσ.isNode_apply]; exact hy)
    rw [← hsx, ← hty, hpos j s hs, hpos k t ht] at hxy
    subst hxy
    rw [hs, Option.some.injEq] at ht
    exact σ.injective (by rw [← hsx, ← hty, ht])
  obtain ⟨τ, hτ, hordered⟩ := exists_ordered hg hplain (f := fun x => f (σ x)) hinj
  have hστ : σ * τ = 1 := by
    have hsymm := hσ.mul (symmetry_of_mem_swaps hτ)
    refine Equiv.ext fun x => ?_
    by_cases hx : g.isNode x
    · exact hsymm.eq_self_of_ordered hg hr hf hordered hx
    · exact hsymm.fixes x (by simpa using hx)
  rw [eq_inv_of_mul_eq_one_left hστ]
  exact inv_mem hτ

end Plan

end Bigraph

end Bigraphs
