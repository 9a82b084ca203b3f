import Bigraphs.Matching.Plan
import Bigraphs.Proofs.Graph.Vertices

/-! # The plan goes through all nodes, parents first

The plan places every node of the redex once (`map_node_plan_perm`). A step hangs where the parent of
its node is: under the root at the recorded position, or under an earlier step (`plan_anchor`). The
twin of a step is the last earlier step with the same anchor and the same shape (`twin_spec`). -/

namespace Bigraphs

namespace Bigraph

variable {g : Bigraph}

/-! ### Placement -/

theorem map_node_stepsBelow (first : Nat) (steps : List PlanStep) :
    (g.stepsBelow first steps).map (·.node) = (steps.map (·.node)).flatMap g.vertexChildren := by
  unfold stepsBelow
  induction steps generalizing first with
  | nil => rfl
  | cons s steps ih =>
    rw [List.zipIdx_cons, List.flatMap_cons, List.map_append, ih]
    simp [List.map_map, Function.comp_def]

theorem stepsFrom_succ (n first : Nat) (steps : List PlanStep) :
    g.stepsFrom (n + 1) first steps =
      steps ++ g.stepsFrom n (first + steps.length) (g.stepsBelow first steps) := by
  cases steps with
  | nil => cases n <;> simp [stepsFrom, stepsBelow]
  | cons s steps => rfl

theorem map_node_stepsFrom (n first : Nat) (steps : List PlanStep) :
    (g.stepsFrom n first steps).map (·.node) =
      generations g.vertexChildren n (steps.map (·.node)) := by
  induction n generalizing first steps with
  | zero => rfl
  | succ n ih =>
    rw [stepsFrom_succ, generations_cons, List.map_append, ih, map_node_stepsBelow]

theorem map_node_topSteps (l : List PlaceId) (k : Nat) :
    ((l.zipIdx k).flatMap fun (r, i) =>
      (g.vertexChildren r).map fun c => (⟨c, .root i, i, none⟩ : PlanStep)).map (·.node) =
      l.flatMap g.vertexChildren := by
  induction l generalizing k with
  | nil => rfl
  | cons r l ih =>
    rw [List.zipIdx_cons, List.flatMap_cons, List.map_append, ih]
    simp [List.map_map, Function.comp_def]

theorem map_node_placement (g : Bigraph) :
    g.placement.map (·.node) =
      generations g.vertexChildren g.places.size (g.roots.flatMap g.vertexChildren) := by
  rw [placement, map_node_stepsFrom, map_node_topSteps]

theorem mem_stepsBelow {first : Nat} {steps : List PlanStep} {s : PlanStep}
    (h : s ∈ g.stepsBelow first steps) :
    ∃ k t, steps[k]? = some t ∧ s.anchor = .step (first + k) ∧ s.node ∈ g.vertexChildren t.node ∧
      s.root = t.root ∧ s.twin = none := by
  obtain ⟨⟨t, k⟩, htk, hs⟩ := List.mem_flatMap.mp h
  obtain ⟨c, hc, rfl⟩ := List.mem_map.mp hs
  obtain ⟨hk, ht⟩ := List.mk_mem_zipIdx_iff_le_and_getElem?_sub.mp htk
  exact ⟨k - first, t, ht, by rw [Nat.add_sub_cancel' hk], hc, rfl, rfl⟩

/-- A step beyond the first generation hangs under an earlier step. -/
theorem stepsFrom_anchor {n first : Nat} {steps : List PlanStep} {j : Nat} {s : PlanStep}
    (h : (g.stepsFrom n first steps)[j]? = some s) :
    steps[j]? = some s ∨ ∃ k t, k < j ∧ (g.stepsFrom n first steps)[k]? = some t ∧
      s.anchor = .step (first + k) ∧ s.node ∈ g.vertexChildren t.node ∧ s.root = t.root := by
  induction n generalizing first steps j with
  | zero => simp [stepsFrom] at h
  | succ n ih =>
    rw [stepsFrom_succ] at h ⊢
    by_cases hj : j < steps.length
    · rw [List.getElem?_append_left hj] at h
      exact Or.inl h
    · have hj := Nat.not_lt.mp hj
      rw [List.getElem?_append_right hj] at h
      right
      rcases ih h with hs | ⟨k, t, hk, ht, ha, hm, hroot⟩
      · obtain ⟨k, t, ht, ha, hm, hroot, -⟩ := mem_stepsBelow (List.mem_of_getElem? hs)
        have hk := (List.getElem?_eq_some_iff.mp ht).1
        exact ⟨k, t, by omega, by rw [List.getElem?_append_left hk]; exact ht, ha, hm, hroot⟩
      · refine ⟨steps.length + k, t, by omega, ?_, by rw [ha, Nat.add_assoc], hm, hroot⟩
        rw [List.getElem?_append_right (by omega), Nat.add_sub_cancel_left]
        exact ht

/-- Where a step hangs: under the root at its position, or under an earlier step of the list. -/
def Hangs (g : Bigraph) (steps : List PlanStep) (j : Nat) (s : PlanStep) : Prop :=
  (∃ r, s.anchor = .root s.root ∧ g.roots[s.root]? = some r ∧ s.node ∈ g.vertexChildren r) ∨
    ∃ k t, s.anchor = .step k ∧ k < j ∧ steps[k]? = some t ∧ s.node ∈ g.vertexChildren t.node ∧
      s.root = t.root

theorem placement_anchor {j : Nat} {s : PlanStep} (h : g.placement[j]? = some s) :
    g.Hangs g.placement j s := by
  rcases stepsFrom_anchor h with hs | ⟨k, t, hk, ht, ha, hm, hroot⟩
  · obtain ⟨⟨r, i⟩, hri, hs⟩ := List.mem_flatMap.mp (List.mem_of_getElem? hs)
    obtain ⟨c, hc, rfl⟩ := List.mem_map.mp hs
    exact Or.inl ⟨r, rfl, List.mk_mem_zipIdx_iff_getElem?.mp hri, hc⟩
  · exact Or.inr ⟨k, t, by rw [ha, Nat.zero_add], hk, ht, hm, hroot⟩

/-! ### The plan -/

theorem shape_eq_none_of_node? {p : PlaceId} (h : g.node? p = none) : g.shape p = none := by
  unfold shape
  cases g.places.size with
  | zero => rfl
  | succ n => simp [shapeWithin, h]

theorem shape_eq_none {p : PlaceId} (h : g.places.size ≤ p) : g.shape p = none :=
  shape_eq_none_of_node? (by rw [node?, kind_eq_none_iff.mpr h]; rfl)

theorem plan_eq (g : Bigraph) : g.plan = markTwins g.shape g.placement := by
  have hshape : (fun p => (g.placeIds.map g.shape).toArray[p]?.join) = g.shape := by
    funext p
    by_cases hp : p < g.places.size
    · simp [placeIds, hp]
    · simp [placeIds, hp, shape_eq_none (Nat.not_lt.mp hp)]
  simp only [plan, hshape]
  rfl

theorem getElem?_plan {j : Nat} {s : PlanStep} :
    g.plan[j]? = some s ↔ ∃ t, g.placement[j]? = some t ∧
      s = ⟨t.node, t.anchor, t.root, lastTwin g.shape (g.placement.take j) t⟩ := by
  simp only [plan_eq, markTwins, List.getElem?_map, List.getElem?_zipIdx, Option.map_map, Nat.zero_add,
    Option.map_eq_some_iff, Function.comp_def]
  exact exists_congr fun t => and_congr_right fun _ => eq_comm

theorem map_node_plan (g : Bigraph) : g.plan.map (·.node) = g.placement.map (·.node) := by
  refine List.ext_getElem? fun j => ?_
  simp [plan, List.getElem?_zipIdx, Option.map_map, Function.comp_def]

theorem plan_anchor {j : Nat} {s : PlanStep} (h : g.plan[j]? = some s) : g.Hangs g.plan j s := by
  obtain ⟨t, ht, rfl⟩ := getElem?_plan.mp h
  rcases placement_anchor ht with ⟨r, ha, hr, hm⟩ | ⟨k, u, ha, hk, hu, hm, hroot⟩
  · exact Or.inl ⟨r, ha, hr, hm⟩
  · exact Or.inr ⟨k, _, ha, hk, getElem?_plan.mpr ⟨u, hu, rfl⟩, hm, hroot⟩

namespace WellFormed

variable (hg : g.WellFormed)
include hg

/-- The recorded position is that of the root above the node. -/
theorem plan_root {j : Nat} {s : PlanStep} (h : g.plan[j]? = some s) :
    ∃ r, g.roots[s.root]? = some r ∧ g.Above r s.node := by
  induction j using Nat.strong_induction_on generalizing s with
  | _ j ih =>
    rcases plan_anchor h with ⟨r, -, hr, hm⟩ | ⟨k, t, -, hk, ht, hm, hroot⟩
    · exact ⟨r, hr, .single (hg.mem_vertexChildren.mp hm).1⟩
    · obtain ⟨r, hr, habove⟩ := ih k hk ht
      exact ⟨r, by rw [hroot]; exact hr, habove.tail (hg.mem_vertexChildren.mp hm).1⟩

theorem nodup_plan : (g.plan.map (·.node)).Nodup := by
  rw [map_node_plan, map_node_placement]
  exact hg.nodup_generations_topNodes

theorem isNode_of_plan {j : Nat} {s : PlanStep} (hs : g.plan[j]? = some s) : g.isNode s.node := by
  rcases plan_anchor hs with ⟨r, -, -, hm⟩ | ⟨k, t, -, -, -, hm, -⟩
  · exact (hg.mem_vertexChildren.mp hm).2
  · exact (hg.mem_vertexChildren.mp hm).2

theorem mem_map_node_plan (hr : g.Rooted) {x : PlaceId} :
    x ∈ g.plan.map (·.node) ↔ g.isNode x := by
  rw [map_node_plan, map_node_placement]
  exact hg.mem_generations_topNodes hr

/-- **The plan places every node once.** -/
theorem map_node_plan_perm (hr : g.Rooted) : (g.plan.map (·.node)).Perm g.nodes := by
  rw [List.perm_ext_iff_of_nodup hg.nodup_plan nodup_nodes]
  intro x
  rw [hg.mem_map_node_plan hr, mem_nodes]

/-- The nodes of two steps at different positions differ. -/
theorem plan_inj {j k : Nat} {s t : PlanStep} (hs : g.plan[j]? = some s)
    (ht : g.plan[k]? = some t) (h : s.node = t.node) : j = k := by
  have hj := (List.getElem?_eq_some_iff.mp hs).1
  refine (List.getElem?_inj (by simpa using hj) hg.nodup_plan).mp ?_
  rw [List.getElem?_map, List.getElem?_map, hs, ht, Option.map_some, Option.map_some, h]

theorem exists_step (hr : g.Rooted) {x : PlaceId} (hx : g.isNode x) :
    ∃ (j : Nat) (s : PlanStep), g.plan[j]? = some s ∧ s.node = x := by
  obtain ⟨s, hs, hsx⟩ := List.mem_map.mp ((hg.mem_map_node_plan hr).mpr hx)
  obtain ⟨j, hj⟩ := List.mem_iff_getElem?.mp hs
  exact ⟨j, s, hj, hsx⟩

end WellFormed

end Bigraph

end Bigraphs
