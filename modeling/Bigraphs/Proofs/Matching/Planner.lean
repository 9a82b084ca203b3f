import Bigraphs.Proofs.Graph.Traversals
import Bigraphs.Proofs.Matching.Shape
import Bigraphs.Proofs.Matching.Twins

/-! # The planner makes the plan

The queue of the planner ends with the placement (`ends_planner`), and the table it fills in post-order
holds the shapes (`getElem?_shapeTable`), since a place comes after its children there. So what it makes is
the plan (`plan_eq_markTwins`). `plan_spec` says what the plan is like: all nodes in it once, anchors at the
parents, twins at the nearest earlier sibling of the same shape, so that all those siblings are met on the
way from twin to twin (`exists_twinChain`). -/

namespace Bigraphs

namespace Bigraph

variable {g : Bigraph}

/-! ### The queue -/

/-- The steps of the nodes under the node of step `k`. -/
def stepsUnder (g : Bigraph) (k : Nat) (s : PlanStep) : List PlanStep :=
  (g.vertexChildren s.node).map fun c => ⟨c, .step k, s.root, none⟩

theorem nextLayer_steps (first : Nat) (steps : List PlanStep) :
    Queue.nextLayer g.stepsUnder first steps = g.stepsBelow first steps := rfl

section WellFormed
variable (hg : g.WellFormed)
include hg

theorem ends_plannerRound {n d : Nat} {steps done : List PlanStep}
    (hl : g.Level n d (steps.map (·.node))) :
    Ends g.plannerRound ⟨steps, done⟩ (done ++ g.stepsFrom n done.length steps) := by
  induction n generalizing d steps done with
  | zero =>
    rw [List.map_eq_nil_iff.mp (hl.eq_nil hg)]
    exact .now (by simp [plannerRound, Queue.round, stepsFrom])
  | succ n ih =>
    have hnext : g.Level n (d + 1) ((g.stepsBelow done.length steps).map (·.node)) := by
      rw [map_node_stepsBelow]
      exact hl.flatMap hg mem_children_of_mem_vertexChildren
    have hrest : Ends g.plannerRound ⟨g.stepsBelow done.length steps, done ++ steps⟩
        (done ++ steps ++ g.stepsFrom n (done ++ steps).length (g.stepsBelow done.length steps)) :=
      ih hnext
    rw [List.append_assoc, List.length_append, ← stepsFrom_succ, ← nextLayer_steps] at hrest
    refine Queue.ends_generation g.stepsUnder (fun k s hs => ?_) hrest
    rw [readChildren_eq (hl.lt_size s.node (List.mem_map_of_mem hs))]
    rfl

/-- **The queue of the planner ends,** and has handed out the placement. -/
theorem ends_planner : Ends g.plannerRound g.plannerStart g.placement := by
  have hlevel : g.Level g.places.size 1 (g.plannerStart.waiting.map (·.node)) := by
    rw [plannerStart, map_node_topSteps]
    exact hg.level_topNodes
  exact ends_plannerRound hg hlevel

/-! ### The table of shapes -/

/-- The table holds the shapes of the places that have been looked at. -/
structure ShapesEntered (g : Bigraph) (done : List PlaceId) (shapes : Array (Option String)) : Prop where
  size_eq : shapes.size = g.places.size
  shape_eq : ∀ p, shapes[p]?.join = if p ∈ done then g.shape p else none

theorem ShapesEntered.enter {done : List PlaceId} {shapes : Array (Option String)} {p : PlaceId}
    (h : g.ShapesEntered done shapes) (hp : p < g.places.size) (hnew : p ∉ done)
    (hbelow : ∀ c, g.parent c = some p → c ∈ done) :
    g.ShapesEntered (done ++ [p]) (g.enterShape shapes p) := by
  have hmapM : ((g.children p).mapM fun c => shapes[c]?.join) = (g.children p).mapM g.shape := by
    refine mapM_congr fun c hc => ?_
    rw [h.shape_eq, if_pos (hbelow c (hg.mem_children.mp hc))]
  -- the table as it should be after this place
  have hset : ∀ o, g.shape p = o → ∀ shapes', shapes'.size = shapes.size →
      (∀ q, shapes'[q]?.join = if q = p then o else shapes[q]?.join) →
      g.ShapesEntered (done ++ [p]) shapes' := by
    intro o ho shapes' hsize hget
    refine ⟨hsize.trans h.size_eq, fun q => ?_⟩
    rw [hget, h.shape_eq]
    by_cases hq : q = p
    · simp [hq, ho]
    · simp [hq]
  have hsame : g.shape p = none → g.ShapesEntered (done ++ [p]) shapes := by
    intro hnone
    refine hset none hnone shapes rfl fun q => ?_
    by_cases hq : q = p
    · rw [if_pos hq, hq, h.shape_eq, if_neg hnew]
    · rw [if_neg hq]
  unfold enterShape
  cases hd : g.node? p with
  | none => exact hsame (shape_eq_none_of_node? hd)
  | some d =>
    have hshape := shape_eq_shapeText hg hd
    rw [hmapM]
    cases hm : (g.children p).mapM g.shape with
    | none => exact hsame (by rw [hshape, hm]; rfl)
    | some below =>
      refine hset _ (by rw [hshape, hm]) _ (Array.size_setIfInBounds ..) fun q => ?_
      rw [Array.getElem?_setIfInBounds, h.size_eq, if_pos hp]
      by_cases hq : q = p
      · rw [if_pos hq, if_pos hq.symm]; rfl
      · rw [if_neg hq, if_neg (Ne.symm hq)]

/-- **The table holds the shapes.** -/
theorem getElem?_shapeTable (hr : g.Rooted) (p : PlaceId) : g.shapeTable[p]?.join = g.shape p := by
  have hentered : g.ShapesEntered g.postOrder g.shapeTable := by
    refine foldl_spec ⟨Array.size_replicate, fun q => ?_⟩ fun done a rest shapes hl h => ?_
    · rw [Array.getElem?_replicate]
      split <;> simp
    · have ha : a ∈ g.postOrder := by rw [hl]; simp
      exact h.enter hg ((hg.mem_postOrder hr).mp ha) (not_mem_before hg.nodup_postOrder hl)
        (hg.childrenFirst_postOrder done a rest hl)
  rw [hentered.shape_eq]
  by_cases hp : p < g.places.size
  · rw [if_pos ((hg.mem_postOrder hr).mpr hp)]
  · rw [if_neg fun h => hp ((hg.mem_postOrder hr).mp h), shape_eq_none (Nat.not_lt.mp hp)]

/-- **What the planner makes is the plan.** -/
theorem plan_eq_markTwins (hr : g.Rooted) :
    g.plan = markTwins (fun p => g.shapeTable[p]?.join) g.placement := by
  rw [plan_eq, funext (getElem?_shapeTable hg hr)]

/-! ### Anchors -/

theorem anchor_eq_root_iff {j : Nat} {s : PlanStep} (h : g.plan[j]? = some s) {i : Nat} :
    s.anchor = .root i ↔ ∃ r, g.roots[i]? = some r ∧ g.parent s.node = some r := by
  rcases plan_anchor h with ⟨r, ha, hr, hm⟩ | ⟨k, t, ha, hk, ht, hm, -⟩ <;>
    have hp := (hg.mem_vertexChildren.mp hm).1 <;> rw [ha]
  · rw [Anchor.root.injEq]
    constructor
    · rintro rfl
      exact ⟨r, hr, hp⟩
    · rintro ⟨r', hr', hp'⟩
      rw [hp, Option.some.injEq] at hp'
      exact roots_position_unique hr (hp' ▸ hr')
  · refine iff_of_false (by simp) ?_
    rintro ⟨r, hr, hp'⟩
    rw [hp, Option.some.injEq] at hp'
    have hroot := mem_roots.mp (List.mem_of_getElem? hr)
    exact not_isRoot_of_isNode (hg.isNode_of_plan ht) (hp' ▸ hroot)

theorem anchor_eq_step_iff {j : Nat} {s : PlanStep} (h : g.plan[j]? = some s) {k : Nat} :
    s.anchor = .step k ↔ k < j ∧ ∃ t, g.plan[k]? = some t ∧ g.parent s.node = some t.node := by
  rcases plan_anchor h with ⟨r, ha, hr, hm⟩ | ⟨k', t, ha, hk, ht, hm, -⟩ <;>
    have hp := (hg.mem_vertexChildren.mp hm).1 <;> rw [ha]
  · refine iff_of_false (by simp) ?_
    rintro ⟨-, t, ht, hp'⟩
    rw [hp, Option.some.injEq] at hp'
    have hroot := mem_roots.mp (List.mem_of_getElem? hr)
    exact not_isRoot_of_isNode (hg.isNode_of_plan ht) (hp' ▸ hroot)
  · rw [Anchor.step.injEq]
    constructor
    · rintro rfl
      exact ⟨hk, t, ht, hp⟩
    · rintro ⟨-, t', ht', hp'⟩
      rw [hp, Option.some.injEq] at hp'
      exact hg.plan_inj ht ht' hp'

/-! ### From twin to twin -/

omit hg in
/-- **The twin of a step** is the interchangeable step before it with no other in between. -/
theorem twin_eq_some_iff {j : Nat} {s : PlanStep} (h : g.plan[j]? = some s) {i : Nat} :
    s.twin = some i ↔ i < j ∧ (∃ t, g.plan[i]? = some t ∧ g.Interchangeable t s) ∧
      ∀ k t, i < k → k < j → g.plan[k]? = some t → ¬ g.Interchangeable t s := by
  obtain ⟨hfound, hlast⟩ := twin_spec h
  constructor
  · intro hi
    obtain ⟨hij, t, ht, hts⟩ := hfound i hi
    refine ⟨hij, ⟨t, ht, hts⟩, fun k u hik hkj hu hus => ?_⟩
    obtain ⟨i', hi', hki'⟩ := hlast k u hkj hu hus
    rw [hi, Option.some.injEq] at hi'
    omega
  · rintro ⟨hij, ⟨t, ht, hts⟩, hbetween⟩
    obtain ⟨i', hi', hii'⟩ := hlast i t hij ht hts
    obtain ⟨hi'j, t', ht', hts'⟩ := hfound i' hi'
    rcases Nat.eq_or_lt_of_le hii' with rfl | hlt
    · exact hi'
    · exact absurd hts' (hbetween i' t' hlt hi'j ht')

/-- **From twin to twin:** the positions that are met from step `j` on. -/
inductive TwinChain (steps : List PlanStep) : Nat → List Nat → Prop where
  | stop {j : Nat} {s : PlanStep} (h : steps[j]? = some s) (hs : s.twin = none) : TwinChain steps j []
  | follow {i j : Nat} {s : PlanStep} {l : List Nat} (h : steps[j]? = some s) (hs : s.twin = some i)
    (rest : TwinChain steps i l) : TwinChain steps j (i :: l)

/-- An earlier step whose node is a sibling of the same shape. -/
def EarlierTwin (g : Bigraph) (j : Nat) (s : PlanStep) (i : Nat) : Prop :=
  i < j ∧ ∃ t, g.plan[i]? = some t ∧ g.parent t.node = g.parent s.node ∧
    g.shape t.node = g.shape s.node ∧ (g.shape s.node).isSome

theorem earlierTwin_iff {j : Nat} {s : PlanStep} (h : g.plan[j]? = some s) {i : Nat} :
    g.EarlierTwin j s i ↔ i < j ∧ ∃ t, g.plan[i]? = some t ∧ g.Interchangeable t s := by
  refine and_congr_right fun _ => exists_congr fun t => and_congr_right fun ht => ?_
  rw [Interchangeable, anchor_eq_iff hg ht h, Option.isSome_iff_exists]
  refine and_congr_right fun _ => and_congr_right fun hshape => ?_
  rw [hshape]

/-- **From twin to twin all earlier siblings of the same shape are met,** the last one first. -/
theorem exists_twinChain {j : Nat} {s : PlanStep} (h : g.plan[j]? = some s) :
    ∃ l, TwinChain g.plan j l ∧ l.Pairwise (· > ·) ∧ ∀ i, i ∈ l ↔ g.EarlierTwin j s i := by
  induction j using Nat.strong_induction_on generalizing s with
  | _ j ih =>
    obtain ⟨hfound, hlast⟩ := twin_spec h
    cases htwin : s.twin with
    | none =>
      refine ⟨[], .stop h htwin, .nil, fun i => ?_⟩
      rw [earlierTwin_iff hg h]
      refine iff_of_false (by simp) ?_
      rintro ⟨hij, t, ht, hts⟩
      obtain ⟨k, hk, -⟩ := hlast i t hij ht hts
      rw [htwin] at hk
      cases hk
    | some i =>
      obtain ⟨hij, ⟨t, ht, hts⟩, hbetween⟩ := (twin_eq_some_iff h).mp htwin
      obtain ⟨l, hchain, hdesc, hmem⟩ := ih i hij ht
      refine ⟨i :: l, .follow h htwin hchain, List.pairwise_cons.mpr ⟨fun k hk => ?_, hdesc⟩,
        fun k => ?_⟩
      · exact ((hmem k).mp hk).1
      · rw [List.mem_cons, hmem, earlierTwin_iff hg ht, earlierTwin_iff hg h]
        constructor
        · rintro (rfl | ⟨hki, u, hu, hut⟩)
          · exact ⟨hij, t, ht, hts⟩
          · exact ⟨hki.trans hij, u, hu, hut.trans hts⟩
        · rintro ⟨hkj, u, hu, hus⟩
          rcases Nat.lt_trichotomy k i with hki | rfl | hik
          · exact Or.inr ⟨hki, u, hu, hus.trans hts.symm⟩
          · exact Or.inl rfl
          · exact absurd hus (hbetween k u hik hkj hu)

end WellFormed

/-- **A step of the plan is what it should be:** it hangs at the parent of its node, it knows the root
at the top, and its twin is the nearest earlier step with the same anchor and the same shape. -/
structure StepOk (g : Bigraph) (j : Nat) (s : PlanStep) : Prop where
  anchor_root : ∀ i, s.anchor = .root i ↔ ∃ r, g.roots[i]? = some r ∧ g.parent s.node = some r
  anchor_step : ∀ k, s.anchor = .step k ↔
    k < j ∧ ∃ t, g.plan[k]? = some t ∧ g.parent s.node = some t.node
  root : ∃ r, g.roots[s.root]? = some r ∧ g.Above r s.node ∧ g.parent r = none
  twin : ∀ i, s.twin = some i ↔ i < j ∧ (∃ t, g.plan[i]? = some t ∧ g.Interchangeable t s) ∧
    ∀ k t, i < k → k < j → g.plan[k]? = some t → ¬ g.Interchangeable t s
  twins : ∃ l, TwinChain g.plan j l ∧ l.Pairwise (· > ·) ∧ ∀ i, i ∈ l ↔ g.EarlierTwin j s i

/-- **The planner ends with the plan,** and the plan goes through all nodes once, parents first, from
twin to twin. -/
theorem plan_spec (h : g.Constructible) :
    (∃ steps, Ends g.plannerRound g.plannerStart steps ∧
      g.plan = markTwins (fun p => g.shapeTable[p]?.join) steps) ∧
    (g.plan.map (·.node)).Perm g.nodes ∧
    ∀ j s, g.plan[j]? = some s → g.StepOk j s := by
  have hg := h.wellFormed
  refine ⟨⟨g.placement, ends_planner hg, plan_eq_markTwins hg h.rooted⟩,
    hg.map_node_plan_perm h.rooted, fun j s hs => ?_⟩
  obtain ⟨r, hr, habove⟩ := hg.plan_root hs
  have htop := hg.parent_root (mem_roots.mp (List.mem_of_getElem? hr))
  exact ⟨fun i => anchor_eq_root_iff hg hs, fun k => anchor_eq_step_iff hg hs, ⟨r, hr, habove, htop⟩,
    fun i => twin_eq_some_iff hs, exists_twinChain hg hs⟩

end Bigraph

/-! ### Three persons, two rooms -/

/-- Three persons, two rooms between them, and a person in the first room. -/
def crowd : Bigraph :=
  ((Construction.new ⟨[⟨"Person", 0, .atomic⟩, ⟨"Room", 0, .active⟩], by decide⟩).run [.root 0,
    .node "Person" "x", .nest 1 0, .node "Room" "a", .nest 2 0, .node "Person" "y", .nest 3 0,
    .node "Room" "b", .nest 4 0, .node "Person" "z", .nest 5 0, .node "Person" "w", .nest 6 2]).graph

theorem plan_spec_crowd : crowd.Constructible ∧
    (∃ steps, Ends crowd.plannerRound crowd.plannerStart steps ∧
      crowd.plan = Bigraph.markTwins (fun p => crowd.shapeTable[p]?.join) steps) ∧
    (crowd.plan.map (·.node)).Perm [1, 2, 3, 4, 5, 6] ∧
    crowd.plan[4]? = some ⟨5, .root 0, 0, some 2⟩ ∧ crowd.StepOk 4 ⟨5, .root 0, 0, some 2⟩ := by
  have h : crowd.Constructible := Bigraph.constructible_run (by decide)
  obtain ⟨hends, hperm, hok⟩ := Bigraph.plan_spec h
  have hstep : crowd.plan[4]? = some ⟨5, .root 0, 0, some 2⟩ := by decide +kernel
  exact ⟨h, hends, hperm, hstep, hok 4 _ hstep⟩

end Bigraphs
