import Bigraphs.Proofs.Graph.Renumbering
import Bigraphs.Proofs.Matching.Completeness
import Mathlib.Data.Fintype.EquivFin

/-! # Renumbered problems

What occurs in an agent occurs in the same places when the agent and the redex are numbered differently
(`Occurs.renumbered`), for to occur is said without numbers. The search does go by the numbers: they
decide which of the rearrangements of an occurrence is yielded, and in which order. But each occurrence is
yielded once, so the occurrences of the one problem and those of the other correspond one to one
(`occurrences_renumbered`). -/

namespace Bigraphs

open Bigraph

/-- **A mapping with other numbers** for the nodes of the redex and of the agent. -/
def Mapping.renumbered (redex agent : Equiv.Perm PlaceId) (m : Mapping) : Mapping :=
  m.map fun e => (redex e.1, agent e.2)

theorem Mapping.mem_renumbered {redex agent : Equiv.Perm PlaceId} {m : Mapping} {x y : PlaceId} :
    (redex x, agent y) ∈ m.renumbered redex agent ↔ (x, y) ∈ m := by
  unfold Mapping.renumbered
  rw [List.mem_map]
  constructor
  · rintro ⟨⟨x', y'⟩, h, heq⟩
    obtain ⟨hx, hy⟩ := Prod.mk.inj heq
    rwa [← redex.injective hx, ← agent.injective hy]
  · exact fun h => ⟨(x, y), h, rfl⟩

namespace Bigraph

namespace Renumbering

variable {g g' : Bigraph} (f : Renumbering g g')

theorem activeFrom_iff {p : PlaceId} : g'.ActiveFrom (f.place p) ↔ g.ActiveFrom p := by
  constructor
  · intro h a c ha hc
    exact h (f.place a) c (f.aboveEq_iff.mpr ha) (by rw [f.control_eq, hc])
  · intro h a' c ha hc
    obtain ⟨a, rfl⟩ := f.place.surjective a'
    rw [f.control_eq] at hc
    exact h a c (f.aboveEq_iff.mp ha) hc

include f in
theorem plainNames (h : g.PlainNames) : g'.PlainNames := by
  intro p' c hc
  obtain ⟨p, rfl⟩ := f.place.surjective p'
  rw [f.control_eq] at hc
  exact h p c hc

/-- A symmetry read with the numbers from before. -/
theorem symmetry {σ : Equiv.Perm PlaceId} (hσ : g'.Symmetry σ) :
    g.Symmetry (f.place.symm * σ * f.place) where
  fixes p hp := by
    rw [Equiv.Perm.mul_apply, Equiv.Perm.mul_apply, hσ.fixes _ (by rw [f.isNode_eq, hp]),
      Equiv.symm_apply_apply]
  parent_eq p := by
    have h := f.symm.parent_eq (σ (f.place p))
    rw [hσ.parent_eq, f.parent_eq, Option.map_map, Option.map_map] at h
    exact h
  control_eq p := by
    have h := f.symm.control_eq (σ (f.place p))
    rw [hσ.control_eq, f.control_eq] at h
    exact h
  ports_eq p := by
    have h := f.symm.ports_eq (σ (f.place p))
    rw [hσ.ports_eq, f.ports_eq, List.map_map] at h
    rw [show g.ports ((f.place.symm * σ * f.place) p) = _ from h]
    simp [Renumbering.symm]

/-- Mappings that have a rearrangement in common after the renumbering are rearrangements of one
another. -/
theorem interchanged_of_common {agent : Equiv.Perm PlaceId} {m₁ m₂ m' : Mapping}
    (h₁ : g'.Interchanged (m₁.renumbered f.place agent) m')
    (h₂ : g'.Interchanged (m₂.renumbered f.place agent) m') : g.Interchanged m₁ m₂ := by
  obtain ⟨σ, hσ, h₁⟩ := h₁
  obtain ⟨τ, hτ, h₂⟩ := h₂
  refine ⟨_, f.symmetry (hσ.mul hτ.symm), fun x y => ?_⟩
  -- `x` goes back to the common rearrangement by `τ`, and on to the first mapping by `σ`
  calc (x, y) ∈ m₂
      ↔ (τ (τ.symm (f.place x)), agent y) ∈ m₂.renumbered f.place agent := by
        rw [Equiv.apply_symm_apply, Mapping.mem_renumbered]
    _ ↔ (τ.symm (f.place x), agent y) ∈ m' := (h₂ _ _).symm
    _ ↔ (σ (τ.symm (f.place x)), agent y) ∈ m₁.renumbered f.place agent := h₁ _ _
    _ ↔ ((f.place.symm * (σ * τ.symm) * f.place) x, y) ∈ m₁ := by
        rw [← f.place.apply_symm_apply (σ (τ.symm (f.place x))), Mapping.mem_renumbered]
        rfl

end Renumbering

end Bigraph

namespace Problem

variable {q q' : Problem} {hosts : List PlaceId} {m : Mapping}

/-- **What occurs, occurs under other numbers.** -/
theorem Occurs.renumbered (hq : q.Proper) (hq' : q'.Proper) (h : Renumbering q.redex q'.redex)
    (f : Renumbering q.agent q'.agent) (ho : q.Occurs hosts m) :
    q'.Occurs (hosts.map f.place) (m.renumbered h.place f.place) := by
  have hroots := h.roots_eq hq.redex hq'.redex
  have hpair : ∀ {x' y'}, (x', y') ∈ m.renumbered h.place f.place →
      ∃ x y, h.place x = x' ∧ f.place y = y' ∧ (x, y) ∈ m := by
    intro x' y' hxy
    obtain ⟨⟨x, y⟩, hxy, heq⟩ := List.mem_map.mp hxy
    exact ⟨x, y, (Prod.mk.inj heq).1, (Prod.mk.inj heq).2, hxy⟩
  have hroot : ∀ {p : Nat} {r'}, q'.redex.roots[p]? = some r' →
      ∃ r, q.redex.roots[p]? = some r ∧ h.place r = r' := by
    intro p r' hr
    rwa [hroots, List.getElem?_map, Option.map_eq_some_iff] at hr
  have hhost : ∀ {p : Nat} {k'}, (hosts.map f.place)[p]? = some k' →
      ∃ k, hosts[p]? = some k ∧ f.place k = k' := by
    intro p k' hk
    rwa [List.getElem?_map, Option.map_eq_some_iff] at hk
  exact {
    nodes_perm := by
      have hperm := (ho.nodes_perm.map h.place).trans h.nodes_perm
      rw [List.map_map] at hperm
      rw [Mapping.renumbered, List.map_map]
      exact hperm
    nodup_images := by
      have hnodup := ho.nodup_images.map f.place.injective
      rw [List.map_map] at hnodup
      rw [Mapping.renumbered, List.map_map]
      exact hnodup
    length_hosts := by
      rw [List.length_map, ho.length_hosts, hroots, List.length_map]
    control := fun x' y' hm => by
      obtain ⟨x, y, rfl, rfl, hxy⟩ := hpair hm
      rw [h.control_eq, f.control_eq]
      exact ho.control x y hxy
    under_root := fun x' y' p r' hm hr' hx => by
      obtain ⟨x, y, rfl, rfl, hxy⟩ := hpair hm
      obtain ⟨r, hr, rfl⟩ := hroot hr'
      obtain ⟨k, hk, hy⟩ := ho.under_root x y p r hxy hr (h.parent_iff.mp hx)
      exact ⟨f.place k, by rw [List.getElem?_map, hk]; rfl, f.parent_iff.mpr hy⟩
    under_node := fun x' y' z' w' hm hm' hx => by
      obtain ⟨x, y, rfl, rfl, hxy⟩ := hpair hm
      obtain ⟨z, w, rfl, rfl, hzw⟩ := hpair hm'
      exact f.parent_iff.mpr (ho.under_node x y z w hxy hzw (h.parent_iff.mp hx))
    closed_below := fun x' y' hm hx => by
      obtain ⟨x, y, rfl, rfl, hxy⟩ := hpair hm
      rw [(h.children_perm hq.redex hq'.redex x).length_eq,
        (f.children_perm hq.agent hq'.agent y).length_eq, List.length_map, List.length_map]
      refine ho.closed_below x y hxy fun s hs hsx => ?_
      exact hx (h.place s) (by rw [h.isSite_eq, hs]) (h.parent_iff.mpr hsx)
    length_ports := fun x' y' hm => by
      obtain ⟨x, y, rfl, rfl, hxy⟩ := hpair hm
      rw [h.ports_eq, f.ports_eq, List.length_map, List.length_map]
      exact ho.length_ports x y hxy
    links := fun x' y' i z' w' j l' hm hm' hl hk => by
      obtain ⟨x, y, rfl, rfl, hxy⟩ := hpair hm
      obtain ⟨z, w, rfl, rfl, hzw⟩ := hpair hm'
      obtain ⟨l, rfl⟩ := h.link.surjective l'
      rw [f.portLink_eq, f.portLink_eq,
        ho.links x y i z w j l hxy hzw (h.portLink_iff.mp hl) (h.portLink_iff.mp hk)]
    closed_links := fun x' y' i l' hm hl he hn => by
      obtain ⟨x, y, rfl, rfl, hxy⟩ := hpair hm
      obtain ⟨l, rfl⟩ := h.link.surjective l'
      rw [h.isEdge_eq] at he
      obtain ⟨a, ha, hea, hcount⟩ := ho.closed_links x y i l hxy (h.portLink_iff.mp hl) he
        fun n hnl => hn (h.inner n) (h.innerLink_iff.mpr hnl)
      refine ⟨f.link a, f.portLink_iff.mpr ha, by rw [f.isEdge_eq, hea], ?_⟩
      rw [f.portCount_eq hq.agent hq'.agent, h.portCount_eq hq.redex hq'.redex, hcount]
    idle_names := fun l' s hl hnil => by
      obtain ⟨l, rfl⟩ := h.link.surjective l'
      rw [h.linkKind_eq] at hl
      obtain ⟨k, hk⟩ := ho.idle_names l s hl ((h.points_eq_nil_iff hq.redex hq'.redex).mp hnil)
      exact ⟨f.link k, by rw [f.linkKind_eq, hk]⟩
    disjoint := fun x' y' p p' r' k' hm hr' hx hk' hne => by
      obtain ⟨x, y, rfl, rfl, hxy⟩ := hpair hm
      obtain ⟨r, hr, rfl⟩ := hroot hr'
      obtain ⟨k, hk, rfl⟩ := hhost hk'
      rw [f.aboveEq_iff]
      exact ho.disjoint x y p p' r k hxy hr (h.above_iff.mp hx) hk hne }

/-- The roots and inner nodes of the agent under other numbers. -/
theorem mem_internalPostOrder_renumbered (hq : q.Proper) (hq' : q'.Proper)
    (f : Renumbering q.agent q'.agent) {v : PlaceId} :
    f.place v ∈ q'.agent.internalPostOrder ↔ v ∈ q.agent.internalPostOrder := by
  rw [Matches.mem_internalPostOrder hq, Matches.mem_internalPostOrder hq', f.isRoot_eq]
  refine or_congr_right ⟨fun ⟨c', hc⟩ => ?_, fun ⟨c, hc⟩ => ⟨f.place c, f.parent_iff.mpr hc⟩⟩
  obtain ⟨c, rfl⟩ := f.place.surjective c'
  exact ⟨c, f.parent_iff.mp hc⟩

end Problem

/-! ### The occurrences correspond -/

/-- **The same occurrence under other numbers:** the same hosts, and the same mapping up to a
rearrangement of interchangeable siblings of the redex. -/
structure Occurrence.Renumbered {redex redex' agent agent' : Bigraph} (h : Renumbering redex redex')
    (f : Renumbering agent agent') (o o' : Occurrence) : Prop where
  hosts_eq : o'.hosts = o.hosts.map f.place
  interchanged : redex'.Interchanged (o.mapping.renumbered h.place f.place) o'.mapping

namespace Matches

open Problem

section Pair
variable {q q' : Problem} {config : MatchConfig} (hq : q.Proper) (hq' : q'.Proper)
  (hmatches : config.maxMatches = none) (hassign : config.maxAssignments = none)
  (hplain : q.redex.PlainNames) (h : Renumbering q.redex q'.redex)
  (f : Renumbering q.agent q'.agent)
include hq hq' hmatches hassign hplain

/-- What is yielded for the one problem is yielded for the other. -/
theorem exists_renumbered {o : Occurrence} (ho : o ∈ (q.toMatches config).occurrences.toList) :
    ∃ o' ∈ (q'.toMatches config).occurrences.toList, o.Renumbered h f o' := by
  have hoccurs := (occurs_of_mem_occurrences hq ho).renumbered hq hq' h f
  obtain ⟨hne, -, hinternal⟩ := internal_of_mem_assignments (of_mem_occurrences ho).1
  have hne' : q'.redex.roots ≠ [] := by
    rw [h.roots_eq hq.redex hq'.redex]
    simpa using hne
  have hassigned : o.hosts.map f.place ∈ (q'.toMatches config).assignments.toList := by
    refine mem_assignments_of_internal hq' hoccurs hne' fun v' hv' => ?_
    obtain ⟨v, hv, rfl⟩ := List.mem_map.mp hv'
    exact (mem_internalPostOrder_renumbered hq hq' f).mpr (hinternal v hv).1
  obtain ⟨o', ho', hhosts, hm⟩ := exists_yielded hq' hmatches hassign (h.plainNames hplain) hoccurs
    hassigned fun hactive v' hv' => by
      obtain ⟨v, hv, rfl⟩ := List.mem_map.mp hv'
      exact f.activeFrom_iff.mpr (activeFrom_of_mem_occurrences hq hactive ho v hv)
  exact ⟨o', ho', hhosts, hm⟩

/-- **An injection** of the list of the one problem into the list of the other. -/
theorem exists_injective :
    ∃ e : Fin (q.toMatches config).occurrences.toList.length →
        Fin (q'.toMatches config).occurrences.toList.length,
      Function.Injective e ∧ ∀ i, ((q.toMatches config).occurrences.toList.get i).Renumbered h f
        ((q'.toMatches config).occurrences.toList.get (e i)) := by
  have hsome : ∀ i, ∃ j, ((q.toMatches config).occurrences.toList.get i).Renumbered h f
      ((q'.toMatches config).occurrences.toList.get j) := by
    intro i
    obtain ⟨o', ho', hren⟩ := exists_renumbered hq hq' hmatches hassign hplain h f (List.get_mem _ i)
    obtain ⟨j, rfl⟩ := List.mem_iff_get.mp ho'
    exact ⟨j, hren⟩
  choose e he using hsome
  refine ⟨e, fun i j hij => Fin.ext ?_, he⟩
  have hi := he i
  have hj := he j
  rw [hij] at hi
  refine position_unique hq (List.getElem?_eq_getElem i.isLt)
    (List.getElem?_eq_getElem j.isLt) ?_ (Interchanged.refl _)
    (h.interchanged_of_common hi.interchanged hj.interchanged)
  exact List.map_injective_iff.mpr f.place.injective (hi.hosts_eq.symm.trans hj.hosts_eq)

/-- **The occurrences of the two problems correspond** one to one. -/
theorem exists_equiv :
    ∃ e : Fin (q.toMatches config).occurrences.toList.length ≃
        Fin (q'.toMatches config).occurrences.toList.length,
      ∀ i, ((q.toMatches config).occurrences.toList.get i).Renumbered h f
        ((q'.toMatches config).occurrences.toList.get (e i)) := by
  obtain ⟨e, hinj, he⟩ := exists_injective hq hq' hmatches hassign hplain h f
  obtain ⟨e', hinj', -⟩ := exists_injective hq' hq hmatches hassign (h.plainNames hplain) h.symm f.symm
  have hcard := (Fintype.card_le_of_injective e hinj).antisymm (Fintype.card_le_of_injective e' hinj')
  exact ⟨.ofBijective e ((Fintype.bijective_iff_injective_and_card e).mpr ⟨hinj, hcard⟩), he⟩

end Pair

theorem of_eq_error (config : MatchConfig) {agent redex : Bigraph}
    (hs : agent.signature = redex.signature) (hg : agent.isGround = false) :
    Matches.of config agent redex =
      .error (.agentNotGround agent.sites.length agent.innerNames.size) := by
  unfold Matches.of Problem.of
  rw [if_pos hs, dif_neg (by rw [hg]; exact Bool.false_ne_true)]
  rfl

/-- **The numbers do not matter.** Without limits, the occurrences of a redex in an agent are those of the
redex in the agent under other numbers. What is refused is refused under other numbers too. -/
theorem occurrences_renumbered (config : MatchConfig) (hmatches : config.maxMatches = none)
    (hassign : config.maxAssignments = none) {agent agent' redex redex' : Bigraph}
    (ha : agent.Constructible) (ha' : agent'.Constructible) (hr : redex.Constructible)
    (hr' : redex'.Constructible) (hs : agent.signature = redex.signature)
    (hsa : agent'.signature = agent.signature) (hsr : redex'.signature = redex.signature)
    (hplain : redex.PlainNames) (h : Renumbering redex redex') (f : Renumbering agent agent') :
    (agent.isGround = true → ∃ ms ms', Matches.of config agent redex = .ok ms ∧
      Matches.of config agent' redex' = .ok ms' ∧
      ms.occurrences.toList.length = ms'.occurrences.toList.length ∧
      redex'.roots = redex.roots.map h.place ∧
      ∃ e : Fin ms.occurrences.toList.length ≃ Fin ms'.occurrences.toList.length,
        ∀ i, (ms.occurrences.toList.get i).Renumbered h f (ms'.occurrences.toList.get (e i))) ∧
    (agent.isGround = false → ∃ e, Matches.of config agent redex = .error e ∧
      Matches.of config agent' redex' = .error e) := by
  have hs' : agent'.signature = redex'.signature := by rw [hsa, hs, hsr]
  have hground := f.isGround_eq ha.wellFormed ha'.wellFormed
  refine ⟨fun hg => ?_, fun hg => ?_⟩
  · have hg' : agent'.isGround = true := by rw [hground, hg]
    have hq := proper_of_constructible ha hr hs hg
    have hq' := proper_of_constructible ha' hr' hs' hg'
    obtain ⟨e, he⟩ := exists_equiv hq hq' hmatches hassign hplain h f
    exact ⟨_, _, of_eq_ok hs hg, of_eq_ok hs' hg', by simpa using Fintype.card_congr e,
      h.roots_eq hq.redex hq'.redex, e, he⟩
  · have hg' : agent'.isGround = false := by rw [hground, hg]
    refine ⟨_, of_eq_error config hs hg, ?_⟩
    rw [of_eq_error config hs' hg', f.sites_eq ha.wellFormed ha'.wellFormed,
      List.length_map, f.size_innerNames_eq]

end Matches

/-! ### A call, set up in another order -/

/-- Three persons in a room on the corridor, all on one edge. -/
def call : Bigraph :=
  ((Construction.new building).run [.root 0, .node "Room" "r", .nest 1 0, .node "Person" "x",
    .nest 2 1, .node "Person" "y", .nest 3 1, .node "Person" "z", .nest 4 1, .edge "e",
    .connect 2 0, .connect 3 0, .connect 4 0, .outer "corridor", .connect 1 1]).graph

/-- The call with the persons from last to first, and the corridor before the edge. -/
def callReordered : Bigraph :=
  ((Construction.new building).run [.root 0, .node "Room" "r", .nest 1 0, .node "Person" "z",
    .nest 2 1, .node "Person" "y", .nest 3 1, .node "Person" "x", .nest 4 1, .outer "corridor",
    .connect 1 0, .edge "e", .connect 4 1, .connect 2 1, .connect 3 1]).graph

/-- Two persons in a room, on a link that what else the room holds may be on too. -/
def line : Bigraph :=
  ((Construction.new building).run [.root 0, .node "Room" "r", .nest 1 0, .node "Person" "p",
    .nest 2 1, .node "Person" "q", .nest 3 1, .site 0, .nest 4 1, .outer "line", .connect 2 0,
    .connect 3 0, .outer "door", .connect 1 1, .inner "u", .inner "v", .wire 1 0]).graph

/-- The line with the site before the persons, `q` before `p`, and names and inner names the other way
round. -/
def lineReordered : Bigraph :=
  ((Construction.new building).run [.root 0, .node "Room" "r", .nest 1 0, .site 0, .nest 2 1,
    .node "Person" "q", .nest 3 1, .node "Person" "p", .nest 4 1, .outer "door", .connect 1 0,
    .outer "line", .connect 3 1, .connect 4 1, .inner "v", .wire 0 1, .inner "u"]).graph

/-- The first and the last person have changed numbers, and so have the two links. -/
def reorderCall : Renumbering call callReordered :=
  .ofUsed (Equiv.swap 2 4) (Equiv.swap 0 1) 1 (by decide +kernel)
    (fun _ => ⟨swap_apply_of_le (by decide) (by decide), swap_apply_of_le (by decide) (by decide),
      fun _ => rfl⟩)
    (by decide +kernel) (by decide +kernel) (by decide +kernel)

/-- The first person and the site have changed numbers, and so have the links and the inner names. -/
def reorderLine : Renumbering line lineReordered :=
  .ofUsed (Equiv.swap 2 4) (Equiv.swap 0 1) (Equiv.swap 0 1) (by decide +kernel)
    (fun _ => ⟨swap_apply_of_le (by decide +kernel) (by decide +kernel),
      swap_apply_of_le (by decide +kernel) (by decide +kernel),
      swap_apply_of_le (by decide +kernel) (by decide +kernel)⟩)
    (by decide +kernel) (by decide +kernel) (by decide +kernel)

theorem plainNames_line : line.PlainNames := plainNames_of_controls (by decide +kernel)

/-- Of the three pairs of persons on the call each is found once, with the persons in the order of their
numbers. -/
theorem occurrences_renumbered_call : call.Constructible ∧ callReordered.Constructible ∧
    line.Constructible ∧ lineReordered.Constructible ∧ call.signature = line.signature ∧
    callReordered.signature = call.signature ∧ lineReordered.signature = line.signature ∧
    line.PlainNames ∧ call.isGround = true ∧ numberOfOccurrences {} call line = 3 ∧
    ∃ ms ms', Matches.of {} call line = .ok ms ∧
      Matches.of {} callReordered lineReordered = .ok ms' ∧
      ms.occurrences.toList.length = ms'.occurrences.toList.length ∧
      lineReordered.roots = line.roots.map reorderLine.place ∧
      ∃ e : Fin ms.occurrences.toList.length ≃ Fin ms'.occurrences.toList.length,
        ∀ i, (ms.occurrences.toList.get i).Renumbered reorderLine reorderCall
          (ms'.occurrences.toList.get (e i)) :=
  have ha : call.Constructible := Bigraph.constructible_run (by decide +kernel)
  have ha' : callReordered.Constructible := Bigraph.constructible_run (by decide +kernel)
  have hr : line.Constructible := Bigraph.constructible_run (by decide +kernel)
  have hr' : lineReordered.Constructible := Bigraph.constructible_run (by decide +kernel)
  have hs : call.signature = line.signature := by decide +kernel
  have hsa : callReordered.signature = call.signature := by decide +kernel
  have hsr : lineReordered.signature = line.signature := by decide +kernel
  have hg : call.isGround = true := by decide +kernel
  ⟨ha, ha', hr, hr', hs, hsa, hsr, plainNames_line, hg, by decide +kernel,
    (Matches.occurrences_renumbered {} rfl rfl ha ha' hr hr' hs hsa hsr plainNames_line reorderLine
      reorderCall).1 hg⟩

end Bigraphs
