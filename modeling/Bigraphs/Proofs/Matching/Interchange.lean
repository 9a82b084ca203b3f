import Bigraphs.Proofs.Matching.Planner
import Bigraphs.Proofs.Matching.Renumbered
import Bigraphs.Proofs.Matching.SubtreeIso

/-! # What twins may exchange

The table of shapes tells subtrees apart if the names of the controls hold no brackets, and twins, being
siblings of one shape, exchange their images with all that is below them (`shapes_spec`). A name with
brackets can look like the shapes of two nodes. Then rooms of different content are taken for twins, and
an occurrence is not found (`shapes_run_together`). -/

namespace Bigraphs

open Bigraph

/-- The mapping after the redex nodes have changed places. -/
def Mapping.exchanged (τ : Equiv.Perm PlaceId) (m : Mapping) : Mapping := m.map fun (x, y) => (τ x, y)

theorem Mapping.mem_exchanged {τ : Equiv.Perm PlaceId} {m : Mapping} {x y : PlaceId} :
    (x, y) ∈ m.exchanged τ ↔ (τ.symm x, y) ∈ m := by
  unfold exchanged
  rw [List.mem_map]
  constructor
  · rintro ⟨⟨z, w⟩, h, heq⟩
    obtain ⟨rfl, rfl⟩ := Prod.mk.inj heq
    rwa [Equiv.symm_apply_apply]
  · intro h
    exact ⟨_, h, by simp⟩

/-- **An exchange takes occurrences to occurrences** if it is a symmetry. -/
theorem Problem.Occurs.exchanged {q : Problem} {hosts : List PlaceId} {m : Mapping}
    {τ : Equiv.Perm PlaceId} (hq : q.Proper) (ho : q.Occurs hosts m) (hτ : q.redex.Symmetry τ) :
    q.Occurs hosts (m.exchanged τ) := by
  refine ho.of_interchanged hq ⟨τ.symm, hτ.symm, fun x y => Mapping.mem_exchanged⟩ ?_ ?_
  · have hfst : (m.exchanged τ).map (·.1) = (m.map (·.1)).map τ := by
      simp [Mapping.exchanged, List.map_map, Function.comp_def]
    rw [hfst]
    refine (ho.nodes_perm.map τ).trans ?_
    refine (List.perm_ext_iff_of_nodup (nodup_nodes.map τ.injective) nodup_nodes).mpr fun x => ?_
    rw [List.mem_map, mem_nodes]
    constructor
    · rintro ⟨z, hz, rfl⟩
      rw [hτ.isNode_apply]
      exact mem_nodes.mp hz
    · intro hx
      refine ⟨τ.symm x, mem_nodes.mpr ?_, τ.apply_symm_apply x⟩
      rwa [hτ.symm.isNode_apply]
  · have hsnd : (m.exchanged τ).map (·.2) = m.map (·.2) := by
      simp [Mapping.exchanged, List.map_map, Function.comp_def]
    rw [hsnd]
    exact ho.nodup_images

/-- **Shapes tell subtrees apart,** and twins can be exchanged. -/
theorem shapes_spec {redex : Bigraph} (hr : redex.Constructible) (hplain : redex.PlainNames) :
    (∀ a, redex.isNode a → ((redex.shapeTable[a]?.join).isSome ↔ redex.SiteFree a)) ∧
    (∀ a b, redex.isNode a → redex.isNode b → redex.SiteFree a → redex.SiteFree b →
      (redex.shapeTable[a]?.join = redex.shapeTable[b]?.join ↔ ∃ f, redex.SubtreeIso a b f)) ∧
    ∀ (i j : Nat) (s t : PlanStep), redex.plan[j]? = some s → s.twin = some i → redex.plan[i]? = some t →
      ∃ τ, redex.SiblingSwap t.node s.node τ ∧ ∀ q : Problem, q.Proper → q.redex = redex →
        ∀ hosts m, q.Occurs hosts m → q.Occurs hosts (m.exchanged τ) := by
  have hg := hr.wellFormed
  refine ⟨fun a ha => ?_, fun a b ha _ hfree _ => ?_, fun i j s t hs htwin ht => ?_⟩
  · rw [getElem?_shapeTable hg hr.rooted]
    exact isSome_shape_iff hg ha
  · rw [getElem?_shapeTable hg hr.rooted, getElem?_shapeTable hg hr.rooted]
    exact shape_eq_iff hg hplain ha hfree
  · obtain ⟨τ, hτ⟩ := exists_siblingSwap_of_twin hg hplain hs htwin ht
    refine ⟨τ, hτ, ?_⟩
    rintro q hq rfl hosts m ho
    exact ho.exchanged hq hτ.symmetry

/-! ### The two persons of a pair -/

theorem shapes_spec_somePair : somePair.Constructible ∧ somePair.PlainNames ∧
    (∃ f, somePair.SubtreeIso 2 3 f) ∧ somePair.plan[2]? = some ⟨3, .step 0, 0, some 1⟩ ∧
    ∃ τ, somePair.SiblingSwap 2 3 τ ∧ ∀ q : Problem, q.Proper → q.redex = somePair →
      ∀ hosts m, q.Occurs hosts m → q.Occurs hosts (m.exchanged τ) := by
  obtain ⟨hsome, hiff, htwins⟩ := shapes_spec constructible_somePair plainNames_somePair
  have hstep : somePair.plan[2]? = some ⟨3, .step 0, 0, some 1⟩ := by decide +kernel
  have hfree : ∀ a, a = 2 ∨ a = 3 → somePair.isNode a ∧ somePair.SiteFree a := by
    rintro a (rfl | rfl)
    · have hn : somePair.isNode 2 := by decide +kernel
      exact ⟨hn, (hsome 2 hn).mp (by decide +kernel)⟩
    · have hn : somePair.isNode 3 := by decide +kernel
      exact ⟨hn, (hsome 3 hn).mp (by decide +kernel)⟩
  obtain ⟨hn, hs⟩ := hfree 2 (Or.inl rfl)
  obtain ⟨hn', hs'⟩ := hfree 3 (Or.inr rfl)
  exact ⟨constructible_somePair, plainNames_somePair, (hiff 2 3 hn hn' hs hs').mp (by decide +kernel),
    hstep, htwins 1 2 _ ⟨2, .step 0, 0, none⟩ hstep rfl (by decide +kernel)⟩

/-! ### A name that looks like two shapes -/

/-- A control with a name like the shapes of two nodes `A`. -/
def brackets : Signature :=
  ⟨[⟨"A", 0, .active⟩, ⟨"A[][],A", 0, .active⟩, ⟨"Room", 0, .active⟩], by decide⟩

/-- Two nodes in a room, and in a second room one node with that name. -/
def unequalRooms : Bigraph :=
  ((Construction.new brackets).run [.root 0, .node "Room" "p", .nest 1 0, .node "Room" "q", .nest 2 0,
    .node "A" "a", .nest 3 1, .node "A" "b", .nest 4 1, .node "A[][],A" "c", .nest 5 2]).graph

/-- The same rooms, the second one first. -/
def unequalRoomsTurned : Bigraph :=
  ((Construction.new brackets).run [.root 0, .node "Room" "q", .nest 1 0, .node "Room" "p", .nest 2 0,
    .node "A" "a", .nest 3 2, .node "A" "b", .nest 4 2, .node "A[][],A" "c", .nest 5 1]).graph

/-- The rooms have changed numbers. -/
def turnRooms : Renumbering unequalRooms unequalRoomsTurned :=
  .ofUsed (Equiv.swap 1 2) 1 1 (by decide +kernel)
    (fun _ => ⟨swap_apply_of_le (by decide +kernel) (by decide +kernel), fun _ => rfl, fun _ => rfl⟩)
    (by decide +kernel) (by decide +kernel) (by decide +kernel)

/-- In itself nothing has changed numbers. -/
def keepRooms : Renumbering unequalRooms unequalRooms :=
  .ofUsed 1 1 1 (by decide +kernel) (fun _ => ⟨fun _ => rfl, fun _ => rfl, fun _ => rfl⟩)
    (by decide +kernel) (by decide +kernel) (by decide +kernel)

theorem constructible_unequalRooms : unequalRooms.Constructible :=
  Bigraph.constructible_run (by decide +kernel)

theorem constructible_unequalRoomsTurned : unequalRoomsTurned.Constructible :=
  Bigraph.constructible_run (by decide +kernel)

theorem isGround_unequalRooms : unequalRooms.isGround = true := by decide +kernel

theorem isGround_unequalRoomsTurned : unequalRoomsTurned.isGround = true := by decide +kernel

/-- Two nodes do not fit on one. -/
theorem not_subtreeIso_unequalRooms : ¬ ∃ f, unequalRooms.SubtreeIso 1 2 f := by
  rintro ⟨f, hf⟩
  have hg := constructible_unequalRooms.wellFormed
  have hchildren : unequalRooms.children 2 = [5] := by decide +kernel
  have himage : ∀ c, unequalRooms.parent c = some 1 → f c = 5 := by
    intro c hc
    have hmem := hg.mem_children.mpr (hf.parent_apply .refl hc)
    rwa [hf.top, hchildren, List.mem_singleton] at hmem
  have ha : unequalRooms.parent 3 = some 1 := by decide +kernel
  have hb : unequalRooms.parent 4 = some 1 := by decide +kernel
  have hab := hf.bijOn.injOn (.single ha) (.single hb) ((himage 3 ha).trans (himage 4 hb).symm)
  exact absurd hab (by decide)

/-- The bigraph occurs in itself, and so it does with its rooms turned. -/
theorem exists_occurs_unequalRooms : ∃ hosts m,
    (Problem.mk unequalRoomsTurned unequalRooms isGround_unequalRoomsTurned).Occurs hosts m := by
  have hq := Matches.proper_of_constructible constructible_unequalRooms constructible_unequalRooms rfl
    isGround_unequalRooms
  have hq' := Matches.proper_of_constructible constructible_unequalRoomsTurned
    constructible_unequalRooms rfl isGround_unequalRoomsTurned
  have hcount : numberOfOccurrences {} unequalRooms unequalRooms = 1 := by decide +kernel
  unfold numberOfOccurrences at hcount
  rw [Matches.of_eq_ok rfl isGround_unequalRooms] at hcount
  obtain ⟨o, ho⟩ := List.length_eq_one_iff.mp hcount
  have hoccurs := Matches.occurs_of_mem_occurrences hq (ho ▸ List.mem_singleton_self o)
  exact ⟨_, _, hoccurs.renumbered hq hq' keepRooms turnRooms⟩

/-- **Rooms of different content have one shape,** and an occurrence is missed. -/
theorem shapes_run_together : unequalRooms.Constructible ∧ unequalRoomsTurned.Constructible ∧
    unequalRoomsTurned.isGround = true ∧ unequalRooms.isNode 1 ∧ unequalRooms.isNode 2 ∧
    unequalRooms.SiteFree 1 ∧ unequalRooms.SiteFree 2 ∧
    unequalRooms.shapeTable[1]?.join = some "Room[][A[][],A[][]]" ∧
    unequalRooms.shapeTable[2]?.join = some "Room[][A[][],A[][]]" ∧
    (¬ ∃ f, unequalRooms.SubtreeIso 1 2 f) ∧
    unequalRooms.plan[1]? = some ⟨2, .root 0, 0, some 0⟩ ∧
    (∃ q hosts m, Problem.of unequalRoomsTurned unequalRooms = .ok q ∧ q.Occurs hosts m) ∧
    numberOfOccurrences {} unequalRoomsTurned unequalRooms = 0 := by
  obtain ⟨hosts, m, ho⟩ := exists_occurs_unequalRooms
  exact ⟨constructible_unequalRooms, constructible_unequalRoomsTurned, isGround_unequalRoomsTurned,
    by decide +kernel, by decide +kernel, fun x _ => isSite_of_isGround isGround_unequalRooms x,
    fun x _ => isSite_of_isGround isGround_unequalRooms x, by decide +kernel, by decide +kernel,
    not_subtreeIso_unequalRooms, by decide +kernel,
    ⟨_, hosts, m, dif_pos isGround_unequalRoomsTurned, ho⟩, by decide +kernel⟩

end Bigraphs
