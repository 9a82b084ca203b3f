import Bigraphs.Proofs.Matching.Pruning
import Mathlib.Tactic.IntervalCases

/-! # Roots with no node below them

The hits of a redex root come in the order of the walk through the agent, at the places where the table
explains the root by itself (`filter_rootHits`). A root with nothing but sites below it asks for nothing:
it is explained wherever the walk looks, and there is no node below it that could fail the test of a hit.
So it hits the roots and the inner nodes of the agent, each once (`hits_of_childless_root`).

The walk passes over the leaves. A room that could hold something but is empty hosts no root
(`empty_room_hosts_nothing`). -/

namespace Bigraphs

open Bigraph

/-- With sites at most directly below it, a place has nothing but sites below it. -/
theorem Bigraph.WellFormed.isSite_of_above {g : Bigraph} (hg : g.WellFormed) {r x : PlaceId}
    (hempty : ∀ c, g.parent c = some r → g.isSite c) (h : g.Above r x) : g.isSite x := by
  obtain ⟨c, hc, hcx⟩ := Relation.TransGen.head'_iff.mp h
  have hsite := hempty c hc
  rcases Relation.ReflTransGen.cases_head hcx with rfl | ⟨d, hd, -⟩
  · exact hsite
  · have hmem := hg.mem_children.mpr hd
    rw [hg.children_site hsite] at hmem
    cases hmem

namespace Problem

variable {q : Problem} {r : PlaceId} {i : Nat}

/-- **The hits of one root,** in the order of the walk. -/
theorem filter_rootHits (t : Table) (hi : q.redex.rootIndex r = some i) :
    (q.rootHits t).filter (·.root = r) =
      (q.agent.internalPostOrder.filter (t.explains · r r)).map (⟨·, r, i⟩) := by
  have hroot : r ∈ q.redex.roots := mem_roots.mpr (by rw [isRoot, hi]; rfl)
  unfold rootHits
  induction q.agent.internalPostOrder with
  | nil => rfl
  | cons v vs ih =>
    rw [List.flatMap_cons, List.filter_append, ih, List.filterMap_eq_flatMap_toList,
      filter_flatMap_of_key nodup_roots ?_ hroot, List.filter_cons]
    · by_cases he : t.explains v r r <;> simp [hi, he]
    · intro x hit hhit
      cases hx : q.redex.rootIndex x with
      | none => simp [hx] at hhit
      | some j =>
        by_cases he : t.explains v x x
        · simp only [hx, if_pos he, Option.mem_toList] at hhit
          cases hhit
          rfl
        · simp [hx, he] at hhit

theorem filter_confirmedHits (t : Table) (hi : q.redex.rootIndex r = some i) :
    (q.confirmedHits t).filter (·.root = r) =
      (q.agent.internalPostOrder.filter fun v => t.explains v r r && q.hostConsistent t v r).map
        (⟨·, r, i⟩) := by
  unfold confirmedHits
  rw [List.filter_comm, filter_rootHits t hi, List.filter_map, List.filter_filter]
  simp only [Function.comp_def, Bool.and_comm]

section Childless
variable (hq : q.Proper) (hempty : ∀ c, q.redex.parent c = some r → q.redex.isSite c)
include hq hempty

/-- Where only sites lie below the root, every host passes the test. -/
theorem hostConsistent_of_childless (t : Table) (v : PlaceId) : q.hostConsistent t v r := by
  refine List.all_eq_true.mpr fun x hx => ?_
  have hsite := hq.redex.isSite_of_above hempty (hq.redex.mem_descendants.mp hx)
  cases q.redex.parent x with
  | none => rfl
  | some p => simp [isNode_eq_false_of_isSite hsite]

/-- **A root without nodes below it** hits every root and every inner node. -/
theorem filter_confirmedHits_of_childless (hi : q.redex.rootIndex r = some i) :
    (q.confirmedHits q.table).filter (·.root = r) = q.agent.internalPostOrder.map (⟨·, r, i⟩) := by
  have hnone : ∀ c, q.redex.isNode c → q.redex.parent c ≠ some r := fun c hn hc => by
    rw [isNode_eq_false_of_isSite (hempty c hc)] at hn
    cases hn
  rw [filter_confirmedHits q.table hi, List.filter_eq_self.mpr]
  intro v hv
  rw [Bool.and_eq_true]
  refine ⟨?_, hostConsistent_of_childless hq hempty q.table v⟩
  exact (explains_root_iff_sends hq hv (by rw [isRoot, hi]; rfl)).mpr ⟨id, .of_childless hnone id⟩

theorem mem_confirmedHits_of_childless (hi : q.redex.rootIndex r = some i) (v : PlaceId) :
    (∃ hit ∈ q.confirmedHits q.table, hit.host = v ∧ hit.root = r) ↔
      v ∈ q.agent.internalPostOrder := by
  have hmem : ∀ hit, hit ∈ q.confirmedHits q.table ∧ hit.root = r ↔
      hit ∈ q.agent.internalPostOrder.map (⟨·, r, i⟩) := fun hit => by
    rw [← filter_confirmedHits_of_childless hq hempty hi, List.mem_filter, decide_eq_true_eq]
  constructor
  · rintro ⟨hit, hm, rfl, hroot⟩
    obtain ⟨w, hw, rfl⟩ := List.mem_map.mp ((hmem hit).mp ⟨hm, hroot⟩)
    exact hw
  · intro hv
    have hm := (hmem ⟨v, r, i⟩).mpr (List.mem_map.mpr ⟨v, hv, rfl⟩)
    exact ⟨_, hm.1, rfl, rfl⟩

end Childless

theorem hits_toMatches (config : MatchConfig) (hidle : q.idleNamesPresent = true) :
    (q.toMatches config).hits = q.confirmedHits q.table := by
  unfold toMatches
  simp only [hidle, if_true]

end Problem

namespace Matches

open Problem

/-- **Roots without nodes below them hit wherever the walk looks:** at each root of the agent and at each
node with children, once, in the order of the walk; and at no other vertex. -/
theorem hits_of_childless_root (config : MatchConfig) {agent redex : Bigraph}
    (ha : agent.Constructible) (hr : redex.Constructible)
    (hs : agent.signature = redex.signature) (hg : agent.isGround = true)
    (hidle : ∀ l s, redex.linkKind l = some (.outer s) → redex.points l = [] →
      ∃ k, agent.linkKind k = some (.outer s)) :
    ∃ ms, Matches.of config agent redex = .ok ms ∧ ∀ r i, redex.rootIndex r = some i →
      (∀ c, redex.parent c = some r → redex.isSite c) →
        ms.hits.filter (·.root = r) = agent.internalPostOrder.map (⟨·, r, i⟩) ∧
        ∀ v, (∃ hit ∈ ms.hits, hit.host = v ∧ hit.root = r) ↔
          agent.isRoot v ∨ ∃ c, agent.parent c = some v := by
  refine ⟨_, of_eq_ok hs hg, fun r i hi hempty => ?_⟩
  have hq := proper_of_constructible ha hr hs hg
  rw [hits_toMatches config ((idleNamesPresent_iff hq.agent).mpr hidle)]
  refine ⟨filter_confirmedHits_of_childless hq hempty hi, fun v => ?_⟩
  rw [mem_confirmedHits_of_childless hq hempty hi, mem_internalPostOrder hq]

end Matches

/-! ### Rooms with something in them, and an empty one -/

/-- Two roots, one for whatever there is and one for nothing, and a name that nothing is on. -/
def anywhere : Bigraph :=
  ((Construction.new building).run [.root 0, .root 1, .site 0, .nest 2 0, .outer "corridor"]).graph

/-- An empty room beside a corridor. -/
def emptyRoom : Bigraph :=
  ((Construction.new building).run [.root 0, .node "Room" "a", .nest 1 0, .outer "corridor"]).graph

theorem constructible_anywhere : anywhere.Constructible := Bigraph.constructible_run (by decide +kernel)

/-- Only sites lie below the roots. -/
theorem childless_anywhere (r c : PlaceId) (h : anywhere.parent c = some r) : anywhere.isSite c := by
  have hlt : c < 3 := lt_of_parent h
  interval_cases c
  · exact absurd h (by rw [show anywhere.parent 0 = none by decide +kernel]; simp)
  · exact absurd h (by rw [show anywhere.parent 1 = none by decide +kernel]; simp)
  · decide +kernel

theorem idle_anywhere {l : LinkId} {s : String} (h : anywhere.linkKind l = some (.outer s)) :
    s = "corridor" := by
  have hlt : l < 1 := lt_of_linkKind h
  rw [Nat.lt_one_iff.mp hlt, show anywhere.linkKind 0 = some (.outer "corridor") by decide +kernel] at h
  cases h
  rfl

/-- Both roots hit the two rooms, which are not empty, and the root above them. -/
theorem hits_of_childless_root_twoRooms : twoRooms.Constructible ∧ anywhere.Constructible ∧
    twoRooms.signature = anywhere.signature ∧ twoRooms.isGround = true ∧
    (∀ l s, anywhere.linkKind l = some (.outer s) → anywhere.points l = [] →
      ∃ k, twoRooms.linkKind k = some (.outer s)) ∧
    ∃ ms, Matches.of {} twoRooms anywhere = .ok ms ∧ ∀ r i, anywhere.rootIndex r = some i →
      (∀ c, anywhere.parent c = some r → anywhere.isSite c) ∧
        ms.hits.filter (·.root = r) = [⟨1, r, i⟩, ⟨2, r, i⟩, ⟨0, r, i⟩] := by
  have hidle : ∀ l s, anywhere.linkKind l = some (.outer s) → anywhere.points l = [] →
      ∃ k, twoRooms.linkKind k = some (.outer s) := fun l s h _ =>
    ⟨1, by rw [idle_anywhere h]; decide +kernel⟩
  obtain ⟨ms, hms, hall⟩ := Matches.hits_of_childless_root {} constructible_twoRooms
    constructible_anywhere rfl isGround_twoRooms hidle
  have horder : twoRooms.internalPostOrder = [1, 2, 0] := by decide +kernel
  refine ⟨constructible_twoRooms, constructible_anywhere, rfl, isGround_twoRooms, hidle, ms, hms,
    fun r i hi => ⟨childless_anywhere r, ?_⟩⟩
  rw [(hall r i hi (childless_anywhere r)).1, horder]
  rfl

theorem isGround_emptyRoom : emptyRoom.isGround = true := by decide +kernel

/-- **An empty room hosts no root,** not even one that asks for nothing. -/
theorem empty_room_hosts_nothing : emptyRoom.Constructible ∧ anywhere.Constructible ∧
    emptyRoom.signature = anywhere.signature ∧ emptyRoom.isGround = true ∧
    (∀ l s, anywhere.linkKind l = some (.outer s) → ∃ k, emptyRoom.linkKind k = some (.outer s)) ∧
    emptyRoom.control 1 = some ⟨"Room", 1, .active⟩ ∧ anywhere.roots = [0, 1] ∧
    (∀ r c, anywhere.parent c = some r → anywhere.isSite c) ∧
    ∃ ms, Matches.of {} emptyRoom anywhere = .ok ms ∧ ∀ hit ∈ ms.hits, hit.host ≠ 1 := by
  have hsignature : emptyRoom.signature = anywhere.signature := rfl
  have hname : emptyRoom.linkKind 0 = some (.outer "corridor") := by decide +kernel
  refine ⟨Bigraph.constructible_run (by decide +kernel), constructible_anywhere, hsignature,
    isGround_emptyRoom, fun l s h => ⟨0, by rw [idle_anywhere h, hname]⟩, by decide +kernel,
    by decide +kernel, childless_anywhere, _, Matches.of_eq_ok hsignature isGround_emptyRoom, ?_⟩
  have hall : ((Problem.mk emptyRoom anywhere isGround_emptyRoom).toMatches {}).hits.all
      (·.host ≠ 1) = true := by decide +kernel
  exact fun hit hm => of_decide_eq_true (List.all_eq_true.mp hall hit hm)

end Bigraphs
