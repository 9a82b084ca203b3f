import Bigraphs.Matching.Odometer
import Bigraphs.Loop
import Bigraphs.Proofs.Matching.Assignment

/-! # What the odometer hands out

The wheels show one assignment, and the rest of the enumeration comes after it (`Shows`). By recursion on
the wheels: with the first wheel as it stands, what comes after what the other wheels show, and then all
combinations of the other wheels for each host that the first wheel has not shown yet. A turn goes on to
the next assignment, or all wheels come round (`Shows.turn`). So the calls hand out all assignments
(`handsOut_new`): the product of the hosts of the roots, in the order of the dictionary
(`handsOut_product`). -/

namespace Bigraphs

namespace Odometer

/-- The combinations of the wheels that start with one of `firsts`. -/
def combinationsFrom (firsts : List PlaceId) (choices : List (List PlaceId)) :
    List (List PlaceId) :=
  firsts.flatMap fun h => (combinations choices).toList.map (h :: ·)

theorem toList_combinations_cons (hosts : List PlaceId) (choices : List (List PlaceId)) :
    (combinations (hosts :: choices)).toList = combinationsFrom hosts choices := by
  unfold combinations combinationsFrom
  simp [List.filterMap_eq_map']

/-- The wheels show the assignment `a`, and the assignments `rest` come after it. -/
inductive Shows : List Wheel → List PlaceId → List (List PlaceId) → Prop
  | nil : Shows [] [] []
  | cons {w : Wheel} {ws : List Wheel} {h : PlaceId} {a : List PlaceId} {rest : List (List PlaceId)}
      (hw : w.hosts[w.position]? = some h) (hws : Shows ws a rest) :
      Shows (w :: ws) (h :: a) (rest.map (h :: ·) ++
        combinationsFrom (w.hosts.drop (w.position + 1)) (ws.map (·.hosts)))

theorem map_hosts_unturned (choices : List (List PlaceId)) :
    (unturned choices).map (·.hosts) = choices := by
  unfold unturned
  rw [List.map_map]
  exact List.map_id _

/-- Before their first turn the wheels show the first of all combinations. -/
theorem exists_shows_unturned {choices : List (List PlaceId)} (h : ∀ hosts ∈ choices, hosts ≠ []) :
    ∃ a rest, (combinations choices).toList = a :: rest ∧ Shows (unturned choices) a rest := by
  induction choices with
  | nil => exact ⟨[], [], rfl, .nil⟩
  | cons hosts choices ih =>
    obtain ⟨a, rest, hrest, hshows⟩ := ih fun hosts hm => h hosts (List.mem_cons_of_mem _ hm)
    obtain ⟨x, hosts, rfl⟩ := List.exists_cons_of_ne_nil (h hosts (List.mem_cons_self ..))
    have hcons : Shows (⟨x :: hosts, 0⟩ :: unturned choices) (x :: a) _ := .cons rfl hshows
    rw [map_hosts_unturned] at hcons
    refine ⟨x :: a, _, ?_, hcons⟩
    rw [toList_combinations_cons]
    unfold combinationsFrom
    rw [List.flatMap_cons, hrest]
    rfl

namespace Shows

variable {ws : List Wheel} {a : List PlaceId} {rest : List (List PlaceId)}

theorem reading_eq (h : Shows ws a rest) : reading ws = some a := by
  induction h with
  | nil => rfl
  | cons hw _ ih =>
    unfold reading
    rw [hw, ih]
    rfl

theorem hosts_ne_nil (h : Shows ws a rest) : ∀ hosts ∈ ws.map (·.hosts), hosts ≠ [] := by
  induction h with
  | nil => simp
  | cons hw _ ih =>
    rw [List.map_cons, List.forall_mem_cons]
    refine ⟨?_, ih⟩
    intro heq
    rw [heq] at hw
    simp at hw

/-- **A turn goes on to the next assignment.** After the last one, all wheels stand at their first host. -/
theorem turn (h : Shows ws a rest) :
    rest = [] ∧ turn ws = (false, unturned (ws.map (·.hosts))) ∨
      ∃ b more ws', rest = b :: more ∧ Odometer.turn ws = (true, ws') ∧ Shows ws' b more ∧
        ws'.map (·.hosts) = ws.map (·.hosts) := by
  induction h with
  | nil => exact Or.inl ⟨rfl, rfl⟩
  | @cons w ws x a rest hw hws ih =>
    rcases ih with ⟨rfl, hturn⟩ | ⟨b, more, ws', rfl, hturn, hshows, hhosts⟩
    · -- the other wheels have come round, so this wheel is turned
      by_cases hlt : w.position + 1 < w.hosts.length
      · obtain ⟨b, more, hmore, hshows⟩ := exists_shows_unturned hws.hosts_ne_nil
        refine Or.inr ⟨w.hosts[w.position + 1] :: b, _, { w with position := w.position + 1 } ::
          unturned (ws.map (·.hosts)), ?_, ?_, .cons (List.getElem?_eq_getElem hlt) hshows, ?_⟩
        · rw [List.drop_eq_getElem_cons hlt, map_hosts_unturned]
          unfold combinationsFrom
          rw [List.flatMap_cons, hmore]
          rfl
        · unfold Odometer.turn
          simp only [hturn, if_pos hlt]
        · rw [List.map_cons, List.map_cons, map_hosts_unturned]
      · refine Or.inl ⟨?_, ?_⟩
        · rw [List.drop_eq_nil_of_le (Nat.not_lt.mp hlt)]
          rfl
        · unfold Odometer.turn
          simp only [hturn, if_neg hlt]
          rfl
    · refine Or.inr ⟨x :: b, _, w :: ws', rfl, ?_, ?_, ?_⟩
      · unfold Odometer.turn
        rw [hturn]
      · rw [← hhosts]
        exact .cons hw hshows
      · rw [List.map_cons, List.map_cons, hhosts]

/-- Nothing comes after the only combination of single hosts. -/
theorem eq_nil_of_single (h : Shows ws a rest) (hsingle : ∀ w ∈ ws, w.hosts.length = 1) :
    rest = [] := by
  induction h with
  | nil => rfl
  | @cons w ws x a rest hw _ ih =>
    rw [List.forall_mem_cons] at hsingle
    rw [ih hsingle.2, List.drop_eq_nil_of_le (by omega)]
    rfl

end Shows

/-- **The assignments that are left.** -/
inductive Left : Odometer → List (List PlaceId) → Prop
  | new (hits : List (PlaceId × List Nat)) (indices : List Nat) :
      Left (new hits indices) (assignments hits indices).toList
  | shows {ws : List Wheel} {a : List PlaceId} {rest : List (List PlaceId)} (h : Shows ws a rest) :
      Left ⟨ws, true, false⟩ rest
  | exhausted (ws : List Wheel) (started : Bool) : Left ⟨ws, started, true⟩ []

/-- **A call answers with the first assignment that is left.** -/
theorem Left.next {o : Odometer} {as : List (List PlaceId)} (h : Left o as) :
    ∃ o', next o = some (as.head?, o') ∧ Left o' as.tail := by
  cases h with
  | exhausted ws started => exact ⟨_, rfl, .exhausted ws started⟩
  | @shows ws a rest h =>
    unfold Odometer.next
    rcases h.turn with ⟨rfl, hturn⟩ | ⟨b, more, ws', rfl, hturn, hshows, -⟩
    · simp only [hturn]
      exact ⟨_, rfl, .exhausted _ _⟩
    · simp only [hturn, hshows.reading_eq]
      exact ⟨_, rfl, .shows hshows⟩
  | new hits indices =>
    have hempty : ((unturned (hostChoices hits indices)).isEmpty ||
        (unturned (hostChoices hits indices)).any (·.hosts.isEmpty)) =
        ((hostChoices hits indices).isEmpty || (hostChoices hits indices).any (·.isEmpty)) := by
      unfold unturned
      rw [List.isEmpty_map, List.any_map]
      rfl
    unfold Odometer.next assignments
    simp only [Odometer.new, hempty, Bool.false_eq_true, if_false]
    split
    next => exact ⟨_, rfl, .exhausted _ _⟩
    next hne =>
      rw [Bool.not_eq_true, Bool.or_eq_false_iff, List.any_eq_false] at hne
      obtain ⟨a, rest, hrest, hshows⟩ := exists_shows_unturned fun hosts hm heq =>
        hne.2 hosts hm (List.isEmpty_iff.mpr heq)
      rw [hrest, hshows.reading_eq]
      refine ⟨_, rfl, ?_⟩
      cases hsingle : (unturned (hostChoices hits indices)).all (·.hosts.length = 1) with
      | false => exact .shows hshows
      | true =>
        have hnil : rest = [] := hshows.eq_nil_of_single (by simpa using hsingle)
        exact hnil ▸ .exhausted _ _

/-- **The calls hand out the assignments,** in order, and nothing after them. -/
theorem handsOut_new (hits : List (PlaceId × List Nat)) (indices : List Nat) :
    HandsOut next (new hits indices) (assignments hits indices).toList :=
  HandsOut.of_left (fun _ _ h => Left.next h) (Left.new hits indices)

/-- **The calls hand out the product:** each choice of a vertex for each root, among those recorded with
the index of the root, once, in the order of the dictionary. There is none without roots, and none if a
root has no vertex. -/
theorem handsOut_product {hits : List (PlaceId × List Nat)} (h : (hits.map (·.1)).Nodup)
    (indices : List Nat) : ∃ as, HandsOut next (new hits indices) as ∧ as.Nodup ∧
      (∀ a, a ∈ as ↔
        indices ≠ [] ∧ List.Forall₂ (fun v i => ∃ is, (v, is) ∈ hits ∧ i ∈ is) a indices) ∧
      as.Pairwise (List.Lex fun v w => rankIn hits v < rankIn hits w) ∧
      (as = [] ↔ indices = [] ∨ ∃ i ∈ indices, ∀ hit ∈ hits, i ∉ hit.2) :=
  ⟨_, handsOut_new hits indices, nodup_assignments h, fun _ => mem_assignments,
    pairwise_assignments h, toList_assignments_eq_nil_iff⟩

end Odometer

/-- Vertex 9 is recorded before vertex 4, and both roots can be at it. -/
theorem handsOut_product_sharedVertex : ([(9, [1, 0]), (4, [1])].map (·.1)).Nodup ∧
    ∃ as, HandsOut Odometer.next (.new [(9, [1, 0]), (4, [1])] [0, 1]) as ∧ as ≠ [] ∧ as.Nodup ∧
      [9, 9] ∈ as ∧ [9, 4] ∈ as ∧ [4, 9] ∉ as ∧
      as.Pairwise (List.Lex fun v w =>
        rankIn [(9, [1, 0]), (4, [1])] v < rankIn [(9, [1, 0]), (4, [1])] w) := by
  have hnodup : ([(9, [1, 0]), (4, [1])].map (·.1)).Nodup := by decide
  obtain ⟨as, has, hn, hmem, hlex, hnil⟩ := Odometer.handsOut_product hnodup [0, 1]
  refine ⟨hnodup, as, has, mt hnil.mp (by simp), hn, (hmem _).mpr ?_, (hmem _).mpr ?_,
    fun hm => ?_, hlex⟩
  · simp
  · simp
  · simpa using (hmem _).mp hm

end Bigraphs
