import Bigraphs.Matching.Cursor
import Bigraphs.Proofs.Matching.Occurs
import Bigraphs.Proofs.Matching.Twins

/-! # The choices along the plan

`IsPlacement` says which images the nodes of the redex can have below given hosts, without a word about
a search. The list `choicesFrom` has the placements that start with given images: they are exactly the
placements (`mem_choices`), and they are in lexicographic order of child positions
(`pairwise_choicesFrom`). The lazy list of embeddings is the list of their mappings
(`toList_embeddingsFrom`).

With a host for each root and all hosts in the agent, no step misses its anchor (`Begun.anchor`), so no
check ever fails. -/

namespace Bigraphs

open Bigraph

/-- The position of `p` among the children of its parent. -/
def Bigraph.childPosition (g : Bigraph) (p : PlaceId) : Nat :=
  match g.parent p with
  | none => 0
  | some above => (g.children above).idxOf p

namespace Problem

/-- **The nodes can be placed at these images,** step by step along the plan. -/
structure IsPlacement (q : Problem) (t : Table) (hosts images : List PlaceId) : Prop where
  length_eq : images.length = q.redex.plan.length
  child : ∀ (j : Nat) s y, q.redex.plan[j]? = some s → images[j]? = some y →
    ∃ p, s.anchor.image hosts images = some p ∧ y ∈ q.agent.children p
  plays : ∀ (j : Nat) s y, q.redex.plan[j]? = some s → images[j]? = some y → q.canPlay t y s.node
  nodup : images.Nodup
  after_twin : ∀ (j i : Nat) s y z, q.redex.plan[j]? = some s → s.twin = some i →
    images[j]? = some y → images[i]? = some z → z < y
  links : q.linksConsistent (mappingOf q.redex.plan images) = .ok true
  disjoint : q.hostsDisjoint q.redex.plan hosts images = .ok true

/-- The children of the anchor of the step that can play its node. -/
def playersAt (q : Problem) (t : Table) (hosts chosen : List PlaceId) (s : PlanStep) :
    List PlaceId :=
  match s.anchor.image hosts chosen with
  | none => []
  | some p => q.players t p s.node

/-- **The placements that start with the images `chosen`** of the steps before `rest`. -/
def choicesFrom (q : Problem) (t : Table) (hosts : List PlaceId) :
    List PlanStep → List PlaceId → List (List PlaceId)
  | [], chosen => if Cursor.passes q q.redex.plan hosts chosen = some true then [chosen] else []
  | s :: rest, chosen =>
    ((q.playersAt t hosts chosen s).filter (isAllowed chosen s)).flatMap fun y =>
      choicesFrom q t hosts rest (chosen ++ [y])

/-- Different agent nodes `chosen` are the images of the first steps, and `rest` are the steps after
these. -/
structure Begun (q : Problem) (chosen : List PlaceId) (rest : List PlanStep) : Prop where
  drop_eq : q.redex.plan.drop chosen.length = rest
  length_add : chosen.length + rest.length = q.redex.plan.length
  lt_size : ∀ y ∈ chosen, y < q.agent.places.size
  nodup : chosen.Nodup

variable {q : Problem} {t : Table} {hosts chosen : List PlaceId} {s : PlanStep}
  {rest : List PlanStep}

theorem passes_eq_some_true_iff {plan : List PlanStep} {images : List PlaceId} :
    Cursor.passes q plan hosts images = some true ↔
      q.linksConsistent (mappingOf plan images) = .ok true ∧
        q.hostsDisjoint plan hosts images = .ok true := by
  unfold Cursor.passes
  cases q.linksConsistent (mappingOf plan images) with
  | error e => simp
  | ok b =>
    cases b with
    | false => simp
    | true => cases q.hostsDisjoint plan hosts images <;> simp [Except.toOption]

theorem settled_eq {plan : List PlanStep} {images : List PlaceId} {b : Bool}
    (h : Cursor.passes q plan hosts images = some b) :
    q.settled plan hosts images =
      if b then .singleton (.ok (mappingOf plan images)) else .nil := by
  unfold Cursor.passes at h
  unfold settled
  cases hl : q.linksConsistent (mappingOf plan images) with
  | error e => simp [hl] at h
  | ok c =>
    cases c with
    | false => simp [hl] at h; simp [← h]
    | true =>
      cases hd : q.hostsDisjoint plan hosts images with
      | error e => simp [hl, hd, Except.toOption] at h
      | ok d => simp [hl, hd, Except.toOption] at h; cases d <;> simp [← h]

/-- An allowed candidate is new and comes after the image of the twin. -/
theorem isAllowed_iff {y : PlaceId} :
    isAllowed chosen s y ↔ y ∉ chosen ∧ ∀ z, s.twin.bind (chosen[·]?) = some z → z < y := by
  unfold isAllowed
  rw [Bool.and_eq_true, decide_eq_true_eq]
  refine and_congr_right fun _ => ?_
  cases s.twin.bind (chosen[·]?) <;> simp

/-! ### The images of the first steps -/

theorem Begun.nil (q : Problem) : q.Begun [] q.redex.plan :=
  ⟨rfl, by simp, by simp, .nil⟩

namespace Begun

theorem getElem? (hb : q.Begun chosen (s :: rest)) : q.redex.plan[chosen.length]? = some s := by
  rw [← List.head?_drop, hb.drop_eq, List.head?_cons]

theorem push (hb : q.Begun chosen (s :: rest)) {y : PlaceId} (hy : y < q.agent.places.size)
    (hnew : y ∉ chosen) : q.Begun (chosen ++ [y]) rest where
  drop_eq := by rw [List.length_append, List.length_singleton, ← List.drop_drop, hb.drop_eq]; rfl
  length_add := by have := hb.length_add; simp only [List.length_append, List.length_cons,
    List.length_nil] at this ⊢; omega
  lt_size := by
    intro z hz
    rcases List.mem_append.mp hz with hz | hz
    · exact hb.lt_size z hz
    · rw [List.mem_singleton.mp hz]; exact hy
  nodup := nodup_append_singleton hb.nodup hnew

/-- The image of the twin is chosen. -/
theorem floor (hb : q.Begun chosen (s :: rest)) :
    Cursor.floor chosen s = some (s.twin.bind (chosen[·]?)) := by
  unfold Cursor.floor
  cases hs : s.twin with
  | none => rfl
  | some i =>
    have hi := ((twin_spec hb.getElem?).1 i hs).1
    simp [List.getElem?_eq_getElem hi]

section Hosts
variable (hlen : hosts.length = q.redex.roots.length) (hh : ∀ h ∈ hosts, h < q.agent.places.size)
include hlen hh

/-- **No step misses its anchor.** -/
theorem anchor (hb : q.Begun chosen (s :: rest)) :
    ∃ p, s.anchor.image hosts chosen = some p ∧ p < q.agent.places.size := by
  rcases plan_anchor hb.getElem? with ⟨r, ha, hr, -⟩ | ⟨k, -, ha, hk, -, -⟩
  · have hroot : s.root < hosts.length := by
      rw [hlen]
      exact (List.getElem?_eq_some_iff.mp hr).1
    rw [ha]
    exact ⟨_, List.getElem?_eq_getElem hroot, hh _ (List.getElem_mem hroot)⟩
  · rw [ha]
    exact ⟨_, List.getElem?_eq_getElem hk, hb.lt_size _ (List.getElem_mem hk)⟩

theorem candidates (hb : q.Begun chosen (s :: rest)) :
    q.candidates t hosts chosen s = .ok (q.playersAt t hosts chosen s) := by
  obtain ⟨p, hp, hlt⟩ := hb.anchor hlen hh
  unfold Problem.candidates playersAt
  rw [hp]
  cases ha : s.anchor with
  | step k => rw [ha, Anchor.image] at hp; simp [hp]
  | root i => rw [ha, Anchor.image] at hp; simp [hp, Nat.not_le.mpr hlt]

end Hosts

end Begun

theorem exists_of_mem_playersAt {y : PlaceId} (hy : y ∈ q.playersAt t hosts chosen s) :
    ∃ p, s.anchor.image hosts chosen = some p ∧ y ∈ q.players t p s.node := by
  unfold playersAt at hy
  cases hp : s.anchor.image hosts chosen with
  | none => simp [hp] at hy
  | some p => exact ⟨p, rfl, by simpa [hp] using hy⟩

section WellFormed
variable (ha : q.agent.WellFormed) (hr : q.redex.WellFormed)
include ha

omit ha in
theorem mem_children_of_mem_players {p u y : PlaceId} (hy : y ∈ q.players t p u) :
    y ∈ q.agent.children p := by
  rw [← vertexChildren_agent]
  exact (mem_players.mp hy).1

theorem lt_of_mem_playersAt {y : PlaceId} (hy : y ∈ q.playersAt t hosts chosen s) :
    y < q.agent.places.size := by
  obtain ⟨p, -, hy⟩ := exists_of_mem_playersAt hy
  exact lt_of_parent (ha.mem_children.mp (mem_children_of_mem_players hy))

/-- The candidates for a step are in order of child positions. -/
theorem pairwise_playersAt :
    (q.playersAt t hosts chosen s).Pairwise fun y z =>
      q.agent.childPosition y < q.agent.childPosition z := by
  unfold playersAt
  cases s.anchor.image hosts chosen with
  | none => exact .nil
  | some p =>
    have hposition : ∀ y ∈ q.agent.children p,
        q.agent.childPosition y = (q.agent.children p).idxOf y := by
      intro y hy
      unfold childPosition
      rw [ha.mem_children.mp hy]
    have hsorted : (q.agent.children p).Pairwise fun y z =>
        q.agent.childPosition y < q.agent.childPosition z := by
      refine List.pairwise_iff_getElem.mpr fun i j hi hj hij => ?_
      rw [hposition _ (List.getElem_mem hi), hposition _ (List.getElem_mem hj),
        (ha.nodup_children p).idxOf_getElem, (ha.nodup_children p).idxOf_getElem]
      exact hij
    have hsub : (q.players t p s.node).Sublist (q.agent.children p) := by
      rw [← vertexChildren_agent]
      exact List.filter_sublist
    exact hsorted.sublist hsub

omit ha
include hr

/-- The checks of the complete mapping do not fail. -/
theorem Begun.passes (hh : ∀ h ∈ hosts, h < q.agent.places.size) (hb : q.Begun chosen []) :
    ∃ b, Cursor.passes q q.redex.plan hosts chosen = some b := by
  have hin : q.InRange (mappingOf q.redex.plan chosen) := by
    rintro ⟨x, y⟩ hxy
    obtain ⟨j, u, hu, rfl, hy⟩ := mem_mappingOf.mp hxy
    exact ⟨lt_of_isNode (hr.isNode_of_plan hu), hb.lt_size y (List.mem_of_getElem? hy)⟩
  obtain ⟨b, hl⟩ := linksConsistent_isOk hin
  obtain ⟨d, hd⟩ : ∃ d, q.hostsDisjoint q.redex.plan hosts chosen = .ok d := hostsDisjoint_isOk hh
  unfold Cursor.passes
  rw [hl, hd]
  cases b with
  | false => exact ⟨false, rfl⟩
  | true => exact ⟨d, rfl⟩

end WellFormed

/-! ### The list of placements -/

section Choices
variable (ha : q.agent.WellFormed) (hr : q.redex.WellFormed)
  (hlen : hosts.length = q.redex.roots.length) (hh : ∀ h ∈ hosts, h < q.agent.places.size)
include ha hlen hh

omit hlen hh in
theorem Begun.push_of_mem (hb : q.Begun chosen (s :: rest)) {y : PlaceId}
    (hy : y ∈ (q.playersAt t hosts chosen s).filter (isAllowed chosen s)) :
    q.Begun (chosen ++ [y]) rest :=
  hb.push (lt_of_mem_playersAt ha (List.mem_filter.mp hy).1)
    (isAllowed_iff.mp (List.mem_filter.mp hy).2).1

theorem mem_choicesFrom (hb : q.Begun chosen rest) {images : List PlaceId} :
    images ∈ q.choicesFrom t hosts rest chosen ↔ ∃ more, images = chosen ++ more ∧
      q.Placeable t hosts rest chosen more ∧
      Cursor.passes q q.redex.plan hosts images = some true := by
  induction rest generalizing chosen with
  | nil =>
    unfold choicesFrom
    constructor
    · intro h
      split at h
      next hp => rw [List.mem_singleton.mp h]; exact ⟨[], by simp, trivial, hp⟩
      next => simp at h
    · rintro ⟨more, rfl, hp, hpass⟩
      cases more with
      | nil => rw [List.append_nil] at hpass ⊢; simp [hpass]
      | cons y more => exact hp.elim
  | cons s rest ih =>
    have hcandidates := hb.candidates (t := t) hlen hh
    unfold choicesFrom
    rw [List.mem_flatMap]
    constructor
    · rintro ⟨y, hy, h⟩
      obtain ⟨more, rfl, hp, hpass⟩ := (ih (hb.push_of_mem ha hy)).mp h
      obtain ⟨hmem, hallowed⟩ := List.mem_filter.mp hy
      exact ⟨y :: more, by simp, ⟨⟨⟨_, hcandidates, hmem⟩, hallowed⟩, hp⟩, hpass⟩
    · rintro ⟨more, rfl, hp, hpass⟩
      cases more with
      | nil => exact hp.elim
      | cons y more =>
        obtain ⟨⟨⟨cs, hcs, hmem⟩, hallowed⟩, hp⟩ := hp
        rw [hcandidates, Except.ok.injEq] at hcs
        subst hcs
        have hy := List.mem_filter.mpr ⟨hmem, hallowed⟩
        exact ⟨y, hy, (ih (hb.push_of_mem ha hy)).mpr ⟨more, by simp, hp, hpass⟩⟩

/-- **The placements are in lexicographic order** of child positions. -/
theorem pairwise_choicesFrom (hb : q.Begun chosen rest) :
    (q.choicesFrom t hosts rest chosen).Pairwise fun images images' =>
      images.map q.agent.childPosition < images'.map q.agent.childPosition := by
  induction rest generalizing chosen with
  | nil => unfold choicesFrom; split <;> simp
  | cons s rest ih =>
    unfold choicesFrom
    refine List.pairwise_flatMap.mpr ⟨fun y hy => ih (hb.push_of_mem ha hy), ?_⟩
    refine ((pairwise_playersAt ha).filter _).imp_of_mem fun {y z} hy hz hyz images hi images' hi' => ?_
    obtain ⟨more, rfl, -⟩ := (mem_choicesFrom ha hlen hh (hb.push_of_mem ha hy)).mp hi
    obtain ⟨more', rfl, -⟩ := (mem_choicesFrom ha hlen hh (hb.push_of_mem ha hz)).mp hi'
    simp only [List.append_assoc, List.map_append, List.singleton_append, List.map_cons]
    exact List.append_left_lt (List.cons_lt_cons_iff.mpr (Or.inl hyz))

include hr

/-- **The lazy list** has the mappings of the placements, in the same order. -/
theorem toList_embeddingsFrom (hb : q.Begun chosen rest) :
    (q.embeddingsFrom t q.redex.plan hosts rest chosen).toList =
      (q.choicesFrom t hosts rest chosen).map fun images => .ok (mappingOf q.redex.plan images) := by
  induction rest generalizing chosen with
  | nil =>
    obtain ⟨b, hb⟩ := hb.passes hr hh
    unfold embeddingsFrom choicesFrom
    rw [settled_eq hb, hb]
    cases b <;> simp
  | cons s rest ih =>
    unfold embeddingsFrom choicesFrom
    rw [hb.candidates hlen hh]
    simp only [LazyList.toList_ofBranches, List.map_flatMap]
    exact List.flatMap_congr fun y hy => ih (hb.push_of_mem ha hy)

end Choices

/-! ### What the placements are -/

section Placement
variable {images : List PlaceId} {j : Nat}

/-- The conditions on one image, in terms of all of them. -/
theorem isChoice_take_iff (hh : ∀ h ∈ hosts, h < q.agent.places.size) {y : PlaceId}
    (hs : q.redex.plan[j]? = some s) :
    q.IsChoice t hosts (images.take j) s y ↔
      (y ∉ images.take j ∧ ∀ i z, s.twin = some i → images[i]? = some z → z < y) ∧
        (∃ p, s.anchor.image hosts images = some p ∧ y ∈ q.agent.children p) ∧
        q.canPlay t y s.node := by
  have htake : ∀ {k : Nat}, k < j → (images.take j)[k]? = images[k]? := fun hk => by
    rw [List.getElem?_take, if_pos hk]
  rw [isChoice_iff, isAllowed_iff]
  refine and_congr (and_congr_right fun _ => ?_) ?_
  · cases htwin : s.twin with
    | none => simp
    | some i =>
      have hi := ((twin_spec hs).1 i htwin).1
      rw [Option.bind_some, htake hi]
      refine ⟨fun h i' z hi' => ?_, fun h z => h i z rfl⟩
      cases hi'
      exact h z
  · simp only [mem_players, vertexChildren_agent]
    rcases plan_anchor hs with ⟨r, ha, hr, -⟩ | ⟨k, u, ha, hk, -⟩
    · rw [ha]
      constructor
      · rintro ⟨p, ⟨hy, hplay⟩, ⟨k, hk, -⟩ | ⟨i, hi, hp, -⟩⟩
        · cases hk
        · cases hi
          exact ⟨⟨p, hp, hy⟩, hplay⟩
      · rintro ⟨⟨p, hp, hy⟩, hplay⟩
        exact ⟨p, ⟨hy, hplay⟩, Or.inr ⟨_, rfl, hp, hh p (List.mem_of_getElem? hp)⟩⟩
    · rw [ha]
      constructor
      · rintro ⟨p, ⟨hy, hplay⟩, ⟨k', hk', hp⟩ | ⟨i, hi, -⟩⟩
        · cases hk'
          rw [htake hk] at hp
          exact ⟨⟨p, hp, hy⟩, hplay⟩
        · cases hi
      · rintro ⟨⟨p, hp, hy⟩, hplay⟩
        exact ⟨p, ⟨hy, hplay⟩, Or.inl ⟨k, rfl, by rw [htake hk]; exact hp⟩⟩

/-- **The search places the nodes** at the images of the placements, and at no others. -/
theorem isPlacement_iff (hh : ∀ h ∈ hosts, h < q.agent.places.size) :
    q.IsPlacement t hosts images ↔ q.Placeable t hosts q.redex.plan [] images ∧
      Cursor.passes q q.redex.plan hosts images = some true := by
  rw [passes_eq_some_true_iff]
  constructor
  · intro h
    refine ⟨placeable_iff.mpr ⟨h.length_eq, fun j s y hs hy => ?_⟩, h.links, h.disjoint⟩
    have hnew : y ∉ images.take j := by
      intro hmem
      obtain ⟨i, hi⟩ := List.mem_iff_getElem?.mp hmem
      have hij : i < j := by
        have := (List.getElem?_eq_some_iff.mp hi).1
        rw [List.length_take] at this
        omega
      rw [List.getElem?_take, if_pos hij] at hi
      have hlt := (List.getElem?_eq_some_iff.mp hi).1
      exact Nat.ne_of_lt hij ((List.getElem?_inj hlt h.nodup).mp (hi.trans hy.symm))
    exact (isChoice_take_iff hh hs).mpr ⟨⟨hnew, fun i z hi hz => h.after_twin j i s y z hs hi hy hz⟩,
      h.child j s y hs hy, h.plays j s y hs hy⟩
  · rintro ⟨hp, hl, hd⟩
    have hchoice := fun (j : Nat) s y hs hy =>
      (isChoice_take_iff hh hs).mp (choice_of_placeable hp (j := j) (s := s) (y := y) hs hy)
    exact {
      length_eq := length_of_placeable hp
      child := fun j s y hs hy => (hchoice j s y hs hy).2.1
      plays := fun j s y hs hy => (hchoice j s y hs hy).2.2
      nodup := by simpa using nodup_of_placeable .nil hp
      after_twin := fun j i s y z hs hi hy hz => (hchoice j s y hs hy).1.2 i z hi hz
      links := hl
      disjoint := hd }

/-- **The list has all placements.** -/
theorem mem_choices (ha : q.agent.WellFormed) (hlen : hosts.length = q.redex.roots.length)
    (hh : ∀ h ∈ hosts, h < q.agent.places.size) :
    images ∈ q.choicesFrom t hosts q.redex.plan [] ↔ q.IsPlacement t hosts images := by
  rw [mem_choicesFrom ha hlen hh (.nil q), isPlacement_iff hh]
  constructor
  · rintro ⟨more, rfl, h⟩
    exact h
  · exact fun h => ⟨images, rfl, h⟩

end Placement

end Problem

end Bigraphs
