import Bigraphs.Proofs.Construction.Steps
import Bigraphs.Proofs.Matching.Occurs

/-! # What is yielded is an occurrence

The search compares closed links by the number of their ports alone. That is enough: different ports
of a redex edge have different images, all on one agent edge with as many ports, so that no port of
that edge is left over (`exists_exact_edge`). With it everything that is yielded occurs exactly
(`occurrences_sound`). -/

namespace Bigraphs

namespace Problem

/-- **The redex occurs in the agent, closed links included:** the ports of an agent edge that answers
for a closed redex edge are the images of its ports, and no port of another redex link goes there. -/
structure OccursExactly (q : Problem) (hosts : List PlaceId) (m : Mapping) : Prop
    extends q.Occurs hosts m where
  hosts_vertex : ∀ h ∈ hosts, q.agent.isRoot h ∨ q.agent.isNode h
  open_below : ∀ x y, (x, y) ∈ m →
    (q.redex.vertexChildren x).length ≤ (q.agent.children y).length
  exact_edges : ∀ l, q.redex.isEdge l → (∀ n, q.redex.innerLink n ≠ some l) →
    (∃ x i, q.redex.portLink x i = some l) → ∃ a, q.agent.isEdge a ∧
      (∀ v j, q.agent.portLink v j = some a ↔ ∃ x, (x, v) ∈ m ∧ q.redex.portLink x j = some l) ∧
      ∀ x y j k, (x, y) ∈ m → q.redex.portLink x j = some k → q.agent.portLink y j = some a → k = l

variable {q : Problem} {hosts : List PlaceId} {m : Mapping}

namespace Occurs

variable (ho : q.Occurs hosts m)
include ho

/-- The image of a point of the redex. -/
def pointImage (m : Mapping) : Point → Point
  | .port x i => .port ((imageOf m x).getD 0) i
  | .inner n => .inner n

omit ho in
theorem mem_ports_of_link {g : Bigraph} (hg : g.WellFormed) {l : LinkId} {x : Point} :
    x ∈ (g.points l).filter (!·.isInner) ↔ ∃ v i, x = .port v i ∧ g.portLink v i = some l := by
  rw [List.mem_filter]
  cases x with
  | port v i => simp [hg.mem_points_port, Point.isInner]
  | inner n => simp [Point.isInner]

theorem exists_image_of_port {x : PlaceId} {i : Nat} {l : LinkId}
    (hl : q.redex.portLink x i = some l) : ∃ y, (x, y) ∈ m ∧ imageOf m x = some y := by
  obtain ⟨y, hm⟩ := ho.exists_image (Bigraph.isNode_of_portLink hl)
  exact ⟨y, hm, ho.imageOf_eq_some_iff.mpr hm⟩

/-- **The ports of a redex link have different images** among the ports of the agent link that answers
for it. -/
theorem portImages_subperm (hq : q.Proper) {l a : LinkId}
    (hla : ∀ x y i, (x, y) ∈ m → q.redex.portLink x i = some l → q.agent.portLink y i = some a) :
    (((q.redex.points l).filter (!·.isInner)).map (pointImage m)).Subperm
      ((q.agent.points a).filter (!·.isInner)) := by
  refine List.subperm_of_subset (List.Nodup.map_on ?_ ((hq.redex.nodup_points l).filter _)) ?_
  · intro s hs t ht hst
    obtain ⟨x, i, rfl, hxl⟩ := (mem_ports_of_link hq.redex).mp hs
    obtain ⟨x', i', rfl, hxl'⟩ := (mem_ports_of_link hq.redex).mp ht
    obtain ⟨y, hm, hy⟩ := ho.exists_image_of_port hxl
    obtain ⟨y', hm', hy'⟩ := ho.exists_image_of_port hxl'
    simp only [pointImage, hy, hy', Option.getD_some, Point.port.injEq] at hst
    obtain ⟨rfl, rfl⟩ := hst
    rw [ho.node_unique hm hm']
  · intro s hs
    obtain ⟨t, ht, rfl⟩ := List.mem_map.mp hs
    obtain ⟨x, i, rfl, hxl⟩ := (mem_ports_of_link hq.redex).mp ht
    obtain ⟨y, hm, hy⟩ := ho.exists_image_of_port hxl
    exact (mem_ports_of_link hq.agent).mpr ⟨y, i, by simp [pointImage, hy], hla x y i hm hxl⟩

/-- **A closed edge is matched exactly:** its ports have different images on one agent edge with as
many ports. -/
theorem exists_exact_edge (hq : q.Proper) {l : LinkId} (he : q.redex.isEdge l)
    (hn : ∀ n, q.redex.innerLink n ≠ some l) (hp : ∃ x i, q.redex.portLink x i = some l) :
    ∃ a, q.agent.isEdge a ∧
      ∀ v j, q.agent.portLink v j = some a ↔ ∃ x, (x, v) ∈ m ∧ q.redex.portLink x j = some l := by
  obtain ⟨x₀, i₀, hl₀⟩ := hp
  obtain ⟨y₀, hm₀⟩ := ho.exists_image (Bigraph.isNode_of_portLink hl₀)
  obtain ⟨a, ha, hea, hcount⟩ := ho.closed_links x₀ y₀ i₀ l hm₀ hl₀ he hn
  have hla : ∀ x y i, (x, y) ∈ m → q.redex.portLink x i = some l → q.agent.portLink y i = some a :=
    fun x y i hm hl => by rw [ho.links x y i x₀ y₀ i₀ l hm hm₀ hl hl₀, ha]
  have hlen : ((q.agent.points a).filter (!·.isInner)).length ≤
      (((q.redex.points l).filter (!·.isInner)).map (pointImage m)).length := by
    rw [Bigraph.portCount_eq, Bigraph.portCount_eq, List.countP_eq_length_filter,
      List.countP_eq_length_filter] at hcount
    rw [List.length_map]
    exact hcount.le
  have hperm := (ho.portImages_subperm hq hla).perm_of_length_le hlen
  refine ⟨a, hea, fun v j => ⟨fun hv => ?_, fun ⟨x, hm, hxl⟩ => hla x v j hm hxl⟩⟩
  have hmem := hperm.mem_iff.mpr ((mem_ports_of_link hq.agent).mpr ⟨v, j, rfl, hv⟩)
  obtain ⟨t, ht, htv⟩ := List.mem_map.mp hmem
  obtain ⟨x, i, rfl, hxl⟩ := (mem_ports_of_link hq.redex).mp ht
  obtain ⟨y, hm, hy⟩ := ho.exists_image_of_port hxl
  simp only [pointImage, hy, Option.getD_some, Point.port.injEq] at htv
  obtain ⟨rfl, rfl⟩ := htv
  exact ⟨x, hm, hxl⟩

/-- A node has at least as many children below its image as it has child nodes. -/
theorem length_vertexChildren_le (hq : q.Proper) {x y : PlaceId} (h : (x, y) ∈ m) :
    (q.redex.vertexChildren x).length ≤ (q.agent.children y).length := by
  obtain ⟨hnodup, hmem⟩ := ho.childImages_spec hq h
  simpa using (List.subperm_of_subset hnodup fun d hd => (hmem d hd).1).length_le

theorem occursExactly (hq : q.Proper)
    (hv : ∀ h ∈ hosts, q.agent.isRoot h ∨ q.agent.isNode h) : q.OccursExactly hosts m where
  toOccurs := ho
  hosts_vertex := hv
  open_below _ _ h := ho.length_vertexChildren_le hq h
  exact_edges l he hn hp := by
    obtain ⟨a, hea, hports⟩ := ho.exists_exact_edge hq he hn hp
    refine ⟨a, hea, hports, fun x y j k hxy hk hya => ?_⟩
    obtain ⟨x', hm', hl'⟩ := (hports y j).mp hya
    rw [ho.node_unique hm' hxy, hk] at hl'
    exact Option.some.inj hl'

end Occurs

end Problem

/-! ### The result -/

namespace Matches

theorem proper_of_constructible {agent redex : Bigraph} (ha : agent.Constructible)
    (hr : redex.Constructible) (hs : agent.signature = redex.signature)
    (hg : agent.isGround = true) : (Problem.mk agent redex hg).Proper :=
  ⟨ha.wellFormed, ha.rooted, hr.wellFormed, hr.rooted, hs⟩

/-- **What is yielded occurs exactly.** -/
theorem occurrences_sound (config : MatchConfig) {agent redex : Bigraph}
    (ha : agent.Constructible) (hr : redex.Constructible)
    (hs : agent.signature = redex.signature) (hg : agent.isGround = true) :
    ∃ ms, Matches.of config agent redex = .ok ms ∧ ∀ o ∈ ms.occurrences.toList,
      ms.problem.OccursExactly o.hosts o.mapping := by
  refine ⟨_, of_eq_ok hs hg, fun o ho => ?_⟩
  have hq := proper_of_constructible ha hr hs hg
  refine (occurs_of_mem_occurrences hq ho).occursExactly hq fun h hh => ?_
  have hlt := (of_mem_assignments hq (of_mem_occurrences ho).1).1.lt_size h hh
  cases hroot : agent.isRoot h with
  | true => exact Or.inl rfl
  | false => exact Or.inr (Bigraph.isNode_of_not hlt hroot (Problem.isSite_agent _ h))

end Matches

/-! ### Rooms on a corridor -/

/-- Rooms with a door and people with a link. -/
def building : Signature :=
  ⟨[⟨"Person", 1, .atomic⟩, ⟨"Room", 1, .active⟩], by decide⟩

/-- Two rooms on one corridor, with a person in each, linked to one another. -/
def twoRooms : Bigraph :=
  ((Construction.new building).run [.root 0, .node "Room" "a", .nest 1 0, .node "Room" "b",
    .nest 2 0, .node "Person" "x", .nest 3 1, .node "Person" "y", .nest 4 2, .edge "e",
    .connect 3 0, .connect 4 0, .outer "corridor", .connect 1 1, .connect 2 1]).graph

/-- Three rooms on one corridor. The people in the first one are linked to those in the other two, but
one of them is on the corridor. -/
def busyRooms : Bigraph :=
  ((Construction.new building).run [.root 0, .node "Room" "a", .nest 1 0, .node "Room" "b", .nest 2 0,
    .node "Room" "d", .nest 3 0, .node "Person" "x", .nest 4 1, .node "Person" "u", .nest 5 1,
    .node "Person" "v", .nest 6 1, .node "Person" "y", .nest 7 2, .node "Person" "w", .nest 8 3,
    .outer "corridor", .connect 1 0, .connect 2 0, .connect 3 0, .connect 5 0, .edge "e",
    .connect 4 1, .connect 7 1, .edge "f", .connect 6 2, .connect 8 2]).graph

/-- Two rooms under two roots, on one door. A person in each is linked to the other and to nobody else.
The first room may hold more, which may be on the door, the second one does not. -/
def roomsInTouch : Bigraph :=
  ((Construction.new building).run [.root 0, .root 1, .node "Room" "r", .nest 2 0, .node "Room" "s",
    .nest 3 1, .node "Person" "p", .nest 4 2, .node "Person" "q", .nest 5 3, .site 0, .nest 6 2,
    .outer "door", .connect 2 0, .connect 3 0, .inner "in", .wire 0 0, .edge "c", .connect 4 1,
    .connect 5 1]).graph

theorem constructible_twoRooms : twoRooms.Constructible := Bigraph.constructible_run (by decide)

theorem constructible_busyRooms : busyRooms.Constructible :=
  Bigraph.constructible_run (by decide +kernel)

theorem constructible_roomsInTouch : roomsInTouch.Constructible :=
  Bigraph.constructible_run (by decide +kernel)

theorem isGround_twoRooms : twoRooms.isGround = true := by decide

theorem isGround_busyRooms : busyRooms.isGround = true := by decide +kernel

theorem signature_busyRooms : busyRooms.signature = roomsInTouch.signature := by decide +kernel

/-- The number of occurrences that are yielded. -/
def numberOfOccurrences (config : MatchConfig) (agent redex : Bigraph) : Nat :=
  match Matches.of config agent redex with
  | .ok ms => ms.occurrences.toList.length
  | .error _ => 0

/-- The first room is in touch with each of the others. -/
theorem occurrences_sound_busyRooms : busyRooms.Constructible ∧ roomsInTouch.Constructible ∧
    busyRooms.signature = roomsInTouch.signature ∧ busyRooms.isGround = true ∧
    numberOfOccurrences {} busyRooms roomsInTouch = 2 ∧
    ∃ ms, Matches.of {} busyRooms roomsInTouch = .ok ms ∧ ∀ o ∈ ms.occurrences.toList,
      ms.problem.OccursExactly o.hosts o.mapping :=
  ⟨constructible_busyRooms, constructible_roomsInTouch, signature_busyRooms, isGround_busyRooms, by decide +kernel,
    Matches.occurrences_sound {} constructible_busyRooms constructible_roomsInTouch signature_busyRooms
      isGround_busyRooms⟩

end Bigraphs
