import Bigraphs.Proofs.Matching.Completeness
import Bigraphs.Proofs.Matching.Content

/-! # Which decompositions are found again

A decomposition can be found more than once. If two items of a pass have the same content, their hosts
are the same, and the mapping of one is that of the other after a rearrangement of the redex nodes
(`Rearrangement`). The rearrangement keeps controls and nesting, all that the pieces tell of it, and the
search leaves out one of two mappings if it is a symmetry of the redex. So it is none: it takes a node from
one root to another with the same host, or it moves a node with a site that stands for nothing, or it takes
a port to another link (`EvadesTwins`). -/

namespace Bigraphs

open Bigraph

namespace Problem

/-- **The rearrangement `π` of the redex nodes takes one mapping to another** below the same hosts, and
the pieces are no different for it: the children of a root stay below its host, a node stays where it is if
something unmatched hangs below its image, and a link that is an outer name or is seen in a parameter keeps
its answer. -/
structure Rearrangement (q : Problem) (hosts : List PlaceId) (m m' : Mapping)
    (pieces : Decomposition) (π : Equiv.Perm PlaceId) : Prop where
  image_iff : ∀ x y, (x, y) ∈ m' ↔ (π x, y) ∈ m
  fixes : ∀ p, q.redex.isNode p = false → π p = p
  control_eq : ∀ x, q.redex.control (π x) = q.redex.control x
  length_ports : ∀ x, (q.redex.ports (π x)).length = (q.redex.ports x).length
  under_node : ∀ x p, q.redex.isNode x → q.redex.parent x = some p → q.redex.isNode p →
    q.redex.parent (π x) = some (π p)
  under_root : ∀ x r (p : Nat), q.redex.isNode x → q.redex.parent x = some r →
    q.redex.roots[p]? = some r → ∃ (p' : Nat) (r' : PlaceId), q.redex.roots[p']? = some r' ∧
      q.redex.parent (π x) = some r' ∧ hosts[p']? = hosts[p]?
  fixes_filled : ∀ x y c, (x, y) ∈ m ∨ (x, y) ∈ m' → q.agent.parent c = some y →
    ¬ Matched m c → π x = x
  answer_eq : ∀ x i l, q.redex.portLink x i = some l →
    q.redex.isEdge l = false ∨ q.Seen pieces l → q.answer m' l = q.answer m l

/-- **What twins do not account for:** the rearrangement takes a node from one root to another, it moves
a node with a site, or it takes a port from one link to another one, where one agent link answers for
both, or both are edges that are not seen in a parameter. -/
inductive EvadesTwins (q : Problem) (m : Mapping) (pieces : Decomposition)
    (π : Equiv.Perm PlaceId) : Prop where
  | root {x r r' : PlaceId} : q.redex.isNode x → q.redex.parent x = some r → q.redex.isRoot r →
      q.redex.parent (π x) = some r' → r' ≠ r → EvadesTwins q m pieces π
  | site {x s : PlaceId} : q.redex.isNode x → q.redex.isSite s → q.redex.parent s = some x →
      π x ≠ x → EvadesTwins q m pieces π
  | link {x : PlaceId} {i : Nat} {l l' : LinkId} : q.redex.portLink x i = some l →
      q.redex.portLink (π x) i = some l' → l' ≠ l →
      q.answer m l' = q.answer m l ∨
        q.redex.isEdge l ∧ q.redex.isEdge l' ∧ ¬ q.Seen pieces l ∧ ¬ q.Seen pieces l' →
      EvadesTwins q m pieces π

variable {q : Problem} {hosts hosts' : List PlaceId} {m m' : Mapping}
  {pieces pieces' : Decomposition} {context context' : Copy} {parts parts' : List Part}
  {b b' : Border} {π : Equiv.Perm PlaceId}

/-! ### The rearrangement -/

/-- The link on the image of a port answers for the link of the port. -/
theorem answer_of_port (hq : q.Proper) (ho : q.Occurs hosts m) {x y : PlaceId} {i : Nat} {l : LinkId}
    (hm : (x, y) ∈ m) (hl : q.redex.portLink x i = some l) :
    q.answer m l = q.agent.portLink y i := by
  obtain ⟨a, ha⟩ := ho.exists_portLink hm hl
  have himage := linkImage_of_port hq ho hm hl ha
  rw [linkImage_eq hq ho, Except.ok.injEq] at himage
  rw [himage, ha]

/-- Each node goes to the node that has its new image by the old mapping. -/
theorem exists_moved (ho' : q.Occurs hosts' m')
    (hsub : ∀ y, Matched m' y → Matched m y) :
    ∃ f : PlaceId → PlaceId, (∀ x y, (x, y) ∈ m' → (f x, y) ∈ m) ∧
      ∀ p, q.redex.isNode p = false → f p = p := by
  have hmove : ∀ x, ∃ z, (∀ y, (x, y) ∈ m' → (z, y) ∈ m) ∧ (q.redex.isNode x = false → z = x) := by
    intro x
    cases hx : q.redex.isNode x with
    | false =>
      refine ⟨x, fun y hm' => ?_, fun _ => rfl⟩
      rw [ho'.isNode_fst hm'] at hx
      cases hx
    | true =>
      obtain ⟨y, hy⟩ := ho'.exists_image hx
      obtain ⟨z, hz⟩ := hsub y ⟨x, hy⟩
      exact ⟨z, fun w hw => ho'.image_unique hy hw ▸ hz, fun h => by cases h⟩
  choose f hf using hmove
  exact ⟨f, fun x => (hf x).1, fun p => (hf p).2⟩

theorem exists_perm (ho : q.Occurs hosts m) (ho' : q.Occurs hosts' m')
    (hmatched : ∀ y, Matched m y ↔ Matched m' y) :
    ∃ π : Equiv.Perm PlaceId, (∀ x y, (x, y) ∈ m' ↔ (π x, y) ∈ m) ∧
      ∀ p, q.redex.isNode p = false → π p = p := by
  obtain ⟨f, hf, hfixf⟩ := exists_moved ho' fun y => (hmatched y).mpr
  obtain ⟨g, hg, hfixg⟩ := exists_moved ho fun y => (hmatched y).mp
  have hgf : Function.LeftInverse g f := by
    intro x
    cases hx : q.redex.isNode x with
    | false => rw [hfixf x hx, hfixg x hx]
    | true =>
      obtain ⟨y, hy⟩ := ho'.exists_image hx
      exact ho'.node_unique (hg _ y (hf x y hy)) hy
  have hfg : Function.RightInverse g f := by
    intro x
    cases hx : q.redex.isNode x with
    | false => rw [hfixg x hx, hfixf x hx]
    | true =>
      obtain ⟨y, hy⟩ := ho.exists_image hx
      exact ho.node_unique (hf _ y (hg x y hy)) hy
  refine ⟨⟨f, g, hgf, hfg⟩, fun x y => ⟨hf x y, fun h => ?_⟩, hfixf⟩
  have h' : (g (f x), y) ∈ m' := hg _ y h
  rwa [hgf x] at h'

section Same
variable (hq : q.Proper) (ho : q.Occurs hosts m) (ho' : q.Occurs hosts m')
  (ha : q.Anatomy hosts m pieces context parts b)
  (ha' : q.Anatomy hosts m' pieces' context' parts' b') (hsame : SameContent pieces pieces')
include hq ho ho' ha ha' hsame

omit ho' in
/-- **A redex link with a port that is no edge** is answered for by the same link. -/
theorem answer_of_open {x : PlaceId} {i : Nat} {l : LinkId} (hl : q.redex.portLink x i = some l)
    (hopen : q.redex.isEdge l = false) : q.answer m' l = q.answer m l := by
  obtain ⟨y, hym⟩ := ho.exists_image (isNode_of_portLink hl)
  obtain ⟨a, hya⟩ := ho.exists_portLink hym hl
  have hans := answer_of_port hq ho hym hl
  rw [hya] at hans
  have hlt : l < q.redex.links.size := lt_of_mem_points (hq.redex.mem_points_port.mpr hl)
  obtain ⟨s, hs⟩ := mem_outerNames.mp
    (List.mem_filter.mpr ⟨List.mem_range.mpr hlt, by rw [hopen]; rfl⟩)
  rw [hans, answer_of_outer hq ho ha ha' hsame hs hans]

/-- **Mappings whose pieces have the same content** differ by a rearrangement. -/
theorem exists_rearrangement : ∃ π, q.Rearrangement hosts m m' pieces π := by
  have hmatched := matched_iff hq ho ho' ha ha' hsame
  obtain ⟨π, hπ, hfixes⟩ := exists_perm ho ho' hmatched
  have himage : ∀ {x}, q.redex.isNode x → ∃ y, (x, y) ∈ m' ∧ (π x, y) ∈ m := by
    intro x hx
    obtain ⟨y, hy⟩ := ho'.exists_image hx
    exact ⟨y, hy, (hπ x y).mp hy⟩
  exact ⟨π, {
    image_iff := hπ
    fixes := hfixes
    control_eq := fun x => by
      cases hx : q.redex.isNode x with
      | false => rw [hfixes x hx]
      | true =>
        obtain ⟨y, hm', hm⟩ := himage hx
        obtain ⟨c, hc, hyc⟩ := ho'.control x y hm'
        obtain ⟨d, hd, hyd⟩ := ho.control _ y hm
        rw [hd, hc, ← hyd, hyc]
    length_ports := fun x => by
      cases hx : q.redex.isNode x with
      | false => rw [hfixes x hx]
      | true =>
        obtain ⟨y, hm', hm⟩ := himage hx
        rw [ho.length_ports _ y hm, ho'.length_ports x y hm']
    under_node := fun x p hx hp hpn => by
      -- the image of the parent is matched, so it is no host
      obtain ⟨y, hym', hym⟩ := himage hx
      obtain ⟨w, hwm', hwm⟩ := himage hpn
      have hyw := ho'.under_node x y p w hym' hwm' hp
      rcases parent_cases hq ho hym with ⟨p', -, k, -, -, hk, hyk⟩ | ⟨z, v, hz, hzm, hyv⟩
      · rw [hyw, Option.some.injEq] at hyk
        subst hyk
        exact absurd .refl (not_aboveEq_host hq ho hwm (List.mem_of_getElem? hk))
      · rw [hyw, Option.some.injEq] at hyv
        subst hyv
        rw [hz, ho.node_unique hzm hwm]
    under_root := fun x r p hx hp hr => by
      -- the host is not matched
      obtain ⟨y, hym', hym⟩ := himage hx
      obtain ⟨h, hh, hyh⟩ := ho'.under_root x y p r hym' hr hp
      rcases parent_cases hq ho hym with ⟨p', r', k, hr', hpar, hk, hyk⟩ | ⟨z, v, -, hzm, hyv⟩
      · rw [hyh, Option.some.injEq] at hyk
        exact ⟨p', r', hr', hpar, by rw [hk, hh, hyk]⟩
      · rw [hyh, Option.some.injEq] at hyv
        subst hyv
        exact absurd .refl (not_aboveEq_host hq ho hzm (List.mem_of_getElem? hh))
    fixes_filled := fun x y c hm hc hn => by
      have hboth : (x, y) ∈ m ∧ (x, y) ∈ m' := by
        rcases hm with hm | hm'
        · exact ⟨hm, image_of_unmatched hq ho ho' ha ha' hsame hm hc hn⟩
        · exact ⟨image_of_unmatched hq ho' ho ha' ha hsame.symm hm' hc
            fun h => hn ((hmatched c).mpr h), hm'⟩
      exact ho.node_unique ((hπ x y).mp hboth.2) hboth.1
    answer_eq := fun x i l hl hshown => by
      rcases hshown with hopen | hseen
      · exact answer_of_open hq ho ha ha' hsame hl hopen
      · exact answer_of_seen hq ho ho' ha ha' hsame hseen }⟩

end Same

/-! ### Symmetry or not -/

section Moved
variable (hq : q.Proper) (ho : q.Occurs hosts m) (ho' : q.Occurs hosts m')
  (h : q.Rearrangement hosts m m' pieces π)
include h

/-- A port has a counterpart. -/
theorem Rearrangement.exists_portLink {x : PlaceId} {i : Nat} {l : LinkId}
    (hl : q.redex.portLink x i = some l) : ∃ l', q.redex.portLink (π x) i = some l' := by
  have hi := (List.getElem?_eq_some_iff.mp hl).1
  rw [← h.length_ports x] at hi
  exact ⟨_, List.getElem?_eq_getElem hi⟩

include hq ho ho'

/-- The link of a port is answered for as the link of its counterpart was before. -/
theorem Rearrangement.answer_moved {x : PlaceId} {i : Nat} {l l' : LinkId}
    (hl : q.redex.portLink x i = some l) (hl' : q.redex.portLink (π x) i = some l') :
    q.answer m' l = q.answer m l' := by
  obtain ⟨y, hy⟩ := ho'.exists_image (isNode_of_portLink hl)
  rw [answer_of_port hq ho' hy hl, answer_of_port hq ho ((h.image_iff x y).mp hy) hl']

/-- A port that is taken to another link evades the twins. -/
theorem Rearrangement.evades_of_moved {x : PlaceId} {i : Nat} {l l' : LinkId}
    (hl : q.redex.portLink x i = some l) (hl' : q.redex.portLink (π x) i = some l')
    (hne : l' ≠ l) : q.EvadesTwins m pieces π := by
  by_contra hev
  -- a link that keeps its answer has this answer in common with the link its port is taken to
  have hstays : ∀ {z : PlaceId} {k : LinkId}, q.redex.portLink z i = some k →
      q.redex.isEdge k = false ∨ q.Seen pieces k → q.redex.portLink (π z) i = some k := by
    intro z k hk hshown
    obtain ⟨k', hk'⟩ := h.exists_portLink hk
    have hans := h.answer_moved hq ho ho' hk hk'
    rw [h.answer_eq z i k hk hshown] at hans
    by_contra hkk
    rw [hk', Option.some.injEq] at hkk
    exact hev (.link hk hk' hkk (Or.inl hans.symm))
  have hshown : q.redex.isEdge l' = false ∨ q.Seen pieces l' := by
    by_contra hhidden
    obtain ⟨hedge', hseen'⟩ := not_or.mp hhidden
    refine hev (.link hl hl' hne (Or.inr ⟨?_, by simpa using hedge', fun hseen => ?_, hseen'⟩))
    · by_contra hedge
      have hstay := hstays hl (Or.inl (by simpa using hedge))
      rw [hl', Option.some.injEq] at hstay
      exact hne hstay
    · have hstay := hstays hl (Or.inr hseen)
      rw [hl', Option.some.injEq] at hstay
      exact hne hstay
  -- the nodes with port `i` on `l'` are permuted, so `x` is one of them
  let nodes := q.redex.nodes.filter fun z => q.redex.portLink z i = some l'
  have hnodup : nodes.Nodup := nodup_nodes.filter _
  have hmem : ∀ {z}, z ∈ nodes ↔ q.redex.portLink z i = some l' := by
    intro z
    rw [List.mem_filter, decide_eq_true_eq, mem_nodes]
    exact and_iff_right_of_imp isNode_of_portLink
  have hsub : nodes.map π ⊆ nodes := by
    intro w hw
    obtain ⟨z, hz, rfl⟩ := List.mem_map.mp hw
    exact hmem.mpr (hstays (hmem.mp hz) hshown)
  have hperm := (List.subperm_of_subset (hnodup.map π.injective) hsub).perm_of_length_le
    (by rw [List.length_map])
  obtain ⟨z, hz, hzx⟩ := List.mem_map.mp (hperm.mem_iff.mpr (hmem.mpr hl'))
  rw [π.injective hzx, hmem, hl, Option.some.injEq] at hz
  exact hne hz.symm

/-- **A rearrangement is a symmetry of the redex or evades the twins.** -/
theorem Rearrangement.symmetry_or_evades : q.redex.Symmetry π ∨ q.EvadesTwins m pieces π := by
  by_cases hev : q.EvadesTwins m pieces π
  · exact Or.inr hev
  have hroot : ∀ {r}, q.redex.isRoot r → π r = r := fun hr => h.fixes _ (isNode_eq_false_of_isRoot hr)
  refine Or.inl ⟨h.fixes, fun p => ?_, h.control_eq, fun p => ?_⟩
  · cases hp : q.redex.parent p with
    | none =>
      have hnode : q.redex.isNode p = false := by
        rw [← Bool.not_eq_true]
        intro hn
        obtain ⟨p', hp'⟩ := hq.redex_rooted.exists_parent hn
        rw [hp] at hp'
        cases hp'
      rw [h.fixes p hnode, hp]
      rfl
    | some p' =>
      rw [Option.map_some]
      rcases hq.redex.isNode_or_isSite_of_parent hp with hn | hs
      · cases hr : q.redex.isRoot p' with
        | false => exact h.under_node p p' hn hp (hq.redex.isNode_of_above hp hr)
        | true =>
          obtain ⟨k, hk⟩ := List.mem_iff_getElem?.mp (mem_roots.mpr hr)
          obtain ⟨-, r', -, hr', -⟩ := h.under_root p p' k hn hp hk
          rw [hroot hr, hr', Option.some.injEq]
          by_contra hne
          exact hev (.root hn hp hr hr' hne)
      · rw [h.fixes p (isNode_eq_false_of_isSite hs), hp, Option.some.injEq]
        cases hr : q.redex.isRoot p' with
        | false =>
          by_contra hne
          exact hev (.site (hq.redex.isNode_of_above hp hr) hs hp fun heq => hne heq.symm)
        | true => exact (hroot hr).symm
  · refine List.ext_getElem (h.length_ports p) fun i hi hi' => ?_
    have hl : q.redex.portLink p i = some (q.redex.ports p)[i] := List.getElem?_eq_getElem hi'
    have hl' : q.redex.portLink (π p) i = some (q.redex.ports (π p))[i] := List.getElem?_eq_getElem hi
    by_contra hne
    exact hev (h.evades_of_moved hq ho ho' hl hl' hne)

end Moved

end Problem

/-! ### The result -/

/-- **No decomposition is found again,** except through a rearrangement that twins do not account for. -/
theorem Matches.occurrences_distinct (config : MatchConfig) {agent redex : Bigraph}
    (ha : agent.Constructible) (hr : redex.Constructible)
    (hs : agent.signature = redex.signature) (hg : agent.isGround = true) :
    ∃ ms, Matches.of config agent redex = .ok ms ∧ ∀ (i j : Nat) (o o' : Occurrence), i ≠ j →
      ms.occurrences.toList[i]? = some o → ms.occurrences.toList[j]? = some o' →
      SameContent o.pieces o'.pieces → o.hosts = o'.hosts ∧
        ∃ π, ms.problem.Rearrangement o.hosts o.mapping o'.mapping o.pieces π ∧
          ms.problem.EvadesTwins o.mapping o.pieces π := by
  refine ⟨_, of_eq_ok hs hg, fun i j o o' hij hi hj hsame => ?_⟩
  have hq := proper_of_constructible ha hr hs hg
  obtain ⟨-, ho, context, parts, b, hanatomy⟩ := anatomy_of_mem_occurrences hq (List.mem_of_getElem? hi)
  obtain ⟨-, ho', context', parts', b', hanatomy'⟩ :=
    anatomy_of_mem_occurrences hq (List.mem_of_getElem? hj)
  have hhosts := Problem.hosts_eq hq ho ho' hanatomy hanatomy' hsame
  rw [← hhosts] at ho' hanatomy'
  obtain ⟨π, hπ⟩ := Problem.exists_rearrangement hq ho ho' hanatomy hanatomy' hsame
  refine ⟨hhosts, π, hπ, (hπ.symmetry_or_evades hq ho ho').resolve_left fun hsymm => hij ?_⟩
  exact position_unique hq hi hj hhosts (.refl o.mapping) ⟨π, hsymm, hπ.image_iff⟩

/-! ### Decompositions that are found twice -/

/-- Two items of a pass have the same content. -/
def Repeats (agent redex : Bigraph) : Prop :=
  agent.Constructible ∧ redex.Constructible ∧ agent.signature = redex.signature ∧
    agent.isGround = true ∧ ∃ ms, Matches.of {} agent redex = .ok ms ∧
      ∃ (i j : Nat) (o o' : Occurrence), i ≠ j ∧ ms.occurrences.toList[i]? = some o ∧
        ms.occurrences.toList[j]? = some o' ∧ SameContent o.pieces o'.pieces

/-- There are two occurrences, and their pieces are equal. -/
def samePieces : List Occurrence → Bool
  | [o, o'] => o.pieces.context = o'.pieces.context && o.pieces.parameters = o'.pieces.parameters
  | _ => false

theorem repeats_of_samePieces {agent redex : Bigraph} (ha : agent.Constructible)
    (hr : redex.Constructible) (hs : agent.signature = redex.signature)
    (hg : agent.isGround = true)
    (h : samePieces ((Problem.mk agent redex hg).toMatches {}).occurrences.toList = true) :
    Repeats agent redex := by
  refine ⟨ha, hr, hs, hg, _, Matches.of_eq_ok hs hg, ?_⟩
  unfold samePieces at h
  split at h
  next o o' heq =>
    rw [Bool.and_eq_true, decide_eq_true_eq, decide_eq_true_eq] at h
    refine ⟨0, 1, o, o', by decide, by rw [heq]; rfl, by rw [heq]; rfl, ⟨?_, ?_⟩⟩
    · rw [h.1]
      exact ⟨.refl _⟩
    · rw [h.2]
      exact List.forall₂_same.mpr fun P _ => ⟨.refl P⟩
  next => cases h

/-- A room with two persons. -/
def twoPersons : Bigraph :=
  ((Construction.new building).run [.root 0, .node "Room" "a", .nest 1 0, .node "Person" "x",
    .nest 2 1, .node "Person" "y", .nest 3 1]).graph

/-- Two persons, each under a root of its own. -/
def personEach : Bigraph :=
  ((Construction.new building).run [.root 0, .root 1, .node "Person" "p", .nest 2 0,
    .node "Person" "q", .nest 3 1]).graph

/-- Two rooms with nothing in them. -/
def emptyRooms : Bigraph :=
  ((Construction.new building).run [.root 0, .node "Room" "a", .nest 1 0, .node "Room" "b",
    .nest 2 0]).graph

/-- A room with whatever it holds, and a room with nothing in it. -/
def openAndEmpty : Bigraph :=
  ((Construction.new building).run [.root 0, .node "Room" "r", .nest 1 0, .site 0, .nest 2 1,
    .node "Room" "t", .nest 3 0]).graph

/-- Two persons on one outer name. -/
def sharedName : Bigraph :=
  ((Construction.new building).run [.root 0, .node "Person" "x", .nest 1 0, .node "Person" "y",
    .nest 2 0, .outer "call", .connect 1 0, .connect 2 0]).graph

/-- Two persons, each on an outer name of its own. -/
def nameEach : Bigraph :=
  ((Construction.new building).run [.root 0, .node "Person" "p", .nest 1 0, .node "Person" "q",
    .nest 2 0, .outer "v", .outer "w", .connect 1 0, .connect 2 1]).graph

/-- Two persons, each on an edge of its own. -/
def edgeEach : Bigraph :=
  ((Construction.new building).run [.root 0, .node "Person" "x", .nest 1 0, .node "Person" "y",
    .nest 2 0, .edge "e", .edge "f", .connect 1 0, .connect 2 1]).graph

theorem repeats_twoPersons : Repeats twoPersons personEach :=
  repeats_of_samePieces (Bigraph.constructible_run (by decide +kernel))
    (Bigraph.constructible_run (by decide +kernel)) rfl (by decide +kernel) (by decide +kernel)

/-- The persons under the two roots can be exchanged, since both roots have the room for a host. -/
theorem occurrences_distinct_twoPersons : twoPersons.Constructible ∧ personEach.Constructible ∧
    twoPersons.signature = personEach.signature ∧ twoPersons.isGround = true ∧
    ∃ ms, Matches.of {} twoPersons personEach = .ok ms ∧ ∃ (i j : Nat) (o o' : Occurrence), i ≠ j ∧
      ms.occurrences.toList[i]? = some o ∧ ms.occurrences.toList[j]? = some o' ∧
      SameContent o.pieces o'.pieces ∧ o.hosts = o'.hosts ∧
        ∃ π, ms.problem.Rearrangement o.hosts o.mapping o'.mapping o.pieces π ∧
          ms.problem.EvadesTwins o.mapping o.pieces π := by
  obtain ⟨ha, hr, hs, hg, ms, hms, i, j, o, o', hij, hi, hj, hsame⟩ := repeats_twoPersons
  obtain ⟨ms', hms', h⟩ := Matches.occurrences_distinct {} ha hr hs hg
  rw [hms, Except.ok.injEq] at hms'
  subst hms'
  exact ⟨ha, hr, hs, hg, ms, hms, i, j, o, o', hij, hi, hj, hsame, h i j o o' hij hi hj hsame⟩

/-- Across roots with one host, between a node with a site and one without, between names for one link,
and between edges, what looks different in the redex looks the same in the pieces. -/
theorem decompositions_found_twice : Repeats twoPersons personEach ∧
    Repeats emptyRooms openAndEmpty ∧ Repeats sharedName nameEach ∧ Repeats edgeEach edgeEach := by
  refine ⟨repeats_twoPersons, ?_, ?_, ?_⟩ <;>
    exact repeats_of_samePieces (Bigraph.constructible_run (by decide +kernel))
      (Bigraph.constructible_run (by decide +kernel)) rfl (by decide +kernel) (by decide +kernel)

end Bigraphs
