import Bigraphs.Matching.Occurrence
import Bigraphs.Proofs.Matching.Assignment
import Bigraphs.Proofs.Matching.Embedding

/-! # What an occurrence is

`Occurs` says what it means that a redex occurs in an agent, without a word about how occurrences are
searched for. All that the search yields occurs in this sense (`occurs_of_mem_occurrences`): the plan
places every node once, each step hangs its node where the parent says, and the two checks of complete
mappings do the rest. -/

namespace Bigraphs

namespace Problem

/-- The agent and the redex are well-formed and rooted, over one signature. -/
structure Proper (q : Problem) : Prop where
  agent : q.agent.WellFormed
  agent_rooted : q.agent.Rooted
  redex : q.redex.WellFormed
  redex_rooted : q.redex.Rooted
  signature_eq : q.agent.signature = q.redex.signature

/-- **The redex occurs in the agent,** with these hosts of its roots and these images of its nodes. -/
structure Occurs (q : Problem) (hosts : List PlaceId) (m : Mapping) : Prop where
  nodes_perm : (m.map (·.1)).Perm q.redex.nodes
  nodup_images : (m.map (·.2)).Nodup
  length_hosts : hosts.length = q.redex.roots.length
  control : ∀ x y, (x, y) ∈ m → ∃ c, q.redex.control x = some c ∧ q.agent.control y = some c
  under_root : ∀ x y (p : Nat) r, (x, y) ∈ m → q.redex.roots[p]? = some r →
    q.redex.parent x = some r → ∃ h, hosts[p]? = some h ∧ q.agent.parent y = some h
  under_node : ∀ x y x' y', (x, y) ∈ m → (x', y') ∈ m → q.redex.parent x = some x' →
    q.agent.parent y = some y'
  closed_below : ∀ x y, (x, y) ∈ m → (∀ s, q.redex.isSite s → q.redex.parent s ≠ some x) →
    (q.redex.children x).length = (q.agent.children y).length
  length_ports : ∀ x y, (x, y) ∈ m → (q.redex.ports x).length = (q.agent.ports y).length
  links : ∀ x y i x' y' j l, (x, y) ∈ m → (x', y') ∈ m → q.redex.portLink x i = some l →
    q.redex.portLink x' j = some l → q.agent.portLink y i = q.agent.portLink y' j
  closed_links : ∀ x y i l, (x, y) ∈ m → q.redex.portLink x i = some l → q.redex.isEdge l →
    (∀ n, q.redex.innerLink n ≠ some l) → ∃ a, q.agent.portLink y i = some a ∧ q.agent.isEdge a ∧
      q.agent.portCount a = q.redex.portCount l
  idle_names : ∀ l s, q.redex.linkKind l = some (.outer s) → q.redex.points l = [] →
    ∃ k, q.agent.linkKind k = some (.outer s)
  disjoint : ∀ x y (p p' : Nat) r h, (x, y) ∈ m → q.redex.roots[p]? = some r → q.redex.Above r x →
    hosts[p']? = some h → p' ≠ p → ¬ q.agent.AboveEq y h

variable {q : Problem} {t : Table} {hosts images : List PlaceId} {m : Mapping}

/-! ### The agent is ground -/

theorem isSite_agent (q : Problem) (p : PlaceId) : q.agent.isSite p = false :=
  Bigraph.isSite_of_isGround q.ground p

theorem innerNames_agent (q : Problem) : q.agent.innerNames.size = 0 := by
  have h := q.ground
  unfold Bigraph.isGround at h
  rw [Bool.and_eq_true, Array.isEmpty_iff_size_eq_zero] at h
  exact h.2

theorem vertexChildren_agent (q : Problem) (p : PlaceId) :
    q.agent.vertexChildren p = q.agent.children p :=
  Bigraph.vertexChildren_of_isGround q.ground p

/-! ### Steps and their images -/

theorem mem_mappingOf {plan : List PlanStep} {x y : PlaceId} :
    (x, y) ∈ mappingOf plan images ↔
      ∃ (j : Nat) (s : PlanStep), plan[j]? = some s ∧ s.node = x ∧ images[j]? = some y := by
  unfold mappingOf
  rw [List.mem_iff_getElem?]
  refine exists_congr fun j => ?_
  rw [List.getElem?_zip_eq_some, List.getElem?_map, Option.map_eq_some_iff]
  constructor
  · rintro ⟨⟨s, hs, rfl⟩, hy⟩
    exact ⟨s, hs, rfl, hy⟩
  · rintro ⟨s, hs, rfl, hy⟩
    exact ⟨⟨s, hs, rfl⟩, hy⟩

theorem map_fst_mappingOf {plan : List PlanStep} (h : images.length = plan.length) :
    (mappingOf plan images).map (·.1) = plan.map (·.node) := by
  unfold mappingOf
  exact List.map_fst_zip (by rw [List.length_map, h])

theorem map_snd_mappingOf {plan : List PlanStep} (h : images.length = plan.length) :
    (mappingOf plan images).map (·.2) = images := by
  unfold mappingOf
  exact List.map_snd_zip (by rw [List.length_map, h])

theorem mem_players {p u v : PlaceId} :
    v ∈ q.players t p u ↔ v ∈ q.agent.vertexChildren p ∧ q.canPlay t v u := List.mem_filter

/-- Where the candidates for a step come from. -/
theorem isChoice_iff {chosen : List PlaceId} {s : PlanStep} {c : PlaceId} :
    q.IsChoice t hosts chosen s c ↔ isAllowed chosen s c ∧ ∃ p, c ∈ q.players t p s.node ∧
      ((∃ k, s.anchor = .step k ∧ chosen[k]? = some p) ∨
        ∃ i, s.anchor = .root i ∧ hosts[i]? = some p ∧ p < q.agent.places.size) := by
  unfold IsChoice candidates
  rw [and_comm]
  refine and_congr_right fun _ => ?_
  cases ha : s.anchor with
  | step k =>
    cases hk : chosen[k]? with
    | none => simp [hk]
    | some p => simp [hk]
  | root i =>
    cases hi : hosts[i]? with
    | none => simp [hi]
    | some p =>
      by_cases hp : q.agent.places.size ≤ p
      · simp [hi, hp, Nat.not_lt.mpr hp]
      · simp [hi, hp, Nat.not_le.mp hp]

/-- What the test of one node says. -/
theorem locallyCompatible_iff {v u p : PlaceId} (hp : q.redex.parent u = some p) :
    q.locallyCompatible t v u ↔
      (if q.redex.isOpen u then (q.redex.vertexChildren u).length ≤ (q.agent.vertexChildren v).length
        else (q.agent.vertexChildren v).length = (q.redex.vertexChildren u).length) ∧
      (∃ c, q.redex.control u = some c ∧ q.agent.control v = some c) ∧
      t.explains v u p ∧ q.portsCompatible v u := by
  unfold locallyCompatible
  simp only [hp, Bool.and_eq_true, decide_eq_true_eq, Option.isSome_iff_exists, and_assoc]
  refine and_congr (by split <;> simp) ?_
  constructor
  · rintro ⟨⟨c, hc⟩, heq, h⟩
    exact ⟨⟨c, by rw [← heq, hc], hc⟩, h⟩
  · rintro ⟨⟨c, hc, hc'⟩, h⟩
    exact ⟨⟨c, hc'⟩, by rw [hc, hc'], h⟩

theorem isOpen_iff (hr : q.redex.WellFormed) {u : PlaceId} (hu : q.redex.isNode u) :
    q.redex.isOpen u ↔ ∃ s, q.redex.isSite s ∧ q.redex.parent s = some u := by
  unfold Bigraph.isOpen
  rw [Bigraph.isRoot_eq_false_of_isNode hu, Bool.false_or, List.any_eq_true]
  refine exists_congr fun s => ?_
  rw [hr.mem_children, and_comm]

theorem isClosed_iff (hr : q.redex.WellFormed) {l : LinkId} :
    q.isClosed l ↔ q.redex.isEdge l ∧ ∀ n, q.redex.innerLink n ≠ some l := by
  unfold isClosed
  rw [Bool.and_eq_true, Bool.not_eq_true', ← Bool.not_eq_true, List.any_eq_true]
  refine and_congr_right fun _ => ?_
  constructor
  · intro h n hn
    exact h ⟨.inner n, hr.mem_points_inner.mpr hn, rfl⟩
  · rintro h ⟨x, hx, hi⟩
    cases x with
    | port v i => cases hi
    | inner n => exact h n (hr.mem_points_inner.mp hx)

/-! ### The mapping is an injection -/

namespace Occurs

variable (ho : q.Occurs hosts m)
include ho

theorem nodup_fst : (m.map (·.1)).Nodup := ho.nodes_perm.nodup_iff.mpr Bigraph.nodup_nodes

theorem isNode_fst {x y : PlaceId} (h : (x, y) ∈ m) : q.redex.isNode x :=
  Bigraph.mem_nodes.mp (ho.nodes_perm.mem_iff.mp (List.mem_map.mpr ⟨(x, y), h, rfl⟩))

theorem exists_image {x : PlaceId} (h : q.redex.isNode x) : ∃ y, (x, y) ∈ m := by
  obtain ⟨⟨x', y⟩, hm, rfl⟩ :=
    List.mem_map.mp (ho.nodes_perm.mem_iff.mpr (Bigraph.mem_nodes.mpr h))
  exact ⟨y, hm⟩

theorem image_unique {x y y' : PlaceId} (h : (x, y) ∈ m) (h' : (x, y') ∈ m) : y = y' :=
  congrArg Prod.snd (List.inj_on_of_nodup_map ho.nodup_fst h h' rfl)

theorem node_unique {x x' y : PlaceId} (h : (x, y) ∈ m) (h' : (x', y) ∈ m) : x = x' :=
  congrArg Prod.fst (List.inj_on_of_nodup_map ho.nodup_images h h' rfl)

theorem isNode_snd {x y : PlaceId} (h : (x, y) ∈ m) : q.agent.isNode y := by
  obtain ⟨c, -, hc⟩ := ho.control x y h
  obtain ⟨d, hd, -⟩ := Bigraph.control_eq_some_iff.mp hc
  unfold Bigraph.isNode
  rw [hd]; rfl

theorem imageOf_eq_some_iff {x y : PlaceId} : imageOf m x = some y ↔ (x, y) ∈ m := by
  unfold imageOf
  rw [List.findRev?_eq_find?_reverse, Option.map_eq_some_iff]
  constructor
  · rintro ⟨⟨x', y'⟩, hf, rfl⟩
    have hx := List.find?_some hf
    have hm := List.mem_of_find?_eq_some hf
    rw [decide_eq_true_eq] at hx
    rw [List.mem_reverse] at hm
    rw [← hx]
    exact hm
  · intro h
    cases hf : m.reverse.find? (·.1 = x) with
    | none => simpa using List.find?_eq_none.mp hf (x, y) (List.mem_reverse.mpr h)
    | some e =>
      have hx := List.find?_some hf
      have hm := List.mem_of_find?_eq_some hf
      rw [decide_eq_true_eq] at hx
      rw [List.mem_reverse] at hm
      refine ⟨e, rfl, ho.image_unique ?_ h⟩
      rw [← hx]
      exact hm

/-- The child nodes of a node have different images. They lie below the image of the node. -/
theorem childImages_spec (hq : q.Proper) {x y : PlaceId} (h : (x, y) ∈ m) :
    ((q.redex.vertexChildren x).map fun c => (imageOf m c).getD 0).Nodup ∧
      ∀ d ∈ (q.redex.vertexChildren x).map fun c => (imageOf m c).getD 0,
        d ∈ q.agent.children y ∧ ∃ c, (c, d) ∈ m := by
  have himage : ∀ c ∈ q.redex.vertexChildren x,
      ∃ d, (c, d) ∈ m ∧ imageOf m c = some d ∧ d ∈ q.agent.children y := by
    intro c hc
    obtain ⟨hpar, hn⟩ := hq.redex.mem_vertexChildren.mp hc
    obtain ⟨d, hd⟩ := ho.exists_image hn
    exact ⟨d, hd, ho.imageOf_eq_some_iff.mpr hd,
      hq.agent.mem_children.mpr (ho.under_node c d x y hd h hpar)⟩
  constructor
  · refine List.Nodup.map_on (fun c hc c' hc' heq => ?_) (hq.redex.nodup_vertexChildren x)
    obtain ⟨d, hd, hi, -⟩ := himage c hc
    obtain ⟨d', hd', hi', -⟩ := himage c' hc'
    rw [hi, hi', Option.getD_some, Option.getD_some] at heq
    subst heq
    exact ho.node_unique hd hd'
  · intro d hd
    obtain ⟨c, hc, rfl⟩ := List.mem_map.mp hd
    obtain ⟨d, hm, hi, hmem⟩ := himage c hc
    rw [hi, Option.getD_some]
    exact ⟨hmem, c, hm⟩

/-- The link on a port of the image. -/
theorem exists_portLink {x y i l} (h : (x, y) ∈ m) (hl : q.redex.portLink x i = some l) :
    ∃ a, q.agent.portLink y i = some a := by
  have hi : i < (q.redex.ports x).length := (List.getElem?_eq_some_iff.mp hl).1
  rw [ho.length_ports x y h] at hi
  exact ⟨_, List.getElem?_eq_getElem hi⟩

end Occurs

/-! ### What the search gives -/

/-- There is one host for each root, and it can have children. -/
structure HostsIn (q : Problem) (hosts : List PlaceId) : Prop where
  length_eq : hosts.length = q.redex.roots.length
  lt_size : ∀ h ∈ hosts, h < q.agent.places.size
  not_atomic : ∀ h ∈ hosts, ∀ c, q.agent.control h = some c → ¬ c.isAtomic

section Steps
variable (hq : q.Proper) (hh : q.HostsIn hosts) (hp : q.Placeable t hosts q.redex.plan [] images)
include hq hp

omit hq in
theorem length_of_placeable : images.length = q.redex.plan.length := (placeable_iff.mp hp).1

omit hq in
theorem choice_of_placeable {j : Nat} {s : PlanStep} {y : PlaceId}
    (hs : q.redex.plan[j]? = some s) (hy : images[j]? = some y) :
    q.IsChoice t hosts (images.take j) s y := by
  simpa using (placeable_iff.mp hp).2 j s y hs hy

/-- A placed node has the candidate's properties, and hangs where the parent of the redex node says. -/
theorem of_placeable {j : Nat} {s : PlanStep} {y : PlaceId} (hs : q.redex.plan[j]? = some s)
    (hy : images[j]? = some y) : ∃ p, y ∈ q.agent.vertexChildren p ∧ q.canPlay t y s.node ∧
      ((∃ r, q.redex.roots[s.root]? = some r ∧ q.redex.parent s.node = some r ∧
          hosts[s.root]? = some p) ∨
        ∃ (k : Nat) (u : PlanStep), q.redex.plan[k]? = some u ∧
          q.redex.parent s.node = some u.node ∧ images[k]? = some p) := by
  obtain ⟨-, p, hpl, hanchor⟩ := isChoice_iff.mp (choice_of_placeable hp hs hy)
  obtain ⟨hc, hplay⟩ := mem_players.mp hpl
  refine ⟨p, hc, hplay, ?_⟩
  rcases Bigraph.plan_anchor hs with ⟨r, ha, hr, hm⟩ | ⟨k, u, ha, hk, hu, hm, -⟩
  · refine Or.inl ⟨r, hr, (hq.redex.mem_vertexChildren.mp hm).1, ?_⟩
    rcases hanchor with ⟨k, ha', -⟩ | ⟨i, ha', hi, -⟩
    · rw [ha] at ha'; cases ha'
    · rw [ha] at ha'; cases ha'; exact hi
  · refine Or.inr ⟨k, u, hu, (hq.redex.mem_vertexChildren.mp hm).1, ?_⟩
    rcases hanchor with ⟨k', ha', hk'⟩ | ⟨i, ha', -⟩
    · rw [ha] at ha'
      cases ha'
      rw [List.getElem?_take] at hk'
      simpa [hk] using hk'
    · rw [ha] at ha'; cases ha'

theorem inRange_of_placeable : q.InRange (mappingOf q.redex.plan images) := by
  rintro ⟨x, y⟩ hxy
  obtain ⟨j, s, hs, rfl, hy⟩ := mem_mappingOf.mp hxy
  obtain ⟨p, hc, -⟩ := of_placeable hq hp hs hy
  exact ⟨Bigraph.lt_of_isNode (hq.redex.isNode_of_plan hs),
    Bigraph.lt_of_parent (hq.agent.mem_vertexChildren.mp hc).1⟩

/-- The local test of the node that a placed node plays. -/
theorem compatible_of_placeable {x y : PlaceId} (hxy : (x, y) ∈ mappingOf q.redex.plan images) :
    (if q.redex.isOpen x then (q.redex.vertexChildren x).length ≤ (q.agent.vertexChildren y).length
      else (q.agent.vertexChildren y).length = (q.redex.vertexChildren x).length) ∧
    (∃ c, q.redex.control x = some c ∧ q.agent.control y = some c) := by
  obtain ⟨j, s, hs, rfl, hy⟩ := mem_mappingOf.mp hxy
  obtain ⟨p, -, hplay, hparent⟩ := of_placeable hq hp hs hy
  unfold canPlay at hplay
  rw [Bool.and_eq_true] at hplay
  have hpar : ∃ p', q.redex.parent s.node = some p' := by
    rcases hparent with ⟨r, -, hr, -⟩ | ⟨k, u, -, hu, -⟩
    · exact ⟨r, hr⟩
    · exact ⟨u.node, hu⟩
  obtain ⟨p', hp'⟩ := hpar
  obtain ⟨h1, h2, -⟩ := (locallyCompatible_iff hp').mp hplay.1
  exact ⟨h1, h2⟩

/-- Children of a root are placed under its host. -/
theorem under_root_of_placeable {x y r : PlaceId} {p : Nat}
    (hxy : (x, y) ∈ mappingOf q.redex.plan images) (hr : q.redex.roots[p]? = some r)
    (hx : q.redex.parent x = some r) : ∃ h, hosts[p]? = some h ∧ q.agent.parent y = some h := by
  obtain ⟨j, s, hs, rfl, hy⟩ := mem_mappingOf.mp hxy
  obtain ⟨h, hc, -, ⟨r', hr', hx', hh'⟩ | ⟨k, u, hu, hx', -⟩⟩ := of_placeable hq hp hs hy
  · rw [hx, Option.some.injEq] at hx'
    subst hx'
    rw [← Bigraph.roots_position_unique hr hr'] at hh'
    exact ⟨h, hh', (hq.agent.mem_vertexChildren.mp hc).1⟩
  · rw [hx, Option.some.injEq] at hx'
    subst hx'
    have hroot := Bigraph.mem_roots.mp (List.mem_of_getElem? hr)
    exact absurd hroot (Bigraph.not_isRoot_of_isNode (hq.redex.isNode_of_plan hu))

/-- Children of a node are placed under its image. -/
theorem under_node_of_placeable {x y x' y' : PlaceId}
    (hxy : (x, y) ∈ mappingOf q.redex.plan images)
    (hxy' : (x', y') ∈ mappingOf q.redex.plan images) (hx : q.redex.parent x = some x') :
    q.agent.parent y = some y' := by
  obtain ⟨j, s, hs, rfl, hy⟩ := mem_mappingOf.mp hxy
  obtain ⟨k', u', hu', rfl, hy'⟩ := mem_mappingOf.mp hxy'
  obtain ⟨p, hc, -, ⟨r, hr, hx', -⟩ | ⟨k, u, hu, hx', hk⟩⟩ := of_placeable hq hp hs hy
  · rw [hx, Option.some.injEq] at hx'
    have hroot := Bigraph.mem_roots.mp (List.mem_of_getElem? hr)
    rw [← hx'] at hroot
    exact absurd hroot (Bigraph.not_isRoot_of_isNode (hq.redex.isNode_of_plan hu'))
  · rw [hx, Option.some.injEq] at hx'
    rw [hq.redex.plan_inj hu' hu hx', hk, Option.some.injEq] at hy'
    rw [← hy']
    exact (hq.agent.mem_vertexChildren.mp hc).1

theorem closed_below_of_placeable {x y : PlaceId}
    (hxy : (x, y) ∈ mappingOf q.redex.plan images)
    (hclosed : ∀ s, q.redex.isSite s → q.redex.parent s ≠ some x) :
    (q.redex.children x).length = (q.agent.children y).length := by
  obtain ⟨j, s, hs, rfl, -⟩ := mem_mappingOf.mp hxy
  have hopen : q.redex.isOpen s.node = false := by
    rw [← Bool.not_eq_true, isOpen_iff hq.redex (hq.redex.isNode_of_plan hs)]
    rintro ⟨t, ht, htx⟩
    exact hclosed t ht htx
  have h := (compatible_of_placeable hq hp hxy).1
  rw [hopen, if_neg Bool.false_ne_true] at h
  rw [hq.redex.vertexChildren_eq_children hclosed, vertexChildren_agent] at h
  exact h.symm

include hh

omit hp in
theorem not_aboveEq_of_hostsDisjoint (hd : q.hostsDisjoint q.redex.plan hosts images = .ok true)
    {x y r h : PlaceId} {p p' : Nat} (hxy : (x, y) ∈ mappingOf q.redex.plan images)
    (hr : q.redex.roots[p]? = some r) (hrx : q.redex.Above r x) (hh' : hosts[p']? = some h)
    (hne : p' ≠ p) : ¬ q.agent.AboveEq y h := by
  intro habove
  obtain ⟨j, s, hs, rfl, hy⟩ := mem_mappingOf.mp hxy
  obtain ⟨r', hr', hrs⟩ := hq.redex.plan_root hs
  obtain ⟨rfl, rfl⟩ := hq.redex.root_position_unique hr hr' hrx hrs
  have hzip : (s, y) ∈ q.redex.plan.zip images :=
    List.mem_iff_getElem?.mpr ⟨j, List.getElem?_zip_eq_some.mpr ⟨hs, hy⟩⟩
  have hclear := (hostsDisjoint_iff hh.lt_size).mp hd s y hzip p' h hh' hne
  rcases Bigraph.aboveEq_iff.mp habove with rfl | habove
  · exact hclear.1 rfl
  · exact hclear.2 (hq.agent.isAncestor_iff.mpr habove)

/-- **What is placed along the plan and passes both checks occurs.** -/
theorem occurs_of_placeable (hidle : q.idleNamesPresent = true)
    (hl : q.linksConsistent (mappingOf q.redex.plan images) = .ok true)
    (hd : q.hostsDisjoint q.redex.plan hosts images = .ok true) :
    q.Occurs hosts (mappingOf q.redex.plan images) := by
  have hlen := length_of_placeable hp
  obtain ⟨hports, hfun, hfits⟩ := (linksConsistent_iff (inRange_of_placeable hq hp)).mp hl
  have hpaired : ∀ x y i l, (x, y) ∈ mappingOf q.redex.plan images →
      q.redex.portLink x i = some l → ∃ a, q.agent.portLink y i = some a ∧
        (l, a) ∈ q.portPairs (mappingOf q.redex.plan images) := by
    intro x y i l hxy hl
    have hi : i < (q.redex.ports x).length := (List.getElem?_eq_some_iff.mp hl).1
    rw [hports (x, y) hxy] at hi
    have ha : q.agent.portLink y i = some (q.agent.ports y)[i] := List.getElem?_eq_getElem hi
    exact ⟨_, ha, mem_portPairs.mpr ⟨(x, y), hxy, i, hl, ha⟩⟩
  exact {
    nodes_perm := by
      rw [map_fst_mappingOf hlen]
      exact hq.redex.map_node_plan_perm hq.redex_rooted
    nodup_images := by
      rw [map_snd_mappingOf hlen]
      simpa using nodup_of_placeable List.nodup_nil hp
    length_hosts := hh.length_eq
    control := fun x y hxy => (compatible_of_placeable hq hp hxy).2
    under_root := fun x y p r hxy hr hx => under_root_of_placeable hq hp hxy hr hx
    under_node := fun x y x' y' hxy hxy' hx => under_node_of_placeable hq hp hxy hxy' hx
    closed_below := fun x y hxy hclosed => closed_below_of_placeable hq hp hxy hclosed
    length_ports := fun x y hxy => hports (x, y) hxy
    links := fun x y i x' y' j l hxy hxy' hl hl' => by
      obtain ⟨a, ha, hla⟩ := hpaired x y i l hxy hl
      obtain ⟨b, hb, hlb⟩ := hpaired x' y' j l hxy' hl'
      rw [ha, hb, hfun l a b hla hlb]
    closed_links := fun x y i l hxy hl he hinner => by
      obtain ⟨a, ha, hla⟩ := hpaired x y i l hxy hl
      have hfit := hfits l a hla
      unfold linkFits at hfit
      rw [if_pos ((isClosed_iff hq.redex).mpr ⟨he, hinner⟩), Bool.and_eq_true,
        decide_eq_true_eq] at hfit
      exact ⟨a, ha, hfit.1, hfit.2⟩
    idle_names := (idleNamesPresent_iff hq.agent).mp hidle
    disjoint := fun x y p p' r h hxy hr hrx hh' hne =>
      not_aboveEq_of_hostsDisjoint hq hh hd hxy hr hrx hh' hne }

end Steps

end Problem

/-! ### What the matches yield -/

/-- What is within a limit comes first. -/
theorem LazyList.toList_upTo_sublist {α : Type} (limit : Option Nat) (l : Unit → LazyList α) :
    (LazyList.upTo limit l).toList.Sublist (l ()).toList := by
  rw [LazyList.toList_upTo]
  exact LazyList.cut_sublist limit _

theorem LazyList.mem_of_mem_upTo {α : Type} {limit : Option Nat} {l : Unit → LazyList α} {a : α}
    (h : a ∈ (LazyList.upTo limit l).toList) : a ∈ (l ()).toList :=
  (LazyList.toList_upTo_sublist limit l).subset h

namespace Matches

open Problem

variable {config : MatchConfig}

theorem of_eq_ok {agent redex : Bigraph} (hs : agent.signature = redex.signature)
    (hg : agent.isGround = true) :
    Matches.of config agent redex = .ok ((Problem.mk agent redex hg).toMatches config) := by
  unfold Matches.of Problem.of
  rw [if_pos hs, dif_pos hg]
  rfl

variable {q : Problem}

theorem explains_empty (v u w : PlaceId) : Table.empty.explains v u w = false := by
  simp [Table.explains, Table.get, Table.empty]

/-- A hit is recorded at a root or an inner node of the agent. There is none if an idle name is
missing. -/
theorem of_mem_hits {hit : RootHit} (h : hit ∈ (q.toMatches config).hits) :
    hit.host ∈ q.agent.internalPostOrder ∧ q.idleNamesPresent = true := by
  obtain ⟨hhost, -, -, he⟩ := mem_rootHits.mp (List.mem_filter.mp h).1
  refine ⟨hhost, ?_⟩
  by_contra hidle
  rw [if_neg hidle, explains_empty] at he
  cases he

theorem mem_internalPostOrder (hq : q.Proper) {v : PlaceId} :
    v ∈ q.agent.internalPostOrder ↔ q.agent.isRoot v ∨ ∃ c, q.agent.parent c = some v :=
  hq.agent.mem_internalPostOrder hq.agent_rooted q.ground

theorem length_rootIndices (g : Bigraph) : (g.roots.filterMap g.rootIndex).length = g.roots.length := by
  have h : ∀ r ∈ g.roots, (g.rootIndex r).isSome := fun r hr => Bigraph.mem_roots.mp hr
  generalize g.roots = l at h
  induction l with
  | nil => rfl
  | cons r l ih =>
    obtain ⟨i, hi⟩ := Option.isSome_iff_exists.mp (h r (by simp))
    rw [List.filterMap_cons_some hi, List.length_cons, List.length_cons,
      ih fun r hr => h r (by simp [hr])]

/-- The hosts of an assignment, one for each root, are roots or inner nodes of the agent. There is no
assignment without roots. -/
theorem internal_of_mem_assignments {hosts : List PlaceId}
    (h : hosts ∈ (q.toMatches config).assignments.toList) :
    q.redex.roots ≠ [] ∧ hosts.length = q.redex.roots.length ∧
      ∀ h ∈ hosts, h ∈ q.agent.internalPostOrder ∧ q.idleNamesPresent = true := by
  obtain ⟨hne, hall⟩ := mem_assignments.mp h
  refine ⟨?_, ?_, fun h hh => ?_⟩
  · intro hnil
    refine hne ?_
    rw [show (q.toMatches config).problem.redex.roots = [] from hnil, List.filterMap_nil]
  · rw [hall.length_eq]
    exact length_rootIndices q.redex
  · obtain ⟨i, -, his⟩ := exists_of_forall₂ hall hh
    obtain ⟨hit, hmem, rfl, -⟩ := mem_hitsByVertex.mp his
    exact of_mem_hits hmem

theorem of_mem_assignments (hq : q.Proper) {hosts : List PlaceId}
    (h : hosts ∈ (q.toMatches config).assignments.toList) :
    q.HostsIn hosts ∧ q.idleNamesPresent = true := by
  obtain ⟨hne, hlen, hhits⟩ := internal_of_mem_assignments h
  refine ⟨⟨hlen, fun h hh => ?_, fun h hh c hc hatomic => ?_⟩, ?_⟩
  · exact (hq.agent.mem_postOrder hq.agent_rooted).mp (List.mem_filter.mp (hhits h hh).1).1
  · rcases (mem_internalPostOrder hq).mp (hhits h hh).1 with hr | ⟨k, hk⟩
    · obtain ⟨i, hi⟩ := Bigraph.isRoot_iff.mp hr
      obtain ⟨d, hd, -⟩ := Bigraph.control_eq_some_iff.mp hc
      rw [Bigraph.node?_eq_some_iff, hi] at hd
      cases hd
    · have hchild := hq.agent.mem_children.mpr hk
      rw [hq.agent.children_atomic hc hatomic] at hchild
      simp at hchild
  cases hosts with
  | nil => exact absurd (List.length_eq_zero_iff.mp hlen.symm) hne
  | cons host hosts => exact (hhits host (by simp)).2

theorem of_occurrence?_eq_some {hosts : List PlaceId} {m : Mapping} {o : Occurrence}
    (h : q.occurrence? config hosts m = some o) :
    o.hosts = hosts ∧ o.mapping = m ∧ q.decompose config hosts m = .ok o.pieces := by
  unfold occurrence? at h
  cases hd : q.decompose config hosts m with
  | error e => rw [hd] at h; cases h
  | ok pieces =>
    rw [hd] at h
    cases h
    exact ⟨rfl, rfl, rfl⟩

/-- An occurrence that is yielded comes from an assignment and an embedding below its hosts. -/
theorem occurrence?_of_mem_occurrences {o : Occurrence}
    (h : o ∈ (q.toMatches config).occurrences.toList) :
    o.hosts ∈ (q.toMatches config).assignments.toList ∧
      .ok o.mapping ∈ (q.embeddings (q.toMatches config).table q.redex.plan o.hosts).toList ∧
      q.occurrence? config o.hosts o.mapping = some o := by
  unfold occurrences at h
  have h := LazyList.mem_of_mem_upTo h
  rw [LazyList.toList_flatMap] at h
  obtain ⟨hosts, hhosts, ho⟩ := List.mem_flatMap.mp h
  have hhosts := LazyList.mem_of_mem_upTo hhosts
  unfold occurrencesAt at ho
  rw [LazyList.toList_filterMap, List.mem_filterMap] at ho
  obtain ⟨e, he, ho⟩ := ho
  cases e with
  | error e => cases ho
  | ok m =>
    obtain ⟨rfl, rfl, -⟩ := of_occurrence?_eq_some ho
    exact ⟨hhosts, he, ho⟩

/-- The pieces of an occurrence that is yielded are those of the decomposition. -/
theorem of_mem_occurrences {o : Occurrence} (h : o ∈ (q.toMatches config).occurrences.toList) :
    o.hosts ∈ (q.toMatches config).assignments.toList ∧
      .ok o.mapping ∈ (q.embeddings (q.toMatches config).table q.redex.plan o.hosts).toList ∧
      q.decompose config o.hosts o.mapping = .ok o.pieces := by
  obtain ⟨hhosts, he, ho⟩ := occurrence?_of_mem_occurrences h
  exact ⟨hhosts, he, (of_occurrence?_eq_some ho).2.2⟩

/-- **What is yielded occurs.** -/
theorem occurs_of_mem_occurrences (hq : q.Proper) {o : Occurrence}
    (h : o ∈ (q.toMatches config).occurrences.toList) : q.Occurs o.hosts o.mapping := by
  obtain ⟨hhosts, hm, -⟩ := of_mem_occurrences h
  obtain ⟨hin, hidle⟩ := of_mem_assignments hq hhosts
  obtain ⟨images, hp, heq, hl, hd⟩ := mem_embeddings.mp hm
  rw [heq] at hl ⊢
  exact occurs_of_placeable hq hin hp hidle hl hd

end Matches

end Bigraphs
