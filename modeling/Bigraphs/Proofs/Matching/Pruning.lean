import Bigraphs.Proofs.Matching.Regions
import Bigraphs.Proofs.Matching.Subtrees

/-! # The filters lose nothing

Before nodes are placed, the search throws away what cannot occur: by the ports of a pair of nodes, by
the table, by the test of a node together with what is below it, and by the hits of the roots. Each of
these filters only asks for what holds wherever agent nodes with fitting ports play the subtree at a
redex node (`PlaysSubtree.canPlay`, `hostConsistent_of_plays`), and the images of an occurrence play all
subtrees (`Occurs.playsSubtree`). So the hosts of an occurrence are among the assignments
(`mem_assignments_of_internal`). -/

namespace Bigraphs

namespace Problem

open Bigraph

variable {q : Problem} {hosts : List PlaceId} {m : Mapping}

/-! ### Subtrees that are played -/

theorem EmbedsSubtree.isNode {v u x : PlaceId} {f : PlaceId → PlaceId} (hf : q.EmbedsSubtree v u f)
    (hx : q.redex.SubtreeNode u x) : q.agent.isNode (f x) := by
  obtain ⟨d, hd⟩ := isNode_iff.mp hx.isNode
  have hcontrol : q.redex.control x = some d.control :=
    control_eq_some_iff.mpr ⟨d, node?_eq_some_iff.mpr hd, rfl⟩
  obtain ⟨e, he, -⟩ := control_eq_some_iff.mp ((hf.control x hx).trans hcontrol)
  exact isNode_iff.mpr ⟨e, node?_eq_some_iff.mp he⟩

/-- **The redex subtree at `u` is played at the agent node `v`,** by `f` on its nodes: the subtree fits
there, and so do the ports. -/
structure PlaysSubtree (q : Problem) (v u : PlaceId) (f : PlaceId → PlaceId) : Prop
    extends q.EmbedsSubtree v u f where
  ports : ∀ x, q.redex.SubtreeNode u x → q.portsCompatible (f x) x

namespace PlaysSubtree

variable {v u x : PlaceId} {f : PlaceId → PlaceId} (hq : q.Proper) (hf : q.PlaysSubtree v u f)
  (hu : q.redex.isNode u)
include hq hf

theorem of_child {c : PlaceId} (hn : q.redex.isNode c) (hc : q.redex.parent c = some u) :
    q.PlaysSubtree (f c) c f :=
  ⟨hf.toEmbedsSubtree.of_child hq hn hc, fun x hx => hf.ports x (hx.of_child hc)⟩

include hu

/-- With a subtree the subtrees in it are played. -/
theorem at_node (hx : q.redex.SubtreeNode u x) : q.PlaysSubtree (f x) x f := by
  induction (subtreeNode_iff hq.redex hu).mp hx with
  | refl =>
    rw [hf.top]
    exact hf
  | @tail y c hy hyc ih =>
    obtain ⟨hc, hn⟩ := hq.redex.mem_vertexChildren.mp hyc
    exact (ih ((subtreeNode_iff hq.redex hu).mpr hy)).of_child hq hn hc

theorem explains {p : PlaceId} (hx : q.redex.SubtreeNode u x) (hp : q.redex.parent x = some p) :
    q.table.explains (f x) x p :=
  (explains_parent_iff hq (lt_of_isNode (hf.isNode hx)) hx.isNode hp).mpr
    ⟨f, (hf.at_node hq hu hx).toEmbedsSubtree⟩

/-- **The test of one node** lets a node of the subtree through. -/
theorem locallyCompatible (hx : q.redex.SubtreeNode u x) :
    q.locallyCompatible q.table (f x) x := by
  obtain ⟨p, hp⟩ := hq.redex_rooted.exists_parent hx.isNode
  obtain ⟨c, hc⟩ := isNode_iff.mp hx.isNode
  have hcontrol : q.redex.control x = some c.control :=
    control_eq_some_iff.mpr ⟨c, node?_eq_some_iff.mpr hc, rfl⟩
  have hbelow : ∀ {c}, q.redex.isNode c → q.redex.parent c = some x → q.redex.SubtreeNode u c :=
    fun hn hc => ⟨hx.aboveEq.tail hc, hn⟩
  obtain ⟨hsends, hclosed⟩ := (hf.at_node hq hu hx).toEmbedsSubtree.sendsChildren hq hx.isNode
    fun c hn hc => hf.explains hq hu (hbelow hn hc) hc
  refine (locallyCompatible_iff hp).mpr ⟨?_, ⟨c.control, hcontrol, (hf.control x hx).trans hcontrol⟩,
    hf.explains hq hu hx hp, hf.ports x hx⟩
  split
  next =>
    have himages := hsends.images hq
    have hle := (List.subperm_of_subset himages.1 himages.2).length_le
    rwa [List.length_map] at hle
  next hopen => exact (hclosed (by simpa using hopen)).symm

/-- However many agent nodes the images of a node are taken from, those of its children are among what
is below. -/
theorem playableBelow {n : Nat} {images : List PlaceId} (hx : q.redex.SubtreeNode u x)
    (hy : f x ∈ images) : q.playableBelow q.table n images x := by
  induction n generalizing images x with
  | zero => rfl
  | succ n ih =>
    unfold Problem.playableBelow
    refine List.all_eq_true.mpr fun c hc => ?_
    obtain ⟨hpar, hn⟩ := hq.redex.mem_vertexChildren.mp hc
    have hcu : q.redex.SubtreeNode u c := ⟨hx.aboveEq.tail hpar, hn⟩
    have hmem : f c ∈ (images.flatMap q.agent.vertexChildren).filter
        (Problem.locallyCompatible q q.table · c) := by
      refine List.mem_filter.mpr ⟨List.mem_flatMap.mpr ⟨f x, hy, ?_⟩, hf.locallyCompatible hq hu hcu⟩
      exact (mem_vertexChildren_agent hq).mpr (hf.child x c hx hcu hpar)
    simp only [Bool.and_eq_true, Bool.not_eq_true', List.isEmpty_eq_false_iff_exists_mem]
    exact ⟨⟨f c, hmem⟩, ih hcu hmem⟩

/-- **Where a subtree is played,** its top can be played. -/
theorem canPlay : q.canPlay q.table v u := by
  have hself : q.redex.SubtreeNode u u := ⟨.refl, hu⟩
  have hlocal := hf.locallyCompatible hq hu hself
  rw [hf.top] at hlocal
  unfold Problem.canPlay
  rw [Bool.and_eq_true]
  exact ⟨hlocal, hf.playableBelow hq hu hself (by simp [hf.top])⟩

end PlaysSubtree

/-- **A host passes its test** if what is below the root is played below the host. -/
theorem hostConsistent_of_plays (hq : q.Proper) {h r : PlaceId}
    (hplays : ∀ c, q.redex.isNode c → q.redex.parent c = some r →
      ∃ d f, q.agent.parent d = some h ∧ q.PlaysSubtree d c f) :
    q.hostConsistent q.table h r := by
  unfold hostConsistent
  simp only
  refine List.all_eq_true.mpr fun x hx => ?_
  cases hp : q.redex.parent x with
  | none => rfl
  | some p =>
    cases hn : q.redex.isNode x with
    | false => rfl
    | true =>
      obtain ⟨c, hc, hcx⟩ := Relation.TransGen.head'_iff.mp (hq.redex.mem_descendants.mp hx)
      have hcn : q.redex.isNode c := by
        rcases aboveEq_iff.mp hcx with rfl | hcx
        · exact hn
        · obtain ⟨e, hce, -⟩ := Relation.TransGen.head'_iff.mp hcx
          refine hq.redex.isNode_of_above hce (Bool.eq_false_iff.mpr fun hroot => ?_)
          rw [IsParent, hq.redex.parent_root hroot] at hc
          cases hc
      obtain ⟨d, f, hd, hf⟩ := hplays c hcn hc
      have hxc : q.redex.SubtreeNode c x := ⟨hcx, hn⟩
      simp only [Bool.not_true, Bool.false_or, List.any_eq_true, Bool.and_eq_true, decide_eq_true_eq]
      exact ⟨f x, hq.agent.mem_descendants.mpr (.head' hd (hf.below x hxc)),
        ⟨hf.control x hxc, hf.explains hq hcn hxc hp⟩, hf.ports x hxc⟩

namespace Occurs

variable (hq : q.Proper) (ho : q.Occurs hosts m)
include hq ho

/-! ### Ports -/

/-- The link on a port of the image fits the link on the port. -/
theorem linkFits {x y : PlaceId} {i : Nat} {l a : LinkId} (h : (x, y) ∈ m)
    (hl : q.redex.portLink x i = some l) (ha : q.agent.portLink y i = some a) :
    q.linkFits a l := by
  unfold Problem.linkFits
  split
  next hclosed =>
    obtain ⟨he, hn⟩ := (isClosed_iff hq.redex).mp hclosed
    obtain ⟨b, hb, heb, hcount⟩ := ho.closed_links x y i l h hl he hn
    rw [ha, Option.some.injEq] at hb
    subst hb
    rw [heb, hcount, Bool.true_and, decide_eq_true_eq]
  next =>
    have hla : ∀ x' y' j, (x', y') ∈ m → q.redex.portLink x' j = some l →
        q.agent.portLink y' j = some a :=
      fun x' y' j h' hl' => by rw [ho.links x' y' j x y i l h' h hl' hl, ha]
    have hle := (ho.portImages_subperm hq hla).length_le
    rw [List.length_map] at hle
    rw [decide_eq_true_eq, portCount_eq, portCount_eq, List.countP_eq_length_filter,
      List.countP_eq_length_filter]
    exact hle

/-- **The check of the links** lets an occurrence through. -/
theorem linksConsistent : q.linksConsistent m = .ok true := by
  refine (linksConsistent_iff fun e he => ?_).mpr ⟨fun e he => ?_, fun l a b ha hb => ?_,
    fun l a hla => ?_⟩
  · exact ⟨lt_of_isNode (ho.isNode_fst he), lt_of_isNode (ho.isNode_snd he)⟩
  · exact ho.length_ports e.1 e.2 he
  · obtain ⟨e, he, i, hl, ha⟩ := mem_portPairs.mp ha
    obtain ⟨e', he', j, hl', hb⟩ := mem_portPairs.mp hb
    have heq := ho.links e.1 e.2 i e'.1 e'.2 j l he he' hl hl'
    rwa [ha, hb, Option.some.injEq] at heq
  · obtain ⟨e, he, i, hl, ha⟩ := mem_portPairs.mp hla
    exact ho.linkFits hq he hl ha

/-! ### The table -/

/-- A node that tolerates no more children has as many as its image. -/
theorem length_children_of_closed {x y : PlaceId} (h : (x, y) ∈ m)
    (hclosed : q.redex.isOpen x = false) :
    (q.agent.vertexChildren y).length = (q.redex.vertexChildren x).length := by
  have hnone : ∀ s, q.redex.isSite s → q.redex.parent s ≠ some x := by
    intro s hs hsx
    rw [(isOpen_iff hq.redex (ho.isNode_fst h)).mpr ⟨s, hs, hsx⟩] at hclosed
    cases hclosed
  rw [vertexChildren_agent, ← ho.closed_below x y h hnone, hq.redex.vertexChildren_eq_children hnone]

/-- **The subtree at a node fits at the image of the node.** -/
theorem embedsSubtree {x y : PlaceId} (h : (x, y) ∈ m) :
    q.EmbedsSubtree y x fun z => (imageOf m z).getD 0 := by
  have himage : ∀ {z}, q.redex.SubtreeNode x z → (z, (imageOf m z).getD 0) ∈ m := by
    intro z hz
    obtain ⟨w, hw⟩ := ho.exists_image hz.isNode
    rw [ho.imageOf_eq_some_iff.mpr hw]
    exact hw
  have htop : (imageOf m x).getD 0 = y := by
    rw [ho.imageOf_eq_some_iff.mpr h, Option.getD_some]
  have hchild : ∀ z w, q.redex.SubtreeNode x z → q.redex.SubtreeNode x w →
      q.redex.parent w = some z →
      q.agent.parent ((imageOf m w).getD 0) = some ((imageOf m z).getD 0) :=
    fun z w hz hw hwz => ho.under_node _ _ _ _ (himage hw) (himage hz) hwz
  exact {
    top := htop
    below := fun z hz => by
      have hbelow := aboveEq_of_child hq (ho.isNode_fst h) hchild hz
      rwa [htop] at hbelow
    inj := fun z w hz hw hzw => by
      have hw := himage hw
      rw [← hzw] at hw
      exact ho.node_unique (himage hz) hw
    control := fun z hz => by
      obtain ⟨c, hc, hc'⟩ := ho.control z _ (himage hz)
      rw [hc, hc']
    child := hchild
    onto := fun z d hz hsite hd => by
      have hmem := ho.childImages_spec hq (himage hz)
      have hlen := ho.length_children_of_closed hq (himage hz)
        ((isOpen_eq_false_iff hq hz.isNode).mpr hsite)
      have hperm := (List.subperm_of_subset hmem.1 fun d hd => (hmem.2 d hd).1).perm_of_length_le
        (by rw [List.length_map, ← vertexChildren_agent, hlen])
      obtain ⟨w, hw, rfl⟩ := List.mem_map.mp (hperm.mem_iff.mpr (hq.agent.mem_children.mpr hd))
      obtain ⟨hwz, hn⟩ := hq.redex.mem_vertexChildren.mp hw
      exact ⟨w, ⟨hz.aboveEq.tail hwz, hn⟩, hwz, rfl⟩ }

/-- **The images of an occurrence play the subtree** at each node. -/
theorem playsSubtree {x y : PlaceId} (h : (x, y) ∈ m) :
    q.PlaysSubtree y x fun z => (imageOf m z).getD 0 where
  toEmbedsSubtree := ho.embedsSubtree hq h
  ports z hz := by
    obtain ⟨w, hw⟩ := ho.exists_image hz.isNode
    rw [ho.imageOf_eq_some_iff.mpr hw, Option.getD_some]
    exact portsCompatible_of_linksConsistent (ho.linksConsistent hq) hw

/-- **The table explains the parent** of a node at the image of the node. -/
theorem explains_parent {x y p : PlaceId} (h : (x, y) ∈ m) (hp : q.redex.parent x = some p) :
    q.table.explains y x p := by
  have hplays := ho.playsSubtree hq h
  have hexplains := hplays.explains hq (ho.isNode_fst h) ⟨.refl, ho.isNode_fst h⟩ hp
  rwa [hplays.top] at hexplains

/-- **The table explains a root by itself** at its host. -/
theorem explains_root {p : Nat} {r h : PlaceId} (hr : q.redex.roots[p]? = some r)
    (hh : hosts[p]? = some h) (hinternal : h ∈ q.agent.internalPostOrder) :
    q.table.explains h r r := by
  refine (explains_root_iff_sends hq hinternal (mem_roots.mp (List.mem_of_getElem? hr))).mpr
    ⟨fun c => (imageOf m c).getD 0, fun c hn hc => ?_, fun c hn hc => ?_,
      fun c d hn _ hn' _ hcd => ?_⟩
  all_goals obtain ⟨y, hy⟩ := ho.exists_image hn
  · obtain ⟨h', hh', hpar⟩ := ho.under_root c y p r hy hr hc
    rw [ho.imageOf_eq_some_iff.mpr hy, Option.getD_some, hpar, ← hh', hh]
  · rw [ho.imageOf_eq_some_iff.mpr hy, Option.getD_some]
    exact ho.explains_parent hq hy hc
  · obtain ⟨z, hz⟩ := ho.exists_image hn'
    rw [ho.imageOf_eq_some_iff.mpr hy, ho.imageOf_eq_some_iff.mpr hz, Option.getD_some,
      Option.getD_some] at hcd
    subst hcd
    exact ho.node_unique hy hz

/-! ### Candidates and hosts -/

/-- **The image of a node can play it** with its subtree. -/
theorem canPlay {x y : PlaceId} (h : (x, y) ∈ m) : q.canPlay q.table y x :=
  (ho.playsSubtree hq h).canPlay hq (ho.isNode_fst h)

/-- What is below a root is played below its host. -/
theorem plays_below_host {p : Nat} {r h : PlaceId} (hr : q.redex.roots[p]? = some r)
    (hh : hosts[p]? = some h) (c : PlaceId) (hn : q.redex.isNode c) (hc : q.redex.parent c = some r) :
    ∃ d f, q.agent.parent d = some h ∧ q.PlaysSubtree d c f := by
  obtain ⟨y, hy⟩ := ho.exists_image hn
  obtain ⟨h', hh', hpar⟩ := ho.under_root c y p r hy hr hc
  rw [hh, Option.some.injEq] at hh'
  exact ⟨y, _, by rw [hpar, hh'], ho.playsSubtree hq hy⟩

/-- The test of a host lets the host of a root through. -/
theorem hostConsistent {p : Nat} {r h : PlaceId} (hr : q.redex.roots[p]? = some r)
    (hh : hosts[p]? = some h) : q.hostConsistent q.table h r :=
  hostConsistent_of_plays hq (ho.plays_below_host hq hr hh)

/-- The idle names are there. -/
theorem idleNamesPresent : q.idleNamesPresent :=
  (Problem.idleNamesPresent_iff hq.agent).mpr ho.idle_names

end Occurs

end Problem

namespace Matches

open Problem Bigraph

variable {q : Problem} {config : MatchConfig}

theorem filterMap_rootIndex (g : Bigraph) :
    g.roots.filterMap g.rootIndex = g.roots.map fun r => (g.rootIndex r).getD 0 := by
  rw [← List.filterMap_eq_map]
  refine List.filterMap_congr fun r hr => ?_
  obtain ⟨i, hi⟩ := isRoot_iff.mp (mem_roots.mp hr)
  simp [rootIndex_eq_some_iff.mpr hi]

/-- **The hosts of an occurrence are an assignment,** if there are roots and the hosts are roots or inner
nodes. -/
theorem mem_assignments_of_internal (hq : q.Proper) {hosts : List PlaceId} {m : Mapping}
    (ho : q.Occurs hosts m) (hne : q.redex.roots ≠ [])
    (hinternal : ∀ h ∈ hosts, h ∈ q.agent.internalPostOrder) :
    hosts ∈ (q.toMatches config).assignments.toList := by
  refine Bigraphs.mem_assignments.mpr ⟨?_, ?_⟩
  · intro hnil
    have hlen := length_rootIndices q.redex
    rw [show q.redex.roots.filterMap q.redex.rootIndex = [] from hnil] at hlen
    exact hne (List.length_eq_zero_iff.mp hlen.symm)
  · rw [show (q.toMatches config).problem.redex.roots.filterMap
      (q.toMatches config).problem.redex.rootIndex = _ from filterMap_rootIndex q.redex,
      List.forall₂_map_right_iff, List.forall₂_iff_get]
    refine ⟨ho.length_hosts, fun p hp hp' => mem_hitsByVertex.mpr ?_⟩
    have hh : hosts[p]? = some (hosts.get ⟨p, hp⟩) := List.getElem?_eq_getElem hp
    have hr : q.redex.roots[p]? = some (q.redex.roots.get ⟨p, hp'⟩) := List.getElem?_eq_getElem hp'
    obtain ⟨i, hi⟩ := isRoot_iff.mp (mem_roots.mp (List.mem_of_getElem? hr))
    have hin := hinternal _ (List.get_mem hosts ⟨p, hp⟩)
    refine ⟨⟨hosts.get ⟨p, hp⟩, q.redex.roots.get ⟨p, hp'⟩, i⟩, ?_, rfl, ?_⟩
    · refine List.mem_filter.mpr ⟨mem_rootHits.mpr ⟨hin, List.get_mem _ _,
        rootIndex_eq_some_iff.mpr hi, ?_⟩, ?_⟩
      · rw [if_pos (ho.idleNamesPresent hq)]
        exact ho.explains_root hq hr hh hin
      · rw [if_pos (ho.idleNamesPresent hq)]
        exact ho.hostConsistent hq hr hh
    · rw [rootIndex_eq_some_iff.mpr hi]
      rfl

/-- A node below each root makes the hosts roots or inner nodes. -/
theorem mem_assignments_of_occurs (hq : q.Proper) {hosts : List PlaceId} {m : Mapping}
    (ho : q.Occurs hosts m) (hne : q.redex.roots ≠ [])
    (hfilled : ∀ r, q.redex.isRoot r → ∃ c, q.redex.isNode c ∧ q.redex.parent c = some r) :
    hosts ∈ (q.toMatches config).assignments.toList := by
  refine mem_assignments_of_internal hq ho hne fun h hh => (mem_internalPostOrder hq).mpr (Or.inr ?_)
  obtain ⟨p, hp⟩ := List.mem_iff_getElem?.mp hh
  have hlt : p < q.redex.roots.length := by
    rw [← ho.length_hosts]
    exact (List.getElem?_eq_some_iff.mp hp).1
  have hr : q.redex.roots[p]? = some q.redex.roots[p] := List.getElem?_eq_getElem hlt
  obtain ⟨c, hcn, hc⟩ := hfilled _ (mem_roots.mp (List.mem_of_getElem? hr))
  obtain ⟨d, hcd⟩ := ho.exists_image hcn
  obtain ⟨h', hh', hd⟩ := ho.under_root c d p _ hcd hr hc
  rw [hp, Option.some.injEq] at hh'
  exact ⟨d, by rw [hd, hh']⟩

end Matches

end Bigraphs
