import Bigraphs.Proofs.Graph.Subtrees
import Bigraphs.Proofs.Matching.Soundness
import Bigraphs.Proofs.Matching.Table
import Mathlib.Tactic.Choose

/-! # The table decides which subtrees fit

A subtree of the redex fits at an agent vertex when its nodes can be sent to different agent nodes
below the vertex, controls and nesting kept, with no agent node left over under a node that has no
site (`EmbedsSubtree`). The table knows where: it explains the parent of a node `u` at `v` if and only
if the subtree at `u` fits at `v` (`explains_parent_iff`), and a root hits a vertex if and only if what
lies directly below the root can be sent to different children of the vertex (`table_spec`).

One entry says what happens one generation below: the nodes directly below `u` go to different
children of `v` where the table explains `u` (`SendsChildren`). A pairing that leaves over nothing but
the vertex held out is such an assignment (`caseHolds_iff`). Going down the redex, the embeddings of
the subtrees below the children are put together; they do not meet, since siblings have nothing below
them in common. -/

namespace Bigraphs

namespace Problem

open Bigraph

/-- **The redex subtree at `u` fits at the agent vertex `v`,** with `f` on its nodes. -/
structure EmbedsSubtree (q : Problem) (v u : PlaceId) (f : PlaceId → PlaceId) : Prop where
  top : f u = v
  below : ∀ x, q.redex.SubtreeNode u x → q.agent.AboveEq v (f x)
  inj : ∀ x y, q.redex.SubtreeNode u x → q.redex.SubtreeNode u y → f x = f y → x = y
  control : ∀ x, q.redex.SubtreeNode u x → q.agent.control (f x) = q.redex.control x
  child : ∀ x y, q.redex.SubtreeNode u x → q.redex.SubtreeNode u y → q.redex.parent y = some x →
    q.agent.parent (f y) = some (f x)
  /-- Without a site below it, a node has as many children as its image. -/
  onto : ∀ x d, q.redex.SubtreeNode u x → (∀ s, q.redex.isSite s → q.redex.parent s ≠ some x) →
    q.agent.parent d = some (f x) →
    ∃ y, q.redex.SubtreeNode u y ∧ q.redex.parent y = some x ∧ f y = d

/-- **The nodes directly below `u`** can be sent to different children of `v`, by `f`, with `u`
explained at each. -/
structure SendsChildren (q : Problem) (v u : PlaceId) (f : PlaceId → PlaceId) : Prop where
  child : ∀ c, q.redex.isNode c → q.redex.parent c = some u → q.agent.parent (f c) = some v
  explains : ∀ c, q.redex.isNode c → q.redex.parent c = some u → q.table.explains (f c) c u
  inj : ∀ c d, q.redex.isNode c → q.redex.parent c = some u → q.redex.isNode d →
    q.redex.parent d = some u → f c = f d → c = d

variable {q : Problem} {v u p : PlaceId}

section Entry
variable (hq : q.Proper)
include hq

/-! ### One entry -/

theorem mem_vertexChildren_agent {c : PlaceId} :
    c ∈ q.agent.vertexChildren v ↔ q.agent.parent c = some v := by
  rw [vertexChildren_agent, hq.agent.mem_children]

/-- What is explained by a node is explained at a node of the same control. -/
theorem control_of_explains (hv : v < q.agent.places.size) (hu : q.redex.isNode u) {w : PlaceId}
    (h : q.table.explains v u w) : q.redex.control u = q.agent.control v := by
  unfold Table.explains at h
  rw [List.contains_iff_mem, get_table hq.agent hq.agent_rooted hv (lt_of_isNode hu)] at h
  split at h
  next =>
    unfold leafExplained at h
    split at h
    next hleaf =>
      rw [Bool.and_eq_true, decide_eq_true_eq] at hleaf
      exact hleaf.2.symm
    next => simp at h
  next =>
    unfold explained at h
    simp only at h
    split at h
    next => simp at h
    next hcond =>
      obtain ⟨d, hd⟩ := isNode_iff.mp hu
      have hcontrol : q.redex.control u = some d.control :=
        control_eq_some_iff.mpr ⟨d, node?_eq_some_iff.mpr hd, rfl⟩
      simp only [Bool.or_eq_true, not_or, Bool.not_eq_true, Bool.not_eq_false',
        vertexCompatible, hcontrol, reduceCtorEq, decide_false, Bool.false_or,
        decide_eq_true_eq] at hcond
      rw [hcontrol, ← hcond.2]

omit hq in
/-- Where no node lies below, nothing has to be sent. -/
theorem SendsChildren.of_childless (h : ∀ c, q.redex.isNode c → q.redex.parent c ≠ some u)
    (f : PlaceId → PlaceId) : q.SendsChildren v u f :=
  ⟨fun c hn hc => absurd hc (h c hn), fun c hn hc => absurd hc (h c hn),
    fun c _ hn hc => absurd hc (h c hn)⟩

/-- The images of the nodes directly below `u`. -/
theorem SendsChildren.images {f : PlaceId → PlaceId} (hf : q.SendsChildren v u f) :
    ((q.redex.vertexChildren u).map f).Nodup ∧
      (q.redex.vertexChildren u).map f ⊆ q.agent.vertexChildren v := by
  refine ⟨(hq.redex.nodup_vertexChildren u).map_on fun c hc d hd => ?_, fun d hd => ?_⟩
  · obtain ⟨hc, hn⟩ := hq.redex.mem_vertexChildren.mp hc
    obtain ⟨hd, hn'⟩ := hq.redex.mem_vertexChildren.mp hd
    exact hf.inj c d hn hc hn' hd
  · obtain ⟨c, hc, rfl⟩ := List.mem_map.mp hd
    obtain ⟨hc, hn⟩ := hq.redex.mem_vertexChildren.mp hc
    exact (mem_vertexChildren_agent hq).mpr (hf.child c hn hc)

/-- **When the case holds** in which all but `ys` of the neighbourhood is played. -/
theorem caseHolds_iff {ys : List PlaceId} {heldOut : Option Nat}
    (hys : (q.redex.parent u).toList = ys)
    (hheld : heldOut = none ∧ ys = [] ∨
      heldOut = some (q.redex.vertexChildren u).length ∧ ys.length = 1) :
    q.caseHolds u (q.agent.vertexChildren v) (BipartiteGraph.ofLists
      (fun w c => q.table.explains c w u) (q.redex.neighbourhood u) (q.agent.vertexChildren v))
      heldOut (q.redex.vertexChildren u) ↔
    (∃ f, q.SendsChildren v u f) ∧ (q.redex.isOpen u = false →
      (q.redex.vertexChildren u).length = (q.agent.vertexChildren v).length) := by
  have hneighbours : q.redex.neighbourhood u = q.redex.vertexChildren u ++ ys := by
    rw [neighbourhood, hys]
  constructor
  · intro h
    unfold caseHolds at h
    rw [hneighbours, Bool.and_eq_true, Bool.and_eq_true, Bool.and_eq_true, decide_eq_true_eq] at h
    obtain ⟨⟨⟨hopen, -⟩, hsize⟩, -⟩ := h
    obtain ⟨f, hf, hinj⟩ := BipartiteGraph.images_of_size_maximum hheld
      (hq.agent.nodup_vertexChildren v) hsize
    have hbelow : ∀ {c}, q.redex.isNode c → q.redex.parent c = some u → c ∈ q.redex.vertexChildren u :=
      fun hn hc => hq.redex.mem_vertexChildren.mpr ⟨hc, hn⟩
    have hsends : q.SendsChildren v u f := {
      child := fun c hn hc => (mem_vertexChildren_agent hq).mp (hf c (hbelow hn hc)).1
      explains := fun c hn hc => (hf c (hbelow hn hc)).2
      inj := fun c d hn hc hn' hd => hinj c (hbelow hn hc) d (hbelow hn' hd) }
    exact ⟨⟨f, hsends⟩, fun hclosed => by simpa [hclosed] using hopen⟩
  · rintro ⟨⟨f, hf⟩, hclosed⟩
    refine caseHolds_of_images hneighbours hheld (hf.images hq).1 (hf.images hq).2 ?_ ?_ hclosed
    · refine List.forall₂_map_right_iff.mpr (List.forall₂_same.mpr fun c hc => ?_)
      obtain ⟨hc, hn⟩ := hq.redex.mem_vertexChildren.mp hc
      exact hf.explains c hn hc
    · refine List.forall₂_map_right_iff.mpr (List.forall₂_same.mpr fun c hc => ?_)
      obtain ⟨hc, hn⟩ := hq.redex.mem_vertexChildren.mp hc
      exact control_of_explains hq (lt_of_parent (hf.child c hn hc)) hn (hf.explains c hn hc)

/-- **What is explained at `(v, u)` by the case** that plays all nodes below `u`. The filter by degree
takes nothing away: `v` has as many children as are sent to it. -/
theorem mem_explained_iff {w : PlaceId} {heldOut : Option Nat} {ys : List PlaceId}
    (hsite : q.redex.isSite u = false) (hys : (q.redex.parent u).toList = ys)
    (hheld : heldOut = none ∧ ys = [] ∨
      heldOut = some (q.redex.vertexChildren u).length ∧ ys.length = 1)
    (hcase : ∀ k played, (w, k, played) ∈ q.cases u ↔
      k = heldOut ∧ played = q.redex.vertexChildren u) :
    w ∈ q.explained q.table v u ↔ q.vertexCompatible v u ∧ (∃ f, q.SendsChildren v u f) ∧
      (q.redex.isOpen u = false →
        (q.redex.vertexChildren u).length = (q.agent.vertexChildren v).length) := by
  rw [← caseHolds_iff hq hys hheld]
  constructor
  · intro h
    unfold explained at h
    simp only [hsite, Bool.false_or] at h
    split at h
    next => simp at h
    next hcond =>
      simp only [Bool.or_eq_true, Bool.not_eq_true', not_or, Bool.not_eq_false] at hcond
      obtain ⟨⟨w', k, played⟩, hmem, rfl⟩ := List.mem_map.mp h
      obtain ⟨hmem, hholds⟩ := List.mem_filter.mp hmem
      obtain ⟨rfl, rfl⟩ := (hcase k played).mp hmem
      exact ⟨hcond.2, hholds⟩
  · rintro ⟨hcompatible, hholds⟩
    refine mem_explained_of_case hsite ?_ hcompatible ((hcase _ _).mpr ⟨rfl, rfl⟩) hholds
    obtain ⟨⟨f, hf⟩, -⟩ := (caseHolds_iff hq hys hheld).mp hholds
    have hle := (List.subperm_of_subset (hf.images hq).1 (hf.images hq).2).length_le
    rw [List.length_map] at hle
    have hone : ys.length ≤ 1 := by
      rcases hheld with ⟨-, rfl⟩ | ⟨-, h⟩
      · exact Nat.zero_le 1
      · exact h.le
    unfold degree
    rw [hys]
    omega

/-- The parent is held out in one case only. -/
theorem parent_mem_cases_iff (hp : q.redex.parent u = some p) (k : Option Nat)
    (played : List PlaceId) : (p, k, played) ∈ q.cases u ↔
      k = some (q.redex.vertexChildren u).length ∧ played = q.redex.vertexChildren u := by
  have hne : p ≠ u := by
    rintro rfl
    exact hq.redex.not_above_self p (.single hp)
  constructor
  · intro h
    rcases List.mem_cons.mp h with h | h
    · exact absurd (Prod.mk.inj h).1 hne
    · obtain ⟨⟨w, i⟩, hi, heq⟩ := List.mem_map.mp h
      simp only [Prod.mk.injEq] at heq
      obtain ⟨rfl, rfl, rfl⟩ := heq
      rw [List.mk_mem_zipIdx_iff_getElem?, neighbourhood, hp, Option.toList_some] at hi
      have hlen : i = (q.redex.vertexChildren u).length := by
        rcases Nat.lt_trichotomy i (q.redex.vertexChildren u).length with hlt | heq | hgt
        · -- the parent would lie below its own child
          rw [List.getElem?_append_left hlt] at hi
          obtain ⟨hc, -⟩ := hq.redex.mem_vertexChildren.mp (List.mem_of_getElem? hi)
          exact absurd (.head hc (.single hp)) (hq.redex.not_above_self u)
        · exact heq
        · rw [List.getElem?_eq_none (by rw [List.length_append, List.length_singleton]; omega)] at hi
          cases hi
      refine ⟨by rw [hlen], ?_⟩
      rw [neighbourhood, hp, hlen, Option.toList_some,
        List.eraseIdx_append_of_length_le (Nat.le_refl _)]
      simp
  · rintro ⟨rfl, rfl⟩
    exact parent_mem_cases hp

/-- A place without a parent is explained by itself in one case only. -/
theorem self_mem_cases_iff (hp : q.redex.parent u = none) (k : Option Nat)
    (played : List PlaceId) : (u, k, played) ∈ q.cases u ↔
      k = none ∧ played = q.redex.vertexChildren u := by
  have hneighbours : q.redex.neighbourhood u = q.redex.vertexChildren u := by
    simp [neighbourhood, hp]
  unfold cases
  simp only [hneighbours, List.mem_cons, Prod.mk.injEq, true_and]
  refine or_iff_left fun h => ?_
  obtain ⟨⟨w, i⟩, hi, heq⟩ := List.mem_map.mp h
  simp only [Prod.mk.injEq] at heq
  obtain ⟨rfl, -⟩ := heq
  have hc := hq.redex.mem_vertexChildren.mp
    (List.mem_of_getElem? (List.mk_mem_zipIdx_iff_getElem?.mp hi))
  rw [hp] at hc
  cases hc.1

/-- **The entry of a node:** its parent is explained where the nodes below it can be sent. -/
theorem explains_parent_iff_sends (hv : v < q.agent.places.size) (hu : q.redex.isNode u)
    (hp : q.redex.parent u = some p) : q.table.explains v u p ↔
      q.agent.control v = q.redex.control u ∧ (∃ f, q.SendsChildren v u f) ∧
        (q.redex.isOpen u = false →
          (q.redex.vertexChildren u).length = (q.agent.vertexChildren v).length) := by
  unfold Table.explains
  rw [List.contains_iff_mem, get_table hq.agent hq.agent_rooted hv (lt_of_isNode hu)]
  obtain ⟨d, hd⟩ := isNode_iff.mp hu
  have hcontrol : q.redex.control u = some d.control :=
    control_eq_some_iff.mpr ⟨d, node?_eq_some_iff.mpr hd, rfl⟩
  split
  next hleaf =>
    -- nothing can be sent below a leaf, and nothing is left over there
    have hnil : q.agent.vertexChildren v = [] := by
      unfold isLeaf at hleaf
      rw [Bool.and_eq_true, List.isEmpty_iff] at hleaf
      exact hleaf.2
    have hmem : p ∈ q.redex.neighbourhood u := by simp [neighbourhood, hp]
    have hsends : (∃ f, q.SendsChildren v u f) ↔ q.redex.vertexChildren u = [] := by
      constructor
      · rintro ⟨f, hf⟩
        have hsub := (hf.images hq).2
        rw [hnil, List.subset_nil, List.map_eq_nil_iff] at hsub
        exact hsub
      · intro h
        have hnone : ∀ c, q.redex.isNode c → q.redex.parent c ≠ some u := by
          intro c hn hc
          have := hq.redex.mem_vertexChildren.mpr ⟨hc, hn⟩
          rw [h] at this
          simp at this
        exact ⟨id, .of_childless hnone id⟩
    rw [hsends, leafExplained, isLeaf, hu, Bool.true_and, hnil]
    by_cases hempty : q.redex.vertexChildren u = []
    · by_cases hsame : q.agent.control v = q.redex.control u <;> simp [hempty, hsame, hmem]
    · simp [hempty]
  next =>
    have hparent : (q.redex.parent u).toList = [p] := by rw [hp]; rfl
    rw [mem_explained_iff hq (isSite_eq_false_of_isNode hu) hparent (Or.inr ⟨rfl, rfl⟩)
      (parent_mem_cases_iff hq hp)]
    refine and_congr_left fun _ => ?_
    simp [vertexCompatible, hcontrol, eq_comm]

/-- **The entry of a root:** it is explained by itself where the nodes below it can be sent. -/
theorem explains_root_iff_sends (hv : v ∈ q.agent.internalPostOrder) (hu : q.redex.isRoot u) :
    q.table.explains v u u ↔ ∃ f, q.SendsChildren v u f := by
  obtain ⟨i, hi⟩ := isRoot_iff.mp hu
  obtain ⟨hpost, hinner⟩ := List.mem_filter.mp hv
  have hleaf : q.agent.isLeaf v = false := by
    rw [Bool.or_eq_true, Bool.not_eq_true'] at hinner
    rcases hinner with hagent | hleaf
    · rw [isLeaf, isNode_eq_false_of_isRoot hagent, Bool.false_and]
    · exact hleaf
  have hparent := hq.redex.parent_root hu
  have hnone : (q.redex.parent u).toList = [] := by rw [hparent]; rfl
  have hcontrol : q.redex.control u = none := by
    simp [Bigraph.control, node?, hi, PlaceKind.node?]
  unfold Table.explains
  rw [List.contains_iff_mem, get_table hq.agent hq.agent_rooted
    ((hq.agent.mem_postOrder hq.agent_rooted).mp hpost) (lt_of_kind hi), hleaf,
    if_neg Bool.false_ne_true, mem_explained_iff hq
    (by simp [isSite, siteIndex, hi, PlaceKind.siteIndex]) hnone (Or.inl ⟨rfl, rfl⟩)
    (self_mem_cases_iff hq hparent)]
  simp [vertexCompatible, hcontrol, isOpen, hu]

end Entry

end Problem

/-! ### Embeddings, one generation at a time -/

namespace Problem

open Bigraph

variable {q : Problem} {v u p : PlaceId} {f : PlaceId → PlaceId}

section Embedding
variable (hq : q.Proper)
include hq

/-- A map that sends children to children keeps the subtree below the image of its top. -/
theorem aboveEq_of_child {c x : PlaceId} (hc : q.redex.isNode c)
    (h : ∀ x y, q.redex.SubtreeNode c x → q.redex.SubtreeNode c y → q.redex.parent y = some x →
      q.agent.parent (f y) = some (f x))
    (hx : q.redex.SubtreeNode c x) : q.agent.AboveEq (f c) (f x) := by
  have hreach := (subtreeNode_iff hq.redex hc).mp hx
  clear hx
  induction hreach with
  | refl => exact .refl
  | @tail x y hcx hxy ih =>
    obtain ⟨hy, hn⟩ := hq.redex.mem_vertexChildren.mp hxy
    have hx := (subtreeNode_iff hq.redex hc).mpr hcx
    exact ih.tail (h x y hx ⟨hx.aboveEq.tail hy, hn⟩ hy)

/-- An embedding is one of the subtree at each child. -/
theorem EmbedsSubtree.of_child (hf : q.EmbedsSubtree v u f) {c : PlaceId} (hn : q.redex.isNode c)
    (hc : q.redex.parent c = some u) : q.EmbedsSubtree (f c) c f where
  top := rfl
  below x hx := aboveEq_of_child hq hn
    (fun x y hx hy => hf.child x y (hx.of_child hc) (hy.of_child hc)) hx
  inj x y hx hy := hf.inj x y (hx.of_child hc) (hy.of_child hc)
  control x hx := hf.control x (hx.of_child hc)
  child x y hx hy := hf.child x y (hx.of_child hc) (hy.of_child hc)
  onto x d hx hsite hd := by
    obtain ⟨y, hy, hyx, hyd⟩ := hf.onto x d (hx.of_child hc) hsite hd
    exact ⟨y, ⟨hx.aboveEq.tail hyx, hy.isNode⟩, hyx, hyd⟩

/-- A node without a site below it tolerates no other children. -/
theorem isOpen_eq_false_iff (hu : q.redex.isNode u) : q.redex.isOpen u = false ↔
    ∀ s, q.redex.isSite s → q.redex.parent s ≠ some u := by
  rw [← Bool.not_eq_true, isOpen_iff hq.redex hu]
  simp only [not_exists, not_and, ne_eq]

/-- **From the subtrees below** to the subtree: embeddings below different children do not meet. -/
theorem EmbedsSubtree.of_children {f₀ : PlaceId → PlaceId} {f : PlaceId → PlaceId → PlaceId}
    (hu : q.redex.isNode u) (hcontrol : q.agent.control v = q.redex.control u)
    (hsends : q.SendsChildren v u f₀)
    (hclosed : q.redex.isOpen u = false →
      (q.redex.vertexChildren u).length = (q.agent.vertexChildren v).length)
    (hf : ∀ c, q.redex.isNode c → q.redex.parent c = some u → q.EmbedsSubtree (f₀ c) c (f c)) :
    q.EmbedsSubtree v u (q.redex.glue v u f) := by
  have htop := glue_top hq.redex (u := u) v f
  have hglue : ∀ {c x}, q.redex.isNode c → q.redex.parent c = some u → q.redex.SubtreeNode c x →
      q.redex.glue v u f x = f c x := fun hn hc hx => glue_below hq.redex v f hn hc hx.aboveEq
  -- what lies strictly below `u` goes strictly below `v`
  have hbelow : ∀ {c x}, q.redex.isNode c → q.redex.parent c = some u → q.redex.SubtreeNode c x →
      q.agent.AboveEq (f₀ c) (f c x) ∧ q.agent.Above v (f c x) := fun {c x} hn hc hx =>
    have h := (hf c hn hc).below x hx
    ⟨h, .head' (hsends.child c hn hc) h⟩
  exact {
    top := htop
    below := fun x hx => by
      rcases hx.cases hq.redex hu with rfl | ⟨c, hn, hc, hcx⟩
      · rw [htop]
        exact .refl
      · rw [hglue hn hc hcx]
        exact (hbelow hn hc hcx).2.to_reflTransGen
    inj := fun x y hx hy hxy => by
      rcases hx.cases hq.redex hu with rfl | ⟨c, hn, hc, hcx⟩
      · rcases hy.cases hq.redex hu with rfl | ⟨d, hn', hd, hdy⟩
        · rfl
        · rw [htop, hglue hn' hd hdy] at hxy
          exact absurd (hxy ▸ (hbelow hn' hd hdy).2) (hq.agent.not_above_self v)
      · rw [hglue hn hc hcx] at hxy
        rcases hy.cases hq.redex hu with rfl | ⟨d, hn', hd, hdy⟩
        · rw [htop] at hxy
          exact absurd (hxy ▸ (hbelow hn hc hcx).2) (hq.agent.not_above_self v)
        · rw [hglue hn' hd hdy] at hxy
          have hcd : c = d := by
            refine hsends.inj c d hn hc hn' hd ?_
            exact eq_of_siblings hq.agent (hsends.child c hn hc) (hsends.child d hn' hd)
              (hbelow hn hc hcx).1 (hxy ▸ (hbelow hn' hd hdy).1)
          subst hcd
          exact (hf c hn hc).inj x y hcx hdy hxy
    control := fun x hx => by
      rcases hx.cases hq.redex hu with rfl | ⟨c, hn, hc, hcx⟩
      · rw [htop, hcontrol]
      · rw [hglue hn hc hcx]
        exact (hf c hn hc).control x hcx
    child := fun x y hx hy hyx => by
      rcases hx.cases hq.redex hu with rfl | ⟨c, hn, hc, hcx⟩
      · rw [htop, hglue hy.isNode hyx ⟨.refl, hy.isNode⟩, (hf y hy.isNode hyx).top]
        exact hsends.child y hy.isNode hyx
      · have hcy : q.redex.SubtreeNode c y := ⟨hcx.aboveEq.tail hyx, hy.isNode⟩
        rw [hglue hn hc hcx, hglue hn hc hcy]
        exact (hf c hn hc).child x y hcx hcy hyx
    onto := fun x d hx hsite hd => by
      rcases hx.cases hq.redex hu with rfl | ⟨c, hn, hc, hcx⟩
      · rw [htop] at hd
        have himages := hsends.images hq
        have hperm := (List.subperm_of_subset himages.1 himages.2).perm_of_length_le
          (by rw [List.length_map, hclosed ((isOpen_eq_false_iff hq hu).mpr hsite)])
        obtain ⟨y, hy, hyd⟩ := List.mem_map.mp
          (hperm.mem_iff.mpr ((mem_vertexChildren_agent hq).mpr hd))
        obtain ⟨hyx, hn⟩ := hq.redex.mem_vertexChildren.mp hy
        refine ⟨y, .of_child hyx ⟨.refl, hn⟩, hyx, ?_⟩
        rw [hglue hn hyx ⟨.refl, hn⟩, (hf y hn hyx).top, hyd]
      · rw [hglue hn hc hcx] at hd
        obtain ⟨y, hy, hyx, hyd⟩ := (hf c hn hc).onto x d hcx hsite hd
        exact ⟨y, .of_child hc hy, hyx, by rw [hglue hn hc hy, hyd]⟩ }

/-- **From the subtree** to the nodes directly below its top. -/
theorem EmbedsSubtree.sendsChildren (hu : q.redex.isNode u) (hf : q.EmbedsSubtree v u f)
    (hexplains : ∀ c, q.redex.isNode c → q.redex.parent c = some u → q.table.explains (f c) c u) :
    q.SendsChildren v u f ∧ (q.redex.isOpen u = false →
      (q.redex.vertexChildren u).length = (q.agent.vertexChildren v).length) := by
  have hself : q.redex.SubtreeNode u u := ⟨.refl, hu⟩
  have hnode : ∀ {c}, q.redex.isNode c → q.redex.parent c = some u → q.redex.SubtreeNode u c :=
    fun hn hc => .of_child hc ⟨.refl, hn⟩
  have hsends : q.SendsChildren v u f := {
    child := fun c hn hc => by rw [hf.child u c hself (hnode hn hc) hc, hf.top]
    explains := hexplains
    inj := fun c d hn hc hn' hd => hf.inj c d (hnode hn hc) (hnode hn' hd) }
  refine ⟨hsends, fun hclosed => ?_⟩
  have himages := hsends.images hq
  have hperm : ((q.redex.vertexChildren u).map f).Perm (q.agent.vertexChildren v) := by
    refine (List.perm_ext_iff_of_nodup himages.1 (hq.agent.nodup_vertexChildren v)).mpr fun d =>
      ⟨fun hd => himages.2 hd, fun hd => ?_⟩
    rw [mem_vertexChildren_agent hq, ← hf.top] at hd
    obtain ⟨y, hy, hyu, rfl⟩ := hf.onto u d hself ((isOpen_eq_false_iff hq hu).mp hclosed) hd
    exact List.mem_map_of_mem (hq.redex.mem_vertexChildren.mpr ⟨hyu, hy.isNode⟩)
  rw [← hperm.length_eq, List.length_map]

/-- **The table explains the parent of a node** where the subtree at the node fits, and nowhere else. -/
theorem explains_parent_iff (hv : v < q.agent.places.size) (hu : q.redex.isNode u)
    (hp : q.redex.parent u = some p) :
    q.table.explains v u p ↔ ∃ f, q.EmbedsSubtree v u f := by
  -- on the number of generations that may still follow below `u`
  induction hn : q.redex.places.size - q.redex.depth u using Nat.strong_induction_on
    generalizing v u p with
  | _ n ih =>
    have hlt := hq.redex.depth_lt (lt_of_isNode hu)
    have hbelow : ∀ {c d}, q.redex.isNode c → q.redex.parent c = some u →
        d < q.agent.places.size → (q.table.explains d c u ↔ ∃ f, q.EmbedsSubtree d c f) := by
      intro c d hc hcu hd
      refine ih _ ?_ hd hc hcu rfl
      rw [hq.redex.depth_of_parent hcu]
      omega
    rw [explains_parent_iff_sends hq hv hu hp]
    constructor
    · rintro ⟨hcontrol, ⟨f₀, hf₀⟩, hclosed⟩
      have hsub : ∀ c, q.redex.isNode c ∧ q.redex.parent c = some u →
          ∃ f, q.EmbedsSubtree (f₀ c) c f := fun c ⟨hc, hcu⟩ =>
        (hbelow hc hcu (lt_of_parent (hf₀.child c hc hcu))).mp (hf₀.explains c hc hcu)
      choose! f hf using hsub
      exact ⟨_, .of_children hq hu hcontrol hf₀ hclosed fun c hc hcu => hf c ⟨hc, hcu⟩⟩
    · rintro ⟨f, hf⟩
      obtain ⟨hsends, hclosed⟩ := hf.sendsChildren hq hu fun c hc hcu => by
        have hd := hf.child u c ⟨.refl, hu⟩ (.of_child hcu ⟨.refl, hc⟩) hcu
        exact (hbelow hc hcu (lt_of_parent hd)).mpr ⟨f, hf.of_child hq hc hcu⟩
      refine ⟨?_, ⟨f, hsends⟩, hclosed⟩
      rw [← hf.control u ⟨.refl, hu⟩, hf.top]

/-- **A root hits a vertex** where the nodes directly below the root can be sent, and nowhere else. -/
theorem hits_iff_sends {r : PlaceId} (hr : q.redex.isRoot r)
    (hfilled : ∃ c, q.redex.isNode c ∧ q.redex.parent c = some r) :
    (∃ hit ∈ q.rootHits q.table, hit.host = v ∧ hit.root = r) ↔ ∃ f, q.SendsChildren v r f := by
  obtain ⟨i, hi⟩ := isRoot_iff.mp hr
  constructor
  · rintro ⟨hit, hmem, rfl, rfl⟩
    obtain ⟨hinner, -, -, hexplains⟩ := mem_rootHits.mp hmem
    exact (explains_root_iff_sends hq hinner hr).mp hexplains
  · rintro ⟨f, hf⟩
    obtain ⟨c, hc, hcr⟩ := hfilled
    have hinner : v ∈ q.agent.internalPostOrder :=
      (Matches.mem_internalPostOrder hq).mpr (Or.inr ⟨f c, hf.child c hc hcr⟩)
    exact ⟨⟨v, r, i⟩, mem_rootHits.mpr ⟨hinner, mem_roots.mpr hr, rootIndex_eq_some_iff.mpr hi,
      (explains_root_iff_sends hq hinner hr).mpr ⟨f, hf⟩⟩, rfl, rfl⟩

end Embedding

/-- **The table decides which subtrees fit,** and with them where the roots hit. -/
theorem table_spec {agent redex : Bigraph} (ha : agent.Constructible) (hr : redex.Constructible)
    (hs : agent.signature = redex.signature) (hg : agent.isGround = true) :
    ∃ q, Problem.of agent redex = .ok q ∧ q.agent = agent ∧ q.redex = redex ∧
      (∀ v ∈ agent.vertices, ∀ u p, redex.isNode u → redex.parent u = some p →
        (q.table.explains v u p ↔ ∃ f, q.EmbedsSubtree v u f)) ∧
      ∀ v ∈ agent.vertices, ∀ r, redex.isRoot r →
        (∃ c, redex.isNode c ∧ redex.parent c = some r) →
        ((∃ hit ∈ q.rootHits q.table, hit.host = v ∧ hit.root = r) ↔ ∃ f, q.SendsChildren v r f) := by
  have hq := Matches.proper_of_constructible ha hr hs hg
  refine ⟨⟨agent, redex, hg⟩, dif_pos hg, rfl, rfl, fun v hv u p hu hp => ?_,
    fun v _ r hr hfilled => hits_iff_sends hq hr hfilled⟩
  exact explains_parent_iff hq (lt_of_mem_vertices hv) hu hp

end Problem

/-- The room that may hold more fits at the first room, the other one does not. -/
theorem table_spec_busyRooms : busyRooms.Constructible ∧ roomsInTouch.Constructible ∧
    busyRooms.signature = roomsInTouch.signature ∧ busyRooms.isGround = true ∧
    ∃ q, Problem.of busyRooms roomsInTouch = .ok q ∧ (∃ f, q.EmbedsSubtree 1 2 f) ∧
      (∃ f, q.EmbedsSubtree 3 3 f) ∧ (¬ ∃ f, q.EmbedsSubtree 1 3 f) ∧ ∃ f, q.SendsChildren 0 1 f := by
  obtain ⟨q, hq, -, -, hfits, hhits⟩ :=
    Problem.table_spec constructible_busyRooms constructible_roomsInTouch signature_busyRooms isGround_busyRooms
  have heq : Problem.of busyRooms roomsInTouch = .ok ⟨busyRooms, roomsInTouch, isGround_busyRooms⟩ :=
    dif_pos isGround_busyRooms
  rw [heq, Except.ok.injEq] at hq
  subst hq
  have hopen : roomsInTouch.isNode 2 ∧ roomsInTouch.parent 2 = some 0 := by decide +kernel
  have hfull : roomsInTouch.isNode 3 ∧ roomsInTouch.parent 3 = some 1 := by decide +kernel
  refine ⟨constructible_busyRooms, constructible_roomsInTouch, signature_busyRooms, isGround_busyRooms, _, heq,
    ?_, ?_, ?_, ?_⟩
  · exact (hfits 1 (by decide +kernel) 2 0 hopen.1 hopen.2).mp (by decide +kernel)
  · exact (hfits 3 (by decide +kernel) 3 1 hfull.1 hfull.2).mp (by decide +kernel)
  · rw [← hfits 1 (by decide +kernel) 3 1 hfull.1 hfull.2]
    decide +kernel
  · refine (hhits 0 (by decide +kernel) 1 (by decide +kernel) ⟨3, hfull.1, hfull.2⟩).mp ?_
    exact ⟨⟨0, 1, 1⟩, by decide +kernel, rfl, rfl⟩

end Bigraphs
