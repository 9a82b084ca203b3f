import Bigraphs.Matching.Table
import Bigraphs.Proofs.Bipartite.Maximum
import Bigraphs.Proofs.Graph.Order
import Bigraphs.Proofs.Graph.Vertices

/-! # What the table holds

A row of the table only depends on the rows of the children, and these are not changed any more once
the row is written. So the finished table satisfies its own defining equation (`get_table`).

Neighbours that can be sent to different children, each explained there, make a matching that leaves
nothing over but the neighbour that is held out; then the case at hand holds (`caseHolds_of_images`). -/

namespace Bigraphs

/-! ### The graph between two lists -/

namespace BipartiteGraph

variable {α β : Type} {adjacent : α → β → Bool} {as : List α} {bs : List β}

theorem leftSize_ofLists : (ofLists adjacent as bs).leftSize = as.length := by
  simp [ofLists, leftSize]

theorem mem_neighbours_ofLists {x y : Nat} : y ∈ (ofLists adjacent as bs).neighbours x ↔
    ∃ a b, as[x]? = some a ∧ bs[y]? = some b ∧ adjacent a b := by
  unfold neighbours ofLists
  simp only [List.getElem?_toArray, List.getElem?_map]
  cases as[x]? with
  | none => simp
  | some a =>
    simp only [Option.map_some, Option.getD_some, List.mem_map, List.mem_filter, Prod.exists,
      Option.some.injEq]
    constructor
    · rintro ⟨b, k, ⟨hb, hadj⟩, rfl⟩
      exact ⟨a, b, rfl, List.mk_mem_zipIdx_iff_getElem?.mp hb, hadj⟩
    · rintro ⟨a', b, rfl, hb, hadj⟩
      exact ⟨b, y, ⟨List.mk_mem_zipIdx_iff_getElem?.mpr hb, hadj⟩, rfl⟩

theorem inRange_ofLists : (ofLists adjacent as bs).InRange := by
  intro ys hys y hy
  obtain ⟨x, hx⟩ := List.mem_iff_getElem?.mp hys
  rw [Array.getElem?_toList] at hx
  have hmem : y ∈ (ofLists adjacent as bs).neighbours x := by
    rw [neighbours, hx]
    exact hy
  obtain ⟨a, b, -, hb, -⟩ := mem_neighbours_ofLists.mp hmem
  exact (List.getElem?_eq_some_iff.mp hb).1

/-- The matching that an assignment of the first list makes. -/
theorem isMatching_of_images [DecidableEq β] {xs ys : List α} {cs : List β} {heldOut : Option Nat}
    (hheld : ∀ k, heldOut = some k → xs.length ≤ k) (hcs : cs.Nodup) (hsub : cs ⊆ bs)
    (hall : List.Forall₂ (fun a b => adjacent a b = true) xs cs) :
    (ofLists adjacent (xs ++ ys) bs).IsMatching heldOut
      ((List.range xs.length).zip (cs.map bs.idxOf)) := by
  have hlen := hall.length_eq
  have hmem : ∀ e ∈ (List.range xs.length).zip (cs.map bs.idxOf),
      ∃ (h : e.1 < xs.length) (h' : e.1 < cs.length), e.2 = bs.idxOf cs[e.1] := by
    intro e he
    obtain ⟨k, hk⟩ := List.mem_iff_getElem?.mp he
    obtain ⟨h1, h2⟩ := List.getElem?_zip_eq_some.mp hk
    obtain ⟨hk1, hk2⟩ := List.getElem?_eq_some_iff.mp h1
    rw [List.length_range] at hk1
    rw [List.getElem_range] at hk2
    rw [List.getElem?_map, List.getElem?_eq_getElem (by rw [← hlen]; exact hk1), Option.map_some,
      Option.some.injEq] at h2
    subst hk2
    exact ⟨hk1, by rw [← hlen]; exact hk1, h2.symm⟩
  exact {
    edge := fun e he => by
      obtain ⟨h, h', h2⟩ := hmem e he
      refine mem_neighbours_ofLists.mpr ⟨xs[e.1], cs[e.1], ?_, ?_, hall.get h h'⟩
      · rw [List.getElem?_append_left h, List.getElem?_eq_getElem h]
      · rw [h2]
        exact List.getElem?_idxOf (hsub (List.getElem_mem h'))
    left_nodup := by
      rw [List.map_fst_zip (by simp [hlen])]
      exact List.nodup_range
    right_nodup := by
      rw [List.map_snd_zip (by simp [hlen])]
      refine List.Nodup.map_on (fun c hc d hd hcd => ?_) hcs
      exact (List.idxOf_inj (hsub hc)).mp hcd
    not_held := fun e he hk => by
      obtain ⟨h, -, -⟩ := hmem e he
      exact absurd (hheld _ hk) (Nat.not_le.mpr h) }

/-- When all that is left over is held out, only the first list is paired. -/
theorem matchedLeft_subset {xs ys : List α} {heldOut : Option Nat} {p : Pairing}
    (hheld : heldOut = none ∧ ys = [] ∨ heldOut = some xs.length ∧ ys.length = 1)
    (hv : p.Valid (ofLists adjacent (xs ++ ys) bs)) (hp : p.heldOut = heldOut) :
    p.matchedLeft ⊆ List.range xs.length := by
  intro x hx
  obtain ⟨y, hy⟩ := Pairing.mem_matchedLeft.mp hx
  have hlt := Pairing.lt_of_partner hy
  rw [hv.left_size, leftSize_ofLists, List.length_append] at hlt
  rw [List.mem_range]
  rcases hheld with ⟨-, rfl⟩ | ⟨hn, hy1⟩
  · simpa using hlt
  · have hne : x ≠ xs.length := by
      rintro rfl
      rw [hv.held_free (by rw [hp, hn])] at hy
      cases hy
    omega

/-- **An assignment of the first list** to different members of the other is as large as a pairing
can be when all that is left over is held out. -/
theorem size_maximum_of_images [DecidableEq β] {xs ys : List α} {cs : List β} {heldOut : Option Nat}
    (hheld : heldOut = none ∧ ys = [] ∨ heldOut = some xs.length ∧ ys.length = 1) (hcs : cs.Nodup)
    (hsub : cs ⊆ bs) (hall : List.Forall₂ (fun a b => adjacent a b = true) xs cs) :
    ((ofLists adjacent (xs ++ ys) bs).maximum heldOut).size = xs.length := by
  have hrange : (ofLists adjacent (xs ++ ys) bs).InRange := inRange_ofLists
  obtain ⟨hv, hheldOut, hmax⟩ := maximum_spec hrange heldOut
  have hlen := hall.length_eq
  refine Nat.le_antisymm ?_ ?_
  · rw [Pairing.size_eq]
    exact length_le_of_nodup Pairing.nodup_matchedLeft fun x hx =>
      List.mem_range.mp (matchedLeft_subset hheld hv hheldOut hx)
  · have hle := hmax _ (isMatching_of_images (fun k hk => ?_) hcs hsub hall)
    · simpa [hlen] using hle
    · rcases hheld with ⟨hn, -⟩ | ⟨hn, -⟩
      · rw [hn] at hk
        cases hk
      · rw [hn] at hk
        cases hk
        exact Nat.le_refl _

/-- Where each member of the first list has an image, none is isolated. -/
theorem hasIsolated_of_images {cs : List β} (hsub : cs ⊆ bs)
    (hall : List.Forall₂ (fun a b => adjacent a b = true) as cs) :
    (ofLists adjacent as bs).hasIsolated = false := by
  unfold hasIsolated ofLists
  simp only [List.any_map, List.any_eq_false, Function.comp_apply, Bool.not_eq_true]
  intro a ha
  obtain ⟨b, hb, hab⟩ := exists_of_forall₂ hall ha
  obtain ⟨k, hk⟩ := List.mem_iff_getElem?.mp (hsub hb)
  rw [List.isEmpty_eq_false_iff_exists_mem]
  exact ⟨k, List.mem_map.mpr ⟨(b, k),
    List.mem_filter.mpr ⟨List.mk_mem_zipIdx_iff_getElem?.mpr hk, hab⟩, rfl⟩⟩

/-- **A pairing that leaves over** only what is held out assigns the first list to different members of
the other. -/
theorem images_of_size_maximum [DecidableEq α] [Inhabited β] {xs ys : List α} {heldOut : Option Nat}
    (hheld : heldOut = none ∧ ys = [] ∨ heldOut = some xs.length ∧ ys.length = 1)
    (hbs : bs.Nodup)
    (hsize : ((ofLists adjacent (xs ++ ys) bs).maximum heldOut).size = xs.length) :
    ∃ f : α → β, (∀ a ∈ xs, f a ∈ bs ∧ adjacent a (f a)) ∧
      ∀ a ∈ xs, ∀ b ∈ xs, f a = f b → a = b := by
  have hrange : (ofLists adjacent (xs ++ ys) bs).InRange := inRange_ofLists
  obtain ⟨hv, hheldOut, -⟩ := maximum_spec hrange heldOut
  have hmatched := matchedLeft_subset hheld hv hheldOut
  rw [Pairing.size_eq] at hsize
  have hperm := (List.subperm_of_subset Pairing.nodup_matchedLeft hmatched).perm_of_length_le
    (by rw [List.length_range, hsize])
  have himage : ∀ a ∈ xs, ∃ y b, ((ofLists adjacent (xs ++ ys) bs).maximum heldOut).partner
      (xs.idxOf a) = some y ∧ bs[y]? = some b ∧ adjacent a b := by
    intro a ha
    have hlt := List.idxOf_lt_length_of_mem ha
    obtain ⟨y, hy⟩ := Pairing.mem_matchedLeft.mp (hperm.mem_iff.mpr (List.mem_range.mpr hlt))
    obtain ⟨a', b, ha', hb, hab⟩ := mem_neighbours_ofLists.mp (hv.edge hy)
    rw [List.getElem?_append_left hlt, List.getElem?_idxOf ha, Option.some.injEq] at ha'
    exact ⟨y, b, hy, hb, ha' ▸ hab⟩
  choose! y f hpartner hb hadj using himage
  refine ⟨f, fun a ha => ⟨List.mem_of_getElem? (hb a ha), hadj a ha⟩, fun a ha b hb' hab => ?_⟩
  have hyy : y a = y b := by
    refine (List.getElem?_inj (List.getElem?_eq_some_iff.mp (hb a ha)).1 hbs).mp ?_
    rw [hb a ha, hb b hb', hab]
  have h1 := hv.partner_iff.mp (hpartner a ha)
  rw [hyy, hv.partner_iff.mp (hpartner b hb'), Option.some.injEq, Option.some.injEq] at h1
  exact ((List.idxOf_inj hb').mp h1).symm

end BipartiteGraph

/-! ### Controls -/

namespace Control

theorem subperm_filterMap {α β : Type} (f : α → Option β) {l k : List α} (h : l.Subperm k) :
    (l.filterMap f).Subperm (k.filterMap f) := by
  obtain ⟨l', hp, hs⟩ := h
  exact ⟨_, hp.filterMap f, hs.filterMap f⟩

theorem compatible_within {l k : List Control} (h : l.Subperm k) : compatible l k .within := by
  unfold compatible countsWithin
  rw [List.all_eq_true]
  exact fun c _ => decide_eq_true (h.count_le c)

theorem compatible_equal {l k : List Control} (h : l.Perm k) : compatible l k .equal := by
  unfold compatible
  rw [Bool.and_eq_true]
  exact ⟨compatible_within h.subperm, compatible_within h.symm.subperm⟩

end Control

/-! ### Writing rows -/

namespace Table

theorem get_set {t : Table} {v : PlaceId} {row : Array (List PlaceId)} (hv : v < t.rows.size)
    (w u : PlaceId) : (Table.mk (t.rows.setIfInBounds v row)).get w u =
      if w = v then (row[u]?).getD [] else t.get w u := by
  unfold get
  rw [Array.getElem?_setIfInBounds]
  by_cases h : w = v
  · rw [if_pos h.symm, if_pos hv, if_pos h]; rfl
  · rw [if_neg (Ne.symm h), if_neg h]

end Table

namespace Problem

open Bigraph

variable {q : Problem} {hosts : List PlaceId} {m : Mapping}

/-- A row only depends on the rows of the children. -/
theorem explained_congr {t t' : Table} {v : PlaceId}
    (h : ∀ c ∈ q.agent.vertexChildren v, ∀ u, t.get c u = t'.get c u) (u : PlaceId) :
    q.explained t v u = q.explained t' v u := by
  have hgraph : BipartiteGraph.ofLists (fun w c => t.explains c w u) (q.redex.neighbourhood u)
      (q.agent.vertexChildren v) = BipartiteGraph.ofLists (fun w c => t'.explains c w u)
      (q.redex.neighbourhood u) (q.agent.vertexChildren v) := by
    unfold BipartiteGraph.ofLists
    congr 2
    refine List.map_congr_left fun w _ => ?_
    congr 1
    refine List.filter_congr fun e he => ?_
    obtain ⟨c, k⟩ := e
    have hc := List.mem_of_getElem? (List.mk_mem_zipIdx_iff_getElem?.mp he)
    simp only [Table.explains, h c hc w]
  unfold explained
  simp only [hgraph]

/-- **The entries of the table satisfy their defining equation.** -/
theorem get_table (ha : q.agent.WellFormed) (hr : q.agent.Rooted) {v u : PlaceId}
    (hv : v < q.agent.places.size) (hu : u < q.redex.places.size) :
    q.table.get v u =
      if q.agent.isLeaf v then q.leafExplained v u else q.explained q.table v u := by
  suffices h : q.table.rows.size = q.agent.places.size ∧
      ∀ v ∈ q.agent.postOrder, ∀ u < q.redex.places.size, q.table.get v u =
        if q.agent.isLeaf v then q.leafExplained v u else q.explained q.table v u from
    h.2 v ((ha.mem_postOrder hr).mpr hv) u hu
  have hnd := ha.nodup_postOrder
  have hfirst := ha.childrenFirst_postOrder
  refine foldl_spec (P := fun done (t : Table) => t.rows.size = q.agent.places.size ∧
    ∀ v ∈ done, ∀ u < q.redex.places.size, t.get v u =
      if q.agent.isLeaf v then q.leafExplained v u else q.explained t v u) ?_ ?_
  · exact ⟨Array.size_replicate, by simp⟩
  · rintro done v rest t hl ⟨hsize, ht⟩
    have hvlt : v < t.rows.size := by
      rw [hsize]
      exact (ha.mem_postOrder hr).mp (by rw [hl]; simp)
    have hvdone : v ∉ done := not_mem_before hnd hl
    have hcongr : ∀ w, w ∈ done ∨ w = v → ∀ u,
        q.explained (Table.mk (t.rows.setIfInBounds v (q.row t v))) w u = q.explained t w u := by
      intro w hw u
      refine explained_congr (fun c hc u => ?_) u
      rw [Table.get_set hvlt, if_neg]
      intro hcv
      have hpar := ha.mem_children.mp (mem_children_of_mem_vertexChildren hc)
      rw [hcv] at hpar
      rcases hw with hw | hw
      · obtain ⟨a, b, rfl⟩ := List.append_of_mem hw
        refine hvdone (List.mem_append_left _ (hfirst a w (b ++ v :: rest) ?_ v hpar))
        rw [hl]
        simp
      · rw [hw] at hpar
        exact hvdone (hfirst done v rest hl v hpar)
    refine ⟨by rw [Array.size_setIfInBounds, hsize], fun w hw u hu => ?_⟩
    rw [List.mem_append, List.mem_singleton] at hw
    rw [hcongr w hw, Table.get_set hvlt]
    split
    next heq =>
      subst heq
      unfold row
      rw [List.getElem?_toArray, List.getElem?_map, placeIds, List.getElem?_range hu]
      split <;> rfl
    next hne => exact ht w (hw.resolve_right hne) u hu

/-! ### One entry -/

/-- What is explained by a case, where no filter rejects the pair of vertices. -/
theorem mem_explained_of_case {t : Table} {v u w : PlaceId} {heldOut : Option Nat}
    {played : List PlaceId} (hs : q.redex.isSite u = false)
    (hd : q.redex.degree u ≤ (q.agent.vertexChildren v).length + 1) (hv : q.vertexCompatible v u)
    (hc : (w, heldOut, played) ∈ q.cases u)
    (h : q.caseHolds u (q.agent.vertexChildren v) (BipartiteGraph.ofLists
      (fun w c => t.explains c w u) (q.redex.neighbourhood u) (q.agent.vertexChildren v))
      heldOut played) : w ∈ q.explained t v u := by
  unfold explained
  simp only [hs, hv, Nat.not_lt.mpr hd, decide_false, Bool.or_self, Bool.not_true,
    Bool.false_eq_true, if_false]
  exact List.mem_map.mpr ⟨_, List.mem_filter.mpr ⟨hc, h⟩, rfl⟩

/-- The case in which the parent is held out. -/
theorem parent_mem_cases {u p : PlaceId} (hp : q.redex.parent u = some p) :
    (p, some (q.redex.vertexChildren u).length, q.redex.vertexChildren u) ∈ q.cases u := by
  refine List.mem_cons_of_mem _
    (List.mem_map.mpr ⟨(p, (q.redex.vertexChildren u).length), ?_, ?_⟩)
  · rw [List.mk_mem_zipIdx_iff_getElem?, neighbourhood, hp]
    simp
  · simp [neighbourhood, hp, List.eraseIdx_append_of_length_le]

/-- **A case holds** when the neighbours to be played can be sent to different children, each explained
there, and nothing is left over that is not tolerated. -/
theorem caseHolds_of_images {v u : PlaceId}
    {xs ys cs : List PlaceId} {heldOut : Option Nat} (hxs : q.redex.neighbourhood u = xs ++ ys)
    (hheld : heldOut = none ∧ ys = [] ∨ heldOut = some xs.length ∧ ys.length = 1) (hcs : cs.Nodup)
    (hsub : cs ⊆ q.agent.vertexChildren v)
    (hall : List.Forall₂ (fun w c => q.table.explains c w u = true) xs cs)
    (hcontrol : List.Forall₂ (fun w c => q.redex.control w = q.agent.control c) xs cs)
    (hopen : q.redex.isOpen u = false → xs.length = (q.agent.vertexChildren v).length) :
    q.caseHolds u (q.agent.vertexChildren v) (BipartiteGraph.ofLists
      (fun w c => q.table.explains c w u) (q.redex.neighbourhood u) (q.agent.vertexChildren v))
      heldOut xs := by
  have hlen := hall.length_eq
  have hsubperm := List.subperm_of_subset hcs hsub
  have hisolated : (!((BipartiteGraph.ofLists (fun w c => q.table.explains c w u) (xs ++ ys)
      (q.agent.vertexChildren v)).hasIsolated && heldOut.isNone)) = true := by
    rcases hheld with ⟨-, rfl⟩ | ⟨rfl, -⟩
    · rw [List.append_nil, BipartiteGraph.hasIsolated_of_images hsub hall]; rfl
    · simp
  have hcontrols : xs.filterMap q.redex.control = cs.filterMap q.agent.control := by
    clear hall hcs hsub hsubperm hopen hxs hheld hlen hisolated
    induction hcontrol with
    | nil => rfl
    | cons h _ ih =>
      rw [List.filterMap_cons, List.filterMap_cons, h, ih]
  unfold caseHolds
  rw [hxs, hisolated, BipartiteGraph.size_maximum_of_images hheld hcs hsub hall, hcontrols]
  cases ho : q.redex.isOpen u with
  | true =>
    have := Control.compatible_within (Control.subperm_filterMap q.agent.control hsubperm)
    simpa using this
  | false =>
    have hperm := hsubperm.perm_of_length_le (by rw [← hlen, hopen ho])
    have := Control.compatible_equal (hperm.filterMap q.agent.control)
    simpa [hopen ho] using this

end Problem

end Bigraphs
