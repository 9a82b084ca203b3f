import Bigraphs.Matching.Hits
import Bigraphs.Proofs.Graph.Vertices

/-! # What the assignments are

An assignment gives each root a vertex that the hits allow for its index (`mem_assignments`), and no
assignment is listed twice (`nodup_assignments`). They are listed in the order of the dictionary, with the
hits as the alphabet (`pairwise_assignments`). The hits are the places where the table explains a root by
itself (`mem_rootHits`). -/

namespace Bigraphs

theorem mem_combinations {choices : List (List PlaceId)} {hosts : List PlaceId} :
    hosts ∈ (combinations choices).toList ↔ List.Forall₂ (· ∈ ·) hosts choices := by
  induction choices generalizing hosts with
  | nil => simp [combinations]
  | cons cs choices ih =>
    simp only [combinations, LazyList.toList_ofBranches, LazyList.toList_filterMap,
      List.mem_flatMap, List.mem_filterMap, Option.some.injEq, ih]
    constructor
    · rintro ⟨h, hh, hs, hhs, rfl⟩
      exact .cons hh hhs
    · rintro (_ | ⟨hh, hhs⟩)
      exact ⟨_, hh, _, hhs, rfl⟩

theorem nodup_combinations {choices : List (List PlaceId)} (h : ∀ cs ∈ choices, cs.Nodup) :
    (combinations choices).toList.Nodup := by
  induction choices with
  | nil => simp [combinations]
  | cons cs choices ih =>
    have hcs : cs.Nodup := h cs (by simp)
    have ih := ih fun cs hcs => h cs (by simp [hcs])
    simp only [combinations, LazyList.toList_ofBranches, LazyList.toList_filterMap]
    refine List.nodup_flatMap.mpr ⟨fun c _ => ?_, hcs.imp fun {a b} hab => ?_⟩
    · exact ih.filterMap fun x y z hx hy => by
        rw [Option.mem_some_iff] at hx hy
        rw [← hx] at hy
        exact (List.cons.inj hy).2.symm
    · intro x hx hy
      obtain ⟨xs, -, hxs⟩ := List.mem_filterMap.mp hx
      obtain ⟨ys, -, hys⟩ := List.mem_filterMap.mp hy
      rw [Option.some.injEq] at hxs hys
      rw [← hys] at hxs
      exact hab (List.cons.inj hxs).1

/-- **The combinations come in the order of the dictionary,** if the members of each list do. -/
theorem pairwise_combinations {before : PlaceId → PlaceId → Prop} {choices : List (List PlaceId)}
    (h : ∀ cs ∈ choices, cs.Pairwise before) :
    (combinations choices).toList.Pairwise (List.Lex before) := by
  induction choices with
  | nil => simp [combinations]
  | cons cs choices ih =>
    rw [List.forall_mem_cons] at h
    simp only [combinations, LazyList.toList_ofBranches, LazyList.toList_filterMap,
      List.filterMap_eq_map']
    refine List.pairwise_flatMap.mpr ⟨fun c _ => ?_, h.1.imp fun hbefore => ?_⟩
    · -- the same first member, so the others decide
      exact List.pairwise_map.mpr ((ih h.2).imp .cons)
    · intro x hx y hy
      obtain ⟨xs, -, rfl⟩ := List.mem_map.mp hx
      obtain ⟨ys, -, rfl⟩ := List.mem_map.mp hy
      exact .rel hbefore

theorem mem_hostChoices_iff {hits : List (PlaceId × List Nat)} {i : Nat} {h : PlaceId} :
    h ∈ (hits.filter (·.2.contains i)).map (·.1) ↔ ∃ is, (h, is) ∈ hits ∧ i ∈ is := by
  simp only [List.mem_map, List.mem_filter, List.contains_iff_mem]
  constructor
  · rintro ⟨⟨v, is⟩, ⟨hm, hi⟩, rfl⟩
    exact ⟨is, hm, hi⟩
  · rintro ⟨is, hm, hi⟩
    exact ⟨(h, is), ⟨hm, hi⟩, rfl⟩

theorem mem_assignments {hits : List (PlaceId × List Nat)} {indices : List Nat}
    {hosts : List PlaceId} :
    hosts ∈ (assignments hits indices).toList ↔
      indices ≠ [] ∧ List.Forall₂ (fun h i => ∃ is, (h, is) ∈ hits ∧ i ∈ is) hosts indices := by
  have hforall : List.Forall₂ (· ∈ ·) hosts (hostChoices hits indices) ↔
      List.Forall₂ (fun h i => ∃ is, (h, is) ∈ hits ∧ i ∈ is) hosts indices := by
    unfold hostChoices
    rw [List.forall₂_map_right_iff]
    simp only [mem_hostChoices_iff]
  unfold assignments
  simp only
  split
  next h =>
    simp only [LazyList.toList_nil, List.not_mem_nil, false_iff, not_and]
    intro hne hall
    rw [← hforall] at hall
    rcases Bool.or_eq_true _ _ |>.mp h with h | h
    · rw [List.isEmpty_iff, hostChoices, List.map_eq_nil_iff] at h
      exact hne h
    · obtain ⟨cs, hcs, hempty⟩ := List.any_eq_true.mp h
      rw [List.isEmpty_iff] at hempty
      subst hempty
      obtain ⟨j, hj, hcs⟩ := List.getElem_of_mem hcs
      have := hall.get (by rw [hall.length_eq]; exact hj) hj
      rw [List.get_eq_getElem, List.get_eq_getElem, hcs] at this
      simp at this
  next h =>
    rw [mem_combinations, hforall]
    refine ⟨fun hall => ⟨fun hnil => h ?_, hall⟩, And.right⟩
    simp [hnil, hostChoices]

theorem nodup_assignments {hits : List (PlaceId × List Nat)} {indices : List Nat}
    (h : (hits.map (·.1)).Nodup) : (assignments hits indices).toList.Nodup := by
  unfold assignments
  simp only
  split
  · simp
  · refine nodup_combinations fun cs hcs => ?_
    obtain ⟨i, -, rfl⟩ := List.mem_map.mp hcs
    exact h.sublist (List.filter_sublist.map _)

/-- There is no assignment for a redex without roots, or when a root has no vertex. -/
theorem toList_assignments_eq_nil_iff {hits : List (PlaceId × List Nat)} {indices : List Nat} :
    (assignments hits indices).toList = [] ↔
      indices = [] ∨ ∃ i ∈ indices, ∀ hit ∈ hits, i ∉ hit.2 := by
  have hex : (∃ hosts, List.Forall₂ (fun h i => ∃ is, (h, is) ∈ hits ∧ i ∈ is) hosts indices) ↔ _ :=
    exists_forall₂_iff
  rw [List.eq_nil_iff_forall_not_mem, ← not_exists]
  simp only [mem_assignments]
  rw [exists_and_left, hex, not_and_or, not_ne_iff]
  push Not
  simp only [Prod.forall]

/-- Where a vertex is recorded among the hits. -/
def rankIn (hits : List (PlaceId × List Nat)) (v : PlaceId) : Nat := (hits.map (·.1)).idxOf v

theorem pairwise_idxOf {vs : List PlaceId} (h : vs.Nodup) :
    vs.Pairwise fun v w => vs.idxOf v < vs.idxOf w :=
  List.pairwise_iff_getElem.mpr fun i j hi hj hij => by
    rw [h.idxOf_getElem i hi, h.idxOf_getElem j hj]
    exact hij

/-- **The assignments come in the order of the dictionary:** of two, the one comes first that has the
vertex recorded earlier, at the first root where they differ. -/
theorem pairwise_assignments {hits : List (PlaceId × List Nat)} {indices : List Nat}
    (h : (hits.map (·.1)).Nodup) : (assignments hits indices).toList.Pairwise
      (List.Lex fun v w => rankIn hits v < rankIn hits w) := by
  unfold assignments
  simp only
  split
  · simp
  · refine pairwise_combinations fun cs hcs => ?_
    obtain ⟨i, -, rfl⟩ := List.mem_map.mp hcs
    exact (pairwise_idxOf h).sublist (List.filter_sublist.map _)

/-! ### Hits -/

theorem Problem.mem_rootHits {q : Problem} {t : Table} {hit : RootHit} :
    hit ∈ q.rootHits t ↔ hit.host ∈ q.agent.internalPostOrder ∧ hit.root ∈ q.redex.roots ∧
      q.redex.rootIndex hit.root = some hit.index ∧ t.explains hit.host hit.root hit.root := by
  unfold rootHits
  simp only [List.mem_flatMap, List.mem_filterMap]
  constructor
  · rintro ⟨v, hv, r, hr, h⟩
    cases hi : q.redex.rootIndex r with
    | none => simp [hi] at h
    | some i =>
      simp only [hi] at h
      by_cases he : t.explains v r r
      · rw [if_pos he] at h
        cases h
        exact ⟨hv, hr, hi, he⟩
      · rw [if_neg he] at h
        cases h
  · rintro ⟨hv, hr, hi, he⟩
    exact ⟨hit.host, hv, hit.root, hr, by simp [hi, he]⟩

theorem nodup_hitsByVertex (hits : List RootHit) : ((hitsByVertex hits).map (·.1)).Nodup := by
  have : (hitsByVertex hits).map (·.1) = (hits.map (·.host)).eraseDups := by
    simp [hitsByVertex, Function.comp_def]
  rw [this]
  exact nodup_eraseDups _

theorem mem_hitsByVertex {hits : List RootHit} {v : PlaceId} {i : Nat} :
    (∃ is, (v, is) ∈ hitsByVertex hits ∧ i ∈ is) ↔
      ∃ hit ∈ hits, hit.host = v ∧ hit.index = i := by
  unfold hitsByVertex
  simp only [List.mem_map, List.mem_eraseDups, Prod.mk.injEq]
  constructor
  · rintro ⟨is, ⟨w, -, rfl, rfl⟩, hi⟩
    obtain ⟨hit, hm, rfl⟩ := List.mem_map.mp hi
    obtain ⟨hm, hv⟩ := List.mem_filter.mp hm
    exact ⟨hit, hm, by simpa using hv, rfl⟩
  · rintro ⟨hit, hm, rfl, rfl⟩
    refine ⟨_, ⟨hit.host, ⟨hit, hm, rfl⟩, rfl, rfl⟩, ?_⟩
    exact List.mem_map.mpr ⟨hit, List.mem_filter.mpr ⟨hm, by simp⟩, rfl⟩

end Bigraphs
