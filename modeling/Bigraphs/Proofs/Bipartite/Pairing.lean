import Bigraphs.Bipartite.Maximum
import Bigraphs.Proofs.Lists

/-! # Pairings of a bipartite graph

A pairing of a graph keeps the partner of every vertex twice, once on each side. It is valid when the
two agree, along edges of the graph (`Valid`); then its pairs are a matching. No matching has more
pairs when some set of left vertices contains the free ones and is closed under going to a neighbour
and on to the partner of that (`length_le_size`). -/

namespace Bigraphs

/-- **A matching:** edges without a common end, none of them at `heldOut`. -/
structure BipartiteGraph.IsMatching (g : BipartiteGraph) (heldOut : Option Nat)
    (edges : List (Nat × Nat)) : Prop where
  edge : ∀ e ∈ edges, e.2 ∈ g.neighbours e.1
  left_nodup : (edges.map (·.1)).Nodup
  right_nodup : (edges.map (·.2)).Nodup
  not_held : ∀ e ∈ edges, heldOut ≠ some e.1

namespace Pairing

variable {g : BipartiteGraph} {p : Pairing} {x y : Nat}

theorem partner_eq_some_iff : p.partner x = some y ↔ p.left[x]? = some (some y) := by
  unfold partner
  cases p.left[x]? with
  | none => simp
  | some o => simp

theorem lt_of_partner (h : p.partner x = some y) : x < p.left.size :=
  (Array.getElem?_eq_some_iff.mp (partner_eq_some_iff.mp h)).1

theorem lt_of_right {o : Option Nat} (h : p.right[y]? = some o) : y < p.right.size :=
  (Array.getElem?_eq_some_iff.mp h).1

theorem isFree_iff : p.isFree x ↔ p.heldOut ≠ some x ∧ x < p.left.size ∧ p.partner x = none := by
  unfold isFree partner
  rw [Bool.and_eq_true, decide_eq_true_eq, decide_eq_true_eq]
  refine and_congr_right fun _ => ?_
  by_cases hx : x < p.left.size
  · simp [hx]
  · simp [hx]

/-! ### Joining two vertices -/

theorem partner_join (hx : x < p.left.size) (v : Nat) :
    (p.join x y).partner v = if v = x then some y else p.partner v := by
  unfold join partner
  rw [Array.getElem?_setIfInBounds]
  by_cases h : v = x
  · rw [if_pos h.symm, if_pos hx, if_pos h]; rfl
  · rw [if_neg (Ne.symm h), if_neg h]

theorem right_join (hy : y < p.right.size) (w : Nat) :
    (p.join x y).right[w]? = if w = y then some (some x) else p.right[w]? := by
  unfold join
  rw [Array.getElem?_setIfInBounds]
  by_cases h : w = y
  · rw [if_pos h.symm, if_pos hy, if_pos h]
  · rw [if_neg (Ne.symm h), if_neg h]

theorem left_size_join : (p.join x y).left.size = p.left.size := Array.size_setIfInBounds

theorem right_size_join : (p.join x y).right.size = p.right.size := Array.size_setIfInBounds

/-! ### The size -/

theorem mem_pairs : (x, y) ∈ p.pairs ↔ p.partner x = some y := by
  unfold pairs
  rw [List.mem_filterMap]
  constructor
  · rintro ⟨v, -, hv⟩
    obtain ⟨w, hw, heq⟩ := Option.map_eq_some_iff.mp hv
    cases heq
    exact hw
  · exact fun h => ⟨x, List.mem_range.mpr (lt_of_partner h), by rw [h]; rfl⟩

/-- The left vertices that have a partner. -/
def matchedLeft (p : Pairing) : List Nat :=
  (List.range p.left.size).filter fun v => (p.partner v).isSome

theorem map_fst_pairs : p.pairs.map (·.1) = p.matchedLeft := by
  unfold pairs matchedLeft
  induction List.range p.left.size with
  | nil => rfl
  | cons v l ih =>
    cases h : p.partner v with
    | none => simp [h, ih]
    | some w => simp [h, ih]

theorem size_eq : p.size = p.matchedLeft.length := by
  rw [size, ← map_fst_pairs, List.length_map]

theorem mem_matchedLeft : x ∈ p.matchedLeft ↔ ∃ y, p.partner x = some y := by
  unfold matchedLeft
  rw [List.mem_filter, Option.isSome_iff_exists, and_iff_right_of_imp]
  rintro ⟨y, hy⟩
  exact List.mem_range.mpr (lt_of_partner hy)

theorem nodup_matchedLeft : p.matchedLeft.Nodup := List.nodup_range.filter _

theorem size_le : p.size ≤ p.left.size := by
  rw [size_eq]
  exact length_le_of_nodup nodup_matchedLeft fun v hv => by
    obtain ⟨y, hy⟩ := mem_matchedLeft.mp hv
    exact lt_of_partner hy

/-- One more vertex has a partner. -/
theorem size_of_matched {p' : Pairing} (hx : p.partner x = none)
    (h : ∀ v, (∃ y, p'.partner v = some y) ↔ (∃ y, p.partner v = some y) ∨ v = x) :
    p'.size = p.size + 1 := by
  have hperm : p'.matchedLeft.Perm (x :: p.matchedLeft) := by
    rw [List.perm_ext_iff_of_nodup nodup_matchedLeft]
    · intro v
      rw [mem_matchedLeft, h, List.mem_cons, mem_matchedLeft, or_comm]
    · refine List.nodup_cons.mpr ⟨fun hm => ?_, nodup_matchedLeft⟩
      obtain ⟨y, hy⟩ := mem_matchedLeft.mp hm
      rw [hx] at hy
      cases hy
  rw [size_eq, size_eq, hperm.length_eq, List.length_cons]

/-! ### Valid pairings -/

/-- **A pairing of the graph:** partners are mutual and adjacent, and `heldOut` takes no part. -/
structure Valid (g : BipartiteGraph) (p : Pairing) : Prop where
  left_size : p.left.size = g.leftSize
  right_size : p.right.size = g.rightSize
  edge : ∀ {x y}, p.partner x = some y → y ∈ g.neighbours x
  partner_iff : ∀ {x y}, p.partner x = some y ↔ p.right[y]? = some (some x)
  held_free : ∀ {x}, p.heldOut = some x → p.partner x = none

/-- **The partners agree but at `y`,** a right vertex that is nobody's partner, whatever it names. -/
structure ValidBut (g : BipartiteGraph) (y : Nat) (p : Pairing) : Prop where
  edge : ∀ {v w}, p.partner v = some w → w ∈ g.neighbours v
  right_of_partner : ∀ {v w}, p.partner v = some w → p.right[w]? = some (some v)
  partner_of_right : ∀ {v w}, w ≠ y → p.right[w]? = some (some v) → p.partner v = some w
  unclaimed : ∀ {v}, p.partner v ≠ some y

section ValidBut
variable {v w : Nat} (hp : p.ValidBut g y) (hx : x < p.left.size)
include hp hx

theorem ValidBut.edge_join (hxy : y ∈ g.neighbours x) (h : (p.join x y).partner v = some w) :
    w ∈ g.neighbours v := by
  rw [partner_join hx] at h
  split at h
  next hv =>
    cases h
    rw [hv]
    exact hxy
  next => exact hp.edge h

/-- Whoever has a partner afterwards is named by it. -/
theorem ValidBut.right_join_of_partner (hy : y < p.right.size) (h : (p.join x y).partner v = some w) :
    (p.join x y).right[w]? = some (some v) := by
  rw [partner_join hx] at h
  rw [right_join hy]
  split at h
  next hv =>
    cases h
    rw [if_pos rfl, hv]
  next =>
    have hwy : w ≠ y := by
      rintro rfl
      exact hp.unclaimed h
    rw [if_neg hwy, hp.right_of_partner h]

/-- Whom a right vertex names afterwards, that one is its partner, or it is the old partner of `x`. -/
theorem ValidBut.partner_join_of_right (hy : y < p.right.size)
    (h : (p.join x y).right[w]? = some (some v)) :
    (p.join x y).partner v = some w ∨ p.partner x = some w := by
  rw [right_join hy] at h
  rw [partner_join hx]
  split at h
  next hw =>
    obtain rfl : x = v := by simpa using h
    rw [if_pos rfl, hw]
    exact Or.inl rfl
  next hw =>
    have hpartner := hp.partner_of_right hw h
    split
    next hv => exact Or.inr (hv ▸ hpartner)
    next => exact Or.inl hpartner

end ValidBut

section Valid
variable (hp : p.Valid g)
include hp

/-- A right vertex without a partner. -/
theorem Valid.validBut (hy : p.right[y]? = some none) : p.ValidBut g y where
  edge := hp.edge
  right_of_partner := hp.partner_iff.mp
  partner_of_right _ h := hp.partner_iff.mpr h
  unclaimed {v} h := by
    rw [hp.partner_iff, hy] at h
    cases h

theorem Valid.isMatching : g.IsMatching p.heldOut p.pairs where
  edge e he := hp.edge (mem_pairs.mp he)
  left_nodup := by
    rw [map_fst_pairs]
    exact nodup_matchedLeft
  right_nodup := by
    have hnd : (p.pairs.map (·.1)).Nodup := by
      rw [map_fst_pairs]
      exact nodup_matchedLeft
    refine List.Nodup.map_on (fun e he f hf hef => ?_) hnd.of_map
    have h1 := hp.partner_iff.mp (mem_pairs.mp he)
    have h2 := hp.partner_iff.mp (mem_pairs.mp hf)
    rw [hef, h2] at h1
    simp only [Option.some.injEq] at h1
    exact Prod.ext h1.symm hef
  not_held e he hheld := by
    have hpartner := mem_pairs.mp he
    rw [hp.held_free hheld] at hpartner
    cases hpartner

/-- Joining two vertices without partners. -/
theorem Valid.join (hx : x < p.left.size) (hfree : p.partner x = none) (hheld : p.heldOut ≠ some x)
    (hxy : y ∈ g.neighbours x) (hy : p.right[y]? = some none) : (p.join x y).Valid g where
  left_size := by rw [left_size_join, hp.left_size]
  right_size := by rw [right_size_join, hp.right_size]
  edge := (hp.validBut hy).edge_join hx hxy
  partner_iff := by
    refine ⟨(hp.validBut hy).right_join_of_partner hx (lt_of_right hy), fun h =>
      ((hp.validBut hy).partner_join_of_right hx (lt_of_right hy) h).resolve_right ?_⟩
    rw [hfree]
    simp
  held_free {v} h := by
    have hne : v ≠ x := by
      rintro rfl
      exact hheld h
    rw [partner_join hx, if_neg hne]
    exact hp.held_free h

/-- **No matching is larger** when the free vertices lie in a set that is closed under going to a
neighbour and on to its partner. -/
theorem Valid.length_le_size (R : Nat → Prop) (hfree : ∀ x, p.isFree x → R x)
    (hclosed : ∀ x y, R x → y ∈ g.neighbours x → ∃ z, p.right[y]? = some (some z) ∧ R z)
    {edges : List (Nat × Nat)} (hm : g.IsMatching p.heldOut edges) : edges.length ≤ p.size := by
  classical
  -- an edge is charged to the partner of its right end if its left end is in the set
  let charge : Nat × Nat → Nat := fun e => if R e.1 then (p.right[e.2]?.join).getD 0 else e.1
  have hin : ∀ e ∈ edges, R e.1 → p.partner (charge e) = some e.2 ∧ R (charge e) := by
    intro e he hr
    obtain ⟨z, hz, hrz⟩ := hclosed e.1 e.2 hr (hm.edge e he)
    have hcharge : charge e = z := by simp [charge, hr, hz]
    rw [hcharge]
    exact ⟨hp.partner_iff.mpr hz, hrz⟩
  have hout : ∀ e, ¬ R e.1 → charge e = e.1 := fun e hr => if_neg hr
  have hinj : ∀ e ∈ edges, ∀ f ∈ edges, charge e = charge f → e = f := by
    intro e he f hf hef
    by_cases hre : R e.1
    · by_cases hrf : R f.1
      · have h1 := (hin e he hre).1
        rw [hef, (hin f hf hrf).1] at h1
        exact List.inj_on_of_nodup_map hm.right_nodup he hf (Option.some.inj h1).symm
      · have h1 := (hin e he hre).2
        rw [hef, hout f hrf] at h1
        exact absurd h1 hrf
    · by_cases hrf : R f.1
      · have h1 := (hin f hf hrf).2
        rw [← hef, hout e hre] at h1
        exact absurd h1 hre
      · rw [hout e hre, hout f hrf] at hef
        exact List.inj_on_of_nodup_map hm.left_nodup he hf hef
  have hsub : edges.map charge ⊆ p.matchedLeft := by
    intro v hv
    obtain ⟨e, he, rfl⟩ := List.mem_map.mp hv
    rw [mem_matchedLeft]
    by_cases hr : R e.1
    · exact ⟨_, (hin e he hr).1⟩
    · rw [hout e hr]
      have hlt : e.1 < p.left.size := by
        rw [hp.left_size]
        by_contra hge
        have hnone := hm.edge e he
        rw [BipartiteGraph.neighbours, Array.getElem?_eq_none (Nat.not_lt.mp hge)] at hnone
        simp at hnone
      cases hpartner : p.partner e.1 with
      | some y => exact ⟨y, rfl⟩
      | none => exact absurd (hfree _ (isFree_iff.mpr ⟨hm.not_held e he, hlt, hpartner⟩)) hr
  have hnodup : (edges.map charge).Nodup := List.Nodup.map_on hinj hm.left_nodup.of_map
  rw [size_eq]
  simpa using (List.subperm_of_subset hnodup hsub).length_le

end Valid

end Pairing

end Bigraphs
