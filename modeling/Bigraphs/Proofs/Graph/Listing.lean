import Bigraphs.Proofs.Graph.WellFormed

/-! # Roots and sites in order

The roots and the sites are listed by index, and no two of a kind share an index, so the indices grow
strictly along the list (`pairwise_roots`, `pairwise_sites`). A list that grows strictly is determined
by its members (`eq_of_pairwise_index`). -/

namespace Bigraphs

section Index
variable {index : Nat → Option Nat}

/-- Sorted by an index that tells the members apart, a list grows strictly. -/
theorem pairwise_sortBy_index (hinj : ∀ {p q i}, index p = some i → index q = some i → p = q)
    {l : List Nat} (hnd : l.Nodup) (hsome : ∀ p ∈ l, (index p).isSome) :
    (sortBy (fun p q => (index p).getD 0 ≤ (index q).getD 0) l).Pairwise
      fun p q => (index p).getD 0 < (index q).getD 0 := by
  rw [sortBy_eq_insertionSort]
  have hperm := List.perm_insertionSort (fun p q => (index p).getD 0 ≤ (index q).getD 0) l
  have hle := List.pairwise_insertionSort (fun p q => (index p).getD 0 ≤ (index q).getD 0) l
  refine (hle.and (hperm.nodup_iff.mpr hnd)).imp_of_mem fun {p q} hp hq ⟨h, hne⟩ => ?_
  obtain ⟨i, hi⟩ := Option.isSome_iff_exists.mp (hsome p (hperm.mem_iff.mp hp))
  obtain ⟨j, hj⟩ := Option.isSome_iff_exists.mp (hsome q (hperm.mem_iff.mp hq))
  refine Nat.lt_of_le_of_ne h fun heq => hne ?_
  rw [hi, hj] at heq
  have hij : i = j := heq
  exact hinj hi (hij ▸ hj)

/-- Strictly growing lists with the same members are the same. -/
theorem eq_of_pairwise_index {f : Nat → Nat} {l l' : List Nat}
    (hl : l.Pairwise fun p q => f p < f q) (hl' : l'.Pairwise fun p q => f p < f q)
    (h : ∀ p, p ∈ l ↔ p ∈ l') : l = l' := by
  have hnd : ∀ {l : List Nat}, (l.Pairwise fun p q => f p < f q) → l.Nodup := fun hl =>
    hl.imp fun {p q} hlt (heq : p = q) => Nat.ne_of_lt hlt (congrArg f heq)
  refine ((List.perm_ext_iff_of_nodup (hnd hl) (hnd hl')).mpr h).eq_of_pairwise ?_ hl hl'
  exact fun a b _ _ hab hba => absurd (Nat.lt_trans hab hba) (Nat.lt_irrefl _)

/-- Indices that grow along a list grow as a list. -/
theorem pairwise_filterMap_index {l : List Nat}
    (h : l.Pairwise fun p q => (index p).getD 0 < (index q).getD 0) :
    (l.filterMap index).Pairwise (· < ·) := by
  refine List.pairwise_filterMap.mpr (h.imp fun {p q} hlt i hi j hj => ?_)
  rwa [hi, hj] at hlt

end Index

namespace Bigraph

variable {g : Bigraph}

/-- The indices of the roots grow along the list. -/
theorem pairwise_roots (hg : g.WellFormed) :
    g.roots.Pairwise fun p q => (g.rootIndex p).getD 0 < (g.rootIndex q).getD 0 :=
  pairwise_sortBy_index hg.rootIndex_inj (List.nodup_range.filter _)
    fun _ hp => (List.mem_filter.mp hp).2

/-- The indices of the sites grow along the list. -/
theorem pairwise_sites (hg : g.WellFormed) :
    g.sites.Pairwise fun p q => (g.siteIndex p).getD 0 < (g.siteIndex q).getD 0 :=
  pairwise_sortBy_index hg.siteIndex_inj (List.nodup_range.filter _)
    fun _ hp => (List.mem_filter.mp hp).2

end Bigraph

end Bigraphs
