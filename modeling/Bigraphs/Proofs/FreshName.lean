import Bigraphs.FreshName
import Bigraphs.Proofs.Lists
import Bigraphs.Proofs.Texts

/-! # Generated names are free

Numbers are told apart by their names, so `taken` can block no more numbers than it has members: the
search among `taken.length` numbers ends at a free one (`numbered_firstFree_not_mem`). So a loop that
tries number after number without a bound ends there (`ends_firstFree`). What a supply hands out is all
that is not taken, in the order of the numbers (`HasDrawn`). -/

namespace Bigraphs

theorem numbered_inj {stem : String} {m n : Nat} (h : numbered stem m = numbered stem n) :
    m = n :=
  toString_inj ((String.append_right_inj stem).mp h)

/-- The numbers passed over are taken, and the search only ends at a taken one when it is out of
fuel. -/
theorem firstFreeWithin_spec (stem : String) (taken : List String) (fuel start : Nat) :
    (∀ n, start ≤ n → n < firstFreeWithin stem taken fuel start → numbered stem n ∈ taken) ∧
      (numbered stem (firstFreeWithin stem taken fuel start) ∈ taken →
        firstFreeWithin stem taken fuel start = start + fuel) := by
  induction fuel generalizing start with
  | zero => exact ⟨fun n h1 h2 => absurd h2 (Nat.not_lt.mpr h1), fun _ => rfl⟩
  | succ fuel ih =>
    unfold firstFreeWithin
    split
    next h =>
      obtain ⟨h1, h2⟩ := ih (start + 1)
      refine ⟨fun n hn hlt => ?_, fun hm => by rw [h2 hm]; omega⟩
      rcases Nat.eq_or_lt_of_le hn with rfl | hn
      · exact h
      · exact h1 n hn hlt
    next h => exact ⟨fun n h1 h2 => absurd h2 (Nat.not_lt.mpr h1), fun hm => absurd hm h⟩

theorem le_firstFreeWithin (stem : String) (taken : List String) (fuel start : Nat) :
    start ≤ firstFreeWithin stem taken fuel start := by
  induction fuel generalizing start with
  | zero => exact Nat.le_refl _
  | succ fuel ih =>
    unfold firstFreeWithin
    split
    next => exact Nat.le_of_succ_le (ih (start + 1))
    next => exact Nat.le_refl _

theorem numbered_firstFree_not_mem (stem : String) (taken : List String) (start : Nat) :
    numbered stem (firstFree stem taken start) ∉ taken := by
  intro hmem
  unfold firstFree at hmem
  obtain ⟨h1, h2⟩ := firstFreeWithin_spec stem taken taken.length start
  have hend := h2 hmem
  let names := (List.range (taken.length + 1)).map fun i => numbered stem (start + i)
  have hnd : names.Nodup :=
    List.nodup_range.map fun i j hij => by have := numbered_inj hij; omega
  have hsub : names ⊆ taken := by
    intro s hs
    obtain ⟨i, hi, rfl⟩ := List.mem_map.mp hs
    rw [List.mem_range] at hi
    by_cases hlt : i < taken.length
    · exact h1 _ (by omega) (by omega)
    · rw [hend] at hmem
      rwa [show i = taken.length by omega]
  have hle := (List.subperm_of_subset hnd hsub).length_le
  simp only [names, List.length_map, List.length_range] at hle
  omega

/-- It only matters which names are taken. -/
theorem firstFree_congr (stem : String) {taken taken' : List String}
    (h : ∀ s, s ∈ taken ↔ s ∈ taken') (start : Nat) :
    firstFree stem taken start = firstFree stem taken' start := by
  have hle : ∀ {t t' : List String}, (∀ s, s ∈ t → s ∈ t') →
      firstFree stem t start ≤ firstFree stem t' start := by
    intro t t' hsub
    by_contra hlt
    have htaken := (firstFreeWithin_spec stem t t.length start).1 _
      (le_firstFreeWithin stem t' t'.length start) (Nat.not_le.mp hlt)
    exact numbered_firstFree_not_mem stem t' start (hsub _ htaken)
  exact Nat.le_antisymm (hle fun s => (h s).mp) (hle fun s => (h s).mpr)

/-! ### The search, number by number -/

section Search
variable {σ ρ : Type} {round : σ → Option (σ ⊕ ρ)} {stem : String} {taken : List String}
  {before : Nat → σ} {found : Nat → ρ}
  (skip : ∀ n, numbered stem n ∈ taken → round (before n) = some (.inl (before (n + 1))))
  (stop : ∀ n, numbered stem n ∉ taken → round (before n) = some (.inr (found n)))
include skip stop

theorem ends_firstFreeWithin {fuel start : Nat}
    (hfree : numbered stem (firstFreeWithin stem taken fuel start) ∉ taken) :
    Ends round (before start) (found (firstFreeWithin stem taken fuel start)) := by
  induction fuel generalizing start with
  | zero => exact .now (stop start hfree)
  | succ fuel ih =>
    unfold firstFreeWithin at hfree ⊢
    split at hfree
    next h =>
      rw [if_pos h]
      exact .later (skip start h) (ih hfree)
    next h =>
      rw [if_neg h]
      exact .now (stop start h)

/-- **A loop that tries number after number ends** at the first one that is free, if its rounds pass over
the taken ones and stop at a free one. Its state is `before n` when the number `n` is tried next. -/
theorem ends_firstFree (start : Nat) :
    Ends round (before start) (found (firstFree stem taken start)) :=
  ends_firstFreeWithin skip stop (numbered_firstFree_not_mem stem taken start)

end Search

/-- Of the names up to the first one that is free, those not in `taken` are those below `start` and this
one, if all that is passed over is in `taken`. -/
theorem filter_firstFree {stem : String} {taken blocked : List String} {start : Nat}
    (hpassed : ∀ n, start ≤ n → numbered stem n ∈ blocked → numbered stem n ∈ taken)
    (hsub : taken ⊆ blocked) :
    ((List.range (firstFree stem blocked start + 1)).map (numbered stem)).filter (· ∉ taken) =
      ((List.range start).map (numbered stem)).filter (· ∉ taken) ++
        [numbered stem (firstFree stem blocked start)] := by
  have hfree := numbered_firstFree_not_mem stem blocked start
  have hskipped := (firstFreeWithin_spec stem blocked blocked.length start).1
  obtain ⟨d, hd⟩ := Nat.exists_eq_add_of_le (le_firstFreeWithin stem blocked blocked.length start)
  rw [← firstFree] at hskipped hd
  have hnone : ((List.range d).map (numbered stem ∘ (start + ·))).filter (· ∉ taken) = [] := by
    refine List.filter_eq_nil_iff.mpr fun name hname => ?_
    obtain ⟨i, hi, rfl⟩ := List.mem_map.mp hname
    rw [List.mem_range] at hi
    have hblocked : numbered stem (start + i) ∈ blocked := hskipped _ (by omega) (by omega)
    simpa using hpassed _ (by omega) hblocked
  have hlast : numbered stem (start + d) ∉ taken := fun h => hfree (hd ▸ hsub h)
  rw [hd, Nat.add_assoc, List.range_add, List.range_succ, List.map_append, List.filter_append,
    List.map_map, List.map_append, List.filter_append, hnone]
  simp [hlast]

namespace NameSupply

/-- **The search for a name ends,** with the name that is free and the supply without it. -/
theorem ends_round (s : NameSupply) : Ends round s s.fresh := by
  let before (n : Nat) : NameSupply := { s with next := n }
  let found (n : Nat) : String × NameSupply :=
    (numbered s.stem n, { s with next := n + 1, taken := numbered s.stem n :: s.taken })
  have hskip : ∀ n, numbered s.stem n ∈ s.taken → round (before n) = some (.inl (before (n + 1))) :=
    fun _ h => congrArg some (if_pos h)
  have hstop : ∀ n, numbered s.stem n ∉ s.taken → round (before n) = some (.inr (found n)) :=
    fun _ h => congrArg some (if_neg h)
  exact ends_firstFree hskip hstop s.next

/-- **What a supply has handed out:** the names below the next number, without those taken at the outset.
They are taken now as well. -/
structure HasDrawn (stem : String) (taken names : List String) (s : NameSupply) : Prop where
  stem_eq : s.stem = stem
  names_eq : names = ((List.range s.next).map (numbered stem)).filter (· ∉ taken)
  mem_taken : ∀ name, name ∈ s.taken ↔ name ∈ taken ∨ name ∈ names

variable {stem : String} {taken names : List String} {s : NameSupply}

theorem hasDrawn_new (stem : String) (taken : List String) : HasDrawn stem taken [] (new stem taken) where
  stem_eq := rfl
  names_eq := rfl
  mem_taken name := by simp [new]

/-- One more name is handed out. -/
theorem HasDrawn.fresh (h : HasDrawn stem taken names s) :
    HasDrawn stem taken (names ++ [s.fresh.1]) s.fresh.2 := by
  obtain rfl := h.stem_eq
  -- a number that is still to be tried is not the number of a name handed out
  have hpassed : ∀ n, s.next ≤ n → numbered s.stem n ∈ s.taken → numbered s.stem n ∈ taken := by
    intro n hn hmem
    refine ((h.mem_taken _).mp hmem).resolve_right fun hdrawn => ?_
    rw [h.names_eq] at hdrawn
    obtain ⟨k, hk, hkn⟩ := List.mem_map.mp (List.mem_filter.mp hdrawn).1
    rw [List.mem_range, numbered_inj hkn] at hk
    omega
  have hsub : taken ⊆ s.taken := fun name hname => (h.mem_taken name).mpr (Or.inl hname)
  refine ⟨rfl, ?_, fun name => ?_⟩
  · calc names ++ [s.fresh.1]
        = ((List.range s.next).map (numbered s.stem)).filter (· ∉ taken) ++ [s.fresh.1] := by
          rw [← h.names_eq]
      _ = ((List.range s.fresh.2.next).map (numbered s.stem)).filter (· ∉ taken) :=
          (filter_firstFree hpassed hsub).symm
  · show name ∈ s.fresh.1 :: s.taken ↔ _
    rw [List.mem_cons, h.mem_taken, List.mem_append, List.mem_singleton]
    tauto

theorem HasDrawn.draw (h : HasDrawn stem taken names s) (n : Nat) :
    HasDrawn stem taken (names ++ (s.draw n).1) (s.draw n).2 := by
  induction n generalizing names s with
  | zero => simpa [NameSupply.draw] using h
  | succ n ih => simpa [NameSupply.draw] using ih h.fresh

theorem length_draw (n : Nat) (s : NameSupply) : (s.draw n).1.length = n := by
  induction n generalizing s with
  | zero => rfl
  | succ n ih => exact congrArg (· + 1) (ih s.fresh.2)

theorem HasDrawn.nodup (h : HasDrawn stem taken names s) : names.Nodup := by
  rw [h.names_eq]
  exact (List.nodup_range.map fun _ _ => numbered_inj).filter _

theorem HasDrawn.not_mem (h : HasDrawn stem taken names s) : ∀ name ∈ names, name ∉ taken := by
  intro name hname
  rw [h.names_eq] at hname
  exact of_decide_eq_true (List.mem_filter.mp hname).2

example : ((new "y" ["y1"]).draw 3).1 = ["y0", "y2", "y3"] := by decide

end NameSupply

end Bigraphs
