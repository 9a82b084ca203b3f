import Bigraphs.Proofs.Matching.SubtreeIso
import Mathlib.Algebra.Group.End
import Mathlib.Algebra.Group.Subgroup.Lattice

/-! # Symmetries of a bigraph

A symmetry rearranges the nodes so that all stays the same but their numbers and labels. Roots and
sites stay where they are, so a symmetry only moves subtrees among siblings. It keeps shapes
(`Symmetry.shape_eq`). Conversely, siblings with one shape can be exchanged together with all that is
below them (`exists_siblingSwap`): the map of the one subtree onto the other is used both ways, and
since the two hang at one place, this changes no parent (`SubtreeIso.symmetry_of_exchange`). -/

namespace Bigraphs

namespace Bigraph

variable {g : Bigraph}

/-- **A symmetry** keeps parents, controls and the links of ports, and fixes what is no node. -/
structure Symmetry (g : Bigraph) (σ : Equiv.Perm PlaceId) : Prop where
  fixes : ∀ p, g.isNode p = false → σ p = p
  parent_eq : ∀ p, g.parent (σ p) = (g.parent p).map σ
  control_eq : ∀ p, g.control (σ p) = g.control p
  ports_eq : ∀ p, g.ports (σ p) = g.ports p

theorem isNode_eq (p : PlaceId) : g.isNode p = (g.control p).isSome := by
  rw [isNode, control, Option.isSome_map]

namespace Symmetry

variable {σ τ : Equiv.Perm PlaceId}

theorem refl : g.Symmetry 1 := ⟨fun _ _ => rfl, fun p => by simp, fun _ => rfl, fun _ => rfl⟩

theorem mul (hσ : g.Symmetry σ) (hτ : g.Symmetry τ) : g.Symmetry (σ * τ) where
  fixes p hp := by rw [Equiv.Perm.mul_apply, hτ.fixes p hp, hσ.fixes p hp]
  parent_eq p := by
    rw [Equiv.Perm.mul_apply, hσ.parent_eq, hτ.parent_eq, Option.map_map]
    rfl
  control_eq p := by rw [Equiv.Perm.mul_apply, hσ.control_eq, hτ.control_eq]
  ports_eq p := by rw [Equiv.Perm.mul_apply, hσ.ports_eq, hτ.ports_eq]

theorem symm (hσ : g.Symmetry σ) : g.Symmetry σ.symm where
  fixes p hp := (Equiv.symm_apply_eq σ).mpr (hσ.fixes p hp).symm
  parent_eq p := by
    have h := hσ.parent_eq (σ.symm p)
    rw [Equiv.apply_symm_apply] at h
    rw [h, Option.map_map]
    simp
  control_eq p := by
    have h := hσ.control_eq (σ.symm p)
    rwa [Equiv.apply_symm_apply, eq_comm] at h
  ports_eq p := by
    have h := hσ.ports_eq (σ.symm p)
    rwa [Equiv.apply_symm_apply, eq_comm] at h

section Moves
variable (hσ : g.Symmetry σ)
include hσ

theorem isNode_apply (p : PlaceId) : g.isNode (σ p) = g.isNode p := by
  rw [isNode_eq, isNode_eq, hσ.control_eq]

theorem parent_apply {p q : PlaceId} (h : g.parent p = some q) : g.parent (σ p) = some (σ q) := by
  rw [hσ.parent_eq, h]
  rfl

theorem above_apply {a p : PlaceId} (h : g.Above a p) : g.Above (σ a) (σ p) := by
  induction h with
  | single h => exact .single (hσ.parent_apply h)
  | tail _ h ih => exact ih.tail (hσ.parent_apply h)

/-- What lies above a fixed place is fixed. -/
theorem fixes_above {a p : PlaceId} (h : g.AboveEq a p) (hp : σ p = p) : σ a = a := by
  induction h with
  | refl => exact hp
  | tail _ hq ih =>
    refine ih ?_
    have h := hσ.parent_apply hq
    rw [hp, show g.parent _ = _ from hq, Option.some.injEq] at h
    exact h.symm

theorem aboveEq_apply {a p : PlaceId} (h : g.AboveEq a p) : g.AboveEq (σ a) (σ p) := by
  rcases aboveEq_iff.mp h with rfl | h
  · exact .refl
  · exact (hσ.above_apply h).to_reflTransGen

/-- The subtree at a place and the one it is moved to are the same. -/
theorem subtreeIso (p : PlaceId) : g.SubtreeIso p (σ p) σ where
  top := rfl
  bijOn := by
    refine ⟨fun x hx => hσ.aboveEq_apply hx, σ.injective.injOn, fun y hy => ?_⟩
    have hback := hσ.symm.aboveEq_apply hy
    rw [Equiv.symm_apply_apply] at hback
    exact ⟨σ.symm y, hback, σ.apply_symm_apply y⟩
  parent_eq x _ := hσ.parent_eq x
  control_eq x _ := hσ.control_eq x
  ports_eq x _ := hσ.ports_eq x

theorem children_perm (hg : g.WellFormed) (p : PlaceId) :
    (g.children (σ p)).Perm ((g.children p).map σ) :=
  (hσ.subtreeIso p).children_perm hg .refl

theorem shapeWithin_of_eq_some (hg : g.WellFormed) {n : Nat} {p : PlaceId} {s : String}
    (h : g.shapeWithin n p = some s) : g.shapeWithin n (σ p) = some s :=
  (hσ.subtreeIso p).shapeWithin_eq hg .refl h

/-- **A symmetry keeps shapes.** -/
theorem shape_eq (hg : g.WellFormed) (p : PlaceId) : g.shape (σ p) = g.shape p := by
  refine Option.ext fun s => ⟨fun h => ?_, fun h => hσ.shapeWithin_of_eq_some hg h⟩
  have h := hσ.symm.shapeWithin_of_eq_some hg h
  rwa [Equiv.symm_apply_apply] at h

end Moves

end Symmetry

/-! ### Exchanging subtrees -/

/-- A map from one set onto another, one to one, turned into an exchange of the two. -/
theorem exists_exchange {f : PlaceId → PlaceId} {A B : Set PlaceId} (h : Set.BijOn f A B)
    (hdisjoint : ∀ x ∈ A, x ∉ B) : ∃ τ : Equiv.Perm PlaceId,
      (∀ x ∈ A, τ x = f x ∧ τ (f x) = x) ∧ ∀ x, x ∉ A → x ∉ B → τ x = x := by
  classical
  obtain ⟨back, hback⟩ : ∃ back, Set.InvOn back f A B := ⟨_, h.invOn_invFunOn⟩
  let exchange (x : PlaceId) : PlaceId := if x ∈ A then f x else if x ∈ B then back x else x
  have hto : ∀ x ∈ A, exchange x = f x := fun x hx => if_pos hx
  have hfrom : ∀ x ∈ A, exchange (f x) = x := by
    intro x hx
    have hfx : f x ∈ B := h.mapsTo hx
    have hout : f x ∉ A := fun hin => hdisjoint _ hin hfx
    simp only [exchange, if_neg hout, if_pos hfx, hback.1 hx]
  have hout : ∀ x, x ∉ A → x ∉ B → exchange x = x := fun x hxA hxB => by
    simp only [exchange, if_neg hxA, if_neg hxB]
  have htwice : Function.Involutive exchange := by
    intro x
    by_cases hxA : x ∈ A
    · rw [hto x hxA, hfrom x hxA]
    · by_cases hxB : x ∈ B
      · obtain ⟨z, hz, rfl⟩ := h.surjOn hxB
        rw [hfrom z hz, hto z hz]
      · rw [hout x hxA hxB, hout x hxA hxB]
  exact ⟨htwice.toPerm, fun x hx => ⟨hto x hx, hfrom x hx⟩, hout⟩

/-! ### Siblings of one shape -/

/-- **A swap** of two siblings of one shape, together with all that is below them. -/
structure SiblingSwap (g : Bigraph) (a b : PlaceId) (τ : Equiv.Perm PlaceId) : Prop where
  symmetry : g.Symmetry τ
  siblings : g.parent a = g.parent b
  shape_eq : g.shape a = g.shape b
  left : τ a = b
  right : τ b = a
  outside : ∀ x, ¬ g.AboveEq a x → ¬ g.AboveEq b x → τ x = x

/-- The rearrangements that arise from swaps of siblings, one after the other. -/
def swaps (g : Bigraph) : Subgroup (Equiv.Perm PlaceId) :=
  Subgroup.closure {τ | ∃ a b, g.SiblingSwap a b τ}

theorem symmetry_of_mem_swaps {σ : Equiv.Perm PlaceId} (h : σ ∈ g.swaps) : g.Symmetry σ := by
  induction h using Subgroup.closure_induction with
  | mem τ hτ =>
    obtain ⟨a, b, hτ⟩ := hτ
    exact hτ.symmetry
  | one => exact .refl
  | mul σ τ _ _ hσ hτ => exact hσ.mul hτ
  | inv σ _ hσ => exact hσ.symm

section Siblings
variable (hg : g.WellFormed) (hplain : g.PlainNames)
include hg

/-- **An exchange of siblings,** with subtrees that are the same and hold nodes alone, is a symmetry. -/
theorem SubtreeIso.symmetry_of_exchange {a b p : PlaceId} {f : PlaceId → PlaceId}
    {τ : Equiv.Perm PlaceId} (hf : g.SubtreeIso a b f) (hpa : g.parent a = some p)
    (hpb : g.parent b = some p) (hnode : ∀ x, g.AboveEq a x ∨ g.AboveEq b x → g.isNode x)
    (hinside : ∀ x, g.AboveEq a x → τ x = f x ∧ τ (f x) = x)
    (hout : ∀ x, ¬ g.AboveEq a x → ¬ g.AboveEq b x → τ x = x) : g.Symmetry τ := by
  have hτp : τ p = p := by
    refine hout p (fun h => ?_) fun h => ?_
    · exact hg.not_above_self p (.head' hpa h)
    · exact hg.not_above_self p (.head' hpb h)
  -- a place goes by `f`, or it comes back the same way, or it stays
  have hcases : ∀ x, g.AboveEq a x ∨ (∃ z, g.AboveEq a z ∧ f z = x) ∨
      ¬ g.AboveEq a x ∧ ¬ g.AboveEq b x := by
    intro x
    by_cases hax : g.AboveEq a x
    · exact Or.inl hax
    · by_cases hbx : g.AboveEq b x
      · exact Or.inr (Or.inl (hf.bijOn.surjOn hbx))
      · exact Or.inr (Or.inr ⟨hax, hbx⟩)
  exact {
    fixes := fun x hx => by
      refine hout x (fun h => ?_) fun h => ?_
      · exact absurd (hnode x (Or.inl h)) (by rw [hx]; exact Bool.false_ne_true)
      · exact absurd (hnode x (Or.inr h)) (by rw [hx]; exact Bool.false_ne_true)
    parent_eq := fun x => by
      rcases hcases x with hx | ⟨x, hx, rfl⟩ | ⟨hax, hbx⟩
      · rw [(hinside x hx).1]
        rcases aboveEq_iff.mp hx with rfl | habove
        · rw [hf.top, hpb, hpa, Option.map_some, hτp]
        · obtain ⟨q, hq, hqx⟩ := Relation.TransGen.tail'_iff.mp habove
          rw [hf.parent_apply hq hqx, show g.parent x = some q from hqx, Option.map_some,
            (hinside q hq).1]
      · rw [(hinside x hx).2]
        rcases aboveEq_iff.mp hx with rfl | habove
        · rw [hf.top, hpb, hpa, Option.map_some, hτp]
        · obtain ⟨q, hq, hqx⟩ := Relation.TransGen.tail'_iff.mp habove
          rw [hf.parent_apply hq hqx, show g.parent x = some q from hqx, Option.map_some,
            (hinside q hq).2]
      · rw [hout x hax hbx]
        cases hq : g.parent x with
        | none => rfl
        | some q =>
          rw [Option.map_some, hout q (fun h => hax (h.tail hq)) fun h => hbx (h.tail hq)]
    control_eq := fun x => by
      rcases hcases x with hx | ⟨x, hx, rfl⟩ | ⟨hax, hbx⟩
      · rw [(hinside x hx).1, hf.control_eq x hx]
      · rw [(hinside x hx).2, hf.control_eq x hx]
      · rw [hout x hax hbx]
    ports_eq := fun x => by
      rcases hcases x with hx | ⟨x, hx, rfl⟩ | ⟨hax, hbx⟩
      · rw [(hinside x hx).1, hf.ports_eq x hx]
      · rw [(hinside x hx).2, hf.ports_eq x hx]
      · rw [hout x hax hbx] }

include hplain

/-- **Siblings of one shape can be swapped.** -/
theorem exists_siblingSwap {a b p : PlaceId} {s : String} (ha : g.shape a = some s)
    (hb : g.shape b = some s) (hpa : g.parent a = some p) (hpb : g.parent b = some p) (hab : a ≠ b) :
    ∃ τ, g.SiblingSwap a b τ := by
  obtain ⟨f, hf⟩ := exists_subtreeIso hg hplain ha hb
  obtain ⟨τ, hinside, hout⟩ := exists_exchange hf.bijOn fun x hax hbx =>
    hab (eq_of_siblings hg hpa hpb hax hbx)
  obtain ⟨hto, hback⟩ := hinside a .refl
  rw [hf.top] at hto hback
  have hnode : ∀ x, g.AboveEq a x ∨ g.AboveEq b x → g.isNode x := fun x hx =>
    hx.elim (isNode_of_shape hg ha) (isNode_of_shape hg hb)
  exact ⟨τ, hf.symmetry_of_exchange hg hpa hpb hnode hinside hout, hpa.trans hpb.symm,
    ha.trans hb.symm, hto, hback, hout⟩

end Siblings

end Bigraph

end Bigraphs
