import Bigraphs.Proofs.Bipartite.Layers

/-! # The maximum pairing

The greedy start is valid, and every sweep over layers that reach a free right vertex makes at least
one more pair (`sweep_spec`). So within as many sweeps as there are left vertices no free right vertex
is reached any more, and then no matching has more pairs (`maximum_spec`). -/

namespace Bigraphs

namespace BipartiteGraph

open Pairing

variable {g : BipartiteGraph} {p : Pairing} {heldOut : Option Nat}

/-! ### The greedy start -/

/-- The pairing without pairs. -/
def blank (g : BipartiteGraph) (heldOut : Option Nat) : Pairing :=
  ⟨.replicate g.leftSize none, .replicate g.rightSize none, heldOut⟩

theorem partner_blank (heldOut : Option Nat) (x : Nat) : (blank g heldOut).partner x = none := by
  unfold partner blank
  rw [Array.getElem?_replicate]
  split <;> rfl

theorem valid_blank (heldOut : Option Nat) : (blank g heldOut).Valid g where
  left_size := Array.size_replicate
  right_size := Array.size_replicate
  edge h := by
    rw [partner_blank] at h
    cases h
  partner_iff {x y} := by
    rw [partner_blank, blank, Array.getElem?_replicate]
    split <;> simp
  held_free _ := partner_blank heldOut _

theorem size_blank (heldOut : Option Nat) : (blank g heldOut).size = 0 := by
  rw [size_eq, List.length_eq_zero_iff, List.eq_nil_iff_forall_not_mem]
  intro x hx
  obtain ⟨y, hy⟩ := mem_matchedLeft.mp hx
  rw [partner_blank] at hy
  cases hy

/-- One vertex claims a neighbour. -/
theorem claim_spec {x : Nat} (hp : p.Valid g) (hx : x < g.leftSize) (hfree : p.partner x = none) :
    (g.claim p x).Valid g ∧ (g.claim p x).heldOut = p.heldOut ∧
      ∀ v, v ≠ x → (g.claim p x).partner v = p.partner v := by
  unfold claim
  split
  next => exact ⟨hp, rfl, fun _ _ => rfl⟩
  next hne =>
    cases hfind : (g.neighbours x).find? (p.right[·]? = some none) with
    | none => exact ⟨hp, rfl, fun _ _ => rfl⟩
    | some y =>
      have hy : p.right[y]? = some none := by simpa using List.find?_some hfind
      have hlt : x < p.left.size := by rw [hp.left_size]; exact hx
      refine ⟨hp.join hlt hfree hne (List.mem_of_find?_eq_some hfind) hy, rfl, fun v hv => ?_⟩
      rw [partner_join hlt, if_neg hv]

theorem greedy_spec (heldOut : Option Nat) :
    (g.greedy heldOut).Valid g ∧ (g.greedy heldOut).heldOut = heldOut := by
  suffices h : (g.greedy heldOut).Valid g ∧ (g.greedy heldOut).heldOut = heldOut ∧
      ∀ x, x ∉ List.range g.leftSize → (g.greedy heldOut).partner x = none from ⟨h.1, h.2.1⟩
  refine foldl_spec (P := fun done (p : Pairing) => p.Valid g ∧ p.heldOut = heldOut ∧
    ∀ x, x ∉ done → p.partner x = none) ?_ ?_
  · exact ⟨valid_blank heldOut, rfl, fun x _ => partner_blank heldOut x⟩
  · rintro done x rest p hl ⟨hp, hheld, hfree⟩
    have hx : x ∈ List.range g.leftSize := by rw [hl]; simp
    have hxdone : x ∉ done := not_mem_before List.nodup_range hl
    obtain ⟨hclaim, hsame, hothers⟩ := claim_spec hp (List.mem_range.mp hx) (hfree x hxdone)
    refine ⟨hclaim, hsame.trans hheld, fun v hv => ?_⟩
    rw [List.mem_append, List.mem_singleton, not_or] at hv
    rw [hothers v hv.2, hfree v hv.1]

/-! ### One sweep -/

/-- The state of a sweep that started from `p`, after the turns of the vertices `done`. Until a path is
found, nothing on the way down from `x₀` is taken out of the layers. -/
structure Swept (g : BipartiteGraph) (p : Pairing) (depth : Array (Option Nat)) (target x₀ : Nat)
    (done : List Nat) (s : Sweep) : Prop where
  valid : s.pairing.Valid g
  heldOut_eq : s.pairing.heldOut = p.heldOut
  shrinks : Shrinks depth s.depth
  isFree : ∀ x, s.pairing.isFree x → p.isFree x
  more : p.size < s.pairing.size ∨
    s.pairing = p ∧ x₀ ∉ done ∧ Reaches g p s.depth target 0 x₀

section Sweep
variable {depth : Array (Option Nat)} {target x₀ : Nat} (htarget : target ≤ g.leftSize + 1)
  (hzero : ∀ x : Nat, depth[x]? = some (some 0) ↔ p.isFree x)
include hzero

/-- A vertex that is not free is passed over. -/
theorem Swept.skip {done : List Nat} {s : Sweep} {x : Nat} (h : Swept g p depth target x₀ done s)
    (hx : s.pairing.isFree x = false) : Swept g p depth target x₀ (done ++ [x]) s where
  valid := h.valid
  heldOut_eq := h.heldOut_eq
  shrinks := h.shrinks
  isFree := h.isFree
  more := by
    refine h.more.imp_right fun ⟨heq, hdone, hr⟩ => ⟨heq, fun hmem => ?_, hr⟩
    rcases List.mem_append.mp hmem with hmem | hmem
    · exact hdone hmem
    · have hfree := (hzero x₀).mp (h.shrinks x₀ 0 hr.depth_eq)
      rw [List.mem_singleton.mp hmem, ← heq, hx] at hfree
      cases hfree

include htarget

/-- From a free vertex a path is sought. -/
theorem Swept.seek {done : List Nat} {s : Sweep} {x : Nat} (h : Swept g p depth target x₀ done s)
    (hx : s.pairing.isFree x) :
    Swept g p depth target x₀ (done ++ [x]) (g.augment target (g.leftSize + 1) 0 x s).2 := by
  obtain ⟨hne, hlt, hpartner⟩ := isFree_iff.mp hx
  have hlevel : OnLevel s.depth 0 x := fun e he => by
    have hxe := h.shrinks x e he
    rw [(hzero x).mpr (h.isFree x hx)] at hxe
    simp only [Option.some.injEq] at hxe
    exact hxe.symm
  have hfuel : target ≤ 0 + (g.leftSize + 1) := by omega
  have hsought := augment_spec hfuel h.valid hlt hlevel
  generalize g.augment target (g.leftSize + 1) 0 x s = r at hsought
  obtain ⟨found, s'⟩ := r
  have hshrinks : Shrinks depth s'.depth := fun z e hz => h.shrinks z e (hsought.shrinks z e hz)
  cases found with
  | true =>
    have hturned : Turned g s.depth 0 x s.pairing s'.pairing := hsought.turned rfl
    refine ⟨hturned.valid h.valid hpartner hne, hturned.heldOut_eq.trans h.heldOut_eq, hshrinks,
      fun z hz => h.isFree z (hturned.isFree hz), Or.inl ?_⟩
    · change p.size < s'.pairing.size
      have hsize := hturned.size_eq hpartner
      rcases h.more with hmore | ⟨heq, -⟩
      · omega
      · rw [heq] at hsize
        omega
  | false =>
    have hpairing : s'.pairing = s.pairing := hsought.pairing_eq rfl
    have hkept := hsought.kept rfl
    have hno := hsought.exhausted rfl
    refine ⟨by rw [hpairing]; exact h.valid, by rw [hpairing]; exact h.heldOut_eq, hshrinks,
      by rw [hpairing]; exact h.isFree, ?_⟩
    rw [hpairing]
    refine h.more.imp_right fun ⟨heq, hdone, hr⟩ => ?_
    rw [heq] at hkept hno
    refine ⟨heq, fun hmem => ?_, hkept 0 x₀ hr⟩
    rcases List.mem_append.mp hmem with hmem | hmem
    · exact hdone hmem
    · exact hno (by rw [← List.mem_singleton.mp hmem]; exact hr)

/-- **A sweep makes at least one more pair** when the layers reach a free right vertex. -/
theorem sweep_spec (hp : p.Valid g) (hreach : ∃ x, Reaches g p depth target 0 x) :
    (g.sweep target ⟨p, depth⟩).pairing.Valid g ∧
      (g.sweep target ⟨p, depth⟩).pairing.heldOut = p.heldOut ∧
      p.size < (g.sweep target ⟨p, depth⟩).pairing.size := by
  obtain ⟨x₀, hx₀⟩ := hreach
  have h : Swept g p depth target x₀ (List.range g.leftSize) (g.sweep target ⟨p, depth⟩) := by
    refine foldl_spec (P := fun done s => Swept g p depth target x₀ done s) ?_ ?_
    · exact ⟨hp, rfl, fun _ _ h => h, fun _ h => h, Or.inr ⟨rfl, by simp, hx₀⟩⟩
    · rintro done x rest s - hs
      split
      next hx => exact hs.seek htarget hzero hx
      next hx => exact hs.skip hzero (by simpa using hx)
  refine ⟨h.valid, h.heldOut_eq, h.more.resolve_right ?_⟩
  rintro ⟨-, hdone, -⟩
  refine hdone (List.mem_range.mpr ?_)
  rw [← hp.left_size]
  exact (isFree_iff.mp ((hzero x₀).mp hx₀.depth_eq)).2.1

end Sweep

/-! ### All sweeps -/

theorem improve_spec (hg : g.InRange) {fuel : Nat} (hp : p.Valid g)
    (hfuel : g.leftSize < p.size + fuel) :
    (g.improve fuel p).Valid g ∧ (g.improve fuel p).heldOut = p.heldOut ∧
      ∀ edges, g.IsMatching p.heldOut edges → edges.length ≤ (g.improve fuel p).size := by
  induction fuel generalizing p with
  | zero =>
    have := p.size_le
    rw [hp.left_size] at this
    omega
  | succ fuel ih =>
    have hsurveyed := layers_spec hg hp
    unfold improve
    generalize g.layers p = r at hsurveyed
    obtain ⟨depth, target⟩ := r
    cases target with
    | none =>
      obtain ⟨hfree, hclosed⟩ := hsurveyed
      refine ⟨hp, rfl, fun edges hm => hp.length_le_size (fun x => ∃ e, depth[x]? = some (some e))
        hfree (fun x y hx hy => ?_) hm⟩
      obtain ⟨e, he⟩ := hx
      obtain ⟨z, e', hz, he'⟩ := hclosed x e y he hy
      exact ⟨z, hz, e', he'⟩
    | some target =>
      obtain ⟨htarget, hzero, hreach⟩ := hsurveyed
      obtain ⟨hv, hheld, hsize⟩ := sweep_spec htarget hzero hp hreach
      obtain ⟨hv', hheld', hmax⟩ := ih hv (by omega)
      refine ⟨hv', hheld'.trans hheld, fun edges hm => hmax edges ?_⟩
      rw [hheld]
      exact hm

/-- **The maximum pairing is a matching, and no matching has more pairs.** -/
theorem maximum_spec (hg : g.InRange) (heldOut : Option Nat) :
    (g.maximum heldOut).Valid g ∧ (g.maximum heldOut).heldOut = heldOut ∧
      ∀ edges, g.IsMatching heldOut edges → edges.length ≤ (g.maximum heldOut).size := by
  obtain ⟨hp, hheld⟩ := greedy_spec (g := g) heldOut
  have hfuel : g.leftSize < (g.greedy heldOut).size + (g.leftSize + 1) := by omega
  have h := improve_spec hg hp hfuel
  rw [hheld] at h
  exact h

end BipartiteGraph

end Bigraphs
