import Bigraphs.Proofs.Bipartite.Pairing

/-! # Augmenting paths

While a path is turned over, the right vertex that its lower part came from still names its old
partner. `Turned` says what such a pairing looks like when the path starts from `x`: it becomes valid
when `x` had no partner (`Turned.valid`), and one more join extends the path upwards (`Turned.join`).
Each join is with a right vertex that is nobody's partner at the time (`turned_of_validBut`). What keeps
the parts of the path apart are the layers: below `x` only deeper vertices are touched.

A search that fails changes no pair, and only takes vertices out of the layers that lead nowhere
(`augment_spec`). -/

namespace Bigraphs

namespace BipartiteGraph

open Pairing

variable {g : BipartiteGraph} {p p' : Pairing} {depth depth' : Array (Option Nat)} {target d x y : Nat}

/-- Vertices have been taken out of the layers, and nothing else has changed. -/
def Shrinks (depth depth' : Array (Option Nat)) : Prop :=
  ∀ (z e : Nat), depth'[z]? = some (some e) → depth[z]? = some (some e)

/-- **A path from `x` has been turned over,** where `x` is at distance `d`. -/
structure Turned (g : BipartiteGraph) (depth : Array (Option Nat)) (d x : Nat) (p p' : Pairing) :
    Prop where
  left_size : p'.left.size = p.left.size
  right_size : p'.right.size = p.right.size
  heldOut_eq : p'.heldOut = p.heldOut
  matched : ∀ v, (∃ y, p'.partner v = some y) ↔ (∃ y, p.partner v = some y) ∨ v = x
  edge : ∀ {v y}, p'.partner v = some y → y ∈ g.neighbours v
  right_of_partner : ∀ {v y}, p'.partner v = some y → p'.right[y]? = some (some v)
  partner_of_right : ∀ {v y}, p'.right[y]? = some (some v) →
    p'.partner v = some y ∨ p.partner x = some y
  moved : ∀ {y}, p.partner x = some y → p'.partner x ≠ some y
  stale : ∀ {y}, p.partner x = some y → p'.right[y]? = some (some x)
  left_frame : ∀ v, p'.partner v ≠ p.partner v →
    v = x ∨ ∃ e, depth[v]? = some (some e) ∧ d < e
  right_frame : ∀ y : Nat, p'.right[y]? ≠ p.right[y]? → p.right[y]? = some none ∨
    ∃ z e, p.right[y]? = some (some z) ∧ depth[z]? = some (some e) ∧ d < e

theorem Turned.of_shrinks (h : Turned g depth' d x p p') (hs : Shrinks depth depth') :
    Turned g depth d x p p' where
  left_size := h.left_size
  right_size := h.right_size
  heldOut_eq := h.heldOut_eq
  matched := h.matched
  edge := h.edge
  right_of_partner := h.right_of_partner
  partner_of_right := h.partner_of_right
  moved := h.moved
  stale := h.stale
  left_frame v hv := (h.left_frame v hv).imp_right fun ⟨e, he, hde⟩ => ⟨e, hs v e he, hde⟩
  right_frame y hy := (h.right_frame y hy).imp_right
    fun ⟨z, e, hz, he, hde⟩ => ⟨z, e, hz, hs z e he, hde⟩

/-- A path from a vertex that had no partner makes a valid pairing. -/
theorem Turned.valid (h : Turned g depth d x p p') (hp : p.Valid g) (hx : p.partner x = none)
    (hheld : p.heldOut ≠ some x) : p'.Valid g where
  left_size := by rw [h.left_size, hp.left_size]
  right_size := by rw [h.right_size, hp.right_size]
  edge := h.edge
  partner_iff := by
    refine ⟨h.right_of_partner, fun hy => (h.partner_of_right hy).resolve_right ?_⟩
    rw [hx]
    simp
  held_free {v} hv := by
    rw [h.heldOut_eq] at hv
    cases hpartner : p'.partner v with
    | none => rfl
    | some y =>
      rcases (h.matched v).mp ⟨y, hpartner⟩ with ⟨w, hw⟩ | rfl
      · rw [hp.held_free hv] at hw
        cases hw
      · exact absurd hv hheld

/-- No vertex loses its partner. -/
theorem Turned.isFree (h : Turned g depth d x p p') {v : Nat} (hv : p'.isFree v) : p.isFree v := by
  obtain ⟨h1, h2, h3⟩ := isFree_iff.mp hv
  refine isFree_iff.mpr ⟨by rwa [← h.heldOut_eq], by rwa [← h.left_size], ?_⟩
  cases hv' : p.partner v with
  | none => rfl
  | some y =>
    obtain ⟨w, hw⟩ := (h.matched v).mpr (Or.inl ⟨y, hv'⟩)
    rw [h3] at hw
    cases hw

theorem Turned.size_eq (h : Turned g depth d x p p') (hx : p.partner x = none) :
    p'.size = p.size + 1 :=
  size_of_matched hx h.matched

/-- `x` is at distance `d`, or has been taken out of the layers. -/
def OnLevel (depth : Array (Option Nat)) (d x : Nat) : Prop :=
  ∀ e, depth[x]? = some (some e) → e = d

theorem OnLevel.of_shrinks (h : OnLevel depth d x) (hs : Shrinks depth depth') :
    OnLevel depth' d x :=
  fun e he => h e (hs x e he)

/-- The start `x` is joined with `y`, which nobody below it on the path has as partner. -/
theorem turned_of_validBut (hp' : p'.ValidBut g y) (hlt : x < p'.left.size) (hy : y < p'.right.size)
    (hxy : y ∈ g.neighbours x) (hleft : p'.left.size = p.left.size)
    (hright : p'.right.size = p.right.size) (hheld : p'.heldOut = p.heldOut)
    (hx : p'.partner x = p.partner x)
    (hmatched : ∀ v, (∃ w, p'.partner v = some w) ↔ ∃ w, p.partner v = some w)
    (hleft_frame : ∀ v, p'.partner v ≠ p.partner v → ∃ e, depth[v]? = some (some e) ∧ d < e)
    (hright_frame : ∀ w : Nat, w = y ∨ p'.right[w]? ≠ p.right[w]? → p.right[w]? = some none ∨
      ∃ z e, p.right[w]? = some (some z) ∧ depth[z]? = some (some e) ∧ d < e) :
    Turned g depth d x p (p'.join x y) where
  left_size := by rw [left_size_join, hleft]
  right_size := by rw [right_size_join, hright]
  heldOut_eq := hheld
  matched v := by
    rw [partner_join hlt]
    by_cases hv : v = x
    · simp [hv]
    · simp [hv, hmatched]
  edge := hp'.edge_join hlt hxy
  right_of_partner := hp'.right_join_of_partner hlt hy
  partner_of_right h := hx ▸ hp'.partner_join_of_right hlt hy h
  moved {w} hw := by
    rw [partner_join hlt, if_pos rfl]
    rintro ⟨rfl⟩
    exact hp'.unclaimed (hx.trans hw)
  stale {w} hw := by
    have hwy : w ≠ y := by
      rintro rfl
      exact hp'.unclaimed (hx.trans hw)
    rw [right_join hy, if_neg hwy]
    exact hp'.right_of_partner (hx.trans hw)
  left_frame v hv := by
    rw [partner_join hlt] at hv
    by_cases hvx : v = x
    · exact Or.inl hvx
    · rw [if_neg hvx] at hv
      exact Or.inr (hleft_frame v hv)
  right_frame w hw := by
    rw [right_join hy] at hw
    by_cases hwy : w = y
    · exact hright_frame w (Or.inl hwy)
    · rw [if_neg hwy] at hw
      exact hright_frame w (Or.inr hw)

/-- The end of a path: an edge to a right vertex without a partner. -/
theorem turned_join (hp : p.Valid g) (hlt : x < p.left.size) (hxy : y ∈ g.neighbours x)
    (hy : p.right[y]? = some none) : Turned g depth d x p (p.join x y) := by
  refine turned_of_validBut (hp.validBut hy) hlt (lt_of_right hy) hxy rfl rfl rfl rfl
    (fun _ => Iff.rfl) (fun v hv => absurd rfl hv) fun w hw => ?_
  obtain rfl := hw.resolve_right fun hne => hne rfl
  exact Or.inl hy

section Below
variable {z : Nat} (h : Turned g depth (d + 1) z p p')
include h

/-- Below `z`, only the old partner of `z` is left with a wrong name. -/
theorem Turned.validBut (hyz : p.partner z = some y) : p'.ValidBut g y where
  edge := h.edge
  right_of_partner := h.right_of_partner
  partner_of_right {v w} hwy hw := by
    refine (h.partner_of_right hw).resolve_right fun hzw => hwy ?_
    rw [hyz, Option.some.injEq] at hzw
    exact hzw.symm
  unclaimed {v} hv := by
    -- `y` still names `z`, and `z` has moved on
    have hvz := (h.stale hyz).symm.trans (h.right_of_partner hv)
    obtain rfl : z = v := by simpa using hvz
    exact h.moved hyz hv

/-- The path below does not touch the layers above it. -/
theorem Turned.partner_above (hz : depth[z]? = some (some (d + 1))) (hx : OnLevel depth d x) :
    p'.partner x = p.partner x := by
  by_contra hne
  rcases h.left_frame x hne with rfl | ⟨e, he, hde⟩
  · have := hx _ hz
    omega
  · have := hx e he
    omega

/-- Who had a partner before the path was turned over has one afterwards. -/
theorem Turned.matched_of_partner (hyz : p.partner z = some y) (v : Nat) :
    (∃ w, p'.partner v = some w) ↔ ∃ w, p.partner v = some w := by
  rw [h.matched]
  refine or_iff_left_of_imp ?_
  rintro rfl
  exact ⟨y, hyz⟩

/-- The path below only moves deeper vertices. -/
theorem Turned.deeper_of_partner_ne (hz : depth[z]? = some (some (d + 1))) {v : Nat}
    (hv : p'.partner v ≠ p.partner v) : ∃ e, depth[v]? = some (some e) ∧ d < e := by
  rcases h.left_frame v hv with rfl | ⟨e, he, hde⟩
  · exact ⟨d + 1, hz, Nat.lt_succ_self d⟩
  · exact ⟨e, he, Nat.lt_of_succ_lt hde⟩

/-- **A path is extended upwards** by an edge to the right vertex that its start `z` was paired with. -/
theorem Turned.join (hp : p.Valid g) (hlt : x < p.left.size) (hxy : y ∈ g.neighbours x)
    (hy : p.right[y]? = some (some z)) (hz : depth[z]? = some (some (d + 1)))
    (hx : OnLevel depth d x) : Turned g depth d x p (p'.join x y) := by
  have hyz := hp.partner_iff.mpr hy
  refine turned_of_validBut (h.validBut hyz) (h.left_size ▸ hlt) (h.right_size ▸ lt_of_right hy) hxy
    h.left_size h.right_size h.heldOut_eq (h.partner_above hz hx) (h.matched_of_partner hyz)
    (fun v hv => h.deeper_of_partner_ne hz hv) fun w hw => ?_
  rcases hw with rfl | hw
  · exact Or.inr ⟨z, d + 1, hy, hz, Nat.lt_succ_self d⟩
  · exact (h.right_frame w hw).imp_right fun ⟨v, e, hv, he, hde⟩ =>
      ⟨v, e, hv, he, Nat.lt_of_succ_lt hde⟩

end Below

/-! ### Paths through the layers -/

/-- A path goes down from `x`, one layer with each pair, to a right vertex without a partner at
distance `target`. -/
inductive Reaches (g : BipartiteGraph) (p : Pairing) (depth : Array (Option Nat)) (target : Nat) :
    Nat → Nat → Prop where
  | last {d x y : Nat} : depth[x]? = some (some d) → y ∈ g.neighbours x → p.right[y]? = some none →
      d + 1 = target → Reaches g p depth target d x
  | step {d x y z : Nat} : depth[x]? = some (some d) → y ∈ g.neighbours x →
      p.right[y]? = some (some z) → Reaches g p depth target (d + 1) z → Reaches g p depth target d x

theorem Reaches.depth_eq (h : Reaches g p depth target d x) : depth[x]? = some (some d) := by
  cases h with
  | last hx => exact hx
  | step hx => exact hx

theorem Reaches.lt (h : Reaches g p depth target d x) : d < target := by
  induction h with
  | last _ _ _ hd => omega
  | step _ _ _ _ ih => omega

theorem Reaches.mono (h : Reaches g p depth' target d x) (hs : Shrinks depth depth') :
    Reaches g p depth target d x := by
  induction h with
  | last hx hy hfree hd => exact .last (hs _ _ hx) hy hfree hd
  | step hx hy hz _ ih => exact .step (hs _ _ hx) hy hz ih

theorem shrinks_erase : Shrinks depth (depth.setIfInBounds x none) := by
  intro z e h
  rw [Array.getElem?_setIfInBounds] at h
  split at h
  · split at h
    · simp at h
    · cases h
  · exact h

/-- A vertex that leads nowhere is on no path. -/
theorem Reaches.erase {e z : Nat} (h : Reaches g p depth target e z) (hd : OnLevel depth d x)
    (hx : ¬ Reaches g p depth target d x) :
    Reaches g p (depth.setIfInBounds x none) target e z := by
  have hkeep : ∀ {e z}, Reaches g p depth target e z →
      (depth.setIfInBounds x none)[z]? = some (some e) := by
    intro e z h
    rw [Array.getElem?_setIfInBounds, if_neg, h.depth_eq]
    rintro rfl
    rw [hd e h.depth_eq] at h
    exact hx h
  induction h with
  | last hz hy hfree htarget => exact .last (hkeep (.last hz hy hfree htarget)) hy hfree htarget
  | step hz hy hw hrest ih => exact .step (hkeep (.step hz hy hw hrest)) hy hw ih

/-! ### The search -/

/-- What seeking a path from `x`, a vertex at distance `d`, does. -/
structure Sought (g : BipartiteGraph) (target d x : Nat) (s : Sweep) (r : Bool × Sweep) : Prop where
  shrinks : Shrinks s.depth r.2.depth
  turned : r.1 = true → Turned g s.depth d x s.pairing r.2.pairing
  pairing_eq : r.1 = false → r.2.pairing = s.pairing
  exhausted : r.1 = false → ¬ Reaches g s.pairing s.depth target d x
  kept : r.1 = false → ∀ e z, Reaches g s.pairing s.depth target e z →
    Reaches g s.pairing r.2.depth target e z

/-- The edge from a vertex at distance `d` to `y` leads on to a right vertex without a partner. -/
def Leads (g : BipartiteGraph) (target d : Nat) (s : Sweep) (y : Nat) : Prop :=
  (s.pairing.right[y]? = some none ∧ d + 1 = target) ∨
    ∃ z, s.pairing.right[y]? = some (some z) ∧ Reaches g s.pairing s.depth target (d + 1) z

theorem Reaches.exists_leads {s : Sweep} (h : Reaches g s.pairing s.depth target d x) :
    ∃ y ∈ g.neighbours x, Leads g target d s y := by
  cases h with
  | last _ hy hfree htarget => exact ⟨_, hy, Or.inl ⟨hfree, htarget⟩⟩
  | step _ hy hz hrest => exact ⟨_, hy, Or.inr ⟨_, hz, hrest⟩⟩

/-- What an edge to a paired vertex leads on to. -/
theorem leads_iff_of_paired {s : Sweep} {z : Nat} (hy : s.pairing.right[y]? = some (some z)) :
    Leads g target d s y ↔ Reaches g s.pairing s.depth target (d + 1) z := by
  constructor
  · rintro (⟨hfree, -⟩ | ⟨v, hv, hreach⟩)
    · rw [hfree] at hy
      cases hy
    · rw [hv, Option.some.injEq, Option.some.injEq] at hy
      rwa [← hy]
  · exact fun h => Or.inr ⟨z, hy, h⟩

section Failed

variable {s s' : Sweep} {z : Nat} (h : Sought g target (d + 1) z s (false, s'))
include h

/-- A failed search opens no edge. -/
theorem Leads.of_failed (hy : Leads g target d s' y) : Leads g target d s y := by
  have hpairing : s'.pairing = s.pairing := h.pairing_eq rfl
  unfold Leads at hy ⊢
  rw [hpairing] at hy
  exact hy.imp_right fun ⟨v, hv, hreach⟩ => ⟨v, hv, hreach.mono h.shrinks⟩

/-- **A search that has failed, and another one after it.** -/
theorem Sought.of_failed {r : Bool × Sweep} (hnext : Sought g target d x s' r) :
    Sought g target d x s r := by
  have hpairing : s'.pairing = s.pairing := h.pairing_eq rfl
  have hshrinks : Shrinks s.depth s'.depth := h.shrinks
  exact {
    shrinks := fun v e hv => hshrinks v e (hnext.shrinks v e hv)
    turned := fun hr => by
      have hturned := (hnext.turned hr).of_shrinks hshrinks
      rwa [hpairing] at hturned
    pairing_eq := fun hr => by rw [hnext.pairing_eq hr, hpairing]
    exhausted := fun hr hreach => by
      have hno := hnext.exhausted hr
      rw [hpairing] at hno
      exact hno (h.kept rfl d x hreach)
    kept := fun hr e v hreach => by
      have hkept := hnext.kept hr e v
      rw [hpairing] at hkept
      exact hkept (h.kept rfl e v hreach) }

end Failed

/-- **The edges of `x` are tried in turn,** after some that lead nowhere. -/
theorem tryEdges_spec {deeper : Nat → Sweep → Bool × Sweep}
    (hdeeper : ∀ z s, s.pairing.Valid g → s.depth[z]? = some (some (d + 1)) →
      z < s.pairing.left.size → Sought g target (d + 1) z s (deeper z s))
    {ys : List Nat} {s : Sweep} (hp : s.pairing.Valid g) (hx : x < s.pairing.left.size)
    (hd : OnLevel s.depth d x) (hys : ∀ y ∈ ys, y ∈ g.neighbours x)
    (hrest : ∀ y ∈ g.neighbours x, y ∉ ys → ¬ Leads g target d s y) :
    Sought g target d x s (tryEdges deeper target d x ys s) := by
  induction ys generalizing s with
  | nil =>
    have hno : ¬ Reaches g s.pairing s.depth target d x := fun h => by
      obtain ⟨y, hy, hleads⟩ := h.exists_leads
      exact hrest y hy (by simp) hleads
    exact ⟨shrinks_erase, by simp [tryEdges], fun _ => rfl, fun _ => hno,
      fun _ e z h => h.erase hd hno⟩
  | cons y ys ih =>
    have hxy := hys y (by simp)
    have hys' : ∀ w ∈ ys, w ∈ g.neighbours x := fun w hw => hys w (by simp [hw])
    have hrest' : ¬ Leads g target d s y →
        ∀ w ∈ g.neighbours x, w ∉ ys → ¬ Leads g target d s w := fun hy w hw hwys => by
      by_cases hwy : w = y
      · rw [hwy]
        exact hy
      · exact hrest w hw (by simp [hwy, hwys])
    have hskip : ¬ Leads g target d s y →
        Sought g target d x s (tryEdges deeper target d x ys s) := fun hy =>
      ih hp hx hd hys' (hrest' hy)
    unfold tryEdges
    cases hright : s.pairing.right[y]? with
    | none => exact hskip (by simp [Leads, hright])
    | some o =>
      cases o with
      | none =>
        simp only
        split
        next htarget =>
          exact ⟨fun _ _ h => h, fun _ => turned_join hp hx hxy hright, by simp, by simp, by simp⟩
        next htarget => exact hskip (by simp [Leads, hright, htarget])
      | some z =>
        simp only
        split
        next hz =>
          have hlt : z < s.pairing.left.size := lt_of_partner (hp.partner_iff.mpr hright)
          have hsought := hdeeper z s hp hz hlt
          generalize deeper z s = r at hsought
          obtain ⟨found, s'⟩ := r
          cases found with
          | true =>
            exact ⟨hsought.shrinks, fun _ => (hsought.turned rfl).join hp hx hxy hright hz hd,
              by simp, by simp, by simp⟩
          | false =>
            -- the search below has failed: go on with the edges that are left
            have hpairing : s'.pairing = s.pairing := hsought.pairing_eq rfl
            have hy : ¬ Leads g target d s y := by
              rw [leads_iff_of_paired hright]
              exact hsought.exhausted rfl
            refine Sought.of_failed hsought (ih (by rw [hpairing]; exact hp)
              (by rw [hpairing]; exact hx) (hd.of_shrinks hsought.shrinks) hys' ?_)
            exact fun w hw hwys hleads => hrest' hy w hw hwys (Leads.of_failed hsought hleads)
        next hz =>
          refine hskip ?_
          rw [leads_iff_of_paired hright]
          exact fun hreach => hz hreach.depth_eq

/-- **The search for an augmenting path** succeeds if there is one through the layers. -/
theorem augment_spec {fuel : Nat} {s : Sweep} (hfuel : target ≤ d + fuel) (hp : s.pairing.Valid g)
    (hx : x < s.pairing.left.size) (hd : OnLevel s.depth d x) :
    Sought g target d x s (g.augment target fuel d x s) := by
  induction fuel generalizing d x s with
  | zero =>
    refine ⟨fun _ _ h => h, by simp [augment], fun _ => rfl, fun _ h => ?_, fun _ _ _ h => h⟩
    have := h.lt
    omega
  | succ fuel ih =>
    unfold augment
    refine tryEdges_spec (fun z s hp hz hlt => ih (by omega) hp hlt fun e he => ?_) hp hx hd
      (fun _ h => h) fun y hy hn => absurd hy hn
    rw [hz] at he
    simp only [Option.some.injEq] at he
    exact he.symm

/-! ### What a search leaves alone -/

/-- Nothing has been taken out of the layers down to distance `d`, but perhaps `x`. -/
structure Spares (d x : Nat) (depth depth' : Array (Option Nat)) : Prop where
  size_eq : depth'.size = depth.size
  kept : ∀ z e : Nat, z ≠ x → e ≤ d → depth[z]? = some (some e) → depth'[z]? = some (some e)

/-- The search from a vertex of the next layer takes nothing out of the layers above it. -/
theorem Spares.above {z : Nat} (h : Spares (d + 1) z depth depth')
    (hz : depth[z]? = some (some (d + 1))) {w e : Nat} (he : e ≤ d)
    (hw : depth[w]? = some (some e)) : depth'[w]? = some (some e) := by
  refine h.kept w e ?_ (by omega) hw
  rintro rfl
  rw [hz] at hw
  simp only [Option.some.injEq] at hw
  omega

theorem spares_tryEdges {deeper : Nat → Sweep → Bool × Sweep}
    (hdeeper : ∀ z s, s.depth[z]? = some (some (d + 1)) →
      Spares (d + 1) z s.depth (deeper z s).2.depth) (ys : List Nat) (s : Sweep) :
    Spares d x s.depth (tryEdges deeper target d x ys s).2.depth := by
  have hrefl : ∀ depth, Spares d x depth depth := fun _ => ⟨rfl, fun _ _ _ _ h => h⟩
  induction ys generalizing s with
  | nil =>
    refine ⟨Array.size_setIfInBounds, fun z e hz _ h => ?_⟩
    unfold tryEdges
    rw [Array.getElem?_setIfInBounds, if_neg (Ne.symm hz), h]
  | cons y ys ih =>
    unfold tryEdges
    cases s.pairing.right[y]? with
    | none => exact ih s
    | some o =>
      cases o with
      | none =>
        simp only
        split
        · exact hrefl _
        · exact ih s
      | some z =>
        simp only
        split
        next hz =>
          have hspares := hdeeper z s hz
          generalize deeper z s = r at hspares
          obtain ⟨found, s'⟩ := r
          cases found with
          | true => exact ⟨hspares.size_eq, fun w e _ he hw => hspares.above hz he hw⟩
          | false =>
            have hrest := ih s'
            exact ⟨hrest.size_eq.trans hspares.size_eq, fun w e hwx he hw =>
              hrest.kept w e hwx he (hspares.above hz he hw)⟩
        next => exact ih s

/-- **A search from `x`** leaves the layers down to that of `x` alone, except that it may take out `x`. -/
theorem spares_augment (fuel : Nat) (s : Sweep) :
    Spares d x s.depth (g.augment target fuel d x s).2.depth := by
  induction fuel generalizing d x s with
  | zero => exact ⟨rfl, fun _ _ _ _ h => h⟩
  | succ fuel ih => exact spares_tryEdges (fun z s _ => ih s) _ s

end BipartiteGraph

end Bigraphs
