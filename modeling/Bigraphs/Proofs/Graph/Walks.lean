import Bigraphs.Proofs.Graph.WellFormed
import Bigraphs.Proofs.Lists

/-! # Walks reach what they should

The bounded walks of the forest miss nothing: `places.size` steps upwards pass every ancestor
(`mem_ancestors`), and as many generations downwards reach everything below (`mem_descendants`,
`mem_postOrder`). Both rest on `depth`, the number of ancestors: it is smaller than the number of
places, and one more for a child than for its parent.

Generations are taken over any part `below` of the children, so that the same lemmas serve a walk
that stops early. -/

namespace Bigraphs

namespace Bigraph

variable {g : Bigraph}

/-! ### Upwards -/

theorem above_of_mem_ancestorsUpTo {n : Nat} {a p : PlaceId} (h : a ∈ g.ancestorsUpTo n p) :
    g.Above a p := by
  induction n generalizing p with
  | zero => simp [ancestorsUpTo] at h
  | succ n ih =>
    unfold ancestorsUpTo at h
    cases hq : g.parent p with
    | none => simp [hq] at h
    | some q =>
      simp only [hq, List.mem_cons] at h
      rcases h with rfl | h
      · exact .single hq
      · exact (ih h).tail hq

theorem above_iff_of_parent {a p q : PlaceId} (h : g.parent p = some q) :
    g.Above a p ↔ g.AboveEq a q := by
  constructor
  · intro ha
    obtain ⟨b, hab, hb⟩ := Relation.TransGen.tail'_iff.mp ha
    have hbq : some b = some q := hb.symm.trans h
    cases hbq; exact hab
  · exact fun ha => .tail' ha h

theorem not_above_of_parent_eq_none {a p : PlaceId} (h : g.parent p = none) : ¬ g.Above a p := by
  intro ha
  obtain ⟨b, -, hb⟩ := Relation.TransGen.tail'_iff.mp ha
  rw [IsParent, h] at hb
  cases hb

theorem aboveEq_iff {a p : PlaceId} : g.AboveEq a p ↔ a = p ∨ g.Above a p := by
  rw [AboveEq, Relation.reflTransGen_iff_eq_or_transGen, eq_comm, Above]

theorem mem_ancestorsUpTo_of_above {n : Nat} {a p : PlaceId}
    (hn : (g.ancestorsUpTo n p).length < n) (h : g.Above a p) : a ∈ g.ancestorsUpTo n p := by
  induction n generalizing p with
  | zero => exact absurd hn (Nat.not_lt_zero _)
  | succ n ih =>
    unfold ancestorsUpTo at hn ⊢
    cases hq : g.parent p with
    | none => exact absurd h (not_above_of_parent_eq_none hq)
    | some q =>
      simp only [hq, List.length_cons, List.mem_cons] at hn ⊢
      rcases aboveEq_iff.mp ((above_iff_of_parent hq).mp h) with rfl | h
      · exact Or.inl rfl
      · exact Or.inr (ih (by omega) h)

/-- The number of strict ancestors. -/
def depth (g : Bigraph) (p : PlaceId) : Nat := (g.ancestors p).length

namespace WellFormed

variable (hg : g.WellFormed)
include hg

theorem nodup_ancestorsUpTo (n : Nat) (p : PlaceId) : (p :: g.ancestorsUpTo n p).Nodup := by
  induction n generalizing p with
  | zero => simp [ancestorsUpTo]
  | succ n ih =>
    refine List.nodup_cons.mpr ⟨fun h => hg.not_above_self p (above_of_mem_ancestorsUpTo h), ?_⟩
    unfold ancestorsUpTo
    cases g.parent p with
    | none => exact .nil
    | some q => exact ih q

theorem lt_of_above {a p : PlaceId} (h : g.Above a p) : a < g.places.size := by
  obtain ⟨b, hb, -⟩ := Relation.TransGen.head'_iff.mp h
  exact hg.lt_of_isParent hb

theorem length_ancestorsUpTo_lt (n : Nat) {p : PlaceId} (hp : p < g.places.size) :
    (g.ancestorsUpTo n p).length < g.places.size := by
  refine Nat.lt_of_succ_le (length_le_of_nodup (hg.nodup_ancestorsUpTo n p) fun x hx => ?_)
  rcases List.mem_cons.mp hx with rfl | hx
  · exact hp
  · exact hg.lt_of_above (above_of_mem_ancestorsUpTo hx)

theorem depth_lt {p : PlaceId} (hp : p < g.places.size) : g.depth p < g.places.size :=
  hg.length_ancestorsUpTo_lt _ hp

theorem mem_ancestors {a p : PlaceId} : a ∈ g.ancestors p ↔ g.Above a p := by
  refine ⟨above_of_mem_ancestorsUpTo, fun h => ?_⟩
  have hp : p < g.places.size := by
    obtain ⟨b, -, hb⟩ := Relation.TransGen.tail'_iff.mp h
    exact lt_of_parent hb
  exact mem_ancestorsUpTo_of_above (hg.length_ancestorsUpTo_lt _ hp) h

theorem isAncestor_iff {a p : PlaceId} : g.isAncestor a p ↔ g.Above a p := by
  rw [isAncestor, List.contains_iff_mem, hg.mem_ancestors]

omit hg in
theorem ancestorsUpTo_succ_of_lt {n : Nat} {p : PlaceId}
    (h : (g.ancestorsUpTo n p).length < n) : g.ancestorsUpTo (n + 1) p = g.ancestorsUpTo n p := by
  induction n generalizing p with
  | zero => exact absurd h (Nat.not_lt_zero _)
  | succ n ih =>
    unfold ancestorsUpTo at h ⊢
    cases hq : g.parent p with
    | none => rfl
    | some q =>
      simp only [hq, List.length_cons] at h ⊢
      rw [ih (by omega)]

theorem ancestors_of_parent {p q : PlaceId} (h : g.parent p = some q) :
    g.ancestors p = q :: g.ancestors q := by
  have hp := hg.length_ancestorsUpTo_lt g.places.size (lt_of_parent h)
  unfold ancestors
  rw [← ancestorsUpTo_succ_of_lt hp, ancestorsUpTo, h]

theorem depth_of_parent {p q : PlaceId} (h : g.parent p = some q) : g.depth p = g.depth q + 1 := by
  rw [depth, hg.ancestors_of_parent h]; rfl

omit hg in
theorem depth_of_parent_eq_none {p : PlaceId} (h : g.parent p = none) : g.depth p = 0 := by
  unfold depth ancestors
  cases g.places.size <;> simp [ancestorsUpTo, h]

theorem depth_lt_of_above {a p : PlaceId} (h : g.Above a p) : g.depth a < g.depth p := by
  induction h with
  | single h => rw [hg.depth_of_parent h]; omega
  | tail _ h ih => rw [hg.depth_of_parent h]; omega

end WellFormed

/-! ### Downwards -/

section Generations
variable {below : PlaceId → List PlaceId}

theorem generations_cons (n : Nat) (l : List PlaceId) :
    generations below (n + 1) l = l ++ generations below n (l.flatMap below) := by
  cases l with
  | nil => cases n <;> simp [generations]
  | cons a l => rfl

theorem exists_of_mem_generations {n : Nat} {l : List PlaceId} {x : PlaceId}
    (h : x ∈ generations below n l) :
    ∃ r ∈ l, Relation.ReflTransGen (fun a b => b ∈ below a) r x := by
  induction n generalizing l with
  | zero => simp [generations] at h
  | succ n ih =>
    rw [generations_cons, List.mem_append] at h
    rcases h with h | h
    · exact ⟨x, h, .refl⟩
    · obtain ⟨r, hr, hrx⟩ := ih h
      obtain ⟨a, ha, har⟩ := List.mem_flatMap.mp hr
      exact ⟨a, ha, .head har hrx⟩

/-- The generations run out within `n` steps: all places of `l` have the depth `d`, and no place has
a depth of `d + n` or more. -/
structure Level (g : Bigraph) (n d : Nat) (l : List PlaceId) : Prop where
  depth_eq : ∀ x ∈ l, g.depth x = d
  lt_size : ∀ x ∈ l, x < g.places.size
  enough : g.places.size ≤ d + n

variable (hg : g.WellFormed) (hb : ∀ {p c}, c ∈ below p → c ∈ g.children p)
include hg hb

theorem Level.flatMap {n d : Nat} {l : List PlaceId} (hl : g.Level (n + 1) d l) :
    g.Level n (d + 1) (l.flatMap below) := by
  have key : ∀ x ∈ l.flatMap below, ∃ p ∈ l, g.parent x = some p := by
    intro x hx
    obtain ⟨p, hp, hxp⟩ := List.mem_flatMap.mp hx
    exact ⟨p, hp, hg.mem_children.mp (hb hxp)⟩
  refine ⟨fun x hx => ?_, fun x hx => ?_, by have := hl.enough; omega⟩
  · obtain ⟨p, hp, hxp⟩ := key x hx
    rw [hg.depth_of_parent hxp, hl.depth_eq p hp]
  · obtain ⟨p, -, hxp⟩ := key x hx
    exact lt_of_parent hxp

omit hb in
theorem Level.eq_nil {d : Nat} {l : List PlaceId} (hl : g.Level 0 d l) : l = [] := by
  refine List.eq_nil_iff_forall_not_mem.mpr fun x hx => ?_
  have h1 := hg.depth_lt (hl.lt_size x hx)
  have h2 := hl.enough
  rw [hl.depth_eq x hx] at h1
  omega

theorem mem_generations_of_reachable {n d : Nat} {l : List PlaceId} (hl : g.Level n d l)
    {r x : PlaceId} (hr : r ∈ l) (hx : Relation.ReflTransGen (fun a b => b ∈ below a) r x) :
    x ∈ generations below n l := by
  induction n generalizing d l r with
  | zero => rw [hl.eq_nil hg] at hr; simp at hr
  | succ n ih =>
    rw [generations_cons, List.mem_append]
    rcases Relation.ReflTransGen.cases_head hx with rfl | ⟨b, hrb, hbx⟩
    · exact Or.inl hr
    · exact Or.inr (ih (hl.flatMap hg hb) (List.mem_flatMap.mpr ⟨r, hr, hrb⟩) hbx)

theorem mem_generations {n d : Nat} {l : List PlaceId} (hl : g.Level n d l) {x : PlaceId} :
    x ∈ generations below n l ↔
      ∃ r ∈ l, Relation.ReflTransGen (fun a b => b ∈ below a) r x :=
  ⟨exists_of_mem_generations, fun ⟨_, hr, hx⟩ => mem_generations_of_reachable hg hb hl hr hx⟩

theorem nodup_flatMap_below (hnd : ∀ p, (below p).Nodup) {l : List PlaceId} (hl : l.Nodup) :
    (l.flatMap below).Nodup := by
  refine List.nodup_flatMap.mpr ⟨fun p _ => hnd p, hl.imp fun {p q} hpq => ?_⟩
  intro x hxp hxq
  have h1 := hg.mem_children.mp (hb hxp)
  have h2 := hg.mem_children.mp (hb hxq)
  rw [h1] at h2
  cases h2; exact hpq rfl

theorem le_depth_of_mem_generations {n d : Nat} {l : List PlaceId} (hl : g.Level n d l)
    {x : PlaceId} (hx : x ∈ generations below n l) : d ≤ g.depth x := by
  induction n generalizing d l with
  | zero => simp [generations] at hx
  | succ n ih =>
    rw [generations_cons, List.mem_append] at hx
    rcases hx with hx | hx
    · exact (hl.depth_eq x hx).ge
    · have := ih (hl.flatMap hg hb) hx
      omega

theorem nodup_generations (hnd : ∀ p, (below p).Nodup) {n d : Nat} {l : List PlaceId}
    (hl : g.Level n d l) (hln : l.Nodup) : (generations below n l).Nodup := by
  induction n generalizing d l with
  | zero => simp [generations]
  | succ n ih =>
    rw [generations_cons]
    have hnext := hl.flatMap hg hb
    refine List.nodup_append.mpr
      ⟨hln, ih hnext (nodup_flatMap_below hg hb hnd hln), fun x hx y hy hxy => ?_⟩
    subst hxy
    have h1 := le_depth_of_mem_generations hg hb hnext hy
    have h2 := hl.depth_eq x hx
    omega

theorem pairwise_depth_generations {n d : Nat} {l : List PlaceId} (hl : g.Level n d l) :
    (generations below n l).Pairwise fun x y => g.depth x ≤ g.depth y := by
  induction n generalizing d l with
  | zero => simp [generations]
  | succ n ih =>
    rw [generations_cons]
    have hnext := hl.flatMap hg hb
    refine List.pairwise_append.mpr ⟨?_, ih hnext, fun x hx y hy => ?_⟩
    · refine List.pairwise_of_forall_mem_list fun x hx y hy => ?_
      rw [hl.depth_eq x hx, hl.depth_eq y hy]
    · have := le_depth_of_mem_generations hg hb hnext hy
      rw [hl.depth_eq x hx]
      omega

/-- What a walk meets hangs below something it has met before. -/
theorem exists_before_of_generations {n d : Nat} {l : List PlaceId} (hl : g.Level n d l)
    {done rest : List PlaceId} {a : PlaceId} (h : generations below n l = done ++ a :: rest) :
    a ∈ l ∨ ∃ p ∈ done, a ∈ below p := by
  have ha : a ∈ generations below n l := by rw [h]; simp
  obtain ⟨r, hr, hra⟩ := exists_of_mem_generations ha
  rcases Relation.ReflTransGen.cases_tail hra with rfl | ⟨p, hrp, hpa⟩
  · exact Or.inl hr
  · refine Or.inr ⟨p, ?_, hpa⟩
    have hp := mem_generations_of_reachable hg hb hl hr hrp
    have hdepth := hg.depth_of_parent (hg.mem_children.mp (hb hpa))
    have hsorted := pairwise_depth_generations hg hb hl
    rw [h] at hp hsorted
    rcases List.mem_append.mp hp with hp | hp
    · exact hp
    · have hle : g.depth a ≤ g.depth p := by
        rcases List.mem_cons.mp hp with rfl | hp
        · exact le_rfl
        · exact List.rel_of_pairwise_cons (List.pairwise_append.mp hsorted).2.1 hp
      omega

/-- What hangs below something that a walk meets is met too. -/
theorem mem_generations_of_below {n d : Nat} {l : List PlaceId} (hl : g.Level n d l)
    {p a : PlaceId} (hp : p ∈ generations below n l) (ha : a ∈ below p) :
    a ∈ generations below n l := by
  obtain ⟨r, hr, hrp⟩ := exists_of_mem_generations hp
  exact mem_generations_of_reachable hg hb hl hr (hrp.tail ha)

end Generations

namespace WellFormed

variable (hg : g.WellFormed)
include hg

theorem level_roots : g.Level g.places.size 0 g.roots where
  depth_eq x hx := depth_of_parent_eq_none (hg.parent_root (mem_roots.mp hx))
  lt_size x hx := by
    obtain ⟨i, hi⟩ := isRoot_iff.mp (mem_roots.mp hx)
    exact lt_of_kind hi
  enough := by omega

theorem level_children (p : PlaceId) : g.Level g.places.size (g.depth p + 1) (g.children p) where
  depth_eq x hx := hg.depth_of_parent (hg.mem_children.mp hx)
  lt_size x hx := lt_of_parent (hg.mem_children.mp hx)
  enough := by omega

theorem reachable_children_iff {a b : PlaceId} :
    Relation.ReflTransGen (fun a b => b ∈ g.children a) a b ↔ g.AboveEq a b := by
  have h : (fun a b => b ∈ g.children a) = g.IsParent := by
    funext a b
    exact propext hg.mem_children
  rw [h]; rfl

theorem mem_descendants {p x : PlaceId} : x ∈ g.descendants p ↔ g.Above p x := by
  rw [descendants, Bigraph.mem_generations hg (fun h => h) (hg.level_children p)]
  constructor
  · rintro ⟨r, hr, hrx⟩
    exact .head' (hg.mem_children.mp hr) (hg.reachable_children_iff.mp hrx)
  · intro h
    obtain ⟨c, hc, hcx⟩ := Relation.TransGen.head'_iff.mp h
    exact ⟨c, hg.mem_children.mpr hc, hg.reachable_children_iff.mpr hcx⟩

omit hg in
/-- Of two places above a third, one lies above the other. -/
theorem aboveEq_total {a b p : PlaceId} (ha : g.AboveEq a p) (hb : g.AboveEq b p) :
    g.AboveEq a b ∨ g.AboveEq b a := by
  induction ha with
  | refl => exact Or.inr hb
  | @tail c d hac hcd ih =>
    rcases aboveEq_iff.mp hb with rfl | hbd
    · exact Or.inl (hac.tail hcd)
    · exact ih ((above_iff_of_parent hcd).mp hbd)

/-- Two roots above one place are the same. -/
theorem root_unique {r s p : PlaceId} (hr : g.isRoot r) (hs : g.isRoot s) (hrp : g.AboveEq r p)
    (hsp : g.AboveEq s p) : r = s := by
  induction hrp with
  | refl =>
    exact ((aboveEq_iff.mp hsp).resolve_right (not_above_of_parent_eq_none (hg.parent_root hr))).symm
  | @tail b c _ hbc ih =>
    rcases aboveEq_iff.mp hsp with rfl | hsp
    · have := hg.parent_root hs
      rw [hbc] at this
      cases this
    · exact ih ((above_iff_of_parent hbc).mp hsp)

theorem root_position_unique {i j : Nat} {r s p : PlaceId} (hr : g.roots[i]? = some r)
    (hs : g.roots[j]? = some s) (hrp : g.Above r p) (hsp : g.Above s p) : r = s ∧ i = j := by
  have h := hg.root_unique (mem_roots.mp (List.mem_of_getElem? hr))
    (mem_roots.mp (List.mem_of_getElem? hs)) hrp.to_reflTransGen hsp.to_reflTransGen
  rw [← h] at hs
  exact ⟨h, roots_position_unique hr hs⟩

/-- The topmost place above `p` lies above it. -/
theorem exists_top (p : PlaceId) : ∃ r, g.AboveEq r p ∧ g.parent r = none := by
  refine hg.acyclic.induction (C := fun p => ∃ r, g.AboveEq r p ∧ g.parent r = none) p ?_
  intro p ih
  cases hq : g.parent p with
  | none => exact ⟨p, .refl, hq⟩
  | some q =>
    obtain ⟨r, hr, htop⟩ := ih q hq
    exact ⟨r, .tail hr hq, htop⟩

theorem exists_root (hr : g.Rooted) {p : PlaceId} (hp : p < g.places.size) :
    ∃ r, g.isRoot r ∧ g.AboveEq r p := by
  obtain ⟨r, hrp, htop⟩ := hg.exists_top p
  refine ⟨r, hr r ?_ htop, hrp⟩
  rcases aboveEq_iff.mp hrp with rfl | h
  · exact hp
  · exact hg.lt_of_above h

/-! ### Post-order -/

theorem mem_postOrderFrom {n : Nat} {p x : PlaceId} :
    x ∈ g.postOrderFrom n p ↔ g.AboveEq p x ∧ g.depth x < g.depth p + n := by
  induction n generalizing p with
  | zero =>
    simp only [postOrderFrom, List.not_mem_nil, false_iff, not_and, not_lt, Nat.add_zero]
    intro h
    rcases aboveEq_iff.mp h with rfl | h
    · exact le_rfl
    · exact (hg.depth_lt_of_above h).le
  | succ n ih =>
    rw [postOrderFrom, List.mem_append, List.mem_flatMap, List.mem_singleton]
    constructor
    · rintro (⟨c, hc, hx⟩ | rfl)
      · obtain ⟨hcx, hd⟩ := ih.mp hx
        have hpc := hg.mem_children.mp hc
        rw [hg.depth_of_parent hpc] at hd
        exact ⟨.head hpc hcx, by omega⟩
      · exact ⟨.refl, by omega⟩
    · rintro ⟨hpx, hd⟩
      rcases Relation.ReflTransGen.cases_head hpx with rfl | ⟨c, hpc, hcx⟩
      · exact Or.inr rfl
      · refine Or.inl ⟨c, hg.mem_children.mpr hpc, ih.mpr ⟨hcx, ?_⟩⟩
        rw [hg.depth_of_parent hpc]
        omega

theorem mem_postOrder (hr : g.Rooted) {x : PlaceId} : x ∈ g.postOrder ↔ x < g.places.size := by
  rw [postOrder, List.mem_flatMap]
  constructor
  · rintro ⟨r, hroot, hx⟩
    rcases aboveEq_iff.mp (hg.mem_postOrderFrom.mp hx).1 with rfl | h
    · exact hg.level_roots.lt_size _ hroot
    · obtain ⟨b, -, hb⟩ := Relation.TransGen.tail'_iff.mp h
      exact lt_of_parent hb
  · intro hx
    obtain ⟨r, hroot, hrx⟩ := hg.exists_root hr hx
    refine ⟨r, mem_roots.mpr hroot, hg.mem_postOrderFrom.mpr ⟨hrx, ?_⟩⟩
    have := hg.depth_lt hx
    omega

end WellFormed

end Bigraph

end Bigraphs
