import Bigraphs.Proofs.Graph.Subtrees
import Bigraphs.Proofs.Matching.Shape
import Mathlib.Data.Set.Function

/-! # Subtrees that are the same

Subtrees that only differ in numbers and labels have one shape (`SubtreeIso.shapeWithin_eq`), since the
shapes of children are sorted. Conversely, from one shape of two places their subtrees can be mapped onto
each other, generation by generation (`exists_subtreeIso`), since a shape can be taken apart again. -/

namespace Bigraphs

namespace Bigraph

variable {g : Bigraph} {a b : PlaceId} {f : PlaceId → PlaceId}

/-- **The subtrees at `a` and `b` are the same,** numbers and labels aside: `f` maps the one onto the
other, one to one, and keeps parents, controls and, port by port, links. -/
structure SubtreeIso (g : Bigraph) (a b : PlaceId) (f : PlaceId → PlaceId) : Prop where
  top : f a = b
  bijOn : Set.BijOn f {x | g.AboveEq a x} {y | g.AboveEq b y}
  parent_eq : ∀ x, g.Above a x → g.parent (f x) = (g.parent x).map f
  control_eq : ∀ x, g.AboveEq a x → g.control (f x) = g.control x
  ports_eq : ∀ x, g.AboveEq a x → g.ports (f x) = g.ports x

/-! ### From the subtree to its shape -/

namespace SubtreeIso

variable (h : g.SubtreeIso a b f)
include h

theorem parent_apply {x c : PlaceId} (hx : g.AboveEq a x) (hc : g.parent c = some x) :
    g.parent (f c) = some (f x) := by
  rw [h.parent_eq c (.tail' hx hc), hc]
  rfl

variable (hg : g.WellFormed)
include hg

/-- What hangs under an image is the image of what hangs under the place. -/
theorem exists_child {x d : PlaceId} (hx : g.AboveEq a x) (hd : g.parent d = some (f x)) :
    ∃ c, g.parent c = some x ∧ f c = d := by
  have hbx : g.AboveEq b (f x) := h.bijOn.mapsTo hx
  obtain ⟨c, hac, rfl⟩ := h.bijOn.surjOn (hbx.tail hd)
  rcases aboveEq_iff.mp hac with rfl | habove
  · rw [h.top] at hd
    exact absurd (.tail' hbx hd) (hg.not_above_self b)
  · obtain ⟨p, hap, hpc⟩ := Relation.TransGen.tail'_iff.mp habove
    rw [h.parent_apply hap hpc, Option.some.injEq] at hd
    rw [← h.bijOn.injOn hap hx hd]
    exact ⟨c, hpc, rfl⟩

theorem children_perm {x : PlaceId} (hx : g.AboveEq a x) :
    (g.children (f x)).Perm ((g.children x).map f) := by
  have hinj : ∀ c ∈ g.children x, ∀ d ∈ g.children x, f c = f d → c = d := fun c hc d hd hcd =>
    h.bijOn.injOn (hx.tail (hg.mem_children.mp hc)) (hx.tail (hg.mem_children.mp hd)) hcd
  rw [List.perm_ext_iff_of_nodup (hg.nodup_children _) ((hg.nodup_children x).map_on hinj)]
  intro d
  rw [hg.mem_children, List.mem_map]
  constructor
  · intro hd
    obtain ⟨c, hc, hcd⟩ := h.exists_child hg hx hd
    exact ⟨c, hg.mem_children.mpr hc, hcd⟩
  · rintro ⟨c, hc, rfl⟩
    exact h.parent_apply hx (hg.mem_children.mp hc)

/-- **Subtrees that are the same have one shape.** -/
theorem shapeWithin_eq {n : Nat} {x : PlaceId} {s : String} (hx : g.AboveEq a x)
    (hs : g.shapeWithin n x = some s) : g.shapeWithin n (f x) = some s := by
  induction n generalizing x s with
  | zero => cases hs
  | succ n ih =>
    obtain ⟨d, shapes, hd, hshapes, rfl⟩ := shapeWithin_eq_some_iff.mp hs
    have hc := h.control_eq x hx
    rw [control_eq_some_iff.mpr ⟨d, hd, rfl⟩] at hc
    obtain ⟨d', hd', hcontrol⟩ := control_eq_some_iff.mp hc
    have hports := h.ports_eq x hx
    rw [ports_eq_of_node? hd, ports_eq_of_node? hd'] at hports
    have hbelow : List.Forall₂ (fun c t => g.parent c = some x ∧ g.shapeWithin n c = some t)
        (g.children x) shapes :=
      (List.forall₂_and_left _ _).mpr ⟨fun c hc => hg.mem_children.mp hc, hshapes⟩
    have hmoved : List.Forall₂ (fun c t => g.shapeWithin n c = some t) ((g.children x).map f) shapes :=
      List.forall₂_map_left_iff.mpr (hbelow.imp fun c t ⟨hc, hct⟩ => ih (hx.tail hc) hct)
    obtain ⟨shapes', hshapes', hperm⟩ := List.perm_comp_forall₂ (h.children_perm hg hx) hmoved
    refine shapeWithin_eq_some_iff.mpr ⟨d', shapes', hd', hshapes', ?_⟩
    rw [hcontrol, hports, shapeText, shapeText, sortNames_eq_iff.mpr hperm]

end SubtreeIso

/-! ### From the shape to the subtree -/

section Glue
variable (hg : g.WellFormed)
include hg

/-- A map of `a` to `b` and of the subtrees at the children of `a` onto those at the children of `b`. -/
theorem bijOn_of_children {f₀ : PlaceId → PlaceId} (htop : f a = b)
    (hperm : ((g.children a).map f₀).Perm (g.children b))
    (hf : ∀ c, g.parent c = some a → Set.BijOn f {x | g.AboveEq c x} {y | g.AboveEq (f₀ c) y}) :
    Set.BijOn f {x | g.AboveEq a x} {y | g.AboveEq b y} := by
  have hchild : ∀ {c}, g.parent c = some a → g.parent (f₀ c) = some b := fun hc =>
    hg.mem_children.mp (hperm.mem_iff.mp (List.mem_map_of_mem (hg.mem_children.mpr hc)))
  have hinj : ∀ {c d}, g.parent c = some a → g.parent d = some a → f₀ c = f₀ d → c = d :=
    fun hc hd => List.inj_on_of_nodup_map (hperm.nodup_iff.mpr (hg.nodup_children b))
      (hg.mem_children.mpr hc) (hg.mem_children.mpr hd)
  have hbelow : ∀ {c x}, g.parent c = some a → g.AboveEq c x → g.AboveEq (f₀ c) (f x) :=
    fun hc hx => (hf _ hc).mapsTo hx
  have hstrict : ∀ {c x}, g.parent c = some a → g.AboveEq c x → g.Above b (f x) :=
    fun hc hx => .head' (hchild hc) (hbelow hc hx)
  refine ⟨fun x hx => ?_, fun x hx y hy hxy => ?_, fun y hy => ?_⟩
  · rcases aboveEq_cases hx with rfl | ⟨c, hc, hcx⟩
    · exact htop ▸ .refl
    · exact (hstrict hc hcx).to_reflTransGen
  · rcases aboveEq_cases hx with rfl | ⟨c, hc, hcx⟩ <;>
      rcases aboveEq_cases hy with rfl | ⟨d, hd, hdy⟩
    · rfl
    · have hself := hstrict hd hdy
      rw [← hxy, htop] at hself
      exact absurd hself (hg.not_above_self b)
    · have hself := hstrict hc hcx
      rw [hxy, htop] at hself
      exact absurd hself (hg.not_above_self b)
    · have hcd : c = d := by
        refine hinj hc hd (eq_of_siblings hg (hchild hc) (hchild hd) (hbelow hc hcx) ?_)
        rw [hxy]
        exact hbelow hd hdy
      subst hcd
      exact (hf c hc).injOn hcx hdy hxy
  · rcases aboveEq_cases hy with rfl | ⟨d, hd, hdy⟩
    · exact ⟨a, .refl, htop⟩
    · obtain ⟨c, hc, rfl⟩ := List.mem_map.mp (hperm.mem_iff.mpr (hg.mem_children.mpr hd))
      have hc := hg.mem_children.mp hc
      obtain ⟨x, hcx, hxy⟩ := (hf c hc).surjOn hdy
      exact ⟨x, .head hc hcx, hxy⟩

/-- **From the subtrees below** two places to theirs. -/
theorem SubtreeIso.of_children {f₀ : PlaceId → PlaceId} {f : PlaceId → PlaceId → PlaceId}
    (hnode : ∀ c, g.parent c = some a → g.isNode c) (hcontrol : g.control b = g.control a)
    (hports : g.ports b = g.ports a) (hperm : ((g.children a).map f₀).Perm (g.children b))
    (hf : ∀ c, g.parent c = some a → g.SubtreeIso c (f₀ c) (f c)) :
    g.SubtreeIso a b (g.glue b a f) := by
  have htop : g.glue b a f a = b := glue_top hg b f
  have hglue : ∀ {c x}, g.parent c = some a → g.AboveEq c x → g.glue b a f x = f c x :=
    fun hc hx => glue_below hg b f (hnode _ hc) hc hx
  have hbij : ∀ c, g.parent c = some a →
      Set.BijOn (g.glue b a f) {x | g.AboveEq c x} {y | g.AboveEq (f₀ c) y} :=
    fun c hc => (hf c hc).bijOn.congr fun x hx => (hglue hc hx).symm
  refine ⟨htop, bijOn_of_children hg htop hperm hbij, fun x hx => ?_, fun x hx => ?_, fun x hx => ?_⟩
  · obtain ⟨c, hc, hcx⟩ := Relation.TransGen.head'_iff.mp hx
    have hc : g.parent c = some a := hc
    rcases aboveEq_iff.mp hcx with rfl | hcx'
    · have hb := hg.mem_children.mp (hperm.mem_iff.mp (List.mem_map_of_mem (hg.mem_children.mpr hc)))
      rw [hglue hc .refl, (hf c hc).top, hb, hc, Option.map_some, htop]
    · obtain ⟨p, hcp, hpx⟩ := Relation.TransGen.tail'_iff.mp hcx'
      rw [hglue hc hcx, (hf c hc).parent_eq x hcx', show g.parent x = some p from hpx, Option.map_some,
        Option.map_some, hglue hc hcp]
  · rcases aboveEq_cases hx with rfl | ⟨c, hc, hcx⟩
    · rw [htop, hcontrol]
    · rw [hglue hc hcx]
      exact (hf c hc).control_eq x hcx
  · rcases aboveEq_cases hx with rfl | ⟨c, hc, hcx⟩
    · rw [htop, hports]
    · rw [hglue hc hcx]
      exact (hf c hc).ports_eq x hcx

/-- **Subtrees with one shape are the same.** -/
theorem exists_subtreeIso (hplain : g.PlainNames) {n : Nat} {s : String}
    (ha : g.shapeWithin n a = some s) (hb : g.shapeWithin n b = some s) : ∃ f, g.SubtreeIso a b f := by
  induction n generalizing a b s with
  | zero => cases ha
  | succ n ih =>
    obtain ⟨hcontrol, hports, l, hl, hpairs⟩ := children_of_shape_eq hplain hg ha hb
    obtain ⟨f₀, rfl, hf₀⟩ := exists_map_of_forall₂ hpairs (hg.nodup_children a)
    have hiso : ∀ c, g.parent c = some a → ∃ f, g.SubtreeIso c (f₀ c) f := by
      intro c hc
      obtain ⟨t, hct, hdt⟩ := hf₀ c (hg.mem_children.mpr hc)
      exact ih hct hdt
    choose! f hf using hiso
    exact ⟨_, .of_children hg (fun c hc => isNode_of_shape hg ha (.single hc)) hcontrol.symm
      hports.symm hl hf⟩

end Glue

/-! ### Both ways -/

/-- There is no site in the subtree. -/
def SiteFree (g : Bigraph) (p : PlaceId) : Prop := ∀ x, g.AboveEq p x → g.isSite x = false

theorem SiteFree.isNode (hg : g.WellFormed) (h : g.SiteFree a) (ha : g.isNode a) {x : PlaceId}
    (hx : g.AboveEq a x) : g.isNode x := by
  rcases aboveEq_iff.mp hx with rfl | habove
  · exact ha
  · obtain ⟨p, -, hp⟩ := Relation.TransGen.tail'_iff.mp habove
    refine (hg.isNode_or_isSite_of_parent hp).resolve_right ?_
    rw [h x hx]
    exact Bool.false_ne_true

/-- **A node has a shape** if there is no site in its subtree. -/
theorem isSome_shape_iff (hg : g.WellFormed) (ha : g.isNode a) :
    (g.shape a).isSome ↔ g.SiteFree a := by
  rw [Option.isSome_iff_exists]
  constructor
  · rintro ⟨s, hs⟩ x hx
    exact isSite_eq_false_of_isNode (isNode_of_shape hg hs hx)
  · intro h
    exact exists_shape hg (Nat.le_add_left _ _) fun x hx => h.isNode hg ha hx

/-- **Shapes are equal exactly where subtrees are the same.** -/
theorem shape_eq_iff (hg : g.WellFormed) (hplain : g.PlainNames) (ha : g.isNode a)
    (hfree : g.SiteFree a) : g.shape a = g.shape b ↔ ∃ f, g.SubtreeIso a b f := by
  obtain ⟨s, hs⟩ := Option.isSome_iff_exists.mp ((isSome_shape_iff hg ha).mpr hfree)
  constructor
  · intro h
    exact exists_subtreeIso hg hplain hs (h.symm.trans hs)
  · rintro ⟨f, hf⟩
    have hb := hf.shapeWithin_eq hg .refl hs
    rw [hf.top] at hb
    exact hs.trans hb.symm

end Bigraph

end Bigraphs
