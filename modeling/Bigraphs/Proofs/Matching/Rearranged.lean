import Bigraphs.Proofs.Matching.Pruning
import Bigraphs.Proofs.Matching.Twins

/-! # Occurrences rearranged

A symmetry of the redex takes one occurrence to another (`Occurs.of_interchanged`). The search is made
so that it finds the rearrangements whose images are in order: it places every such occurrence
(`Occurs.placeable`), and what it places is in order (`ordered_of_placeable`). So of all
rearrangements of an occurrence one is found (`Occurs.exists_embedding`), and not a second one
(`embedding_unique`). -/

namespace Bigraphs

/-- **The second mapping rearranges the first** by a symmetry of the redex: interchangeable siblings
have exchanged their images, together with all that is below them. -/
def Bigraph.Interchanged (g : Bigraph) (m m' : Mapping) : Prop :=
  ∃ σ, g.Symmetry σ ∧ ∀ x y, (x, y) ∈ m' ↔ (σ x, y) ∈ m

theorem Bigraph.Interchanged.refl {g : Bigraph} (m : Mapping) : g.Interchanged m m :=
  ⟨1, Symmetry.refl, fun _ _ => Iff.rfl⟩

namespace Problem

open Bigraph

variable {q : Problem} {hosts images : List PlaceId} {m m' : Mapping}

/-- The image of a node. -/
def valueOf (m : Mapping) (x : PlaceId) : Nat := (imageOf m x).getD 0

section Occurs
variable (hq : q.Proper) (ho : q.Occurs hosts m)
include ho

theorem Occurs.valueOf_eq {x y : PlaceId} (h : (x, y) ∈ m) : valueOf m x = y := by
  rw [valueOf, ho.imageOf_eq_some_iff.mpr h, Option.getD_some]

include hq

/-- **A rearranged occurrence is an occurrence.** -/
theorem Occurs.of_interchanged (h : q.redex.Interchanged m m')
    (hnodes : (m'.map (·.1)).Perm q.redex.nodes) (himages : (m'.map (·.2)).Nodup) :
    q.Occurs hosts m' := by
  obtain ⟨σ, hσ, hm⟩ := h
  have hroot : ∀ r, q.redex.isRoot r → σ r = r :=
    fun r hr => hσ.fixes r (isNode_eq_false_of_isRoot hr)
  have hsite : ∀ s, q.redex.isSite s → σ s = s :=
    fun s hs => hσ.fixes s (isNode_eq_false_of_isSite hs)
  have hport : ∀ x i, q.redex.portLink (σ x) i = q.redex.portLink x i := by
    intro x i
    rw [portLink, portLink, hσ.ports_eq]
  exact {
    nodes_perm := hnodes
    nodup_images := himages
    length_hosts := ho.length_hosts
    control := fun x y h => by
      rw [← hσ.control_eq x]
      exact ho.control _ y ((hm x y).mp h)
    under_root := fun x y p r h hr hx => by
      have hpar := hσ.parent_apply hx
      rw [hroot r (mem_roots.mp (List.mem_of_getElem? hr))] at hpar
      exact ho.under_root _ y p r ((hm x y).mp h) hr hpar
    under_node := fun x y x' y' h h' hx =>
      ho.under_node _ y _ y' ((hm x y).mp h) ((hm x' y').mp h') (hσ.parent_apply hx)
    closed_below := fun x y h hx => by
      have hclosed : ∀ s, q.redex.isSite s → q.redex.parent s ≠ some (σ x) := fun s hs hsx => by
        have hpar := hσ.symm.parent_apply hsx
        rw [Equiv.symm_apply_apply, (Equiv.symm_apply_eq σ).mpr (hsite s hs).symm] at hpar
        exact hx s hs hpar
      rw [← ho.closed_below _ y ((hm x y).mp h) hclosed, (hσ.children_perm hq.redex x).length_eq,
        List.length_map]
    length_ports := fun x y h => by
      rw [← hσ.ports_eq x]
      exact ho.length_ports _ y ((hm x y).mp h)
    links := fun x y i x' y' j l h h' hl hl' => by
      rw [← hport] at hl hl'
      exact ho.links _ y i _ y' j l ((hm x y).mp h) ((hm x' y').mp h') hl hl'
    closed_links := fun x y i l h hl he hn => by
      rw [← hport] at hl
      exact ho.closed_links _ y i l ((hm x y).mp h) hl he hn
    idle_names := ho.idle_names
    disjoint := fun x y p p' r k h hr hx hk hne => by
      have habove := hσ.above_apply hx
      rw [hroot r (mem_roots.mp (List.mem_of_getElem? hr))] at habove
      exact ho.disjoint _ y p p' r k ((hm x y).mp h) hr habove hk hne }

/-! ### The images along the plan -/

/-- The images of the nodes along the plan, rearranged. -/
theorem Occurs.exists_images {σ : Equiv.Perm PlaceId} (hσ : q.redex.Symmetry σ) :
    ∃ images : List PlaceId, images.length = q.redex.plan.length ∧
      (∀ x y, (x, y) ∈ mappingOf q.redex.plan images ↔ (σ x, y) ∈ m) ∧
        q.Occurs hosts (mappingOf q.redex.plan images) := by
  let images : List PlaceId := q.redex.plan.map fun s => valueOf m (σ s.node)
  have hlen : images.length = q.redex.plan.length := List.length_map _
  have hm : ∀ x y, (x, y) ∈ mappingOf q.redex.plan images ↔ (σ x, y) ∈ m := by
    intro x y
    rw [mem_mappingOf]
    constructor
    · rintro ⟨j, s, hs, rfl, hy⟩
      rw [List.getElem?_map, hs, Option.map_some, Option.some.injEq] at hy
      obtain ⟨z, hz⟩ := ho.exists_image (x := σ s.node)
        (by rw [hσ.isNode_apply]; exact hq.redex.isNode_of_plan hs)
      rw [ho.valueOf_eq hz] at hy
      rwa [← hy]
    · intro h
      have hx := ho.isNode_fst h
      rw [hσ.isNode_apply] at hx
      obtain ⟨j, s, hs, rfl⟩ := hq.redex.exists_step hq.redex_rooted hx
      refine ⟨j, s, hs, rfl, ?_⟩
      rw [List.getElem?_map, hs, Option.map_some, ho.valueOf_eq h]
  refine ⟨images, hlen, hm, ho.of_interchanged hq ⟨σ, hσ, hm⟩ ?_ ?_⟩
  · rw [map_fst_mappingOf hlen]
    exact hq.redex.map_node_plan_perm hq.redex_rooted
  · rw [map_snd_mappingOf hlen]
    have himage : ∀ s ∈ q.redex.plan, (σ s.node, valueOf m (σ s.node)) ∈ m := by
      intro s hs
      obtain ⟨j, hj⟩ := List.mem_iff_getElem?.mp hs
      obtain ⟨z, hz⟩ := ho.exists_image (x := σ s.node)
        (by rw [hσ.isNode_apply]; exact hq.redex.isNode_of_plan hj)
      rwa [ho.valueOf_eq hz]
    refine List.Nodup.map_on (fun s hs t ht hst => ?_) (List.Nodup.of_map _ hq.redex.nodup_plan)
    have hs' := himage s hs
    rw [hst] at hs'
    have hnode := σ.injective (ho.node_unique hs' (himage t ht))
    exact List.inj_on_of_nodup_map hq.redex.nodup_plan hs ht hnode

end Occurs

theorem mem_mappingOf_of_getElem? {j : Nat} {s : PlanStep} {c : PlaceId}
    (hs : q.redex.plan[j]? = some s) (hc : images[j]? = some c) :
    (s.node, c) ∈ mappingOf q.redex.plan images :=
  mem_mappingOf.mpr ⟨j, s, hs, rfl, hc⟩

theorem exists_getElem? {j : Nat} {s : PlanStep} (hlen : images.length = q.redex.plan.length)
    (hs : q.redex.plan[j]? = some s) : ∃ c, images[j]? = some c :=
  ⟨_, List.getElem?_eq_getElem (by rw [hlen]; exact (List.getElem?_eq_some_iff.mp hs).1)⟩

section Placed
variable (hq : q.Proper) (hlen : images.length = q.redex.plan.length)
  (ho : q.Occurs hosts (mappingOf q.redex.plan images))
include hq hlen ho

/-- **An occurrence in order is placed** along the plan. -/
theorem Occurs.placeable (hh : ∀ h ∈ hosts, h < q.agent.places.size)
    (hordered : q.redex.Ordered (valueOf (mappingOf q.redex.plan images))) :
    q.Placeable q.table hosts q.redex.plan [] images := by
  refine placeable_iff.mpr ⟨hlen, fun j s c hs hc => ?_⟩
  have hmem := mem_mappingOf_of_getElem? hs hc
  have hnodup := ho.nodup_images
  rw [map_snd_mappingOf hlen] at hnodup
  rw [List.nil_append]
  refine isChoice_iff.mpr ⟨?_, ?_⟩
  · have hnew : c ∉ images.take j := by
      intro hct
      obtain ⟨i, hi⟩ := List.mem_iff_getElem?.mp hct
      rw [List.getElem?_take] at hi
      split at hi
      next hij =>
        have hlt := (List.getElem?_eq_some_iff.mp hi).1
        exact absurd ((List.getElem?_inj hlt hnodup).mp (hi.trans hc.symm)) (Nat.ne_of_lt hij)
      next => cases hi
    unfold isAllowed
    rw [Bool.and_eq_true, decide_eq_true_eq]
    refine ⟨hnew, ?_⟩
    cases htwin : s.twin with
    | none => rfl
    | some i =>
      obtain ⟨hij, t, ht, -⟩ := (twin_spec hs).1 i htwin
      obtain ⟨d, hd⟩ := exists_getElem? hlen ht
      have hlt := hordered j i s t hs htwin ht
      rw [ho.valueOf_eq hmem, ho.valueOf_eq (mem_mappingOf_of_getElem? ht hd)] at hlt
      rw [Option.bind_some, List.getElem?_take, if_pos hij, hd]
      exact decide_eq_true hlt
  · have hplay := ho.canPlay hq hmem
    rcases plan_anchor hs with ⟨r, ha, hr, hm⟩ | ⟨k, t, ha, hk, ht, hm, -⟩
    · obtain ⟨h, hh', hpar⟩ := ho.under_root _ c s.root r hmem hr (hq.redex.mem_vertexChildren.mp hm).1
      refine ⟨h, mem_players.mpr ⟨?_, hplay⟩, Or.inr ⟨s.root, ha, hh', hh h (List.mem_of_getElem? hh')⟩⟩
      rw [vertexChildren_agent, hq.agent.mem_children]
      exact hpar
    · obtain ⟨d, hd⟩ := exists_getElem? hlen ht
      refine ⟨d, mem_players.mpr ⟨?_, hplay⟩, Or.inl ⟨k, ha, ?_⟩⟩
      · rw [vertexChildren_agent, hq.agent.mem_children]
        exact ho.under_node _ c _ d hmem (mem_mappingOf_of_getElem? ht hd)
          (hq.redex.mem_vertexChildren.mp hm).1
      · rw [List.getElem?_take, if_pos hk, hd]

omit hq in
/-- **What is placed is in order.** -/
theorem Occurs.ordered_of_placeable {t : Table} (hp : q.Placeable t hosts q.redex.plan [] images) :
    q.redex.Ordered (valueOf (mappingOf q.redex.plan images)) := by
  intro j i s u hs htwin hu
  obtain ⟨hij, -⟩ := (twin_spec hs).1 i htwin
  obtain ⟨c, hc⟩ := exists_getElem? hlen hs
  obtain ⟨d, hd⟩ := exists_getElem? hlen hu
  rw [ho.valueOf_eq (mem_mappingOf_of_getElem? hs hc), ho.valueOf_eq (mem_mappingOf_of_getElem? hu hd)]
  have hallowed := (isChoice_iff.mp (choice_of_placeable hp hs hc)).1
  unfold isAllowed at hallowed
  rw [Bool.and_eq_true, htwin, Option.bind_some, List.getElem?_take, if_pos hij, hd] at hallowed
  exact of_decide_eq_true hallowed.2

omit hlen in
/-- The check of the hosts lets an occurrence through. -/
theorem Occurs.hostsDisjoint (hh : ∀ h ∈ hosts, h < q.agent.places.size) :
    q.hostsDisjoint q.redex.plan hosts images = .ok true := by
  refine (hostsDisjoint_iff hh).mpr fun s y hsy i h hi hne => ?_
  obtain ⟨j, hj⟩ := List.mem_iff_getElem?.mp hsy
  obtain ⟨hs, hy⟩ := List.getElem?_zip_eq_some.mp hj
  obtain ⟨r, hr, hrs⟩ := hq.redex.plan_root hs
  have hclear := ho.disjoint _ y s.root i r h (mem_mappingOf_of_getElem? hs hy) hr hrs hi hne
  refine ⟨?_, fun habove => hclear ?_⟩
  · rintro rfl
    exact hclear .refl
  · exact (hq.agent.isAncestor_iff.mp habove).to_reflTransGen

end Placed

/-! ### One of all rearrangements -/

section Classes
variable (hq : q.Proper) (ho : q.Occurs hosts m)
include hq ho

/-- **One rearrangement is found.** -/
theorem Occurs.exists_embedding (hplain : q.redex.PlainNames)
    (hh : ∀ h ∈ hosts, h < q.agent.places.size) : ∃ m', q.redex.Interchanged m m' ∧
      q.Occurs hosts m' ∧ .ok m' ∈ (q.embeddings q.table q.redex.plan hosts).toList := by
  obtain ⟨σ, hswaps, hordered⟩ := exists_ordered hq.redex hplain (f := valueOf m) fun x y hx hy hxy => by
    obtain ⟨c, hc⟩ := ho.exists_image hx
    obtain ⟨d, hd⟩ := ho.exists_image hy
    rw [ho.valueOf_eq hc, ho.valueOf_eq hd] at hxy
    subst hxy
    exact ho.node_unique hc hd
  have hσ := symmetry_of_mem_swaps hswaps
  obtain ⟨images, hlen, hm, ho'⟩ := ho.exists_images hq hσ
  refine ⟨_, ⟨σ, hσ, hm⟩, ho', mem_embeddings.mpr ⟨images, ?_, rfl, ho'.linksConsistent hq,
    ho'.hostsDisjoint hq hh⟩⟩
  refine ho'.placeable hq hlen hh (hordered.congr hq.redex fun x hx => ?_)
  obtain ⟨c, hc⟩ := ho'.exists_image hx
  rw [ho'.valueOf_eq hc, ho.valueOf_eq ((hm x c).mp hc)]

omit ho in
/-- **No two rearrangements are found.** -/
theorem embedding_unique {t t' : Table} {m₁ m₂ : Mapping} (h₁ : q.redex.Interchanged m m₁)
    (h₂ : q.redex.Interchanged m m₂) (ho₁ : q.Occurs hosts m₁) (ho₂ : q.Occurs hosts m₂)
    (he₁ : .ok m₁ ∈ (q.embeddings t q.redex.plan hosts).toList)
    (he₂ : .ok m₂ ∈ (q.embeddings t' q.redex.plan hosts).toList) : m₁ = m₂ := by
  obtain ⟨images₁, hp₁, rfl, -⟩ := mem_embeddings.mp he₁
  obtain ⟨images₂, hp₂, rfl, -⟩ := mem_embeddings.mp he₂
  obtain ⟨σ, hσ, hm₁⟩ := h₁
  obtain ⟨τ, hτ, hm₂⟩ := h₂
  have hlen₁ := length_of_placeable hp₁
  have hlen₂ := length_of_placeable hp₂
  -- the second mapping rearranges the first by `σ.symm * τ`, and both are in order
  have hrel : ∀ x y, (x, y) ∈ mappingOf q.redex.plan images₂ →
      ((σ.symm * τ) x, y) ∈ mappingOf q.redex.plan images₁ := by
    intro x y h
    rw [hm₁, Equiv.Perm.mul_apply, Equiv.apply_symm_apply]
    exact (hm₂ x y).mp h
  have hρ := hσ.symm.mul hτ
  have hfix : ∀ x, q.redex.isNode x → (σ.symm * τ) x = x := by
    intro x hx
    refine hρ.eq_self_of_ordered hq.redex hq.redex_rooted (ho₁.ordered_of_placeable hlen₁ hp₁)
      ((ho₂.ordered_of_placeable hlen₂ hp₂).congr hq.redex fun z hz => ?_) hx
    obtain ⟨c, hc⟩ := ho₂.exists_image hz
    rw [ho₂.valueOf_eq hc, ho₁.valueOf_eq (hrel z c hc)]
  congr 1
  refine List.ext_getElem (hlen₁.trans hlen₂.symm) fun j hj₁ hj₂ => ?_
  have hlt : j < q.redex.plan.length := by rwa [← hlen₁]
  have hs : q.redex.plan[j]? = some q.redex.plan[j] := List.getElem?_eq_getElem hlt
  have hmem := hrel _ _ (mem_mappingOf_of_getElem? hs (List.getElem?_eq_getElem hj₂))
  rw [hfix _ (hq.redex.isNode_of_plan hs)] at hmem
  exact ho₁.image_unique (mem_mappingOf_of_getElem? hs (List.getElem?_eq_getElem hj₁)) hmem

end Classes

end Problem

end Bigraphs
