import Bigraphs.Matching.Links
import Bigraphs.Proofs.Graph.WellFormed
import Bigraphs.Proofs.Lists

/-! # What the link check accepts

A mapping pairs the links on the ports of its redex nodes with those on the ports of the images
(`portPairs`). The link check passes exactly if paired nodes use equally many ports, every redex link
is paired with one agent link, and that link fits (`linksConsistent_iff`). -/

namespace Bigraphs

namespace Problem

variable (q : Problem)

/-- The links of the ports of all pairs of nodes, port by port. -/
def portPairs (m : Mapping) : List (LinkId × LinkId) :=
  m.flatMap fun (x, y) => (q.redex.ports x).zip (q.agent.ports y)

/-- Every redex link is paired with one agent link. -/
def Functional (pairs : List (LinkId × LinkId)) : Prop :=
  ∀ l a b, (l, a) ∈ pairs → (l, b) ∈ pairs → a = b

theorem Functional.of_subset {s t : List (LinkId × LinkId)} (h : Functional t) (hs : s ⊆ t) :
    Functional s :=
  fun l a b ha hb => h l a b (hs ha) (hs hb)

theorem lookup_of_mem {images : List (LinkId × LinkId)} (hf : Functional images) {l a : LinkId}
    (h : (l, a) ∈ images) : images.lookup l = some a := by
  cases hl : images.lookup l with
  | none => simpa using List.lookup_eq_none_iff.mp hl _ h
  | some b => rw [hf l a b h (mem_of_lookup hl)]

/-- One more pair for a link without an image. -/
theorem Functional.cons {images : List (LinkId × LinkId)} (hf : Functional images) {l a : LinkId}
    (hl : images.lookup l = none) : Functional ((l, a) :: images) := by
  have hnone : ∀ b, (l, b) ∉ images := fun b hb => by
    have := lookup_of_mem hf hb
    rw [hl] at this
    cases this
  intro k b c hb hc
  rcases List.mem_cons.mp hb with hb | hb <;> rcases List.mem_cons.mp hc with hc | hc
  · cases hb; cases hc; rfl
  · cases hb; exact absurd hc (hnone c)
  · cases hc; exact absurd hb (hnone b)
  · exact hf k b c hb hc

/-- Lists of the same pairs are functional together, with a property together. -/
theorem functional_and_congr {s t : List (LinkId × LinkId)} (h : ∀ e, e ∈ s ↔ e ∈ t)
    (P : LinkId × LinkId → Prop) :
    (Functional s ∧ ∀ e ∈ s, P e) ↔ Functional t ∧ ∀ e ∈ t, P e := by
  refine and_congr ⟨fun hs => hs.of_subset fun e he => (h e).mpr he,
    fun ht => ht.of_subset fun e he => (h e).mp he⟩ ?_
  exact forall_congr' fun e => by rw [h]

/-- The images can be extended, and all of them have the property `P`, exactly if the pairs are
functional and have it. -/
theorem extendImages_iff (P : LinkId × LinkId → Prop) {images pairs : List (LinkId × LinkId)}
    (hf : Functional images) :
    (∃ all, extendImages images pairs = some all ∧ ∀ e ∈ all, P e) ↔
      Functional (images ++ pairs) ∧ ∀ e ∈ images ++ pairs, P e := by
  induction pairs generalizing images with
  | nil => simp [extendImages, hf]
  | cons e pairs ih =>
    obtain ⟨l, a⟩ := e
    unfold extendImages
    cases hl : images.lookup l with
    | none =>
      rw [ih (hf.cons hl)]
      have hperm : ((l, a) :: images ++ pairs).Perm (images ++ (l, a) :: pairs) :=
        List.perm_middle.symm
      exact functional_and_congr (fun e => hperm.mem_iff) P
    | some b =>
      have hb := mem_of_lookup hl
      by_cases hba : b = a
      · subst hba
        simp only [if_true]
        rw [ih hf]
        have hmem : ∀ e, e ∈ images ++ (l, b) :: pairs ↔ e ∈ images ++ pairs := by
          intro e
          simp only [List.mem_append, List.mem_cons]
          constructor
          · rintro (h | rfl | h)
            · exact Or.inl h
            · exact Or.inl hb
            · exact Or.inr h
          · rintro (h | h)
            · exact Or.inl h
            · exact Or.inr (Or.inr h)
        exact functional_and_congr (fun e => (hmem e).symm) P
      · simp only [if_neg hba]
        constructor
        · rintro ⟨all, h, -⟩
          cases h
        · rintro ⟨h, -⟩
          exact absurd (h l b a (by simp [hb]) (by simp)) hba

theorem extendImages_append (images s t : List (LinkId × LinkId)) :
    extendImages images (s ++ t) = (extendImages images s).bind (extendImages · t) := by
  induction s generalizing images with
  | nil => simp [extendImages]
  | cons e s ih =>
    obtain ⟨l, a⟩ := e
    rw [List.cons_append, extendImages, extendImages]
    cases images.lookup l with
    | none => exact ih _
    | some b =>
      by_cases h : b = a
      · simp only [h, if_true]; exact ih _
      · simp [h]

variable {q}

/-- All places of the mapping are there. -/
def InRange (q : Problem) (m : Mapping) : Prop :=
  ∀ xy ∈ m, xy.1 < q.redex.places.size ∧ xy.2 < q.agent.places.size

/-- Paired nodes use equally many ports. -/
def SamePorts (q : Problem) (m : Mapping) : Prop :=
  ∀ xy ∈ m, (q.redex.ports xy.1).length = (q.agent.ports xy.2).length

instance (q : Problem) (m : Mapping) : Decidable (q.SamePorts m) := by
  unfold SamePorts; infer_instance

theorem imagesFrom_eq {m : Mapping} (hm : q.InRange m) (images : LinkImages) :
    q.imagesFrom images m =
      .ok (if q.SamePorts m then extendImages images (q.portPairs m) else none) := by
  induction m generalizing images with
  | nil => simp [imagesFrom, SamePorts, portPairs, extendImages]
  | cons xy m ih =>
    obtain ⟨x, y⟩ := xy
    obtain ⟨hx, hy⟩ := hm (x, y) (by simp)
    have hm' : q.InRange m := fun xy h => hm xy (by simp [h])
    unfold imagesFrom
    rw [if_neg (Nat.not_le.mpr hx), if_neg (Nat.not_le.mpr hy)]
    by_cases hlen : (q.redex.ports x).length = (q.agent.ports y).length
    · rw [if_neg (not_not.mpr hlen)]
      have hsame : q.SamePorts ((x, y) :: m) ↔ q.SamePorts m := by simp [SamePorts, hlen]
      have hpairs : q.portPairs ((x, y) :: m) =
          (q.redex.ports x).zip (q.agent.ports y) ++ q.portPairs m := rfl
      rw [hpairs, extendImages_append]
      simp only [hsame]
      cases extendImages images ((q.redex.ports x).zip (q.agent.ports y)) with
      | none => simp
      | some all => exact ih hm' all
    · rw [if_pos hlen, if_neg fun h => hlen (h (x, y) (by simp))]

/-- **What the link check accepts.** -/
theorem linksConsistent_iff {m : Mapping} (hm : q.InRange m) :
    q.linksConsistent m = .ok true ↔
      q.SamePorts m ∧ Functional (q.portPairs m) ∧
        ∀ l a, (l, a) ∈ q.portPairs m → q.linkFits a l := by
  have hnil : Functional [] := fun l a b h => by simp at h
  have key : (∃ all, extendImages [] (q.portPairs m) = some all ∧
      ∀ e ∈ all, q.linkFits e.2 e.1 = true) ↔ Functional ([] ++ q.portPairs m) ∧
        ∀ e ∈ [] ++ q.portPairs m, q.linkFits e.2 e.1 = true := extendImages_iff _ hnil
  unfold linksConsistent
  rw [imagesFrom_eq hm]
  by_cases hs : q.SamePorts m
  · rw [if_pos hs]
    rw [List.nil_append] at key
    cases he : extendImages [] (q.portPairs m) with
    | none =>
      refine ⟨fun h => by simp at h, fun ⟨_, hf, hfit⟩ => ?_⟩
      obtain ⟨all, h, -⟩ := key.mpr ⟨hf, fun e he => hfit e.1 e.2 he⟩
      rw [he] at h
      cases h
    | some all =>
      simp only [Except.ok.injEq, List.all_eq_true]
      constructor
      · intro h
        obtain ⟨hf, hfit⟩ := key.mp ⟨all, he, h⟩
        exact ⟨hs, hf, fun l a hla => hfit (l, a) hla⟩
      · rintro ⟨-, hf, hfit⟩
        obtain ⟨all', h, h'⟩ := key.mpr ⟨hf, fun e he => hfit e.1 e.2 he⟩
        rw [he] at h
        cases h; exact h'
  · rw [if_neg hs]
    exact ⟨fun h => by simp at h, fun ⟨h, _⟩ => absurd h hs⟩

theorem linksConsistent_isOk {m : Mapping} (hm : q.InRange m) :
    ∃ b, q.linksConsistent m = .ok b := by
  unfold linksConsistent
  rw [imagesFrom_eq hm]
  split
  next h => cases h
  next => exact ⟨_, rfl⟩
  next => exact ⟨_, rfl⟩

/-! ### Idle names -/

/-- **The idle names of the redex are there** if each is an outer name of the agent. -/
theorem idleNamesPresent_iff (hg : q.agent.WellFormed) : q.idleNamesPresent ↔
    ∀ l s, q.redex.linkKind l = some (.outer s) → q.redex.points l = [] →
      ∃ k, q.agent.linkKind k = some (.outer s) := by
  unfold idleNamesPresent Bigraph.idleOuterNames
  simp only [List.all_eq_true, List.mem_filter, Bigraph.mem_outerNames, List.isEmpty_iff]
  constructor
  · intro h l s hl hnil
    have hsome := h l ⟨⟨s, hl⟩, hnil⟩
    rw [Bigraph.linkName_of_linkKind hl] at hsome
    obtain ⟨k, hk⟩ := Option.isSome_iff_exists.mp hsome
    exact ⟨k, (Bigraph.outerNamed_eq_some_iff hg).mp hk⟩
  · rintro h l ⟨⟨s, hl⟩, hnil⟩
    obtain ⟨k, hk⟩ := h l s hl hnil
    rw [Bigraph.linkName_of_linkKind hl]
    exact Option.isSome_iff_exists.mpr ⟨k, (Bigraph.outerNamed_eq_some_iff hg).mpr hk⟩

/-! ### Ports of paired nodes -/

theorem mem_portPairs {m : Mapping} {l a : LinkId} :
    (l, a) ∈ q.portPairs m ↔ ∃ xy ∈ m, ∃ i, q.redex.portLink xy.1 i = some l ∧
      q.agent.portLink xy.2 i = some a := by
  unfold portPairs
  rw [List.mem_flatMap]
  refine exists_congr fun xy => and_congr_right fun _ => ?_
  rw [List.mem_iff_getElem?]
  refine exists_congr fun i => ?_
  rw [List.getElem?_zip_eq_some]
  rfl

/-! ### The check of one pair -/

theorem inRange_of_imagesFrom {m : Mapping} {images all : LinkImages}
    (h : q.imagesFrom images m = .ok (some all)) : q.InRange m := by
  induction m generalizing images with
  | nil => exact fun xy hxy => by simp at hxy
  | cons xy m ih =>
    obtain ⟨x, y⟩ := xy
    unfold imagesFrom at h
    split at h
    next => cases h
    next hx =>
      split at h
      next => cases h
      next hy =>
        split at h
        next => cases h
        next =>
          split at h
          next => cases h
          next =>
            intro e he
            rcases List.mem_cons.mp he with rfl | he
            · exact ⟨Nat.not_le.mp hx, Nat.not_le.mp hy⟩
            · exact ih h e he

/-- A mapping that passes the link check holds places that are there. -/
theorem inRange_of_linksConsistent {m : Mapping} (h : q.linksConsistent m = .ok true) :
    q.InRange m := by
  unfold linksConsistent at h
  split at h
  next => cases h
  next => cases h
  next all hall => exact inRange_of_imagesFrom hall

/-- **What passes the link check as a whole** passes the check of each pair. -/
theorem portsCompatible_of_linksConsistent {m : Mapping} (h : q.linksConsistent m = .ok true)
    {x y : PlaceId} (hxy : (x, y) ∈ m) : q.portsCompatible y x := by
  obtain ⟨hsame, hfun, hfits⟩ := (linksConsistent_iff (inRange_of_linksConsistent h)).mp h
  have hpairs : ∀ e ∈ (q.agent.ports y).zip (q.redex.ports x), (e.2, e.1) ∈ q.portPairs m := by
    intro e he
    obtain ⟨i, hi⟩ := List.mem_iff_getElem?.mp he
    obtain ⟨ha, hl⟩ := List.getElem?_zip_eq_some.mp hi
    exact mem_portPairs.mpr ⟨(x, y), hxy, i, hl, ha⟩
  unfold portsCompatible
  simp only [Bool.and_eq_true, decide_eq_true_eq, List.all_eq_true]
  refine ⟨⟨(hsame (x, y) hxy).symm, fun e he => hfits e.2 e.1 (hpairs e he)⟩, ?_⟩
  refine List.pairwise_of_forall_mem_list fun s hs t ht hst => ?_
  exact hfun s.2 s.1 t.1 (hpairs s hs) (hst ▸ hpairs t ht)

end Problem

end Bigraphs
