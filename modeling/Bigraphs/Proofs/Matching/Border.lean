import Bigraphs.Matching.Decomposition
import Bigraphs.Proofs.FreshName
import Bigraphs.Proofs.Matching.Occurs

/-! # Names at the border

A redex link is answered for by one agent link (`linkImage_spec`). A link that leaves a parameter gets
a name that stands for it (`Stands`): that of a redex inner name whose link it answers for, or a fresh
one. No name is given twice, whatever the number of parameters: the names used so far only grow, and
each new one is not among them (`Border.name_spec`, `borderKinds_spec`). -/

namespace Bigraphs

namespace Problem

open Bigraph

variable {q : Problem} {hosts : List PlaceId} {m : Mapping}

/-! ### What answers for a redex link -/

section Answer
variable (hq : q.Proper) (ho : q.Occurs hosts m)
include hq ho

omit hq in
theorem lt_of_mapped {x y : PlaceId} (h : (x, y) ∈ m) : y < q.agent.places.size :=
  lt_of_isNode (ho.isNode_snd h)

omit hq in
theorem portImage_cons_port {x i : Nat} {points : List Point} {y : PlaceId} {a : LinkId}
    (hm : (x, y) ∈ m) (ha : q.agent.portLink y i = some a) :
    q.portImage m (.port x i :: points) = .ok (some a) := by
  unfold portImage
  rw [ho.imageOf_eq_some_iff.mpr hm]
  simp only
  rw [if_neg (Nat.not_le.mpr (lt_of_mapped ho hm)), ha]

omit hq in
/-- The first port among the points decides. -/
theorem portImage_spec (points : List Point) {l : LinkId}
    (hpoints : ∀ x i, Point.port x i ∈ points → q.redex.portLink x i = some l) :
    (∃ x y i a, Point.port x i ∈ points ∧ (x, y) ∈ m ∧ q.agent.portLink y i = some a ∧
        q.portImage m points = .ok (some a)) ∨
      (∀ x i, Point.port x i ∉ points) ∧ q.portImage m points = .ok none := by
  induction points with
  | nil => exact Or.inr ⟨by simp, rfl⟩
  | cons z points ih =>
    cases z with
    | port x i =>
      have hl := hpoints x i (by simp)
      obtain ⟨y, hm⟩ := ho.exists_image (isNode_of_portLink hl)
      obtain ⟨a, ha⟩ := ho.exists_portLink hm hl
      exact Or.inl ⟨x, y, i, a, by simp, hm, ha, portImage_cons_port ho hm ha⟩
    | inner n =>
      rcases ih fun x i h => hpoints x i (by simp [h]) with ⟨x, y, i, a, h, hrest⟩ | ⟨h, hrest⟩
      · exact Or.inl ⟨x, y, i, a, by simp [h], hrest⟩
      · exact Or.inr ⟨by simpa using h, hrest⟩

/-- **A redex link is answered for by one agent link,** that on the image of any of its ports. A link
without ports is answered for by name. -/
theorem linkImage_spec (l : LinkId) : ∃ r, q.linkImage m l = .ok r ∧
    (∀ a, r = some a → a < q.agent.links.size) ∧
    (∀ x y i, (x, y) ∈ m → q.redex.portLink x i = some l → q.agent.portLink y i = r) ∧
    ((∀ x i, q.redex.portLink x i ≠ some l) → r =
      if q.redex.isEdge l then none else q.agent.outerNamed (q.redex.linkName l)) := by
  rcases portImage_spec ho (q.redex.points l) (l := l)
    (fun x i h => hq.redex.mem_points_port.mp h) with ⟨x, y, i, a, hx, hm, ha, himg⟩ | ⟨hno, himg⟩
  · have hxl := hq.redex.mem_points_port.mp hx
    refine ⟨some a, ?_, ?_, ?_, fun hno => absurd hxl (hno x i)⟩
    · unfold linkImage
      rw [himg]; rfl
    · rintro b ⟨rfl⟩
      exact lt_of_mem_points (hq.agent.mem_points_port.mpr ha)
    · intro x' y' j hm' hl'
      rw [ho.links x' y' j x y i l hm' hm hl' hxl, ha]
  · refine ⟨_, by unfold linkImage; rw [himg]; rfl, ?_, ?_, fun _ => rfl⟩
    · intro a ha
      split at ha
      · cases ha
      · exact lt_of_linkKind ((outerNamed_eq_some_iff hq.agent).mp ha)
    · intro x y i _ hl
      exact absurd (hq.redex.mem_points_port.mpr hl) (hno x i)

/-- The agent link that answers for a redex link, if there is one. -/
def answer (q : Problem) (m : Mapping) (l : LinkId) : Option LinkId :=
  (q.linkImage m l).toOption.join

theorem linkImage_eq (l : LinkId) : q.linkImage m l = .ok (q.answer m l) := by
  obtain ⟨r, hr, -⟩ := linkImage_spec hq ho l
  rw [answer, hr]; rfl

theorem linkImage_of_port {x y : PlaceId} {i : Nat} {l a : LinkId} (hm : (x, y) ∈ m)
    (hl : q.redex.portLink x i = some l) (ha : q.agent.portLink y i = some a) :
    q.linkImage m l = .ok (some a) := by
  obtain ⟨r, hr, -, hport, -⟩ := linkImage_spec hq ho l
  rw [hr, ← hport x y i hm hl, ha]

end Answer

/-! ### Names that stand for links -/

/-- The redex inner name `s` is on a link that `l` answers for. -/
def Answers (q : Problem) (m : Mapping) (s : String) (l : LinkId) : Prop :=
  ∃ n k, n < q.redex.innerNames.size ∧ q.redex.innerName n = s ∧ q.redex.innerLink n = some k ∧
    q.linkImage m k = .ok (some l)

/-- The redex inner names and outer names. -/
def redexNames (q : Problem) : List String :=
  q.redex.outerNames.map q.redex.linkName ++ q.redex.innerIds.map q.redex.innerName

/-- What holds of a border at any time. -/
structure BorderOk (q : Problem) (m : Mapping) (b : Border) : Prop where
  answers : ∀ l s, (l, s) ∈ b.named → q.Answers m s l
  links_nodup : (b.named.map (·.1)).Nodup
  names_nodup : (b.named.map (·.2)).Nodup
  placed_inner : ∀ s ∈ b.placed, s ∈ q.redex.innerIds.map q.redex.innerName
  placed_new : ∀ s ∈ b.placed, s ∉ b.named.map (·.2)
  fresh_nodup : (b.fresh.map (·.1)).Nodup
  fresh_new : ∀ s ∈ b.fresh.map (·.1), s ∉ q.redexNames
  fresh_taken : ∀ s ∈ b.fresh.map (·.1), s ∈ b.supply.taken
  redex_taken : ∀ s ∈ q.redexNames, s ∈ b.supply.taken
  fresh_lt : ∀ s l, (s, l) ∈ b.fresh → l < q.agent.links.size

/-- The name has been given to a link. -/
def UsedAt (b : Border) (s : String) : Prop := s ∈ b.placed ∨ s ∈ b.fresh.map (·.1)

/-- The name `s` stands for the link `l` at the border. -/
def Stands (q : Problem) (m : Mapping) (b : Border) (s : String) (l : LinkId) : Prop :=
  q.Answers m s l ∨ (s, l) ∈ b.fresh

theorem Stands.mono {b b' : Border} (h : b.fresh ⊆ b'.fresh) {s : String} {l : LinkId}
    (hs : q.Stands m b s l) : q.Stands m b' s l :=
  hs.imp_right fun hm => h hm

theorem mem_innerNames_of_answers {s : String} {l : LinkId} (h : q.Answers m s l) :
    s ∈ q.redex.innerIds.map q.redex.innerName := by
  obtain ⟨n, k, hn, rfl, -⟩ := h
  exact List.mem_map.mpr ⟨n, List.mem_range.mpr hn, rfl⟩

section Name

variable {b : Border} (hb : q.BorderOk m b) {l : LinkId}
include hb

/-- The name that answers for a link is given to it, and answers for no link any more. -/
theorem BorderOk.place {name : String} (hmem : (l, name) ∈ b.named) :
    q.BorderOk m { b with named := b.named.filter (·.1 ≠ l), placed := name :: b.placed } := by
  have hsub : (b.named.filter (·.1 ≠ l)).Sublist b.named := List.filter_sublist
  exact { hb with
    answers := fun k s hm => hb.answers k s (hsub.subset hm)
    links_nodup := hb.links_nodup.sublist (hsub.map _)
    names_nodup := hb.names_nodup.sublist (hsub.map _)
    placed_inner := fun s hs => by
      rcases List.mem_cons.mp hs with rfl | hs
      · exact mem_innerNames_of_answers (hb.answers l s hmem)
      · exact hb.placed_inner s hs
    placed_new := fun s hs hm => by
      obtain ⟨e, hf, he⟩ := List.mem_map.mp hm
      obtain ⟨hold, hkl⟩ := List.mem_filter.mp hf
      rcases List.mem_cons.mp hs with rfl | hs
      · have heq := List.inj_on_of_nodup_map hb.names_nodup hold hmem he
        rw [heq] at hkl
        simp at hkl
      · exact hb.placed_new s hs (List.mem_map.mpr ⟨e, hold, he⟩) }

/-- A name that is not taken is given to a link. -/
theorem BorderOk.draw (hl : l < q.agent.links.size) {s : String} {supply : NameSupply}
    (hs : s ∉ b.supply.taken) (htaken : supply.taken = s :: b.supply.taken) :
    q.BorderOk m { b with supply := supply, fresh := b.fresh ++ [(s, l)] } := by
  have hmap : (b.fresh ++ [(s, l)]).map (·.1) = b.fresh.map (·.1) ++ [s] := by simp
  exact { hb with
    fresh_nodup := by
      rw [hmap]
      exact nodup_append_singleton hb.fresh_nodup fun h => hs (hb.fresh_taken s h)
    fresh_new := fun t ht => by
      rw [hmap, List.mem_append, List.mem_singleton] at ht
      rcases ht with ht | rfl
      · exact hb.fresh_new t ht
      · exact fun h => hs (hb.redex_taken t h)
    fresh_taken := fun t ht => by
      rw [htaken]
      rw [hmap, List.mem_append, List.mem_singleton] at ht
      rcases ht with ht | rfl
      · exact List.mem_cons_of_mem _ (hb.fresh_taken t ht)
      · exact List.mem_cons_self
    redex_taken := fun t ht => by
      rw [htaken]
      exact List.mem_cons_of_mem _ (hb.redex_taken t ht)
    fresh_lt := fun t k hm => by
      rcases List.mem_append.mp hm with hm | hm
      · exact hb.fresh_lt t k hm
      · rw [List.mem_singleton, Prod.mk.injEq] at hm
        rw [hm.2]
        exact hl }

/-- **A link gets a name that no link has got before,** and that stands for it. -/
theorem Border.name_spec (hl : l < q.agent.links.size) :
    q.BorderOk m (b.name l).2 ∧ ¬ UsedAt b (b.name l).1 ∧
      (∀ s, UsedAt (b.name l).2 s ↔ s = (b.name l).1 ∨ UsedAt b s) ∧
      b.fresh ⊆ (b.name l).2.fresh ∧ q.Stands m (b.name l).2 (b.name l).1 l := by
  unfold Border.name
  cases hk : b.named.lookup l with
  | some name =>
    have hmem := mem_of_lookup hk
    have hanswers := hb.answers l name hmem
    have hused : ∀ s, s ∈ name :: b.placed ∨ s ∈ b.fresh.map (·.1) ↔ s = name ∨ UsedAt b s := by
      intro s
      rw [List.mem_cons, or_assoc]; rfl
    refine ⟨hb.place hmem, ?_, hused, List.Subset.refl _, Or.inl hanswers⟩
    rintro (hp | hf)
    · exact hb.placed_new _ hp (List.mem_map.mpr ⟨(l, name), hmem, rfl⟩)
    · exact hb.fresh_new _ hf (List.mem_append_right _ (mem_innerNames_of_answers hanswers))
  | none =>
    unfold NameSupply.fresh
    simp only
    have hnew := numbered_firstFree_not_mem b.supply.stem b.supply.taken b.supply.next
    generalize numbered b.supply.stem (firstFree b.supply.stem b.supply.taken b.supply.next) = s
      at hnew
    refine ⟨hb.draw hl hnew rfl, ?_, ?_, List.subset_append_left _ _, Or.inr (by simp)⟩
    · rintro (hp | hf)
      · exact hnew (hb.redex_taken s (List.mem_append_right _ (hb.placed_inner s hp)))
      · exact hnew (hb.fresh_taken s hf)
    · intro t
      unfold UsedAt
      simp only [List.map_append, List.map_singleton, List.mem_append, List.mem_singleton]
      grind

end Name

/-! ### The names of the redex -/

/-- Each of the links has one of the inner names `done` that answers for it. -/
structure NamedOk (q : Problem) (m : Mapping) (done : List InnerId) (named : List (LinkId × String)) :
    Prop where
  answers : ∀ l s, (l, s) ∈ named → q.Answers m s l
  inner : ∀ l s, (l, s) ∈ named → s ∈ done.map q.redex.innerName
  links_nodup : (named.map (·.1)).Nodup
  names_nodup : (named.map (·.2)).Nodup

namespace NamedOk

variable {done : List InnerId} {named : List (LinkId × String)} {i : InnerId}

theorem skip (h : q.NamedOk m done named) : q.NamedOk m (done ++ [i]) named where
  answers := h.answers
  inner l s hm := by
    rw [List.map_append]
    exact List.mem_append_left _ (h.inner l s hm)
  links_nodup := h.links_nodup
  names_nodup := h.names_nodup

/-- A link that has no name yet gets the next one. -/
theorem append (h : q.NamedOk m done named) {a : LinkId}
    (hans : q.Answers m (q.redex.innerName i) a) (ha : a ∉ named.map (·.1))
    (hi : q.redex.innerName i ∉ done.map q.redex.innerName) :
    q.NamedOk m (done ++ [i]) (named ++ [(a, q.redex.innerName i)]) where
  answers l s hm := by
    rcases List.mem_append.mp hm with hm | hm
    · exact h.answers l s hm
    · rw [List.mem_singleton, Prod.mk.injEq] at hm
      rwa [hm.1, hm.2]
  inner l s hm := by
    rcases List.mem_append.mp hm with hm | hm
    · exact h.skip.inner l s hm
    · rw [List.mem_singleton, Prod.mk.injEq] at hm
      rw [hm.2]
      simp
  links_nodup := by
    rw [List.map_append]
    exact nodup_append_singleton h.links_nodup ha
  names_nodup := by
    rw [List.map_append]
    refine nodup_append_singleton h.names_nodup fun hm => hi ?_
    obtain ⟨e, he, hname⟩ := List.mem_map.mp hm
    simp only at hname
    rw [← hname]
    exact h.inner e.1 e.2 he

theorem border (h : q.NamedOk m q.redex.innerIds named) (stem : String) :
    q.BorderOk m ⟨.new stem q.redexNames, named, [], []⟩ :=
  ⟨h.answers, h.links_nodup, h.names_nodup, by simp, by simp, .nil, by simp, by simp, fun _ h => h,
    by simp⟩

end NamedOk

section Named
variable (hq : q.Proper) (ho : q.Occurs hosts m)
include hq ho

/-- **The border at the beginning** is in order. -/
theorem namedLinks_ok (stem : String) : ∃ named, q.namedLinks m = .ok named ∧
    q.BorderOk m ⟨.new stem q.redexNames, named, [], []⟩ := by
  suffices h : ∃ named, q.namedLinks m = .ok named ∧ q.NamedOk m q.redex.innerIds named by
    obtain ⟨named, hfold, hnamed⟩ := h
    exact ⟨named, hfold, hnamed.border stem⟩
  refine foldlM_ok (P := fun done named => q.NamedOk m done named)
    ⟨by simp, by simp, .nil, .nil⟩ ?_
  intro done i rest named hl h
  cases hlink : q.redex.innerLink i with
  | none => exact ⟨named, rfl, h.skip⟩
  | some l =>
    obtain ⟨r, hr, -⟩ := linkImage_spec hq ho l
    simp only [hr, bind, Except.bind, pure, Except.pure]
    cases r with
    | none => exact ⟨named, rfl, h.skip⟩
    | some a =>
      by_cases hk : (named.lookup a).isSome
      · exact ⟨named, by simp only; rw [if_pos hk], h.skip⟩
      · have hilt : i < q.redex.innerNames.size :=
          List.mem_range.mp (show i ∈ q.redex.innerIds by rw [hl]; simp)
        have ha : a ∉ named.map (·.1) := by
          intro ha
          obtain ⟨⟨a', s⟩, hs, rfl⟩ := List.mem_map.mp ha
          rw [lookup_of_nodup h.links_nodup hs] at hk
          exact hk rfl
        have hi : q.redex.innerName i ∉ done.map q.redex.innerName := by
          intro hi
          obtain ⟨j, hj, hji⟩ := List.mem_map.mp hi
          exact ne_of_mem_before hq.redex.nodup_innerNames hl hj hji
        exact ⟨_, by simp only; rw [if_neg hk], h.append ⟨i, l, hilt, rfl, hlink, hr⟩ ha hi⟩

end Named

/-! ### What links become in a parameter -/

/-- The link is an edge with all its ports in the region. -/
def IsInternal (q : Problem) (region : List PlaceId) (l : LinkId) : Prop :=
  q.agent.isEdge l ∧ ∀ v i, q.agent.portLink v i = some l → v ∈ region

theorem isInternal_iff (hq : q.Proper) {region : List PlaceId} {l : LinkId} :
    (q.agent.isEdge l && (q.agent.linkNodes l).all region.contains) = true ↔
      q.IsInternal region l := by
  have hnodes : ∀ v, v ∈ q.agent.linkNodes l ↔ ∃ i, q.agent.portLink v i = some l := by
    intro v
    have hlink : q.agent.linkNodes l = ((q.agent.points l).filterMap Point.owner).eraseDups := by
      unfold linkNodes points Link.nodes
      cases q.agent.links[l]? <;> rfl
    rw [hlink, List.mem_eraseDups, List.mem_filterMap]
    constructor
    · rintro ⟨x, hx, hv⟩
      cases x with
      | port w i =>
        cases hv
        exact ⟨i, hq.agent.mem_points_port.mp hx⟩
      | inner n => cases hv
    · rintro ⟨i, hi⟩
      exact ⟨.port v i, hq.agent.mem_points_port.mpr hi, rfl⟩
  unfold IsInternal
  rw [Bool.and_eq_true, List.all_eq_true]
  refine and_congr_right fun _ => ?_
  simp only [hnodes, List.contains_iff_mem]
  exact ⟨fun h v i hi => h v ⟨i, hi⟩, fun h v ⟨i, hi⟩ => h v i hi⟩

/-- What the links `done` become in the parameter of the region, when the border goes from `b` to
`b'`. -/
structure KindsOk (q : Problem) (m : Mapping) (region : List PlaceId) (b : Border)
    (done : List LinkId) (kinds : List (LinkId × LinkKind)) (b' : Border) : Prop where
  border : q.BorderOk m b'
  fresh_mono : b.fresh ⊆ b'.fresh
  nodup : (kinds.map (·.1)).Nodup
  covers : ∀ l, (∃ k, (l, k) ∈ kinds) ↔ l ∈ done
  internal : ∀ l k, (l, k) ∈ kinds → q.IsInternal region l → k = .edge (q.agent.linkName l)
  leaving : ∀ l k, (l, k) ∈ kinds → ¬ q.IsInternal region l →
    ∃ s, k = .outer s ∧ q.Stands m b' s l ∧ UsedAt b' s ∧ ¬ UsedAt b s
  inj : ∀ l l' s, (l, .outer s) ∈ kinds → (l', .outer s) ∈ kinds → l = l'
  used : ∀ s, UsedAt b' s ↔ UsedAt b s ∨ ∃ l, (l, .outer s) ∈ kinds

namespace KindsOk

variable {region : List PlaceId} {b b' b'' : Border} {done : List LinkId} {l : LinkId}
  {kinds : List (LinkId × LinkKind)}

theorem nil (hb : q.BorderOk m b) : q.KindsOk m region b [] [] b :=
  ⟨hb, List.Subset.refl _, .nil, by simp, by simp, by simp, by simp, by simp⟩

theorem not_mem (h : q.KindsOk m region b done kinds b') (hl : l ∉ done) (k : LinkKind) :
    (l, k) ∉ kinds :=
  fun hk => hl ((h.covers l).mp ⟨k, hk⟩)

theorem nodup_cons (h : q.KindsOk m region b done kinds b') (hl : l ∉ done) (k : LinkKind) :
    (((l, k) :: kinds).map (·.1)).Nodup := by
  rw [List.map_cons, List.nodup_cons]
  refine ⟨fun hm => ?_, h.nodup⟩
  obtain ⟨⟨l', k'⟩, hk, rfl⟩ := List.mem_map.mp hm
  exact h.not_mem hl k' hk

theorem covers_cons (h : q.KindsOk m region b done kinds b') (l : LinkId) (k : LinkKind)
    (l' : LinkId) : (∃ k', (l', k') ∈ (l, k) :: kinds) ↔ l' ∈ done ++ [l] := by
  rw [List.mem_append, List.mem_singleton, ← h.covers l']
  constructor
  · rintro ⟨k', hk'⟩
    rcases List.mem_cons.mp hk' with he | hk'
    · exact Or.inr (Prod.mk.inj he).1
    · exact Or.inl ⟨k', hk'⟩
  · rintro (⟨k', hk'⟩ | rfl)
    · exact ⟨k', List.mem_cons_of_mem _ hk'⟩
    · exact ⟨k, List.mem_cons_self⟩

/-- **An edge inside the region** stays an edge. -/
theorem cons_internal (h : q.KindsOk m region b done kinds b') (hl : l ∉ done)
    (hint : q.IsInternal region l) :
    q.KindsOk m region b (done ++ [l]) ((l, .edge (q.agent.linkName l)) :: kinds) b' := by
  exact {
    border := h.border
    fresh_mono := h.fresh_mono
    nodup := h.nodup_cons hl _
    covers := h.covers_cons l _
    internal := fun l' k hm hi => by
      rcases List.mem_cons.mp hm with he | hm
      · exact (Prod.mk.inj he).1 ▸ (Prod.mk.inj he).2
      · exact h.internal l' k hm hi
    leaving := fun l' k hm hi => by
      rcases List.mem_cons.mp hm with he | hm
      · exact absurd hint ((Prod.mk.inj he).1 ▸ hi)
      · exact h.leaving l' k hm hi
    inj := fun l₁ l₂ s h₁ h₂ => by
      simp only [List.mem_cons, Prod.mk.injEq, reduceCtorEq, and_false, false_or] at h₁ h₂
      exact h.inj l₁ l₂ s h₁ h₂
    used := fun s => by
      simp only [List.mem_cons, Prod.mk.injEq, reduceCtorEq, and_false, false_or]
      exact h.used s }

/-- **A link that leaves the region** becomes an outer name that was not used before. -/
theorem cons_leaving (h : q.KindsOk m region b done kinds b') (hl : l ∉ done)
    (hout : ¬ q.IsInternal region l) {name : String} (hb : q.BorderOk m b'')
    (hunused : ¬ UsedAt b' name) (hused : ∀ s, UsedAt b'' s ↔ s = name ∨ UsedAt b' s)
    (hfresh : b'.fresh ⊆ b''.fresh) (hstands : q.Stands m b'' name l) :
    q.KindsOk m region b (done ++ [l]) ((l, .outer name) :: kinds) b'' := by
  have hkinds : ∀ l', (l', LinkKind.outer name) ∉ kinds := fun l' hm =>
    hunused ((h.used name).mpr (Or.inr ⟨l', hm⟩))
  exact {
    border := hb
    fresh_mono := fun x hx => hfresh (h.fresh_mono hx)
    nodup := h.nodup_cons hl _
    covers := h.covers_cons l _
    internal := fun l' k hm hi => by
      rcases List.mem_cons.mp hm with he | hm
      · exact absurd ((Prod.mk.inj he).1 ▸ hi) hout
      · exact h.internal l' k hm hi
    leaving := fun l' k hm hi => by
      rcases List.mem_cons.mp hm with he | hm
      · cases he
        refine ⟨name, rfl, hstands, (hused name).mpr (Or.inl rfl), fun hu => ?_⟩
        exact hunused ((h.used name).mpr (Or.inl hu))
      · obtain ⟨s, hk, hs, hu, hnu⟩ := h.leaving l' k hm hi
        exact ⟨s, hk, hs.mono hfresh, (hused s).mpr (Or.inr hu), hnu⟩
    inj := fun l₁ l₂ s h₁ h₂ => by
      rcases List.mem_cons.mp h₁ with e₁ | h₁ <;> rcases List.mem_cons.mp h₂ with e₂ | h₂
      · rw [(Prod.mk.inj e₁).1, (Prod.mk.inj e₂).1]
      · cases e₁; exact absurd h₂ (hkinds l₂)
      · cases e₂; exact absurd h₁ (hkinds l₁)
      · exact h.inj l₁ l₂ s h₁ h₂
    used := fun s => by
      rw [hused s, h.used s]
      constructor
      · rintro (rfl | hu | ⟨l', hl'⟩)
        · exact Or.inr ⟨l, List.mem_cons_self⟩
        · exact Or.inl hu
        · exact Or.inr ⟨l', List.mem_cons_of_mem _ hl'⟩
      · rintro (hu | ⟨l', hl'⟩)
        · exact Or.inr (Or.inl hu)
        · rcases List.mem_cons.mp hl' with he | hl'
          · cases he; exact Or.inl rfl
          · exact Or.inr (Or.inr ⟨l', hl'⟩) }

end KindsOk

theorem lt_of_mem_regionLinks (hq : q.Proper) {region : List PlaceId} {l : LinkId}
    (h : l ∈ (region.flatMap q.agent.ports).eraseDups) : l < q.agent.links.size := by
  obtain ⟨v, -, hv⟩ := List.mem_flatMap.mp (List.mem_eraseDups.mp h)
  obtain ⟨i, hi⟩ := List.mem_iff_getElem?.mp hv
  exact lt_of_mem_points (hq.agent.mem_points_port.mpr hi)

theorem borderKinds_spec (hq : q.Proper) (region : List PlaceId) {b : Border}
    (hb : q.BorderOk m b) :
    q.KindsOk m region b (region.flatMap q.agent.ports).eraseDups (q.borderKinds region b).1
      (q.borderKinds region b).2 := by
  have hnd := nodup_eraseDups (region.flatMap q.agent.ports)
  have hlt : ∀ l ∈ (region.flatMap q.agent.ports).eraseDups, l < q.agent.links.size :=
    fun l => lt_of_mem_regionLinks hq
  unfold borderKinds
  generalize (region.flatMap q.agent.ports).eraseDups = links at hnd hlt
  refine foldl_spec (P := fun done (s : List (LinkId × LinkKind) × Border) =>
    q.KindsOk m region b done s.1 s.2) (.nil hb) ?_
  rintro done l rest ⟨kinds, b'⟩ hlinks h
  have hl : l < q.agent.links.size := hlt l (by rw [hlinks]; simp)
  have hnew : l ∉ done := not_mem_before hnd hlinks
  unfold borderKind
  simp only
  by_cases hint : q.IsInternal region l
  · rw [if_pos ((isInternal_iff hq).mpr hint)]
    exact h.cons_internal hnew hint
  · rw [if_neg (fun hc => hint ((isInternal_iff hq).mp hc))]
    obtain ⟨hb', hunused, hused, hfresh, hstands⟩ := Border.name_spec h.border hl
    exact h.cons_leaving hnew hint hb' hunused hused hfresh hstands

end Problem

end Bigraphs
