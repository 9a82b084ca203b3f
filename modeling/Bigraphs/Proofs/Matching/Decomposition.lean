import Bigraphs.Proofs.Matching.Parameters

/-! # The agent can be taken apart

For every occurrence the decomposition goes through: it is only refused when the context has to be
active and is not (`decompose_ok`). `Anatomy` says what the pieces are. -/

namespace Bigraphs

namespace Bigraph

variable {g : Bigraph}

/-! ### Outer names added to a bigraph -/

/-- The graph with these further outer names. -/
def addOuters (g : Bigraph) (names : List String) : Bigraph :=
  names.foldl (fun g s => g.addLink (.outer s)) g

theorem places_addOuters (names : List String) : (g.addOuters names).places = g.places := by
  unfold addOuters
  induction names generalizing g with
  | nil => rfl
  | cons s names ih => exact ih

theorem linkKind_addOuters (names : List String) (k : LinkId) :
    (g.addOuters names).linkKind k =
      if k < g.links.size then g.linkKind k else names[k - g.links.size]?.map .outer := by
  unfold addOuters
  induction names generalizing g with
  | nil =>
    split
    next => rfl
    next h => simpa using linkKind_eq_none_iff.mpr (Nat.not_lt.mp h)
  | cons s names ih =>
    rw [List.foldl_cons, ih, size_addLink, linkKind_addLink]
    rcases Nat.lt_trichotomy k g.links.size with h | h | h
    · rw [if_pos (Nat.lt_succ_of_lt h), if_neg (Nat.ne_of_lt h), if_pos h]
    · subst h
      simp
    · rw [if_neg (Nat.not_lt.mpr h), if_neg (Nat.not_lt.mpr (Nat.le_of_lt h))]
      have hk : k - g.links.size = (k - (g.links.size + 1)) + 1 := by
        have : g.links.size < k := h
        grind
      rw [hk, List.getElem?_cons_succ]

theorem WellFormed.addOuters (hg : g.WellFormed) {names : List String} (hnd : names.Nodup)
    (hnew : ∀ s ∈ names, ∀ k, g.linkKind k ≠ some (.outer s)) : (g.addOuters names).WellFormed := by
  unfold Bigraph.addOuters
  induction names generalizing g with
  | nil => exact hg
  | cons s names ih =>
    obtain ⟨hs, hnd⟩ := List.nodup_cons.mp hnd
    refine ih (hg.addLink (hnew s (by simp))) hnd fun t ht k => ?_
    rw [linkKind_addLink]
    split
    · intro h
      cases h
      exact hs ht
    · exact hnew t (by simp [ht]) k

end Bigraph

namespace Problem

open Bigraph

variable {q : Problem} {hosts : List PlaceId} {m : Mapping}

theorem addOuterNames_ok {c : Construction} (hg : c.graph.WellFormed) {names : List String}
    (hnd : names.Nodup) (hnew : ∀ s ∈ names, ∀ k, c.graph.linkKind k ≠ some (.outer s)) :
    addOuterNames c names = .ok ⟨c.graph.addOuters names, c.nextLabel⟩ := by
  unfold addOuterNames
  induction names generalizing c with
  | nil => rfl
  | cons s names ih =>
    obtain ⟨hs, hnd⟩ := List.nodup_cons.mp hnd
    rw [List.foldlM_cons, Construction.outer_ok hg (hnew s (by simp))]
    refine ih (c := ⟨c.graph.addLink (.outer s), c.nextLabel⟩) (hg.addLink (hnew s (by simp))) hnd
      fun t ht k => ?_
    simp only
    rw [linkKind_addLink]
    split
    · intro h
      cases h
      exact hs ht
    · exact hnew t (by simp [ht]) k

/-- The parameters, the first of them with the further outer names `parked`. -/
def partGraphs (parts : List Part) (parked : List String) : List Bigraph :=
  match parts with
  | [] => []
  | part :: parts => part.copy.target.graph.addOuters parked :: parts.map (·.copy.target.graph)

/-- The redex inner names that stand for nothing. -/
def parkedNames (q : Problem) (b : Border) : List String :=
  (q.redex.innerIds.map q.redex.innerName).filter (· ∉ b.placed)

/-- The inner names of the context: the outer names of the redex, then the fresh names. -/
def contextNames (q : Problem) (m : Mapping) (b : Border) : List (String × Option LinkId) :=
  q.redex.outerNames.map (fun l => (q.redex.linkName l, q.answer m l)) ++
    b.fresh.map fun e => (e.1, some e.2)

/-- **The pieces of the agent:** what they are copies of. -/
structure Anatomy (q : Problem) (hosts : List PlaceId) (m : Mapping) (pieces : Decomposition)
    (context : Copy) (parts : List Part) (b : Border) : Prop where
  context_eq : pieces.context = context.target.graph
  parameters_eq : pieces.parameters = partGraphs parts (q.parkedNames b)
  fresh_eq : pieces.freshNames = b.fresh.map (·.1)
  context : q.ShowsContext hosts m (q.contextNames m b) context
  parts : ∃ b₀ : Border, b₀.fresh = [] ∧ b₀.placed = [] ∧
    q.PartsOk m [] b₀ q.redex.sites parts b

section Decompose

/-- The names of a part are given to its links while it is copied. -/
theorem new_of_linkKind {content : List PlaceId} {b b' : Border} {part : Part}
    (hpart : q.PartOk m b content part b') {k : LinkId} {s : String}
    (hk : part.copy.target.graph.linkKind k = some (.outer s)) : UsedAt b' s ∧ ¬ UsedAt b s := by
  obtain ⟨l, hl⟩ := hpart.shows.links.of_link (lt_of_linkKind hk)
  have hadmits := hpart.shows.links.admits hl
  rw [hpart.shows.links.kind_eq hl, Option.some.injEq] at hk
  have hmem := become_eq (s := part.copy) hpart.kinds hadmits
  rw [show ((Part.mk part.region part.kinds part.copy).blueprint q).become l = .outer s from hk]
    at hmem
  by_cases hi : q.IsInternal part.region l
  · cases hpart.kinds.internal l _ hmem hi
  · obtain ⟨t, ht, -, hused⟩ := hpart.kinds.leaving l _ hmem hi
    cases ht
    exact hused

variable (hq : q.Proper)
include hq

/-- One more inner name of the context. -/
theorem ShowsContext.inner_ok {names : List (String × Option LinkId)} {s : Copy}
    (hs : q.ShowsContext hosts m names s) (name : String) {l : Option LinkId}
    (hnew : ∀ e ∈ names, e.1 ≠ name) (hl : ∀ a, l = some a → a < q.agent.links.size) :
    ∃ s', s.inner q.contextKind name l = .ok s' ∧
      q.ShowsContext hosts m (names ++ [(name, l)]) s' := by
  obtain ⟨holes, hshows, hholes⟩ := hs.shows
  obtain ⟨s', hstep, hplaces, hsub, hs'⟩ :=
    Copy.inner_ok (contextBlueprint_sound hq) hshows hnew hl
  refine ⟨s', hstep, ?_, ⟨holes, hs', hholes⟩, fun l hl => ?_⟩
  · rw [hplaces]
    exact hs.covers
  · obtain ⟨k, hk⟩ := hs.idle l hl
    exact ⟨k, hsub hk⟩

variable (ho : q.Occurs hosts m)
include ho

theorem lt_of_answer {l a : LinkId} (h : q.answer m l = some a) : a < q.agent.links.size := by
  obtain ⟨r, hr, hlt, -⟩ := linkImage_spec hq ho l
  rw [answer, hr] at h
  exact hlt a h

/-- The outer names of the redex become inner names of the context. -/
theorem addRedexNames_ok {s : Copy} (hs : q.ShowsContext hosts m [] s) :
    ∃ s', q.redex.outerNames.foldlM (q.addRedexName m) s = .ok s' ∧
      q.ShowsContext hosts m
        (q.redex.outerNames.map fun l => (q.redex.linkName l, q.answer m l)) s' := by
  refine foldlM_ok (P := fun done (s : Copy) => q.ShowsContext hosts m
    (done.map fun l => (q.redex.linkName l, q.answer m l)) s) hs ?_
  intro done l rest s hl hs
  obtain ⟨s', hstep, hs'⟩ := hs.inner_ok hq (q.redex.linkName l) (l := q.answer m l)
    (fun e he hname => by
      obtain ⟨k, hk, rfl⟩ := List.mem_map.mp he
      exact ne_of_mem_before hq.redex.nodup_outerNames hl hk hname)
    fun a ha => lt_of_answer hq ho ha
  refine ⟨s', ?_, by rw [List.map_append]; exact hs'⟩
  unfold addRedexName
  rw [linkImage_eq hq ho]
  exact hstep

omit ho in
/-- The fresh names become inner names of the context. -/
theorem addFreshNames_ok {b : Border} (hb : q.BorderOk m b) {s : Copy}
    (hs : q.ShowsContext hosts m
      (q.redex.outerNames.map fun l => (q.redex.linkName l, q.answer m l)) s) :
    ∃ s', b.fresh.foldlM (fun s (name, l) => s.inner q.contextKind name (some l)) s = .ok s' ∧
      q.ShowsContext hosts m (q.contextNames m b) s' := by
  refine foldlM_ok (P := fun (done : List (String × LinkId)) (s : Copy) => q.ShowsContext hosts m
    (q.redex.outerNames.map (fun l => (q.redex.linkName l, q.answer m l)) ++
      done.map fun e => (e.1, some e.2)) s) (by simpa using hs) ?_
  rintro done ⟨name, l⟩ rest s hl hs
  have hmem : (name, l) ∈ b.fresh := by rw [hl]; simp
  obtain ⟨s', hstep, hs'⟩ := hs.inner_ok hq name (l := some l)
    (fun e he hname => by
      rcases List.mem_append.mp he with he | he
      · obtain ⟨k, hk, rfl⟩ := List.mem_map.mp he
        refine hb.fresh_new name (List.mem_map.mpr ⟨(name, l), hmem, rfl⟩) ?_
        rw [← hname]
        exact List.mem_append_left _ (List.mem_map.mpr ⟨k, hk, rfl⟩)
      · obtain ⟨e', he', rfl⟩ := List.mem_map.mp he
        exact ne_of_mem_before hb.fresh_nodup hl he' hname)
    fun a ha => by
      cases ha
      exact hb.fresh_lt name l hmem
  refine ⟨s', hstep, ?_⟩
  rw [List.map_append, ← List.append_assoc]
  exact hs'

omit hq ho in
/-- The names that stand for nothing are not given to any link. -/
theorem not_used_of_parked {b : Border} (hb : q.BorderOk m b) {t : String}
    (ht : t ∈ q.parkedNames b) : ¬ UsedAt b t := by
  obtain ⟨hinner, hplaced⟩ := List.mem_filter.mp ht
  rintro (hp | hf)
  · simp [hp] at hplaced
  · exact hb.fresh_new t hf (List.mem_append_right _ hinner)

omit hq ho in
/-- Copies in which every place hangs from a root are finished as they are. -/
theorem finish_ok {parts : List Part} (hrooted : ∀ part ∈ parts, part.copy.target.graph.Rooted) :
    (parts.map (·.copy.target)).mapM (fun c => c.finish.mapError MatchError.build) =
      .ok (parts.map (·.copy.target.graph)) := by
  induction parts with
  | nil => rfl
  | cons part parts ih =>
    rw [List.map_cons, List.mapM_cons,
      Construction.finish_eq_ok_iff.mpr ⟨rfl, hrooted part (by simp)⟩,
      ih fun part hp => hrooted part (by simp [hp])]
    rfl

omit hq ho in
/-- In the copy of a parameter every place hangs from the root. -/
theorem PartsOk.rooted {b₀ b : Border} {sites : List PlaceId} {parts : List Part}
    (h : q.PartsOk m [] b₀ sites parts b) {part : Part} (hp : part ∈ parts) :
    part.copy.target.graph.Rooted := by
  obtain ⟨j, hj⟩ := List.mem_iff_getElem?.mp hp
  have hlt : j < sites.length := by
    rw [← h.length_eq]
    exact (List.getElem?_eq_some_iff.mp hj).1
  obtain ⟨content, b₁, b₂, -, hpart, -, -⟩ := h.get (List.getElem?_eq_getElem hlt) hj
  exact hpart.shows.rooted

omit ho in
/-- The names that stand for nothing are outer names of the first parameter. -/
theorem parkNames_ok {b₀ b : Border} {sites : List PlaceId} {parts : List Part}
    (h : q.PartsOk m [] b₀ sites parts b) :
    ∃ cs, parkNames (q.parkedNames b) (parts.map (·.copy.target)) = .ok cs ∧
      cs.mapM (fun c => c.finish.mapError MatchError.build) =
        .ok (partGraphs parts (q.parkedNames b)) := by
  have hrooted : ∀ part ∈ parts, part.copy.target.graph.Rooted := fun part hp => h.rooted hp
  have hb := h.border
  cases h with
  | nil => exact ⟨[], rfl, rfl⟩
  | @cons earlier s sites content _ b₁ _ part parts hclaims hb₀ hpart hrest =>
    have hnd : (q.parkedNames b).Nodup := hq.redex.nodup_innerNames.filter _
    have hnew : ∀ t ∈ q.parkedNames b, ∀ k,
        part.copy.target.graph.linkKind k ≠ some (.outer t) := by
      intro t ht k hk
      exact not_used_of_parked hb ht
        ((hrest.used_iff t).mpr (Or.inl (new_of_linkKind hpart hk).1))
    have hstep := addOuterNames_ok hpart.shows.wellFormed hnd hnew
    refine ⟨⟨part.copy.target.graph.addOuters (q.parkedNames b), part.copy.target.nextLabel⟩ ::
      parts.map (·.copy.target), ?_, ?_⟩
    · rw [List.map_cons]
      unfold parkNames
      simp only [hstep]
      rfl
    · have hroot : (part.copy.target.graph.addOuters (q.parkedNames b)).Rooted := by
        intro p hp hpar
        have hviews := places_addOuters (g := part.copy.target.graph) (q.parkedNames b)
        rw [hviews] at hp
        have := hrooted part (by simp) p hp (by rwa [parent, hviews] at hpar)
        rwa [isRoot, rootIndex, kind, hviews]
      rw [List.mapM_cons, Construction.finish_eq_ok_iff.mpr ⟨rfl, hroot⟩,
        finish_ok fun part hp => hrooted part (by simp [hp])]
      rfl

/-- **The agent is taken apart,** unless the context has to be active and is not. -/
theorem decompose_ok (hh : q.HostsIn hosts) (config : MatchConfig) :
    ∃ pieces context parts b, q.Anatomy hosts m pieces context parts b ∧
      q.decompose config hosts m =
        if config.requireActive && !pieces.context.inactiveSites.isEmpty then
          .error (.contextNotActive pieces.context.inactiveSites)
        else .ok pieces := by
  obtain ⟨s₁, hstep₁, hs₁⟩ := copyContext_ok hq hh ho
  obtain ⟨s₂, hstep₂, hs₂⟩ := addRedexNames_ok hq ho hs₁
  obtain ⟨named, hnamed, hb₀⟩ := namedLinks_ok hq ho config.stem
  obtain ⟨parts, b, hparts, hok⟩ := copyParameters_ok hq ho [] q.redex.sites hb₀
  obtain ⟨cs, hpark, hfinish⟩ := parkNames_ok hq hok
  obtain ⟨s₃, hstep₃, hs₃⟩ := addFreshNames_ok hq hok.border hs₂
  obtain ⟨holes, hshows, -⟩ := hs₃.shows
  refine ⟨⟨s₃.target.graph, partGraphs parts (q.parkedNames b), b.fresh.map (·.1)⟩, s₃, parts, b,
    ⟨rfl, rfl, rfl, hs₃, _, rfl, rfl, hok⟩, ?_⟩
  unfold decompose
  simp only [hstep₁, hstep₂, hnamed, bind, Except.bind]
  rw [show q.redex.outerNames.map q.redex.linkName ++ q.redex.innerIds.map q.redex.innerName =
    q.redexNames from rfl]
  simp only [hparts]
  rw [show (q.redex.innerIds.map q.redex.innerName).filter (· ∉ b.placed) = q.parkedNames b from rfl]
  simp only [hpark, hfinish]
  rw [show b.fresh.foldlM _ s₂ = _ from hstep₃]
  simp only
  rw [Construction.finish_eq_ok_iff.mpr ⟨rfl, hshows.rooted⟩]
  simp only [Except.mapError]
  split <;> rfl

omit ho in
/-- **One of the parameters:** the site it is for, what that claims, and what it is a copy of. -/
theorem Anatomy.parameter {pieces : Decomposition} {context : Copy} {parts : List Part} {b : Border}
    (h : q.Anatomy hosts m pieces context parts b) {j : Nat} {P : Bigraph}
    (hP : pieces.parameters[j]? = some P) : ∃ part s content b₁ b₂, parts[j]? = some part ∧
      q.redex.sites[j]? = some s ∧ q.Claims m (q.redex.sites.take j).reverse s content ∧
      q.PartOk m b₁ content part b₂ ∧ b₂.fresh ⊆ b.fresh ∧ P.WellFormed ∧
      P.places = part.copy.target.graph.places ∧
      (∀ k kind, part.copy.target.graph.linkKind k = some kind → P.linkKind k = some kind) ∧
      ∀ k t, P.linkKind k = some (.outer t) →
        part.copy.target.graph.linkKind k = some (.outer t) ∨ t ∈ q.parkedNames b := by
  obtain ⟨b₀, -, -, hparts⟩ := h.parts
  have hlen := hparts.length_eq
  have hcases : ∃ part, parts[j]? = some part ∧ (P = part.copy.target.graph ∨
      P = part.copy.target.graph.addOuters (q.parkedNames b)) := by
    rw [h.parameters_eq] at hP
    unfold partGraphs at hP
    cases parts with
    | nil => simp at hP
    | cons part parts =>
      cases j with
      | zero =>
        simp only [List.getElem?_cons_zero, Option.some.injEq] at hP
        exact ⟨part, rfl, Or.inr hP.symm⟩
      | succ j =>
        simp only [List.getElem?_cons_succ, List.getElem?_map, Option.map_eq_some_iff] at hP
        obtain ⟨part', hj, rfl⟩ := hP
        exact ⟨part', by simpa using hj, Or.inl rfl⟩
  obtain ⟨part, hpart, hgraph⟩ := hcases
  have hj : j < q.redex.sites.length := by
    rw [← hlen]
    exact (List.getElem?_eq_some_iff.mp hpart).1
  obtain ⟨content, b₁, b₂, hclaims, hok, hfresh, hused⟩ :=
    hparts.get (List.getElem?_eq_getElem hj) hpart
  rw [List.append_nil] at hclaims
  refine ⟨part, _, content, b₁, b₂, hpart, List.getElem?_eq_getElem hj, hclaims, hok, hfresh, ?_⟩
  rcases hgraph with rfl | rfl
  · exact ⟨hok.shows.wellFormed, rfl, fun _ _ h => h, fun _ _ h => Or.inl h⟩
  · have hnew : ∀ t ∈ q.parkedNames b, ∀ k,
        part.copy.target.graph.linkKind k ≠ some (.outer t) := fun t ht k hk =>
      not_used_of_parked hparts.border ht (hused t (new_of_linkKind hok hk).1)
    refine ⟨hok.shows.wellFormed.addOuters (hq.redex.nodup_innerNames.filter _) hnew,
      places_addOuters _, fun k kind hk => ?_, fun k t hk => ?_⟩
    · rw [linkKind_addOuters, if_pos (lt_of_linkKind hk), hk]
    · rw [linkKind_addOuters] at hk
      split at hk
      · exact Or.inl hk
      · obtain ⟨t', ht', heq⟩ := Option.map_eq_some_iff.mp hk
        cases heq
        exact Or.inr (List.mem_of_getElem? ht')

omit hq ho in
/-- There is one parameter for each site. -/
theorem Anatomy.length_parameters {pieces : Decomposition} {context : Copy} {parts : List Part}
    {b : Border} (h : q.Anatomy hosts m pieces context parts b) :
    pieces.parameters.length = q.redex.sites.length := by
  obtain ⟨b₀, -, -, hparts⟩ := h.parts
  rw [h.parameters_eq, ← hparts.length_eq]
  unfold partGraphs
  cases parts <;> simp

end Decompose

end Problem

end Bigraphs
