import Bigraphs.Proofs.Matching.Pieces
import Bigraphs.Proofs.Matching.Soundness

/-! # Gluing the links back

The links of the pieces are joined by name (`Joined`): an outer name of a parameter with what the
inner name of that name goes to, in the redex or, for a fresh name, in the context, and an outer name
of the redex with what the inner name of that name goes to in the context. A class of joined links is
a link of the agent, no more and no less (`occurrences_restore_links`), as long as no edge of the redex
has an inner name.

Each link of a piece means a link of the agent (`Means`), and joined links mean the same. Conversely,
a link of the agent either lies within one piece, or each of its parts is joined with the copy in the
context (`PortAt.inside_or_joined`). -/

namespace Bigraphs

/-- The inner name `s` goes to the link `k`. -/
def Bigraph.InnerTo (g : Bigraph) (s : String) (k : LinkId) : Prop :=
  ∃ n, n < g.innerNames.size ∧ g.innerName n = s ∧ g.innerLink n = some k

namespace Copy

open Bigraph

variable {plan : Blueprint} {c : Copy} {names : List (String × Option LinkId)}

theorem ShowsLinks.exists_innerTo {pending : PlaceId → List LinkId}
    (h : ShowsLinks plan pending names c) {s : String} {l : LinkId} (hl : (s, some l) ∈ names) :
    ∃ k, c.target.graph.InnerTo s k ∧ (l, k) ∈ c.links := by
  obtain ⟨n, hn, he⟩ := List.getElem_of_mem hl
  have hn' : n < c.target.graph.innerNames.toList.length := by rw [← h.inner.length_eq]; exact hn
  obtain ⟨hname, hlink⟩ := h.inner.get hn hn'
  rw [Array.length_toList] at hn'
  simp only [List.get_eq_getElem, Array.getElem_toList, he] at hname hlink
  obtain ⟨k, hk, hm⟩ := hlink
  exact ⟨k, ⟨n, hn', by rw [innerName, Array.getElem?_eq_getElem hn']; exact hname,
    by rw [innerLink, Array.getElem?_eq_getElem hn']; exact hk⟩, hm⟩

/-- An inner name of a copy goes to the copy of what it stands for. -/
theorem ShowsLinks.innerTo_iff {pending : PlaceId → List LinkId}
    (h : ShowsLinks plan pending names c) {s : String} {k : LinkId} :
    c.target.graph.InnerTo s k ↔ ∃ l, (s, some l) ∈ names ∧ (l, k) ∈ c.links := by
  have hlen : names.length = c.target.graph.innerNames.size := by
    rw [h.inner.length_eq, Array.length_toList]
  constructor
  · rintro ⟨n, hn, hs, hk⟩
    have hn' : n < names.length := by rw [hlen]; exact hn
    obtain ⟨hname, hlink⟩ := h.inner.get hn' (by rw [Array.length_toList]; exact hn)
    rw [innerName, Array.getElem?_eq_getElem hn] at hs
    rw [innerLink, Array.getElem?_eq_getElem hn] at hk
    simp only [List.get_eq_getElem, Array.getElem_toList] at hname hlink
    have hs : c.target.graph.innerNames[n].name = s := hs
    have hk : c.target.graph.innerNames[n].link = some k := hk
    rw [hname] at hs
    cases hl : names[n].2 with
    | none =>
      rw [hl] at hlink
      simp only at hlink
      rw [hk] at hlink
      cases hlink
    | some l =>
      rw [hl] at hlink
      obtain ⟨k', hk', hm⟩ := hlink
      rw [hk, Option.some.injEq] at hk'
      subst hk'
      exact ⟨l, by rw [← hs, ← hl]; exact List.getElem_mem hn', hm⟩
  · rintro ⟨l, hmem, hm⟩
    obtain ⟨k', hk', hm'⟩ := h.exists_innerTo hmem
    rwa [← show k' = k from congrArg Prod.snd (List.inj_on_of_nodup_map h.keys_nodup hm' hm rfl)]

/-- A copied port is on the copy of its link. -/
theorem Shows.portLink_spec {holes : List (Nat × PlaceId)}
    (h : c.Shows plan holes (fun _ => []) names)
    {v n : PlaceId} (hv : (v, n) ∈ c.places) (i : Nat) :
    (∀ l, plan.source.portLink v i = some l →
      ∃ k, c.target.graph.portLink n i = some k ∧ (l, k) ∈ c.links) ∧
    ∀ k, c.target.graph.portLink n i = some k →
      ∃ l, plan.source.portLink v i = some l ∧ (l, k) ∈ c.links := by
  obtain ⟨done, hdone, hall⟩ := h.links.ports hv
  rw [List.append_nil] at hdone
  unfold portLink
  rw [hdone]
  have hlen := hall.length_eq
  constructor
  · intro l hl
    obtain ⟨hi, rfl⟩ := List.getElem?_eq_some_iff.mp hl
    have hi' := hi
    rw [hlen] at hi'
    exact ⟨_, List.getElem?_eq_getElem hi', hall.get hi hi'⟩
  · intro k hk
    obtain ⟨hi, rfl⟩ := List.getElem?_eq_some_iff.mp hk
    have hi' := hi
    rw [← hlen] at hi'
    exact ⟨_, List.getElem?_eq_getElem hi', hall.get hi' hi⟩

end Copy

/-- A link of one of the pieces. -/
inductive GluedLink where
  | context (k : LinkId)
  | redex (l : LinkId)
  | parameter (j : Nat) (k : LinkId)

namespace Problem

open Bigraph

/-- Two links of the pieces are glued by a name. -/
inductive Joined (q : Problem) (pieces : Decomposition) : GluedLink → GluedLink → Prop where
  | inner {j : Nat} {P : Bigraph} {k s l} : pieces.parameters[j]? = some P →
      P.linkKind k = some (.outer s) → q.redex.InnerTo s l →
      Joined q pieces (.parameter j k) (.redex l)
  | fresh {j : Nat} {P : Bigraph} {k s c} : pieces.parameters[j]? = some P →
      P.linkKind k = some (.outer s) → s ∈ pieces.freshNames → pieces.context.InnerTo s c →
      Joined q pieces (.parameter j k) (.context c)
  | outer {l s c} : q.redex.linkKind l = some (.outer s) → pieces.context.InnerTo s c →
      Joined q pieces (.redex l) (.context c)

/-- **The links are connected** in the glued pieces. -/
def Connected (q : Problem) (pieces : Decomposition) : GluedLink → GluedLink → Prop :=
  Relation.EqvGen (Joined q pieces)

/-- Port `i` of the agent node `v` is there in a piece, on this link of it. -/
inductive PortAt (q : Problem) (m : Mapping) (pieces : Decomposition) (v : PlaceId) (i : Nat) :
    GluedLink → Prop where
  | context {n k s} : q.agent.label v = some s → pieces.context.label n = some s →
      pieces.context.portLink n i = some k → PortAt q m pieces v i (.context k)
  | redex {x l} : (x, v) ∈ m → q.redex.portLink x i = some l → PortAt q m pieces v i (.redex l)
  | parameter {j : Nat} {P : Bigraph} {n k s} : pieces.parameters[j]? = some P →
      q.agent.label v = some s → P.label n = some s → P.portLink n i = some k →
      PortAt q m pieces v i (.parameter j k)

/-- **The links of the agent are restored by its pieces.** -/
structure LinksRestored (q : Problem) (m : Mapping) (pieces : Decomposition) : Prop where
  survives : ∀ v i a, q.agent.portLink v i = some a → ∃! x, PortAt q m pieces v i x
  nothing_added : ∀ v i x, PortAt q m pieces v i x → ∃ a, q.agent.portLink v i = some a
  same_link : ∀ v i a x w j b y, q.agent.portLink v i = some a → PortAt q m pieces v i x →
    q.agent.portLink w j = some b → PortAt q m pieces w j y → (a = b ↔ Connected q pieces x y)
  outer_names : ∀ s, (∃ k, pieces.context.linkKind k = some (.outer s)) ↔
    ∃ a, q.agent.linkKind a = some (.outer s)
  reaches : ∀ v i a x s, q.agent.portLink v i = some a → PortAt q m pieces v i x →
    ((∃ k, pieces.context.linkKind k = some (.outer s) ∧ Connected q pieces x (.context k)) ↔
      q.agent.linkKind a = some (.outer s))
  edges : ∀ v i a x, q.agent.portLink v i = some a → PortAt q m pieces v i x →
    (q.agent.isEdge a ↔
      ∀ k s, Connected q pieces x (.context k) → pieces.context.linkKind k ≠ some (.outer s))
  closed_edges : ∀ l, q.redex.isEdge l → ∀ y, Connected q pieces (.redex l) y → y = .redex l

variable {q : Problem} {hosts : List PlaceId} {m : Mapping} {pieces : Decomposition}
  {context : Copy} {parts : List Part} {b : Border}

/-- The link `a` of the agent is what this link of a piece means. -/
def Means (q : Problem) (m : Mapping) (pieces : Decomposition) (context : Copy) (parts : List Part)
    (b : Border) : GluedLink → LinkId → Prop
  | .context k, a => (a, k) ∈ context.links
  | .redex l, a => q.answer m l = some a
  | .parameter j k, a => (∃ part, parts[j]? = some part ∧ (a, k) ∈ part.copy.links) ∨
      ∃ P s, pieces.parameters[j]? = some P ∧ P.linkKind k = some (.outer s) ∧ q.Stands m b s a

/-! ### Names -/

theorem innerTo_unique {g : Bigraph} (hg : g.WellFormed) {s : String} {k k' : LinkId}
    (h : g.InnerTo s k) (h' : g.InnerTo s k') : k = k' := by
  obtain ⟨n, hn, hs, hk⟩ := h
  obtain ⟨n', hn', hs', hk'⟩ := h'
  rw [hg.innerName_inj hn hn' (hs.trans hs'.symm), hk'] at hk
  exact (Option.some.inj hk).symm

theorem mem_innerNames_of_innerTo {s : String} {l : LinkId} (h : q.redex.InnerTo s l) :
    s ∈ q.redexNames := by
  obtain ⟨n, hn, rfl, -⟩ := h
  exact List.mem_append_right _ (List.mem_map.mpr ⟨n, List.mem_range.mpr hn, rfl⟩)

theorem mem_redexNames_of_outer {s : String} {l : LinkId}
    (h : q.redex.linkKind l = some (.outer s)) : s ∈ q.redexNames :=
  List.mem_append_left _ (List.mem_map.mpr ⟨l, mem_outerNames.mpr ⟨s, h⟩, linkName_of_linkKind h⟩)

theorem Anatomy.border (ha : q.Anatomy hosts m pieces context parts b) : q.BorderOk m b := by
  obtain ⟨b₀, -, -, hparts⟩ := ha.parts
  exact hparts.border

section Names
variable (hq : q.Proper) (ho : q.Occurs hosts m)
  (ha : q.Anatomy hosts m pieces context parts b)
include hq ho

theorem answers_iff {s : String} {a : LinkId} :
    q.Answers m s a ↔ ∃ l, q.redex.InnerTo s l ∧ q.answer m l = some a := by
  unfold Answers InnerTo
  simp only [linkImage_eq hq ho, Except.ok.injEq]
  constructor
  · rintro ⟨n, l, hn, hs, hl, hl'⟩
    exact ⟨l, ⟨n, hn, hs, hl⟩, hl'⟩
  · rintro ⟨l, ⟨n, hn, hs, hl⟩, hl'⟩
    exact ⟨n, l, hn, hs, hl, hl'⟩

omit hq ho in
/-- What the inner names of the context stand for. -/
theorem mem_contextNames {s : String} {a : LinkId} : (s, some a) ∈ q.contextNames m b ↔
    (∃ l, q.redex.linkKind l = some (.outer s) ∧ q.answer m l = some a) ∨ (s, a) ∈ b.fresh := by
  unfold contextNames
  rw [List.mem_append, List.mem_map, List.mem_map]
  constructor
  · rintro (⟨l, hl, he⟩ | ⟨e, he, heq⟩)
    · obtain ⟨t, ht⟩ := mem_outerNames.mp hl
      rw [Prod.mk.injEq, linkName_of_linkKind ht] at he
      obtain ⟨rfl, hans⟩ := he
      exact Or.inl ⟨l, ht, hans⟩
    · cases heq
      exact Or.inr he
  · rintro (⟨l, hl, hans⟩ | he)
    · exact Or.inl ⟨l, mem_outerNames.mpr ⟨s, hl⟩, by rw [linkName_of_linkKind hl, hans]; rfl⟩
    · exact Or.inr ⟨_, he, rfl⟩

include ha

omit hq ho in
theorem innerTo_context {s : String} {k : LinkId} : pieces.context.InnerTo s k ↔
    ∃ a, (s, some a) ∈ q.contextNames m b ∧ (a, k) ∈ context.links := by
  obtain ⟨holes, hshows, -⟩ := ha.context.shows
  rw [ha.context_eq]
  exact hshows.links.innerTo_iff

/-- For a redex name, standing for a link is answering for it. -/
theorem stands_of_innerTo {s : String} {l a : LinkId} (h : q.redex.InnerTo s l) :
    q.Stands m b s a ↔ q.answer m l = some a := by
  unfold Stands
  rw [answers_iff hq ho]
  constructor
  · rintro (⟨l', hl', hans⟩ | hf)
    · rwa [innerTo_unique hq.redex h hl']
    · exact absurd (mem_innerNames_of_innerTo h)
        (ha.border.fresh_new s (List.mem_map.mpr ⟨_, hf, rfl⟩))
  · exact fun hans => Or.inl ⟨l, h, hans⟩

theorem stands_of_fresh {s : String} {a a' : LinkId} (h : (s, a) ∈ b.fresh) :
    q.Stands m b s a' ↔ a' = a := by
  unfold Stands
  rw [answers_iff hq ho]
  constructor
  · rintro (⟨l, hl, -⟩ | hf)
    · exact absurd (mem_innerNames_of_innerTo hl)
        (ha.border.fresh_new s (List.mem_map.mpr ⟨_, h, rfl⟩))
    · exact congrArg Prod.snd (List.inj_on_of_nodup_map ha.border.fresh_nodup hf h rfl)
  · rintro rfl
    exact Or.inr h

/-- A name stands for one link. -/
theorem stands_unique {s : String} {a a' : LinkId} (h : q.Stands m b s a)
    (h' : q.Stands m b s a') : a = a' := by
  rcases h with h | h
  · obtain ⟨l, hl, hans⟩ := (answers_iff hq ho).mp h
    rw [stands_of_innerTo hq ho ha hl, hans] at h'
    exact Option.some.inj h'
  · exact ((stands_of_fresh hq ho ha h).mp h').symm

end Names

/-! ### What links mean -/

section Meaning
variable (hq : q.Proper) (ho : q.Occurs hosts m)
  (ha : q.Anatomy hosts m pieces context parts b)
include hq ha

/-- A link in a parameter is an edge or an outer name that stands for its original. -/
theorem parameter_link {j : Nat} {P : Bigraph} {part : Part} {l k : LinkId}
    (hP : pieces.parameters[j]? = some P) (hpart : parts[j]? = some part)
    (hm : (l, k) ∈ part.copy.links) :
    (q.IsInternal part.region l ∧ ∃ t, P.linkKind k = some (.edge t)) ∨
      (¬ q.IsInternal part.region l ∧ ∃ s, P.linkKind k = some (.outer s) ∧ q.Stands m b s l) := by
  obtain ⟨part', s, content, b₁, b₂, hpart', -, -, hok, hfresh, -, -, hkind, -⟩ :=
    ha.parameter hq hP
  rw [hpart, Option.some.injEq] at hpart'
  subst hpart'
  have hk := hkind k _ (hok.shows.links.kind_eq hm)
  have hmem := become_eq (s := part.copy) hok.kinds (hok.shows.links.admits hm)
  by_cases hi : q.IsInternal part.region l
  · exact Or.inl ⟨hi, _, by rw [hk]; exact congrArg some (hok.kinds.internal l _ hmem hi)⟩
  · obtain ⟨s, hs, hstands, -⟩ := hok.kinds.leaving l _ hmem hi
    exact Or.inr ⟨hi, s, by rw [hk]; exact congrArg some hs, hstands.mono hfresh⟩

/-- An outer name of a parameter means what the name stands for. -/
theorem means_parameter_outer {j : Nat} {P : Bigraph} {k : LinkId} {s : String} {a : LinkId}
    (hP : pieces.parameters[j]? = some P) (hk : P.linkKind k = some (.outer s)) :
    Means q m pieces context parts b (.parameter j k) a ↔ q.Stands m b s a := by
  constructor
  · rintro (⟨part, hpart, hm⟩ | ⟨P', s', hP', hk', hs'⟩)
    · rcases parameter_link hq ha hP hpart hm with ⟨-, t, ht⟩ | ⟨-, s', hs', hstands⟩
      · rw [hk] at ht
        cases ht
      · rw [hk] at hs'
        cases hs'
        exact hstands
    · rw [hP] at hP'
      cases hP'
      rw [hk] at hk'
      cases hk'
      exact hs'
  · exact fun hs => Or.inr ⟨P, s, hP, hk, hs⟩

include ho

/-- **A link of a piece means one link.** -/
theorem Means.unique {x : GluedLink} {a a' : LinkId}
    (h : Means q m pieces context parts b x a) (h' : Means q m pieces context parts b x a') :
    a = a' := by
  cases x with
  | context k =>
    obtain ⟨holes, hshows, -⟩ := ha.context.shows
    exact hshows.original_unique h h'
  | redex l =>
    rw [Means] at h h'
    rw [h] at h'
    exact Option.some.inj h'
  | parameter j k =>
    have key : ∀ {P : Bigraph} {s : String}, pieces.parameters[j]? = some P →
        P.linkKind k = some (.outer s) → a = a' := fun hP hk =>
      stands_unique hq ho ha ((means_parameter_outer hq ha hP hk).mp h)
        ((means_parameter_outer hq ha hP hk).mp h')
    rcases h with ⟨part, hpart, hm⟩ | ⟨P, s, hP, hk, -⟩
    · rcases h' with ⟨part', hpart', hm'⟩ | ⟨P, s, hP, hk, -⟩
      · rw [hpart, Option.some.injEq] at hpart'
        subst hpart'
        obtain ⟨-, -, -, -, -, hshows⟩ := part_spec hq ha hpart
        exact hshows.original_unique hm hm'
      · exact key hP hk
    · exact key hP hk

/-- **Joined links mean the same.** -/
theorem Joined.means_iff {x y : GluedLink} (h : Joined q pieces x y) (a : LinkId) :
    Means q m pieces context parts b x a ↔ Means q m pieces context parts b y a := by
  obtain ⟨holes, hshows, -⟩ := ha.context.shows
  cases h with
  | inner hP hk hs =>
    rw [means_parameter_outer hq ha hP hk]
    exact stands_of_innerTo hq ho ha hs
  | fresh hP hk hs hc =>
    rw [means_parameter_outer hq ha hP hk]
    rw [ha.fresh_eq, List.mem_map] at hs
    obtain ⟨⟨s, a₁⟩, hmem, rfl⟩ := hs
    obtain ⟨a₂, hnames, hm⟩ := (innerTo_context ha).mp hc
    rw [stands_of_fresh hq ho ha hmem]
    rcases (mem_contextNames).mp hnames with ⟨l, hl, -⟩ | hmem'
    · exact absurd (mem_redexNames_of_outer hl)
        (ha.border.fresh_new s (List.mem_map.mpr ⟨_, hmem, rfl⟩))
    · have haa : a₂ = a₁ :=
        congrArg Prod.snd (List.inj_on_of_nodup_map ha.border.fresh_nodup hmem' hmem rfl)
      subst haa
      exact ⟨fun h => by rw [h]; exact hm, fun h => hshows.original_unique h hm⟩
  | @outer l s c hl hc =>
    obtain ⟨a₂, hnames, hm⟩ := (innerTo_context ha).mp hc
    rcases (mem_contextNames).mp hnames with ⟨l', hl', hans⟩ | hmem
    · rw [hq.redex.linkKind_inj hl hl']
      change q.answer m l' = some a ↔ (a, c) ∈ context.links
      rw [hans, Option.some.injEq]
      exact ⟨fun h => by rw [← h]; exact hm, fun h => hshows.original_unique hm h⟩
    · exact absurd (mem_redexNames_of_outer hl)
        (ha.border.fresh_new s (List.mem_map.mpr ⟨_, hmem, rfl⟩))

/-- Connected links mean the same. -/
theorem Connected.means_iff {x y : GluedLink} (h : Connected q pieces x y) (a : LinkId) :
    Means q m pieces context parts b x a ↔ Means q m pieces context parts b y a := by
  induction h with
  | rel _ _ h => exact h.means_iff hq ho ha a
  | refl => exact Iff.rfl
  | symm _ _ _ ih => exact ih.symm
  | trans _ _ _ _ _ ih ih' => exact ih.trans ih'

end Meaning

/-! ### Where the ports are -/

/-- A copied node with a port has the label of its original. -/
theorem exists_label_of_port {plan : Blueprint} {holes : List (Nat × PlaceId)} {c : Copy}
    (h : Copy.ShowsPlaces plan holes c) {v n : PlaceId} {i : Nat} {k : LinkId}
    (hv : (v, n) ∈ c.places) (hk : c.target.graph.portLink n i = some k) :
    ∃ s, plan.source.label v = some s ∧ c.target.graph.label n = some s := by
  obtain ⟨d, hd⟩ := Option.isSome_iff_exists.mp (isNode_of_portLink hk)
  have hlabel : c.target.graph.label n = some d.label := label_eq_some_iff.mpr ⟨d, hd, rfl⟩
  exact ⟨d.label, by rw [← label_of_bare (h.bare_eq hv), hlabel], hlabel⟩

section Ports
variable (hq : q.Proper) (ho : q.Occurs hosts m)
  (ha : q.Anatomy hosts m pieces context parts b)
include hq ha

theorem portAt_context {v : PlaceId} {i : Nat} {k : LinkId} :
    PortAt q m pieces v i (.context k) ↔
      ∃ n, (v, n) ∈ context.places ∧ context.target.graph.portLink n i = some k := by
  obtain ⟨holes, hshows, -⟩ := ha.context.shows
  constructor
  · intro h
    cases h with
    | @context n _ s hv hn hk =>
      rw [ha.context_eq] at hn hk
      exact ⟨n, mem_places_of_label hshows.places hq.agent hn hv, hk⟩
  · rintro ⟨n, hn, hk⟩
    obtain ⟨s, hv, hs⟩ := exists_label_of_port hshows.places hn hk
    exact .context hv (by rw [ha.context_eq, hs]) (by rw [ha.context_eq, hk])

theorem portAt_parameter {v : PlaceId} {i j : Nat} {k : LinkId} :
    PortAt q m pieces v i (.parameter j k) ↔ ∃ part n, parts[j]? = some part ∧
      (v, n) ∈ part.copy.places ∧ part.copy.target.graph.portLink n i = some k := by
  have hviews : ∀ {P g : Bigraph} (n : PlaceId), P.places = g.places →
      P.label n = g.label n ∧ P.portLink n i = g.portLink n i := by
    intro P g n hplaces
    refine ⟨?_, ?_⟩
    · simp only [label, node?, kind, hplaces]
    · simp only [portLink, ports, hplaces]
  constructor
  · intro h
    cases h with
    | @parameter _ P n _ s hP hv hn hk =>
      obtain ⟨part, _, _, _, _, hpart, -, -, hok, -, -, hplaces, -⟩ := ha.parameter hq hP
      rw [(hviews n hplaces).1] at hn
      rw [(hviews n hplaces).2] at hk
      exact ⟨part, n, hpart, mem_places_of_label hok.shows.places hq.agent hn hv, hk⟩
  · rintro ⟨part, n, hpart, hn, hk⟩
    have hlt : j < pieces.parameters.length := by
      obtain ⟨b₀, -, -, hparts⟩ := ha.parts
      rw [ha.length_parameters, ← hparts.length_eq]
      exact (List.getElem?_eq_some_iff.mp hpart).1
    have hP := List.getElem?_eq_getElem hlt
    obtain ⟨part', _, _, _, _, hpart', -, -, hok, -, -, hplaces, -⟩ := ha.parameter hq hP
    rw [hpart, Option.some.injEq] at hpart'
    subst hpart'
    obtain ⟨s, hv, hs⟩ := exists_label_of_port hok.shows.places hn hk
    exact .parameter hP hv (by rw [(hviews n hplaces).1, hs]) (by rw [(hviews n hplaces).2, hk])

include ho

/-- **Every port is in a piece.** -/
theorem exists_portAt {v : PlaceId} {i : Nat} {a : LinkId} (h : q.agent.portLink v i = some a) :
    ∃ x, PortAt q m pieces v i x := by
  have hlt : v < q.agent.places.size := lt_of_isNode (isNode_of_portLink h)
  rcases region_cases hq ho hlt with hc | ⟨x, hx⟩ | ⟨x, y, hm, hr⟩
  · obtain ⟨holes, hshows, -⟩ := ha.context.shows
    obtain ⟨n, hn⟩ := (ha.context.covers v).mpr hc
    obtain ⟨k, hk, -⟩ := (hshows.portLink_spec hn i).1 a h
    exact ⟨.context k, (portAt_context hq ha).mpr ⟨n, hn, hk⟩⟩
  · have hi : i < (q.redex.ports x).length := by
      rw [ho.length_ports x v hx]
      exact (List.getElem?_eq_some_iff.mp h).1
    exact ⟨_, .redex hx (List.getElem?_eq_getElem hi)⟩
  · obtain ⟨j, P, s, part, -, hpart, -, -, hregion⟩ := exists_parameter hq ho ha hm hr
    obtain ⟨-, -, -, -, hcov, hshows⟩ := part_spec hq ha hpart
    obtain ⟨n, hn⟩ := (hcov v).mpr (by rw [hregion]; exact hr)
    obtain ⟨k, hk, -⟩ := (hshows.portLink_spec hn i).1 a h
    exact ⟨.parameter j k, (portAt_parameter hq ha).mpr ⟨part, n, hpart, hn, hk⟩⟩

theorem PortAt.of_context {v : PlaceId} {i : Nat} {k : LinkId}
    (h : PortAt q m pieces v i (.context k)) : ¬ Matched m v ∧ v ∈ q.contextRegion m := by
  obtain ⟨n, hn, -⟩ := (portAt_context hq ha).mp h
  have hc := (ha.context.covers v).mp ⟨n, hn⟩
  exact ⟨((mem_contextRegion hq ho).mp hc).2 v .refl, hc⟩

theorem PortAt.of_parameter {v : PlaceId} {i j : Nat} {k : LinkId}
    (h : PortAt q m pieces v i (.parameter j k)) : ∃ part, parts[j]? = some part ∧
      v ∈ part.region ∧ ¬ Matched m v ∧ v ∉ q.contextRegion m := by
  obtain ⟨part, n, hpart, hn, -⟩ := (portAt_parameter hq ha).mp h
  obtain ⟨-, -, -, -, hcov, -⟩ := part_spec hq ha hpart
  have hv := (hcov v).mp ⟨n, hn⟩
  exact ⟨part, hpart, hv, not_matched_of_mem_region hq ho ha hpart hv⟩

omit hq ho ha in
theorem PortAt.matched {v : PlaceId} {i : Nat} {l : LinkId} (h : PortAt q m pieces v i (.redex l)) :
    Matched m v := by
  cases h with
  | redex hm hl => exact ⟨_, hm⟩

/-- **A port is in one piece only,** and there on one link. -/
theorem PortAt.unique {v : PlaceId} {i : Nat} {x y : GluedLink} (h : PortAt q m pieces v i x)
    (h' : PortAt q m pieces v i y) : x = y := by
  cases x with
  | context k =>
    cases y with
    | context k' =>
      obtain ⟨holes, hshows, -⟩ := ha.context.shows
      obtain ⟨n, hn, hk⟩ := (portAt_context hq ha).mp h
      obtain ⟨n', hn', hk'⟩ := (portAt_context hq ha).mp h'
      rw [hshows.key_unique hn hn', hk'] at hk
      cases hk
      rfl
    | redex l => exact absurd h'.matched (h.of_context hq ho ha).1
    | parameter j k' =>
      obtain ⟨part, -, -, -, hc⟩ := h'.of_parameter hq ho ha
      exact absurd (h.of_context hq ho ha).2 hc
  | redex l =>
    cases y with
    | context k => exact absurd h.matched (h'.of_context hq ho ha).1
    | redex l' =>
      cases h with
      | redex hm hl =>
        cases h' with
        | redex hm' hl' =>
          rw [ho.node_unique hm hm', hl'] at hl
          cases hl
          rfl
    | parameter j k =>
      obtain ⟨part, -, -, hn, -⟩ := h'.of_parameter hq ho ha
      exact absurd h.matched hn
  | parameter j k =>
    obtain ⟨part, hpart, hv, hn, hc⟩ := h.of_parameter hq ho ha
    cases y with
    | context k' => exact absurd (h'.of_context hq ho ha).2 hc
    | redex l => exact absurd h'.matched hn
    | parameter j' k' =>
      obtain ⟨part', hpart', hv', -⟩ := h'.of_parameter hq ho ha
      have hjj := part_unique hq ho ha hpart hpart' hv hv'
      subst hjj
      obtain ⟨-, -, -, -, -, hshows⟩ := part_spec hq ha hpart
      obtain ⟨p, n, hp, hn, hk⟩ := (portAt_parameter hq ha).mp h
      obtain ⟨p', n', hp', hn', hk'⟩ := (portAt_parameter hq ha).mp h'
      rw [hpart, Option.some.injEq] at hp hp'
      subst hp hp'
      rw [hshows.key_unique hn hn', hk'] at hk
      cases hk
      rfl

/-- **The link at a port means the link of the agent there.** -/
theorem PortAt.means {v : PlaceId} {i : Nat} {x : GluedLink} (h : PortAt q m pieces v i x) :
    ∃ a, q.agent.portLink v i = some a ∧ Means q m pieces context parts b x a := by
  cases x with
  | context k =>
    obtain ⟨holes, hshows, -⟩ := ha.context.shows
    obtain ⟨n, hn, hk⟩ := (portAt_context hq ha).mp h
    exact (hshows.portLink_spec hn i).2 k hk
  | redex l =>
    cases h with
    | redex hm hl =>
      obtain ⟨a, hla⟩ := ho.exists_portLink hm hl
      refine ⟨a, hla, ?_⟩
      have himage := linkImage_of_port hq ho hm hl hla
      rw [linkImage_eq hq ho, Except.ok.injEq] at himage
      exact himage
  | parameter j k =>
    obtain ⟨part, n, hpart, hn, hk⟩ := (portAt_parameter hq ha).mp h
    obtain ⟨-, -, -, -, -, hshows⟩ := part_spec hq ha hpart
    obtain ⟨a, hla, hm⟩ := (hshows.portLink_spec hn i).2 k hk
    exact ⟨a, hla, Or.inl ⟨part, hpart, hm⟩⟩

omit hq ho in
/-- What an outer name of the redex or a fresh name stands for is copied into the context. -/
theorem exists_innerTo_context {s : String} {a : LinkId} (h : (s, some a) ∈ q.contextNames m b) :
    ∃ k, pieces.context.InnerTo s k ∧ (a, k) ∈ context.links := by
  obtain ⟨holes, hshows, -⟩ := ha.context.shows
  rw [ha.context_eq]
  exact hshows.links.exists_innerTo h

omit hq ho in
/-- A redex link that is no edge is joined with the context. -/
theorem joined_of_not_edge {l a : LinkId} (hans : q.answer m l = some a) (hlt : l < q.redex.links.size)
    (he : q.redex.isEdge l = false) :
    ∃ k, (a, k) ∈ context.links ∧ Joined q pieces (.redex l) (.context k) := by
  obtain ⟨s, hs⟩ := mem_outerNames.mp (List.mem_filter.mpr ⟨List.mem_range.mpr hlt, by rw [he]; rfl⟩)
  obtain ⟨k, hk, hm⟩ := exists_innerTo_context ha (mem_contextNames.mpr (Or.inl ⟨l, hs, hans⟩))
  exact ⟨k, hm, .outer hs hk⟩

/-- All ports of a closed redex edge go to ports of one agent edge, and these are all it has. -/
theorem PortAt.inside_of_redex {v x : PlaceId} {i : Nat} {a l : LinkId} (hm : (x, v) ∈ m)
    (hl : q.redex.portLink x i = some l) (hva : q.agent.portLink v i = some a)
    (he : q.redex.isEdge l) (hn : ∀ n, q.redex.innerLink n ≠ some l) : q.agent.isEdge a ∧
      ∀ w j y, q.agent.portLink w j = some a → PortAt q m pieces w j y → y = .redex l := by
  obtain ⟨a', hea, hports⟩ := ho.exists_exact_edge hq he hn ⟨x, i, hl⟩
  have haa := (hports v i).mpr ⟨x, hm, hl⟩
  rw [hva, Option.some.injEq] at haa
  subst haa
  refine ⟨hea, fun w j y hw hy => ?_⟩
  obtain ⟨x', hm', hl'⟩ := (hports w j).mp hw
  exact hy.unique hq ho ha (.redex hm' hl')

variable (hinner : ∀ n l, q.redex.innerLink n = some l → q.redex.isEdge l = false)
include hinner

/-- A name of a parameter leads to the context, at once or through the redex. -/
theorem connected_of_stands {j : Nat} {P : Bigraph} {k a : LinkId} {s : String}
    (hP : pieces.parameters[j]? = some P) (hs : P.linkKind k = some (.outer s))
    (hstands : q.Stands m b s a) :
    ∃ c, (a, c) ∈ context.links ∧ Connected q pieces (.parameter j k) (.context c) := by
  rcases hstands with hans | hfresh
  · obtain ⟨l, hl, hla⟩ := (answers_iff hq ho).mp hans
    have ⟨n, _, _, hn⟩ := hl
    obtain ⟨c, hc, hjoined⟩ := joined_of_not_edge ha hla
      (lt_of_mem_points (hq.redex.mem_points_inner.mpr hn)) (hinner n l hn)
    exact ⟨c, hc, .trans _ _ _ (.rel _ _ (.inner hP hs hl)) (.rel _ _ hjoined)⟩
  · obtain ⟨c, hc, hm⟩ := exists_innerTo_context ha (mem_contextNames.mpr (Or.inr hfresh))
    refine ⟨c, hm, .rel _ _ (.fresh hP hs ?_ hc)⟩
    rw [ha.fresh_eq]
    exact List.mem_map.mpr ⟨_, hfresh, rfl⟩

/-- **A link of the agent lies within a piece or is joined with the context:** the first only if it is
an edge. -/
theorem PortAt.inside_or_joined {v : PlaceId} {i : Nat} {a : LinkId} {x : GluedLink}
    (hva : q.agent.portLink v i = some a) (h : PortAt q m pieces v i x) :
    (q.agent.isEdge a ∧
        ∀ w j y, q.agent.portLink w j = some a → PortAt q m pieces w j y → y = x) ∨
      ∃ k, (a, k) ∈ context.links ∧ Connected q pieces x (.context k) := by
  obtain ⟨a', hva', hmeans⟩ := h.means hq ho ha
  rw [hva, Option.some.injEq] at hva'
  subst hva'
  cases x with
  | context k => exact Or.inr ⟨k, hmeans, .refl _⟩
  | redex l =>
    have hla : q.answer m l = some a := hmeans
    cases h with
    | @redex x₀ _ hm hl =>
      cases he : q.redex.isEdge l with
      | false =>
        obtain ⟨k, hk, hjoined⟩ := joined_of_not_edge ha hla
          (lt_of_mem_points (hq.redex.mem_points_port.mpr hl)) he
        exact Or.inr ⟨k, hk, .rel _ _ hjoined⟩
      | true =>
        refine Or.inl (PortAt.inside_of_redex hq ho ha hm hl hva he fun n hn => ?_)
        rw [hinner n l hn] at he
        cases he
  | parameter j k =>
    obtain ⟨part, n, hpart, hn, hk⟩ := (portAt_parameter hq ha).mp h
    obtain ⟨-, -, -, -, hcov, hshows⟩ := part_spec hq ha hpart
    obtain ⟨a₂, hva₂, hlink⟩ := (hshows.portLink_spec hn i).2 k hk
    have haa : some a = some a₂ := hva.symm.trans hva₂
    cases haa
    have hlt : j < pieces.parameters.length := by
      obtain ⟨b₀, -, -, hparts⟩ := ha.parts
      rw [ha.length_parameters, ← hparts.length_eq]
      exact (List.getElem?_eq_some_iff.mp hpart).1
    have hP := List.getElem?_eq_getElem hlt
    rcases parameter_link hq ha hP hpart hlink with ⟨hin, -⟩ | ⟨-, s, hs, hstands⟩
    · -- the edge stays in the parameter, and so do all its ports
      refine Or.inl ⟨hin.1, fun w j' y hw hy => ?_⟩
      obtain ⟨n', hn'⟩ := (hcov w).mpr (hin.2 w j' hw)
      obtain ⟨k', hk', hlink'⟩ := (hshows.portLink_spec hn' j').1 a hw
      rw [hshows.link_unique hlink' hlink] at hk'
      exact hy.unique hq ho ha ((portAt_parameter hq ha).mpr ⟨part, n', hpart, hn', hk'⟩)
    · exact Or.inr (connected_of_stands hq ho ha hinner hP hs hstands)

end Ports

/-! ### The result -/

section Result
variable (hq : q.Proper) (ho : q.Occurs hosts m)
  (ha : q.Anatomy hosts m pieces context parts b)
include hq ha

omit hq in
theorem linkKind_context {a k : LinkId} (h : (a, k) ∈ context.links) :
    pieces.context.linkKind k = q.agent.linkKind a := by
  obtain ⟨holes, hshows, -⟩ := ha.context.shows
  rw [ha.context_eq, hshows.links.kind_eq h, contextKind_eq (hshows.links.admits h)]
  rfl

variable (hinner : ∀ n l, q.redex.innerLink n = some l → q.redex.isEdge l = false)
include ho hinner

/-- **The context has the outer names of the agent.** -/
theorem outerNames_context (s : String) : (∃ k, pieces.context.linkKind k = some (.outer s)) ↔
    ∃ a, q.agent.linkKind a = some (.outer s) := by
  constructor
  · rintro ⟨k, hk⟩
    obtain ⟨holes, hshows, -⟩ := ha.context.shows
    have hlt := lt_of_linkKind hk
    rw [ha.context_eq] at hlt
    obtain ⟨a, hak⟩ := hshows.links.of_link hlt
    exact ⟨a, by rw [← linkKind_context ha hak, hk]⟩
  · rintro ⟨a, hka⟩
    have hcopy : ∃ k, (a, k) ∈ context.links := by
      cases hpoints : q.agent.points a with
      | nil =>
        refine ha.context.idle a (List.mem_filter.mpr ⟨mem_outerNames.mpr ⟨s, hka⟩, ?_⟩)
        rw [hpoints]; rfl
      | cons z points =>
        have hz : z ∈ q.agent.points a := by rw [hpoints]; simp
        cases z with
        | inner n =>
          have hn := hq.agent.mem_points_inner.mp hz
          rw [innerLink, Array.getElem?_eq_none (by rw [innerNames_agent]; exact Nat.zero_le _)] at hn
          cases hn
        | port v i =>
          have hva := hq.agent.mem_points_port.mp hz
          obtain ⟨x, hx⟩ := exists_portAt hq ho ha hva
          rcases hx.inside_or_joined hq ho ha hinner hva with ⟨he, -⟩ | ⟨k, hk, -⟩
          · obtain ⟨t, ht⟩ := isEdge_iff.mp he
            rw [hka] at ht
            cases ht
          · exact ⟨k, hk⟩
    obtain ⟨k, hk⟩ := hcopy
    exact ⟨k, by rw [linkKind_context ha hk, hka]⟩

/-- **A class reaches the outer name of its link,** and no other. -/
theorem connected_outer_iff {v : PlaceId} {i : Nat} {a : LinkId} {x : GluedLink} {s : String}
    (hva : q.agent.portLink v i = some a) (hx : PortAt q m pieces v i x) :
    (∃ k, pieces.context.linkKind k = some (.outer s) ∧ Connected q pieces x (.context k)) ↔
      q.agent.linkKind a = some (.outer s) := by
  obtain ⟨a', hva', hmeans⟩ := hx.means hq ho ha
  rw [hva, Option.some.injEq] at hva'
  subst hva'
  constructor
  · rintro ⟨k, hk, hconn⟩
    have hak : (a, k) ∈ context.links := (hconn.means_iff hq ho ha a).mp hmeans
    rw [← linkKind_context ha hak, hk]
  · intro hka
    rcases hx.inside_or_joined hq ho ha hinner hva with ⟨he, -⟩ | ⟨k, hk, hconn⟩
    · obtain ⟨t, ht⟩ := isEdge_iff.mp he
      rw [hka] at ht
      cases ht
    · exact ⟨k, by rw [linkKind_context ha hk, hka], hconn⟩

/-- **A class is a link of the agent.** -/
theorem connected_iff {v w : PlaceId} {i j : Nat} {a c : LinkId} {x y : GluedLink}
    (hva : q.agent.portLink v i = some a) (hx : PortAt q m pieces v i x)
    (hwc : q.agent.portLink w j = some c) (hy : PortAt q m pieces w j y) :
    a = c ↔ Connected q pieces x y := by
  constructor
  · rintro rfl
    obtain ⟨holes, hshows, -⟩ := ha.context.shows
    rcases hx.inside_or_joined hq ho ha hinner hva with ⟨-, hall⟩ | ⟨k, hk, hconn⟩
    · rw [hall w j y hwc hy]
      exact .refl _
    · rcases hy.inside_or_joined hq ho ha hinner hwc with ⟨-, hall⟩ | ⟨k', hk', hconn'⟩
      · rw [hall v i x hva hx]
        exact .refl _
      · rw [hshows.link_unique hk' hk] at hconn'
        exact .trans _ _ _ hconn (.symm _ _ hconn')
  · intro hconn
    obtain ⟨a', hva', hmeans⟩ := hx.means hq ho ha
    obtain ⟨c', hwc', hmeans'⟩ := hy.means hq ho ha
    rw [hva, Option.some.injEq] at hva'
    rw [hwc, Option.some.injEq] at hwc'
    subst hva' hwc'
    exact Means.unique hq ho ha ((hconn.means_iff hq ho ha a).mp hmeans) hmeans'

omit hq ho ha in
/-- A closed redex edge is joined with nothing. -/
theorem eq_of_connected_edge {l : LinkId} (he : q.redex.isEdge l) {y : GluedLink}
    (h : Connected q pieces (.redex l) y) : y = .redex l := by
  have hjoined : ∀ {x y}, Joined q pieces x y → x ≠ .redex l ∧ y ≠ .redex l := by
    intro x y h
    cases h with
    | inner hP hk hs =>
      refine ⟨by simp, ?_⟩
      rintro ⟨rfl⟩
      obtain ⟨n, -, -, hn⟩ := hs
      rw [hinner n l hn] at he
      cases he
    | fresh hP hk hs hc => exact ⟨by simp, by simp⟩
    | outer hl hc =>
      refine ⟨?_, by simp⟩
      rintro ⟨rfl⟩
      obtain ⟨t, ht⟩ := isEdge_iff.mp he
      rw [hl] at ht
      cases ht
  have key : ∀ {x y}, Connected q pieces x y → (x = .redex l ↔ y = .redex l) := by
    intro x y h
    induction h with
    | rel x y h => exact iff_of_false (hjoined h).1 (hjoined h).2
    | refl => exact Iff.rfl
    | symm _ _ _ ih => exact ih.symm
    | trans _ _ _ _ _ ih ih' => exact ih.trans ih'
  exact (key h).mp rfl

/-- **The pieces restore the links.** -/
theorem linksRestored : q.LinksRestored m pieces where
  survives v i a hva := by
    obtain ⟨x, hx⟩ := exists_portAt hq ho ha hva
    exact ⟨x, hx, fun y hy => hy.unique hq ho ha hx⟩
  nothing_added v i x hx := by
    obtain ⟨a, hva, -⟩ := hx.means hq ho ha
    exact ⟨a, hva⟩
  same_link _ _ _ _ _ _ _ _ hva hx hwc hy := connected_iff hq ho ha hinner hva hx hwc hy
  outer_names := outerNames_context hq ho ha hinner
  reaches _ _ _ _ _ hva hx := connected_outer_iff hq ho ha hinner hva hx
  edges v i a x hva hx := by
    constructor
    · intro he k s hconn hk
      have hka := (connected_outer_iff hq ho ha hinner hva hx).mp ⟨k, hk, hconn⟩
      obtain ⟨t, ht⟩ := isEdge_iff.mp he
      rw [hka] at ht
      cases ht
    · intro hall
      cases he : q.agent.isEdge a with
      | true => rfl
      | false =>
        obtain ⟨s, hs⟩ := mem_outerNames.mp (List.mem_filter.mpr ⟨List.mem_range.mpr
          (lt_of_mem_points (hq.agent.mem_points_port.mpr hva)), by rw [he]; rfl⟩)
        obtain ⟨k, hk, hconn⟩ := (connected_outer_iff hq ho ha hinner hva hx).mpr hs
        exact absurd hk (hall k s hconn)
  closed_edges _ he _ h := eq_of_connected_edge hinner he h

end Result

end Problem

/-- **The links of the agent are restored** by the pieces of everything that is yielded, when no edge
of the redex has an inner name. -/
theorem Matches.occurrences_restore_links (config : MatchConfig) {agent redex : Bigraph}
    (ha : agent.Constructible) (hr : redex.Constructible)
    (hs : agent.signature = redex.signature) (hg : agent.isGround = true)
    (hinner : ∀ n l, redex.innerLink n = some l → redex.isEdge l = false) :
    ∃ ms, Matches.of config agent redex = .ok ms ∧ ∀ o ∈ ms.occurrences.toList,
      ms.problem.LinksRestored o.mapping o.pieces := by
  refine ⟨_, of_eq_ok hs hg, fun o ho => ?_⟩
  have hq := proper_of_constructible ha hr hs hg
  obtain ⟨-, hocc, context, parts, b, hanatomy⟩ := anatomy_of_mem_occurrences hq ho
  exact Problem.linksRestored hq hocc hanatomy hinner

/-- The only inner name goes to the door. -/
theorem inner_roomsInTouch (n : InnerId) (l : LinkId) (h : roomsInTouch.innerLink n = some l) :
    roomsInTouch.isEdge l = false := by
  have hsize : roomsInTouch.innerNames.size = 1 := by decide +kernel
  have hlink : roomsInTouch.innerLink 0 = some 0 := by decide +kernel
  have hn : n < roomsInTouch.innerNames.size := by
    by_contra hn
    rw [Bigraph.innerLink, Array.getElem?_eq_none (Nat.not_lt.mp hn)] at h
    cases h
  rw [hsize, Nat.lt_one_iff] at hn
  rw [hn, hlink, Option.some.injEq] at h
  rw [← h]
  decide +kernel

/-- Both times the person on the corridor is joined through the door, and the one who is linked to the
third room by a fresh name. -/
theorem occurrences_restore_links_busyRooms : busyRooms.Constructible ∧ roomsInTouch.Constructible ∧
    busyRooms.signature = roomsInTouch.signature ∧ busyRooms.isGround = true ∧
    (∀ n l, roomsInTouch.innerLink n = some l → roomsInTouch.isEdge l = false) ∧
    ∃ ms, Matches.of {} busyRooms roomsInTouch = .ok ms ∧
      ms.occurrences.toList.map (fun o =>
        (o.pieces.parameters.map fun g => g.outerNames.map g.linkName, o.pieces.freshNames)) =
        [([["in", "y0"]], ["y0"]), ([["y0", "in"]], ["y0"])] ∧
      ∀ o ∈ ms.occurrences.toList, ms.problem.LinksRestored o.mapping o.pieces := by
  obtain ⟨ms, hms, hall⟩ := Matches.occurrences_restore_links {} constructible_busyRooms
    constructible_roomsInTouch signature_busyRooms isGround_busyRooms inner_roomsInTouch
  refine ⟨constructible_busyRooms, constructible_roomsInTouch, signature_busyRooms, isGround_busyRooms,
    inner_roomsInTouch, ms, hms, ?_, hall⟩
  have heq : Matches.of {} busyRooms roomsInTouch = .ok
      ((Problem.mk busyRooms roomsInTouch isGround_busyRooms).toMatches {}) :=
    Matches.of_eq_ok signature_busyRooms isGround_busyRooms
  rw [heq, Except.ok.injEq] at hms
  subst hms
  decide +kernel

end Bigraphs
