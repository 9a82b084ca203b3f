import Bigraphs.Proofs.Construction.Steps

/-! # The identity on names

The identity on a list of names has no places, one outer name and one inner name for each of them, and
each inner name is wired to the outer name of the same name (`Through`). It can be constructed whenever
no name is repeated (`identityLinking_ok`): the outer name, the inner name and the wire of each name in
turn are not refused. -/

namespace Bigraphs

namespace Bigraph

/-- The outer names, in the order of their creation. -/
def namesOut (g : Bigraph) : List String := g.outerNames.map g.linkName

/-- The inner names, in the order of their creation. -/
def namesIn (g : Bigraph) : List String := g.innerIds.map g.innerName

variable {g : Bigraph}

theorem mem_namesOut {s : String} : s ∈ g.namesOut ↔ ∃ l, g.linkKind l = some (.outer s) := by
  unfold namesOut
  rw [List.mem_map]
  constructor
  · rintro ⟨l, hl, rfl⟩
    obtain ⟨t, ht⟩ := mem_outerNames.mp hl
    exact ⟨l, by rw [linkName_of_linkKind ht]; exact ht⟩
  · rintro ⟨l, hl⟩
    exact ⟨l, mem_outerNames.mpr ⟨s, hl⟩, linkName_of_linkKind hl⟩

@[simp] theorem innerNames_addLink (k : LinkKind) : (g.addLink k).innerNames = g.innerNames := rfl

theorem links_addInner (name : String) : (g.addInner name).links = g.links := rfl

/-- The name given last. -/
theorem innerName_addLink_addInner (k : LinkKind) (s : String) :
    ((g.addLink k).addInner s).innerName g.innerNames.size = s := by
  rw [innerName_addInner, innerNames_addLink, if_pos rfl]

/-- **The identity on `names`:** what goes in under a name goes out under the same name. -/
structure Through (g : Bigraph) (names : List String) : Prop where
  no_places : g.places.size = 0
  size_links : g.links.size = names.length
  size_innerNames : g.innerNames.size = names.length
  linkKind : ∀ l, g.linkKind l = names[l]?.map .outer
  innerName : ∀ i s, names[i]? = some s → g.innerName i = s
  innerLink : ∀ i < names.length, g.innerLink i = some i

namespace Through

variable {names : List String} (h : g.Through names)
include h

theorem namesIn_eq : g.namesIn = names := by
  unfold namesIn innerIds
  rw [h.size_innerNames]
  refine List.ext_getElem (by simp) fun i hi hi' => ?_
  rw [List.getElem_map, List.getElem_range]
  exact h.innerName i _ (List.getElem?_eq_getElem hi')

theorem namesOut_eq : g.namesOut = names := by
  have hall : g.outerNames = g.linkIds := List.filter_eq_self.mpr fun l hl => by
    have hlt : l < names.length := by
      rw [← h.size_links]
      exact List.mem_range.mp hl
    rw [isEdge, h.linkKind, List.getElem?_eq_getElem hlt]; rfl
  unfold namesOut
  rw [hall, linkIds, h.size_links]
  refine List.ext_getElem (by simp) fun l hl hl' => ?_
  rw [List.getElem_map, List.getElem_range, linkName, h.linkKind, List.getElem?_eq_getElem hl']
  rfl

/-- **Each inner name goes to the outer name of the same name.** -/
theorem wired {i : InnerId} (hi : i < g.innerNames.size) :
    ∃ l, g.innerLink i = some l ∧ g.linkKind l = some (.outer (g.innerName i)) := by
  have hi' : i < names.length := by rw [← h.size_innerNames]; exact hi
  have hget := List.getElem?_eq_getElem hi'
  exact ⟨i, h.innerLink i hi', by rw [h.linkKind, hget, h.innerName i _ hget]; rfl⟩

theorem not_mem_outer {s : String} (hs : s ∉ names) (l : LinkId) :
    g.linkKind l ≠ some (.outer s) := by
  intro hl
  rw [h.linkKind, Option.map_eq_some_iff] at hl
  obtain ⟨t, ht, heq⟩ := hl
  cases heq
  exact hs (List.mem_of_getElem? ht)

theorem not_mem_inner {s : String} (hs : s ∉ names) : ∀ i < g.innerNames.size, g.innerName i ≠ s := by
  intro i hi hname
  have hi' : i < names.length := by rw [← h.size_innerNames]; exact hi
  have hget := List.getElem?_eq_getElem hi'
  rw [h.innerName i _ hget] at hname
  exact hs (hname ▸ List.getElem_mem hi')

/-- One more name, wired through. -/
theorem append (s : String) :
    (((g.addLink (.outer s)).addInner s).wire names.length s names.length).Through (names ++ [s]) := by
  let g' := (g.addLink (.outer s)).addInner s
  have hlen : names.length < g'.innerNames.size := by simp [g', h.size_innerNames]
  have hname : g'.innerName names.length = s := by
    rw [← h.size_innerNames]
    exact innerName_addLink_addInner (.outer s) s
  exact {
    no_places := h.no_places
    size_links := by simp [links_addInner, h.size_links]
    size_innerNames := by simp [h.size_innerNames]
    linkKind := fun l => by
      rw [linkKind_wire, show g'.linkKind l = _ from g.linkKind_addLink (.outer s) l, h.size_links,
        h.linkKind]
      rcases Nat.lt_trichotomy l names.length with hl | rfl | hl
      · rw [if_neg (Nat.ne_of_lt hl), List.getElem?_append_left hl]
      · simp
      · rw [if_neg (Nat.ne_of_gt hl), List.getElem?_eq_none (Nat.le_of_lt hl), List.getElem?_eq_none]
        simpa using Nat.succ_le_of_lt hl
    innerName := fun i t hi => by
      have hwire := g'.innerName_wire hlen names.length i
      rw [hname] at hwire
      rw [hwire, innerName_addInner, innerNames_addLink, h.size_innerNames]
      rcases Nat.lt_trichotomy i names.length with hl | rfl | hl
      · rw [if_neg (Nat.ne_of_lt hl)]
        rw [List.getElem?_append_left hl] at hi
        exact h.innerName i t hi
      · simpa using hi
      · rw [List.getElem?_eq_none (by simpa using Nat.succ_le_of_lt hl)] at hi
        cases hi
    innerLink := fun i hi => by
      rw [g'.innerLink_wire hlen, innerLink_addInner]
      rw [List.length_append, List.length_singleton] at hi
      rcases Nat.lt_succ_iff_lt_or_eq.mp hi with hl | rfl
      · rw [if_neg (Nat.ne_of_lt hl)]
        exact h.innerLink i hl
      · rw [if_pos rfl] }

end Through

end Bigraph

namespace Construction

open Bigraph

variable {c : Construction}

/-- The actions for a new name go through. -/
theorem replay_throughActions (hg : c.graph.WellFormed) {names : List String}
    (h : c.graph.Through names) {s : String} (hs : s ∉ names) (n : Nat) (rest : List Action) :
    ∃ c', replayFrom n c (throughActions s names.length ++ rest) = replayFrom (n + 3) c' rest ∧
      c'.graph.WellFormed ∧ c'.graph.Through (names ++ [s]) := by
  have houter := outer_ok hg (h.not_mem_outer hs)
  let c₁ : Construction := ⟨c.graph.addLink (.outer s), c.nextLabel⟩
  have hinner := inner_ok (c := c₁) (h.not_mem_inner hs)
  let c₂ : Construction := ⟨c₁.graph.addInner s, c.nextLabel⟩
  have hname : c₂.graph.innerName names.length = s := by
    rw [← h.size_innerNames]
    exact innerName_addLink_addInner (.outer s) s
  have hfree : c₂.graph.innerLink names.length = none := by
    rw [innerLink_addInner, innerLink, Array.getElem?_eq_none]
    · rfl
    · exact h.size_innerNames.le
  have hwire := wire_ok (c := c₂) (i := names.length) (l := names.length)
    (by simp [c₂, c₁, links_addInner, h.size_links]) (by simp [c₂, c₁, h.size_innerNames]) hfree
  rw [hname] at hwire
  refine ⟨⟨c₂.graph.wire names.length s names.length, c.nextLabel⟩, ?_, ?_, h.append s⟩
  · unfold throughActions
    simp only [List.cons_append, List.nil_append, replayFrom, perform, Step.replying]
    rw [houter]
    simp only [Except.map]
    rw [hinner]
    simp only
    rw [show wire names.length names.length (Construction.mk _ _) = _ from hwire]
  · have h₁ := wellFormed_outer hg s
    rw [houter] at h₁
    have h₂ := wellFormed_inner h₁ s
    rw [hinner] at h₂
    have h₃ := wellFormed_wire (c := c₂) h₂ names.length names.length
    rwa [hwire] at h₃

/-- The actions for the names that are left go through. -/
theorem replay_identity (hg : c.graph.WellFormed) {done names : List String}
    (h : c.graph.Through done) (hnd : (done ++ names).Nodup) (n : Nat) :
    ∃ c', replayFrom n c
        ((names.zipIdx done.length).flatMap fun (name, i) => throughActions name i) = .ok c' ∧
      c'.graph.Through (done ++ names) := by
  induction names generalizing c done n with
  | nil => exact ⟨c, rfl, by rw [List.append_nil]; exact h⟩
  | cons s names ih =>
    have hs : s ∉ done := not_mem_before hnd rfl
    rw [List.append_cons] at hnd
    obtain ⟨c₁, hstep, hg₁, h₁⟩ := replay_throughActions hg h hs n
      ((names.zipIdx (done ++ [s]).length).flatMap fun (name, i) => throughActions name i)
    obtain ⟨c₂, hrest, h₂⟩ := ih hg₁ h₁ hnd (n + 3)
    rw [← List.append_cons] at h₂
    refine ⟨c₂, ?_, h₂⟩
    rw [hrest, List.length_append, List.length_singleton] at hstep
    rw [List.zipIdx_cons, List.flatMap_cons]
    exact hstep

end Construction

namespace Bigraph

/-- **The identity on different names is constructed.** -/
theorem identityLinking_ok (s : Signature) {names : List String} (hnd : names.Nodup) :
    ∃ g, identityLinking s names = .ok g ∧ g.Through names := by
  have hempty : (Bigraph.empty s).Through [] :=
    ⟨rfl, rfl, rfl, fun l => by simp [linkKind, Bigraph.empty], by simp, by simp⟩
  obtain ⟨c, hreplay, hc⟩ := Construction.replay_identity (c := .new s) (WellFormed.empty s) hempty
    (show ([] ++ names).Nodup from hnd) 0
  refine ⟨c.graph, ?_, hc⟩
  have hrooted : c.graph.Rooted := fun p hp => by
    rw [hc.no_places] at hp
    exact absurd hp (Nat.not_lt_zero _)
  unfold identityLinking ofActions
  rw [show (Construction.new s).replayFrom 0 (names.zipIdx.flatMap _) = _ from hreplay]
  simp only
  rw [Construction.finish_eq_ok_iff.mpr ⟨rfl, hrooted⟩]
  rfl

end Bigraph

end Bigraphs
