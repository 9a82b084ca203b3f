import Bigraphs.Proofs.Graph.Walks

/-! # Children first

Post-order visits no place twice (`nodup_postOrder`), and every place after all its children
(`childrenFirst_postOrder`). -/

namespace Bigraphs

namespace Bigraph

variable {g : Bigraph}

/-- Every place of the list comes after all its children. -/
def ChildrenFirst (g : Bigraph) (l : List PlaceId) : Prop :=
  ∀ done v rest, l = done ++ v :: rest → ∀ c, g.parent c = some v → c ∈ done

theorem ChildrenFirst.append {l l' : List PlaceId} (h : g.ChildrenFirst l)
    (h' : g.ChildrenFirst l') : g.ChildrenFirst (l ++ l') := by
  intro done v rest heq c hc
  rcases List.append_eq_append_iff.mp heq with ⟨a, rfl, hl'⟩ | ⟨a, hl, ha⟩
  · exact List.mem_append_right _ (h' a v rest hl' c hc)
  · cases a with
    | nil =>
      rw [List.append_nil] at hl
      subst hl
      have hmem := h' [] v rest (by simpa using ha.symm) c hc
      simp at hmem
    | cons w a =>
      rw [List.cons_append, List.cons.injEq] at ha
      obtain ⟨rfl, -⟩ := ha
      exact h done v a hl c hc

theorem ChildrenFirst.flatMap {f : PlaceId → List PlaceId} {l : List PlaceId}
    (h : ∀ x ∈ l, g.ChildrenFirst (f x)) : g.ChildrenFirst (l.flatMap f) := by
  induction l with
  | nil => exact fun done v rest heq => by simp at heq
  | cons x l ih =>
    rw [List.flatMap_cons]
    exact (h x (by simp)).append (ih fun y hy => h y (by simp [hy]))

/-- A place after a list that holds all its children. -/
theorem ChildrenFirst.concat {l : List PlaceId} {p : PlaceId} (h : g.ChildrenFirst l)
    (hp : ∀ c, g.parent c = some p → c ∈ l) : g.ChildrenFirst (l ++ [p]) := by
  intro done v rest heq c hc
  rcases List.append_eq_append_iff.mp heq with ⟨a, rfl, ha⟩ | ⟨a, hl, ha⟩
  · cases a with
    | nil =>
      simp only [List.nil_append, List.cons.injEq] at ha
      rw [← ha.1] at hc
      rw [List.append_nil]
      exact hp c hc
    | cons w a =>
      rw [List.cons_append, List.cons.injEq] at ha
      simp at ha
  · cases a with
    | nil =>
      simp only [List.nil_append, List.cons.injEq] at ha
      rw [ha.1] at hc
      rw [List.append_nil] at hl
      rw [← hl]
      exact hp c hc
    | cons w a =>
      rw [List.cons_append, List.cons.injEq] at ha
      obtain ⟨rfl, -⟩ := ha
      exact h done v a hl c hc

namespace WellFormed

variable (hg : g.WellFormed)
include hg

theorem childrenFirst_postOrderFrom {n : Nat} {p : PlaceId}
    (hn : g.places.size ≤ g.depth p + n) : g.ChildrenFirst (g.postOrderFrom n p) := by
  induction n generalizing p with
  | zero => exact fun done v rest heq => by simp [postOrderFrom] at heq
  | succ n ih =>
    unfold postOrderFrom
    refine ChildrenFirst.concat (ChildrenFirst.flatMap fun c hc => ih ?_) fun c hc => ?_
    · rw [hg.depth_of_parent (hg.mem_children.mp hc)]
      omega
    · refine List.mem_flatMap.mpr ⟨c, hg.mem_children.mpr hc, hg.mem_postOrderFrom.mpr ⟨.refl, ?_⟩⟩
      have hlt := hg.depth_lt (lt_of_parent hc)
      rw [hg.depth_of_parent hc] at hlt ⊢
      omega

/-- **In post-order every place comes after all its children.** -/
theorem childrenFirst_postOrder : g.ChildrenFirst g.postOrder :=
  ChildrenFirst.flatMap fun _ _ => hg.childrenFirst_postOrderFrom (by omega)

/-- Different places at one depth have nothing below them in common. -/
theorem eq_of_depth_eq {a b x : PlaceId} (hd : g.depth a = g.depth b) (ha : g.AboveEq a x)
    (hb : g.AboveEq b x) : a = b := by
  rcases aboveEq_total ha hb with h | h
  · rcases aboveEq_iff.mp h with h | h
    · exact h
    · have := hg.depth_lt_of_above h
      omega
  · rcases aboveEq_iff.mp h with h | h
    · exact h.symm
    · have := hg.depth_lt_of_above h
      omega

theorem nodup_postOrderFrom {n : Nat} {p : PlaceId} : (g.postOrderFrom n p).Nodup := by
  induction n generalizing p with
  | zero => exact .nil
  | succ n ih =>
    unfold postOrderFrom
    refine List.nodup_append.mpr ⟨List.nodup_flatMap.mpr ⟨fun c _ => ih, ?_⟩, by simp, ?_⟩
    · refine (hg.nodup_children p).imp_of_mem fun {c d} hc hd hne x hcx hdx => hne ?_
      refine hg.eq_of_depth_eq ?_ (hg.mem_postOrderFrom.mp hcx).1 (hg.mem_postOrderFrom.mp hdx).1
      rw [hg.depth_of_parent (hg.mem_children.mp hc), hg.depth_of_parent (hg.mem_children.mp hd)]
    · rintro x hx y hy rfl
      obtain ⟨c, hc, hcx⟩ := List.mem_flatMap.mp hx
      rw [List.mem_singleton.mp hy] at hcx
      exact hg.not_above_self p
        (Relation.TransGen.head' (hg.mem_children.mp hc) (hg.mem_postOrderFrom.mp hcx).1)

/-- **Post-order visits no place twice.** -/
theorem nodup_postOrder : g.postOrder.Nodup := by
  refine List.nodup_flatMap.mpr ⟨fun _ _ => hg.nodup_postOrderFrom, ?_⟩
  refine nodup_roots.imp_of_mem fun {r s} hr hs hne x hrx hsx => hne ?_
  exact hg.root_unique (mem_roots.mp hr) (mem_roots.mp hs) (hg.mem_postOrderFrom.mp hrx).1
    (hg.mem_postOrderFrom.mp hsx).1

end WellFormed

end Bigraph

end Bigraphs
