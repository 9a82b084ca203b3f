import Bigraphs.Graph.Basic
import Mathlib.Data.List.Forall2
import Mathlib.Data.List.Nodup
import Mathlib.Data.List.Perm.Subperm
import Mathlib.Data.List.Sort
import Mathlib.Order.Nat
import Mathlib.Tactic.ByContra

/-! # Lists

Counting arguments on lists without repetition, the facts about `eraseDups` and `lookup` that the
library does not have, and the rule for loops that can be refused (`foldlM_ok`). What is known of the sort
of the library goes for `sortBy` (`sortBy_eq_insertionSort`). -/

namespace Bigraphs

theorem insertBy_eq_orderedInsert {α : Type} (le : α → α → Prop) [DecidableRel le] :
    insertBy le = List.orderedInsert le := by
  funext a l
  induction l with
  | nil => rfl
  | cons b bs ih => rw [insertBy, List.orderedInsert_cons, ih]

/-- **The sort** is that of the library. -/
theorem sortBy_eq_insertionSort {α : Type} (le : α → α → Prop) [DecidableRel le] :
    sortBy le = List.insertionSort le := by
  funext l
  rw [sortBy, insertBy_eq_orderedInsert, List.insertionSort]

theorem length_le_of_nodup {n : Nat} {l : List Nat} (hl : l.Nodup) (h : ∀ x ∈ l, x < n) :
    l.length ≤ n := by
  have := (List.subperm_of_subset hl fun x hx => List.mem_range.mpr (h x hx)).length_le
  simpa using this

theorem nodup_eraseDups {α : Type} [BEq α] [LawfulBEq α] (l : List α) : l.eraseDups.Nodup := by
  generalize hn : l.length = n
  induction n using Nat.strong_induction_on generalizing l with
  | _ n ih =>
    cases l with
    | nil => simp
    | cons a l =>
      rw [List.eraseDups_cons]
      refine List.nodup_cons.mpr ⟨by simp, ih _ ?_ _ rfl⟩
      rw [← hn, List.length_cons]
      exact Nat.lt_succ_of_le (List.length_filter_le _ _)

theorem nodup_append_singleton {α : Type} {l : List α} {a : α} (hl : l.Nodup) (ha : a ∉ l) :
    (l ++ [a]).Nodup := by
  rw [← List.concat_eq_append]
  exact hl.concat ha

/-- An element of a list without repetition does not come earlier in the list. -/
theorem not_mem_before {α : Type} {l done rest : List α} {a : α} (hnd : l.Nodup)
    (hl : l = done ++ a :: rest) : a ∉ done := by
  rw [hl] at hnd
  exact fun h => (List.nodup_append.mp hnd).2.2 a h a List.mem_cons_self rfl

theorem ne_of_mem_before {α β : Type} {f : α → β} {l done rest : List α} {a b : α}
    (hnd : (l.map f).Nodup) (hl : l = done ++ a :: rest) (hb : b ∈ done) : f b ≠ f a := by
  rw [hl, List.map_append] at hnd
  exact (List.nodup_append.mp hnd).2.2 _ (List.mem_map_of_mem hb) _ (by simp)

theorem mem_of_lookup {α β : Type} [BEq α] [LawfulBEq α] {l : List (α × β)} {a : α} {b : β}
    (h : l.lookup a = some b) : (a, b) ∈ l := by
  obtain ⟨l₁, l₂, rfl, -⟩ := List.lookup_eq_some_iff.mp h
  simp

theorem exists_of_forall₂ {α β : Type} {R : α → β → Prop} {l : List α} {k : List β}
    (h : List.Forall₂ R l k) {a : α} (ha : a ∈ l) : ∃ b ∈ k, R a b := by
  obtain ⟨i, hi, rfl⟩ := List.getElem_of_mem ha
  have hi' : i < k.length := by rw [← h.length_eq]; exact hi
  exact ⟨k[i], List.getElem_mem hi', h.get hi hi'⟩

/-- Lists that go together in pairs, the first without repetition: a map leads from the one to the
other. -/
theorem exists_map_of_forall₂ {α β : Type} [DecidableEq α] [Inhabited β] {R : α → β → Prop} {l : List α}
    {k : List β} (h : List.Forall₂ R l k) (hl : l.Nodup) : ∃ f, k = l.map f ∧ ∀ a ∈ l, R a (f a) := by
  induction h with
  | nil => exact ⟨fun _ => default, rfl, by simp⟩
  | @cons a b l k hab _ ih =>
    obtain ⟨ha, hl⟩ := List.nodup_cons.mp hl
    obtain ⟨f, rfl, hf⟩ := ih hl
    have hrest : ∀ c ∈ l, Function.update f a b c = f c := fun c hc =>
      Function.update_of_ne (fun h : c = a => ha (h ▸ hc)) b f
    refine ⟨Function.update f a b, ?_, fun c hc => ?_⟩
    · rw [List.map_cons, Function.update_self, List.map_congr_left hrest]
    · rcases List.mem_cons.mp hc with rfl | hc
      · rwa [Function.update_self]
      · rw [hrest c hc]
        exact hf c hc

theorem exists_forall₂_iff {α β : Type} {R : α → β → Prop} {ys : List β} :
    (∃ xs, List.Forall₂ R xs ys) ↔ ∀ y ∈ ys, ∃ x, R x y := by
  induction ys with
  | nil => simp
  | cons y ys ih =>
    rw [List.forall_mem_cons, ← ih]
    constructor
    · rintro ⟨_, _ | ⟨hx, hxs⟩⟩
      exact ⟨⟨_, hx⟩, _, hxs⟩
    · rintro ⟨⟨x, hx⟩, xs, hxs⟩
      exact ⟨x :: xs, .cons hx hxs⟩

/-- A default that is not among the values says that there is no value. -/
theorem eq_of_getD_eq {α : Type} {o o' : Option α} {d : α} (ho : o ≠ some d) (ho' : o' ≠ some d)
    (h : o.getD d = o'.getD d) : o = o' := by
  cases o with
  | none =>
    cases o' with
    | none => rfl
    | some b => exact absurd (congrArg some h.symm) ho'
  | some a =>
    cases o' with
    | none => exact absurd (congrArg some h) ho
    | some b => exact congrArg some h

/-- Members with the same keys go together, if the keys say which one it is. -/
theorem eq_map_of_map_eq {α β κ : Type} {key : α → κ} {key' : β → κ} {f : α → β} {l : List α} {k : List β}
    (hkey : ∀ a ∈ l, ∀ b ∈ k, key a = key' b → b = f a) (h : l.map key = k.map key') : k = l.map f := by
  induction l generalizing k with
  | nil => exact List.map_eq_nil_iff.mp h.symm
  | cons a l ih =>
    cases k with
    | nil => cases h
    | cons b k =>
      obtain ⟨hab, h⟩ := List.cons.inj h
      rw [List.map_cons, hkey a (by simp) b (by simp) hab,
        ih (fun c hc d hd => hkey c (by simp [hc]) d (by simp [hd])) h]

/-- The same for what there is at most one of. -/
theorem option_eq_map_of_map_eq {α β κ : Type} {key : α → κ} {key' : β → κ} {f : α → β} {o : Option α}
    {o' : Option β} (hkey : ∀ a, o = some a → ∀ b, o' = some b → key a = key' b → b = f a)
    (h : o.map key = o'.map key') : o' = o.map f := by
  cases o with
  | none => exact Option.map_eq_none_iff.mp h.symm
  | some a =>
    cases o' with
    | none => cases h
    | some b => exact congrArg some (hkey a rfl b rfl (Option.some.inj h))

/-- Elements of two kinds can be told apart in a rearrangement. -/
theorem perm_of_append_perm {α : Type} {p : α → Bool} {l₁ l₂ k₁ k₂ : List α}
    (h : (l₁ ++ l₂).Perm (k₁ ++ k₂)) (hl₁ : ∀ a ∈ l₁, p a) (hl₂ : ∀ a ∈ l₂, p a = false)
    (hk₁ : ∀ a ∈ k₁, p a) (hk₂ : ∀ a ∈ k₂, p a = false) : l₁.Perm k₁ ∧ l₂.Perm k₂ := by
  have hfilter : ∀ {m₁ m₂ : List α}, (∀ a ∈ m₁, p a) → (∀ a ∈ m₂, p a = false) →
      (m₁ ++ m₂).filter p = m₁ ∧ (m₁ ++ m₂).filter (!p ·) = m₂ := by
    intro m₁ m₂ h₁ h₂
    constructor
    · rw [List.filter_append, List.filter_eq_self.mpr h₁, List.filter_eq_nil_iff.mpr (by simpa using h₂),
        List.append_nil]
    · rw [List.filter_append, List.filter_eq_nil_iff.mpr (by simpa using h₁),
        List.filter_eq_self.mpr (by simpa using h₂), List.nil_append]
  obtain ⟨hl, hl'⟩ := hfilter hl₁ hl₂
  obtain ⟨hk, hk'⟩ := hfilter hk₁ hk₂
  exact ⟨by rw [← hl, ← hk]; exact h.filter p, by rw [← hl', ← hk']; exact h.filter _⟩

/-- In lists put together for distinct keys, the elements with one key are the list for this key. -/
theorem filter_flatMap_of_key {α β : Type} [DecidableEq α] {keys : List α} {f : α → List β}
    {key : β → α} (hnd : keys.Nodup) (hkey : ∀ a, ∀ b ∈ f a, key b = a) {a : α} (ha : a ∈ keys) :
    (keys.flatMap f).filter (key · = a) = f a := by
  have hblock : ∀ c, (f c).filter (key · = a) = if c = a then f a else [] := by
    intro c
    split
    next heq =>
      rw [heq]
      exact List.filter_eq_self.mpr fun b hb => decide_eq_true (hkey a b hb)
    next hne =>
      exact List.filter_eq_nil_iff.mpr fun b hb h => hne ((hkey c b hb).symm.trans (of_decide_eq_true h))
  rw [List.filter_flatMap]
  simp only [hblock]
  induction keys with
  | nil => cases ha
  | cons c keys ih =>
    obtain ⟨hc, hnd⟩ := List.nodup_cons.mp hnd
    rw [List.flatMap_cons]
    by_cases heq : c = a
    · have hothers : keys.flatMap (fun d => if d = a then f a else []) = [] :=
        List.flatMap_eq_nil_iff.mpr fun d hd => if_neg fun h : d = a => hc (heq.trans h.symm ▸ hd)
      rw [if_pos heq, hothers, List.append_nil]
    · rw [if_neg heq, List.nil_append, ih hnd ((List.mem_cons.mp ha).resolve_left (Ne.symm heq))]

/-- A loop in which every step goes through and extends what holds of the elements done so far. -/
theorem foldlM_ok {σ α ε : Type} {f : σ → α → Except ε σ} {P : List α → σ → Prop} {l : List α}
    {s : σ} (start : P [] s)
    (step : ∀ done a rest s, l = done ++ a :: rest → P done s →
      ∃ s', f s a = .ok s' ∧ P (done ++ [a]) s') :
    ∃ s', l.foldlM f s = .ok s' ∧ P l s' := by
  have key : ∀ rest done s, l = done ++ rest → P done s →
      ∃ s', rest.foldlM f s = .ok s' ∧ P l s' := by
    intro rest
    induction rest with
    | nil =>
      intro done s hl h
      rw [List.append_nil] at hl
      exact ⟨s, rfl, hl ▸ h⟩
    | cons a rest ih =>
      intro done s hl h
      obtain ⟨s₁, hs₁, h₁⟩ := step done a rest s hl h
      obtain ⟨s₂, hs₂, h₂⟩ := ih (done ++ [a]) s₁ (by rw [hl, List.append_assoc]; rfl) h₁
      exact ⟨s₂, by rw [List.foldlM_cons, hs₁]; exact hs₂, h₂⟩
  exact key l [] s rfl start

/-- A loop whose steps extend what holds of the elements done so far. -/
theorem foldl_spec {σ α : Type} {f : σ → α → σ} {P : List α → σ → Prop} {l : List α} {s : σ}
    (start : P [] s)
    (step : ∀ done a rest s, l = done ++ a :: rest → P done s → P (done ++ [a]) (f s a)) :
    P l (l.foldl f s) := by
  have key : ∀ rest done s, l = done ++ rest → P done s → P l (rest.foldl f s) := by
    intro rest
    induction rest with
    | nil =>
      intro done s hl h
      rw [List.append_nil] at hl
      exact hl ▸ h
    | cons a rest ih =>
      intro done s hl h
      exact ih (done ++ [a]) (f s a) (by rw [hl, List.append_assoc]; rfl) (step done a rest s hl h)
  exact key l [] s rfl start

theorem lookup_of_nodup {α β : Type} [BEq α] [LawfulBEq α] {l : List (α × β)} {a : α} {b : β}
    (hl : (l.map (·.1)).Nodup) (h : (a, b) ∈ l) : l.lookup a = some b := by
  cases hk : l.lookup a with
  | none => simpa using List.lookup_eq_none_iff.mp hk _ h
  | some c =>
    rw [(Prod.mk.inj (List.inj_on_of_nodup_map hl (mem_of_lookup hk) h rfl)).2]

theorem exists_first {α : Type} {l : List α} {P : α → Prop} (h : ∃ a ∈ l, P a) :
    ∃ (j : Nat) (a : α), l[j]? = some a ∧ P a ∧ ∀ b ∈ l.take j, ¬ P b := by
  induction l with
  | nil => simp at h
  | cons a l ih =>
    by_cases ha : P a
    · exact ⟨0, a, rfl, ha, by simp⟩
    · obtain ⟨b, hb, hP⟩ := h
      have hb : b ∈ l := (List.mem_cons.mp hb).resolve_left (by rintro rfl; exact ha hP)
      obtain ⟨j, c, hc, hPc, hfirst⟩ := ih ⟨b, hb, hP⟩
      refine ⟨j + 1, c, by simpa using hc, hPc, fun d hd => ?_⟩
      rcases List.mem_cons.mp (by simpa using hd) with rfl | hd
      · exact ha
      · exact hfirst d hd

end Bigraphs
