import Bigraphs.Graph.Interface
import Bigraphs.Proofs.Lists
import Mathlib.Data.List.Basic
import Mathlib.Data.String.Basic
import Mathlib.Tactic.ByContra

/-! # Texts that can be taken apart

What is put together with marks between the parts can be taken apart again where no part holds the mark
after it (`eq_of_append_mark`, `eq_of_intercalate_comma`). Digits are no marks (`not_mem_toString`). A list
of texts in order only says which texts it holds, and how often (`sortNames_eq_iff`). -/

namespace Bigraphs

/-- A text is told from what follows it by a character that it does not hold. -/
theorem eq_of_append_cons {c : Char} {s t r r' : List Char} (hs : c ∉ s) (ht : c ∉ t)
    (h : s ++ c :: r = t ++ c :: r') : s = t ∧ r = r' := by
  induction s generalizing t with
  | nil =>
    cases t with
    | nil => exact ⟨rfl, (List.cons.inj h).2⟩
    | cons d t => exact absurd (List.cons.inj h).1 (List.ne_of_not_mem_cons ht)
  | cons d s ih =>
    cases t with
    | nil => exact absurd (List.cons.inj h).1.symm (List.ne_of_not_mem_cons hs)
    | cons e t =>
      obtain ⟨hde, h⟩ := List.cons.inj h
      obtain ⟨hst, hr⟩ := ih (List.not_mem_of_not_mem_cons hs) (List.not_mem_of_not_mem_cons ht) h
      exact ⟨by rw [hde, hst], hr⟩

/-- The same for strings, where the character is a string of its own. -/
theorem eq_of_append_mark {c : Char} {mark s t r r' : String} (hmark : mark.toList = [c])
    (hs : c ∉ s.toList) (ht : c ∉ t.toList) (h : s ++ (mark ++ r) = t ++ (mark ++ r')) :
    s = t ∧ r = r' := by
  have h := congrArg String.toList h
  simp only [String.toList_append, hmark, List.singleton_append] at h
  obtain ⟨hst, hr⟩ := eq_of_append_cons hs ht h
  exact ⟨String.toList_inj.mp hst, String.toList_inj.mp hr⟩

/-- A number is written with digits only. -/
theorem not_mem_toString {c : Char} (hc : c.isDigit = false) (n : Nat) : c ∉ (toString n).toList := by
  intro hm
  rw [Nat.toString_eq_repr, Nat.repr_eq_ofList_toDigits, String.toList_ofList] at hm
  rw [Nat.isDigit_of_mem_toDigits (by decide) (by decide) hm] at hc
  cases hc

theorem toString_inj {m n : Nat} (h : toString m = toString n) : m = n := by
  have h := congrArg (fun s => Nat.ofDigitChars 10 s.toList 0) h
  simpa [toString] using h

/-- **A list of texts with commas between them,** if none of them is empty or holds a comma. -/
theorem eq_of_intercalate_comma {texts texts' : List String} (h : ∀ t ∈ texts, t ≠ "" ∧ ',' ∉ t.toList)
    (h' : ∀ t ∈ texts', t ≠ "" ∧ ',' ∉ t.toList)
    (heq : ",".intercalate texts = ",".intercalate texts') : texts = texts' := by
  have hne : ∀ ts : List String, (∀ t ∈ ts, t ≠ "" ∧ ',' ∉ t.toList) → ts ≠ [] →
      (",".intercalate ts).toList.splitOn ',' = ts.map String.toList := by
    intro ts hts hnil
    rw [String.toList_intercalate]
    refine List.splitOn_intercalate ',' (fun l hl => ?_) (by simpa using hnil)
    obtain ⟨t, ht, rfl⟩ := List.mem_map.mp hl
    exact (hts t ht).2
  -- the text of the empty list splits into one empty part
  have hnil : ∀ ts : List String, (∀ t ∈ ts, t ≠ "" ∧ ',' ∉ t.toList) →
      ",".intercalate ts = "" → ts = [] := by
    intro ts hts hempty
    by_contra hcons
    have hsplit := hne ts hts hcons
    rw [hempty] at hsplit
    cases ts with
    | nil => exact hcons rfl
    | cons t ts => exact (hts t (by simp)).1 (String.toList_inj.mp (List.cons.inj hsplit).1.symm)
  by_cases htexts : texts = []
  · rw [htexts] at heq
    rw [htexts, hnil texts' h' heq.symm]
  · have htexts' : texts' ≠ [] := fun hn => htexts (hnil texts h (by rw [heq, hn]; rfl))
    have hsplit := (hne texts h htexts).symm.trans ((congrArg (·.toList.splitOn ',') heq).trans
      (hne texts' h' htexts'))
    exact List.map_injective_iff.mpr (fun _ _ => String.toList_inj.mp) hsplit

theorem sortNames_perm (l : List String) : (sortNames l).Perm l := by
  rw [sortNames, sortBy_eq_insertionSort]
  exact List.perm_insertionSort _ _

/-- In order, two lists agree if they hold the same names. -/
theorem sortNames_eq_iff {l k : List String} : sortNames l = sortNames k ↔ l.Perm k := by
  constructor
  · intro h
    exact (sortNames_perm l).symm.trans (h ▸ sortNames_perm k)
  · intro h
    unfold sortNames
    rw [sortBy_eq_insertionSort]
    refine List.Perm.eq_of_pairwise (fun a b _ _ => String.le_antisymm)
      (List.pairwise_insertionSort _ l) (List.pairwise_insertionSort _ k) ?_
    exact (List.perm_insertionSort _ l).trans (h.trans (List.perm_insertionSort _ k).symm)

end Bigraphs
