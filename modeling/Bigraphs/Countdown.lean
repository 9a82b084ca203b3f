/-! # Counting down

A search by trial goes through the alternatives of its last choice, and when there are none left, goes on
with the next alternative of the choice before it. To see that it ends, one counts the alternatives that
are left of each choice: a step lowers one counter, and sets those behind it as it likes.

The program stands on the core library alone, which orders pairs lexicographically but not lists: so the
counters are taken off one by one (`lowerWithin`). -/

namespace Bigraphs

/-- Counters, the first of which counts most. -/
structure Countdown where
  counters : List Nat

namespace Countdown

/-- Of equally many counters, the first one that differs is lower in `a`. -/
instance : LT Countdown :=
  ⟨fun a b => a.counters.length = b.counters.length ∧ a.counters < b.counters⟩

theorem lt_trans {a b c : Countdown} (h : a < b) (h' : b < c) : a < c :=
  ⟨h.1.trans h'.1, List.lt_trans h.2 h'.2⟩

/-- Of the first `n` counters, the first one that differs is lower: the order of pairs, `n` times over. -/
def lowerWithin : Nat → List Nat → List Nat → Prop
  | 0 => emptyRelation
  | n + 1 => InvImage (Prod.Lex (· < ·) (lowerWithin n)) fun l => (l.headD 0, l.tail)

theorem wellFounded_lowerWithin : ∀ n, WellFounded (lowerWithin n)
  | 0 => emptyWf.wf
  | n + 1 => InvImage.wf _ (Prod.lex Nat.lt_wfRel ⟨lowerWithin n, wellFounded_lowerWithin n⟩).wf

theorem lowerWithin_of_lt {l l' : List Nat} (hlen : l.length = l'.length) (h : l < l') :
    lowerWithin l'.length l l' := by
  induction l' generalizing l with
  | nil => exact absurd h (List.not_lt_nil l)
  | cons n l' ih =>
    obtain ⟨k, l, rfl⟩ := List.exists_cons_of_length_eq_add_one hlen
    rcases List.cons_lt_cons_iff.mp h with hk | ⟨rfl, hrest⟩
    · exact Prod.Lex.left _ _ hk
    · exact Prod.Lex.right _ (ih (Nat.succ.inj hlen) hrest)

/-- The number of the counters, which stays, and the counters. -/
def counted (c : Countdown) : PSigma fun _ : Nat => List Nat := ⟨c.counters.length, c.counters⟩

theorem counted_lt {a b : Countdown} (h : a < b) : PSigma.Lex (· < ·) lowerWithin a.counted b.counted := by
  unfold counted
  rw [h.1]
  exact .right _ (lowerWithin_of_lt h.1 h.2)

/-- **Counting down comes to an end.** -/
theorem wellFounded_lt : WellFounded ((· < ·) : Countdown → Countdown → Prop) :=
  Subrelation.wf counted_lt (InvImage.wf counted
    (PSigma.lex Nat.lt_wfRel fun n => ⟨lowerWithin n, wellFounded_lowerWithin n⟩).wf)

instance : WellFoundedRelation Countdown := ⟨(· < ·), wellFounded_lt⟩

variable {l l' : List Nat} {k n : Nat}

theorem cons_lt (h : k < n) (hlen : l.length = l'.length) : Countdown.mk (k :: l) < ⟨n :: l'⟩ :=
  ⟨by simp [hlen], List.cons_lt_cons_iff.mpr (Or.inl h)⟩

theorem cons_lt_cons (h : Countdown.mk l < ⟨l'⟩) : Countdown.mk (n :: l) < ⟨n :: l'⟩ :=
  ⟨by simp [h.1], List.cons_lt_cons_iff.mpr (Or.inr ⟨rfl, h.2⟩)⟩

/-- The counter `k` is lowered. -/
theorem map_range_lt {f f' : Nat → Nat} (hk : k < n) (hsame : ∀ i < k, f i = f' i) (hless : f k < f' k) :
    Countdown.mk ((List.range n).map f) < ⟨(List.range n).map f'⟩ := by
  induction n generalizing k f f' with
  | zero => omega
  | succ n ih =>
    rw [List.range_succ_eq_map, List.map_cons, List.map_cons, List.map_map, List.map_map]
    cases k with
    | zero => exact cons_lt hless (by simp)
    | succ k =>
      rw [hsame 0 (Nat.succ_pos k)]
      exact cons_lt_cons (ih (by omega) (fun i hi => hsame (i + 1) (by omega)) hless)

end Countdown

end Bigraphs
