/-! # Loops and calls

A loop goes from state to state, round by round, until a round gives the answer. Nothing bounds the
number of rounds beforehand. That a loop ends is a fact about it (`Ends`), and so is that no round
reads outside an array: such a round leads to nothing.

A machine answers a call with an element or with nothing, and is in another state after it; a call can
also fail. It hands out a list when the calls answer with the elements of the list, one after the other,
and then with nothing for ever (`HandsOut`). To show that, it is enough to say what is left in every
state, and that one call answers with the first element of that (`HandsOut.of_left`). -/

namespace Bigraphs

variable {σ ρ α : Type}

/-! ### Loops -/

/-- **The loop ends with the answer `r`** when it starts in `s`. A round leads to the state before the
next round or to the answer. -/
inductive Ends (round : σ → Option (σ ⊕ ρ)) : σ → ρ → Prop where
  | now {s : σ} {r : ρ} (h : round s = some (.inr r)) : Ends round s r
  | later {s s' : σ} {r : ρ} (h : round s = some (.inl s')) (rest : Ends round s' r) :
    Ends round s r

/-- A loop has one answer. -/
theorem Ends.unique {round : σ → Option (σ ⊕ ρ)} {s : σ} {r r' : ρ} (h : Ends round s r)
    (h' : Ends round s r') : r = r' := by
  induction h with
  | now h =>
    cases h' with
    | now h' =>
      rw [h, Option.some.injEq, Sum.inr.injEq] at h'
      exact h'
    | later h' _ => rw [h] at h'; cases h'
  | later h _ ih =>
    cases h' with
    | now h' => rw [h] at h'; cases h'
    | later h' rest =>
      rw [h, Option.some.injEq, Sum.inl.injEq] at h'
      exact ih (h' ▸ rest)

/-! ### Calls -/

/-- The answers of the next `n` calls, and the state after them. -/
def calls (next : σ → Option (Option α × σ)) : Nat → σ → Option (List (Option α) × σ)
  | 0, s => some ([], s)
  | n + 1, s => do
    let (a, s) ← next s
    let (as, s) ← calls next n s
    return (a :: as, s)

/-- **The calls hand out `as`,** and then nothing for ever. -/
def HandsOut (next : σ → Option (Option α × σ)) (s : σ) (as : List α) : Prop :=
  ∀ n, ∃ s', calls next n s = some ((List.range n).map (as[·]?), s')

section Calls
variable {next : σ → Option (Option α × σ)} {s s' : σ} {as : List α}

theorem calls_succ_of_next {a : Option α} (h : next s = some (a, s')) (n : Nat) :
    calls next (n + 1) s = (calls next n s').map fun (as, s) => (a :: as, s) := by
  rw [calls, h]
  change (calls next n s').bind _ = _
  cases calls next n s' <;> rfl

/-- The first answers to come are the first element and the first answers after it. -/
theorem map_getElem?_succ (as : List α) (n : Nat) :
    (List.range (n + 1)).map (as[·]?) = as.head? :: (List.range n).map (as.tail[·]?) := by
  rw [List.range_succ_eq_map, List.map_cons, List.map_map]
  cases as <;> rfl

namespace HandsOut

/-- A call that answers with the first element leaves the others to be handed out. -/
theorem of_next (h : next s = some (as.head?, s')) (htail : HandsOut next s' as.tail) :
    HandsOut next s as := by
  intro n
  cases n with
  | zero => exact ⟨s, rfl⟩
  | succ n =>
    obtain ⟨s'', hcalls⟩ := htail n
    exact ⟨s'', by rw [calls_succ_of_next h, hcalls, map_getElem?_succ]; rfl⟩

/-- The first call answers with the first element, and the others are handed out after it. -/
theorem exists_next (h : HandsOut next s as) :
    ∃ s', next s = some (as.head?, s') ∧ HandsOut next s' as.tail := by
  obtain ⟨s₁, hfirst⟩ := h 1
  obtain ⟨⟨a, s'⟩, hnext⟩ : ∃ x, next s = some x := by
    cases hx : next s with
    | none => simp [calls, hx] at hfirst
    | some x => exact ⟨x, rfl⟩
  rw [calls_succ_of_next hnext, map_getElem?_succ] at hfirst
  obtain rfl : a = as.head? := by simpa [calls] using congrArg (Option.map (·.1.head?)) hfirst
  refine ⟨s', hnext, fun n => ?_⟩
  obtain ⟨s₂, hcalls⟩ := h (n + 1)
  rw [calls_succ_of_next hnext, map_getElem?_succ] at hcalls
  obtain ⟨⟨as', s₃⟩, hrest, heq⟩ := Option.map_eq_some_iff.mp hcalls
  simp only [Prod.mk.injEq, List.cons.injEq, true_and] at heq
  exact ⟨s₃, by rw [hrest, heq.1]⟩

/-- What is handed out is settled by the next call. -/
theorem congr (h : next s = next s') (h' : HandsOut next s' as) : HandsOut next s as := by
  obtain ⟨s'', hnext, htail⟩ := h'.exists_next
  exact .of_next (h.trans hnext) htail

/-- **What is left says what is handed out,** if each call answers with the first element of what is left
before it. -/
theorem of_left {Left : σ → List α → Prop}
    (step : ∀ s as, Left s as → ∃ s', next s = some (as.head?, s') ∧ Left s' as.tail)
    (h : Left s as) : HandsOut next s as := by
  intro n
  induction n generalizing s as with
  | zero => exact ⟨s, rfl⟩
  | succ n ih =>
    obtain ⟨s', hnext, hleft⟩ := step s as h
    obtain ⟨s'', hcalls⟩ := ih hleft
    exact ⟨s'', by rw [calls_succ_of_next hnext, hcalls, map_getElem?_succ]; rfl⟩

/-- A state that answers with nothing and stays as it is hands out nothing. -/
theorem nil_of_next (h : next s = some (none, s)) : HandsOut next s [] := by
  have hstep : ∀ t (as : List α), t = s ∧ as = [] →
      ∃ s', next t = some (as.head?, s') ∧ s' = s ∧ as.tail = [] := by
    rintro t as ⟨rfl, rfl⟩
    exact ⟨_, h, rfl, rfl⟩
  exact of_left hstep ⟨rfl, rfl⟩

end HandsOut

end Calls

end Bigraphs
