import Bigraphs.Matching.Cursor
import Bigraphs.Matching.Occurrence
import Bigraphs.Matching.Odometer

/-! # A pass over the matches, call by call

A pass explores the assignments one after the other, and below the hosts of each of them the embeddings.
It counts the assignments that it has taken up and the occurrences that it has yielded, and ends at a
limit on either, or when there is nothing left. A candidate around which the agent cannot be taken apart
is passed over and counts for nothing.

A call goes on as long as the hosts and the candidates that are left get fewer, so each call ends. It
fails when a search below some hosts does. -/

namespace Bigraphs

/-- **A pass** over the matches. -/
structure Pass where
  odometer : Odometer
  /-- The hosts that are explored, and the search for embeddings below them. -/
  current : Option (List PlaceId × Cursor)
  /-- How many assignments have been taken up. -/
  explored : Nat
  /-- How many occurrences have been yielded. -/
  yielded : Nat
deriving DecidableEq

/-- As many as the limit allows are there already. -/
def reached (limit : Option Nat) (n : Nat) : Bool := limit.any (· ≤ n)

namespace Matches

variable (ms : Matches)

/-- A pass before its first call. -/
def start : Pass where
  odometer := .new (hitsByVertex ms.hits)
    (ms.problem.redex.roots.filterMap ms.problem.redex.rootIndex)
  current := none
  explored := 0
  yielded := 0

/-- Takes up the next assignment, unless the limit is reached. -/
def explore (p : Pass) : Option (Option (List PlaceId) × Pass) :=
  if reached ms.config.maxAssignments p.explored then some (none, p)
  else do
    match ← p.odometer.next with
    | (none, odometer) => return (none, { p with odometer })
    | (some hosts, odometer) =>
      return (some hosts,
        { p with odometer, current := some (hosts, .start), explored := p.explored + 1 })

/-- The next embedding below the hosts that are explored, with these hosts. A search without a further
embedding is given up. -/
def candidate (p : Pass) : Option (Option (List PlaceId × Mapping) × Pass) :=
  match p.current with
  | none => some (none, p)
  | some (hosts, c) => do
    match ← c.next ms.problem ms.table ms.plan hosts with
    | (some m, c) => return (some (hosts, m), { p with current := some (hosts, c) })
    | (none, _) => return (none, { p with current := none })

/-! ### The pass ends -/

/-- What is left below the hosts that are explored. -/
def countdown (p : Pass) : Countdown :=
  match p.current with
  | none => ⟨[]⟩
  | some (_, c) => c.countdown ms.plan

section Steps
variable {ms} {p p' : Pass}

/-- The next candidate leaves less below the same hosts. -/
theorem countdown_candidate {c : List PlaceId × Mapping} (h : ms.candidate p = some (some c, p')) :
    p'.odometer = p.odometer ∧ ms.countdown p' < ms.countdown p := by
  unfold candidate at h
  split at h
  next => cases h
  next hosts cursor hcurrent =>
    obtain ⟨⟨m, cursor'⟩, hnext, h⟩ := Option.bind_eq_some_iff.mp h
    cases m with
    | none => cases h
    | some m =>
      cases h
      refine ⟨rfl, ?_⟩
      unfold countdown
      rw [hcurrent]
      exact Cursor.countdown_next hnext

theorem odometer_candidate (h : ms.candidate p = some (none, p')) : p'.odometer = p.odometer := by
  unfold candidate at h
  split at h
  next => cases h; rfl
  next hosts cursor hcurrent =>
    obtain ⟨⟨m, cursor'⟩, hnext, h⟩ := Option.bind_eq_some_iff.mp h
    cases m with
    | none => cases h; rfl
    | some m => cases h

/-- The next assignment leaves fewer of them. -/
theorem countdown_explore {hosts : List PlaceId} (h : ms.explore p = some (some hosts, p')) :
    p'.odometer.countdown < p.odometer.countdown := by
  unfold explore at h
  split at h
  next => cases h
  next =>
    obtain ⟨⟨a, odometer⟩, hnext, h⟩ := Option.bind_eq_some_iff.mp h
    cases a with
    | none => cases h
    | some a =>
      cases h
      exact Odometer.countdown_next hnext

end Steps

/-- **The next occurrence,** and the pass after the call. -/
def next (p : Pass) : Option (Option Occurrence × Pass) :=
  if reached ms.config.maxMatches p.yielded then some (none, p)
  else
    match _ : ms.candidate p with
    | none => none
    | some (some (hosts, m), p') =>
      match ms.problem.occurrence? ms.config hosts m with
      | some o => some (some o, { p' with yielded := p'.yielded + 1 })
      | none => next p'
    | some (none, p₁) =>
      match _ : ms.explore p₁ with
      | none => none
      | some (some _, p') => next p'
      | some (none, p') => some (none, p')
termination_by (p.odometer.countdown, ms.countdown p)
decreasing_by
  · obtain ⟨hodometer, hless⟩ := countdown_candidate ‹ms.candidate p = some (some (hosts, m), p')›
    rw [hodometer]
    exact Prod.Lex.right _ hless
  · have hless := countdown_explore ‹ms.explore p₁ = some (some _, p')›
    rw [odometer_candidate ‹ms.candidate p = some (none, p₁)›] at hless
    exact Prod.Lex.left _ _ hless

end Matches

end Bigraphs
