import Bigraphs.Countdown
import Bigraphs.Matching.Hits

/-! # The assignments, call by call

An odometer has a wheel for each root, with the hosts of the root around it. What the wheels show is an
assignment. A call turns the last wheel by one host; a wheel that has come round stands at its first host
again, and the wheel before it is turned. When the first wheel has come round, nothing is left. The first
call shows the wheels as they are; if each of them has a single host, nothing is left after it. A call that
answers with an assignment lowers the number of hosts that are left on some wheel, and leaves the wheels
before it as they are (`countdown_next`).

A call fails when it reads outside a list. -/

namespace Bigraphs

/-- The hosts of one root, and which of them is shown. -/
structure Wheel where
  hosts : List PlaceId
  position : Nat
deriving DecidableEq

/-- **An odometer** over the assignments. -/
structure Odometer where
  /-- One wheel for each root, by position. -/
  wheels : List Wheel
  started : Bool
  exhausted : Bool
deriving DecidableEq

namespace Odometer

/-- The wheels with these hosts around them, all at their first host. -/
def unturned (choices : List (List PlaceId)) : List Wheel := choices.map (⟨·, 0⟩)

/-- An odometer before its first call, for the roots with these indices. -/
def new (hits : List (PlaceId × List Nat)) (rootIndices : List Nat) : Odometer :=
  ⟨unturned (hostChoices hits rootIndices), false, false⟩

/-- The assignment that the wheels show. -/
def reading : List Wheel → Option (List PlaceId)
  | [] => some []
  | w :: ws => do return (← w.hosts[w.position]?) :: (← reading ws)

/-- The wheels after a turn of the last one, and whether they show another assignment. They do not when
all of them have come round. -/
def turn : List Wheel → Bool × List Wheel
  | [] => (false, [])
  | w :: ws =>
    match turn ws with
    | (true, ws) => (true, w :: ws)
    | (false, ws) =>
      if w.position + 1 < w.hosts.length then (true, { w with position := w.position + 1 } :: ws)
      else (false, { w with position := 0 } :: ws)

/-- **The next assignment,** and the odometer after the call. -/
def next (o : Odometer) : Option (Option (List PlaceId) × Odometer) :=
  if o.exhausted then some (none, o)
  else if o.started then
    match turn o.wheels with
    | (true, wheels) => do return (some (← reading wheels), { o with wheels })
    | (false, wheels) => some (none, { o with wheels, exhausted := true })
  else if o.wheels.isEmpty || o.wheels.any (·.hosts.isEmpty) then
    some (none, { o with started := true, exhausted := true })
  else do
    let single := o.wheels.all (·.hosts.length = 1)
    return (some (← reading o.wheels), { o with started := true, exhausted := single })

/-! ### The wheels come round -/

/-- The hosts that are left on each wheel. Before the first call, that call is left too. -/
def countdown (o : Odometer) : Countdown :=
  ⟨(if o.started then 0 else 1) :: o.wheels.map fun w => w.hosts.length - w.position⟩

theorem length_turn {ws ws' : List Wheel} {more : Bool} (h : turn ws = (more, ws')) :
    ws'.length = ws.length := by
  induction ws generalizing ws' more with
  | nil => cases h; rfl
  | cons w ws ih =>
    unfold turn at h
    split at h
    next ws₁ hturn =>
      cases h
      simp [ih hturn]
    next ws₁ hturn =>
      split at h <;> cases h <;> simp [ih hturn]

/-- **A turn** lowers what is left on one wheel and leaves the wheels before it alone. -/
theorem countdown_turn {ws ws' : List Wheel} (h : turn ws = (true, ws')) :
    Countdown.mk (ws'.map fun w => w.hosts.length - w.position) <
      ⟨ws.map fun w => w.hosts.length - w.position⟩ := by
  induction ws generalizing ws' with
  | nil => cases h
  | cons w ws ih =>
    unfold turn at h
    split at h
    next ws₁ hturn =>
      cases h
      exact Countdown.cons_lt_cons (ih hturn)
    next ws₁ hturn =>
      split at h
      next hlt =>
        cases h
        exact Countdown.cons_lt (by simp only; omega) (by simp [length_turn hturn])
      next => cases h

/-- **A call** that answers with an assignment lowers what is left. -/
theorem countdown_next {o o' : Odometer} {a : List PlaceId} (h : next o = some (some a, o')) :
    o'.countdown < o.countdown := by
  unfold next at h
  split at h
  next => cases h
  next =>
    split at h
    next hstarted =>
      split at h
      next wheels hturn =>
        obtain ⟨b, -, h⟩ := Option.bind_eq_some_iff.mp h
        cases h
        exact Countdown.cons_lt_cons (countdown_turn hturn)
      next => cases h
    next hnew =>
      split at h
      next => cases h
      next =>
        obtain ⟨b, -, h⟩ := Option.bind_eq_some_iff.mp h
        cases h
        unfold countdown
        rw [if_pos rfl, if_neg hnew]
        exact Countdown.cons_lt Nat.one_pos rfl

end Odometer

end Bigraphs
