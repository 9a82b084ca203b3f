import Bigraphs.Loop

/-! # Generated names

A generated name is a stem followed by a number. The number that is tried next only grows, and
numbers whose name is taken are passed over. Among the numbers from `start` on, the first one that
is free is at most as far away as there are taken names: that bounds the search. A loop that tries
number after number (`NameSupply.round`) does not know this bound. -/

namespace Bigraphs

/-- The name with this stem and number. -/
def numbered (stem : String) (n : Nat) : String := stem ++ toString n

/-- The first number from `start` on whose name is not taken, among the first `fuel` numbers; the
one after them if all are taken. -/
def firstFreeWithin (stem : String) (taken : List String) : Nat → Nat → Nat
  | 0, start => start
  | fuel + 1, start =>
    if numbered stem start ∈ taken then firstFreeWithin stem taken fuel (start + 1) else start

/-- **The first number from `start` on whose name is not taken.** -/
def firstFree (stem : String) (taken : List String) (start : Nat) : Nat :=
  firstFreeWithin stem taken taken.length start

/-- A source of names with one stem, each different from all before and from those taken at the
outset. -/
structure NameSupply where
  stem : String
  /-- The next number to try. -/
  next : Nat
  taken : List String
deriving DecidableEq

namespace NameSupply

/-- The supply that starts at number `0`. -/
def new (stem : String) (taken : List String) : NameSupply := ⟨stem, 0, taken⟩

/-- A name that is not taken, and the supply without it. -/
def fresh (s : NameSupply) : String × NameSupply :=
  let n := firstFree s.stem s.taken s.next
  (numbered s.stem n, { s with next := n + 1, taken := numbered s.stem n :: s.taken })

/-- **A round of the search for a name.** The next number is tried, and its name is the answer if it was
not taken; it is taken now. -/
def round (s : NameSupply) : Option (NameSupply ⊕ (String × NameSupply)) :=
  let name := numbered s.stem s.next
  let s := { s with next := s.next + 1 }
  some (if name ∈ s.taken then .inl s else .inr (name, { s with taken := name :: s.taken }))

/-- The names of the next `n` calls, and the supply after them. -/
def draw : Nat → NameSupply → List String × NameSupply
  | 0, s => ([], s)
  | n + 1, s =>
    let (name, s) := s.fresh
    let (names, s) := draw n s
    (name :: names, s)

end NameSupply

end Bigraphs
