/-! # Lists produced on demand

A lazy list holds its first element and a delayed rest, so that a search hands out one result at a
time and only works for the results that are asked for. A delayed list is a position in an
enumeration: whoever keeps it can go on from there once more.

Each operation is pinned down by what it does to `toList`. -/

namespace Bigraphs

universe u v

/-- The first elements of `l`, as many as the limit allows; all of them when there is no limit. -/
def cut {α : Type u} (limit : Option Nat) (l : List α) : List α :=
  match limit with
  | none => l
  | some n => l.take n

/-- A finite list whose tail is computed when it is asked for. -/
inductive LazyList (α : Type u) : Type u where
  | nil
  | cons (head : α) (tail : Unit → LazyList α)

namespace LazyList

variable {α : Type u} {β : Type v}

/-- All elements, in order. -/
def toList : LazyList α → List α
  | nil => []
  | cons a t => a :: (t ()).toList

/-- The list with the one element `a`. -/
def singleton (a : α) : LazyList α := cons a fun _ => nil

/-- The elements of `l`, then those of the delayed list. -/
def append (l : LazyList α) (rest : Unit → LazyList α) : LazyList α :=
  match l with
  | nil => rest ()
  | cons a t => cons a fun _ => append (t ()) rest

/-- The results of `f` that exist, in order. -/
def filterMap (f : α → Option β) : LazyList α → LazyList β
  | nil => nil
  | cons a t =>
    match f a with
    | none => filterMap f (t ())
    | some b => cons b fun _ => filterMap f (t ())

/-- The results of every element, in order. -/
def flatMap (f : α → LazyList β) : LazyList α → LazyList β
  | nil => nil
  | cons a t => (f a).append fun _ => flatMap f (t ())

/-- The results of the branches `as`, each explored when those before it are used up. -/
def ofBranches (f : α → LazyList β) : List α → LazyList β
  | [] => nil
  | a :: as => (f a).append fun _ => ofBranches f as

/-- The first `n` elements. The delayed list is not looked at beyond them. -/
def take : Nat → (Unit → LazyList α) → LazyList α
  | 0, _ => nil
  | n + 1, l =>
    match l () with
    | nil => nil
    | cons a t => cons a fun _ => take n t

/-- At most `limit` elements, all of them when there is no limit. -/
def upTo (limit : Option Nat) (l : Unit → LazyList α) : LazyList α :=
  match limit with
  | none => l ()
  | some n => take n l

/-! ### Limits -/

@[simp] theorem cut_some (n : Nat) (l : List α) : cut (some n) l = l.take n := rfl

theorem map_cut (f : α → β) (limit : Option Nat) (l : List α) :
    (cut limit l).map f = cut limit (l.map f) := by
  cases limit with
  | none => rfl
  | some n => exact List.map_take

/-- What is within a limit comes first. -/
theorem cut_sublist (limit : Option Nat) (l : List α) : (cut limit l).Sublist l := by
  cases limit with
  | none => exact .refl _
  | some n => exact List.take_sublist n l

/-! ### What the operations do to the elements -/

@[simp] theorem toList_nil : (nil : LazyList α).toList = [] := rfl

@[simp] theorem toList_cons (a : α) (t : Unit → LazyList α) :
    (cons a t).toList = a :: (t ()).toList := rfl

@[simp] theorem toList_singleton (a : α) : (singleton a).toList = [a] := rfl

@[simp] theorem toList_append (l : LazyList α) (rest : Unit → LazyList α) :
    (l.append rest).toList = l.toList ++ (rest ()).toList := by
  induction l with
  | nil => rfl
  | cons a t ih => simp [append, ih]

@[simp] theorem toList_filterMap (f : α → Option β) (l : LazyList α) :
    (l.filterMap f).toList = l.toList.filterMap f := by
  induction l with
  | nil => rfl
  | cons a t ih => cases h : f a <;> simp [filterMap, h, ih]

@[simp] theorem toList_flatMap (f : α → LazyList β) (l : LazyList α) :
    (l.flatMap f).toList = l.toList.flatMap fun a => (f a).toList := by
  induction l with
  | nil => rfl
  | cons a t ih => simp [flatMap, ih]

@[simp] theorem toList_ofBranches (f : α → LazyList β) (as : List α) :
    (ofBranches f as).toList = as.flatMap fun a => (f a).toList := by
  induction as with
  | nil => rfl
  | cons a as ih => simp [ofBranches, ih]

@[simp] theorem toList_take (n : Nat) (l : Unit → LazyList α) :
    (take n l).toList = (l ()).toList.take n := by
  induction n generalizing l with
  | zero => simp [take]
  | succ n ih =>
    unfold take
    cases l () with
    | nil => rfl
    | cons a t => simp [ih]

@[simp] theorem toList_upTo (limit : Option Nat) (l : Unit → LazyList α) :
    (upTo limit l).toList = cut limit (l ()).toList := by
  cases limit with
  | none => rfl
  | some n => exact toList_take n l

end LazyList

end Bigraphs
