import Bigraphs.BuildError
import Bigraphs.Control

/-! # Signatures

A signature is a finite set of controls with distinct names, kept in name order: two signatures
that declare the same controls in different orders are equal.

* `Signature.find_eq_some_iff`: looking a name up finds exactly the declared control of that name.
* `Signature.mem_declare`: a declaration adds its control and nothing else. -/

namespace Bigraphs

/-- A finite set of controls, one per name. -/
structure Signature where
  /-- The controls, by name. -/
  controls : List Control
  ascending : controls.Pairwise (·.name < ·.name)
deriving DecidableEq

namespace Signature

/-- The signature without controls. -/
def empty : Signature := ⟨[], .nil⟩

/-- The control called `name`. -/
def find (s : Signature) (name : String) : Option Control := s.controls.find? (·.name = name)

/-- `c` is declared, with the same arity and activity. -/
def contains (s : Signature) (c : Control) : Bool := s.find c.name = some c

/-- The number of controls. -/
def size (s : Signature) : Nat := s.controls.length

/-- True when no control is declared. -/
def isEmpty (s : Signature) : Bool := s.controls.isEmpty

/-- Puts `c` where its name belongs. -/
def place (c : Control) : List Control → List Control
  | [] => [c]
  | d :: ds => if c.name < d.name then c :: d :: ds else d :: place c ds

theorem mem_place {c d : Control} {l : List Control} : d ∈ place c l ↔ d = c ∨ d ∈ l := by
  induction l with
  | nil => simp [place]
  | cons e es ih =>
    unfold place
    split
    · simp
    · simp only [List.mem_cons, ih]
      constructor
      · rintro (h | h | h) <;> simp [h]
      · rintro (h | h | h) <;> simp [h]

theorem pairwise_place {c : Control} {l : List Control} (hl : l.Pairwise (·.name < ·.name))
    (hc : ∀ d ∈ l, d.name ≠ c.name) : (place c l).Pairwise (·.name < ·.name) := by
  induction l with
  | nil => simp [place]
  | cons e es ih =>
    obtain ⟨he, hes⟩ := List.pairwise_cons.mp hl
    unfold place
    split
    next h =>
      refine List.pairwise_cons.mpr ⟨fun d hd => ?_, hl⟩
      rcases List.mem_cons.mp hd with rfl | hd
      · exact h
      · exact String.lt_trans h (he d hd)
    next h =>
      refine List.pairwise_cons.mpr ⟨fun d hd => ?_, ih hes fun d hd => hc d (by simp [hd])⟩
      rcases mem_place.mp hd with rfl | hd
      · have hne := hc e (by simp)
        exact Std.lt_of_le_of_ne (Std.not_lt.mp h) hne
      · exact he d hd

/-- Declares `c`, refused when its name is taken. -/
def declare (s : Signature) (c : Control) : Except BuildError Signature :=
  if h : ∀ d ∈ s.controls, d.name ≠ c.name then
    .ok ⟨place c s.controls, pairwise_place s.ascending h⟩
  else
    .error (.duplicateControl c.name)

/-- Declares the controls in order. A refusal comes with the position of the refused control. -/
def ofControls (cs : List Control) : Except (Nat × BuildError) Signature :=
  go empty 0 cs
where
  /-- Declares the controls that are left, the first of them at position `i`. -/
  go (s : Signature) (i : Nat) : List Control → Except (Nat × BuildError) Signature
    | [] => .ok s
    | c :: cs =>
      match s.declare c with
      | .ok s => go s (i + 1) cs
      | .error e => .error (i, e)

/-! ### Look-up and declaration -/

theorem eq_of_name_eq (s : Signature) {c d : Control} (hc : c ∈ s.controls) (hd : d ∈ s.controls)
    (h : c.name = d.name) : c = d := by
  have key : ∀ {l : List Control}, l.Pairwise (·.name < ·.name) → c ∈ l → d ∈ l → c = d := by
    intro l hl hc hd
    induction l with
    | nil => simp at hc
    | cons e es ih =>
      obtain ⟨he, hes⟩ := List.pairwise_cons.mp hl
      rcases List.mem_cons.mp hc with h1 | h1 <;> rcases List.mem_cons.mp hd with h2 | h2
      · rw [h1, h2]
      · exact absurd (he d h2) (by rw [← h1, h]; exact String.lt_irrefl _)
      · exact absurd (he c h1) (by rw [← h2, h]; exact String.lt_irrefl _)
      · exact ih hes h1 h2
  exact key s.ascending hc hd

theorem find_eq_some_iff (s : Signature) (name : String) (c : Control) :
    s.find name = some c ↔ c ∈ s.controls ∧ c.name = name := by
  unfold find
  constructor
  · intro h
    exact ⟨List.mem_of_find?_eq_some h, by simpa using List.find?_some h⟩
  · rintro ⟨hc, rfl⟩
    cases h : s.controls.find? (·.name = c.name) with
    | none => simpa using List.find?_eq_none.mp h c hc
    | some d =>
      have hd := List.mem_of_find?_eq_some h
      rw [s.eq_of_name_eq hd hc (by simpa using List.find?_some h)]

theorem mem_declare {s t : Signature} {c d : Control} (h : s.declare c = .ok t) :
    d ∈ t.controls ↔ d = c ∨ d ∈ s.controls := by
  unfold declare at h
  split at h
  · cases h; exact mem_place
  · cases h

end Signature

end Bigraphs
