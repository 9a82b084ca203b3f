import Bigraphs.Proofs.Construction.Labels

/-! # What a refusal leaves behind

A refused step leaves the register as it was, tables, lists and counter included, with the exception of
`child`. So a run comes to the same end when its refused actions are left out, and the other actions are
answered alike (`run_settled`). A refused `child` has drawn its label, and if only the nesting is refused
it has made its node, which hangs nowhere (`child_refused`). -/

namespace Bigraphs

/-- The action nests what it creates under a place that may not be fit for it. -/
def Action.isChild : Action → Bool
  | .child _ _ => true
  | _ => false

/-- If the answer is a refusal, the state is the one before the step. -/
def KeepsRefused {σ α : Type} (s : σ) (x : Except BuildError α × σ) : Prop :=
  ∀ e, x.1 = .error e → x.2 = s

namespace KeepsRefused

variable {σ α : Type} {s : σ}

theorem refused (e : BuildError) : KeepsRefused (α := α) s (.error e, s) := fun _ _ => rfl

theorem accepted (a : α) (s' : σ) : KeepsRefused s (.ok a, s') := fun _ h => by cases h

/-- A step that is refused under a condition, and otherwise goes through. -/
theorem ite {P : Prop} [Decidable P] (e : BuildError) (a : α) (s' : σ) :
    KeepsRefused s (if P then (.error e, s) else (.ok a, s')) := by
  split
  · exact refused e
  · exact accepted a s'

end KeepsRefused

namespace Construction

variable (c : Construction)

theorem keepsRefused_nest (child par : PlaceId) : KeepsRefused c (c.nest child par) := by
  unfold nest
  split
  · exact .refused _
  · exact .accepted _ _

theorem nest_eq_error_iff {child par : PlaceId} {e : BuildError} :
    (c.nest child par).1 = .error e ↔ c.nestRefusal child par = some e := by
  unfold nest
  split
  next e' h => rw [h, Except.error.injEq, Option.some.injEq]
  next h => simp [h]

theorem keepsRefused_connect (v : PlaceId) (l : LinkId) : KeepsRefused c (c.connect v l) := by
  unfold connect
  split
  · exact .refused _
  · split
    · exact .refused _
    · exact .ite _ _ _

theorem keepsRefused_wire (i : InnerId) (l : LinkId) : KeepsRefused c (c.wire i l) := by
  unfold wire
  split
  · exact .refused _
  · split
    · exact .refused _
    · exact .ite _ _ _

end Construction

namespace Register

open Bigraph

variable {r : Register}

/-! ### One step -/

theorem keepsRefused_replying {α : Type} {step : Step α} (h : KeepsRefused r (step r))
    (reply : α → Reply) : KeepsRefused r (step.replying reply r) := by
  intro e he
  refine h e ?_
  unfold Step.replying at he
  cases hx : (step r).1 with
  | error e' => simpa [hx, Except.map] using he
  | ok a => simp [hx, Except.map] at he

theorem keepsRefused_unregistered {α : Type} {step : Construction.Step α}
    (h : KeepsRefused r.construction (step r.construction)) : KeepsRefused r (unregistered step r) := by
  intro e he
  unfold unregistered
  simp only [h e he]

theorem keepsRefused_node (control label : String) : KeepsRefused r (r.node control label) := by
  unfold node
  split
  · exact .refused _
  · exact .ite _ _ _

theorem keepsRefused_close (name : String) : KeepsRefused r (r.close name) := by
  unfold close
  split
  · exact .refused _
  · exact .ite _ _ _

/-- **A refused action changes nothing,** unless it is a `child`. -/
theorem keepsRefused_perform {a : Action} (ha : a.isChild = false) : KeepsRefused r (perform a r) := by
  cases a with
  | root i => exact keepsRefused_replying (.ite _ _ _) _
  | site i => exact keepsRefused_replying (.ite _ _ _) _
  | node control label => exact keepsRefused_replying (keepsRefused_node control label) _
  | child parent control => cases ha
  | nest child parent =>
    exact keepsRefused_replying
      (keepsRefused_unregistered (Construction.keepsRefused_nest _ child parent)) _
  | outer name => exact keepsRefused_replying (.ite _ _ _) _
  | edge label => exact keepsRefused_replying (.ite _ _ _) _
  | freshEdge => exact keepsRefused_replying (.accepted _ _ : KeepsRefused r (freshEdge r)) _
  | inner name => exact keepsRefused_replying (.ite _ _ _) _
  | connect node link =>
    exact keepsRefused_replying
      (keepsRefused_unregistered (Construction.keepsRefused_connect _ node link)) _
  | wire inner link =>
    exact keepsRefused_replying
      (keepsRefused_unregistered (Construction.keepsRefused_wire _ inner link)) _
  | close name => exact keepsRefused_replying (keepsRefused_close name) _

/-! ### A run without its refusals -/

/-- The actions with their answers, those left out that are refused without a trace. -/
def settled (r : Register) (actions : List Action) : List (Action × Except BuildError Reply) :=
  (actions.zip (r.answers actions)).filter fun (a, answer) => a.isChild || answer.isOk

theorem settled_cons (r : Register) (a : Action) (actions : List Action) :
    r.settled (a :: actions) =
      if a.isChild || (perform a r).1.isOk then
        (a, (perform a r).1) :: (perform a r).2.settled actions
      else (perform a r).2.settled actions := by
  unfold settled
  rw [answers, List.zip_cons_cons, List.filter_cons]

/-- **Refusals can be left out of a run:** it comes to the same end, and the other actions are answered
alike. -/
theorem run_settled (r : Register) (actions : List Action) :
    r.run ((r.settled actions).map (·.1)) = r.run actions ∧
      r.answers ((r.settled actions).map (·.1)) = (r.settled actions).map (·.2) := by
  induction actions generalizing r with
  | nil => exact ⟨rfl, rfl⟩
  | cons a actions ih =>
    obtain ⟨hrun, hanswers⟩ := ih (perform a r).2
    rw [settled_cons]
    split
    next =>
      refine ⟨hrun, ?_⟩
      rw [List.map_cons, List.map_cons, answers, hanswers]
    next hkept =>
      rw [Bool.or_eq_true, not_or, Bool.not_eq_true] at hkept
      have hsame : (perform a r).2 = r := by
        cases hx : (perform a r).1 with
        | error e => exact keepsRefused_perform hkept.1 e hx
        | ok reply => exact absurd rfl (hx ▸ hkept.2)
      rw [hsame] at hrun hanswers ⊢
      refine ⟨?_, hanswers⟩
      rw [hrun]
      exact (congrArg (fun r => run r actions) hsame).symm

/-! ### A refused child -/

/-- `child` draws a label that is free, makes its node if the control is known, and nests it. -/
theorem exists_child_eq (r : Register) (par : PlaceId) (control : String) :
    ∃ n label, r.construction.nextLabel < n ∧ label ∉ r.labels ∧ r.child par control =
      match r.graph.signature.find control with
      | none => (.error (.unknownControl control), { r with construction.nextLabel := n })
      | some k =>
        let made := addPlace { r with construction.nextLabel := n } (.node ⟨k, label, []⟩)
        match made.nest r.graph.places.size par with
        | (.error e, after) => (.error e, after)
        | (.ok (), after) => (.ok r.graph.places.size, after) := by
  let n := firstFree "v" r.labels.toList r.construction.nextLabel
  have hn : r.construction.nextLabel < n + 1 := Nat.lt_succ_of_le (le_firstFreeWithin _ _ _ _)
  exact ⟨n + 1, numbered "v" n, hn, drawLabel_not_mem r "v" r.labels, child_eq r par control⟩

/-- **What a refused `child` leaves behind:** the counter has moved on, and if the control is known there
is one more node, which hangs nowhere and has no ports, under a label that was free. -/
theorem child_refused {par : PlaceId} {control : String} {e : BuildError}
    (h : (r.child par control).1 = .error e) : ∃ n, r.construction.nextLabel < n ∧
      ((r.graph.signature.find control = none ∧ e = .unknownControl control ∧
          (r.child par control).2 = { r with construction.nextLabel := n }) ∨
        ∃ k label, r.graph.signature.find control = some k ∧ label ∉ r.labels ∧
          (r.child par control).2 = { r with
            construction.graph.places := r.graph.places.push ⟨.node ⟨k, label, []⟩, none, []⟩
            construction.nextLabel := n
            labels := r.labels.insert label
            nodes := r.nodes ++ [r.graph.places.size] } ∧
          (r.child par control).2.construction.nestRefusal r.graph.places.size par = some e) := by
  obtain ⟨n, label, hn, hfree, hchild⟩ := exists_child_eq r par control
  refine ⟨n, hn, ?_⟩
  rw [hchild] at h ⊢
  cases hk : r.graph.signature.find control with
  | none =>
    rw [hk] at h
    exact Or.inl ⟨rfl, (Except.error.inj h).symm, rfl⟩
  | some k =>
    let made := addPlace { r with construction.nextLabel := n } (.node ⟨k, label, []⟩)
    have hkeeps : KeepsRefused made (made.nest r.graph.places.size par) :=
      keepsRefused_unregistered (Construction.keepsRefused_nest _ _ _)
    refine Or.inr ⟨k, label, rfl, hfree, ?_⟩
    rw [hk] at h
    simp only at h ⊢
    rcases hx : made.nest r.graph.places.size par with ⟨e' | ⟨⟩, after⟩
    · rw [hx] at h hkeeps
      cases h
      have hafter : after = made := hkeeps _ rfl
      subst hafter
      refine ⟨rfl, ?_⟩
      exact (Construction.nest_eq_error_iff _).mp (congrArg Prod.fst hx)
    · rw [hx] at h
      cases h

/-! ### At every moment -/

/-- **Refusals leave no trace,** whatever has been done before. A refused action leaves the register as
it was, unless it is a `child`; so all such actions can be left out of any list of actions, and neither
the other answers nor the end are changed. A refused `child` leaves the counter ahead, and where only
the nesting is refused, one more node under a label that no node had, without parent, children and
ports. -/
theorem refusals_leave_no_trace (s : Signature) (before : List Action) :
    let r := (Register.new s).run before
    (∀ a e r', a.isChild = false → perform a r = (.error e, r') → r' = r) ∧
      (∀ actions, let kept := r.settled actions
        r.run (kept.map (·.1)) = r.run actions ∧
        r.answers (kept.map (·.1)) = kept.map (·.2) ∧
        (r.run (kept.map (·.1))).construction.finish = (r.run actions).construction.finish) ∧
      (∀ par control e r', r.child par control = (.error e, r') →
        ∃ n, r.construction.nextLabel < n ∧
          ((r.graph.signature.find control = none ∧ e = .unknownControl control ∧
              r' = { r with construction.nextLabel := n }) ∨
            ∃ k label, r.graph.signature.find control = some k ∧
              (∀ p, r.graph.label p ≠ some label) ∧
              r' = { r with
                construction.graph.places := r.graph.places.push ⟨.node ⟨k, label, []⟩, none, []⟩
                construction.nextLabel := n
                labels := r.labels.insert label
                nodes := r.nodes ++ [r.graph.places.size] } ∧
              r'.construction.nestRefusal r.graph.places.size par = some e)) ∧
      r.construction = (Construction.new s).run before ∧
      ∀ actions, r.answers actions = r.construction.answers actions := by
  intro r
  obtain ⟨hconstruction, -, hfaithful⟩ := agrees_run (faithful_new s) (WellFormed.empty s) before
  have hg : r.graph.WellFormed := by
    rw [graph, hconstruction]
    exact Construction.wellFormed_run (WellFormed.empty s) before
  refine ⟨fun a e r' ha h => ?_, fun actions => ?_, fun par control e r' h => ?_, hconstruction,
    fun actions => (agrees_run hfaithful hg actions).2.1⟩
  · have hkeeps := keepsRefused_perform (r := r) ha e
    rw [h] at hkeeps
    exact hkeeps rfl
  · obtain ⟨hrun, hanswers⟩ := run_settled r actions
    exact ⟨hrun, hanswers, by rw [hrun]⟩
  · obtain ⟨n, hn, hleft⟩ := child_refused (congrArg Prod.fst h)
    rw [h] at hleft
    refine ⟨n, hn, ?_⟩
    rcases hleft with hleft | ⟨k, label, hk, hlabel, hleft⟩
    · exact Or.inl hleft
    · exact Or.inr ⟨k, label, hk, fun p hp => hlabel ((hfaithful.labels label).mpr ⟨p, hp⟩), hleft⟩

end Register

end Bigraphs
