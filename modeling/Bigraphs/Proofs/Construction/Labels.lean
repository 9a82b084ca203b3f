import Bigraphs.Proofs.Construction.Register

/-! # Generated labels are free

Nodes and edges get their generated labels from one counter. A label that is tried may have been given by
hand, or may have come to the edges with an outer name that was closed; the search passes over it, and
ends, since only finitely many labels are in a table (`ends_labelRound`). So no `child` is refused for its
label (`FreshChild`), and an edge made by `freshEdge` is the only one with its label (`FreshEdge`). This
holds at every moment of a construction (`generated_names_fresh`). -/

namespace Bigraphs

namespace Register

open Bigraph

variable {r : Register}

/-! ### The search for a label -/

theorem drawLabel_not_mem (r : Register) (stem : String) (table : Std.HashSet String) :
    (r.drawLabel stem table).1 ∉ table := fun h =>
  numbered_firstFree_not_mem stem table.toList r.construction.nextLabel (Std.HashSet.mem_toList.mpr h)

/-- **The search for a label ends,** with the label that is drawn, if the table that is asked does not
depend on the counter. -/
theorem ends_labelRound {table : Register → Std.HashSet String}
    (htable : ∀ n, table { r with construction.nextLabel := n } = table r) (stem : String) :
    Ends (labelRound stem table) r (r.drawLabel stem (table r)) := by
  let before (n : Nat) : Register := { r with construction.nextLabel := n }
  let found (n : Nat) : String × Register := (numbered stem n, before (n + 1))
  have hmem : ∀ n, numbered stem n ∈ table (before (n + 1)) ↔ numbered stem n ∈ (table r).toList := by
    intro n
    rw [htable, Std.HashSet.mem_toList]
  have hskip : ∀ n, numbered stem n ∈ (table r).toList →
      labelRound stem table (before n) = some (.inl (before (n + 1))) :=
    fun n h => congrArg some (if_pos ((hmem n).mpr h))
  have hstop : ∀ n, numbered stem n ∉ (table r).toList →
      labelRound stem table (before n) = some (.inr (found n)) :=
    fun n h => congrArg some (if_neg (mt (hmem n).mp h))
  exact ends_firstFree hskip hstop r.construction.nextLabel

/-! ### A child -/

/-- The node that `child` makes for the control `k`. -/
def drawnNode (r : Register) (k : Control) : PlaceKind := .node ⟨k, (r.drawLabel "v" r.labels).1, []⟩

/-- The register with this node, before it is nested. -/
def withDrawnNode (r : Register) (k : Control) : Register :=
  (r.drawLabel "v" r.labels).2.addPlace (r.drawnNode k)

theorem graph_withDrawnNode (k : Control) :
    (r.withDrawnNode k).graph = r.graph.addPlace (r.drawnNode k) := graph_addPlace _

/-- `child` draws a label, makes its node if the control is known, and nests it. -/
theorem child_eq (r : Register) (par : PlaceId) (control : String) : r.child par control =
    match r.graph.signature.find control with
    | none => (.error (.unknownControl control), (r.drawLabel "v" r.labels).2)
    | some k =>
      match (r.withDrawnNode k).nest r.graph.places.size par with
      | (.error e, after) => (.error e, after)
      | (.ok (), after) => (.ok r.graph.places.size, after) := by
  let label := (r.drawLabel "v" r.labels).1
  let drawn := (r.drawLabel "v" r.labels).2
  have hfree : label ∉ drawn.labels := drawLabel_not_mem r "v" r.labels
  have hnode : drawn.node control label =
      match r.graph.signature.find control with
      | none => (.error (.unknownControl control), drawn)
      | some k => (.ok r.graph.places.size, r.withDrawnNode k) := by
    unfold node
    split
    next h => rw [show r.graph.signature.find control = none from h]
    next k h =>
      rw [show r.graph.signature.find control = some k from h, if_neg hfree]
      rfl
  unfold child
  rw [show r.drawLabel "v" r.labels = (label, drawn) from rfl]
  simp only
  rw [hnode]
  cases r.graph.signature.find control <;> rfl

/-- **A child has a label of its own.** The search for the label ends; the label is never the cause of a
refusal, which comes from the control or from `par` alone; and no other place has it. -/
structure FreshChild (r : Register) (par : PlaceId) (control : String) : Prop where
  search_ends : Ends (labelRound "v" labels) r (r.drawLabel "v" r.labels)
  not_duplicate : ∀ s, (r.child par control).1 ≠ .error (.duplicateNode s)
  goes_through_iff : (∃ p, (r.child par control).1 = .ok p) ↔
    (∃ k, r.graph.signature.find control = some k) ∧ r.graph.CanHold par
  label_iff : ∀ p r', r.child par control = (.ok p, r') → ∀ q,
    r'.graph.label q = some (r.drawLabel "v" r.labels).1 ↔ q = p

section Child
variable {control : String} {k : Control} {par : PlaceId} (hr : r.Faithful) (hg : r.graph.WellFormed)
include hr

/-- No place has the label that is drawn. -/
theorem label_ne_drawn (p : PlaceId) : r.graph.label p ≠ some (r.drawLabel "v" r.labels).1 := fun h =>
  drawLabel_not_mem r "v" r.labels ((hr.labels _).mpr ⟨p, h⟩)

theorem canAdd_drawnNode (hk : r.graph.signature.find control = some k) :
    r.graph.CanAdd (r.drawnNode k) := by
  refine ⟨label_ne_drawn hr, ?_, rfl⟩
  rw [((r.graph.signature.find_eq_some_iff control k).mp hk).2]
  exact hk

include hg

/-- The new node can be nested under what can hold it. -/
theorem nestRefusal_withDrawnNode_iff (hk : r.graph.signature.find control = some k) :
    (r.withDrawnNode k).construction.nestRefusal r.graph.places.size par = none ↔
      r.graph.CanHold par := by
  have hadd := canAdd_drawnNode hr hk
  have hmade : (r.withDrawnNode k).graph.WellFormed := by
    rw [graph_withDrawnNode]
    exact hg.addPlace hadd
  rw [Construction.nestRefusal_eq_none_iff hmade, ← graph, graph_withDrawnNode]
  exact ⟨canHold_of_canNest, canNest_addPlace hg hadd fun i h => by cases h⟩

/-- **With a known control and a place that can hold it,** a child is made. -/
theorem exists_child_ok (hk : r.graph.signature.find control = some k) (hp : r.graph.CanHold par) :
    ∃ r', r.child par control = (.ok r.graph.places.size, r') ∧
      r'.graph = r.graph.grow (r.drawnNode k) par := by
  have hnone := (nestRefusal_withDrawnNode_iff hr hg hk).mpr hp
  rw [child_eq, hk]
  simp only [nest, unregistered, Construction.nest, hnone]
  refine ⟨_, rfl, ?_⟩
  show (r.withDrawnNode k).graph.nest _ _ = _
  rw [graph_withDrawnNode, grow]

/-- **Under another place** the nesting is refused. -/
theorem exists_child_error (hk : r.graph.signature.find control = some k)
    (hp : ¬ r.graph.CanHold par) :
    ∃ e, (r.child par control).1 = .error e ∧ ∀ s, e ≠ .duplicateNode s := by
  have hsome := mt (nestRefusal_withDrawnNode_iff hr hg hk).mp hp
  obtain ⟨e, he⟩ := Option.ne_none_iff_exists'.mp hsome
  refine ⟨e, ?_, fun s hs => Construction.nestRefusal_ne_duplicateNode (hs ▸ he)⟩
  rw [child_eq, hk]
  simp only [nest, unregistered, Construction.nest, he]

theorem freshChild (par : PlaceId) (control : String) : r.FreshChild par control := by
  have hends : Ends (labelRound "v" labels) r _ := ends_labelRound (fun _ => rfl) "v"
  cases hk : r.graph.signature.find control with
  | none =>
    have hchild := child_eq r par control
    rw [hk] at hchild
    refine ⟨hends, fun s => ?_, ?_, fun p r' h => ?_⟩
    · simp [hchild]
    · simp [hchild, hk]
    · rw [hchild] at h
      cases h
  | some k =>
    by_cases hp : r.graph.CanHold par
    · obtain ⟨r₁, hchild, hgraph⟩ := exists_child_ok hr hg hk hp
      refine ⟨hends, fun s => ?_, ?_, fun p r' h q => ?_⟩
      · simp [hchild]
      · simp [hchild, hk, hp]
      · rw [hchild] at h
        cases h
        rw [hgraph, grow, label_nest, label_addPlace]
        split
        next hq => simp [hq, drawnNode, PlaceKind.node?]
        next hq => exact iff_of_false (label_ne_drawn hr q) hq
    · obtain ⟨e, hchild, he⟩ := exists_child_error hr hg hk hp
      refine ⟨hends, fun s => ?_, ?_, fun p r' h => ?_⟩
      · simpa [hchild] using he s
      · simp [hchild, hp]
      · rw [h] at hchild
        cases hchild

end Child

/-! ### An edge -/

/-- **An edge that is made by `freshEdge` has a label of its own.** The search for the label ends, the
edge is made, no other edge has its label, and the other links stay what they are. -/
structure FreshEdge (r : Register) : Prop where
  search_ends : Ends (labelRound "e" edgeLabels) r (r.drawLabel "e" r.edgeLabels)
  goes_through : r.freshEdge.1 = .ok r.graph.links.size
  label_iff : ∀ l, r.freshEdge.2.graph.linkKind l = some (.edge (r.drawLabel "e" r.edgeLabels).1) ↔
    l = r.graph.links.size
  others_stay : ∀ l ≠ r.graph.links.size, r.freshEdge.2.graph.linkKind l = r.graph.linkKind l

theorem freshEdge_spec (hr : r.Faithful) : r.FreshEdge := by
  have hkind : ∀ l, r.freshEdge.2.graph.linkKind l =
      if l = r.graph.links.size then some (.edge (r.drawLabel "e" r.edgeLabels).1)
      else r.graph.linkKind l := by
    intro l
    show (addLink _ _).graph.linkKind l = _
    rw [graph_addLink]
    exact linkKind_addLink r.graph _ l
  refine ⟨ends_labelRound (fun _ => rfl) "e", rfl, fun l => ?_, fun l hl => ?_⟩
  · rw [hkind]
    split
    next hl => simp [hl]
    next hl =>
      refine iff_of_false (fun h => ?_) hl
      exact drawLabel_not_mem r "e" r.edgeLabels ((hr.edgeLabels _).mpr ⟨l, h⟩)
  · rw [hkind, if_neg hl]

end Register

/-! ### At every moment -/

/-- **Generated names are fresh.** The search of a supply for a name ends in every state, and the names
of its first calls, however many, are those of the numbers in order, with only the names left out that
were taken at the outset. After any list of actions, refused or not, and whatever labels they have given,
the search for the label of a `child` or of an edge by `freshEdge` ends, the label is never the cause of
a refusal, and nothing else of the kind has it. -/
theorem generated_names_fresh :
    ((∀ s : NameSupply, Ends NameSupply.round s s.fresh) ∧
      ∀ (stem : String) (taken : List String) (n : Nat),
        let (names, s) := (NameSupply.new stem taken).draw n
        names.length = n ∧ names.Nodup ∧ (∀ name ∈ names, name ∉ taken) ∧
          names = ((List.range s.next).map (numbered stem)).filter (· ∉ taken)) ∧
    ∀ (s : Signature) (actions : List Action),
      let r := (Register.new s).run actions
      r.construction = (Construction.new s).run actions ∧
        (∀ par control, r.FreshChild par control ∧
          Register.Agrees (r.child par control) (r.construction.child par control)) ∧
        r.FreshEdge ∧ Register.Agrees r.freshEdge r.construction.freshEdge := by
  refine ⟨⟨NameSupply.ends_round, fun stem taken n => ?_⟩, fun s actions => ?_⟩
  · have hdrawn := (NameSupply.hasDrawn_new stem taken).draw n
    rw [List.nil_append] at hdrawn
    exact ⟨NameSupply.length_draw n _, hdrawn.nodup, hdrawn.not_mem, hdrawn.names_eq⟩
  · intro r
    obtain ⟨hconstruction, -, hfaithful⟩ :=
      Register.agrees_run (Register.faithful_new s) (Bigraph.WellFormed.empty s) actions
    have hg : r.graph.WellFormed := by
      rw [Register.graph, hconstruction]
      exact Construction.wellFormed_run (Bigraph.WellFormed.empty s) actions
    exact ⟨hconstruction,
      fun par control => ⟨Register.freshChild hfaithful hg par control,
        Register.agrees_child hfaithful par control⟩,
      Register.freshEdge_spec hfaithful, Register.agrees_freshEdge hfaithful⟩

/-- Labels given by hand and a closed outer name are passed over. -/
example :
    let c := (Construction.new ⟨[⟨"Room", 1, .active⟩], by decide⟩).run [.root 0, .node "Room" "v0",
      .nest 1 0, .outer "e2", .close "e2", .child 0 "Room", .freshEdge]
    c.nodeLabels = ["v0", "v1"] ∧ c.edgeLabels = ["e2", "e3"] := by decide

end Bigraphs
