import Bigraphs.Construction.Register
import Bigraphs.Proofs.Construction.Steps

/-! # The register is right

A register is faithful when its tables hold just what is in the bigraph and its lists the places of each
kind (`Register.Faithful`). A step of a faithful register answers as the step of the construction does,
which looks through the bigraph, and leaves the register faithful (`agrees_perform`). So the tables may be
asked in place of the bigraph, however long the construction has gone on (`agrees_run`). -/

namespace Bigraphs

/-! ### One more entry -/

section Entry
variable {α : Type} {f f' : Nat → Option α} {n : Nat} {v : Option α}

/-- The values after `n` is given a value. -/
theorem exists_eq_some_of_new (hn : f n = none) (h : ∀ p, f' p = if p = n then v else f p) (a : α) :
    (∃ p, f' p = some a) ↔ v = some a ∨ ∃ p, f p = some a := by
  simp only [h]
  constructor
  · rintro ⟨p, hp⟩
    by_cases hpn : p = n
    · rw [if_pos hpn] at hp
      exact Or.inl hp
    · rw [if_neg hpn] at hp
      exact Or.inr ⟨p, hp⟩
  · rintro (hv | ⟨p, hp⟩)
    · exact ⟨n, by rw [if_pos rfl, hv]⟩
    · refine ⟨p, ?_⟩
      rw [if_neg, hp]
      rintro rfl
      rw [hn] at hp
      cases hp

/-- The numbers with a value after `n`, the next number, is given a value. -/
theorem filter_isSome_of_new (h : ∀ p, f' p = if p = n then v else f p) :
    (List.range (n + 1)).filter (fun p => (f' p).isSome) =
      (List.range n).filter (fun p => (f p).isSome) ++ if v.isSome then [n] else [] := by
  have hbelow : ∀ p ∈ List.range n, (f' p).isSome = (f p).isSome := by
    intro p hp
    rw [h, if_neg (Nat.ne_of_lt (List.mem_range.mp hp))]
  rw [List.range_succ, List.filter_append, List.filter_congr hbelow]
  congr 1
  rw [List.filter_cons, List.filter_nil, h, if_pos rfl]

end Entry

namespace Register

open Bigraph

/-- **A register is faithful:** its tables hold the indices, labels and names of the bigraph, and its
lists the places of each kind in creation order. -/
structure Faithful (r : Register) : Prop where
  rootIndices : ∀ i, i ∈ r.rootIndices ↔ ∃ p, r.graph.rootIndex p = some i
  siteIndices : ∀ i, i ∈ r.siteIndices ↔ ∃ p, r.graph.siteIndex p = some i
  labels : ∀ s, s ∈ r.labels ↔ ∃ p, r.graph.label p = some s
  outerNames : ∀ s l, r.outerNames[s]? = some l ↔ r.graph.linkKind l = some (.outer s)
  edgeLabels : ∀ s, s ∈ r.edgeLabels ↔ ∃ l, r.graph.linkKind l = some (.edge s)
  innerNames : ∀ s, s ∈ r.innerNames ↔ ∃ i < r.graph.innerNames.size, r.graph.innerName i = s
  roots : r.roots = r.graph.placeIds.filter r.graph.isRoot
  sites : r.sites = r.graph.placeIds.filter r.graph.isSite
  nodes : r.nodes = r.graph.placeIds.filter r.graph.isNode

variable {r : Register}

theorem faithful_new (s : Signature) : (new s).Faithful where
  rootIndices i := by simp [new, Construction.new, graph, rootIndex, kind, empty]
  siteIndices i := by simp [new, Construction.new, graph, siteIndex, kind, empty]
  labels s := by simp [new, Construction.new, graph, label, node?, kind, empty]
  outerNames s l := by simp [new, Construction.new, graph, linkKind, empty]
  edgeLabels s := by simp [new, Construction.new, graph, linkKind, empty]
  innerNames s := by simp [new, Construction.new, graph, empty]
  roots := by simp [new, Construction.new, graph, placeIds, empty]
  sites := by simp [new, Construction.new, graph, placeIds, empty]
  nodes := by simp [new, Construction.new, graph, placeIds, empty]

/-! ### Places -/

@[simp] theorem construction_addPlace (k : PlaceKind) :
    (r.addPlace k).construction = r.construction.addPlace k := by
  cases k <;> rfl

theorem graph_addPlace (k : PlaceKind) : (r.addPlace k).graph = r.graph.addPlace k := by
  rw [graph, construction_addPlace]
  rfl

theorem mem_rootIndices_addPlace {k : PlaceKind} {i : Nat} :
    i ∈ (r.addPlace k).rootIndices ↔ k.rootIndex = some i ∨ i ∈ r.rootIndices := by
  cases k <;> simp [addPlace, PlaceKind.rootIndex]

theorem mem_siteIndices_addPlace {k : PlaceKind} {i : Nat} :
    i ∈ (r.addPlace k).siteIndices ↔ k.siteIndex = some i ∨ i ∈ r.siteIndices := by
  cases k <;> simp [addPlace, PlaceKind.siteIndex]

theorem mem_labels_addPlace {k : PlaceKind} {s : String} :
    s ∈ (r.addPlace k).labels ↔ k.node?.map (·.label) = some s ∨ s ∈ r.labels := by
  cases k <;> simp [addPlace, PlaceKind.node?]

theorem lists_addPlace (k : PlaceKind) :
    (r.addPlace k).roots = r.roots ++ (if k.rootIndex.isSome then [r.graph.places.size] else []) ∧
    (r.addPlace k).sites = r.sites ++ (if k.siteIndex.isSome then [r.graph.places.size] else []) ∧
    (r.addPlace k).nodes = r.nodes ++ (if k.node?.isSome then [r.graph.places.size] else []) := by
  cases k <;> simp [addPlace, PlaceKind.rootIndex, PlaceKind.siteIndex, PlaceKind.node?]

theorem names_addPlace (k : PlaceKind) :
    (r.addPlace k).outerNames = r.outerNames ∧ (r.addPlace k).edgeLabels = r.edgeLabels ∧
      (r.addPlace k).innerNames = r.innerNames := by
  cases k <;> exact ⟨rfl, rfl, rfl⟩

/-- **A place entered** is in its table and in its list. -/
theorem Faithful.addPlace (hr : r.Faithful) (k : PlaceKind) : (r.addPlace k).Faithful := by
  have hkind := kind_size r.graph
  obtain ⟨hroots, hsites, hnodes⟩ := lists_addPlace (r := r) k
  obtain ⟨houter, hedge, hinner⟩ := names_addPlace (r := r) k
  have hids : (r.graph.addPlace k).placeIds = List.range (r.graph.places.size + 1) := by
    rw [placeIds, size_addPlace]
  exact {
    rootIndices := fun i => by
      rw [mem_rootIndices_addPlace, hr.rootIndices, graph_addPlace]
      exact (exists_eq_some_of_new (by rw [rootIndex, hkind]; rfl) (rootIndex_addPlace k) i).symm
    siteIndices := fun i => by
      rw [mem_siteIndices_addPlace, hr.siteIndices, graph_addPlace]
      exact (exists_eq_some_of_new (by rw [siteIndex, hkind]; rfl) (siteIndex_addPlace k) i).symm
    labels := fun s => by
      rw [mem_labels_addPlace, hr.labels, graph_addPlace]
      exact (exists_eq_some_of_new (by rw [label, node?, hkind]; rfl) (label_addPlace k) s).symm
    outerNames := fun s l => by
      rw [houter, graph_addPlace]
      exact hr.outerNames s l
    edgeLabels := fun s => by
      rw [hedge, graph_addPlace]
      exact hr.edgeLabels s
    innerNames := fun s => by
      rw [hinner, graph_addPlace]
      exact hr.innerNames s
    roots := by
      rw [hroots, hr.roots, graph_addPlace, hids]
      exact (filter_isSome_of_new (rootIndex_addPlace k)).symm
    sites := by
      rw [hsites, hr.sites, graph_addPlace, hids]
      exact (filter_isSome_of_new (siteIndex_addPlace k)).symm
    nodes := by
      rw [hnodes, hr.nodes, graph_addPlace, hids]
      exact (filter_isSome_of_new (node?_addPlace k)).symm }

/-! ### Links and inner names -/

@[simp] theorem construction_addLink (k : LinkKind) :
    (r.addLink k).construction = r.construction.addLink k := by
  cases k <;> rfl

theorem graph_addLink (k : LinkKind) : (r.addLink k).graph = r.graph.addLink k := by
  rw [graph, construction_addLink]
  rfl

theorem getElem?_outerNames_addLink {k : LinkKind} {s : String} :
    (r.addLink k).outerNames[s]? =
      if k = .outer s then some r.graph.links.size else r.outerNames[s]? := by
  cases k <;> simp [addLink, Std.HashMap.getElem?_insert]

theorem mem_edgeLabels_addLink {k : LinkKind} {s : String} :
    s ∈ (r.addLink k).edgeLabels ↔ some k = some (.edge s) ∨ s ∈ r.edgeLabels := by
  cases k <;> simp [addLink]

/-- **A link entered** is in its table. -/
theorem Faithful.addLink (hr : r.Faithful) {k : LinkKind} (hk : ∀ l, r.graph.linkKind l ≠ some k) :
    (r.addLink k).Faithful := by
  have hnone : r.graph.linkKind r.graph.links.size = none := linkKind_eq_none_iff.mpr (Nat.le_refl _)
  have houter : ∀ s l, (r.addLink k).outerNames[s]? = some l ↔
      (r.addLink k).graph.linkKind l = some (.outer s) := by
    intro s l
    rw [getElem?_outerNames_addLink, graph_addLink, linkKind_addLink]
    by_cases hks : k = .outer s
    · rw [if_pos hks, Option.some.injEq, ← hks]
      split
      next h => simp [h]
      next h => exact ⟨fun heq => absurd heq.symm h, fun hl => absurd hl (hk l)⟩
    · rw [if_neg hks, hr.outerNames]
      split
      next h =>
        rw [h, hnone, Option.some.injEq]
        exact ⟨fun hl => absurd hl (by simp), fun heq => absurd heq hks⟩
      next => exact Iff.rfl
  have hedge : ∀ s, s ∈ (r.addLink k).edgeLabels ↔
      ∃ l, (r.addLink k).graph.linkKind l = some (.edge s) := by
    intro s
    rw [mem_edgeLabels_addLink, hr.edgeLabels, graph_addLink]
    exact (exists_eq_some_of_new hnone (linkKind_addLink r.graph k) _).symm
  cases k <;> exact { hr with outerNames := houter, edgeLabels := hedge }

theorem Faithful.addInner (hr : r.Faithful) (name : String) :
    Faithful { r with
      construction.graph.innerNames := r.graph.innerNames.push ⟨name, none⟩
      innerNames := r.innerNames.insert name } := by
  refine { hr with innerNames := fun s => ?_ }
  rw [Std.HashSet.mem_insert, hr.innerNames]
  show _ ↔ ∃ i < (r.graph.addInner name).innerNames.size, (r.graph.addInner name).innerName i = s
  simp only [size_addInner, innerName_addInner, beq_iff_eq]
  constructor
  · rintro (rfl | ⟨i, hi, hs⟩)
    · exact ⟨_, Nat.lt_succ_self _, if_pos rfl⟩
    · exact ⟨i, Nat.lt_succ_of_lt hi, by rw [if_neg (Nat.ne_of_lt hi), hs]⟩
  · rintro ⟨i, hi, hs⟩
    rcases Nat.lt_succ_iff_lt_or_eq.mp hi with hlt | heq
    · rw [if_neg (Nat.ne_of_lt hlt)] at hs
      exact Or.inr ⟨i, hlt, hs⟩
    · rw [if_pos heq] at hs
      exact Or.inl hs

/-- **A name closed** goes from the table of the outer names to that of the edges. -/
theorem Faithful.close (hr : r.Faithful) {name : String} {l : LinkId}
    (hl : r.graph.linkKind l = some (.outer name)) :
    Faithful { r with
      construction.graph.links := r.graph.links.modify l fun link => { link with kind := .edge name }
      outerNames := r.outerNames.erase name
      edgeLabels := r.edgeLabels.insert name } := by
  have hkind := linkKind_close r.graph (lt_of_linkKind hl) name
  exact { hr with
    outerNames := fun s k => by
      show _ ↔ (r.graph.close l name).linkKind k = _
      rw [Std.HashMap.getElem?_erase, hkind]
      by_cases hs : name = s
      · subst hs
        have hunique : r.graph.linkKind k = some (.outer name) → k = l := fun hk =>
          Option.some.inj (((hr.outerNames name k).mpr hk).symm.trans ((hr.outerNames name l).mpr hl))
        simp only [beq_self_eq_true, if_true, reduceCtorEq, false_iff]
        split
        next => simp
        next hne => exact fun hk => hne (hunique hk)
      · rw [if_neg (by simpa using hs), hr.outerNames]
        split
        next h => simp [h, hl, hs]
        next => exact Iff.rfl
    edgeLabels := fun s => by
      show _ ↔ ∃ k, (r.graph.close l name).linkKind k = _
      rw [Std.HashSet.mem_insert, hr.edgeLabels, beq_iff_eq]
      simp only [hkind]
      constructor
      · rintro (rfl | ⟨k, hk⟩)
        · exact ⟨l, if_pos rfl⟩
        · refine ⟨k, ?_⟩
          rw [if_neg, hk]
          rintro rfl
          rw [hl] at hk
          cases hk
      · rintro ⟨k, hk⟩
        split at hk
        next => exact Or.inl (by simpa using hk)
        next => exact Or.inr ⟨k, hk⟩ }

/-! ### What needs no entry -/

/-- The two bigraphs have the same indices, labels and names. -/
structure SameEntries (g g' : Bigraph) : Prop where
  size_places : g'.places.size = g.places.size
  rootIndex_eq : ∀ p, g'.rootIndex p = g.rootIndex p
  siteIndex_eq : ∀ p, g'.siteIndex p = g.siteIndex p
  label_eq : ∀ p, g'.label p = g.label p
  linkKind_eq : ∀ l, g'.linkKind l = g.linkKind l
  size_innerNames : g'.innerNames.size = g.innerNames.size
  innerName_eq : ∀ i, g'.innerName i = g.innerName i

theorem SameEntries.refl (g : Bigraph) : SameEntries g g :=
  ⟨rfl, fun _ => rfl, fun _ => rfl, fun _ => rfl, fun _ => rfl, rfl, fun _ => rfl⟩

theorem Faithful.of_same (hr : r.Faithful) {c : Construction} (h : SameEntries r.graph c.graph) :
    Faithful { r with construction := c } := by
  have hids : c.graph.placeIds = r.graph.placeIds := by rw [placeIds, placeIds, h.size_places]
  have hroot : c.graph.isRoot = r.graph.isRoot := funext fun p => by rw [isRoot, isRoot, h.rootIndex_eq]
  have hsite : c.graph.isSite = r.graph.isSite := funext fun p => by rw [isSite, isSite, h.siteIndex_eq]
  have hnode : c.graph.isNode = r.graph.isNode := funext fun p => by
    have hl := congrArg Option.isSome (h.label_eq p)
    rwa [label, label, Option.isSome_map, Option.isSome_map] at hl
  exact {
    rootIndices := fun i => by simp only [graph, h.rootIndex_eq]; exact hr.rootIndices i
    siteIndices := fun i => by simp only [graph, h.siteIndex_eq]; exact hr.siteIndices i
    labels := fun s => by simp only [graph, h.label_eq]; exact hr.labels s
    outerNames := fun s l => by simp only [graph, h.linkKind_eq]; exact hr.outerNames s l
    edgeLabels := fun s => by simp only [graph, h.linkKind_eq]; exact hr.edgeLabels s
    innerNames := fun s => by
      simp only [graph, h.size_innerNames, h.innerName_eq]; exact hr.innerNames s
    roots := by simp only [graph, hids, hroot]; exact hr.roots
    sites := by simp only [graph, hids, hsite]; exact hr.sites
    nodes := by simp only [graph, hids, hnode]; exact hr.nodes }

theorem sameEntries_nest (c : Construction) (child par : PlaceId) :
    SameEntries c.graph (c.nest child par).2.graph := by
  unfold Construction.nest
  split
  next => exact .refl _
  next =>
    exact ⟨size_nest _ _ _, rootIndex_nest _ _, siteIndex_nest _ _, label_nest _ _, fun _ => rfl, rfl,
      fun _ => rfl⟩

theorem sameEntries_connect (c : Construction) (v : PlaceId) (l : LinkId) :
    SameEntries c.graph (c.connect v l).2.graph := by
  unfold Construction.connect
  split
  next => exact .refl _
  next =>
    split
    next => exact .refl _
    next d hd =>
      split
      next => exact .refl _
      next =>
        exact ⟨size_connect _ _ _ _, rootIndex_connect hd l _, siteIndex_connect hd l _,
          label_connect hd l _, linkKind_connect _ _ _ _, rfl, fun _ => rfl⟩

theorem sameEntries_wire (c : Construction) (i : InnerId) (l : LinkId) :
    SameEntries c.graph (c.wire i l).2.graph := by
  unfold Construction.wire
  split
  next => exact .refl _
  next =>
    split
    next => exact .refl _
    next entry hi =>
      split
      next => exact .refl _
      next =>
        obtain ⟨hlt, hget⟩ := Array.getElem?_eq_some_iff.mp hi
        have hname : entry.name = c.graph.innerName i := by rw [innerName, hi]; rfl
        show SameEntries c.graph (c.graph.wire i entry.name l)
        rw [hname]
        exact ⟨rfl, fun _ => rfl, fun _ => rfl, fun _ => rfl, linkKind_wire _ _ _ _, size_wire _ _ _ _,
          innerName_wire _ hlt l⟩

/-! ### Steps -/

/-- **The two steps agree:** they give one answer, to one construction, and the register is faithful
again. -/
structure Agrees {α : Type} (x : Except BuildError α × Register)
    (y : Except BuildError α × Construction) : Prop where
  answer_eq : x.1 = y.1
  construction_eq : x.2.construction = y.2
  faithful : x.2.Faithful

theorem Agrees.ite {α : Type} {P Q : Prop} [Decidable P] [Decidable Q]
    {x x' : Except BuildError α × Register} {y y' : Except BuildError α × Construction} (h : P ↔ Q)
    (hx : P → Agrees x y) (hx' : ¬ P → Agrees x' y') :
    Agrees (if P then x else x') (if Q then y else y') := by
  by_cases hP : P
  · rw [if_pos hP, if_pos (h.mp hP)]
    exact hx hP
  · rw [if_neg hP, if_neg fun hQ => hP (h.mpr hQ)]
    exact hx' hP

theorem Agrees.eq_mk {α : Type} {x : Except BuildError α × Register}
    {y : Except BuildError α × Construction} (h : Agrees x y) {a : Except BuildError α} {r : Register}
    (hx : x = (a, r)) : y = (a, r.construction) ∧ r.Faithful := by
  subst hx
  exact ⟨Prod.ext h.answer_eq.symm h.construction_eq.symm, h.faithful⟩

theorem Agrees.replying {α : Type} {step : Step α} {step' : Construction.Step α}
    (h : Agrees (step r) (step' r.construction)) (reply : α → Reply) :
    Agrees (step.replying reply r) (step'.replying reply r.construction) :=
  ⟨congrArg (Except.map reply) h.answer_eq, h.construction_eq, h.faithful⟩

theorem agrees_unregistered (hr : r.Faithful) {α : Type} {step : Construction.Step α}
    (h : SameEntries r.graph (step r.construction).2.graph) :
    Agrees (unregistered step r) (step r.construction) :=
  ⟨rfl, rfl, hr.of_same h⟩

section Steps
variable (hr : r.Faithful)
include hr

/-- A refused step changes nothing. -/
theorem agrees_refused {α : Type} (e : BuildError) :
    Agrees (α := α) (.error e, r) (.error e, r.construction) :=
  ⟨rfl, rfl, hr⟩

theorem agrees_addPlace {α : Type} (a : α) (k : PlaceKind) :
    Agrees (.ok a, r.addPlace k) (.ok a, r.construction.addPlace k) :=
  ⟨rfl, construction_addPlace k, hr.addPlace k⟩

theorem agrees_addLink {α : Type} (a : α) {k : LinkKind} (hk : ∀ l, r.graph.linkKind l ≠ some k) :
    Agrees (.ok a, r.addLink k) (.ok a, r.construction.addLink k) :=
  ⟨rfl, construction_addLink k, hr.addLink hk⟩

theorem agrees_root (i : Nat) : Agrees (r.root i) (r.construction.root i) :=
  .ite ((hr.rootIndices i).trans Construction.any_rootIndex_iff.symm) (fun _ => agrees_refused hr _)
    fun _ => agrees_addPlace hr _ _

theorem agrees_site (i : Nat) : Agrees (r.site i) (r.construction.site i) :=
  .ite ((hr.siteIndices i).trans Construction.any_siteIndex_iff.symm) (fun _ => agrees_refused hr _)
    fun _ => agrees_addPlace hr _ _

theorem mem_labels_iff (s : String) : s ∈ r.labels ↔ s ∈ r.construction.nodeLabels :=
  (hr.labels s).trans Construction.mem_nodeLabels.symm

theorem mem_edgeLabels_iff (s : String) : s ∈ r.edgeLabels ↔ s ∈ r.construction.edgeLabels :=
  (hr.edgeLabels s).trans Construction.mem_edgeLabels.symm

theorem agrees_node (control label : String) :
    Agrees (r.node control label) (r.construction.node control label) := by
  unfold node Construction.node
  cases r.graph.signature.find control with
  | none => exact agrees_refused hr _
  | some k =>
    exact .ite (mem_labels_iff hr label) (fun _ => agrees_refused hr _) fun _ => agrees_addPlace hr _ _

theorem agrees_nest (child par : PlaceId) :
    Agrees (r.nest child par) (r.construction.nest child par) :=
  agrees_unregistered hr (sameEntries_nest _ _ _)

omit hr in
/-- The number that is drawn is the same. -/
theorem firstFree_toList (stem : String) {table : Std.HashSet String} {taken : List String}
    (h : ∀ s, s ∈ table ↔ s ∈ taken) (n : Nat) :
    firstFree stem table.toList n = firstFree stem taken n :=
  firstFree_congr stem (fun s => Std.HashSet.mem_toList.trans (h s)) n

theorem agrees_child (par : PlaceId) (control : String) :
    Agrees (r.child par control) (r.construction.child par control) := by
  unfold child Construction.child drawLabel Construction.drawLabel
  simp only [firstFree_toList "v" (mem_labels_iff hr)]
  generalize firstFree "v" r.construction.nodeLabels r.construction.nextLabel = n
  have hdrawn : Faithful { r with construction := ⟨r.graph, n + 1⟩ } := hr.of_same (.refl _)
  have hnode : Agrees _ (Construction.node control (numbered "v" n) ⟨r.graph, n + 1⟩) :=
    agrees_node hdrawn control (numbered "v" n)
  split
  next e r₁ hx =>
    obtain ⟨hy, hr₁⟩ := hnode.eq_mk hx
    rw [hy]
    exact agrees_refused hr₁ e
  next p r₁ hx =>
    obtain ⟨hy, hr₁⟩ := hnode.eq_mk hx
    rw [hy]
    have hnest := agrees_nest hr₁ p par
    simp only
    split
    next e r₂ hx =>
      obtain ⟨hy, hr₂⟩ := hnest.eq_mk hx
      rw [hy]
      exact agrees_refused hr₂ e
    next r₂ hx =>
      obtain ⟨hy, hr₂⟩ := hnest.eq_mk hx
      rw [hy]
      exact ⟨rfl, rfl, hr₂⟩

theorem agrees_edge (s : String) : Agrees (r.edge s) (r.construction.edge s) :=
  .ite (mem_edgeLabels_iff hr s) (fun _ => agrees_refused hr _) fun hs =>
    agrees_addLink hr _ fun l hl => hs ((hr.edgeLabels s).mpr ⟨l, hl⟩)

theorem agrees_freshEdge : Agrees r.freshEdge r.construction.freshEdge := by
  unfold freshEdge Construction.freshEdge drawLabel Construction.drawLabel
  simp only [firstFree_toList "e" (mem_edgeLabels_iff hr)]
  have hfree := numbered_firstFree_not_mem "e" r.construction.edgeLabels r.construction.nextLabel
  generalize firstFree "e" r.construction.edgeLabels r.construction.nextLabel = n at hfree ⊢
  have hdrawn : Faithful { r with construction := ⟨r.graph, n + 1⟩ } := hr.of_same (.refl _)
  exact agrees_addLink hdrawn _ fun l hl =>
    hfree ((mem_edgeLabels_iff hr _).mp ((hr.edgeLabels _).mpr ⟨l, hl⟩))

theorem agrees_inner (s : String) : Agrees (r.inner s) (r.construction.inner s) :=
  .ite ((hr.innerNames s).trans Construction.mem_innerNames.symm) (fun _ => agrees_refused hr _)
    fun _ => ⟨rfl, rfl, hr.addInner s⟩

theorem agrees_connect (v : PlaceId) (l : LinkId) :
    Agrees (r.connect v l) (r.construction.connect v l) :=
  agrees_unregistered hr (sameEntries_connect _ _ _)

theorem agrees_wire (i : InnerId) (l : LinkId) : Agrees (r.wire i l) (r.construction.wire i l) :=
  agrees_unregistered hr (sameEntries_wire _ _ _)

variable (hg : r.graph.WellFormed)
include hg

/-- The table of the outer names gives what a look through the links finds. -/
theorem getElem?_outerNames (s : String) : r.outerNames[s]? = r.graph.outerNamed s :=
  Option.ext fun l => (hr.outerNames s l).trans (outerNamed_eq_some_iff hg).symm

theorem agrees_outer (s : String) : Agrees (r.outer s) (r.construction.outer s) := by
  have hiff : s ∈ r.outerNames ↔ (r.graph.outerNamed s).isSome := by
    rw [← getElem?_outerNames hr hg, Std.HashMap.isSome_getElem?_eq_contains, Std.HashMap.mem_iff_contains]
  refine .ite hiff (fun _ => agrees_refused hr _) fun hs => agrees_addLink hr _ fun l hl => hs ?_
  exact hiff.mpr ((Construction.outerNamed_isSome_iff hg).mpr ⟨l, hl⟩)

theorem agrees_close (s : String) : Agrees (r.close s) (r.construction.close s) := by
  unfold close Construction.close
  rw [getElem?_outerNames hr hg]
  cases hl : r.graph.outerNamed s with
  | none => exact agrees_refused hr _
  | some l =>
    exact .ite (mem_edgeLabels_iff hr s) (fun _ => agrees_refused hr _) fun _ =>
      ⟨rfl, rfl, hr.close ((outerNamed_eq_some_iff hg).mp hl)⟩

/-- **Every action is answered alike,** and leaves the register faithful. -/
theorem agrees_perform (a : Action) : Agrees (perform a r) (Construction.perform a r.construction) := by
  cases a with
  | root i => exact (agrees_root hr i).replying _
  | site i => exact (agrees_site hr i).replying _
  | node control label => exact (agrees_node hr control label).replying _
  | child parent control => exact (agrees_child hr parent control).replying _
  | nest child parent => exact (agrees_nest hr child parent).replying _
  | outer name => exact (agrees_outer hr hg name).replying _
  | edge label => exact (agrees_edge hr label).replying _
  | freshEdge => exact (agrees_freshEdge hr).replying _
  | inner name => exact (agrees_inner hr name).replying _
  | connect node link => exact (agrees_connect hr node link).replying _
  | wire inner link => exact (agrees_wire hr inner link).replying _
  | close name => exact (agrees_close hr hg name).replying _

/-- **A whole run is answered alike,** and leaves the register faithful. -/
theorem agrees_run (actions : List Action) :
    (r.run actions).construction = r.construction.run actions ∧
      r.answers actions = r.construction.answers actions ∧ (r.run actions).Faithful := by
  induction actions generalizing r with
  | nil => exact ⟨rfl, rfl, hr⟩
  | cons a actions ih =>
    have h := agrees_perform hr hg a
    have hg₁ : (perform a r).2.graph.WellFormed := by
      rw [graph, h.construction_eq]
      exact Construction.wellFormed_perform hg a
    obtain ⟨hconstruction, hanswers, hfaithful⟩ := ih h.faithful hg₁
    rw [h.construction_eq] at hconstruction hanswers
    refine ⟨hconstruction, ?_, hfaithful⟩
    rw [answers, Construction.answers, h.answer_eq, hanswers]

end Steps

/-! ### Lists -/

theorem Faithful.sortedRoots (hr : r.Faithful) : r.sortedRoots = r.graph.roots := by
  rw [Register.sortedRoots, hr.roots, Bigraph.roots]

theorem Faithful.sortedSites (hr : r.Faithful) : r.sortedSites = r.graph.sites := by
  rw [Register.sortedSites, hr.sites, Bigraph.sites]

end Register

end Bigraphs
