import Bigraphs.Proofs.Construction.Updates
import Bigraphs.Proofs.Graph.Walks

/-! # Every construction is well-formed

No step, refused or not, breaks `WellFormed` (`wellFormed_perform`), so it holds after any list of
actions (`wellFormed_run`), and a finished bigraph is rooted besides (`Constructible.rooted`). The one
update that takes an argument is `nest`: the place that is moved is not above its new parent, so the
walk up from anywhere still ends. -/

namespace Bigraphs

namespace Bigraph

variable {g : Bigraph}

/-! ### Places -/

/-- A place of this kind can be added: its index or label is new, and a node has a control of the
signature and no ports yet. -/
def CanAdd (g : Bigraph) : PlaceKind → Prop
  | .root i => ∀ p, g.rootIndex p ≠ some i
  | .site i => ∀ p, g.siteIndex p ≠ some i
  | .node d => (∀ p, g.label p ≠ some d.label) ∧
      g.signature.find d.control.name = some d.control ∧ d.ports = []

theorem kind_size (g : Bigraph) : g.kind g.places.size = none :=
  kind_eq_none_iff.mpr (Nat.le_refl _)

theorem parent_size (g : Bigraph) : g.parent g.places.size = none := by
  cases h : g.parent g.places.size with
  | none => rfl
  | some q => exact absurd (lt_of_parent h) (Nat.lt_irrefl _)

theorem children_size (g : Bigraph) : g.children g.places.size = [] := by
  refine List.eq_nil_iff_forall_not_mem.mpr fun c hc => ?_
  exact absurd (lt_of_mem_children hc) (Nat.lt_irrefl _)

theorem rootIndex_addPlace (k : PlaceKind) (p : PlaceId) :
    (g.addPlace k).rootIndex p = if p = g.places.size then k.rootIndex else g.rootIndex p := by
  unfold rootIndex
  rw [kind_addPlace]
  split <;> rfl

theorem siteIndex_addPlace (k : PlaceKind) (p : PlaceId) :
    (g.addPlace k).siteIndex p = if p = g.places.size then k.siteIndex else g.siteIndex p := by
  unfold siteIndex
  rw [kind_addPlace]
  split <;> rfl

theorem node?_addPlace (k : PlaceKind) (p : PlaceId) :
    (g.addPlace k).node? p = if p = g.places.size then k.node? else g.node? p := by
  unfold node?
  rw [kind_addPlace]
  split <;> rfl

theorem label_addPlace (k : PlaceKind) (p : PlaceId) :
    (g.addPlace k).label p =
      if p = g.places.size then k.node?.map (·.label) else g.label p := by
  unfold label
  rw [node?_addPlace]
  split <;> rfl

theorem ports_addPlace {k : PlaceKind} (hk : g.CanAdd k) (p : PlaceId) :
    (g.addPlace k).ports p = g.ports p := by
  rw [ports_eq, ports_eq, node?_addPlace]
  split
  next h =>
    subst h
    have : g.node? g.places.size = none := by rw [node?, kind_size]; rfl
    rw [this]
    cases k with
    | root i => rfl
    | site i => rfl
    | node d => simpa [PlaceKind.node?] using hk.2.2
  next => rfl

theorem inj_of_new {α β : Type} [DecidableEq α] {n : α} {f : α → Option β} {v : Option β}
    (hf : ∀ {p q b}, f p = some b → f q = some b → p = q) (hv : ∀ b, v = some b → ∀ p, f p ≠ some b)
    {p q : α} {b : β} (hp : (if p = n then v else f p) = some b)
    (hq : (if q = n then v else f q) = some b) : p = q := by
  split at hp <;> split at hq
  · next h1 h2 => rw [h1, h2]
  · exact absurd hq (hv b hp q)
  · exact absurd hp (hv b hq p)
  · exact hf hp hq

theorem WellFormed.addPlace (hg : g.WellFormed) {k : PlaceKind} (hk : g.CanAdd k) :
    (g.addPlace k).WellFormed := by
  have hnode : ∀ {p d}, (g.addPlace k).node? p = some d →
      g.node? p = some d ∨ k = .node d := by
    intro p d h
    rw [node?_addPlace] at h
    split at h
    · cases k with
      | root i => cases h
      | site i => cases h
      | node d' => cases h; exact Or.inr rfl
    · exact Or.inl h
  have hportLink : ∀ v i, (g.addPlace k).portLink v i = g.portLink v i := by
    intro v i
    rw [portLink, portLink, ports_addPlace hk]
  exact { hg with
    mem_children := fun {c p} => by
      rw [children_addPlace, parent_addPlace]
      exact hg.mem_children
    nodup_children := fun p => by
      rw [children_addPlace]
      exact hg.nodup_children p
    parent_root := fun {p} hp => by
      rw [parent_addPlace]
      rw [isRoot, rootIndex_addPlace] at hp
      split at hp
      next h => rw [h, parent_size]
      next => exact hg.parent_root hp
    children_site := fun {p} hp => by
      rw [children_addPlace]
      rw [isSite, siteIndex_addPlace] at hp
      split at hp
      next h => rw [h, children_size]
      next => exact hg.children_site hp
    children_atomic := fun {p c} hc hat => by
      rw [children_addPlace]
      rw [control, node?_addPlace] at hc
      split at hc
      next h => rw [h, children_size]
      next => exact hg.children_atomic hc hat
    acyclic := by
      have : (g.addPlace k).IsParent = g.IsParent := by
        funext a p
        rw [IsParent, IsParent, parent_addPlace]
      rw [this]
      exact hg.acyclic
    rootIndex_inj := fun {p q i} hp hq => by
      rw [rootIndex_addPlace] at hp hq
      refine inj_of_new hg.rootIndex_inj (fun i hi => ?_) hp hq
      cases k with
      | root j => cases hi; exact hk
      | site j => cases hi
      | node d => cases hi
    siteIndex_inj := fun {p q i} hp hq => by
      rw [siteIndex_addPlace] at hp hq
      refine inj_of_new hg.siteIndex_inj (fun i hi => ?_) hp hq
      cases k with
      | root j => cases hi
      | site j => cases hi; exact hk
      | node d => cases hi
    label_inj := fun {p q s} hp hq => by
      rw [label_addPlace] at hp hq
      refine inj_of_new hg.label_inj (fun s hs => ?_) hp hq
      cases k with
      | root j => cases hs
      | site j => cases hs
      | node d => cases hs; exact hk.1
    find_control := fun {p d} hd => by
      rcases hnode hd with h | rfl
      · exact hg.find_control h
      · exact hk.2.1
    length_ports := fun {p d} hd => by
      rcases hnode hd with h | rfl
      · exact hg.length_ports h
      · rw [hk.2.2]; exact Nat.zero_le _
    mem_points_port := fun {v i l} => by
      rw [hportLink]
      exact hg.mem_points_port }

/-! ### Nesting -/

theorem WellFounded.nest (hg : g.WellFormed) {child par : PlaceId} (hc : child < g.places.size)
    (hne : child ≠ par) (hcycle : ¬ g.Above child par) :
    WellFounded (g.nest child par).IsParent := by
  have hpar : ∀ {a p}, (g.nest child par).IsParent a p ↔
      if p = child then a = par else g.IsParent a p := by
    intro a p
    rw [IsParent, parent_nest g hc]
    split
    · rw [Option.some.injEq, eq_comm]
    · rfl
  -- the places that are not below `child` keep their walk to the top
  have haway : ∀ p, ¬ g.AboveEq child p → Acc (g.nest child par).IsParent p := by
    intro p
    refine hg.acyclic.induction (C := fun p => ¬ g.AboveEq child p →
      Acc (g.nest child par).IsParent p) p fun p ih hp => ⟨p, fun a ha => ?_⟩
    have hpc : p ≠ child := fun h => hp (h ▸ .refl)
    rw [hpar, if_neg hpc] at ha
    exact ih a ha fun h => hp (.tail h ha)
  have hchild : Acc (g.nest child par).IsParent child := by
    refine ⟨child, fun a ha => ?_⟩
    rw [hpar, if_pos rfl] at ha
    subst ha
    refine haway a fun h => ?_
    rcases aboveEq_iff.mp h with h | h
    · exact hne h
    · exact hcycle h
  refine ⟨fun p => hg.acyclic.induction p fun p ih => ?_⟩
  by_cases hp : p = child
  · rw [hp]; exact hchild
  · refine ⟨p, fun a ha => ih a ?_⟩
    rwa [hpar, if_neg hp] at ha

theorem node?_nest (child par p : PlaceId) : (g.nest child par).node? p = g.node? p := by
  rw [node?, kind_nest]
  rfl

theorem rootIndex_nest (child par p : PlaceId) :
    (g.nest child par).rootIndex p = g.rootIndex p := by
  rw [rootIndex, kind_nest]
  rfl

theorem siteIndex_nest (child par p : PlaceId) :
    (g.nest child par).siteIndex p = g.siteIndex p := by
  rw [siteIndex, kind_nest]
  rfl

theorem control_nest (child par p : PlaceId) : (g.nest child par).control p = g.control p := by
  rw [control, node?_nest]
  rfl

theorem label_nest (child par p : PlaceId) : (g.nest child par).label p = g.label p := by
  rw [label, node?_nest]
  rfl

theorem portLink_nest (child par v : PlaceId) (i : Nat) :
    (g.nest child par).portLink v i = g.portLink v i := by
  rw [portLink, portLink, ports_eq, ports_eq, node?_nest]

theorem WellFormed.nest (hg : g.WellFormed) {child par : PlaceId} (hc : child < g.places.size)
    (hp : par < g.places.size) (hroot : ¬ g.isRoot child) (hsite : ¬ g.isSite par)
    (hatomic : ∀ c, g.control par = some c → ¬ c.isAtomic) (hne : child ≠ par)
    (hcycle : ¬ g.Above child par) : (g.nest child par).WellFormed := by
  have hchildren : ∀ {q}, q ≠ par → g.children q = [] → (g.nest child par).children q = [] := by
    intro q hq hnil
    refine List.eq_nil_iff_forall_not_mem.mpr fun c hcq => ?_
    rw [mem_children_nest g hp, hnil] at hcq
    rcases hcq with ⟨h, -⟩ | ⟨h, -⟩
    · simp at h
    · exact hq h
  exact { hg with
    acyclic := WellFounded.nest hg hc hne hcycle
    mem_children := fun {c q} => by
      rw [mem_children_nest g hp, parent_nest g hc, hg.mem_children]
      by_cases h : c = child
      · subst h; simp [eq_comm]
      · simp [h]
    nodup_children := fun q => nodup_children_nest g (hg.nodup_children q) hg.mem_children.mp
    parent_root := fun {q} hq => by
      rw [isRoot, rootIndex_nest] at hq
      have hqc : q ≠ child := by rintro rfl; exact hroot hq
      rw [parent_nest g hc, if_neg hqc]
      exact hg.parent_root hq
    children_site := fun {q} hq => by
      rw [isSite, siteIndex_nest] at hq
      refine hchildren ?_ (hg.children_site hq)
      rintro rfl; exact hsite hq
    children_atomic := fun {q c} hq hat => by
      rw [control_nest] at hq
      refine hchildren ?_ (hg.children_atomic hq hat)
      rintro rfl; exact hatomic c hq hat
    rootIndex_inj := fun {p q i} h1 h2 => by
      rw [rootIndex_nest] at h1 h2
      exact hg.rootIndex_inj h1 h2
    siteIndex_inj := fun {p q i} h1 h2 => by
      rw [siteIndex_nest] at h1 h2
      exact hg.siteIndex_inj h1 h2
    label_inj := fun {p q s} h1 h2 => by
      rw [label_nest] at h1 h2
      exact hg.label_inj h1 h2
    find_control := fun {p d} h => by
      rw [node?_nest] at h
      exact hg.find_control h
    length_ports := fun {p d} h => by
      rw [node?_nest] at h
      exact hg.length_ports h
    mem_points_port := fun {v i l} => by
      rw [portLink_nest]
      exact hg.mem_points_port }

/-! ### Links and points -/

theorem WellFormed.addLink (hg : g.WellFormed) {k : LinkKind} (hk : ∀ l, g.linkKind l ≠ some k) :
    (g.addLink k).WellFormed := by
  exact { hg with
    linkKind_inj := fun {l l' i} h1 h2 => by
      rw [linkKind_addLink] at h1 h2
      refine inj_of_new hg.linkKind_inj (fun i hi => ?_) h1 h2
      cases hi; exact hk
    mem_points_port := fun {v i l} => by
      rw [points_addLink]
      exact hg.mem_points_port
    mem_points_inner := fun {i l} => by
      rw [points_addLink]
      exact hg.mem_points_inner
    nodup_points := fun l => by
      rw [points_addLink]
      exact hg.nodup_points l }

theorem WellFormed.addInner (hg : g.WellFormed) {name : String}
    (hn : ∀ i < g.innerNames.size, g.innerName i ≠ name) : (g.addInner name).WellFormed := by
  exact { hg with
    innerName_inj := fun {i j} hi hj h => by
      rw [size_addInner] at hi hj
      rw [innerName_addInner, innerName_addInner] at h
      split at h <;> split at h
      · next h1 h2 => rw [h1, h2]
      · exact absurd h.symm (hn j (by grind))
      · exact absurd h (hn i (by grind))
      · exact hg.innerName_inj (by grind) (by grind) h
    mem_points_inner := fun {i l} => by
      rw [innerLink_addInner]
      exact hg.mem_points_inner }

section Connect
variable {v : PlaceId} {d : NodeData} (hv : g.node? v = some d) (l : LinkId)
include hv

theorem node?_connect (i : Nat) (p : PlaceId) : (g.connect v l i).node? p =
    if p = v then some { d with ports := d.ports ++ [l] } else g.node? p := by
  rw [node?, kind_connect g hv]
  split <;> rfl

theorem rootIndex_connect (i : Nat) (p : PlaceId) :
    (g.connect v l i).rootIndex p = g.rootIndex p := by
  rw [rootIndex, rootIndex, kind_connect g hv]
  split
  next h => rw [h, node?_eq_some_iff.mp hv]; rfl
  next => rfl

theorem siteIndex_connect (i : Nat) (p : PlaceId) :
    (g.connect v l i).siteIndex p = g.siteIndex p := by
  rw [siteIndex, siteIndex, kind_connect g hv]
  split
  next h => rw [h, node?_eq_some_iff.mp hv]; rfl
  next => rfl

theorem control_connect (i : Nat) (p : PlaceId) :
    (g.connect v l i).control p = g.control p := by
  rw [control, control, node?_connect hv]
  split
  next h => rw [h, hv]; rfl
  next => rfl

theorem label_connect (i : Nat) (p : PlaceId) : (g.connect v l i).label p = g.label p := by
  rw [label, label, node?_connect hv]
  split
  next h => rw [h, hv]; rfl
  next => rfl

theorem portLink_connect (w : PlaceId) (i : Nat) (k : LinkId) :
    (g.connect v l d.ports.length).portLink w i = some k ↔
      g.portLink w i = some k ∨ (w = v ∧ i = d.ports.length ∧ k = l) := by
  rw [portLink, portLink, ports_eq, ports_eq, node?_connect hv]
  split
  next h =>
    subst h
    rw [hv]
    simp only [Option.map_some, Option.getD_some, true_and]
    rw [List.getElem?_append]
    grind
  next h => simp [h]

end Connect

theorem WellFormed.connect (hg : g.WellFormed) {v : PlaceId} {d : NodeData} {l : LinkId}
    (hv : g.node? v = some d) (hl : l < g.links.size) (ha : d.ports.length < d.control.arity) :
    (g.connect v l d.ports.length).WellFormed := by
  exact { hg with
    mem_children := fun {c p} => by
      rw [children_connect, parent_connect]
      exact hg.mem_children
    nodup_children := fun p => by
      rw [children_connect]
      exact hg.nodup_children p
    parent_root := fun {p} hp => by
      rw [isRoot, rootIndex_connect hv] at hp
      rw [parent_connect]
      exact hg.parent_root hp
    children_site := fun {p} hp => by
      rw [isSite, siteIndex_connect hv] at hp
      rw [children_connect]
      exact hg.children_site hp
    children_atomic := fun {p c} hp hat => by
      rw [control_connect hv] at hp
      rw [children_connect]
      exact hg.children_atomic hp hat
    acyclic := by
      have : (g.connect v l d.ports.length).IsParent = g.IsParent := by
        funext a p
        rw [IsParent, IsParent, parent_connect]
      rw [this]
      exact hg.acyclic
    rootIndex_inj := fun {p q i} h1 h2 => by
      rw [rootIndex_connect hv] at h1 h2
      exact hg.rootIndex_inj h1 h2
    siteIndex_inj := fun {p q i} h1 h2 => by
      rw [siteIndex_connect hv] at h1 h2
      exact hg.siteIndex_inj h1 h2
    label_inj := fun {p q s} h1 h2 => by
      rw [label_connect hv] at h1 h2
      exact hg.label_inj h1 h2
    linkKind_inj := fun {k k' i} h1 h2 => by
      rw [linkKind_connect] at h1 h2
      exact hg.linkKind_inj h1 h2
    find_control := fun {p e} he => by
      rw [node?_connect hv] at he
      split at he
      · cases he
        exact hg.find_control (d := d) hv
      · exact hg.find_control he
    length_ports := fun {p e} he => by
      rw [node?_connect hv] at he
      split at he
      · cases he
        simpa using Nat.succ_le_of_lt ha
      · exact hg.length_ports he
    mem_points_port := fun {w i k} => by
      rw [points_connect g hl, portLink_connect hv, ← hg.mem_points_port]
      split
      next h => subst h; simp
      next h => simp [h]
    mem_points_inner := fun {i k} => by
      change _ ↔ g.innerLink i = some k
      rw [points_connect g hl]
      split
      · simpa using hg.mem_points_inner
      · exact hg.mem_points_inner
    nodup_points := fun k => by
      rw [points_connect g hl]
      split
      · refine nodup_append_singleton (hg.nodup_points k) fun hx => ?_
        rw [hg.mem_points_port, portLink, ports_eq_of_node? hv] at hx
        simp at hx
      · exact hg.nodup_points k }

theorem WellFormed.wire (hg : g.WellFormed) {i : InnerId} {l : LinkId}
    (hi : i < g.innerNames.size) (hl : l < g.links.size) (hfree : g.innerLink i = none) :
    (g.wire i (g.innerName i) l).WellFormed := by
  exact { hg with
    linkKind_inj := fun {k k' x} h1 h2 => by
      rw [linkKind_wire] at h1 h2
      exact hg.linkKind_inj h1 h2
    innerName_inj := fun {j j'} h1 h2 h => by
      rw [size_wire] at h1 h2
      rw [innerName_wire g hi, innerName_wire g hi] at h
      exact hg.innerName_inj h1 h2 h
    mem_points_port := fun {v j k} => by
      change _ ↔ g.portLink v j = some k
      rw [points_wire g hl]
      split
      · simpa using hg.mem_points_port
      · exact hg.mem_points_port
    mem_points_inner := fun {j k} => by
      rw [points_wire g hl, innerLink_wire g hi]
      by_cases hj : j = i
      · subst hj
        rw [if_pos rfl]
        split
        next h => simp [h]
        next h =>
          rw [hg.mem_points_inner, hfree, Option.some.injEq]
          constructor
          · intro h'; cases h'
          · intro h'; exact absurd h'.symm h
      · rw [if_neg hj]
        split
        · simpa [hj] using hg.mem_points_inner
        · exact hg.mem_points_inner
    nodup_points := fun k => by
      rw [points_wire g hl]
      split
      · refine nodup_append_singleton (hg.nodup_points k) fun hx => ?_
        rw [hg.mem_points_inner, hfree] at hx
        cases hx
      · exact hg.nodup_points k }

theorem WellFormed.close (hg : g.WellFormed) {l : LinkId} {label : String}
    (hl : l < g.links.size) (hlabel : ∀ k, g.linkKind k ≠ some (.edge label)) :
    (g.close l label).WellFormed := by
  exact { hg with
    linkKind_inj := fun {k k' i} h1 h2 => by
      rw [linkKind_close g hl] at h1 h2
      refine inj_of_new hg.linkKind_inj (fun i hi => ?_) h1 h2
      cases hi; exact hlabel
    mem_points_port := fun {v i k} => by
      rw [points_close]
      exact hg.mem_points_port
    mem_points_inner := fun {i k} => by
      rw [points_close]
      exact hg.mem_points_inner
    nodup_points := fun k => by
      rw [points_close]
      exact hg.nodup_points k }

theorem WellFormed.empty (s : Signature) : (Bigraph.empty s).WellFormed := by
  have hp : ∀ {P : Prop} {p q : PlaceId}, (Bigraph.empty s).parent p = some q → P := by
    intro P p q h
    exact absurd (lt_of_parent h) (Nat.not_lt_zero _)
  have hk : ∀ {P : Prop} {p : PlaceId} {k}, (Bigraph.empty s).kind p = some k → P := by
    intro P p k h
    exact absurd (lt_of_kind h) (Nat.not_lt_zero _)
  have hc : ∀ p, (Bigraph.empty s).children p = [] := fun p => by
    simp [Bigraph.empty, children]
  have hpt : ∀ l, (Bigraph.empty s).points l = [] := fun l => by
    simp [Bigraph.empty, points]
  exact {
    mem_children := fun {c p} => ⟨fun h => absurd (hc p ▸ h) List.not_mem_nil, hp⟩
    nodup_children := fun p => by simp [hc]
    parent_root := fun {p} h => by
      obtain ⟨i, hi⟩ := isRoot_iff.mp h
      exact hk hi
    children_site := fun _ => hc _
    children_atomic := fun _ _ => hc _
    acyclic := ⟨fun p => ⟨p, fun a ha => hp ha⟩⟩
    rootIndex_inj := fun h _ => hk (rootIndex_eq_some_iff.mp h)
    siteIndex_inj := fun h _ => hk (siteIndex_eq_some_iff.mp h)
    label_inj := fun h _ => by
      obtain ⟨d, hd, -⟩ := label_eq_some_iff.mp h
      exact hk (node?_eq_some_iff.mp hd)
    linkKind_inj := fun h _ => absurd (lt_of_linkKind h) (Nat.not_lt_zero _)
    innerName_inj := fun h _ => absurd h (Nat.not_lt_zero _)
    find_control := fun h => hk (node?_eq_some_iff.mp h)
    length_ports := fun h => hk (node?_eq_some_iff.mp h)
    mem_points_port := fun {v i l} => by
      refine ⟨fun h => absurd (hpt l ▸ h) List.not_mem_nil, fun h => ?_⟩
      obtain ⟨d, hd⟩ := isNode_iff.mp (isNode_of_portLink h)
      exact hk hd
    mem_points_inner := fun {i l} => by
      refine ⟨fun h => absurd (hpt l ▸ h) List.not_mem_nil, fun h => ?_⟩
      simp [innerLink, Bigraph.empty] at h
    nodup_points := fun l => by simp [hpt] }

end Bigraph

end Bigraphs
