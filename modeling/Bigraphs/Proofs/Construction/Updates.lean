import Bigraphs.Construction.Action
import Bigraphs.Proofs.Graph.WellFormed

/-! # What the steps of a construction change

The steps of a construction come down to seven updates of its graph: a place, a link or an inner name
is added, a place is nested, a port is connected, an inner name is wired, an outer name is closed.
Each update is described by what it does to the basic views of a bigraph (`kind`, `parent`,
`children`, `linkKind`, `points`, `innerName`, `innerLink`); a step is then either refused, or its
update. -/

namespace Bigraphs

namespace Bigraph

variable (g : Bigraph)

/-! ### A new place -/

/-- The graph with one more place. -/
def addPlace (k : PlaceKind) : Bigraph := { g with places := g.places.push ⟨k, none, []⟩ }

@[simp] theorem size_addPlace (k : PlaceKind) :
    (g.addPlace k).places.size = g.places.size + 1 := by
  simp [addPlace]

@[simp] theorem kind_addPlace (k : PlaceKind) (p : PlaceId) :
    (g.addPlace k).kind p = if p = g.places.size then some k else g.kind p := by
  unfold kind addPlace
  rw [Array.getElem?_push]
  split <;> rfl

@[simp] theorem parent_addPlace (k : PlaceKind) (p : PlaceId) :
    (g.addPlace k).parent p = g.parent p := by
  unfold parent addPlace
  rw [Array.getElem?_push]
  split
  next h => rw [h, Array.getElem?_eq_none (Nat.le_refl _)]; rfl
  next => rfl

@[simp] theorem children_addPlace (k : PlaceKind) (p : PlaceId) :
    (g.addPlace k).children p = g.children p := by
  unfold children addPlace
  rw [Array.getElem?_push]
  split
  next h => rw [h, Array.getElem?_eq_none (Nat.le_refl _)]; rfl
  next => rfl

/-! ### A place nested -/

/-- The graph with `child` under `p`. -/
def nest (child p : PlaceId) : Bigraph :=
  { g with places := Construction.attach g.places child p }

theorem getElem?_detach (places : Array Place) (child q : PlaceId) :
    (Construction.detach places child)[q]? = places[q]?.map fun x =>
      { x with
        children :=
          if places[child]?.bind (·.parent) = some q then x.children.filter (· ≠ child)
          else x.children } := by
  unfold Construction.detach
  cases h : places[child]?.bind (·.parent) with
  | none => simp
  | some old =>
    simp only [Array.getElem?_modify, Option.some.injEq]
    split <;> simp

theorem getElem?_attach (places : Array Place) (child p q : PlaceId) :
    (Construction.attach places child p)[q]? = places[q]?.map fun x =>
      { kind := x.kind
        parent := if q = child then some p else x.parent
        children :=
          (if places[child]?.bind (·.parent) = some q then x.children.filter (· ≠ child)
            else x.children) ++ if q = p then [child] else [] } := by
  unfold Construction.attach
  simp only [Array.getElem?_modify, getElem?_detach]
  cases places[q]? with
  | none => simp
  | some x =>
    by_cases hp : q = p
    · subst hp
      by_cases hc : q = child
      · subst hc; simp
      · simp [hc, Ne.symm hc]
    · by_cases hc : q = child
      · subst hc; simp [hp, Ne.symm hp]
      · simp [hp, hc, Ne.symm hp, Ne.symm hc]

@[simp] theorem size_nest (child p : PlaceId) : (g.nest child p).places.size = g.places.size := by
  unfold nest Construction.attach Construction.detach
  simp only [Array.size_modify]
  split <;> simp

@[simp] theorem kind_nest (child p q : PlaceId) : (g.nest child p).kind q = g.kind q := by
  unfold kind nest
  rw [getElem?_attach, Option.map_map]
  rfl

theorem parent_nest {child : PlaceId} (hc : child < g.places.size) (p q : PlaceId) :
    (g.nest child p).parent q = if q = child then some p else g.parent q := by
  unfold parent nest
  rw [getElem?_attach]
  split
  next h => rw [h, Array.getElem?_eq_getElem hc]; rfl
  next h => cases g.places[q]? <;> rfl

theorem mem_children_nest {child p q c : PlaceId} (hp : p < g.places.size) :
    c ∈ (g.nest child p).children q ↔
      (c ∈ g.children q ∧ ¬ (g.parent child = some q ∧ c = child)) ∨ (q = p ∧ c = child) := by
  unfold children parent nest
  rw [getElem?_attach]
  cases hq : g.places[q]? with
  | none =>
    have : q ≠ p := by
      rintro rfl
      rw [Array.getElem?_eq_getElem hp] at hq
      cases hq
    simp [this]
  | some x => simp only [Option.map_some, Option.getD_some, List.mem_append]; grind

theorem nodup_children_nest {child p q : PlaceId} (hq : (g.children q).Nodup)
    (hc : child ∈ g.children q → g.parent child = some q) :
    ((g.nest child p).children q).Nodup := by
  unfold children parent nest at *
  rw [getElem?_attach]
  cases h : g.places[q]? with
  | none => simp
  | some x =>
    simp only [h, Option.map_some, Option.getD_some] at hq hc ⊢
    refine List.nodup_append.mpr ⟨?_, by split <;> simp, ?_⟩
    · split
      · exact hq.filter _
      · exact hq
    · intro a ha b hb hab
      grind

/-! ### A new link, a new inner name -/

/-- The graph with one more link. -/
def addLink (k : LinkKind) : Bigraph := { g with links := g.links.push ⟨k, []⟩ }

@[simp] theorem size_addLink (k : LinkKind) :
    (g.addLink k).links.size = g.links.size + 1 := by
  simp [addLink]

@[simp] theorem linkKind_addLink (k : LinkKind) (l : LinkId) :
    (g.addLink k).linkKind l = if l = g.links.size then some k else g.linkKind l := by
  unfold linkKind addLink
  rw [Array.getElem?_push]
  split <;> rfl

@[simp] theorem points_addLink (k : LinkKind) (l : LinkId) :
    (g.addLink k).points l = g.points l := by
  unfold points addLink
  rw [Array.getElem?_push]
  split
  next h => rw [h, Array.getElem?_eq_none (Nat.le_refl _)]; rfl
  next => rfl

/-- The graph with one more inner name. -/
def addInner (name : String) : Bigraph :=
  { g with innerNames := g.innerNames.push ⟨name, none⟩ }

@[simp] theorem size_addInner (name : String) :
    (g.addInner name).innerNames.size = g.innerNames.size + 1 := by
  simp [addInner]

@[simp] theorem innerName_addInner (name : String) (i : InnerId) :
    (g.addInner name).innerName i = if i = g.innerNames.size then name else g.innerName i := by
  unfold innerName addInner
  rw [Array.getElem?_push]
  split <;> rfl

@[simp] theorem innerLink_addInner (name : String) (i : InnerId) :
    (g.addInner name).innerLink i = g.innerLink i := by
  unfold innerLink addInner
  rw [Array.getElem?_push]
  split
  next h => rw [h, Array.getElem?_eq_none (Nat.le_refl _)]; rfl
  next => rfl

/-! ### A point attached -/

theorem points_addPoint (l : LinkId) (x : Point) (hl : l < g.links.size) (k : LinkId) :
    ({ g with links := Construction.addPoint g.links l x } : Bigraph).points k =
      if k = l then g.points k ++ [x] else g.points k := by
  unfold points Construction.addPoint
  rw [Array.getElem?_modify]
  split
  next h => subst h; rw [Array.getElem?_eq_getElem hl]; simp
  next h => rw [if_neg (Ne.symm h)]

theorem linkKind_addPoint (l : LinkId) (x : Point) (k : LinkId) :
    ({ g with links := Construction.addPoint g.links l x } : Bigraph).linkKind k =
      g.linkKind k := by
  unfold linkKind Construction.addPoint
  rw [Array.getElem?_modify]
  split
  next h => subst h; cases g.links[l]? <;> rfl
  next => rfl

/-- The graph with one more port on node `v`, attached to the link `l`; the node has `i` ports. -/
def connect (v : PlaceId) (l : LinkId) (i : Nat) : Bigraph :=
  { g with
    places := g.places.modify v (Construction.addPort l)
    links := Construction.addPoint g.links l (.port v i) }

@[simp] theorem size_connect (v : PlaceId) (l : LinkId) (i : Nat) :
    (g.connect v l i).places.size = g.places.size := by
  simp [connect]

@[simp] theorem links_size_connect (v : PlaceId) (l : LinkId) (i : Nat) :
    (g.connect v l i).links.size = g.links.size := by
  simp [connect, Construction.addPoint]

theorem kind_connect {v : PlaceId} {d : NodeData} (hv : g.node? v = some d) (l : LinkId) (i : Nat)
    (p : PlaceId) :
    (g.connect v l i).kind p =
      if p = v then some (.node { d with ports := d.ports ++ [l] }) else g.kind p := by
  have hk := node?_eq_some_iff.mp hv
  unfold kind connect at *
  rw [Array.getElem?_modify]
  split
  next h =>
    subst h
    obtain ⟨x, hx, hxd⟩ := Option.map_eq_some_iff.mp hk
    simp [hx, Construction.addPort, hxd]
  next h => rw [if_neg (Ne.symm h)]

theorem parent_addPort (l : LinkId) (x : Place) : (Construction.addPort l x).parent = x.parent := by
  unfold Construction.addPort
  split <;> rfl

theorem children_addPort (l : LinkId) (x : Place) :
    (Construction.addPort l x).children = x.children := by
  unfold Construction.addPort
  split <;> rfl

@[simp] theorem parent_connect (v : PlaceId) (l : LinkId) (i : Nat) (p : PlaceId) :
    (g.connect v l i).parent p = g.parent p := by
  unfold parent connect
  rw [Array.getElem?_modify]
  split
  next h => cases g.places[p]? <;> simp [parent_addPort]
  next => rfl

@[simp] theorem children_connect (v : PlaceId) (l : LinkId) (i : Nat) (p : PlaceId) :
    (g.connect v l i).children p = g.children p := by
  unfold children connect
  rw [Array.getElem?_modify]
  split
  next h => cases g.places[p]? <;> simp [children_addPort]
  next => rfl

@[simp] theorem linkKind_connect (v : PlaceId) (l : LinkId) (i : Nat) (k : LinkId) :
    (g.connect v l i).linkKind k = g.linkKind k :=
  g.linkKind_addPoint l (.port v i) k

theorem points_connect {l : LinkId} (hl : l < g.links.size) (v : PlaceId) (i : Nat) (k : LinkId) :
    (g.connect v l i).points k = if k = l then g.points k ++ [.port v i] else g.points k :=
  g.points_addPoint l (.port v i) hl k

/-- The graph with the inner name `i`, called `name`, on the link `l`. -/
def wire (i : InnerId) (name : String) (l : LinkId) : Bigraph :=
  { g with
    innerNames := g.innerNames.setIfInBounds i ⟨name, some l⟩
    links := Construction.addPoint g.links l (.inner i) }

@[simp] theorem size_wire (i : InnerId) (name : String) (l : LinkId) :
    (g.wire i name l).innerNames.size = g.innerNames.size := by
  simp [wire]

@[simp] theorem links_size_wire (i : InnerId) (name : String) (l : LinkId) :
    (g.wire i name l).links.size = g.links.size := by
  simp [wire, Construction.addPoint]

theorem innerName_wire {i : InnerId} (hi : i < g.innerNames.size) (l : LinkId) (j : InnerId) :
    (g.wire i (g.innerName i) l).innerName j = g.innerName j := by
  unfold innerName wire
  rw [Array.getElem?_setIfInBounds]
  split
  next h => subst h; simp
  next => rfl

theorem innerLink_wire {i : InnerId} (hi : i < g.innerNames.size) (name : String) (l : LinkId)
    (j : InnerId) :
    (g.wire i name l).innerLink j = if j = i then some l else g.innerLink j := by
  unfold innerLink wire
  rw [Array.getElem?_setIfInBounds]
  split
  next h => subst h; simp
  next h => rw [if_neg (Ne.symm h)]

@[simp] theorem linkKind_wire (i : InnerId) (name : String) (l k : LinkId) :
    (g.wire i name l).linkKind k = g.linkKind k :=
  g.linkKind_addPoint l (.inner i) k

theorem points_wire {l : LinkId} (hl : l < g.links.size) (i : InnerId) (name : String)
    (k : LinkId) :
    (g.wire i name l).points k = if k = l then g.points k ++ [.inner i] else g.points k :=
  g.points_addPoint l (.inner i) hl k

/-! ### An outer name closed -/

/-- The graph in which the link `l` is an edge with this label. -/
def close (l : LinkId) (label : String) : Bigraph :=
  { g with links := g.links.modify l fun x => { x with kind := .edge label } }

theorem linkKind_close {l : LinkId} (hl : l < g.links.size) (label : String) (k : LinkId) :
    (g.close l label).linkKind k = if k = l then some (.edge label) else g.linkKind k := by
  unfold linkKind close
  rw [Array.getElem?_modify]
  split
  next h => subst h; rw [Array.getElem?_eq_getElem hl]; simp
  next h => rw [if_neg (Ne.symm h)]

@[simp] theorem points_close (l : LinkId) (label : String) (k : LinkId) :
    (g.close l label).points k = g.points k := by
  unfold points close
  rw [Array.getElem?_modify]
  split
  next h => cases g.links[k]? <;> rfl
  next => rfl

end Bigraph

end Bigraphs
