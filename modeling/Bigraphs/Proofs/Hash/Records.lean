import Bigraphs.Hash.Identity
import Bigraphs.Proofs.Graph.WellFormed
import Bigraphs.Proofs.Lists
import Bigraphs.Proofs.Texts

/-! # What a record says

A record joins its fields with marks between them, and writes the fields as they are. In a legible bigraph
no field holds the mark that ends it (`Legible`), so the fields can be read off: the record of a place says
its index or label, its control, its parent and its links by their keys (`samePlace_of_placeRecord_eq`),
that of a link its key (`linkKey_eq_of_linkRecord_eq`), that of an inner name its name and the key of its
link (`innerName_eq_of_innerRecord_eq`). The records of places, of links and of inner names start with
different characters (`records_perm`). -/

namespace Bigraphs

namespace Bigraph

/-- **No field of a record holds the mark that ends it.** -/
structure Legible (g : Bigraph) : Prop where
  label : ∀ p ∈ g.placeIds, ∀ d ∈ g.node? p, ':' ∉ d.label.toList ∧ '|' ∉ d.label.toList
  control : ∀ p ∈ g.placeIds, ∀ d ∈ g.node? p, ':' ∉ d.control.name.toList
  link : ∀ l ∈ g.linkIds, ',' ∉ (g.linkName l).toList
  inner : ∀ i ∈ g.innerIds, '>' ∉ (g.innerName i).toList

instance (g : Bigraph) : Decidable g.Legible :=
  decidable_of_iff
    ((∀ p ∈ g.placeIds, ∀ d ∈ g.node? p, ':' ∉ d.label.toList ∧ '|' ∉ d.label.toList) ∧
      (∀ p ∈ g.placeIds, ∀ d ∈ g.node? p, ':' ∉ d.control.name.toList) ∧
      (∀ l ∈ g.linkIds, ',' ∉ (g.linkName l).toList) ∧ ∀ i ∈ g.innerIds, '>' ∉ (g.innerName i).toList)
    ⟨fun ⟨hl, hc, hk, hi⟩ => ⟨hl, hc, hk, hi⟩, fun h => ⟨h.label, h.control, h.link, h.inner⟩⟩

/-- The fields of the record of a node, with the marks. -/
def nodeText (label name : String) (arity : Nat) (parent : String) (links : List String) : String :=
  "n:" ++ label ++ ":" ++ (name ++ ":" ++ toString arity) ++ "<" ++ parent ++ "|" ++
    ",".intercalate links

theorem nodeText_inj {label label' name name' parent parent' : String} {arity arity' : Nat}
    {links links' : List String} (hlabel : ':' ∉ label.toList) (hlabel' : ':' ∉ label'.toList)
    (hname : ':' ∉ name.toList) (hname' : ':' ∉ name'.toList) (hparent : '|' ∉ parent.toList)
    (hparent' : '|' ∉ parent'.toList) (hlinks : ∀ t ∈ links, t ≠ "" ∧ ',' ∉ t.toList)
    (hlinks' : ∀ t ∈ links', t ≠ "" ∧ ',' ∉ t.toList)
    (h : nodeText label name arity parent links = nodeText label' name' arity' parent' links') :
    label = label' ∧ name = name' ∧ arity = arity' ∧ parent = parent' ∧ links = links' := by
  simp only [nodeText, String.append_assoc, String.append_right_inj] at h
  obtain ⟨hl, h⟩ := eq_of_append_mark rfl hlabel hlabel' h
  obtain ⟨hn, h⟩ := eq_of_append_mark rfl hname hname' h
  obtain ⟨ha, h⟩ := eq_of_append_mark rfl (not_mem_toString rfl arity) (not_mem_toString rfl arity') h
  obtain ⟨hp, h⟩ := eq_of_append_mark rfl hparent hparent' h
  exact ⟨hl, hn, toString_inj ha, hp, eq_of_intercalate_comma hlinks hlinks' h⟩

theorem siteText_inj {i j : Nat} {parent parent' : String}
    (h : "s:" ++ toString i ++ "<" ++ parent = "s:" ++ toString j ++ "<" ++ parent') :
    i = j ∧ parent = parent' := by
  simp only [String.append_assoc, String.append_right_inj] at h
  obtain ⟨hi, hp⟩ := eq_of_append_mark rfl (not_mem_toString rfl i) (not_mem_toString rfl j) h
  exact ⟨toString_inj hi, hp⟩

theorem innerText_inj {name name' link link' : String} (hname : '>' ∉ name.toList)
    (hname' : '>' ∉ name'.toList)
    (h : "i:" ++ name ++ ">" ++ link = "i:" ++ name' ++ ">" ++ link') :
    name = name' ∧ link = link' := by
  simp only [String.append_assoc, String.append_right_inj] at h
  exact eq_of_append_mark rfl hname hname' h

variable {g h : Bigraph} {p q : PlaceId} {l k : LinkId}

/-! ### Keys -/

/-- The key of a place says its index or label. -/
theorem index_eq_of_placeKey_eq (hp : p < g.places.size) (hq : q < h.places.size)
    (heq : g.placeKey p = h.placeKey q) : g.rootIndex p = h.rootIndex q ∧
      g.siteIndex p = h.siteIndex q ∧ g.label p = h.label q := by
  obtain ⟨x, hx⟩ := exists_kind hp
  obtain ⟨y, hy⟩ := exists_kind hq
  have hhead := congrArg (·.toList.head?) heq
  simp only [placeKey, hx, hy] at heq hhead
  simp only [rootIndex, siteIndex, label, node?, hx, hy]
  cases x <;> cases y <;> simp at hhead
  case root.root i j => exact ⟨congrArg some (toString_inj ((String.append_right_inj _).mp heq)), rfl, rfl⟩
  case site.site i j => exact ⟨rfl, congrArg some (toString_inj ((String.append_right_inj _).mp heq)), rfl⟩
  case node.node d e => exact ⟨rfl, rfl, congrArg some ((String.append_right_inj _).mp heq)⟩

theorem placeKey_ne_empty (hp : p < g.places.size) : g.placeKey p ≠ "" := by
  obtain ⟨x, hx⟩ := exists_kind hp
  intro h
  have hhead := congrArg (·.toList.head?) h
  cases x <;> simp [placeKey, hx] at hhead

theorem WellFormed.placeKey_inj (hg : g.WellFormed) {p q : PlaceId} (hp : p < g.places.size)
    (hq : q < g.places.size) (heq : g.placeKey p = g.placeKey q) : p = q := by
  obtain ⟨hroot, hsite, hlabel⟩ := index_eq_of_placeKey_eq hp hq heq
  obtain ⟨x, hx⟩ := exists_kind hp
  cases x with
  | root i =>
    have hi := rootIndex_eq_some_iff.mpr hx
    exact hg.rootIndex_inj hi (hroot ▸ hi)
  | site i =>
    have hi := siteIndex_eq_some_iff.mpr hx
    exact hg.siteIndex_inj hi (hsite ▸ hi)
  | node d =>
    have hd := label_eq_some_iff.mpr ⟨d, node?_eq_some_iff.mpr hx, rfl⟩
    exact hg.label_inj hd (hlabel ▸ hd)

/-- The key of a link starts with a letter for its kind. -/
theorem linkKey_ne (l : LinkId) {s : String} (he : s.toList.head? ≠ some 'e')
    (ho : s.toList.head? ≠ some 'o') : g.linkKey l ≠ s := by
  rintro rfl
  cases h : g.isEdge l with
  | true => exact he (by simp [linkKey, h])
  | false => exact ho (by simp [linkKey, h])

/-- The key of a link says what it is. -/
theorem linkKind_eq_of_linkKey_eq (hl : l < g.links.size) (hk : k < h.links.size)
    (heq : g.linkKey l = h.linkKey k) : g.linkKind l = h.linkKind k := by
  obtain ⟨x, hx⟩ := exists_linkKind hl
  obtain ⟨y, hy⟩ := exists_linkKind hk
  have hhead := congrArg (·.toList.head?) heq
  simp only [linkKey, isEdge, linkName, hx, hy] at heq hhead
  rw [hx, hy]
  cases x <;> cases y <;> simp [LinkKind.isEdge] at hhead
  case edge.edge s t => exact congrArg (some ∘ LinkKind.edge) ((String.append_right_inj "e").mp heq)
  case outer.outer s t => exact congrArg (some ∘ LinkKind.outer) ((String.append_right_inj "o").mp heq)

theorem WellFormed.linkKey_inj (hg : g.WellFormed) {l k : LinkId} (hl : l < g.links.size)
    (hk : k < g.links.size) (heq : g.linkKey l = g.linkKey k) : l = k := by
  obtain ⟨x, hx⟩ := exists_linkKind hl
  exact hg.linkKind_inj hx ((linkKind_eq_of_linkKey_eq hl hk heq).symm.trans hx)

/-- The key of the parent says whether there is one. -/
theorem map_placeKey_eq_of_parentKey_eq (hg : g.WellFormed) (hh : h.WellFormed)
    (heq : g.parentKey p = h.parentKey q) :
    (g.parent p).map g.placeKey = (h.parent q).map h.placeKey := by
  have hempty : ∀ {b : Bigraph}, b.WellFormed → ∀ p, (b.parent p).map b.placeKey ≠ some "" := by
    intro b hb p h
    obtain ⟨a, ha, hkey⟩ := Option.map_eq_some_iff.mp h
    exact placeKey_ne_empty (hb.lt_of_isParent ha) hkey
  exact eq_of_getD_eq (hempty hg p) (hempty hh q) heq

/-! ### Fields -/

theorem Legible.not_mem_placeKey (hg : g.Legible) (p : PlaceId) : '|' ∉ (g.placeKey p).toList := by
  unfold placeKey
  cases hx : g.kind p with
  | none => simp
  | some x =>
    cases x with
    | root i => simpa using not_mem_toString (c := '|') rfl i
    | site i => simpa using not_mem_toString (c := '|') rfl i
    | node d =>
      simpa using (hg.label p (List.mem_range.mpr (lt_of_kind hx)) d (node?_eq_some_iff.mpr hx)).2

theorem Legible.not_mem_parentKey (hg : g.Legible) (p : PlaceId) :
    '|' ∉ (g.parentKey p).toList := by
  unfold parentKey
  cases g.parent p with
  | none => simp
  | some a => exact hg.not_mem_placeKey a

theorem Legible.not_mem_linkKey (hg : g.Legible) (hl : l < g.links.size) :
    ',' ∉ (g.linkKey l).toList := by
  have hname := hg.link l (List.mem_range.mpr hl)
  unfold linkKey
  split <;> simpa using hname

theorem Legible.linkKeys (hlegible : g.Legible) (hg : g.WellFormed) {d : NodeData}
    (hd : g.node? p = some d) : ∀ t ∈ d.ports.map g.linkKey, t ≠ "" ∧ ',' ∉ t.toList := by
  intro t ht
  obtain ⟨l, hl, rfl⟩ := List.mem_map.mp ht
  rw [← ports_eq_of_node? hd] at hl
  exact ⟨linkKey_ne l (by simp) (by simp), hlegible.not_mem_linkKey (hg.lt_of_mem_ports hl)⟩

/-! ### Records -/

/-- What two places have in common when their records are equal. -/
inductive SamePlace (g h : Bigraph) (p q : PlaceId) : Prop
  | root {i : Nat} (hp : g.kind p = some (.root i)) (hq : h.kind q = some (.root i))
  | site {i : Nat} (hp : g.kind p = some (.site i)) (hq : h.kind q = some (.site i))
      (parent : g.parentKey p = h.parentKey q)
  | node {d e : NodeData} (hp : g.kind p = some (.node d)) (hq : h.kind q = some (.node e))
      (label : d.label = e.label) (name : d.control.name = e.control.name)
      (arity : d.control.arity = e.control.arity) (parent : g.parentKey p = h.parentKey q)
      (ports : d.ports.map g.linkKey = e.ports.map h.linkKey)

/-- **The record of a place can be read.** -/
theorem samePlace_of_placeRecord_eq (hg : g.WellFormed) (hh : h.WellFormed) (hlg : g.Legible)
    (hlh : h.Legible) (hp : p < g.places.size) (hq : q < h.places.size)
    (heq : g.placeRecord p = h.placeRecord q) : SamePlace g h p q := by
  obtain ⟨x, hx⟩ := exists_kind hp
  obtain ⟨y, hy⟩ := exists_kind hq
  have hhead := congrArg (·.toList.head?) heq
  simp only [placeRecord, hx, hy] at heq hhead
  cases x <;> cases y <;> simp at hhead
  case root.root i j =>
    obtain rfl := toString_inj ((String.append_right_inj _).mp heq)
    exact .root hx hy
  case site.site i j =>
    obtain ⟨rfl, hparent⟩ := siteText_inj heq
    exact .site hx hy hparent
  case node.node d e =>
    have hd := node?_eq_some_iff.mpr hx
    have he := node?_eq_some_iff.mpr hy
    have hpg := List.mem_range.mpr hp
    have hqh := List.mem_range.mpr hq
    obtain ⟨hlabel, hname, harity, hparent, hports⟩ := nodeText_inj (hlg.label p hpg d hd).1
      (hlh.label q hqh e he).1 (hlg.control p hpg d hd) (hlh.control q hqh e he)
      (hlg.not_mem_parentKey p) (hlh.not_mem_parentKey q) (hlg.linkKeys hg hd) (hlh.linkKeys hh he) heq
    exact .node hx hy hlabel hname harity hparent hports

theorem SamePlace.placeKey_eq (hsame : SamePlace g h p q) : g.placeKey p = h.placeKey q := by
  cases hsame with
  | root hp hq => simp only [placeKey, hp, hq]
  | site hp hq _ => simp only [placeKey, hp, hq]
  | node hp hq hlabel => simp only [placeKey, hp, hq, hlabel]

/-- **The record of a link can be read.** -/
theorem linkKey_eq_of_linkRecord_eq (heq : g.linkRecord l = h.linkRecord k) :
    g.linkKey l = h.linkKey k :=
  (String.append_right_inj "l:").mp heq

/-- **The record of an inner name can be read.** -/
theorem innerName_eq_of_innerRecord_eq {i j : InnerId} (hlg : g.Legible) (hlh : h.Legible)
    (hi : i < g.innerNames.size) (hj : j < h.innerNames.size)
    (heq : g.innerRecord i = h.innerRecord j) : g.innerName i = h.innerName j ∧
      (g.innerLink i).map g.linkKey = (h.innerLink j).map h.linkKey := by
  obtain ⟨hname, hlink⟩ := innerText_inj (hlg.inner i (List.mem_range.mpr hi))
    (hlh.inner j (List.mem_range.mpr hj)) heq
  -- no key of a link is the dash of an inner name without link
  have hdash : ∀ (b : Bigraph) (i : InnerId), (b.innerLink i).map b.linkKey ≠ some "-" := by
    intro b i h
    obtain ⟨l, -, hkey⟩ := Option.map_eq_some_iff.mp h
    exact linkKey_ne l (by simp) (by simp) hkey
  exact ⟨hname, eq_of_getD_eq (hdash g i) (hdash h j) hlink⟩

/-! ### Records of different kinds -/

theorem head?_of_mem_placeRecords {r : String} (hr : r ∈ g.placeIds.map g.placeRecord) :
    r.toList.head? ≠ some 'l' ∧ r.toList.head? ≠ some 'i' := by
  obtain ⟨p, hp, rfl⟩ := List.mem_map.mp hr
  obtain ⟨x, hx⟩ := exists_kind (List.mem_range.mp hp)
  cases x <;> simp [placeRecord, hx]

theorem head?_of_mem_linkRecords {r : String} (hr : r ∈ g.linkIds.map g.linkRecord) :
    r.toList.head? = some 'l' := by
  obtain ⟨l, -, rfl⟩ := List.mem_map.mp hr
  simp [linkRecord]

theorem head?_of_mem_innerRecords {r : String} (hr : r ∈ g.innerIds.map g.innerRecord) :
    r.toList.head? = some 'i' := by
  obtain ⟨i, -, rfl⟩ := List.mem_map.mp hr
  simp [innerRecord]

/-- **The records of places, links and inner names can be told apart.** -/
theorem records_perm (heq : g.records = h.records) :
    (g.placeIds.map g.placeRecord).Perm (h.placeIds.map h.placeRecord) ∧
      (g.linkIds.map g.linkRecord).Perm (h.linkIds.map h.linkRecord) ∧
      (g.innerIds.map g.innerRecord).Perm (h.innerIds.map h.innerRecord) := by
  have hkept : ∀ {b : Bigraph}, ∀ r ∈ b.placeIds.map b.placeRecord ++ b.linkIds.map b.linkRecord,
      decide (r.toList.head? ≠ some 'i') = true := by
    intro b r hr
    rcases List.mem_append.mp hr with hr | hr
    · exact decide_eq_true (head?_of_mem_placeRecords hr).2
    · simp [head?_of_mem_linkRecords hr]
  obtain ⟨hrest, hinners⟩ := perm_of_append_perm (p := fun r => r.toList.head? ≠ some 'i')
    (sortNames_eq_iff.mp heq) hkept (fun r hr => by simp [head?_of_mem_innerRecords hr]) hkept
    (fun r hr => by simp [head?_of_mem_innerRecords hr])
  obtain ⟨hplaces, hlinks⟩ := perm_of_append_perm (p := fun r => r.toList.head? ≠ some 'l') hrest
    (fun r hr => decide_eq_true (head?_of_mem_placeRecords hr).1)
    (fun r hr => by simp [head?_of_mem_linkRecords hr])
    (fun r hr => decide_eq_true (head?_of_mem_placeRecords hr).1)
    (fun r hr => by simp [head?_of_mem_linkRecords hr])
  exact ⟨hplaces, hlinks, hinners⟩

end Bigraph

end Bigraphs
