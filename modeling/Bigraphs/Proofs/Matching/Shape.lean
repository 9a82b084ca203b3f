import Bigraphs.Matching.Plan
import Bigraphs.Proofs.Graph.Vertices
import Bigraphs.Proofs.Texts

/-! # What a shape says

A shape shows where it ends: no shape goes on to another one (`prefixFree_shapeWithin`). So a shape can
be taken apart again, and two places with one shape have the same control and the same links on their
ports, and their children go together in pairs of equal shapes (`children_of_shape_eq`). This needs
that the brackets of a shape are not met in the name of a control (`PlainNames`). -/

namespace Bigraphs

/-! ### Texts that show where they end -/

/-- What follows a text of this kind can be told from it. -/
def PrefixFree (S : String → Prop) : Prop :=
  ∀ s t r r', S s → S t → s.toList ++ r = t.toList ++ r' → s = t

/-- What comes after the first of a list of texts in brackets. -/
def closing (sep : String) (r : List Char) : List String → List Char
  | [] => ']' :: r
  | t :: texts => sep.toList ++ (t.toList ++ closing sep r texts)

theorem toList_intercalate_cons (sep s : String) (texts : List String) (r : List Char) :
    (sep.intercalate (s :: texts)).toList ++ ']' :: r = s.toList ++ closing sep r texts := by
  induction texts generalizing s with
  | nil => simp [closing]
  | cons t texts ih =>
    rw [String.intercalate_cons_cons, String.toList_append, String.toList_append, List.append_assoc,
      List.append_assoc, ih, closing]

section Lists
variable {S : String → Prop} {sep : String} (hS : PrefixFree S)
  (hsep : sep.toList.head? = some ',')
include hS hsep

theorem closing_inj {texts texts' : List String} {r r' : List Char} (h : ∀ t ∈ texts, S t)
    (h' : ∀ t ∈ texts', S t) (heq : closing sep r texts = closing sep r' texts') :
    texts = texts' ∧ r = r' := by
  obtain ⟨cs, hcs⟩ : ∃ cs, sep.toList = ',' :: cs := by
    cases hl : sep.toList with
    | nil => rw [hl] at hsep; cases hsep
    | cons c cs =>
      rw [hl, List.head?_cons, Option.some.injEq] at hsep
      exact ⟨cs, by rw [hsep]⟩
  induction texts generalizing texts' with
  | nil =>
    cases texts' with
    | nil => exact ⟨rfl, (List.cons.inj heq).2⟩
    | cons t texts' => simp [closing, hcs] at heq
  | cons s texts ih =>
    cases texts' with
    | nil => simp [closing, hcs] at heq
    | cons t texts' =>
      rw [closing, closing, List.append_cancel_left_eq] at heq
      have hst := hS s t _ _ (h s (by simp)) (h' t (by simp)) heq
      subst hst
      rw [List.append_cancel_left_eq] at heq
      obtain ⟨rfl, rfl⟩ := ih (fun u hu => h u (by simp [hu])) (fun u hu => h' u (by simp [hu])) heq
      exact ⟨rfl, rfl⟩

/-- **A list in brackets can be read** if its members show where they end. -/
theorem intercalate_inj (hstart : ∀ t, S t → t.toList.head? ≠ none ∧ t.toList.head? ≠ some ']')
    {texts texts' : List String} {r r' : List Char} (h : ∀ t ∈ texts, S t)
    (h' : ∀ t ∈ texts', S t) (heq : (sep.intercalate texts).toList ++ ']' :: r =
      (sep.intercalate texts').toList ++ ']' :: r') : texts = texts' ∧ r = r' := by
  have hfirst : ∀ t k, S t → ']' :: r ≠ t.toList ++ k ∧ ']' :: r' ≠ t.toList ++ k := by
    intro t k ht
    obtain ⟨hne, hb⟩ := hstart t ht
    cases hl : t.toList with
    | nil => rw [hl] at hne; exact absurd rfl hne
    | cons c cs =>
      rw [hl, List.head?_cons, ne_eq, Option.some.injEq] at hb
      simp [Ne.symm hb]
  cases texts with
  | nil =>
    cases texts' with
    | nil => simpa using heq
    | cons t texts' =>
      rw [toList_intercalate_cons] at heq
      exact absurd (by simpa using heq) (hfirst t _ (h' t (by simp))).1
  | cons s texts =>
    cases texts' with
    | nil =>
      rw [toList_intercalate_cons] at heq
      exact absurd (by simpa using heq.symm) (hfirst s _ (h s (by simp))).2
    | cons t texts' =>
      rw [toList_intercalate_cons, toList_intercalate_cons] at heq
      have hst := hS s t _ _ (h s (by simp)) (h' t (by simp)) heq
      subst hst
      rw [List.append_cancel_left_eq] at heq
      obtain ⟨rfl, rfl⟩ := closing_inj hS hsep (fun u hu => h u (by simp [hu]))
        (fun u hu => h' u (by simp [hu])) heq
      exact ⟨rfl, rfl⟩

end Lists

namespace Bigraph

/-! ### Links -/

theorem toList_linkMark (l : LinkId) :
    (linkMark l).toList = "LinkIx(".toList ++ ((toString l).toList ++ [')']) := by
  simp [linkMark]

theorem linkMark_append_inj {l k : LinkId} {r r' : List Char}
    (h : (linkMark l).toList ++ r = (linkMark k).toList ++ r') : l = k := by
  simp only [toList_linkMark, List.append_assoc, List.append_cancel_left_eq, List.singleton_append]
    at h
  have heq := (eq_of_append_cons (not_mem_toString rfl l) (not_mem_toString rfl k) h).1
  exact toString_inj (String.toList_inj.mp heq)

theorem prefixFree_linkMark : PrefixFree fun s => ∃ l, linkMark l = s := by
  rintro s t r r' ⟨l, rfl⟩ ⟨k, rfl⟩ h
  rw [linkMark_append_inj h]

theorem linkMark_start (l : LinkId) :
    (linkMark l).toList.head? ≠ none ∧ (linkMark l).toList.head? ≠ some ']' := by
  rw [toList_linkMark]
  exact ⟨by simp, by simp⟩

/-! ### Shapes -/

theorem toList_shapeText (name : String) (ports : List LinkId) (shapes : List String)
    (r : List Char) : (shapeText name ports shapes).toList ++ r =
      name.toList ++ '[' :: ((", ".intercalate (ports.map linkMark)).toList ++
        ']' :: '[' :: ((",".intercalate (sortNames shapes)).toList ++ ']' :: r)) := by
  simp only [shapeText, String.toList_append, List.append_assoc]
  rfl

/-- **A shape can be taken apart.** -/
theorem shapeText_inj {S : String → Prop} (hS : PrefixFree S)
    (hstart : ∀ t, S t → t.toList.head? ≠ none ∧ t.toList.head? ≠ some ']')
    {name name' : String} {ports ports' : List LinkId} {shapes shapes' : List String}
    {r r' : List Char} (hn : '[' ∉ name.toList) (hn' : '[' ∉ name'.toList)
    (h : ∀ t ∈ shapes, S t) (h' : ∀ t ∈ shapes', S t)
    (heq : (shapeText name ports shapes).toList ++ r =
      (shapeText name' ports' shapes').toList ++ r') :
    name = name' ∧ ports = ports' ∧ shapes.Perm shapes' := by
  rw [toList_shapeText, toList_shapeText] at heq
  obtain ⟨hname, heq⟩ := eq_of_append_cons hn hn' heq
  obtain ⟨hports, heq⟩ := intercalate_inj prefixFree_linkMark rfl
    (fun t ht => by obtain ⟨l, rfl⟩ := ht; exact linkMark_start l)
    (fun t ht => by obtain ⟨l, -, rfl⟩ := List.mem_map.mp ht; exact ⟨l, rfl⟩)
    (fun t ht => by obtain ⟨l, -, rfl⟩ := List.mem_map.mp ht; exact ⟨l, rfl⟩) heq
  obtain ⟨hshapes, -⟩ := intercalate_inj hS rfl hstart
    (fun t ht => h t ((sortNames_perm _).mem_iff.mp ht)) (fun t ht => h' t ((sortNames_perm _).mem_iff.mp ht))
    (List.cons.inj heq).2
  refine ⟨String.toList_inj.mp hname, ?_, ?_⟩
  · refine List.map_injective_iff.mpr (fun l k hlk => ?_) hports
    have htext : (linkMark l).toList ++ [] = (linkMark k).toList ++ [] := by rw [hlk]
    exact linkMark_append_inj htext
  · exact sortNames_eq_iff.mp hshapes

variable {g : Bigraph}

/-- The names of the controls hold no brackets. -/
def PlainNames (g : Bigraph) : Prop :=
  ∀ p c, g.control p = some c → '[' ∉ c.name.toList ∧ ']' ∉ c.name.toList

/-- It is enough to look at the places there are. -/
theorem plainNames_of_controls (h : ∀ p ∈ g.placeIds, ∀ c ∈ (g.control p).toList,
    '[' ∉ c.name.toList ∧ ']' ∉ c.name.toList) : g.PlainNames := by
  intro p c hc
  obtain ⟨d, hd, -⟩ := control_eq_some_iff.mp hc
  exact h p (List.mem_range.mpr (lt_of_node? hd)) c (by rw [hc]; simp)

theorem mapM_eq_some_iff {α β : Type} {f : α → Option β} {l : List α} {k : List β} :
    l.mapM f = some k ↔ List.Forall₂ (fun a b => f a = some b) l k := by
  induction l generalizing k with
  | nil => simp [eq_comm]
  | cons a l ih =>
    rw [List.mapM_cons, List.forall₂_cons_left_iff]
    simp only [bind, Option.bind_eq_some_iff, pure, Option.some.injEq, ih]
    constructor
    · rintro ⟨b, hb, bs, hbs, rfl⟩
      exact ⟨b, bs, hb, hbs, rfl⟩
    · rintro ⟨b, bs, hb, hbs, rfl⟩
      exact ⟨b, hb, bs, hbs, rfl⟩

theorem mapM_congr {α β : Type} {f f' : α → Option β} {l : List α} (h : ∀ a ∈ l, f a = f' a) :
    l.mapM f = l.mapM f' := by
  induction l with
  | nil => rfl
  | cons a l ih =>
    rw [List.mapM_cons, List.mapM_cons, h a (by simp), ih fun b hb => h b (by simp [hb])]

theorem shapeWithin_eq_some_iff {n : Nat} {p : PlaceId} {s : String} :
    g.shapeWithin (n + 1) p = some s ↔ ∃ d shapes, g.node? p = some d ∧
      List.Forall₂ (fun c t => g.shapeWithin n c = some t) (g.children p) shapes ∧
        s = shapeText d.control.name d.ports shapes := by
  rw [shapeWithin]
  cases g.node? p with
  | none => simp
  | some d =>
    simp only [Option.map_eq_some_iff, mapM_eq_some_iff, Option.some.injEq, shapeText]
    constructor
    · rintro ⟨shapes, h, rfl⟩
      exact ⟨d, shapes, rfl, h, rfl⟩
    · rintro ⟨d', shapes, rfl, h, rfl⟩
      exact ⟨shapes, h, rfl⟩

section Plain
variable (hplain : g.PlainNames)
include hplain

omit hplain in
theorem mem_shapes {n : Nat} {cs : List PlaceId} {shapes : List String}
    (h : List.Forall₂ (fun c t => g.shapeWithin n c = some t) cs shapes) {t : String}
    (ht : t ∈ shapes) : ∃ c, g.shapeWithin n c = some t := by
  obtain ⟨c, -, hc⟩ := exists_of_forall₂ h.flip ht
  exact ⟨c, hc⟩

theorem shapeWithin_start {n : Nat} {p : PlaceId} {s : String} (h : g.shapeWithin n p = some s) :
    s.toList.head? ≠ none ∧ s.toList.head? ≠ some ']' := by
  cases n with
  | zero => cases h
  | succ n =>
    obtain ⟨d, shapes, hd, -, rfl⟩ := shapeWithin_eq_some_iff.mp h
    obtain ⟨-, hname⟩ := hplain p d.control (control_eq_some_iff.mpr ⟨d, hd, rfl⟩)
    have htext := toList_shapeText d.control.name d.ports shapes []
    rw [List.append_nil] at htext
    rw [htext]
    cases hl : d.control.name.toList with
    | nil => simp
    | cons c cs =>
      rw [hl] at hname
      have hne := List.ne_of_not_mem_cons hname
      simp [Ne.symm hne]

/-- **No shape goes on to another one.** -/
theorem prefixFree_shapeWithin (n : Nat) :
    PrefixFree fun s => ∃ p, g.shapeWithin n p = some s := by
  induction n with
  | zero =>
    rintro s t r r' ⟨p, h⟩
    cases h
  | succ n ih =>
    rintro s t r r' ⟨p, hp⟩ ⟨p', hp'⟩ heq
    obtain ⟨d, shapes, hd, hshapes, rfl⟩ := shapeWithin_eq_some_iff.mp hp
    obtain ⟨d', shapes', hd', hshapes', rfl⟩ := shapeWithin_eq_some_iff.mp hp'
    obtain ⟨hname, hports, hperm⟩ := shapeText_inj ih
      (fun t ⟨c, hc⟩ => shapeWithin_start hplain hc)
      (hplain p d.control (control_eq_some_iff.mpr ⟨d, hd, rfl⟩)).1
      (hplain p' d'.control (control_eq_some_iff.mpr ⟨d', hd', rfl⟩)).1
      (fun t ht => mem_shapes hshapes ht) (fun t ht => mem_shapes hshapes' ht) heq
    rw [shapeText, shapeText, hname, hports, sortNames_eq_iff.mpr hperm]

/-- **Places with one shape** have the same control and the same links on their ports, and their
children go together in pairs with one shape. -/
theorem children_of_shape_eq (hg : g.WellFormed) {n : Nat} {a b : PlaceId} {s : String}
    (ha : g.shapeWithin (n + 1) a = some s) (hb : g.shapeWithin (n + 1) b = some s) :
    g.control a = g.control b ∧ g.ports a = g.ports b ∧ ∃ l, l.Perm (g.children b) ∧
      List.Forall₂ (fun c d => ∃ t, g.shapeWithin n c = some t ∧ g.shapeWithin n d = some t)
        (g.children a) l := by
  obtain ⟨d, shapes, hd, hshapes, rfl⟩ := shapeWithin_eq_some_iff.mp ha
  obtain ⟨d', shapes', hd', hshapes', heq⟩ := shapeWithin_eq_some_iff.mp hb
  have htext : (shapeText d.control.name d.ports shapes).toList ++ [] =
      (shapeText d'.control.name d'.ports shapes').toList ++ [] := by rw [heq]
  obtain ⟨hname, hports, hperm⟩ := shapeText_inj (prefixFree_shapeWithin hplain n)
    (fun t ⟨c, hc⟩ => shapeWithin_start hplain hc)
    (hplain a d.control (control_eq_some_iff.mpr ⟨d, hd, rfl⟩)).1
    (hplain b d'.control (control_eq_some_iff.mpr ⟨d', hd', rfl⟩)).1
    (fun t ht => mem_shapes hshapes ht) (fun t ht => mem_shapes hshapes' ht) htext
  have hcontrol : d.control = d'.control := by
    have h := hg.find_control hd
    rw [hname, hg.find_control hd', Option.some.injEq] at h
    exact h.symm
  obtain ⟨l, hl, hl'⟩ := List.perm_comp_forall₂ hperm hshapes'.flip
  refine ⟨?_, ?_, l, hl', ?_⟩
  · rw [control_eq_some_iff.mpr ⟨d, hd, rfl⟩, control_eq_some_iff.mpr ⟨d', hd', rfl⟩, hcontrol]
  · rw [ports_eq_of_node? hd, ports_eq_of_node? hd', hports]
  · rw [List.forall₂_iff_get] at hshapes hl ⊢
    obtain ⟨hlen, h⟩ := hshapes
    obtain ⟨hlen', h'⟩ := hl
    exact ⟨hlen.trans hlen', fun i hi hi' => ⟨_, h i hi (by rw [← hlen]; exact hi), h' i _ hi'⟩⟩

end Plain

/-! ### Enough generations -/

/-- With more generations than there are below a place, its shape stays as it is. -/
theorem shapeWithin_succ (hg : g.WellFormed) {n : Nat} {p : PlaceId}
    (hn : g.places.size ≤ g.depth p + n) : g.shapeWithin (n + 1) p = g.shapeWithin n p := by
  induction n generalizing p with
  | zero =>
    have hnode : g.node? p = none := by
      refine Option.eq_none_iff_forall_ne_some.mpr fun d hd => ?_
      exact absurd (hg.depth_lt (lt_of_node? hd)) (by omega)
    simp [shapeWithin, hnode]
  | succ n ih =>
    have hbelow : (g.children p).mapM (g.shapeWithin (n + 1)) =
        (g.children p).mapM (g.shapeWithin n) := by
      refine mapM_congr fun c hc => ih ?_
      have hdepth := hg.depth_of_parent (hg.mem_children.mp hc)
      omega
    rw [shapeWithin, hbelow]
    rfl

/-- The shape of a node, from the shapes of its children. -/
theorem shape_eq_shapeText (hg : g.WellFormed) {p : PlaceId} {d : NodeData} (hd : g.node? p = some d) :
    g.shape p = ((g.children p).mapM g.shape).map (shapeText d.control.name d.ports) := by
  rw [shape, ← shapeWithin_succ hg (Nat.le_add_left _ _), shapeWithin, hd]
  rfl

/-! ### No sites -/

theorem shapeWithin_child (hg : g.WellFormed) {n : Nat} {a c : PlaceId} {s : String}
    (h : g.shapeWithin (n + 1) a = some s) (hc : g.parent c = some a) :
    ∃ t, g.shapeWithin n c = some t := by
  obtain ⟨d, shapes, -, hshapes, -⟩ := shapeWithin_eq_some_iff.mp h
  obtain ⟨t, -, ht⟩ := exists_of_forall₂ hshapes (hg.mem_children.mpr hc)
  exact ⟨t, ht⟩

/-- **Below a place with a shape** there are only nodes. -/
theorem isNode_of_shape (hg : g.WellFormed) {n : Nat} {a x : PlaceId} {s : String}
    (h : g.shapeWithin n a = some s) (hx : g.AboveEq a x) : g.isNode x := by
  induction hx using Relation.ReflTransGen.head_induction_on generalizing n s with
  | refl =>
    cases n with
    | zero => cases h
    | succ n =>
      obtain ⟨d, -, hd, -⟩ := shapeWithin_eq_some_iff.mp h
      unfold isNode
      rw [hd]; rfl
  | head hac _ ih =>
    cases n with
    | zero => cases h
    | succ n =>
      obtain ⟨t, ht⟩ := shapeWithin_child hg h hac
      exact ih ht

/-- **A place has a shape** if there are only nodes below it. -/
theorem exists_shape (hg : g.WellFormed) {n : Nat} {a : PlaceId}
    (hn : g.places.size ≤ g.depth a + n) (h : ∀ x, g.AboveEq a x → g.isNode x) :
    ∃ s, g.shapeWithin n a = some s := by
  obtain ⟨d, hd⟩ := isNode_iff.mp (h a .refl)
  induction n generalizing a d with
  | zero => exact absurd (hg.depth_lt (lt_of_kind hd)) (Nat.not_lt.mpr hn)
  | succ n ih =>
    have hbelow : ∀ c ∈ g.children a, ∃ s, g.shapeWithin n c = some s := by
      intro c hc
      have hp := hg.mem_children.mp hc
      obtain ⟨d', hd'⟩ := isNode_iff.mp (h c (.single hp))
      refine ih ?_ (fun x hx => h x (.head hp hx)) d' hd'
      rw [hg.depth_of_parent hp]
      omega
    have hshapes : ∃ shapes, List.Forall₂ (fun c t => g.shapeWithin n c = some t) (g.children a)
        shapes := by
      refine ⟨(g.children a).map fun c => (g.shapeWithin n c).getD "", ?_⟩
      refine List.forall₂_map_right_iff.mpr (List.forall₂_same.mpr fun c hc => ?_)
      obtain ⟨s, hs⟩ := hbelow c hc
      rw [hs, Option.getD_some]
    obtain ⟨shapes, hshapes⟩ := hshapes
    exact ⟨_, shapeWithin_eq_some_iff.mpr ⟨d, shapes, node?_eq_some_iff.mpr hd, hshapes, rfl⟩⟩

end Bigraph

end Bigraphs
