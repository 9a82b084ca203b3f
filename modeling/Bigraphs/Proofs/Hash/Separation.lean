import Bigraphs.Proofs.Hash.Framing
import Bigraphs.Proofs.Hash.Records
import Bigraphs.Proofs.Hash.Renumbered
import Mathlib.Data.Fintype.EquivFin

/-! # What the digest tells apart

In a legible bigraph every place, link and inner name has a record of its own. So equal records pair the
places, links and inner names of two bigraphs (`exists_perm_of_keys`), and since a record says the
parent and the links by their keys, the pairing is a renumbering (`exists_renumbering`). With that, legible
bigraphs have the same bytes to be hashed only when they are the same up to the numbers
(`digest_separates`).

Fields that hold marks run into each other. For each kind of field there are two different bigraphs with
the same records, and so the same digest (`records_run_together`). -/

namespace Bigraphs

open Bigraph

/-- **Numbers with the same keys go together,** if no two of them have the same key. -/
theorem exists_perm_of_keys {n n' : Nat} {key key' : Nat → String}
    (hinj : ∀ i < n, ∀ j < n, key i = key j → i = j)
    (h : ((List.range n).map key).Perm ((List.range n').map key')) :
    n' = n ∧ ∃ σ : Equiv.Perm Nat, (∀ i < n, σ i < n' ∧ key' (σ i) = key i) ∧
      ∀ i, n ≤ i → σ i = i := by
  have hn : n' = n := by simpa using h.length_eq.symm
  subst hn
  have hex : ∀ i : Fin n', ∃ j : Fin n', key' j = key i := by
    intro i
    have hm : key i ∈ (List.range n').map key' :=
      h.mem_iff.mp (List.mem_map.mpr ⟨i, List.mem_range.mpr i.2, rfl⟩)
    obtain ⟨j, hj, hkey⟩ := List.mem_map.mp hm
    exact ⟨⟨j, List.mem_range.mp hj⟩, hkey⟩
  choose f hf using hex
  have hfinj : Function.Injective f := fun i j hij =>
    Fin.ext (hinj i i.2 j j.2 (by rw [← hf i, ← hf j, hij]))
  let e : Equiv.Perm (Fin n') := Equiv.ofBijective f (Finite.injective_iff_bijective.mp hfinj)
  let σ : Equiv.Perm Nat := e.extendDomain Fin.equivSubtype
  refine ⟨rfl, σ, fun i hi => ?_, fun i hi => ?_⟩
  · have hσ : σ i = f ⟨i, hi⟩ := e.extendDomain_apply_subtype Fin.equivSubtype hi
    exact ⟨hσ ▸ (f ⟨i, hi⟩).2, by rw [hσ, hf]⟩
  · exact e.extendDomain_apply_not_subtype Fin.equivSubtype (Nat.not_lt.mpr hi)

namespace Bigraph

variable {g h : Bigraph}

section Pairing
variable (hg : g.WellFormed) (hh : h.WellFormed) (hlg : g.Legible) (hlh : h.Legible)
include hg hh hlg hlh

/-- Places with the same record have parents with the same key. -/
theorem map_placeKey_eq_of_placeRecord_eq {p q : PlaceId} (hp : p < g.places.size)
    (hq : q < h.places.size) (heq : g.placeRecord p = h.placeRecord q) :
    (g.parent p).map g.placeKey = (h.parent q).map h.placeKey := by
  cases samePlace_of_placeRecord_eq hg hh hlg hlh hp hq heq with
  | root hp hq =>
    rw [hg.parent_root (isRoot_iff.mpr ⟨_, hp⟩), hh.parent_root (isRoot_iff.mpr ⟨_, hq⟩)]
    rfl
  | site _ _ hparent => exact map_placeKey_eq_of_parentKey_eq hg hh hparent
  | node _ _ _ _ _ hparent => exact map_placeKey_eq_of_parentKey_eq hg hh hparent

omit hh hlh in
/-- No two places have the same record. -/
theorem placeRecord_inj {p q : PlaceId} (hp : p < g.places.size) (hq : q < g.places.size)
    (heq : g.placeRecord p = g.placeRecord q) : p = q :=
  hg.placeKey_inj hp hq (samePlace_of_placeRecord_eq hg hg hlg hlg hp hq heq).placeKey_eq

omit hh hlg hlh in
theorem linkRecord_inj {l k : LinkId} (hl : l < g.links.size) (hk : k < g.links.size)
    (heq : g.linkRecord l = g.linkRecord k) : l = k :=
  hg.linkKey_inj hl hk (linkKey_eq_of_linkRecord_eq heq)

omit hh hlh in
theorem innerRecord_inj {i j : InnerId} (hi : i < g.innerNames.size)
    (hj : j < g.innerNames.size) (heq : g.innerRecord i = g.innerRecord j) : i = j :=
  hg.innerName_inj hi hj (innerName_eq_of_innerRecord_eq hlg hlg hi hj heq).1

variable {σ τ : Nat → Nat}
  (hσ : ∀ p < g.places.size, σ p < h.places.size ∧ h.placeRecord (σ p) = g.placeRecord p)
  (hτ : ∀ l < g.links.size, τ l < h.links.size ∧ h.linkRecord (τ l) = g.linkRecord l)

include hσ in
theorem place_eq_of_placeKey_eq {p q : PlaceId} (hp : p < g.places.size) (hq : q < h.places.size)
    (heq : g.placeKey p = h.placeKey q) : q = σ p := by
  have hsame := samePlace_of_placeRecord_eq hg hh hlg hlh hp (hσ p hp).1 (hσ p hp).2.symm
  exact hh.placeKey_inj hq (hσ p hp).1 (heq.symm.trans hsame.placeKey_eq)

omit hg hlg hlh in
include hτ in
theorem link_eq_of_linkKey_eq {l k : LinkId} (hl : l < g.links.size) (hk : k < h.links.size)
    (heq : g.linkKey l = h.linkKey k) : k = τ l :=
  hh.linkKey_inj hk (hτ l hl).1 (heq.symm.trans (linkKey_eq_of_linkRecord_eq (hτ l hl).2.symm))

include hσ in
/-- Places that go together have parents that go together. -/
theorem parent_eq_of_records {p : PlaceId} (hp : p < g.places.size) :
    h.parent (σ p) = (g.parent p).map σ :=
  option_eq_map_of_map_eq (fun _ ha _ hb => place_eq_of_placeKey_eq hg hh hlg hlh hσ
    (hg.lt_of_isParent ha) (hh.lt_of_isParent hb))
    (map_placeKey_eq_of_placeRecord_eq hg hh hlg hlh hp (hσ p hp).1 (hσ p hp).2.symm)

include hσ hτ in
/-- Places that go together are of the same kind, with ports on links that go together. -/
theorem kind_eq_of_records (hs : g.signature = h.signature) {p : PlaceId} (hp : p < g.places.size) :
    h.kind (σ p) = (g.kind p).map (PlaceKind.relinked τ) := by
  cases samePlace_of_placeRecord_eq hg hh hlg hlh hp (hσ p hp).1 (hσ p hp).2.symm with
  | root hp hq => rw [hp, hq]; rfl
  | site hp hq _ => rw [hp, hq]; rfl
  | @node d e hp hq hlabel hname _ _ hports =>
    have hd := node?_eq_some_iff.mpr hp
    have he := node?_eq_some_iff.mpr hq
    have hcontrol : d.control = e.control := by
      have hfind := hg.find_control hd
      rw [hname, hs, hh.find_control he, Option.some.injEq] at hfind
      exact hfind.symm
    rw [← ports_eq_of_node? hd, ← ports_eq_of_node? he] at hports
    have hlinks := eq_map_of_map_eq (fun _ hl _ hk => link_eq_of_linkKey_eq hh hτ
      (hg.lt_of_mem_ports hl) (hh.lt_of_mem_ports hk)) hports
    rw [ports_eq_of_node? hd, ports_eq_of_node? he] at hlinks
    obtain ⟨control, label, ports⟩ := e
    rw [hp, hq, Option.map_some, PlaceKind.relinked, hcontrol, hlabel, ← hlinks]

include hτ in
/-- Inner names that go together have the same name, and links that go together. -/
theorem inner_eq_of_records {i j : InnerId} (hi : i < g.innerNames.size) (hj : j < h.innerNames.size)
    (heq : g.innerRecord i = h.innerRecord j) :
    h.innerNames[j]? = g.innerNames[i]?.map fun x => ⟨x.name, x.link.map τ⟩ := by
  obtain ⟨hname, hlink⟩ := innerName_eq_of_innerRecord_eq hlg hlh hi hj heq
  have hlinks : h.innerLink j = (g.innerLink i).map τ :=
    option_eq_map_of_map_eq (fun _ hl _ hk => link_eq_of_linkKey_eq hh hτ
      (lt_of_mem_points (hg.mem_points_inner.mpr hl)) (lt_of_mem_points (hh.mem_points_inner.mpr hk))) hlink
  simp only [innerName, innerLink, Array.getElem?_eq_getElem hi, Array.getElem?_eq_getElem hj,
    Option.map_some, Option.getD_some, Option.bind_some] at hname hlinks ⊢
  rw [hname, ← hlinks]

/-- **Bigraphs with the same records are the same up to the numbers.** -/
theorem exists_renumbering (hs : g.signature = h.signature) (heq : g.records = h.records) :
    Nonempty (Renumbering g h) := by
  obtain ⟨hplaces, hlinks, hinners⟩ := records_perm heq
  obtain ⟨hsizeP, σ, hσ, hσrest⟩ :=
    exists_perm_of_keys (fun _ hp _ hq => placeRecord_inj hg hlg hp hq) hplaces
  obtain ⟨hsizeL, τ, hτ, hτrest⟩ :=
    exists_perm_of_keys (fun _ hl _ hk => linkRecord_inj hg hl hk) hlinks
  obtain ⟨hsizeI, ι, hι, hιrest⟩ :=
    exists_perm_of_keys (fun _ hi _ hj => innerRecord_inj hg hlg hi hj) hinners
  exact ⟨.ofUsed σ τ ι ⟨hsizeP, hsizeL, hsizeI⟩ (fun n => ⟨hσrest n, hτrest n, hιrest n⟩)
    (fun p hp => ⟨kind_eq_of_records hg hh hlg hlh hσ hτ hs hp,
      parent_eq_of_records hg hh hlg hlh hσ hp⟩)
    (fun l hl => (linkKind_eq_of_linkKey_eq hl (hτ l hl).1
      (linkKey_eq_of_linkRecord_eq (hτ l hl).2.symm)).symm)
    fun i hi => inner_eq_of_records hg hh hlg hlh hτ hi (hι i hi).1 (hι i hi).2.symm⟩

end Pairing

/-- **The digest tells legible bigraphs apart:** they have the same bytes to be hashed exactly when they are
the same up to the numbers. If they have the same digest and are not, two different lists of bytes have
the same hash. -/
theorem digest_separates (hg : g.Constructible) (hh : h.Constructible) (hs : g.signature = h.signature)
    (hlg : g.Legible) (hlh : h.Legible) (hsg : g.ShortRecords) (hsh : h.ShortRecords) :
    (g.digestBytes = h.digestBytes ↔ Nonempty (Renumbering g h)) ∧
      (g.digest = h.digest → Nonempty (Renumbering g h) ∨
        g.digestBytes ≠ h.digestBytes ∧ Blake3.hash g.digestBytes = Blake3.hash h.digestBytes) := by
  have hiff : g.digestBytes = h.digestBytes ↔ Nonempty (Renumbering g h) := by
    rw [digestBytes_eq_iff hsg hsh]
    refine ⟨exists_renumbering hg.wellFormed hh.wellFormed hlg hlh hs, ?_⟩
    rintro ⟨f⟩
    exact f.records_eq.symm
  refine ⟨hiff, fun hdigest => ?_⟩
  by_cases hbytes : g.digestBytes = h.digestBytes
  · exact Or.inl (hiff.mp hbytes)
  · exact Or.inr ⟨hbytes, hdigest⟩

end Bigraph

/-- The study built twice has the same bytes, and so the two are the same up to the numbers. -/
theorem digest_separates_study : study.Constructible ∧ studyMoved.Constructible ∧
    study.signature = studyMoved.signature ∧ study.Legible ∧ studyMoved.Legible ∧
    study.ShortRecords ∧ studyMoved.ShortRecords ∧ study.digestBytes = studyMoved.digestBytes ∧
    Nonempty (Renumbering study studyMoved) ∧
    (study.digest = studyMoved.digest → Nonempty (Renumbering study studyMoved) ∨
      study.digestBytes ≠ studyMoved.digestBytes ∧
        Blake3.hash study.digestBytes = Blake3.hash studyMoved.digestBytes) := by
  have hg : study.Constructible := Bigraph.constructible_run (by decide +kernel)
  have hh : studyMoved.Constructible := Bigraph.constructible_run (by decide +kernel)
  have hs : study.signature = studyMoved.signature := by decide +kernel
  have hlg : study.Legible := by decide +kernel
  have hlh : studyMoved.Legible := by decide +kernel
  have hsg : study.ShortRecords := by decide +kernel
  have hsh : studyMoved.ShortRecords := by decide +kernel
  have hbytes : study.digestBytes = studyMoved.digestBytes := by decide +kernel
  obtain ⟨hiff, hdigest⟩ := digest_separates hg hh hs hlg hlh hsg hsh
  exact ⟨hg, hh, hs, hlg, hlh, hsg, hsh, hbytes, hiff.mp hbytes, hdigest⟩

/-! ### Fields that run into each other -/

namespace Bigraph

/-- What a bigraph says of node `p` without the numbers: label, control, key of the parent, keys of the
links on its ports. -/
def nodeView (g : Bigraph) (p : PlaceId) :
    Option String × Option Control × Option String × List String :=
  (g.label p, g.control p, (g.parent p).map g.placeKey, (g.ports p).map g.linkKey)

theorem Renumbering.nodeViews_perm {g h : Bigraph} (f : Renumbering g h) :
    (g.nodes.map g.nodeView).Perm (h.nodes.map h.nodeView) := by
  have hview : ∀ p, h.nodeView (f.place p) = g.nodeView p := by
    intro p
    rw [nodeView, f.label_eq, f.control_eq, f.parent_eq, f.ports_eq, f.map_linkKey_eq, Option.map_map,
      nodeView]
    congr 3
    exact congrArg ((g.parent p).map ·) (funext f.placeKey_eq)
  exact (map_record_perm f.nodes_perm hview).symm

theorem Renumbering.innerNames_perm {g h : Bigraph} (f : Renumbering g h) :
    (g.innerIds.map g.innerName).Perm (h.innerIds.map h.innerName) :=
  (map_record_perm f.innerIds_perm f.innerName_eq).symm

/-- **Two bigraphs that the digest does not tell apart,** though they are not the same up to the numbers. -/
structure Collide (g h : Bigraph) : Prop where
  left : g.Constructible
  right : h.Constructible
  signature : g.signature = h.signature
  digestBytes : g.digestBytes = h.digestBytes
  digest : g.digest = h.digest
  different : ¬ Nonempty (Renumbering g h)

/-- It is enough that a label, a control, a parent, a link on a port or an inner name is not the same. -/
theorem Collide.of_views {g h : Bigraph} (hg : g.Constructible) (hh : h.Constructible)
    (hs : g.signature = h.signature) (hrecords : g.records = h.records)
    (hviews : (g.nodes.map g.nodeView).isPerm (h.nodes.map h.nodeView) = false ∨
      (g.innerIds.map g.innerName).isPerm (h.innerIds.map h.innerName) = false) : Collide g h := by
  have hbytes : g.digestBytes = h.digestBytes := by
    rw [Bigraph.digestBytes, hrecords, Bigraph.digestBytes]
  refine ⟨hg, hh, hs, hbytes, congrArg Blake3.hash hbytes, ?_⟩
  rintro ⟨f⟩
  rcases hviews with h | h
  · exact Bool.false_ne_true (h.symm.trans (List.isPerm_iff.mpr f.nodeViews_perm))
  · exact Bool.false_ne_true (h.symm.trans (List.isPerm_iff.mpr f.innerNames_perm))

end Bigraph

/-- Controls with marks in their names among others. -/
def marked : Signature :=
  ⟨[⟨"1<r0|ox", 2, .active⟩, ⟨"A", 0, .active⟩, ⟨"B", 2, .active⟩, ⟨"C", 1, .active⟩,
    ⟨"C:1<r0|ox", 1, .active⟩, ⟨"b", 1, .active⟩, ⟨"b:C", 1, .active⟩], by decide⟩

/-- The bigraph that these actions end in. -/
def marking (actions : List Action) : Bigraph := ((Construction.new marked).run actions).graph

/-- **Fields that hold marks run into each other.** The label `a` before the control `b:C` reads as the
label `a:b` before the control `C`. In the others one kind of field holds its mark: the colon in a label or
in the name of a control, the bar in a label, the comma in the name of a link, the angle in an inner
name. -/
theorem records_run_together :
    Collide (marking [.root 0, .node "b:C" "a", .nest 1 0])
      (marking [.root 0, .node "C" "a:b", .nest 1 0]) ∧
    Collide (marking [.root 0, .node "b" "a", .nest 1 0, .outer "x:2<r0|", .connect 1 0])
      (marking [.root 0, .node "1<r0|ox" "a:b", .nest 1 0, .outer "x:2<r0|"]) ∧
    Collide (marking [.root 0, .node "C" "n", .nest 1 0, .outer "x:1<r0|oy", .outer "y", .connect 1 0])
      (marking [.root 0, .node "C:1<r0|ox" "n", .nest 1 0, .outer "x:1<r0|oy", .outer "y",
        .connect 1 1]) ∧
    Collide (marking [.root 0, .node "A" "a", .nest 1 0, .node "A" "a|ob", .nest 2 0, .node "C" "x",
        .nest 3 1, .outer "b|", .connect 3 0])
      (marking [.root 0, .node "A" "a", .nest 1 0, .node "A" "a|ob", .nest 2 0, .node "C" "x",
        .nest 3 2, .outer "b|"]) ∧
    Collide (marking [.root 0, .node "B" "n", .nest 1 0, .outer "x", .outer "y", .outer "x,oy",
        .connect 1 0, .connect 1 1])
      (marking [.root 0, .node "B" "n", .nest 1 0, .outer "x", .outer "y", .outer "x,oy",
        .connect 1 2]) ∧
    Collide (marking [.outer "c", .outer "b>oc", .inner "a", .wire 0 1])
      (marking [.outer "c", .outer "b>oc", .inner "a>ob", .wire 0 0]) := by
  refine ⟨?_, ?_, ?_, ?_, ?_, ?_⟩ <;>
    exact .of_views (constructible_run (by decide +kernel)) (constructible_run (by decide +kernel))
      (by decide +kernel) (by decide +kernel) (by decide +kernel)

end Bigraphs
