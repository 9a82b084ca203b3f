import Bigraphs.Hash.Identity
import Bigraphs.Proofs.Construction.Steps
import Bigraphs.Proofs.Graph.Renumbering
import Bigraphs.Proofs.Texts

/-! # The digest does not see the numbers

A record speaks of places and links by their keys, and the keys stay in a renumbering. So a place, a link
and an inner name keep their records, all records together are the same up to their order, and the digest
hashes them in the order of the dictionary (`records_eq`). -/

namespace Bigraphs

open Bigraph

namespace Bigraph

namespace Renumbering

variable {g g' : Bigraph} (f : Renumbering g g')

/-! ### Keys -/

theorem placeKey_eq (p : PlaceId) : g'.placeKey (f.place p) = g.placeKey p := by
  rw [placeKey, f.kind_eq, placeKey]
  cases g.kind p with
  | none => rfl
  | some k => cases k <;> rfl

theorem linkKey_eq (l : LinkId) : g'.linkKey (f.link l) = g.linkKey l := by
  rw [linkKey, f.isEdge_eq, f.linkName_eq, linkKey]

theorem parentKey_eq (p : PlaceId) : g'.parentKey (f.place p) = g.parentKey p := by
  rw [parentKey, f.parent_eq, Option.map_map, parentKey]
  congr 2
  exact funext f.placeKey_eq

theorem map_linkKey_eq (ls : List LinkId) : (ls.map f.link).map g'.linkKey = ls.map g.linkKey := by
  rw [List.map_map]
  exact congrArg (ls.map ·) (funext f.linkKey_eq)

/-! ### Records -/

theorem placeRecord_eq (p : PlaceId) : g'.placeRecord (f.place p) = g.placeRecord p := by
  rw [placeRecord, f.kind_eq, f.parentKey_eq, placeRecord]
  cases g.kind p with
  | none => rfl
  | some k =>
    cases k with
    | root i => rfl
    | site i => rfl
    | node d => simp only [Option.map_some, PlaceKind.relinked, f.map_linkKey_eq]

theorem linkRecord_eq (l : LinkId) : g'.linkRecord (f.link l) = g.linkRecord l := by
  rw [linkRecord, f.linkKey_eq, linkRecord]

theorem innerRecord_eq (i : InnerId) : g'.innerRecord (f.inner i) = g.innerRecord i := by
  rw [innerRecord, f.innerName_eq, f.innerLink_eq, Option.map_map, innerRecord]
  congr 3
  exact funext f.linkKey_eq

omit f in
/-- What keeps its record through a rearrangement of the numbers keeps it in the list of all records. -/
theorem map_record_perm {α : Type} {ids ids' : List Nat} {σ : Nat → Nat} {record record' : Nat → α}
    (hids : (ids.map σ).Perm ids') (hrecord : ∀ n, record' (σ n) = record n) :
    (ids'.map record').Perm (ids.map record) := by
  have hmap : (ids.map σ).map record' = ids.map record := by
    rw [List.map_map]
    exact congrArg (ids.map ·) (funext hrecord)
  exact (hids.symm.map record').trans (.of_eq hmap)

include f in
/-- **The records are the same,** and sorted they are in the same order. -/
theorem records_eq : g'.records = g.records :=
  sortNames_eq_iff.mpr (((map_record_perm f.placeIds_perm f.placeRecord_eq).append
    (map_record_perm f.linkIds_perm f.linkRecord_eq)).append
    (map_record_perm f.innerIds_perm f.innerRecord_eq))

include f in
/-- **The digest does not depend on the order of construction:** a renumbered bigraph has the same bytes to
be hashed, and so the same digest. -/
theorem digest_renumbered : g'.digestBytes = g.digestBytes ∧ g'.digest = g.digest := by
  have hbytes : g'.digestBytes = g.digestBytes := by rw [digestBytes, f.records_eq, digestBytes]
  exact ⟨hbytes, by rw [digest, hbytes, digest]⟩

end Renumbering

end Bigraph

/-! ### A study, built twice -/

/-- Rooms with a door to each side, and people. -/
def household : Signature := ⟨[⟨"Person", 1, .atomic⟩, ⟨"Room", 2, .active⟩], by decide⟩

/-- A room on a corridor, with a person and a site, and a link in it that has an inner name. -/
def study : Bigraph :=
  ((Construction.new household).run [.root 0, .node "Room" "r", .nest 1 0, .node "Person" "p",
    .nest 2 1, .site 0, .nest 3 1, .edge "e", .connect 2 0, .outer "corridor", .connect 1 1,
    .inner "u", .inner "v", .wire 0 0]).graph

/-- The study with the person and the site first, which move into the room from outside, and with an outer
name that is closed at last. -/
def studyMoved : Bigraph :=
  ((Construction.new household).run [.node "Person" "p", .site 0, .root 0, .nest 1 2, .nest 0 2,
    .node "Room" "r", .nest 3 2, .nest 1 3, .nest 0 3, .outer "corridor", .outer "e", .inner "v",
    .inner "u", .wire 1 1, .connect 3 0, .connect 0 1, .close "e"]).graph

/-- All numbers have changed. -/
def moveStudy : Renumbering study studyMoved :=
  .ofUsed (Equiv.swap 0 2 * Equiv.swap 1 3) (Equiv.swap 0 1) (Equiv.swap 0 1) (by decide +kernel)
    (fun _ => ⟨fun h => by
        rw [Equiv.Perm.mul_apply, swap_apply_of_le (by decide +kernel) (by decide +kernel) h,
          swap_apply_of_le (by decide +kernel) (by decide +kernel) h],
      swap_apply_of_le (by decide +kernel) (by decide +kernel),
      swap_apply_of_le (by decide +kernel) (by decide +kernel)⟩)
    (by decide +kernel) (by decide +kernel) (by decide +kernel)

theorem digest_renumbered_study : study.Constructible ∧ studyMoved.Constructible ∧
    study ≠ studyMoved ∧ studyMoved.digest = study.digest :=
  ⟨Bigraph.constructible_run (by decide +kernel), Bigraph.constructible_run (by decide +kernel),
    by decide +kernel, moveStudy.digest_renumbered.2⟩

end Bigraphs
