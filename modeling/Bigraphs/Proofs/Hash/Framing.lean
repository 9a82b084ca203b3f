import Bigraphs.Hash.Identity
import Mathlib.Algebra.Group.Nat.Defs
import Mathlib.Data.List.Basic

/-! # What is hashed

The digest hashes the records, each behind its length in eight bytes. The length says where a record ends,
so the records can be read off the bytes (`digestBytes_eq_iff`). Eight bytes hold the length of a record
of less than `2 ^ 64` bytes (`ShortRecords`), and a longer one does not fit into the memory of a machine. -/

namespace Bigraphs

theorem utf8_inj {s t : String} (h : utf8 s = utf8 t) : s = t := by
  unfold utf8 at h
  exact String.toByteArray_inj.mp (ByteArray.ext (Array.toList_inj.mp h))

namespace Bigraph

/-! ### Lengths -/

/-- The number that these bytes stand for, the lowest first. -/
def readBytes (bytes : List UInt8) : Nat := bytes.foldr (fun b n => b.toNat + 256 * n) 0

theorem readBytes_map_range (n k : Nat) :
    readBytes ((List.range k).map fun i => (n >>> (8 * i)).toUInt8) = n % 256 ^ k := by
  induction k generalizing n with
  | zero => simp [readBytes, Nat.mod_one]
  | succ k ih =>
    have hshift : ∀ i, n >>> (8 * (i + 1)) = (n / 256) >>> (8 * i) := by
      intro i
      rw [Nat.mul_add, Nat.add_comm, Nat.shiftRight_add, Nat.shiftRight_eq_div_pow n]
    rw [List.range_succ_eq_map, List.map_cons, List.map_map]
    have htail : ((fun i => (n >>> (8 * i)).toUInt8) ∘ Nat.succ) =
        fun i => ((n / 256) >>> (8 * i)).toUInt8 := funext fun i => by
      rw [Function.comp_apply, Nat.succ_eq_add_one, hshift]
    rw [htail, readBytes, List.foldr_cons, ← readBytes, ih, Nat.pow_succ, Nat.mul_comm (256 ^ k),
      Nat.mod_mul]
    rfl

theorem lengthBytes_inj {m n : Nat} (hm : m < 2 ^ 64) (hn : n < 2 ^ 64)
    (h : lengthBytes m = lengthBytes n) : m = n := by
  have h := congrArg readBytes h
  rw [lengthBytes, lengthBytes, readBytes_map_range, readBytes_map_range] at h
  rwa [Nat.mod_eq_of_lt (by omega), Nat.mod_eq_of_lt (by omega)] at h

theorem length_lengthBytes (n : Nat) : (lengthBytes n).length = 8 := rfl

/-! ### Records behind their lengths -/

/-- The length says where the record ends. -/
theorem frame_append_inj {s t : String} {r r' : List UInt8} (hs : (utf8 s).length < 2 ^ 64)
    (ht : (utf8 t).length < 2 ^ 64) (h : frame s ++ r = frame t ++ r') : s = t ∧ r = r' := by
  unfold frame at h
  rw [List.append_assoc, List.append_assoc] at h
  obtain ⟨hlength, h⟩ := List.append_inj h rfl
  obtain ⟨hbytes, hr⟩ := List.append_inj h (lengthBytes_inj hs ht hlength)
  exact ⟨utf8_inj hbytes, hr⟩

theorem frame_append_ne_nil (s : String) (r : List UInt8) : frame s ++ r ≠ [] := by
  intro h
  have h := congrArg List.length h
  rw [frame, List.length_append, List.length_append, length_lengthBytes] at h
  simp at h

theorem flatMap_frame_inj {l k : List String} (hl : ∀ s ∈ l, (utf8 s).length < 2 ^ 64)
    (hk : ∀ s ∈ k, (utf8 s).length < 2 ^ 64) (h : l.flatMap frame = k.flatMap frame) : l = k := by
  induction l generalizing k with
  | nil =>
    cases k with
    | nil => rfl
    | cons t k => exact absurd h.symm (frame_append_ne_nil t _)
  | cons s l ih =>
    cases k with
    | nil => exact absurd h (frame_append_ne_nil s _)
    | cons t k =>
      rw [List.forall_mem_cons] at hl hk
      obtain ⟨hst, h⟩ := frame_append_inj hl.1 hk.1 h
      rw [hst, ih hl.2 hk.2 h]

variable (g : Bigraph)

/-- Each record has less than `2 ^ 64` bytes. -/
def ShortRecords : Prop := ∀ record ∈ g.records, (utf8 record).length < 2 ^ 64

instance : Decidable g.ShortRecords := List.decidableBAll _ _

variable {g}

/-- **The bytes say what the records are.** -/
theorem digestBytes_eq_iff {h : Bigraph} (hg : g.ShortRecords) (hh : h.ShortRecords) :
    g.digestBytes = h.digestBytes ↔ g.records = h.records := by
  constructor
  · intro heq
    exact flatMap_frame_inj hg hh (List.append_cancel_left heq)
  · intro heq
    rw [digestBytes, heq, digestBytes]

end Bigraph

end Bigraphs
