import Bigraphs.Matching.Embedding
import Bigraphs.Proofs.Matching.Links
import Bigraphs.Proofs.Matching.Plan

/-! # What the search for embeddings finds

The embeddings are the mappings of those image lists in which each image is an allowed candidate for
its step, given the images before it (`Placeable`), and which pass the two checks of complete mappings
(`mem_embeddings`). The search is a recursion along the plan, and so is `Placeable`; `placeable_iff`
says the same step by step. -/

namespace Bigraphs

namespace Problem

variable {q : Problem} {t : Table}

/-! ### Complete mappings -/

theorem allM_eq_ok_true_iff {α : Type} {p : α → Except MatchError Bool} {l : List α}
    (hp : ∀ a ∈ l, ∃ b, p a = .ok b) : l.allM p = .ok true ↔ ∀ a ∈ l, p a = .ok true := by
  induction l with
  | nil => simp [List.allM, pure, Except.pure]
  | cons a l ih =>
    obtain ⟨b, hb⟩ := hp a (by simp)
    have ih := ih fun a ha => hp a (by simp [ha])
    cases b with
    | true => simpa [List.allM, hb, bind, Except.bind] using ih
    | false => simp [List.allM, hb, bind, Except.bind, pure, Except.pure]

theorem allM_isOk {α : Type} {p : α → Except MatchError Bool} {l : List α}
    (hp : ∀ a ∈ l, ∃ b, p a = .ok b) : ∃ b, l.allM p = .ok b := by
  induction l with
  | nil => exact ⟨true, rfl⟩
  | cons a l ih =>
    obtain ⟨b, hb⟩ := hp a (by simp)
    obtain ⟨b', hb'⟩ := ih fun a ha => hp a (by simp [ha])
    cases b with
    | true => exact ⟨b', by simpa [List.allM, hb, bind, Except.bind] using hb'⟩
    | false => exact ⟨false, by simp [List.allM, hb, bind, Except.bind, pure, Except.pure]⟩

theorem isClear_eq_ok {y h : PlaceId} (hh : h < q.agent.places.size) :
    q.isClear y h = .ok (decide (y ≠ h) && !q.agent.isAncestor y h) := by
  unfold isClear
  by_cases hy : y = h
  · simp [hy]
  · simp [hy, Nat.not_le.mpr hh]

section Hosts
variable {plan : List PlanStep} {hosts images : List PlaceId}
  (hh : ∀ h ∈ hosts, h < q.agent.places.size)
include hh

theorem hostsDisjoint_isOk : ∃ b, q.hostsDisjoint plan hosts images = .ok b := by
  refine allM_isOk fun sy _ => allM_isOk fun hi hm => ?_
  obtain ⟨h, i⟩ := hi
  simp only
  split
  · exact ⟨true, rfl⟩
  · exact ⟨_, isClear_eq_ok (hh h (List.fst_mem_of_mem_zipIdx hm))⟩

theorem hostsDisjoint_iff : q.hostsDisjoint plan hosts images = .ok true ↔
    ∀ s y, (s, y) ∈ plan.zip images → ∀ (i : Nat) (h : PlaceId), hosts[i]? = some h →
      i ≠ s.root → y ≠ h ∧ ¬ q.agent.isAncestor y h := by
  have hinner : ∀ s y hi, hi ∈ hosts.zipIdx →
      ∃ b, (if hi.2 = s then .ok true else q.isClear y hi.1) = .ok b := by
    intro s y hi hm
    split
    · exact ⟨true, rfl⟩
    · exact ⟨_, isClear_eq_ok (hh hi.1 (List.fst_mem_of_mem_zipIdx hm))⟩
  unfold hostsDisjoint
  rw [allM_eq_ok_true_iff fun sy _ => allM_isOk (hinner sy.1.root sy.2), Prod.forall]
  refine forall_congr' fun s => forall_congr' fun y => forall_congr' fun _ => ?_
  rw [allM_eq_ok_true_iff (hinner s.root y), Prod.forall, forall_comm]
  refine forall_congr' fun i => forall_congr' fun h => ?_
  rw [List.mk_mem_zipIdx_iff_getElem?]
  refine forall_congr' fun hi => ?_
  by_cases his : i = s.root
  · simp [his]
  · rw [if_neg his, isClear_eq_ok (hh h (List.mem_of_getElem? hi))]
    simp [his]

end Hosts

theorem mem_settled {plan : List PlanStep} {hosts images : List PlaceId} {m : Mapping} :
    .ok m ∈ (q.settled plan hosts images).toList ↔ m = mappingOf plan images ∧
      q.linksConsistent m = .ok true ∧ q.hostsDisjoint plan hosts images = .ok true := by
  unfold settled
  cases hl : q.linksConsistent (mappingOf plan images) with
  | error e => simp; rintro rfl; simp [hl]
  | ok b =>
    cases b with
    | false => simp; rintro rfl; simp [hl]
    | true =>
      cases hd : q.hostsDisjoint plan hosts images with
      | error e => simp
      | ok b =>
        cases b with
        | false => simp
        | true => simp; rintro rfl; exact hl

/-! ### Images one after the other -/

/-- `c` is a candidate for the step, and allowed, after the images `chosen`. -/
def IsChoice (q : Problem) (t : Table) (hosts chosen : List PlaceId) (s : PlanStep)
    (c : PlaceId) : Prop :=
  (∃ cs, q.candidates t hosts chosen s = .ok cs ∧ c ∈ cs) ∧ isAllowed chosen s c

/-- `images` places the steps after the images `chosen`. -/
def Placeable (q : Problem) (t : Table) (hosts : List PlaceId) :
    List PlanStep → List PlaceId → List PlaceId → Prop
  | [], _, [] => True
  | s :: rest, chosen, c :: images =>
    q.IsChoice t hosts chosen s c ∧ Placeable q t hosts rest (chosen ++ [c]) images
  | _, _, _ => False

theorem mem_embeddingsFrom {plan rest : List PlanStep} {hosts chosen : List PlaceId}
    {m : Mapping} :
    .ok m ∈ (q.embeddingsFrom t plan hosts rest chosen).toList ↔
      ∃ images, q.Placeable t hosts rest chosen images ∧
        .ok m ∈ (q.settled plan hosts (chosen ++ images)).toList := by
  induction rest generalizing chosen with
  | nil =>
    unfold embeddingsFrom
    constructor
    · exact fun h => ⟨[], trivial, by rwa [List.append_nil]⟩
    · rintro ⟨images, hp, h⟩
      cases images with
      | nil => rwa [List.append_nil] at h
      | cons c images => exact hp.elim
  | cons s rest ih =>
    unfold embeddingsFrom
    cases hc : q.candidates t hosts chosen s with
    | error e =>
      simp only [LazyList.toList_singleton, List.mem_singleton, reduceCtorEq, false_iff]
      rintro ⟨images, hp, -⟩
      cases images with
      | nil => exact hp
      | cons c images =>
        obtain ⟨⟨⟨cs, hcs, -⟩, -⟩, -⟩ := hp
        rw [hc] at hcs
        cases hcs
    | ok cs =>
      simp only [LazyList.toList_ofBranches, List.mem_flatMap, List.mem_filter, ih]
      constructor
      · rintro ⟨c, ⟨hcs, ha⟩, images, hp, h⟩
        exact ⟨c :: images, ⟨⟨⟨cs, hc, hcs⟩, ha⟩, hp⟩, by simpa using h⟩
      · rintro ⟨images, hp, h⟩
        cases images with
        | nil => exact hp.elim
        | cons c images =>
          obtain ⟨⟨⟨cs', hcs', hmem⟩, ha⟩, hp⟩ := hp
          rw [hc] at hcs'
          cases hcs'
          exact ⟨c, ⟨hmem, ha⟩, images, hp, by simpa using h⟩

/-- **What the search finds.** -/
theorem mem_embeddings {plan : List PlanStep} {hosts : List PlaceId} {m : Mapping} :
    .ok m ∈ (q.embeddings t plan hosts).toList ↔
      ∃ images, q.Placeable t hosts plan [] images ∧ m = mappingOf plan images ∧
        q.linksConsistent m = .ok true ∧ q.hostsDisjoint plan hosts images = .ok true := by
  unfold embeddings
  rw [mem_embeddingsFrom]
  refine exists_congr fun images => and_congr_right fun _ => ?_
  rw [List.nil_append, mem_settled]

theorem placeable_iff {rest : List PlanStep} {hosts chosen images : List PlaceId} :
    q.Placeable t hosts rest chosen images ↔ images.length = rest.length ∧
      ∀ (j : Nat) s c, rest[j]? = some s → images[j]? = some c →
        q.IsChoice t hosts (chosen ++ images.take j) s c := by
  induction rest generalizing chosen images with
  | nil => cases images <;> simp [Placeable]
  | cons s rest ih =>
    cases images with
    | nil => simp [Placeable]
    | cons c images =>
      simp only [Placeable, ih, List.length_cons, Nat.add_right_cancel_iff]
      constructor
      · rintro ⟨hc, hlen, h⟩
        refine ⟨hlen, fun j u d hu hd => ?_⟩
        cases j with
        | zero => simp at hu hd; subst hu hd; simpa using hc
        | succ j => simpa using h j u d (by simpa using hu) (by simpa using hd)
      · rintro ⟨hlen, h⟩
        refine ⟨by simpa using h 0 s c, hlen, fun j u d hu hd => ?_⟩
        simpa using h (j + 1) u d (by simpa using hu) (by simpa using hd)

/-! ### No image twice -/

theorem nodup_of_placeable {rest : List PlanStep} {hosts chosen images : List PlaceId}
    (hc : chosen.Nodup) (h : q.Placeable t hosts rest chosen images) :
    (chosen ++ images).Nodup := by
  induction rest generalizing chosen images with
  | nil =>
    cases images with
    | nil => simpa using hc
    | cons c images => exact h.elim
  | cons s rest ih =>
    cases images with
    | nil => exact h.elim
    | cons c images =>
      obtain ⟨⟨-, ha⟩, h⟩ := h
      have hnew : c ∉ chosen := by
        unfold isAllowed at ha
        simp only [Bool.and_eq_true, decide_eq_true_eq] at ha
        exact ha.1
      simpa using ih (nodup_append_singleton hc hnew) h

end Problem

end Bigraphs
