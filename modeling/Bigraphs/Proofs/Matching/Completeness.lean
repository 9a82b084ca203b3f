import Bigraphs.Proofs.Matching.Activity
import Bigraphs.Proofs.Matching.Rearranged

/-! # Every occurrence is found, once

An occurrence with hosts in the open is yielded, up to a rearrangement of interchangeable siblings, and
no other item of the list is a rearrangement of it (`occurrences_complete`). That nothing is yielded
twice comes from the search tree: different candidates for a step lead to different mappings, and
different assignments to different hosts (`pairwise_occurrences`). -/

namespace Bigraphs

namespace Problem

open Bigraph

variable {q : Problem} {t : Table} {hosts : List PlaceId}

/-! ### Nothing is yielded twice -/

theorem nodup_of_candidates (hq : q.Proper) {chosen cs : List PlaceId} {s : PlanStep}
    (h : q.candidates t hosts chosen s = .ok cs) : cs.Nodup := by
  have hplayers : ∀ p u, (q.players t p u).Nodup :=
    fun p u => (hq.agent.nodup_vertexChildren p).filter _
  unfold candidates at h
  cases ha : s.anchor with
  | step k =>
    simp only [ha, Except.ok.injEq] at h
    rw [← h]
    cases chosen[k]? with
    | none => exact .nil
    | some p => exact hplayers p s.node
  | root i =>
    simp only [ha] at h
    cases hi : hosts[i]? with
    | none => simp [hi] at h
    | some p =>
      by_cases hp : q.agent.places.size ≤ p
      · simp [hi, hp] at h
      · simp only [hi, hp, if_false, Except.ok.injEq] at h
        rw [← h]
        exact hplayers p s.node

theorem length_of_placeableFrom {rest : List PlanStep} {chosen images : List PlaceId}
    (h : q.Placeable t hosts rest chosen images) : images.length = rest.length :=
  (placeable_iff.mp h).1

/-- **No mapping is found twice.** -/
theorem pairwise_embeddingsFrom (hq : q.Proper) {plan rest : List PlanStep} {chosen : List PlaceId}
    (hlen : chosen.length + rest.length = plan.length) :
    (q.embeddingsFrom t plan hosts rest chosen).toList.Pairwise
      fun e e' => ∀ m, e = .ok m → e' ≠ .ok m := by
  induction rest generalizing chosen with
  | nil =>
    unfold embeddingsFrom settled
    split <;> simp
  | cons s rest ih =>
    rw [List.length_cons] at hlen
    unfold embeddingsFrom
    cases hc : q.candidates t hosts chosen s with
    | error e => simp
    | ok cs =>
      simp only [LazyList.toList_ofBranches]
      refine List.pairwise_flatMap.mpr ⟨fun c _ => ih (by simp; omega), ?_⟩
      refine ((nodup_of_candidates hq hc).filter _).imp fun {c c'} hne e he e' he' m hm hm' => ?_
      rw [hm] at he
      rw [hm'] at he'
      obtain ⟨images, hp, hs⟩ := mem_embeddingsFrom.mp he
      obtain ⟨images', hp', hs'⟩ := mem_embeddingsFrom.mp he'
      obtain ⟨rfl, -⟩ := mem_settled.mp hs
      have hmaps := (mem_settled.mp hs').1
      have hlength := length_of_placeableFrom hp
      have hlength' := length_of_placeableFrom hp'
      have heq := congrArg (List.map Prod.snd) hmaps
      rw [map_snd_mappingOf (by simp; omega), map_snd_mappingOf (by simp; omega),
        List.append_assoc, List.append_assoc, List.append_cancel_left_eq] at heq
      exact hne (List.cons.inj heq).1

end Problem

namespace Matches

open Problem Bigraph

variable {q : Problem} {config : MatchConfig}

/-- **Nothing is yielded twice.** -/
theorem pairwise_occurrences (hq : q.Proper) (config : MatchConfig) :
    (q.toMatches config).occurrences.toList.Pairwise
      fun o o' => o.hosts = o'.hosts → o.mapping ≠ o'.mapping := by
  have hyield : ∀ hosts, ∀ o ∈ ((q.toMatches config).occurrencesAt hosts).toList,
      o.hosts = hosts := by
    intro hosts o ho
    unfold occurrencesAt at ho
    rw [LazyList.toList_filterMap, List.mem_filterMap] at ho
    obtain ⟨e, -, he⟩ := ho
    cases e with
    | error e => cases he
    | ok m => exact (of_occurrence?_eq_some he).1
  unfold occurrences
  refine List.Pairwise.sublist (LazyList.toList_upTo_sublist _ _) ?_
  rw [LazyList.toList_flatMap]
  refine List.pairwise_flatMap.mpr ⟨fun hosts _ => ?_, ?_⟩
  · unfold occurrencesAt
    rw [LazyList.toList_filterMap]
    refine List.Pairwise.filterMap _ (fun e e' hne o ho o' ho' _ heq => ?_)
      (pairwise_embeddingsFrom hq (by simp))
    cases e with
    | error e => cases ho
    | ok m =>
      cases e' with
      | error e => cases ho'
      | ok m' =>
        obtain ⟨-, hm, -⟩ := of_occurrence?_eq_some ho
        obtain ⟨-, hm', -⟩ := of_occurrence?_eq_some ho'
        refine hne m rfl ?_
        rw [← hm, ← hm', heq]
  · refine ((nodup_assignments (nodup_hitsByVertex _)).sublist
      (LazyList.toList_upTo_sublist _ _)).imp fun {hosts hosts'} hne o ho o' ho' heq => ?_
    rw [hyield hosts o ho, hyield hosts' o' ho'] at heq
    exact absurd heq hne

/-! ### What is yielded -/

/-- With all hosts in the open, an embedding makes an occurrence. -/
theorem exists_occurrence (hq : q.Proper) {hosts : List PlaceId} {m : Mapping}
    (ho : q.Occurs hosts m) (hh : q.HostsIn hosts)
    (hactive : config.requireActive = true → ∀ h ∈ hosts, q.agent.ActiveFrom h) :
    ∃ o, q.occurrence? config hosts m = some o := by
  obtain ⟨pieces, context, parts, b, hanatomy, hdec⟩ := decompose_ok hq ho hh config
  have hopen : (config.requireActive && !pieces.context.inactiveSites.isEmpty) = false := by
    cases hr : config.requireActive with
    | false => rfl
    | true =>
      rw [(hanatomy.inactiveSites_eq_nil_iff hq hh.length_eq).mpr (hactive hr)]
      rfl
  rw [hopen, if_neg Bool.false_ne_true] at hdec
  unfold occurrence?
  rw [hdec]
  exact ⟨_, rfl⟩

/-- Where the context has to be active, the hosts of what is yielded are in the open. -/
theorem activeFrom_of_mem_occurrences (hq : q.Proper) (hactive : config.requireActive = true)
    {o : Occurrence} (h : o ∈ (q.toMatches config).occurrences.toList) :
    ∀ host ∈ o.hosts, q.agent.ActiveFrom host := by
  obtain ⟨hassign, -, hdec⟩ := of_mem_occurrences h
  have hh := (of_mem_assignments hq hassign).1
  obtain ⟨pieces, context, parts, b, hanatomy, hdec'⟩ :=
    decompose_ok hq (occurs_of_mem_occurrences hq h) hh config
  rw [hactive, Bool.true_and] at hdec'
  rw [← hanatomy.inactiveSites_eq_nil_iff hq hh.length_eq]
  cases hempty : pieces.context.inactiveSites.isEmpty with
  | true => exact List.isEmpty_iff.mp hempty
  | false =>
    rw [hempty, hdec] at hdec'
    cases hdec'

/-- An occurrence whose hosts are an assignment is yielded, up to a rearrangement of interchangeable
siblings. -/
theorem exists_yielded (hq : q.Proper) (hmatches : config.maxMatches = none)
    (hassign : config.maxAssignments = none) (hplain : q.redex.PlainNames) {hosts : List PlaceId}
    {m : Mapping} (ho : q.Occurs hosts m) (hhosts : hosts ∈ (q.toMatches config).assignments.toList)
    (hactive : config.requireActive = true → ∀ h ∈ hosts, q.agent.ActiveFrom h) :
    ∃ o ∈ (q.toMatches config).occurrences.toList, o.hosts = hosts ∧
      q.redex.Interchanged m o.mapping := by
  have hh := (of_mem_assignments hq hhosts).1
  obtain ⟨m', hm', ho', hembed⟩ := ho.exists_embedding hq hplain hh.lt_size
  obtain ⟨o, hsome⟩ := exists_occurrence hq ho' hh hactive
  obtain ⟨rfl, rfl, -⟩ := of_occurrence?_eq_some hsome
  refine ⟨o, ?_, rfl, hm'⟩
  unfold occurrences
  rw [show (q.toMatches config).config.maxMatches = none from hmatches,
    show (q.toMatches config).config.maxAssignments = none from hassign]
  simp only [LazyList.upTo, LazyList.toList_flatMap]
  refine List.mem_flatMap.mpr ⟨o.hosts, hhosts, ?_⟩
  unfold occurrencesAt
  rw [LazyList.toList_filterMap]
  refine List.mem_filterMap.mpr ⟨.ok o.mapping, ?_, hsome⟩
  rw [show (q.toMatches config).table = q.table from if_pos (ho.idleNamesPresent hq)]
  exact hembed

/-- No two items of the list rearrange one another. -/
theorem position_unique (hq : q.Proper) {i j : Nat} {o o' : Occurrence}
    (hi : (q.toMatches config).occurrences.toList[i]? = some o)
    (hj : (q.toMatches config).occurrences.toList[j]? = some o') (hhosts : o.hosts = o'.hosts)
    {m : Mapping} (hm : q.redex.Interchanged m o.mapping) (hm' : q.redex.Interchanged m o'.mapping) :
    i = j := by
  have hmem := List.mem_of_getElem? hi
  have hmem' := List.mem_of_getElem? hj
  have hembed' := (of_mem_occurrences hmem').2.1
  have hoccurs' := occurs_of_mem_occurrences hq hmem'
  rw [← hhosts] at hembed' hoccurs'
  have heq := embedding_unique hq hm hm' (occurs_of_mem_occurrences hq hmem) hoccurs'
    (of_mem_occurrences hmem).2.1 hembed'
  have hpair := List.pairwise_iff_getElem.mp (pairwise_occurrences hq config)
  obtain ⟨hilt, rfl⟩ := List.getElem?_eq_some_iff.mp hi
  obtain ⟨hjlt, rfl⟩ := List.getElem?_eq_some_iff.mp hj
  rcases Nat.lt_trichotomy i j with hij | hij | hij
  · exact absurd heq (hpair i j hilt hjlt hij hhosts)
  · exact hij
  · exact absurd heq.symm (hpair j i hjlt hilt hij hhosts.symm)

/-- **Every occurrence is yielded once,** up to a rearrangement of interchangeable siblings. -/
theorem occurrences_complete (config : MatchConfig) (hmatches : config.maxMatches = none)
    (hassign : config.maxAssignments = none) {agent redex : Bigraph}
    (ha : agent.Constructible) (hr : redex.Constructible)
    (hs : agent.signature = redex.signature) (hg : agent.isGround = true)
    (hplain : redex.PlainNames) (hroots : redex.roots ≠ [])
    (hfilled : ∀ r, redex.isRoot r → ∃ c, redex.isNode c ∧ redex.parent c = some r) :
    ∃ ms, Matches.of config agent redex = .ok ms ∧ ∀ hosts m, ms.problem.Occurs hosts m →
      (config.requireActive = true → ∀ h ∈ hosts, agent.ActiveFrom h) →
        ∃! i : Nat, ∃ o, ms.occurrences.toList[i]? = some o ∧ o.hosts = hosts ∧
          redex.Interchanged m o.mapping := by
  refine ⟨_, of_eq_ok hs hg, fun hosts m ho hactive => ?_⟩
  have hq := proper_of_constructible ha hr hs hg
  obtain ⟨o, hmem, rfl, hm⟩ := exists_yielded hq hmatches hassign hplain ho
    (mem_assignments_of_occurs hq ho hroots hfilled) hactive
  obtain ⟨i, hi⟩ := List.mem_iff_getElem?.mp hmem
  exact ⟨i, ⟨o, hi, rfl, hm⟩, fun j ⟨o', hj, hhosts', hm'⟩ =>
    position_unique hq hj hi hhosts' hm' hm⟩

end Matches

/-! ### Three persons in a room -/

/-- A room with three persons. -/
def threePersons : Bigraph :=
  ((Construction.new building).run [.root 0, .node "Room" "r", .nest 1 0, .node "Person" "x",
    .nest 2 1, .node "Person" "y", .nest 3 1, .node "Person" "z", .nest 4 1]).graph

/-- A room with two persons and whatever else it holds. -/
def somePair : Bigraph :=
  ((Construction.new building).run [.root 0, .node "Room" "r", .nest 1 0, .node "Person" "p",
    .nest 2 1, .node "Person" "q", .nest 3 1, .site 0, .nest 4 1]).graph

theorem constructible_threePersons : threePersons.Constructible := Bigraph.constructible_run (by decide)

theorem constructible_somePair : somePair.Constructible := Bigraph.constructible_run (by decide)

theorem plainNames_somePair : somePair.PlainNames :=
  Bigraph.plainNames_of_controls (by decide +kernel)

theorem filled_somePair (r : PlaceId) (hr : somePair.isRoot r) :
    ∃ c, somePair.isNode c ∧ somePair.parent c = some r := by
  have hmem : r ∈ somePair.roots := Bigraph.mem_roots.mpr hr
  rw [show somePair.roots = [0] by decide +kernel, List.mem_singleton] at hmem
  exact ⟨1, by rw [hmem]; decide +kernel⟩

/-- Of the six mappings, two each differ by an exchange of the two persons. -/
theorem occurrences_complete_threePersons : threePersons.Constructible ∧ somePair.Constructible ∧
    threePersons.signature = somePair.signature ∧ threePersons.isGround = true ∧
    somePair.PlainNames ∧ somePair.roots ≠ [] ∧ numberOfOccurrences {} threePersons somePair = 3 ∧
    ∃ ms hosts m, Matches.of {} threePersons somePair = .ok ms ∧ ms.problem.Occurs hosts m ∧
      ∃! i : Nat, ∃ o, ms.occurrences.toList[i]? = some o ∧ o.hosts = hosts ∧
        somePair.Interchanged m o.mapping := by
  have hcount : numberOfOccurrences {} threePersons somePair = 3 := by decide +kernel
  have hg : threePersons.isGround = true := by decide
  have hroots : somePair.roots ≠ [] := by decide +kernel
  obtain ⟨ms, hms, h⟩ := Matches.occurrences_complete {} rfl rfl constructible_threePersons
    constructible_somePair rfl hg plainNames_somePair hroots filled_somePair
  have hsignature : threePersons.signature = somePair.signature := rfl
  have heq : Matches.of {} threePersons somePair =
      .ok ((Problem.mk threePersons somePair hg).toMatches {}) := Matches.of_eq_ok hsignature hg
  rw [heq, Except.ok.injEq] at hms
  have hne : ms.occurrences.toList ≠ [] := by
    unfold numberOfOccurrences at hcount
    simp only [heq, hms] at hcount
    intro hnil
    rw [hnil] at hcount
    cases hcount
  obtain ⟨o, ho⟩ := List.exists_mem_of_ne_nil _ hne
  have hq := Matches.proper_of_constructible constructible_threePersons constructible_somePair rfl hg
  rw [← hms] at ho h
  have hoccurs := Matches.occurs_of_mem_occurrences hq ho
  exact ⟨constructible_threePersons, constructible_somePair, rfl, hg, plainNames_somePair, hroots, hcount,
    _, o.hosts, o.mapping, heq, hoccurs,
    h o.hosts o.mapping hoccurs fun _ => Matches.activeFrom_of_mem_occurrences hq rfl ho⟩

end Bigraphs
