import Bigraphs.Proofs.Matching.Activity
import Bigraphs.Proofs.Matching.Choices
import Bigraphs.Proofs.Matching.Soundness

/-! # What becomes of a candidate

A candidate is an assignment of hosts with an embedding below them. It occurs, so the agent can be taken
apart around it, and the one reason to refuse it is that its context is not active
(`occurrences_miss_only_passive`). That is settled by the hosts alone: the sites that are reported are
those for the roots whose hosts are at or below a node that is not active (`activity_of_hosts`). -/

namespace Bigraphs

namespace Problem

variable {q : Problem} {hosts : List PlaceId} {m : Mapping} {config free : MatchConfig}

/-- Whether the context is active is only asked at the end, of pieces that depend on the stem of the
names alone. -/
theorem decompose_of_stem (hstem : config.stem = free.stem) (hfree : free.requireActive = false) :
    q.decompose config hosts m = q.decompose free hosts m >>= fun pieces =>
      if config.requireActive && !pieces.context.inactiveSites.isEmpty then
        .error (.contextNotActive pieces.context.inactiveSites)
      else .ok pieces := by
  unfold decompose
  simp only [hstem, hfree, Bool.false_and, bind_assoc, Bool.false_eq_true, if_false, pure_bind]
  rfl

/-- **What occurs is taken apart,** and the roots whose hosts are not in the open are reported where the
context has to be active. -/
theorem exists_pieces (hq : q.Proper) (ho : q.Occurs hosts m) (hh : q.HostsIn hosts) (stem : String) :
    ∃ pieces, q.PassiveRoots hosts pieces.context.inactiveSites ∧
      ∀ config : MatchConfig, config.stem = stem → q.decompose config hosts m =
        if config.requireActive && !pieces.context.inactiveSites.isEmpty then
          .error (.contextNotActive pieces.context.inactiveSites)
        else .ok pieces := by
  let free : MatchConfig := { stem, requireActive := false }
  obtain ⟨pieces, context, parts, b, hanatomy, hdec⟩ := decompose_ok hq ho hh free
  have hok : q.decompose free hosts m = .ok pieces := hdec
  refine ⟨pieces, hanatomy.passiveRoots hq, fun config hstem => ?_⟩
  rw [decompose_of_stem (show config.stem = free.stem from hstem) rfl, hok]
  rfl

end Problem

namespace Matches

open Problem Bigraph

/-- The candidates below these assignments: each embedding with its hosts. -/
def candidates (ms : Matches) (assignments : List (List PlaceId)) : List (List PlaceId × Mapping) :=
  assignments.flatMap fun hosts =>
    ((ms.problem.embeddings ms.table ms.plan hosts).toList.filterMap (·.toOption)).map (hosts, ·)

/-- The agent is not taken apart around the candidate since its context is not active. -/
def refusesAsPassive (ms : Matches) (c : List PlaceId × Mapping) : Bool :=
  match ms.problem.decompose ms.config c.1 c.2 with
  | .error (.contextNotActive _) => true
  | _ => false

variable {q : Problem} {config : MatchConfig} {hosts : List PlaceId}

/-- **A candidate occurs.** -/
theorem occurs_of_candidate (hq : q.Proper) (hh : hosts ∈ (q.toMatches config).assignments.toList)
    {e : Except MatchError Mapping}
    (he : e ∈ (q.embeddings (q.toMatches config).table q.redex.plan hosts).toList) :
    ∃ m, e = .ok m ∧ q.Occurs hosts m := by
  obtain ⟨hin, hidle⟩ := of_mem_assignments hq hh
  have hlist := toList_embeddingsFrom (t := (q.toMatches config).table) hq.agent hq.redex
    hin.length_eq hin.lt_size (.nil q)
  have hmem := he
  unfold embeddings at hmem
  rw [hlist] at hmem
  obtain ⟨images, -, rfl⟩ := List.mem_map.mp hmem
  obtain ⟨images', hp, heq, hl, hd⟩ := mem_embeddings.mp he
  refine ⟨_, rfl, ?_⟩
  rw [heq] at hl ⊢
  exact occurs_of_placeable hq hin hp hidle hl hd

/-- **What becomes of the candidates below one assignment:** all of them are yielded but those whose
context is not active. -/
theorem map_occurrencesAt (hq : q.Proper) (hh : hosts ∈ (q.toMatches config).assignments.toList) :
    ((q.toMatches config).occurrencesAt hosts).toList.map (fun o => (o.hosts, o.mapping)) =
      ((q.toMatches config).candidates [hosts]).filter (!(q.toMatches config).refusesAsPassive ·) := by
  unfold occurrencesAt candidates
  rw [List.flatMap_singleton, LazyList.toList_filterMap, List.map_filterMap, List.map_filterMap,
    List.filter_filterMap]
  refine List.filterMap_congr fun e he => ?_
  obtain ⟨m, rfl, ho⟩ := occurs_of_candidate hq hh he
  obtain ⟨pieces, -, hdec⟩ := exists_pieces hq ho (of_mem_assignments hq hh).1 config.stem
  have hdec : (q.toMatches config).problem.decompose (q.toMatches config).config hosts m = _ :=
    hdec config rfl
  unfold occurrence? refusesAsPassive
  cases hactive : config.requireActive && !pieces.context.inactiveSites.isEmpty with
  | true => simp [hdec, hactive, Except.toOption, Option.filter_some]
  | false => simp [hdec, hactive, Except.toOption, Option.filter_some]

/-- The occurrences below the assignments that are explored, up to the limit. -/
theorem toList_occurrences (ms : Matches) :
    ms.occurrences.toList = cut ms.config.maxMatches
      ((cut ms.config.maxAssignments ms.assignments.toList).flatMap fun hosts =>
        (ms.occurrencesAt hosts).toList) := by
  unfold occurrences
  rw [LazyList.toList_upTo, LazyList.toList_flatMap, LazyList.toList_upTo]

/-- The candidates of the assignments that are explored, but those whose context is not active, up to
the limit. -/
theorem map_occurrences (hq : q.Proper) :
    (q.toMatches config).occurrences.toList.map (fun o => (o.hosts, o.mapping)) =
      cut config.maxMatches (((q.toMatches config).candidates
        (cut config.maxAssignments (q.toMatches config).assignments.toList)).filter
          (!(q.toMatches config).refusesAsPassive ·)) := by
  rw [toList_occurrences, LazyList.map_cut, List.map_flatMap]
  unfold candidates
  rw [List.filter_flatMap]
  refine congrArg (cut config.maxMatches) (List.flatMap_congr fun hosts hh => ?_)
  rw [map_occurrencesAt hq ((LazyList.cut_sublist _ _).subset hh)]
  unfold candidates
  rw [List.flatMap_singleton]

/-- **No candidate is lost.** The agent is taken apart around every candidate, or its context is not
active where it has to be: no piece is refused for any other reason. So the occurrences are the
candidates of the assignments that are explored, in order, but those whose context is not active, up to
the limit. -/
theorem occurrences_miss_only_passive (config : MatchConfig) {agent redex : Bigraph}
    (ha : agent.Constructible) (hr : redex.Constructible)
    (hs : agent.signature = redex.signature) (hg : agent.isGround = true) :
    ∃ ms, Matches.of config agent redex = .ok ms ∧
      (∀ hosts ∈ ms.assignments.toList,
        ∀ e ∈ (ms.problem.embeddings ms.table ms.plan hosts).toList, ∃ m, e = .ok m ∧
          ((∃ pieces, ms.problem.decompose config hosts m = .ok pieces) ∨
            config.requireActive = true ∧ ∃ sites,
              ms.problem.decompose config hosts m = .error (.contextNotActive sites))) ∧
      ms.occurrences.toList.map (fun o => (o.hosts, o.mapping)) =
        cut config.maxMatches ((ms.candidates
          (cut config.maxAssignments ms.assignments.toList)).filter (!ms.refusesAsPassive ·)) := by
  have hq := proper_of_constructible ha hr hs hg
  refine ⟨_, of_eq_ok hs hg, fun hosts hh e he => ?_, map_occurrences hq⟩
  obtain ⟨m, rfl, ho⟩ := occurs_of_candidate hq hh he
  obtain ⟨pieces, -, hdec⟩ := exists_pieces hq ho (of_mem_assignments hq hh).1 config.stem
  refine ⟨m, rfl, ?_⟩
  rw [show (Problem.toMatches _ config).problem.decompose config hosts m = _ from hdec config rfl]
  split
  next hpassive =>
    rw [Bool.and_eq_true] at hpassive
    exact Or.inr ⟨hpassive.1, _, rfl⟩
  next => exact Or.inl ⟨pieces, rfl⟩

/-- **Whether a context is active is settled by the hosts.** The same candidates are tried whether or not
the context has to be active. Around each of them the agent falls into the same pieces, and the inactive
sites of the context are those for the roots whose hosts are at or below a node that is not active;
where the context has to be active, the candidate is refused just when there is such a host, and these
sites are reported. -/
theorem activity_of_hosts (config : MatchConfig) {agent redex : Bigraph}
    (ha : agent.Constructible) (hr : redex.Constructible)
    (hs : agent.signature = redex.signature) (hg : agent.isGround = true) :
    ∃ ms, Matches.of config agent redex = .ok ms ∧
      (∀ b, Matches.of { config with requireActive := b } agent redex =
        .ok { ms with config := { config with requireActive := b } }) ∧
      ∀ hosts ∈ ms.assignments.toList,
        ∀ m, .ok m ∈ (ms.problem.embeddings ms.table ms.plan hosts).toList → ∃ pieces sites,
          ms.problem.decompose { config with requireActive := false } hosts m = .ok pieces ∧
          pieces.context.inactiveSites = sites ∧ ms.problem.PassiveRoots hosts sites ∧
          (sites ≠ [] ↔ ∃ h ∈ hosts, ∃ v c, agent.AboveEq v h ∧ agent.control v = some c ∧
            ¬ c.isActive) ∧
          ms.problem.decompose { config with requireActive := true } hosts m =
            if sites = [] then .ok pieces else .error (.contextNotActive sites) := by
  have hq := proper_of_constructible ha hr hs hg
  refine ⟨_, of_eq_ok hs hg, fun b => of_eq_ok hs hg, fun hosts hh m hm => ?_⟩
  obtain ⟨m', heq, ho⟩ := occurs_of_candidate hq hh hm
  cases heq
  have hin := (of_mem_assignments hq hh).1
  obtain ⟨pieces, hpassive, hdec⟩ := exists_pieces hq ho hin config.stem
  have hactive : _ = ite _ _ _ := hdec { config with requireActive := true } rfl
  refine ⟨pieces, _, hdec { config with requireActive := false } rfl, rfl, hpassive, ?_, ?_⟩
  · rw [ne_eq, hpassive.eq_nil_iff hin.length_eq]
    unfold ActiveFrom
    push Not
    rfl
  · refine hactive.trans ?_
    cases pieces.context.inactiveSites with
    | nil => rfl
    | cons i sites => rfl

end Matches

/-! ### Two persons, in rooms or in a safe -/

/-- Rooms are entered freely, what is in a safe stays there. -/
def bank : Signature :=
  ⟨[⟨"Person", 1, .atomic⟩, ⟨"Room", 1, .active⟩, ⟨"Safe", 0, .passive⟩], by decide⟩

/-- Two rooms with a person in each, and a safe with two persons. -/
def guardedPersons : Bigraph :=
  ((Construction.new bank).run [.root 0, .node "Room" "a", .nest 1 0, .node "Room" "b", .nest 2 0,
    .node "Safe" "s", .nest 3 0, .node "Person" "x", .nest 4 1, .node "Person" "y", .nest 5 2,
    .node "Person" "z", .nest 6 3, .node "Person" "w", .nest 7 3]).graph

/-- Two persons, wherever they are. -/
def personsApart : Bigraph :=
  ((Construction.new bank).run [.root 5, .root 2, .node "Person" "p", .nest 2 0, .node "Person" "q",
    .nest 3 1]).graph

theorem constructible_guardedPersons : guardedPersons.Constructible :=
  Bigraph.constructible_run (by decide)

theorem constructible_personsApart : personsApart.Constructible :=
  Bigraph.constructible_run (by decide)

theorem isGround_guardedPersons : guardedPersons.isGround = true := by decide

theorem signature_guardedPersons : guardedPersons.signature = personsApart.signature := rfl

theorem matches_guardedPersons (config : MatchConfig) :
    Matches.of config guardedPersons personsApart = .ok
      ((Problem.mk guardedPersons personsApart isGround_guardedPersons).toMatches config) :=
  Matches.of_eq_ok signature_guardedPersons isGround_guardedPersons

/-- Twelve candidates, of which two have an active context. -/
theorem occurrences_miss_only_passive_safe : guardedPersons.Constructible ∧
    personsApart.Constructible ∧ guardedPersons.signature = personsApart.signature ∧
    guardedPersons.isGround = true ∧ ∃ ms, Matches.of {} guardedPersons personsApart = .ok ms ∧
      (ms.candidates ms.assignments.toList).length = 12 ∧ ms.occurrences.toList.length = 2 ∧
      ms.occurrences.toList.map (fun o => (o.hosts, o.mapping)) =
        (ms.candidates ms.assignments.toList).filter (!ms.refusesAsPassive ·) := by
  obtain ⟨ms, hms, -, hall⟩ := Matches.occurrences_miss_only_passive {} constructible_guardedPersons
    constructible_personsApart signature_guardedPersons isGround_guardedPersons
  rw [matches_guardedPersons, Except.ok.injEq] at hms
  subst hms
  exact ⟨constructible_guardedPersons, constructible_personsApart, rfl, isGround_guardedPersons, _,
    matches_guardedPersons {}, by decide +kernel, by decide +kernel, hall⟩

/-- With both persons in the safe, both roots are reported. -/
theorem activity_of_hosts_safe : guardedPersons.Constructible ∧ personsApart.Constructible ∧
    guardedPersons.signature = personsApart.signature ∧ guardedPersons.isGround = true ∧
    ∃ ms, Matches.of {} guardedPersons personsApart = .ok ms ∧ [3, 3] ∈ ms.assignments.toList ∧
      .ok [(3, 6), (2, 7)] ∈ (ms.problem.embeddings ms.table ms.plan [3, 3]).toList ∧
      ms.problem.PassiveRoots [3, 3] [2, 5] ∧
      ms.problem.decompose {} [3, 3] [(3, 6), (2, 7)] = .error (.contextNotActive [2, 5]) := by
  obtain ⟨ms, hms, -, hall⟩ := Matches.activity_of_hosts {} constructible_guardedPersons
    constructible_personsApart signature_guardedPersons isGround_guardedPersons
  rw [matches_guardedPersons, Except.ok.injEq] at hms
  subst hms
  let q : Problem := ⟨guardedPersons, personsApart, isGround_guardedPersons⟩
  have hhosts : [3, 3] ∈ (q.toMatches {}).assignments.toList := by decide +kernel
  have hm : .ok [(3, 6), (2, 7)] ∈ ((q.toMatches {}).problem.embeddings (q.toMatches {}).table
      (q.toMatches {}).plan [3, 3]).toList := by decide +kernel
  obtain ⟨pieces, sites, hfree, hsites, hpassive, -, hactive⟩ := hall [3, 3] hhosts _ hm
  have hreport : (q.decompose { requireActive := false } [3, 3] [(3, 6), (2, 7)]).toOption.map
      (·.context.inactiveSites) = some [2, 5] := by decide +kernel
  rw [show q.decompose { requireActive := false } [3, 3] [(3, 6), (2, 7)] = .ok pieces from hfree,
    show (Except.ok pieces : Except MatchError Decomposition).toOption = some pieces from rfl,
    Option.map_some, hsites, Option.some.injEq] at hreport
  subst hreport
  rw [if_neg (by decide)] at hactive
  exact ⟨constructible_guardedPersons, constructible_personsApart, rfl, isGround_guardedPersons, _,
    matches_guardedPersons {}, hhosts, hm, hpassive, hactive⟩

end Bigraphs
