import Bigraphs.Matching.Pass
import Bigraphs.Proofs.Matching.Candidates
import Bigraphs.Proofs.Matching.Cursor
import Bigraphs.Proofs.Matching.Odometer
import Bigraphs.Proofs.Matching.Pieces

/-! # What a pass hands out

A pass has a stage: the candidates that are left below the hosts it explores, and the assignments that
come after them (`Stage`). Within the limits, this says which occurrences are left (`left`). A call
goes through the candidates until one of them occurs, and takes up the next assignment when there is none
left (`Stage.answered`): by induction on the assignments, and below one assignment on its candidates.
So a pass hands out the occurrences of the lazy list (`handsOut_start`).

Two passes with other settings differ in what they leave out only: the candidates are the same, and around
each of them the agent falls into the same pieces. Hence every pass can be read off the pass without
limits, in which nothing has to be active (`settings_filter_and_cut`). -/

namespace Bigraphs

/-! ### Limits, counted down -/

/-- The first elements of `l`, as many as the limit allows after `n` others. -/
def cutAfter {α : Type} (limit : Option Nat) (n : Nat) (l : List α) : List α :=
  cut (limit.map (· - n)) l

section Limits
variable {α : Type} {limit : Option Nat} {n : Nat}

theorem cutAfter_zero (limit : Option Nat) (l : List α) : cutAfter limit 0 l = cut limit l := by
  cases limit <;> rfl

theorem cutAfter_nil (limit : Option Nat) (n : Nat) : cutAfter limit n ([] : List α) = [] := by
  cases limit with
  | none => rfl
  | some k => exact List.take_nil

theorem cutAfter_of_reached (h : reached limit n = true) (l : List α) : cutAfter limit n l = [] := by
  cases limit with
  | none => cases h
  | some k =>
    have hle : k ≤ n := of_decide_eq_true h
    unfold cutAfter
    rw [Option.map_some, Nat.sub_eq_zero_of_le hle, LazyList.cut_some, List.take_zero]

theorem cutAfter_cons (h : reached limit n = false) (a : α) (l : List α) :
    cutAfter limit n (a :: l) = a :: cutAfter limit (n + 1) l := by
  cases limit with
  | none => rfl
  | some k =>
    have hlt : ¬ k ≤ n := of_decide_eq_false h
    unfold cutAfter
    rw [Option.map_some, Option.map_some, show k - n = k - (n + 1) + 1 by omega, LazyList.cut_some,
      LazyList.cut_some, List.take_succ_cons]

end Limits

namespace Matches

open Problem

/-- The occurrence around a candidate, if the agent can be taken apart around it. -/
def occurrenceOf? (ms : Matches) (c : List PlaceId × Mapping) : Option Occurrence :=
  ms.problem.occurrence? ms.config c.1 c.2

theorem toList_occurrencesAt (ms : Matches) (hosts : List PlaceId) :
    (ms.occurrencesAt hosts).toList = (ms.candidates [hosts]).filterMap ms.occurrenceOf? := by
  unfold occurrencesAt candidates
  rw [List.flatMap_singleton, LazyList.toList_filterMap, List.filterMap_map, List.filterMap_filterMap]
  refine List.filterMap_congr fun e _ => ?_
  cases e <;> rfl

theorem candidates_cons (ms : Matches) (hosts : List PlaceId) (assignments : List (List PlaceId)) :
    ms.candidates (hosts :: assignments) = ms.candidates [hosts] ++ ms.candidates assignments := by
  unfold candidates
  rw [List.flatMap_cons, List.flatMap_singleton]

theorem flatMap_occurrencesAt (ms : Matches) (assignments : List (List PlaceId)) :
    assignments.flatMap (fun hosts => (ms.occurrencesAt hosts).toList) =
      (ms.candidates assignments).filterMap ms.occurrenceOf? := by
  induction assignments with
  | nil => rfl
  | cons hosts assignments ih =>
    rw [List.flatMap_cons, ih, candidates_cons, List.filterMap_append, toList_occurrencesAt]

/-! ### Stages -/

/-- **A stage of a pass:** the candidates `here` are left below the hosts that are explored, and the
assignments `later` come after them. -/
structure Stage (ms : Matches) (p : Pass) (here : List (List PlaceId × Mapping))
    (later : List (List PlaceId)) : Prop where
  idle : p.current = none → here = []
  exploring : ∀ hosts c, p.current = some (hosts, c) → ∃ maps, here = maps.map (hosts, ·) ∧
    HandsOut (Cursor.next ms.problem ms.table ms.plan hosts) c maps
  odometer : HandsOut Odometer.next p.odometer later
  assigned : ∀ hosts ∈ later, hosts ∈ ms.assignments.toList

/-- The occurrences that are left at a stage, within the limits. -/
def left (ms : Matches) (p : Pass) (here : List (List PlaceId × Mapping))
    (later : List (List PlaceId)) : List Occurrence :=
  cutAfter ms.config.maxMatches p.yielded
    ((here ++ ms.candidates (cutAfter ms.config.maxAssignments p.explored later)).filterMap
      ms.occurrenceOf?)

/-- The occurrences `os` are left at the stage of the pass. -/
def Left (ms : Matches) (p : Pass) (os : List Occurrence) : Prop :=
  ∃ here later, ms.Stage p here later ∧ os = ms.left p here later

/-- The next call answers with the first of `os`, and the others are left after it. -/
def Answered (ms : Matches) (p : Pass) (os : List Occurrence) : Prop :=
  ∃ p', ms.next p = some (os.head?, p') ∧ ms.Left p' os.tail

/-- The search below the hosts of an assignment hands out the candidates. -/
def Searches (ms : Matches) : Prop :=
  ∀ hosts ∈ ms.assignments.toList, ∃ maps, ms.candidates [hosts] = maps.map (hosts, ·) ∧
    HandsOut (Cursor.next ms.problem ms.table ms.plan hosts) .start maps

variable {ms : Matches} {p p' : Pass} {here : List (List PlaceId × Mapping)}
  {later : List (List PlaceId)}

/-- The first candidate that is left is looked at, whatever the limits. -/
theorem Stage.candidate (hp : ms.Stage p here later) :
    ∃ p', ms.candidate p = some (here.head?, p') ∧ ms.Stage p' here.tail later ∧
      p'.explored = p.explored ∧ p'.yielded = p.yielded := by
  unfold Matches.candidate
  cases hcurrent : p.current with
  | none =>
    obtain rfl := hp.idle hcurrent
    exact ⟨p, rfl, hp, rfl, rfl⟩
  | some current =>
    obtain ⟨hosts, c⟩ := current
    obtain ⟨maps, rfl, hmaps⟩ := hp.exploring hosts c hcurrent
    obtain ⟨c', hnext, htail⟩ := hmaps.exists_next
    simp only [hnext]
    cases maps with
    | nil => exact ⟨_, rfl, ⟨fun _ => rfl, nofun, hp.odometer, hp.assigned⟩, rfl, rfl⟩
    | cons m maps =>
      refine ⟨_, rfl, ⟨nofun, fun hosts' d heq => ?_, hp.odometer, hp.assigned⟩, rfl, rfl⟩
      cases heq
      exact ⟨maps, rfl, htail⟩

/-- With no candidate left, an assignment is taken up, and its candidates are left; if there is none
within the limit, there will be none. -/
theorem Stage.explore (hs : ms.Searches) (hp : ms.Stage p [] later) :
    (cutAfter ms.config.maxAssignments p.explored later = [] ∧
      ∃ p', ms.explore p = some (none, p') ∧ ms.Stage p' [] later ∧ p'.explored = p.explored) ∨
    ∃ hosts more p', later = hosts :: more ∧ ms.explore p = some (some hosts, p') ∧
      ms.Stage p' (ms.candidates [hosts]) more ∧ p'.yielded = p.yielded ∧
      cutAfter ms.config.maxAssignments p.explored later =
        hosts :: cutAfter ms.config.maxAssignments p'.explored more := by
  unfold Matches.explore
  cases hlimit : reached ms.config.maxAssignments p.explored with
  | true => exact Or.inl ⟨cutAfter_of_reached hlimit later, p, rfl, hp, rfl⟩
  | false =>
    -- the odometer is only asked within the limit, so what it has left stays in step with `later`
    obtain ⟨odometer, hnext, htail⟩ := hp.odometer.exists_next
    simp only [hnext, Bool.false_eq_true, if_false]
    cases later with
    | nil =>
      exact Or.inl ⟨cutAfter_nil _ _, _, rfl, ⟨fun _ => rfl, hp.exploring, htail, hp.assigned⟩, rfl⟩
    | cons hosts more =>
      refine Or.inr ⟨hosts, more, _, rfl, rfl, ⟨nofun, fun hosts' c heq => ?_, htail,
        fun hosts' hm => hp.assigned hosts' (List.mem_cons_of_mem _ hm)⟩, rfl,
        cutAfter_cons hlimit hosts more⟩
      cases heq
      exact hs hosts (hp.assigned hosts (List.mem_cons_self ..))

/-! ### One call -/

/-- The next candidate is passed over if the agent cannot be taken apart around it. -/
theorem next_of_candidate {c : List PlaceId × Mapping}
    (hlimit : reached ms.config.maxMatches p.yielded = false)
    (hc : ms.candidate p = some (some c, p')) :
    ms.next p = match ms.occurrenceOf? c with
      | some o => some (some o, { p' with yielded := p'.yielded + 1 })
      | none => ms.next p' := by
  rw [Matches.next, hlimit, hc]
  rfl

/-- With no candidate left, a call is settled by the next assignment. -/
theorem next_of_explore {hosts : Option (List PlaceId)} {p'' : Pass}
    (hlimit : reached ms.config.maxMatches p.yielded = false)
    (hc : ms.candidate p = some (none, p')) (he : ms.explore p' = some (hosts, p'')) :
    ms.next p = if hosts.isSome then ms.next p'' else some (none, p'') := by
  rw [Matches.next, hlimit, hc, if_neg Bool.false_ne_true]
  simp only
  rw [he]
  cases hosts <;> rfl

theorem Stage.answered_of_left_eq_nil (hp : ms.Stage p here later) (hleft : ms.left p here later = [])
    (hnext : ms.next p = some (none, p)) : ms.Answered p (ms.left p here later) := by
  rw [hleft]
  exact ⟨p, hnext, here, later, hp, hleft.symm⟩

/-- A call goes through the candidates that are left, if it goes on when there is none. -/
theorem Stage.answered_of_candidates
    (hnone : ∀ p, ms.Stage p [] later → ms.Answered p (ms.left p [] later))
    (hp : ms.Stage p here later) : ms.Answered p (ms.left p here later) := by
  induction here generalizing p with
  | nil => exact hnone p hp
  | cons c here ih =>
    cases hlimit : reached ms.config.maxMatches p.yielded with
    | true =>
      have hleft : ms.left p (c :: here) later = [] := cutAfter_of_reached hlimit _
      refine hp.answered_of_left_eq_nil hleft ?_
      rw [Matches.next, if_pos hlimit]
    | false =>
      obtain ⟨p', hcandidate, hp', hexplored, hyielded⟩ := hp.candidate
      have hnext := next_of_candidate hlimit hcandidate
      cases ho : ms.occurrenceOf? c with
      | none =>
        -- what is passed over counts neither as yielded nor as explored
        have hleft : ms.left p (c :: here) later = ms.left p' here later := by
          unfold left
          rw [List.cons_append, List.filterMap_cons_none ho, hexplored, hyielded]
        rw [hleft]
        rw [ho] at hnext
        unfold Answered
        rw [hnext]
        exact ih hp'
      | some o =>
        have hleft : ms.left p (c :: here) later =
            o :: ms.left { p' with yielded := p'.yielded + 1 } here later := by
          unfold left
          rw [List.cons_append, List.filterMap_cons_some ho, cutAfter_cons hlimit, hexplored, hyielded]
        rw [ho] at hnext
        rw [hleft]
        exact ⟨_, hnext, here, later, ⟨hp'.idle, hp'.exploring, hp'.odometer, hp'.assigned⟩, rfl⟩

/-- A call takes up the next assignment, if it goes on with the candidates of that. -/
theorem Stage.answered_of_assignments (hs : ms.Searches)
    (hmore : ∀ hosts more, later = hosts :: more → ∀ p here, ms.Stage p here more →
      ms.Answered p (ms.left p here more))
    (hp : ms.Stage p [] later) : ms.Answered p (ms.left p [] later) := by
  cases hlimit : reached ms.config.maxMatches p.yielded with
  | true =>
    have hleft : ms.left p [] later = [] := cutAfter_of_reached hlimit _
    refine hp.answered_of_left_eq_nil hleft ?_
    rw [Matches.next, if_pos hlimit]
  | false =>
    obtain ⟨p₁, hcandidate, hp₁, hexplored, hyielded⟩ := hp.candidate
    rcases hp₁.explore hs with
      ⟨hwithin, p₂, hexplore, hp₂, hexplored'⟩ |
      ⟨hosts, more, p₂, heq, hexplore, hp₂, hyielded', hwithin⟩
    · have hnil : ∀ p', p'.explored = p₁.explored → ms.left p' [] later = [] := by
        intro p' h
        unfold left
        rw [h, hwithin]
        exact cutAfter_nil _ _
      rw [hnil p hexplored.symm]
      exact ⟨p₂, next_of_explore hlimit hcandidate hexplore, [], later, hp₂, (hnil p₂ hexplored').symm⟩
    · have hleft : ms.left p [] later = ms.left p₂ (ms.candidates [hosts]) more := by
        unfold left
        rw [hyielded', hyielded, ← hexplored, hwithin, candidates_cons, List.nil_append]
      have hnext : ms.next p = ms.next p₂ := next_of_explore hlimit hcandidate hexplore
      rw [hleft]
      unfold Answered
      rw [hnext]
      exact hmore hosts more heq p₂ _ hp₂

/-- **A call answers with the first occurrence that is left,** and the others are left after it. -/
theorem Stage.answered (hs : ms.Searches) (hp : ms.Stage p here later) :
    ms.Answered p (ms.left p here later) := by
  induction later generalizing p here with
  | nil => exact hp.answered_of_candidates fun p hp => hp.answered_of_assignments hs nofun
  | cons hosts later ih =>
    refine hp.answered_of_candidates fun p hp => hp.answered_of_assignments hs fun _ _ heq p here hp => ?_
    cases heq
    exact ih hp

/-! ### All calls -/

variable {q : Problem}

theorem searches (hq : q.Proper) (config : MatchConfig) : (q.toMatches config).Searches := by
  intro hosts hh
  have hin := (of_mem_assignments hq hh).1
  refine ⟨_, ?_, Cursor.handsOut_embeddings hq.agent hq.redex hin.length_eq hin.lt_size⟩
  unfold candidates
  rw [List.flatMap_singleton]
  rfl

/-- **A pass hands out the occurrences,** in order, and nothing after them. -/
theorem handsOut_start (hq : q.Proper) (config : MatchConfig) :
    HandsOut (q.toMatches config).next (q.toMatches config).start
      (q.toMatches config).occurrences.toList := by
  have hstart : (q.toMatches config).Left (q.toMatches config).start
      (q.toMatches config).occurrences.toList := by
    refine ⟨[], (q.toMatches config).assignments.toList,
      ⟨fun _ => rfl, nofun, Odometer.handsOut_new _ _, fun _ h => h⟩, ?_⟩
    unfold left
    rw [toList_occurrences, flatMap_occurrencesAt, List.nil_append]
    simp only [start, cutAfter_zero]
  refine .of_left (fun p os h => ?_) hstart
  obtain ⟨here, later, hp, rfl⟩ := h
  exact hp.answered (searches hq config)

/-! ### Other settings -/

/-- The occurrence is yielded under these settings: its context is active where it has to be. -/
def keeps (config : MatchConfig) (o : Occurrence) : Bool :=
  !config.requireActive || o.pieces.context.isActive

/-- **The blocks:** the occurrences with the same hosts, for one assignment after the other. -/
def blocks (ms : Matches) : List (List Occurrence) :=
  ms.assignments.toList.map fun hosts => ms.occurrences.toList.filter (·.hosts = hosts)

variable {config free : MatchConfig}

/-- **Whether it is yielded is settled by its hosts.** -/
theorem keeps_iff (hq : q.Proper) {o : Occurrence} (ho : o ∈ (q.toMatches free).occurrences.toList) :
    keeps config o = true ↔ (config.requireActive = true → ∀ h ∈ o.hosts, q.agent.ActiveFrom h) := by
  obtain ⟨hin, -, context, parts, b, hanatomy⟩ := anatomy_of_mem_occurrences hq ho
  rw [← hanatomy.inactiveSites_eq_nil_iff hq hin.length_eq]
  unfold keeps
  rw [Bigraph.isActive_eq_isEmpty, ← List.isEmpty_iff]
  cases config.requireActive <;> simp

theorem hosts_of_mem_occurrencesAt {hosts : List PlaceId} {o : Occurrence}
    (ho : o ∈ (ms.occurrencesAt hosts).toList) : o.hosts = hosts := by
  unfold occurrencesAt at ho
  rw [LazyList.toList_filterMap, List.mem_filterMap] at ho
  obtain ⟨e, -, he⟩ := ho
  cases e with
  | error e => cases he
  | ok m => exact (of_occurrence?_eq_some he).1

/-- Without limits there is a block for each assignment, with all the occurrences below its hosts. -/
theorem blocks_eq (hmatches : ms.config.maxMatches = none)
    (hassignments : ms.config.maxAssignments = none) :
    ms.blocks = ms.assignments.toList.map fun hosts => (ms.occurrencesAt hosts).toList := by
  unfold blocks
  rw [toList_occurrences, hmatches, hassignments]
  refine List.map_congr_left fun hosts hh => ?_
  exact filter_flatMap_of_key (nodup_assignments (nodup_hitsByVertex _))
    (fun _ _ => hosts_of_mem_occurrencesAt) hh

/-- What has to be active decides which candidates are left out, not what the others are. -/
theorem occurrence?_of_stem (hstem : config.stem = free.stem) (hfree : free.requireActive = false)
    (hosts : List PlaceId) (m : Mapping) :
    q.occurrence? config hosts m = (q.occurrence? free hosts m).filter (keeps config) := by
  have hdec : q.decompose config hosts m = _ := decompose_of_stem hstem hfree
  cases hd : q.decompose free hosts m with
  | error e =>
    rw [hd] at hdec
    unfold occurrence?
    rw [hd, show q.decompose config hosts m = .error e from hdec]
    rfl
  | ok pieces =>
    rw [hd] at hdec
    have hdec : q.decompose config hosts m =
        if config.requireActive && !pieces.context.inactiveSites.isEmpty then
          .error (.contextNotActive pieces.context.inactiveSites)
        else .ok pieces := hdec
    unfold occurrence? keeps
    rw [hd, hdec, Option.filter_some, Bigraph.isActive_eq_isEmpty]
    cases config.requireActive <;> cases pieces.context.inactiveSites.isEmpty <;> rfl

theorem toList_occurrencesAt_of_stem (hstem : config.stem = free.stem)
    (hfree : free.requireActive = false) (hosts : List PlaceId) :
    ((q.toMatches config).occurrencesAt hosts).toList =
      ((q.toMatches free).occurrencesAt hosts).toList.filter (keeps config) := by
  unfold occurrencesAt
  rw [LazyList.toList_filterMap, LazyList.toList_filterMap, List.filter_filterMap]
  refine List.filterMap_congr fun e _ => ?_
  cases e with
  | error e => rfl
  | ok m => exact occurrence?_of_stem hstem hfree hosts m

theorem toList_occurrences_of_stem (hstem : config.stem = free.stem)
    (hfree : free.requireActive = false) (hmatches : free.maxMatches = none)
    (hassignments : free.maxAssignments = none) :
    (q.toMatches config).occurrences.toList = cut config.maxMatches
      ((cut config.maxAssignments (q.toMatches free).blocks).flatMap (·.filter (keeps config))) := by
  rw [toList_occurrences, blocks_eq hmatches hassignments, ← LazyList.map_cut, List.flatMap_map]
  exact congrArg (cut _)
    (List.flatMap_congr fun hosts _ => toList_occurrencesAt_of_stem hstem hfree hosts)

/-- **The settings only filter and cut.** Take the pass without limits in which nothing has to be active:
it hands out its blocks, one for each assignment that the odometer hands out. Under any settings with the
same stem, the pass hands out the blocks within the limit on assignments, each without the occurrences
whose context is not active where it has to be, up to the limit on matches; and then nothing, for ever.
A context is active just when all nodes at and above the hosts are. -/
theorem settings_filter_and_cut (stem : String) {agent redex : Bigraph}
    (ha : agent.Constructible) (hr : redex.Constructible)
    (hs : agent.signature = redex.signature) (hg : agent.isGround = true) :
    ∃ free, Matches.of ⟨stem, false, none, none⟩ agent redex = .ok free ∧
      HandsOut Odometer.next free.start.odometer free.assignments.toList ∧
      HandsOut free.next free.start free.occurrences.toList ∧
      free.blocks.flatten = free.occurrences.toList ∧
      (∀ config, ∀ o ∈ free.occurrences.toList, keeps config o = true ↔
        (config.requireActive = true → ∀ h ∈ o.hosts, agent.ActiveFrom h)) ∧
      ∀ config : MatchConfig, config.stem = stem →
        ∃ ms, Matches.of config agent redex = .ok ms ∧ ms = { free with config := config } ∧
          HandsOut ms.next ms.start (cut config.maxMatches
            ((cut config.maxAssignments free.blocks).flatMap (·.filter (keeps config)))) := by
  have hq := proper_of_constructible ha hr hs hg
  refine ⟨_, of_eq_ok hs hg, Odometer.handsOut_new _ _, handsOut_start hq _, ?_,
    fun config o ho => keeps_iff hq ho, fun config hstem => ⟨_, of_eq_ok hs hg, rfl, ?_⟩⟩
  · rw [blocks_eq rfl rfl, toList_occurrences]
    exact List.flatMap_def.symm
  · rw [← toList_occurrences_of_stem hstem rfl rfl rfl]
    exact handsOut_start hq config

end Matches

/-- Of the first four blocks, with four occurrences, two occurrences are asked for. The one that comes
second has a host in the safe: where the context has to be active, the other one outside takes its place. -/
theorem settings_filter_and_cut_safe : guardedPersons.Constructible ∧ personsApart.Constructible ∧
    guardedPersons.signature = personsApart.signature ∧ guardedPersons.isGround = true ∧
    ∃ free, Matches.of ⟨"y", false, none, none⟩ guardedPersons personsApart = .ok free ∧
      free.blocks.map (·.length) = [0, 1, 2, 1, 0, 2, 2, 2, 2] ∧
      (∃ ms os, Matches.of ⟨"y", false, some 2, some 4⟩ guardedPersons personsApart = .ok ms ∧
        HandsOut ms.next ms.start os ∧ os.map (·.hosts) = [[1, 2], [1, 3]]) ∧
      ∃ ms os, Matches.of ⟨"y", true, some 2, some 4⟩ guardedPersons personsApart = .ok ms ∧
        HandsOut ms.next ms.start os ∧ os.map (·.hosts) = [[1, 2], [2, 1]] := by
  obtain ⟨free, hfree, -, -, -, -, hall⟩ := Matches.settings_filter_and_cut "y"
    constructible_guardedPersons constructible_personsApart signature_guardedPersons
    isGround_guardedPersons
  rw [matches_guardedPersons, Except.ok.injEq] at hfree
  subst hfree
  obtain ⟨ms, hms, -, hany⟩ := hall ⟨"y", false, some 2, some 4⟩ rfl
  obtain ⟨ms', hms', -, hactive⟩ := hall ⟨"y", true, some 2, some 4⟩ rfl
  rw [Matches.blocks_eq rfl rfl] at hany hactive
  refine ⟨constructible_guardedPersons, constructible_personsApart, rfl, isGround_guardedPersons, _,
    matches_guardedPersons _, ?_, ⟨ms, _, hms, hany, ?_⟩, ms', _, hms', hactive, ?_⟩
  · rw [Matches.blocks_eq rfl rfl]
    decide +kernel
  · decide +kernel
  · decide +kernel

end Bigraphs
