import Bigraphs.Loop
import Bigraphs.Proofs.Matching.Choices
import Bigraphs.Proofs.Matching.Completeness

/-! # What the cursor hands out

Between two rounds the cursor is determined by its open frames and the images chosen so far (`mid`). A
round closes the last frame (`round_close`), or it chooses a candidate (`round_choose`) and then opens a
frame for the next step or checks a complete mapping (`choose_mid`). So from an opened frame the rounds
find the mappings of all placements that go on from there, in order, and end when the frame is closed
(`run_frame`): by induction on the steps after it, and for one step by induction on the candidates not
looked at yet.

Calls hand out what the rounds find, and nothing after that (`Run.handsOut`). -/

namespace Bigraphs

open Problem

/-! ### Frames -/

/-- The candidates not looked at yet that can be chosen. -/
def Frame.todo (chosen : List PlaceId) (s : PlanStep) (f : Frame) : List PlaceId :=
  (f.candidates.drop f.next).filter (isAllowed chosen s)

theorem Frame.todo_of_lt {chosen : List PlaceId} {s : PlanStep} {f : Frame}
    (h : f.next < f.candidates.length) :
    f.todo chosen s = if isAllowed chosen s f.candidates[f.next] then
      f.candidates[f.next] :: ({ f with next := f.next + 1 } : Frame).todo chosen s
      else ({ f with next := f.next + 1 } : Frame).todo chosen s := by
  unfold todo
  rw [List.drop_eq_getElem_cons h, List.filter_cons]

/-- What is picked from a frame is the first of the candidates that can be chosen. -/
theorem Frame.pick_spec {chosen used : List PlaceId} {s : PlanStep} {floor : Option PlaceId}
    (hallowed : ∀ y, (y ∉ used && floor.all (· < y)) = isAllowed chosen s y) (f : Frame) :
    (f.todo chosen s = [] → (f.pick used floor).1 = none) ∧
      ∀ y more, f.todo chosen s = y :: more →
        ∃ f', f.pick used floor = (some y, f') ∧ f'.todo chosen s = more := by
  fun_induction Frame.pick used floor f with
  | case1 f h c f' hc =>
    rw [hallowed] at hc
    rw [Frame.todo_of_lt h, if_pos hc]
    exact ⟨fun h => by simp at h, fun y more heq => by cases heq; exact ⟨f', rfl, rfl⟩⟩
  | case2 f h c f' hc ih =>
    rw [hallowed] at hc
    rw [Frame.todo_of_lt h, if_neg hc]
    exact ih
  | case3 f h =>
    have hnil : f.todo chosen s = [] := by
      unfold todo
      rw [List.drop_eq_nil_of_le (Nat.not_lt.mp h), List.filter_nil]
    rw [hnil]
    exact ⟨fun _ => rfl, fun y more h => by simp at h⟩

namespace Cursor

/-! ### Cursors between two rounds -/

/-- The cursor with these open frames and these images. -/
def mid (frames : List Frame) (images : List PlaceId) : Cursor :=
  ⟨frames, images, images.reverse, true, false⟩

/-- The images are `chosen`, or there is one more of them. -/
def BackAt (chosen images : List PlaceId) : Prop :=
  images = chosen ∨ ∃ y, y ∉ chosen ∧ images = chosen ++ [y]

theorem takeBack_mid {chosen images : List PlaceId} (h : BackAt chosen images)
    (frames : List Frame) : (mid frames images).takeBack chosen.length = mid frames chosen := by
  unfold takeBack mid
  rcases h with rfl | ⟨y, hy, rfl⟩
  · simp
  · have hfilter : chosen.reverse.filter (· ≠ y) = chosen.reverse := by
      refine List.filter_eq_self.mpr fun z hz => ?_
      rw [decide_eq_true_eq]
      rintro rfl
      exact hy (List.mem_reverse.mp hz)
    simpa using hfilter

variable {q : Problem} {t : Table} {hosts chosen images : List PlaceId} {s : PlanStep}
  {rest : List PlanStep} {below : List Frame} {f : Frame}

theorem openFrame_mid (hlen : hosts.length = q.redex.roots.length)
    (hh : ∀ h ∈ hosts, h < q.agent.places.size) (hb : q.Begun chosen (s :: rest))
    (frames : List Frame) :
    openFrame q t q.redex.plan hosts chosen.length (mid frames chosen) =
      some (mid (frames ++ [⟨q.playersAt t hosts chosen s, 0⟩]) chosen) := by
  obtain ⟨p, hp, hlt⟩ := hb.anchor hlen hh
  unfold openFrame playersAt
  rw [hb.getElem?]
  simp [mid, hp, hlt]

/-! ### Rounds -/

theorem choose_mid (hbelow : below.length = chosen.length) (f' : Frame) (y : PlaceId) :
    choose q t q.redex.plan hosts chosen.length y f' (mid (below ++ [f]) chosen) =
      if chosen.length + 1 < q.redex.plan.length then
        (openFrame q t q.redex.plan hosts (chosen.length + 1)
          (mid (below ++ [f']) (chosen ++ [y]))).map (.again, ·)
      else (passes q q.redex.plan hosts (chosen ++ [y])).map fun passed =>
        (if passed then .found (mappingOf q.redex.plan (chosen ++ [y])) else .again,
          mid (below ++ [f']) (chosen ++ [y])) := by
  unfold choose
  simp [mid, ← hbelow]

/-- A round picks a candidate for the step after `chosen`, from the last frame. -/
theorem round_mid (hb : q.Begun chosen (s :: rest)) (hback : BackAt chosen images)
    (hbelow : below.length = chosen.length) :
    round q t q.redex.plan hosts (mid (below ++ [f]) images) =
      match f.pick chosen.reverse (s.twin.bind (chosen[·]?)) with
      | (none, _) => some (.again, mid below chosen)
      | (some y, f') =>
        choose q t q.redex.plan hosts chosen.length y f' (mid (below ++ [f]) chosen) := by
  have hdepth : (mid (below ++ [f]) images).frames.length - 1 = chosen.length := by
    simp [mid, hbelow]
  have hframe : (mid (below ++ [f]) chosen).frames[chosen.length]? = some f := by
    simp [mid, ← hbelow]
  have hfloor : floor (mid (below ++ [f]) chosen).chosen s = some (s.twin.bind (chosen[·]?)) := hb.floor
  have hnonempty : (mid (below ++ [f]) images).frames.isEmpty = false := by simp [mid]
  unfold round
  simp only [hnonempty, Bool.false_eq_true, if_false, hdepth, takeBack_mid hback, hb.getElem?,
    Option.bind_eq_bind, Option.bind_some, hframe, hfloor]
  change (match f.pick chosen.reverse (s.twin.bind (chosen[·]?)) with
    | (none, _) => _
    | (some y, f') => _) = _
  rcases f.pick chosen.reverse (s.twin.bind (chosen[·]?)) with ⟨_ | y, f'⟩
  · simp [mid]
  · rfl

/-- What is picked is the first of the candidates that can be chosen. -/
theorem pick_mid (chosen : List PlaceId) (s : PlanStep) (f : Frame) :
    (f.todo chosen s = [] → (f.pick chosen.reverse (s.twin.bind (chosen[·]?))).1 = none) ∧
      ∀ y more, f.todo chosen s = y :: more → ∃ f',
        f.pick chosen.reverse (s.twin.bind (chosen[·]?)) = (some y, f') ∧
          f'.todo chosen s = more := by
  refine Frame.pick_spec (fun y => ?_) f
  unfold isAllowed
  simp only [List.mem_reverse]
  cases s.twin.bind (chosen[·]?) <;> rfl

section Rounds
variable (hb : q.Begun chosen (s :: rest)) (hback : BackAt chosen images)
  (hbelow : below.length = chosen.length)
include hb hback hbelow

/-- A frame without further candidates is closed. -/
theorem round_close (hf : f.todo chosen s = []) :
    round q t q.redex.plan hosts (mid (below ++ [f]) images) = some (.again, mid below chosen) := by
  have hpick := (pick_mid chosen s f).1 hf
  rw [round_mid hb hback hbelow]
  split
  next => rfl
  next heq => rw [heq] at hpick; cases hpick

/-- The next candidate is chosen. -/
theorem round_choose (t : Table) (hosts : List PlaceId) {y : PlaceId} {more : List PlaceId}
    (hf : f.todo chosen s = y :: more) :
    ∃ f', f'.todo chosen s = more ∧
      round q t q.redex.plan hosts (mid (below ++ [f]) images) =
        choose q t q.redex.plan hosts chosen.length y f' (mid (below ++ [f]) chosen) := by
  obtain ⟨f', hpick, hmore⟩ := (pick_mid chosen s f).2 y more hf
  exact ⟨f', hmore, by rw [round_mid hb hback hbelow, hpick]⟩

end Rounds

/-! ### Runs -/

/-- The search is under way. -/
def IsSearching (c : Cursor) : Prop := c.started = true ∧ c.exhausted = false

theorem isSearching_mid (frames : List Frame) (images : List PlaceId) :
    (mid frames images).IsSearching := ⟨rfl, rfl⟩

/-- Rounds that lead from one cursor to another, and the mappings found on the way. -/
inductive Run (q : Problem) (t : Table) (plan : List PlanStep) (hosts : List PlaceId) :
    Cursor → List Mapping → Cursor → Prop
  | refl (c : Cursor) : Run q t plan hosts c [] c
  | again {c d e : Cursor} {ms : List Mapping} (hc : c.IsSearching)
      (h : round q t plan hosts c = some (.again, d)) (hd : Run q t plan hosts d ms e) :
      Run q t plan hosts c ms e
  | found {c d e : Cursor} {m : Mapping} {ms : List Mapping} (hc : c.IsSearching)
      (h : round q t plan hosts c = some (.found m, d)) (hd : Run q t plan hosts d ms e) :
      Run q t plan hosts c (m :: ms) e

theorem Run.trans {plan : List PlanStep} {c d e : Cursor} {ms ms' : List Mapping}
    (h : Run q t plan hosts c ms d) (h' : Run q t plan hosts d ms' e) :
    Run q t plan hosts c (ms ++ ms') e := by
  induction h with
  | refl => exact h'
  | again hc hround _ ih => exact .again hc hround (ih h')
  | found hc hround _ ih => exact .found hc hround (ih h')

theorem Run.searching {plan : List PlanStep} {c e : Cursor} {ms : List Mapping}
    (h : Run q t plan hosts c ms e) (he : e.IsSearching) : c.IsSearching := by
  cases h with
  | refl => exact he
  | again hc => exact hc
  | found hc => exact hc

/-- From an opened frame until it is closed, if from the choice of a candidate the rounds go through the
placements with this candidate. -/
theorem run_frame_of_choose (hb : q.Begun chosen (s :: rest))
    (hbelow : below.length = chosen.length)
    (hchoose : ∀ (c : Cursor) (f f' : Frame) (y : PlaceId), c.IsSearching →
      q.Begun (chosen ++ [y]) rest →
      round q t q.redex.plan hosts c =
        choose q t q.redex.plan hosts chosen.length y f' (mid (below ++ [f]) chosen) →
      Run q t q.redex.plan hosts c
        ((q.choicesFrom t hosts rest (chosen ++ [y])).map (mappingOf q.redex.plan))
        (mid (below ++ [f']) (chosen ++ [y])))
    (hback : BackAt chosen images) (hf : ∀ y ∈ f.todo chosen s, q.Begun (chosen ++ [y]) rest) :
    Run q t q.redex.plan hosts (mid (below ++ [f]) images)
      (((f.todo chosen s).flatMap fun y => q.choicesFrom t hosts rest (chosen ++ [y])).map
        (mappingOf q.redex.plan)) (mid below chosen) := by
  -- on the candidates not looked at yet
  induction htodo : f.todo chosen s generalizing f images with
  | nil => exact .again (isSearching_mid _ _) (round_close hb hback hbelow htodo) (.refl _)
  | cons y more ih =>
    have hy := hf y (by simp [htodo])
    obtain ⟨f', rfl, hround⟩ := round_choose hb hback hbelow t hosts htodo
    have hnew : y ∉ chosen := not_mem_before hy.nodup rfl
    rw [List.flatMap_cons, List.map_append]
    exact (hchoose _ f f' y (isSearching_mid _ _) hy hround).trans
      (ih (Or.inr ⟨y, hnew, rfl⟩) (fun z hz => hf z (by simp [htodo, hz])) rfl)

section Hosts
variable (ha : q.agent.WellFormed) (hr : q.redex.WellFormed)
  (hlen : hosts.length = q.redex.roots.length) (hh : ∀ h ∈ hosts, h < q.agent.places.size)
include ha hr hlen hh

/-- **From a frame until it is closed,** the rounds find the placements that go on with one of the
candidates not looked at yet. -/
theorem run_frame (hb : q.Begun chosen (s :: rest)) (hbelow : below.length = chosen.length)
    (hback : BackAt chosen images) (hf : ∀ y ∈ f.todo chosen s, q.Begun (chosen ++ [y]) rest) :
    Run q t q.redex.plan hosts (mid (below ++ [f]) images)
      (((f.todo chosen s).flatMap fun y => q.choicesFrom t hosts rest (chosen ++ [y])).map
        (mappingOf q.redex.plan)) (mid below chosen) := by
  -- on the steps after this one
  induction rest generalizing chosen s below f images with
  | nil =>
    refine run_frame_of_choose hb hbelow (fun c f f' y hc hy hround => ?_) hback hf
    have hlast : ¬ chosen.length + 1 < q.redex.plan.length := by
      have := hb.length_add
      rw [List.length_singleton] at this
      omega
    obtain ⟨passed, hpassed⟩ := hy.passes hr hh
    rw [choose_mid hbelow, if_neg hlast, hpassed, Option.map_some] at hround
    unfold choicesFrom
    rw [hpassed]
    cases passed with
    | true => exact .found hc hround (.refl _)
    | false => exact .again hc hround (.refl _)
  | cons s' rest ih =>
    refine run_frame_of_choose hb hbelow (fun c f f' y hc hy hround => ?_) hback hf
    have hmore : chosen.length + 1 < q.redex.plan.length := by
      have := hb.length_add
      simp only [List.length_cons] at this
      omega
    have hopen := openFrame_mid (t := t) hlen hh hy (below ++ [f'])
    rw [List.length_append, List.length_singleton] at hopen
    rw [choose_mid hbelow, if_pos hmore, hopen, Option.map_some] at hround
    exact .again hc hround (ih hy (by simp [hbelow]) (Or.inl rfl) fun z hz => hy.push_of_mem ha hz)

end Hosts

/-! ### Calls -/

section Calls
variable {plan : List PlanStep} {c d : Cursor} {ms : List Mapping}

/-- A cursor that is used up answers with nothing. -/
theorem handsOut_of_exhausted (h : c.exhausted = true) : HandsOut (next q t plan hosts) c [] :=
  .nil_of_next (if_pos h)

theorem next_of_isSearching (hc : c.IsSearching) :
    next q t plan hosts c = resume q t plan hosts c := by
  unfold next
  rw [hc.1, hc.2]
  rfl

/-- **Calls hand out what the rounds find,** and nothing after the last frame is closed. -/
theorem Run.handsOut (h : Run q t plan hosts c ms (mid [] [])) :
    HandsOut (next q t plan hosts) c ms := by
  generalize hend : mid [] [] = e at h
  induction h with
  | refl c =>
    subst hend
    refine .of_next (?_ : _ = some (none, { mid [] [] with exhausted := true }))
      (handsOut_of_exhausted rfl)
    rw [next_of_isSearching (isSearching_mid _ _), resume]
    rfl
  | again hc hround hd ih =>
    have hd' := hd.searching (hend ▸ isSearching_mid _ _)
    refine .congr ?_ (ih hend)
    rw [next_of_isSearching hc, next_of_isSearching hd', resume, hround]
  | found hc hround _ ih =>
    refine .of_next ?_ (ih hend)
    rw [next_of_isSearching hc, resume, hround]
    rfl

end Calls

/-! ### All calls -/

theorem choices_of_plan_eq_nil (h : q.redex.plan = []) (t : Table) (hosts : List PlaceId) :
    q.choicesFrom t hosts q.redex.plan [] = [[]] := by
  rw [h]
  unfold choicesFrom
  rw [h]
  rfl

/-- **From the first call on,** the answers are the mappings of the placements, in order. -/
theorem handsOut_start (ha : q.agent.WellFormed) (hr : q.redex.WellFormed)
    (hlen : hosts.length = q.redex.roots.length) (hh : ∀ h ∈ hosts, h < q.agent.places.size) :
    HandsOut (next q t q.redex.plan hosts) start
      ((q.choicesFrom t hosts q.redex.plan []).map (mappingOf q.redex.plan)) := by
  cases hplan : q.redex.plan with
  | nil =>
    have hchoices := choices_of_plan_eq_nil hplan t hosts
    rw [hplan] at hchoices
    rw [hchoices]
    exact .of_next
      (rfl : next q t [] hosts start = some (some [], ⟨[], [], [], true, true⟩))
      (handsOut_of_exhausted rfl)
  | cons s rest =>
    have hb : q.Begun [] (s :: rest) := hplan ▸ .nil q
    have hopen := openFrame_mid (t := t) hlen hh hb []
    have hrun := (run_frame ha hr hlen hh hb rfl (Or.inl rfl) fun y hy => hb.push_of_mem ha hy :
      Run q t q.redex.plan hosts (mid ([] ++ [⟨q.playersAt t hosts [] s, 0⟩]) []) _ (mid [] []))
    rw [hplan] at hopen hrun
    rw [List.length_nil] at hopen
    refine .congr ?_ hrun.handsOut
    rw [next_of_isSearching (isSearching_mid _ _)]
    change (openFrame q t (s :: rest) hosts 0 (mid [] [])).bind _ = _
    rw [hopen]
    rfl

/-- **The calls hand out the placements,** in lexicographic order of child positions, each once, and
nothing after them. -/
theorem calls_spec {agent redex : Bigraph} (ha : agent.Constructible) (hr : redex.Constructible)
    (hg : agent.isGround = true) (t : Table) {hosts : List PlaceId}
    (hlen : hosts.length = redex.roots.length) (hh : ∀ h ∈ hosts, h ∈ agent.vertices) :
    ∃ q, Problem.of agent redex = .ok q ∧ q.agent = agent ∧ q.redex = redex ∧
      ∃ choices : List (List PlaceId),
        (∀ images, images ∈ choices ↔ q.IsPlacement t hosts images) ∧
        (choices.Pairwise fun images images' =>
          images.map agent.childPosition < images'.map agent.childPosition) ∧
        choices.Nodup ∧ (redex.plan = [] → choices = [[]]) ∧
        HandsOut (next q t redex.plan hosts) start (choices.map (mappingOf redex.plan)) := by
  let q : Problem := ⟨agent, redex, hg⟩
  have hh' : ∀ h ∈ hosts, h < q.agent.places.size := fun h hm => Bigraph.lt_of_mem_vertices (hh h hm)
  have hpairwise := pairwise_choicesFrom (q := q) (t := t) ha.wellFormed hlen hh' (.nil q)
  refine ⟨q, dif_pos hg, rfl, rfl, q.choicesFrom t hosts redex.plan [],
    fun images => mem_choices ha.wellFormed hlen hh', hpairwise, ?_,
    fun h => choices_of_plan_eq_nil (q := q) h t hosts,
    handsOut_start (q := q) ha.wellFormed hr.wellFormed hlen hh'⟩
  refine hpairwise.imp fun {images images'} hlt heq => ?_
  rw [heq] at hlt
  exact List.lt_irrefl _ hlt

/-- **The lazy list** of the embeddings has what the calls hand out. -/
theorem handsOut_embeddings (ha : q.agent.WellFormed) (hr : q.redex.WellFormed)
    (hlen : hosts.length = q.redex.roots.length) (hh : ∀ h ∈ hosts, h < q.agent.places.size) :
    HandsOut (next q t q.redex.plan hosts) start
      ((q.embeddings t q.redex.plan hosts).toList.filterMap (·.toOption)) := by
  have hanswers : (fun e : Except MatchError Mapping => e.toOption) ∘
      (fun images => .ok (mappingOf q.redex.plan images)) = some ∘ mappingOf q.redex.plan := rfl
  unfold embeddings
  rw [toList_embeddingsFrom ha hr hlen hh (.nil q), List.filterMap_map, hanswers, List.filterMap_eq_map]
  exact handsOut_start ha hr hlen hh

end Cursor

/-! ### Two of three persons -/

theorem isGround_threePersons : threePersons.isGround = true := by decide

/-- The second person comes after the first, so the pairs are handed out in one order only. -/
theorem calls_spec_threePersons : threePersons.Constructible ∧ somePair.Constructible ∧
    threePersons.isGround = true ∧ [0].length = somePair.roots.length ∧
    (∀ h ∈ [0], h ∈ threePersons.vertices) ∧
    ∃ q, Problem.of threePersons somePair = .ok q ∧ ∃ choices : List (List PlaceId),
      [1, 2, 4] ∈ choices ∧ [1, 4, 2] ∉ choices ∧
      HandsOut (Cursor.next q q.table somePair.plan [0]) Cursor.start
        (choices.map (mappingOf somePair.plan)) := by
  have hlen : [0].length = somePair.roots.length := by decide +kernel
  have hh : ∀ h ∈ [0], h ∈ threePersons.vertices := by decide +kernel
  let q : Problem := ⟨threePersons, somePair, isGround_threePersons⟩
  obtain ⟨q', hq', -, -, choices, hmem, -, -, -, hcalls⟩ := Cursor.calls_spec
    constructible_threePersons constructible_somePair isGround_threePersons q.table hlen hh
  have heq : Problem.of threePersons somePair = .ok q := dif_pos isGround_threePersons
  rw [heq, Except.ok.injEq] at hq'
  subst hq'
  have hchoices : ∀ images, images ∈ choices ↔
      images ∈ q.choicesFrom q.table [0] somePair.plan [] := by
    have hwf : q.agent.WellFormed := constructible_threePersons.wellFormed
    have hlt : ∀ h ∈ [0], h < q.agent.places.size := by decide +kernel
    exact fun images => (hmem images).trans (mem_choices hwf hlen hlt).symm
  refine ⟨constructible_threePersons, constructible_somePair, isGround_threePersons, hlen, hh, q, heq,
    choices, ?_, ?_, hcalls⟩
  · rw [hchoices]
    decide +kernel
  · rw [hchoices]
    decide +kernel

end Bigraphs
