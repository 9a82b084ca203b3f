import Bigraphs.Countdown
import Bigraphs.Matching.Embedding

/-! # The search for embeddings, call by call

A cursor stands in the middle of the search of `Problem.embeddings` and goes on from there when it is
asked for the next mapping (`next`). It keeps a frame for each step that is open, the images chosen so
far, and the same images as a set. A round of the search looks at the last frame only: the image that
was chosen there is taken back, the next candidate is chosen, and either a frame for the step after it
is opened or the mapping is complete and is checked. A frame without further candidates is closed.

Every round lowers the number of candidates that are left at some step and leaves those at earlier steps
as they are (`countdown_round`), so each call ends. It fails when it reads outside a list or an array. -/

namespace Bigraphs

/-- The candidates for one step, and how many of them have been looked at. -/
structure Frame where
  candidates : List PlaceId
  next : Nat
deriving DecidableEq

/-- **A cursor** in the search for embeddings. -/
structure Cursor where
  frames : List Frame
  /-- The images of the first steps, in the order of the plan. -/
  chosen : List PlaceId
  /-- The images as a set. -/
  used : List PlaceId
  started : Bool
  exhausted : Bool
deriving DecidableEq

/-- The place that the anchor stands for: a host, or the image of an earlier step. -/
def Anchor.image (hosts chosen : List PlaceId) : Anchor → Option PlaceId
  | .root i => hosts[i]?
  | .step k => chosen[k]?

/-- How a round of the search ends. -/
inductive Round where
  /-- No frame is left. -/
  | over
  /-- A complete mapping passed the checks. -/
  | found (m : Mapping)
  /-- A frame was opened or closed, or a complete mapping was rejected. -/
  | again
deriving DecidableEq

/-- The first candidate not looked at yet that is not used and comes after `floor`, if there is one,
and the frame after that. -/
def Frame.pick (used : List PlaceId) (floor : Option PlaceId) (f : Frame) : Option PlaceId × Frame :=
  if h : f.next < f.candidates.length then
    let c := f.candidates[f.next]
    let f := { f with next := f.next + 1 }
    if c ∉ used && floor.all (· < c) then (some c, f) else pick used floor f
  else (none, f)
termination_by f.candidates.length - f.next

/-- A candidate that is picked is looked at. -/
theorem Frame.length_sub_pick {used : List PlaceId} {floor : Option PlaceId} {y : PlaceId} {f f' : Frame}
    (h : f.pick used floor = (some y, f')) :
    f'.candidates.length - f'.next < f.candidates.length - f.next := by
  fun_induction Frame.pick used floor f with
  | case1 f hlt c f₁ _ =>
    obtain ⟨-, rfl⟩ := Prod.mk.inj h
    simp only [f₁]
    omega
  | case2 f hlt c f₁ _ ih =>
    have := ih h
    simp only [f₁] at this
    omega
  | case3 f _ => cases h

namespace Cursor

/-- A cursor before its first call. -/
def start : Cursor := ⟨[], [], [], false, false⟩

/-- Takes back the image of the step `depth`, if one was chosen. -/
def takeBack (depth : Nat) (c : Cursor) : Cursor :=
  if depth < c.chosen.length then
    match c.chosen.getLast? with
    | none => c
    | some old => { c with chosen := c.chosen.dropLast, used := c.used.filter (· ≠ old) }
  else c

/-- The image of the twin, if the step has one. -/
def floor (chosen : List PlaceId) (s : PlanStep) : Option (Option PlaceId) :=
  match s.twin with
  | none => some none
  | some i => (chosen[i]?).map some

variable (q : Problem) (t : Table) (plan : List PlanStep) (hosts : List PlaceId)

/-- Opens a frame for the step. -/
def openFrame (step : Nat) (c : Cursor) : Option Cursor := do
  let s ← plan[step]?
  let p ← s.anchor.image hosts c.chosen
  if p < q.agent.places.size then
    return { c with frames := c.frames ++ [⟨q.players t p s.node, 0⟩] }
  else none

/-- The complete mapping passes both checks. -/
def passes (images : List PlaceId) : Option Bool :=
  match q.linksConsistent (Problem.mappingOf plan images) with
  | .error _ => none
  | .ok false => some false
  | .ok true => (q.hostsDisjoint plan hosts images).toOption

/-- Chooses `y` for the step `depth`, which leaves the frame `f` of the step. A frame is opened for the
step after it; if there is none, the complete mapping is checked. -/
def choose (depth : Nat) (y : PlaceId) (f : Frame) (c : Cursor) : Option (Round × Cursor) :=
  let c := { c with
    frames := c.frames.set depth f, chosen := c.chosen ++ [y], used := y :: c.used }
  if depth + 1 < plan.length then (openFrame q t plan hosts (depth + 1) c).map (.again, ·)
  else (passes q plan hosts c.chosen).map fun passed =>
    (if passed then .found (Problem.mappingOf plan c.chosen) else .again, c)

/-- **One round** of the search. -/
def round (c : Cursor) : Option (Round × Cursor) :=
  if c.frames.isEmpty then some (.over, { c with exhausted := true })
  else do
    let depth := c.frames.length - 1
    let c := c.takeBack depth
    let floor ← floor c.chosen (← plan[depth]?)
    match (← c.frames[depth]?).pick c.used floor with
    | (none, _) => return (.again, { c with frames := c.frames.dropLast })
    | (some y, f) => choose q t plan hosts depth y f c

/-! ### The search ends -/

/-- What is left at the step `i`: the candidates not looked at yet, and the end of the frame. -/
def remaining (c : Cursor) (i : Nat) : Nat :=
  match c.frames[i]? with
  | none => 0
  | some f => f.candidates.length - f.next + 1

/-- What is left at each step. Before the first call, that call is left too. -/
def countdown (c : Cursor) : Countdown :=
  ⟨(if c.started then 0 else 1) :: (List.range plan.length).map c.remaining⟩

section Rounds
variable {q t plan hosts} {c c' : Cursor} {r : Round}

theorem frames_takeBack (depth : Nat) (c : Cursor) :
    (c.takeBack depth).frames = c.frames ∧ (c.takeBack depth).started = c.started := by
  unfold takeBack
  split
  · split <;> exact ⟨rfl, rfl⟩
  · exact ⟨rfl, rfl⟩

theorem frames_openFrame {step : Nat} (h : openFrame q t plan hosts step c = some c') :
    (∃ f, c'.frames = c.frames ++ [f]) ∧ c'.started = c.started := by
  unfold openFrame at h
  simp only [Option.bind_eq_bind, Option.bind_eq_some_iff] at h
  obtain ⟨s, -, p, -, h⟩ := h
  split at h
  next => cases h; exact ⟨⟨_, rfl⟩, rfl⟩
  next => cases h

/-- The frame of the step is the one that is left, and the frames before it stay. -/
theorem frames_choose {depth : Nat} {y : PlaceId} {f : Frame}
    (h : choose q t plan hosts depth y f c = some (r, c')) :
    (∃ more, c'.frames = c.frames.set depth f ++ more) ∧ c'.started = c.started := by
  unfold choose at h
  simp only at h
  split at h
  next =>
    obtain ⟨c₁, hopen, heq⟩ := Option.map_eq_some_iff.mp h
    cases heq
    obtain ⟨⟨f', hframes⟩, hstarted⟩ := frames_openFrame hopen
    exact ⟨⟨[f'], hframes⟩, hstarted⟩
  next =>
    obtain ⟨passed, -, heq⟩ := Option.map_eq_some_iff.mp h
    cases heq
    exact ⟨⟨[], (List.append_nil _).symm⟩, rfl⟩

theorem countdown_lt {depth : Nat} (hdepth : depth < plan.length) (hstarted : c'.started = c.started)
    (hsame : ∀ i < depth, c'.frames[i]? = c.frames[i]?)
    (hless : c'.remaining depth < c.remaining depth) : c'.countdown plan < c.countdown plan := by
  unfold countdown
  rw [hstarted]
  refine Countdown.cons_lt_cons (Countdown.map_range_lt hdepth (fun i hi => ?_) hless)
  unfold remaining
  rw [hsame i hi]

/-- **A round** lowers what is left at the last step and leaves the steps before it alone. -/
theorem countdown_round (h : round q t plan hosts c = some (r, c')) (hr : r ≠ .over) :
    c'.countdown plan < c.countdown plan := by
  unfold round at h
  split at h
  next =>
    cases h
    exact absurd rfl hr
  next =>
    simp only [Option.bind_eq_bind, Option.bind_eq_some_iff] at h
    obtain ⟨s, hs, floor, -, f, hf, h⟩ := h
    have hdepth := (List.getElem?_eq_some_iff.mp hs).1
    obtain ⟨hframes, hstarted⟩ := frames_takeBack (c.frames.length - 1) c
    rw [hframes] at hf
    have hlt := (List.getElem?_eq_some_iff.mp hf).1
    have hleft : c.remaining (c.frames.length - 1) = f.candidates.length - f.next + 1 := by
      unfold remaining
      rw [hf]
    cases hpick : f.pick (c.takeBack (c.frames.length - 1)).used floor with
    | mk y f' =>
      simp only [hpick] at h
      cases y with
      | none =>
        cases h
        refine countdown_lt hdepth hstarted (fun i hi => ?_) ?_
        · simp only [hframes, List.getElem?_dropLast, if_pos hi]
        · rw [hleft]
          unfold remaining
          simp [hframes]
      | some y =>
        obtain ⟨⟨more, hmore⟩, hstarted'⟩ := frames_choose h
        rw [hframes] at hmore
        refine countdown_lt hdepth (hstarted'.trans hstarted) (fun i hi => ?_) ?_
        · rw [hmore, List.getElem?_append_left (by simp; omega), List.getElem?_set_ne (by omega)]
        · have hpicked := Frame.length_sub_pick hpick
          rw [hleft]
          unfold remaining
          rw [hmore, List.getElem?_append_left (by simpa using hlt), List.getElem?_set_self hlt]
          exact Nat.succ_lt_succ hpicked

end Rounds

/-- Goes from round to round until a mapping is found or no frame is left. -/
def resume (c : Cursor) : Option (Option Mapping × Cursor) :=
  match _ : round q t plan hosts c with
  | none => none
  | some (.over, c) => some (none, c)
  | some (.found m, c) => some (some m, c)
  | some (.again, c) => resume c
termination_by c.countdown plan
decreasing_by exact countdown_round ‹round q t plan hosts _ = some (.again, c)› nofun

/-- **The next mapping,** and the cursor after the call. -/
def next (c : Cursor) : Option (Option Mapping × Cursor) :=
  if c.exhausted then some (none, c)
  else if c.started then resume q t plan hosts c
  else
    let c := { c with started := true }
    if plan.isEmpty then some (some [], { c with exhausted := true })
    else do resume q t plan hosts (← openFrame q t plan hosts 0 c)

section Calls
variable {q t plan hosts} {c c' : Cursor} {m : Mapping}

theorem countdown_resume (h : resume q t plan hosts c = some (some m, c')) :
    c'.countdown plan < c.countdown plan := by
  fun_induction resume q t plan hosts c with
  | case1 => cases h
  | case2 => cases h
  | case3 c m₁ c₁ hround =>
    cases h
    exact countdown_round hround nofun
  | case4 c c₁ hround ih => exact Countdown.lt_trans (ih h) (countdown_round hround nofun)

/-- **A call** that answers with a mapping lowers what is left. -/
theorem countdown_next (h : next q t plan hosts c = some (some m, c')) :
    c'.countdown plan < c.countdown plan := by
  unfold next at h
  split at h
  next => cases h
  next =>
    split at h
    next => exact countdown_resume h
    next hnew =>
      -- the first call is no longer left, whatever it finds
      have hfirst : ∀ d : Cursor, d.started = true → d.countdown plan < c.countdown plan := by
        intro d hd
        unfold countdown
        rw [hd, if_pos rfl, if_neg hnew]
        exact Countdown.cons_lt Nat.one_pos (by simp)
      simp only at h
      split at h
      next =>
        cases h
        exact hfirst _ rfl
      next =>
        obtain ⟨c₁, hopen, hresume⟩ := Option.bind_eq_some_iff.mp h
        exact Countdown.lt_trans (countdown_resume hresume) (hfirst c₁ (frames_openFrame hopen).2)

end Calls

end Cursor

end Bigraphs
