import Bigraphs.Proofs.Bipartite.Augment

/-! # The layers

The layers are built breadth-first below the free left vertices (`Layered`). If a free right vertex
is reached, there is a path to it through the layers; if none is reached, the vertices in the layers
are closed under going to a neighbour and on to its partner (`layers_spec`). -/

namespace Bigraphs

namespace BipartiteGraph

open Pairing

variable {g : BipartiteGraph} {p : Pairing} {depth : Array (Option Nat)} {d fuel : Nat}
  {layer : List Nat}

/-- **The layers down to distance `d`.** -/
structure Layered (g : BipartiteGraph) (p : Pairing) (d : Nat) (layer : List Nat)
    (depth : Array (Option Nat)) : Prop where
  size_eq : depth.size = g.leftSize
  le : ∀ (x e : Nat), depth[x]? = some (some e) → e ≤ d
  mem_layer : ∀ x : Nat, x ∈ layer ↔ depth[x]? = some (some d)
  above : ∀ (x e : Nat), depth[x]? = some (some (e + 1)) → ∃ w y : Nat,
    depth[w]? = some (some e) ∧ y ∈ g.neighbours w ∧ p.right[y]? = some (some x)
  zero_iff : ∀ x : Nat, depth[x]? = some (some 0) ↔ p.isFree x
  closed : ∀ (x e y : Nat), depth[x]? = some (some e) → e < d → y ∈ g.neighbours x →
    ∃ z e' : Nat, p.right[y]? = some (some z) ∧ depth[z]? = some (some e')
  inhabited : ∀ e < d, ∃ x : Nat, depth[x]? = some (some e)

/-- The edges to `ys` have been followed from the layer at distance `d`. -/
structure Followed (p : Pairing) (d : Nat) (depth : Array (Option Nat)) (ys : List Nat)
    (s : Layer) : Prop where
  size_eq : s.depth.size = depth.size
  kept : ∀ (x e : Nat), depth[x]? = some (some e) → s.depth[x]? = some (some e)
  cases : ∀ (x e : Nat), s.depth[x]? = some (some e) → depth[x]? = some (some e) ∨ x ∈ s.next
  mem_next : ∀ x ∈ s.next, s.depth[x]? = some (some (d + 1)) ∧ depth[x]? = some none ∧
    ∃ y ∈ ys, p.right[y]? = some (some x)
  found : s.found = true ↔ ∃ y ∈ ys, p.right[y]? = some none
  reached : ∀ y ∈ ys, ∀ z : Nat, p.right[y]? = some (some z) → z < depth.size →
    ∃ e, s.depth[z]? = some (some e)

section Follow
variable {done : List Nat} {s : Layer} {y x : Nat} (hs : Followed p d depth done s)
include hs

theorem Followed.mem_next_append (z : Nat) (hz : z ∈ s.next) :
    s.depth[z]? = some (some (d + 1)) ∧ depth[z]? = some none ∧
      ∃ w ∈ done ++ [y], p.right[w]? = some (some z) := by
  obtain ⟨h1, h2, w, hw, h3⟩ := hs.mem_next z hz
  exact ⟨h1, h2, w, List.mem_append_left _ hw, h3⟩

theorem Followed.found_append (hy : p.right[y]? ≠ some none) :
    s.found = true ↔ ∃ w ∈ done ++ [y], p.right[w]? = some none := by
  rw [hs.found]
  constructor
  · rintro ⟨w, hw, h⟩
    exact ⟨w, List.mem_append_left _ hw, h⟩
  · rintro ⟨w, hw, h⟩
    rcases List.mem_append.mp hw with hw | hw
    · exact ⟨w, hw, h⟩
    · rw [List.mem_singleton.mp hw] at h
      exact absurd h hy

/-- An edge that leads to nothing new. -/
theorem Followed.skip (hy : p.right[y]? ≠ some none)
    (hreached : ∀ z : Nat, p.right[y]? = some (some z) → z < depth.size →
      ∃ e, s.depth[z]? = some (some e)) : Followed p d depth (done ++ [y]) s where
  size_eq := hs.size_eq
  kept := hs.kept
  cases := hs.cases
  mem_next := hs.mem_next_append
  found := hs.found_append hy
  reached w hw z hz hlt := by
    rcases List.mem_append.mp hw with hw | hw
    · exact hs.reached w hw z hz hlt
    · rw [List.mem_singleton.mp hw] at hz
      exact hreached z hz hlt

/-- An edge to a right vertex without a partner. -/
theorem Followed.find (hy : p.right[y]? = some none) :
    Followed p d depth (done ++ [y]) { s with found := true } where
  size_eq := hs.size_eq
  kept := hs.kept
  cases := hs.cases
  mem_next := hs.mem_next_append
  found := iff_of_true rfl ⟨y, by simp, hy⟩
  reached w hw z hz hlt := by
    rcases List.mem_append.mp hw with hw | hw
    · exact hs.reached w hw z hz hlt
    · rw [List.mem_singleton.mp hw, hy] at hz
      cases hz

/-- An edge to the partner of a vertex that has not been reached yet. -/
theorem Followed.reach (hy : p.right[y]? = some (some x)) (hnew : s.depth[x]? = some none) :
    Followed p d depth (done ++ [y])
      { s with depth := s.depth.setIfInBounds x (some (d + 1)), next := x :: s.next } := by
  have hx : x < s.depth.size := (Array.getElem?_eq_some_iff.mp hnew).1
  have hset : ∀ z : Nat, (s.depth.setIfInBounds x (some (d + 1)))[z]? =
      if z = x then some (some (d + 1)) else s.depth[z]? := by
    intro z
    rw [Array.getElem?_setIfInBounds]
    by_cases hz : z = x
    · rw [if_pos hz.symm, if_pos hx, if_pos hz]
    · rw [if_neg (Ne.symm hz), if_neg hz]
  exact {
    size_eq := by rw [Array.size_setIfInBounds, hs.size_eq]
    kept := fun z e hz => by
      have hkept := hs.kept z e hz
      rw [hset, if_neg, hkept]
      rintro rfl
      rw [hnew] at hkept
      simp at hkept
    cases := fun z e hz => by
      rw [hset] at hz
      split at hz
      next hzx => exact Or.inr (by simp [hzx])
      next => exact (hs.cases z e hz).imp_right fun h => List.mem_cons_of_mem _ h
    mem_next := fun z hz => by
      simp only [hset]
      rcases List.mem_cons.mp hz with rfl | hz
      · refine ⟨if_pos rfl, ?_, y, by simp, hy⟩
        cases hold : depth[z]? with
        | none =>
          rw [Array.getElem?_eq_none_iff, ← hs.size_eq] at hold
          exact absurd hx (Nat.not_lt.mpr hold)
        | some o =>
          cases o with
          | none => rfl
          | some e =>
            have hkept := hs.kept z e hold
            rw [hnew] at hkept
            simp at hkept
      · obtain ⟨h1, h2, h3⟩ := hs.mem_next_append z hz
        refine ⟨?_, h2, h3⟩
        split
        · rfl
        · exact h1
    found := hs.found_append (by rw [hy]; simp)
    reached := fun w hw z hz hlt => by
      simp only [hset]
      split
      · exact ⟨d + 1, rfl⟩
      · rcases List.mem_append.mp hw with hw | hw
        · exact hs.reached w hw z hz hlt
        · rw [List.mem_singleton.mp hw, hy] at hz
          cases hz
          contradiction }

end Follow

/-- **The edges of a layer are followed.** -/
theorem follow_spec (p : Pairing) (d : Nat) (depth : Array (Option Nat)) (ys : List Nat) :
    Followed p d depth ys (ys.foldl (follow p d) ⟨depth, [], false⟩) := by
  refine foldl_spec (P := fun done (s : Layer) => Followed p d depth done s) ?_ ?_
  · exact ⟨rfl, fun _ _ h => h, fun _ _ h => Or.inl h, by simp, by simp, by simp⟩
  · intro done y rest s _ hs
    unfold follow
    cases hright : p.right[y]? with
    | none => exact hs.skip (by rw [hright]; simp) (by rw [hright]; simp)
    | some o =>
      cases o with
      | none => exact hs.find hright
      | some x =>
        simp only
        split
        next hnew => exact hs.reach hright hnew
        next hnew =>
          refine hs.skip (by rw [hright]; simp) fun z hz hlt => ?_
          rw [hright] at hz
          cases hz
          cases hold : s.depth[x]? with
          | none =>
            rw [Array.getElem?_eq_none_iff, hs.size_eq] at hold
            exact absurd hlt (Nat.not_lt.mpr hold)
          | some o =>
            cases o with
            | none => exact absurd hold hnew
            | some e => exact ⟨e, rfl⟩

/-! ### The order of the edges

The next layer is the same whatever the order in which the edges are followed. -/

theorem eq_of_distances {a b : Array (Option Nat)} (hsize : a.size = b.size)
    (h : ∀ x e : Nat, a[x]? = some (some e) ↔ b[x]? = some (some e)) : a = b := by
  refine Array.ext_getElem? fun x => ?_
  rcases ha : a[x]? with _ | _ | e
  · rw [eq_comm, Array.getElem?_eq_none_iff, ← hsize]
    exact Array.getElem?_eq_none_iff.mp ha
  · rcases hb : b[x]? with _ | _ | e
    · rw [Array.getElem?_eq_none_iff, ← hsize, ← Array.getElem?_eq_none_iff, ha] at hb
      cases hb
    · rfl
    · rw [← h, ha] at hb
      cases hb
  · exact ((h x e).mp ha).symm

namespace Followed

variable {ys ys' : List Nat} {s s' : Layer} (hs : Followed p d depth ys s)
  (hs' : Followed p d depth ys' s')
include hs

theorem mem_next_iff (x : Nat) :
    x ∈ s.next ↔ s.depth[x]? = some (some (d + 1)) ∧ depth[x]? = some none := by
  constructor
  · exact fun h => ⟨(hs.mem_next x h).1, (hs.mem_next x h).2.1⟩
  · rintro ⟨h, hnew⟩
    refine (hs.cases x _ h).resolve_left fun hold => ?_
    rw [hnew] at hold
    simp at hold

include hs'

theorem depth_of_subset (hys : ∀ y ∈ ys, y ∈ ys')
    (hlt : ∀ y ∈ ys, ∀ z : Nat, p.right[y]? = some (some z) → z < depth.size) {x e : Nat}
    (hx : s.depth[x]? = some (some e)) : s'.depth[x]? = some (some e) := by
  rcases hs.cases x e hx with hold | hnew
  · exact hs'.kept x e hold
  · obtain ⟨hd, hnone, y, hy, hright⟩ := hs.mem_next x hnew
    obtain ⟨e', he'⟩ := hs'.reached y (hys y hy) x hright (hlt y hy x hright)
    have hnew' : x ∈ s'.next := by
      refine (hs'.cases x e' he').resolve_left fun hold => ?_
      rw [hnone] at hold
      simp at hold
    rw [(hs'.mem_next x hnew').1, ← hd, hx]

/-- **Two orders of the same edges** make the same layer. -/
theorem unique (hys : ∀ y, y ∈ ys ↔ y ∈ ys')
    (hlt : ∀ y ∈ ys, ∀ z : Nat, p.right[y]? = some (some z) → z < depth.size) :
    s.depth = s'.depth ∧ s.found = s'.found ∧ ∀ x, x ∈ s.next ↔ x ∈ s'.next := by
  have hdepth : s.depth = s'.depth := by
    refine eq_of_distances (hs.size_eq.trans hs'.size_eq.symm) fun x e => ⟨fun hx => ?_, fun hx => ?_⟩
    · exact hs.depth_of_subset hs' (fun y hy => (hys y).mp hy) hlt hx
    · exact hs'.depth_of_subset hs (fun y hy => (hys y).mpr hy)
        (fun y hy => hlt y ((hys y).mpr hy)) hx
  refine ⟨hdepth, Bool.eq_iff_iff.mpr ?_, fun x => ?_⟩
  · rw [hs.found, hs'.found]
    exact exists_congr fun y => and_congr_left fun _ => hys y
  · rw [hs.mem_next_iff, hs'.mem_next_iff, hdepth]

end Followed

/-! ### One layer after the other -/

section Spec
variable (hg : g.InRange) (hp : p.Valid g)
include hg hp

omit hp in
theorem lt_of_mem_neighbours {x y : Nat} (h : y ∈ g.neighbours x) :
    x < g.leftSize ∧ y < g.rightSize := by
  unfold neighbours at h
  cases hx : g.adjacency[x]? with
  | none => rw [hx] at h; simp at h
  | some ys =>
    rw [hx] at h
    obtain ⟨hlt, rfl⟩ := Array.getElem?_eq_some_iff.mp hx
    exact ⟨hlt, hg _ (by simp) y h⟩

/-- A neighbour is free, or the partner of a left vertex. -/
theorem right_cases {x y : Nat} (h : y ∈ g.neighbours x) :
    p.right[y]? = some none ∨ ∃ z, p.right[y]? = some (some z) ∧ z < g.leftSize := by
  have hlt : y < p.right.size := by rw [hp.right_size]; exact (lt_of_mem_neighbours hg h).2
  cases ho : p.right[y]? with
  | none => exact absurd hlt (Nat.not_lt.mpr (Array.getElem?_eq_none_iff.mp ho))
  | some o =>
    cases o with
    | none => exact Or.inl rfl
    | some z =>
      refine Or.inr ⟨z, rfl, ?_⟩
      rw [← hp.left_size]
      exact lt_of_partner (hp.partner_iff.mpr ho)

/-- The next layer. -/
theorem Layered.next (h : Layered g p d layer depth) (hne : layer ≠ [])
    (hfound : ((layer.flatMap g.neighbours).foldl (follow p d) ⟨depth, [], false⟩).found = false) :
    Layered g p (d + 1) ((layer.flatMap g.neighbours).foldl (follow p d) ⟨depth, [], false⟩).next
      ((layer.flatMap g.neighbours).foldl (follow p d) ⟨depth, [], false⟩).depth := by
  have hs := follow_spec p d depth (layer.flatMap g.neighbours)
  generalize (layer.flatMap g.neighbours).foldl (follow p d) ⟨depth, [], false⟩ = s at hs hfound
  have hcases : ∀ (x e : Nat), s.depth[x]? = some (some e) →
      depth[x]? = some (some e) ∨ x ∈ s.next ∧ e = d + 1 := by
    intro x e hx
    refine (hs.cases x e hx).imp_right fun hn => ⟨hn, ?_⟩
    rw [(hs.mem_next x hn).1] at hx
    simp only [Option.some.injEq] at hx
    exact hx.symm
  have hlow : ∀ (x e : Nat), e ≤ d → s.depth[x]? = some (some e) → depth[x]? = some (some e) := by
    intro x e he hx
    rcases hcases x e hx with hx | ⟨-, rfl⟩
    · exact hx
    · omega
  have hclosed : ∀ (x y : Nat), depth[x]? = some (some d) → y ∈ g.neighbours x →
      ∃ z e', p.right[y]? = some (some z) ∧ s.depth[z]? = some (some e') := by
    intro x y hx hy
    have hmem : y ∈ layer.flatMap g.neighbours :=
      List.mem_flatMap.mpr ⟨x, (h.mem_layer x).mpr hx, hy⟩
    rcases right_cases hg hp hy with hfree | ⟨z, hz, hlt⟩
    · have := hs.found.mpr ⟨y, hmem, hfree⟩
      rw [hfound] at this
      cases this
    · obtain ⟨e, he⟩ := hs.reached y hmem z hz (by rw [h.size_eq]; exact hlt)
      exact ⟨z, e, hz, he⟩
  exact {
    size_eq := by rw [hs.size_eq, h.size_eq]
    le := fun x e hx => by
      rcases hcases x e hx with hx | ⟨-, rfl⟩
      · have := h.le x e hx
        omega
      · exact Nat.le_refl _
    mem_layer := fun x => by
      refine ⟨fun hx => (hs.mem_next x hx).1, fun hx => ?_⟩
      rcases hcases x (d + 1) hx with hx | ⟨hn, -⟩
      · have := h.le x _ hx
        omega
      · exact hn
    above := fun x e hx => by
      rcases hcases x (e + 1) hx with hx | ⟨hn, he⟩
      · obtain ⟨w, y, hw, hy, hright⟩ := h.above x e hx
        exact ⟨w, y, hs.kept w e hw, hy, hright⟩
      · obtain ⟨-, -, y, hy, hright⟩ := hs.mem_next x hn
        obtain ⟨w, hw, hwy⟩ := List.mem_flatMap.mp hy
        have hed : e = d := by omega
        subst hed
        exact ⟨w, y, hs.kept w e ((h.mem_layer w).mp hw), hwy, hright⟩
    zero_iff := fun x => by
      rw [← h.zero_iff]
      exact ⟨hlow x 0 (Nat.zero_le d), hs.kept x 0⟩
    closed := fun x e y hx he hy => by
      rcases Nat.lt_or_ge e d with hed | hed
      · obtain ⟨z, e', hz, he'⟩ := h.closed x e y (hlow x e (by omega) hx) hed hy
        exact ⟨z, e', hz, hs.kept z e' he'⟩
      · have hed : e = d := by omega
        subst hed
        exact hclosed x y (hlow x e (Nat.le_refl e) hx) hy
    inhabited := fun e he => by
      rcases Nat.lt_or_ge e d with hed | hed
      · obtain ⟨x, hx⟩ := h.inhabited e hed
        exact ⟨x, hs.kept x e hx⟩
      · have hed : e = d := by omega
        subst hed
        obtain ⟨x, hx⟩ := List.exists_mem_of_ne_nil layer hne
        exact ⟨x, hs.kept x e ((h.mem_layer x).mp hx)⟩ }

omit hg hp in
/-- There are no more inhabited layers than left vertices. -/
theorem lt_size_of_inhabited {n : Nat} (h : ∀ e ≤ n, ∃ x : Nat, depth[x]? = some (some e)) :
    n < depth.size := by
  choose! v hv using h
  have hle : ∀ e ∈ List.range (n + 1), e ≤ n := fun e he => Nat.lt_succ_iff.mp (List.mem_range.mp he)
  have hnodup : ((List.range (n + 1)).map v).Nodup := by
    refine List.Nodup.map_on (fun e he e' he' heq => ?_) List.nodup_range
    have h1 := hv e (hle e he)
    rw [heq, hv e' (hle e' he')] at h1
    simp only [Option.some.injEq] at h1
    exact h1.symm
  have hlt := length_le_of_nodup (n := depth.size) hnodup fun x hx => by
    obtain ⟨e, he, rfl⟩ := List.mem_map.mp hx
    exact (Array.getElem?_eq_some_iff.mp (hv e (hle e he))).1
  rw [List.length_map, List.length_range] at hlt
  exact hlt

omit hg hp in
theorem Layered.lt_leftSize (h : Layered g p d layer depth) (hne : layer ≠ []) : d < g.leftSize := by
  rw [← h.size_eq]
  refine lt_size_of_inhabited fun e he => ?_
  rcases Nat.lt_or_eq_of_le he with he | rfl
  · exact h.inhabited e he
  · obtain ⟨x, hx⟩ := List.exists_mem_of_ne_nil layer hne
    exact ⟨x, (h.mem_layer x).mp hx⟩

omit hg hp in
theorem Layered.depth_lt (h : Layered g p d layer depth) {x e : Nat}
    (hx : depth[x]? = some (some e)) : e < g.leftSize := by
  rw [← h.size_eq]
  refine lt_size_of_inhabited fun e' he' => ?_
  rcases Nat.lt_or_eq_of_le he' with he' | rfl
  · exact h.inhabited e' (Nat.lt_of_lt_of_le he' (h.le x e hx))
  · exact ⟨x, hx⟩

omit hg hp in
/-- From every path a path from a free vertex is got by going up. -/
theorem exists_free_of_reaches {target : Nat}
    (habove : ∀ (x e : Nat), depth[x]? = some (some (e + 1)) → ∃ w y : Nat,
      depth[w]? = some (some e) ∧ y ∈ g.neighbours w ∧ p.right[y]? = some (some x))
    {e x : Nat} (h : Reaches g p depth target e x) : ∃ x₀, Reaches g p depth target 0 x₀ := by
  induction e generalizing x with
  | zero => exact ⟨x, h⟩
  | succ e ih =>
    obtain ⟨w, y, hw, hy, hright⟩ := habove x e h.depth_eq
    exact ih (.step hw hy hright h)

/-- What the layers tell: there is a path to a free right vertex, or the vertices reached are closed
under going to a neighbour and on to its partner. -/
def Surveyed (g : BipartiteGraph) (p : Pairing) (r : Array (Option Nat) × Option Nat) : Prop :=
  match r with
  | (depth, some target) => target ≤ g.leftSize + 1 ∧
      (∀ x : Nat, depth[x]? = some (some 0) ↔ p.isFree x) ∧ ∃ x, Reaches g p depth target 0 x
  | (depth, none) => (∀ x, p.isFree x → ∃ e, depth[x]? = some (some e)) ∧
      ∀ (x e y : Nat), depth[x]? = some (some e) → y ∈ g.neighbours x →
        ∃ z e', p.right[y]? = some (some z) ∧ depth[z]? = some (some e')

omit hg hp in
theorem Layered.surveyed (h : Layered g p d [] depth) : Surveyed g p (depth, none) := by
  refine ⟨fun x hx => ⟨0, (h.zero_iff x).mpr hx⟩, fun x e y hx hy => h.closed x e y hx ?_ hy⟩
  refine Nat.lt_of_le_of_ne (h.le x e hx) ?_
  rintro rfl
  have := (h.mem_layer x).mpr hx
  simp at this

theorem layersFrom_spec (hfuel : d + fuel = g.leftSize + 1) (h : Layered g p d layer depth) :
    Surveyed g p (g.layersFrom p fuel d layer depth) := by
  induction fuel generalizing d layer depth with
  | zero =>
    cases layer with
    | nil => exact h.surveyed
    | cons x layer =>
      have := h.lt_leftSize (by simp)
      omega
  | succ fuel ih =>
    cases layer with
    | nil => exact h.surveyed
    | cons x layer =>
      unfold layersFrom
      simp only
      split
      next hfound =>
        have hs := follow_spec p d depth ((x :: layer).flatMap g.neighbours)
        obtain ⟨y, hy, hfree⟩ := hs.found.mp hfound
        obtain ⟨w, hw, hwy⟩ := List.mem_flatMap.mp hy
        have hreach := Reaches.last (hs.kept w d ((h.mem_layer w).mp hw)) hwy hfree rfl
        refine ⟨by omega, fun z => ?_, exists_free_of_reaches (fun z e hz => ?_) hreach⟩
        · rw [← h.zero_iff]
          refine ⟨fun hz => (hs.cases z 0 hz).resolve_right fun hn => ?_, hs.kept z 0⟩
          rw [(hs.mem_next z hn).1] at hz
          simp at hz
        · rcases hs.cases z (e + 1) hz with hz | hn
          · obtain ⟨w, y, hw, hy, hright⟩ := h.above z e hz
            exact ⟨w, y, hs.kept w e hw, hy, hright⟩
          · obtain ⟨hz', -, y, hy, hright⟩ := hs.mem_next z hn
            rw [hz] at hz'
            simp only [Option.some.injEq] at hz'
            obtain ⟨w, hw, hwy⟩ := List.mem_flatMap.mp hy
            have hed : e = d := by omega
            subst hed
            exact ⟨w, y, hs.kept w e ((h.mem_layer w).mp hw), hwy, hright⟩
      next hfound =>
        exact ih (by omega) (h.next hg hp (by simp) (by simpa using hfound))

/-- Distances stay below the number of left vertices. -/
theorem layersFrom_bounded (hfuel : d + fuel = g.leftSize + 1) (h : Layered g p d layer depth) :
    (g.layersFrom p fuel d layer depth).1.size = g.leftSize ∧
      ∀ x e : Nat, (g.layersFrom p fuel d layer depth).1[x]? = some (some e) → e < g.leftSize := by
  induction fuel generalizing d layer depth with
  | zero => exact ⟨h.size_eq, fun x e => h.depth_lt⟩
  | succ fuel ih =>
    cases layer with
    | nil => exact ⟨h.size_eq, fun x e => h.depth_lt⟩
    | cons w layer =>
      unfold layersFrom
      simp only
      split
      next =>
        have hs := follow_spec p d depth ((w :: layer).flatMap g.neighbours)
        refine ⟨hs.size_eq.trans h.size_eq, fun x e hx => ?_⟩
        rcases hs.cases x e hx with hold | hnew
        · exact h.depth_lt hold
        · -- all layers above the one being made are inhabited
          have hed := (hs.mem_next x hnew).1
          rw [hx] at hed
          simp only [Option.some.injEq] at hed
          subst hed
          rw [← h.size_eq, ← hs.size_eq]
          refine lt_size_of_inhabited fun e he => ?_
          rcases Nat.lt_trichotomy e d with hlt | rfl | hgt
          · obtain ⟨z, hz⟩ := h.inhabited e hlt
            exact ⟨z, hs.kept z e hz⟩
          · exact ⟨w, hs.kept w e ((h.mem_layer w).mp (by simp))⟩
          · have hed : e = d + 1 := by omega
            exact ⟨x, by rw [hed]; exact hx⟩
      next hfound =>
        exact ih (by omega) (h.next hg hp (by simp) (by simpa using hfound))

omit hg hp in
/-- Writing one value at the places of a list. -/
theorem getElem?_foldl_set {α : Type} (f : Nat → α) (l : List Nat) (a : Array α) (x : Nat) :
    (l.foldl (fun a x => a.setIfInBounds x (f x)) a).size = a.size ∧
      (l.foldl (fun a x => a.setIfInBounds x (f x)) a)[x]? =
        if x ∈ l ∧ x < a.size then some (f x) else a[x]? := by
  induction l generalizing a with
  | nil => simp
  | cons y l ih =>
    rw [List.foldl_cons, (ih _).1, (ih _).2, Array.size_setIfInBounds,
      Array.getElem?_setIfInBounds]
    refine ⟨rfl, ?_⟩
    grind

omit hg in
/-- The free vertices are the first layer. -/
theorem layered_free : Layered g p 0 ((List.range g.leftSize).filter p.isFree)
    (((List.range g.leftSize).filter p.isFree).foldl
      (fun depth x => depth.setIfInBounds x (some 0)) (.replicate g.leftSize none)) := by
  have hfree : ∀ x, x ∈ (List.range g.leftSize).filter p.isFree ↔ p.isFree x := by
    intro x
    rw [List.mem_filter, List.mem_range, and_iff_right_of_imp]
    intro hx
    rw [← hp.left_size]
    exact (isFree_iff.mp hx).2.1
  generalize (List.range g.leftSize).filter p.isFree = free at hfree
  generalize hdepth : free.foldl (fun depth x => depth.setIfInBounds x (some 0))
    (Array.replicate g.leftSize none) = depth
  have hsize : depth.size = g.leftSize := by
    rw [← hdepth, (getElem?_foldl_set (fun _ => some 0) _ _ 0).1, Array.size_replicate]
  have hget : ∀ x e : Nat, depth[x]? = some (some e) ↔ e = 0 ∧ x ∈ free := by
    intro x e
    rw [← hdepth, (getElem?_foldl_set (fun _ => some 0) _ _ x).2, Array.size_replicate]
    by_cases hx : x ∈ free
    · have hlt : x < g.leftSize := by
        rw [← hp.left_size]
        exact (isFree_iff.mp ((hfree x).mp hx)).2.1
      simp [hx, hlt, eq_comm]
    · simp [hx, Array.getElem?_replicate]
  exact {
    size_eq := hsize
    le := fun x e hx => Nat.le_of_eq ((hget x e).mp hx).1
    mem_layer := fun x => by rw [hget, and_iff_right rfl]
    above := fun x e hx => by
      have := ((hget x _).mp hx).1
      omega
    zero_iff := fun x => by rw [hget, and_iff_right rfl, hfree]
    closed := fun x e y _ he => absurd he (Nat.not_lt_zero e)
    inhabited := fun e he => absurd he (Nat.not_lt_zero e) }

/-- **What the layers tell of a pairing.** -/
theorem layers_spec : Surveyed g p (g.layers p) :=
  layersFrom_spec hg hp (Nat.zero_add _) (layered_free hp)

end Spec

end BipartiteGraph

end Bigraphs
