import Bigraphs.Bipartite.Matcher
import Bigraphs.Proofs.Bipartite.Maximum

/-! # The matcher finds a maximum pairing

Every run of the matcher goes through, whatever is left over from the runs before, and makes the pairing
of `BipartiteGraph.maximum` (`maxCardinality_eq`): it reads inside its arrays, ends, and never goes
further than what is infinitely far. So it returns the greatest size of a matching, and what it reports
is a matching of that size together with all vertices that are left over (`maxCardinality_spec`).

The steps are followed one by one. The queue holds what is left of one layer and, behind it, the next
layer (`drain_layer`); in which order a layer is worked off does not matter (`Followed.unique`). A search
that is under way reads its own distance again after every search below it that has failed; that one has
taken nothing out of the layers but its own and deeper ones (`Spares`). In every sweep a pair is gained,
and when as many pairs are made as there are left vertices, none of them is free (`improve_eq`). -/

namespace Bigraphs

namespace BipartiteMatcher

open BipartiteGraph Pairing

variable {g : BipartiteGraph} {m : BipartiteMatcher} {p : Pairing} {depth : Array (Option Nat)}
  {d target x y : Nat}

/-! ### Reading and writing -/

theorem adjacency_eq (hx : x < g.leftSize) : g.adjacency[x]? = some (g.neighbours x) := by
  have hx : x < g.adjacency.size := hx
  rw [neighbours, Array.getElem?_eq_getElem hx]; rfl

theorem further_eq (h : d + 1 < infinity) : further (some d) = some (d + 1) := if_pos h

theorem isFree_eq (hx : x < m.pairing.left.size) : m.isFree x = some (m.pairing.isFree x) := by
  unfold isFree Pairing.isFree
  by_cases hheld : m.pairing.heldOut = some x
  · rw [if_pos hheld, hheld]
    simp
  · rw [if_neg hheld, Array.getElem?_eq_getElem hx]
    cases m.pairing.left[x] <;> simp [hheld]

theorem join_eq (hx : x < m.pairing.left.size) (hy : y < m.pairing.right.size) :
    m.join x y = some { m with pairing := m.pairing.join x y } :=
  if_pos ⟨hx, hy⟩

theorem setDist_eq (hx : x < m.dist.size) (d : Option Nat) :
    m.setDist x d = some { m with dist := m.dist.setIfInBounds x d } :=
  if_pos hx

/-! ### The greedy start -/

theorem firstFree_eq {ys : List Nat} (h : ∀ y ∈ ys, y < m.pairing.right.size) :
    m.firstFree ys = some (ys.find? (m.pairing.right[·]? = some none)) := by
  induction ys with
  | nil => rfl
  | cons y ys ih =>
    have hlt := h y (by simp)
    unfold firstFree
    rw [List.find?_cons, Array.getElem?_eq_getElem hlt]
    cases m.pairing.right[y] with
    | none => simp
    | some z => simpa using ih fun w hw => h w (by simp [hw])

theorem size_join (hx : x < p.left.size) (hfree : p.partner x = none) :
    (p.join x y).size = p.size + 1 := by
  refine size_of_matched hfree fun v => ?_
  rw [partner_join hx]
  by_cases hv : v = x <;> simp [hv]

section Greedy
variable (hg : g.InRange)
include hg

theorem claim_eq (hp : m.pairing.Valid g) (hx : x < g.leftSize) (hfree : m.pairing.partner x = none) :
    claim g (m.pairing.size, m) x =
      some ((g.claim m.pairing x).size, { m with pairing := g.claim m.pairing x }) := by
  have hright : ∀ y ∈ g.neighbours x, y < m.pairing.right.size := fun y hy => by
    rw [hp.right_size]
    exact (lt_of_mem_neighbours hg hy).2
  have hlt : x < m.pairing.left.size := by rw [hp.left_size]; exact hx
  unfold claim BipartiteGraph.claim
  by_cases hheld : m.pairing.heldOut = some x
  · simp [hheld]
  · simp only [hheld, if_false, adjacency_eq hx, firstFree_eq hright, Option.bind_eq_bind,
      Option.bind_some]
    cases hfind : (g.neighbours x).find? (m.pairing.right[·]? = some none) with
    | none => rfl
    | some y =>
      simp only [join_eq hlt (hright y (List.mem_of_find?_eq_some hfind)), Option.bind_some,
        size_join hlt hfree]
      rfl

/-- **The greedy start** counts the pairs that it makes. -/
theorem claims_eq {l : List Nat} (hl : l.Nodup) (hlt : ∀ x ∈ l, x < g.leftSize)
    (hp : m.pairing.Valid g) (hfree : ∀ x ∈ l, m.pairing.partner x = none) :
    l.foldlM (claim g) (m.pairing.size, m) = some ((l.foldl g.claim m.pairing).size,
      { m with pairing := l.foldl g.claim m.pairing }) := by
  induction l generalizing m with
  | nil => rfl
  | cons x l ih =>
    obtain ⟨hx, hl⟩ := List.nodup_cons.mp hl
    obtain ⟨hvalid, -, hothers⟩ := claim_spec hp (hlt x (by simp)) (hfree x (by simp))
    rw [List.foldlM_cons, claim_eq hg hp (hlt x (by simp)) (hfree x (by simp)), List.foldl_cons]
    refine ih (m := { m with pairing := g.claim m.pairing x }) hl (fun v hv => hlt v (by simp [hv]))
      hvalid fun v hv => ?_
    rw [hothers v (by rintro rfl; exact hx hv), hfree v (by simp [hv])]

end Greedy

/-! ### One layer -/

/-- The matcher at work on the layer at distance `d`: `rest` of the layer is in the queue, and behind it
what has been found of the next one. -/
def inLayer (p : Pairing) (rest : List Nat) (d : Nat) (s : Layer) : BipartiteMatcher :=
  ⟨p, s.depth, rest ++ s.next.reverse, if s.found then some (d + 1) else none⟩

variable {s : Layer} {rest : List Nat}

theorem follow_eq (hd : s.depth[x]? = some (some d)) (hfits : d + 1 < infinity)
    (hy : y < p.right.size) (hz : ∀ z : Nat, p.right[y]? = some (some z) → z < s.depth.size) :
    follow x (inLayer p rest d s) y = some (inLayer p rest d (BipartiteGraph.follow p d s y)) := by
  unfold follow BipartiteGraph.follow
  simp only [inLayer, Array.getElem?_eq_getElem hy, Option.bind_eq_bind, Option.bind_some] at hz ⊢
  cases hright : p.right[y] with
  | none =>
    cases hfound : s.found <;> simp [hd, further_eq hfits]
  | some z =>
    have hlt := hz z (by rw [hright])
    simp only [Array.getElem?_eq_getElem hlt, Option.bind_some, Option.some.injEq]
    cases hold : s.depth[z] with
    | some e => simp
    | none => simp [hd, further_eq hfits, setDist, hlt]

/-- The edges lead to right vertices whose partners are in the layers. -/
def EdgesFit (p : Pairing) (depth : Array (Option Nat)) (ys : List Nat) : Prop :=
  ∀ y ∈ ys, y < p.right.size ∧ ∀ z : Nat, p.right[y]? = some (some z) → z < depth.size

theorem follow_step (p : Pairing) (d y : Nat) (s : Layer) :
    (BipartiteGraph.follow p d s y).depth.size = s.depth.size ∧
      ∀ x e : Nat, s.depth[x]? = some (some e) →
        (BipartiteGraph.follow p d s y).depth[x]? = some (some e) := by
  unfold BipartiteGraph.follow
  rcases p.right[y]? with _ | _ | z
  · exact ⟨rfl, fun _ _ h => h⟩
  · exact ⟨rfl, fun _ _ h => h⟩
  · simp only
    split
    next hnew =>
      refine ⟨Array.size_setIfInBounds, fun x e hx => ?_⟩
      rw [Array.getElem?_setIfInBounds, if_neg, hx]
      rintro rfl
      rw [hnew] at hx
      simp at hx
    next => exact ⟨rfl, fun _ _ h => h⟩

theorem follow_fold (p : Pairing) (d : Nat) (ys : List Nat) (s : Layer) :
    (ys.foldl (BipartiteGraph.follow p d) s).depth.size = s.depth.size ∧
      ∀ x e : Nat, s.depth[x]? = some (some e) →
        (ys.foldl (BipartiteGraph.follow p d) s).depth[x]? = some (some e) := by
  induction ys generalizing s with
  | nil => exact ⟨rfl, fun _ _ h => h⟩
  | cons y ys ih =>
    obtain ⟨hsize, hkept⟩ := ih (BipartiteGraph.follow p d s y)
    obtain ⟨hsize', hkept'⟩ := follow_step p d y s
    exact ⟨hsize.trans hsize', fun x e hx => hkept x e (hkept' x e hx)⟩

theorem follows_eq {ys : List Nat} (hd : s.depth[x]? = some (some d)) (hfits : d + 1 < infinity)
    (hys : EdgesFit p s.depth ys) :
    ys.foldlM (follow x) (inLayer p rest d s) =
      some (inLayer p rest d (ys.foldl (BipartiteGraph.follow p d) s)) := by
  induction ys generalizing s with
  | nil => rfl
  | cons y ys ih =>
    obtain ⟨hsize, hkept⟩ := follow_step p d y s
    obtain ⟨hy, hz⟩ := hys y (by simp)
    rw [List.foldlM_cons, follow_eq hd hfits hy hz, List.foldl_cons]
    refine ih (hkept x d hd) fun w hw => ?_
    rw [hsize]
    exact hys w (by simp [hw])

/-- A vertex of the layer is worked off. -/
theorem drain_cons (hx : x < g.leftSize) (hd : s.depth[x]? = some (some d)) (hfits : d + 1 < infinity)
    (hys : EdgesFit p s.depth (g.neighbours x)) :
    drain g (inLayer p (x :: rest) d s) =
      drain g (inLayer p rest d ((g.neighbours x).foldl (BipartiteGraph.follow p d) s)) := by
  have hnear : atLeast (some d) (inLayer p rest d s).nilDist = false := by
    unfold inLayer atLeast
    cases s.found <;> simp
  rw [← Option.bind_some (f := drain g) (inLayer p rest d ((g.neighbours x).foldl _ s)),
    ← follows_eq hd hfits hys, drain]
  simp only [inLayer, List.cons_append, hd, adjacency_eq hx, Option.bind_eq_bind,
    Option.bind_some] at hnear ⊢
  rw [if_neg (by simp [hnear])]
  split
  next hnone => rw [hnone]; rfl
  next m' hsome => rw [hsome]; rfl

/-- **A layer is worked off.** -/
theorem drain_layer (hg : g.InRange) (hp : p.Valid g) (hsize : s.depth.size = g.leftSize)
    (hlayer : ∀ x ∈ rest, s.depth[x]? = some (some d)) (hfits : d + 1 < infinity) :
    drain g (inLayer p rest d s) = drain g (inLayer p [] d
      ((rest.flatMap g.neighbours).foldl (BipartiteGraph.follow p d) s)) := by
  induction rest generalizing s with
  | nil => rfl
  | cons x rest ih =>
    have hd := hlayer x (by simp)
    have hx : x < g.leftSize := by
      rw [← hsize]
      exact (Array.getElem?_eq_some_iff.mp hd).1
    have hys : EdgesFit p s.depth (g.neighbours x) := by
      intro y hy
      refine ⟨by rw [hp.right_size]; exact (lt_of_mem_neighbours hg hy).2, fun z hz => ?_⟩
      rw [hsize, ← hp.left_size]
      exact lt_of_partner (hp.partner_iff.mpr hz)
    obtain ⟨hsize', hkept⟩ := follow_fold p d (g.neighbours x) s
    rw [drain_cons hx hd hfits hys, List.flatMap_cons, List.foldl_append]
    exact ih (hsize'.trans hsize) fun w hw => hkept w d (hlayer w (by simp [hw]))

/-- What is as far as the nearest free right vertex is taken from the queue and left alone. -/
theorem drain_far {queue : List Nat} (h : ∀ x ∈ queue, depth[x]? = some (some d)) :
    drain g ⟨p, depth, queue, some d⟩ = some ⟨p, depth, [], some d⟩ := by
  induction queue with
  | nil => rw [drain]; rfl
  | cons x queue ih =>
    rw [drain]
    simp only [h x (by simp), Option.bind_eq_bind, Option.bind_some, atLeast, Nat.le_refl,
      decide_true, if_true]
    exact ih fun w hw => h w (by simp [hw])

theorem drain_nil {queue : List Nat} (hqueue : ∀ x, x ∈ queue ↔ x ∈ ([] : List Nat)) :
    drain g ⟨p, depth, queue, none⟩ = some ⟨p, depth, [], none⟩ := by
  rw [List.eq_nil_iff_forall_not_mem.mpr fun x hx => List.not_mem_nil ((hqueue x).mp hx), drain]
  rfl

section Layers
variable (hg : g.InRange) (hp : p.Valid g) (hfits : g.leftSize < infinity)
include hg hp hfits

/-- **The queue builds the layers,** in whatever order it holds the first of them. -/
theorem drain_eq {fuel : Nat} {queue layer : List Nat} (hfuel : d + fuel = g.leftSize + 1)
    (h : Layered g p d layer depth) (hqueue : ∀ x, x ∈ queue ↔ x ∈ layer) :
    drain g ⟨p, depth, queue, none⟩ = some ⟨p, (g.layersFrom p fuel d layer depth).1, [],
      (g.layersFrom p fuel d layer depth).2⟩ := by
  induction fuel generalizing d queue layer depth with
  | zero =>
    rcases layer.eq_nil_or_concat with rfl | ⟨_, _, rfl⟩
    · exact drain_nil hqueue
    · have := h.lt_leftSize (by simp)
      omega
  | succ fuel ih =>
    cases layer with
    | nil => exact drain_nil hqueue
    | cons w layer =>
      have hd := h.lt_leftSize (by simp)
      have hlayer : ∀ x ∈ queue, depth[x]? = some (some d) := fun x hx =>
        (h.mem_layer x).mp ((hqueue x).mp hx)
      have hedges : ∀ y, y ∈ queue.flatMap g.neighbours ↔ y ∈ (w :: layer).flatMap g.neighbours := by
        intro y
        simp only [List.mem_flatMap, hqueue]
      obtain ⟨hdepth, hfound, hnext⟩ := (follow_spec p d depth (queue.flatMap g.neighbours)).unique
        (follow_spec p d depth ((w :: layer).flatMap g.neighbours)) hedges fun y _ z hz => by
          rw [h.size_eq, ← hp.left_size]
          exact lt_of_partner (hp.partner_iff.mpr hz)
      have hstart : BipartiteMatcher.mk p depth queue none = inLayer p queue d ⟨depth, [], false⟩ := by
        simp [inLayer]
      rw [hstart, drain_layer hg hp h.size_eq hlayer (by omega)]
      have hs := follow_spec p d depth (queue.flatMap g.neighbours)
      unfold layersFrom
      simp only
      generalize (queue.flatMap g.neighbours).foldl (BipartiteGraph.follow p d) ⟨depth, [], false⟩ = s
        at hdepth hfound hnext hs
      split
      next hyes =>
        rw [hyes] at hfound
        have hfar : ∀ x ∈ s.next.reverse, s.depth[x]? = some (some (d + 1)) := fun x hx =>
          (hs.mem_next x (List.mem_reverse.mp hx)).1
        simp only [inLayer, hfound, if_true, List.nil_append]
        rw [drain_far hfar, hdepth]
      next hno =>
        have hnot := (Bool.not_eq_true _).mp hno
        have hih := ih (by omega) (h.next hg hp (by simp) hnot) fun x =>
          List.mem_reverse.trans (hnext x)
        simpa only [inLayer, hfound, hnot, List.nil_append, hdepth, if_neg Bool.false_ne_true] using hih

omit hg hp hfits in
theorem start_step (hleft : x < m.pairing.left.size) (hdist : x < m.dist.size) :
    start m x = some { m with
      dist := m.dist.setIfInBounds x (if m.pairing.isFree x then some 0 else none)
      queue := m.queue ++ if m.pairing.isFree x then [x] else [] } := by
  unfold start
  simp only [isFree_eq hleft, setDist_eq hdist, Option.bind_eq_bind, Option.bind_some]
  cases m.pairing.isFree x with
  | true => rfl
  | false => simp

omit hg hp hfits in
/-- **The free vertices** are put into the queue. -/
theorem starts_eq {l : List Nat} (hl : ∀ x ∈ l, x < m.pairing.left.size ∧ x < m.dist.size) :
    l.foldlM start m = some { m with
      dist := l.foldl (fun a x => a.setIfInBounds x (if m.pairing.isFree x then some 0 else none)) m.dist
      queue := m.queue ++ l.filter m.pairing.isFree } := by
  induction l generalizing m with
  | nil => simp
  | cons x l ih =>
    obtain ⟨hleft, hdist⟩ := hl x (by simp)
    rw [List.foldlM_cons, start_step hleft hdist]
    refine (ih fun w hw => ?_).trans ?_
    · rw [Array.size_setIfInBounds]
      exact hl w (by simp [hw])
    · rw [List.foldl_cons, List.append_assoc, List.filter_cons]
      cases m.pairing.isFree x <;> simp

omit hg hp hfits in
/-- The free vertices are at distance 0, the others infinitely far. -/
theorem start_dist {dist : Array (Option Nat)} (hdist : dist.size = g.leftSize) :
    (List.range g.leftSize).foldl (fun a x => a.setIfInBounds x (if p.isFree x then some 0 else none))
      dist = ((List.range g.leftSize).filter p.isFree).foldl (fun a x => a.setIfInBounds x (some 0))
        (.replicate g.leftSize none) := by
  refine Array.ext_getElem? fun x => ?_
  rw [(getElem?_foldl_set (fun x => if p.isFree x then some 0 else none) _ _ x).2,
    (getElem?_foldl_set (fun _ => some 0) _ _ x).2, hdist, Array.size_replicate,
    Array.getElem?_replicate]
  by_cases hx : x < g.leftSize
  · cases hfree : p.isFree x <;> simp [hx, hfree]
  · have hnone : dist[x]? = none := Array.getElem?_eq_none (by omega)
    simp [hx, hnone]

omit hp in
/-- **The matcher builds the layers** of the pairing. -/
theorem layer_eq (hp : m.pairing.Valid g) (hdist : m.dist.size = g.leftSize) :
    layer g m = some ((g.layers m.pairing).2.isSome,
      ⟨m.pairing, (g.layers m.pairing).1, [], (g.layers m.pairing).2⟩) := by
  have hstart := starts_eq (m := { m with queue := [] }) (l := List.range g.leftSize) fun x hx => by
    rw [hp.left_size, hdist]
    exact ⟨List.mem_range.mp hx, List.mem_range.mp hx⟩
  have hdrain := drain_eq hg hp hfits (Nat.zero_add _) (layered_free hp) fun x => Iff.rfl
  unfold layer BipartiteGraph.layers
  simp only [hstart, start_dist hdist, Option.bind_eq_bind, Option.bind_some, List.nil_append, hdrain]
  rfl

end Layers

/-! ### Augmenting paths -/

/-- The outcome of a search, written into the matcher. -/
def after (m : BipartiteMatcher) (r : Bool × Sweep) : Bool × BipartiteMatcher :=
  (r.1, { m with pairing := r.2.pairing, dist := r.2.depth })

/-- The matcher in the middle of a sweep. -/
structure Sweeping (g : BipartiteGraph) (target : Nat) (m : BipartiteMatcher) : Prop where
  valid : m.pairing.Valid g
  dist_size : m.dist.size = g.leftSize
  dist_lt : ∀ x e : Nat, m.dist[x]? = some (some e) → e < g.leftSize
  nilDist_eq : m.nilDist = some target

section Search
variable (hg : g.InRange) (hfits : g.leftSize < infinity)
include hg hfits

/-- The edges of `x` are tried in turn. -/
theorem tryEdges_eq {seekDeeper : Nat → BipartiteMatcher → Option (Bool × BipartiteMatcher)}
    {deeper : Nat → Sweep → Bool × Sweep}
    (hdeeper : ∀ z m, Sweeping g target m → m.dist[z]? = some (some (d + 1)) →
      seekDeeper z m = some (after m (deeper z ⟨m.pairing, m.dist⟩)) ∧
      Sought g target (d + 1) z ⟨m.pairing, m.dist⟩ (deeper z ⟨m.pairing, m.dist⟩) ∧
      Spares (d + 1) z m.dist (deeper z ⟨m.pairing, m.dist⟩).2.depth)
    {ys : List Nat} (hm : Sweeping g target m) (hd : m.dist[x]? = some (some d))
    (hys : ∀ y ∈ ys, y ∈ g.neighbours x) :
    tryEdges seekDeeper x ys m =
      some (after m (BipartiteGraph.tryEdges deeper target d x ys ⟨m.pairing, m.dist⟩)) := by
  have hfurther : further (some d) = some (d + 1) := further_eq (by have := hm.dist_lt x d hd; omega)
  have hxd : x < m.dist.size := (Array.getElem?_eq_some_iff.mp hd).1
  have hxl : x < m.pairing.left.size := by rw [hm.valid.left_size, ← hm.dist_size]; exact hxd
  induction ys generalizing m with
  | nil =>
    unfold tryEdges
    simp only [setDist_eq hxd, Option.bind_eq_bind, Option.bind_some]
    rfl
  | cons y ys ih =>
    have hy : y < m.pairing.right.size := by
      rw [hm.valid.right_size]
      exact (lt_of_mem_neighbours hg (hys y (by simp))).2
    have hskip := ih hm hd (fun w hw => hys w (by simp [hw])) hxd hxl
    unfold tryEdges BipartiteGraph.tryEdges
    simp only [hd, hfurther, Array.getElem?_eq_getElem hy, Option.bind_eq_bind, Option.bind_some]
    cases hright : m.pairing.right[y] with
    | none =>
      have hnear : m.nilDist = some (d + 1) ↔ d + 1 = target := by
        rw [hm.nilDist_eq, Option.some.injEq, eq_comm]
      simp only [hnear, join_eq hxl hy, Option.bind_some]
      split
      · rfl
      · exact hskip
    | some z =>
      have hright' : m.pairing.right[y]? = some (some z) := by
        rw [Array.getElem?_eq_getElem hy, hright]
      have hz : z < m.dist.size := by
        rw [hm.dist_size, ← hm.valid.left_size]
        exact lt_of_partner (hm.valid.partner_iff.mpr hright')
      simp only [Array.getElem?_eq_getElem hz, Option.bind_some, Option.some.injEq]
      by_cases hlevel : m.dist[z] = some (d + 1)
      · rw [if_pos hlevel, if_pos hlevel]
        have hzd : m.dist[z]? = some (some (d + 1)) := by rw [Array.getElem?_eq_getElem hz, hlevel]
        obtain ⟨heq, hsought, hspares⟩ := hdeeper z m hm hzd
        rw [heq]
        generalize deeper z ⟨m.pairing, m.dist⟩ = r at hsought hspares
        obtain ⟨found, s⟩ := r
        simp only [after, Option.bind_some]
        cases found with
        | true =>
          have hturned : Turned g m.dist (d + 1) z m.pairing s.pairing := hsought.turned rfl
          have hjoin := join_eq (m := { m with pairing := s.pairing, dist := s.depth })
            (by rw [hturned.left_size]; exact hxl) (by rw [hturned.right_size]; exact hy)
          simp only [if_true, hjoin, Option.bind_some]
          rfl
        | false =>
          -- the search below has failed: the pairs and the distance of `x` are as before
          have hpairing : s.pairing = m.pairing := hsought.pairing_eq rfl
          have hm' : Sweeping g target { m with pairing := s.pairing, dist := s.depth } :=
            ⟨by rw [hpairing]; exact hm.valid, hspares.size_eq.trans hm.dist_size,
              fun w e hw => hm.dist_lt w e (hsought.shrinks w e hw), hm.nilDist_eq⟩
          have hd' : s.depth[x]? = some (some d) := hspares.above hzd (Nat.le_refl d) hd
          exact ih hm' hd' (fun w hw => hys w (by simp [hw]))
            (by rw [hspares.size_eq]; exact hxd) (by rw [hpairing]; exact hxl)
      · rw [if_neg hlevel, if_neg hlevel]
        exact hskip

theorem augmentWithin_eq {fuel layers : Nat} (hlayers : fuel ≤ layers)
    (hfuel : d + fuel = g.leftSize + 1) (htarget : target ≤ g.leftSize + 1) (hm : Sweeping g target m)
    (hd : m.dist[x]? = some (some d)) :
    augmentWithin g layers x m = some (after m (g.augment target fuel d x ⟨m.pairing, m.dist⟩)) := by
  induction fuel generalizing d x m layers with
  | zero =>
    have := hm.dist_lt x d hd
    omega
  | succ fuel ih =>
    obtain ⟨layers, rfl⟩ := Nat.exists_eq_add_of_le' (Nat.le_of_add_left_le hlayers)
    have hx : x < g.leftSize := by
      rw [← hm.dist_size]
      exact (Array.getElem?_eq_some_iff.mp hd).1
    have hdeeper : ∀ z m, Sweeping g target m → m.dist[z]? = some (some (d + 1)) →
        augmentWithin g layers z m =
          some (after m (g.augment target fuel (d + 1) z ⟨m.pairing, m.dist⟩)) :=
      fun z m hm hz => ih (by omega) (by omega) hm hz
    unfold augmentWithin BipartiteGraph.augment
    simp only [adjacency_eq hx, Option.bind_eq_bind, Option.bind_some]
    refine tryEdges_eq hg hfits (fun z m hm hz => ⟨hdeeper z m hm hz, ?_,
      spares_augment fuel (Sweep.mk m.pairing m.dist)⟩) hm hd fun _ h => h
    have hzl : z < m.pairing.left.size := by
      rw [hm.valid.left_size, ← hm.dist_size]
      exact (Array.getElem?_eq_some_iff.mp hz).1
    refine augment_spec (by omega) hm.valid hzl fun e he => ?_
    rw [hz] at he
    simp only [Option.some.injEq] at he
    exact he.symm

/-- **The matcher seeks a path as** `BipartiteGraph.augment` does. -/
theorem augment_eq (htarget : target ≤ g.leftSize + 1) (hm : Sweeping g target m)
    (hd : m.dist[x]? = some (some 0)) :
    augment g x m =
      some (after m (g.augment target (g.leftSize + 1) 0 x ⟨m.pairing, m.dist⟩)) :=
  augmentWithin_eq hg hfits hfits (Nat.zero_add _) htarget hm hd

/-! ### One sweep -/

omit hg hfits in
/-- The turn of `x` in a sweep. -/
def turn (g : BipartiteGraph) (target : Nat) (s : Sweep) (x : Nat) : Sweep :=
  if s.pairing.isFree x then (g.augment target (g.leftSize + 1) 0 x s).2 else s

/-- The matcher with the pairs and the distances of `s`. -/
def withSweep (m : BipartiteMatcher) (s : Sweep) : BipartiteMatcher :=
  { m with pairing := s.pairing, dist := s.depth }

/-- What the turn of `x` keeps. -/
structure TurnOf (g : BipartiteGraph) (target x : Nat) (m m' : BipartiteMatcher) : Prop where
  sweeping : Sweeping g target m'
  isFree : ∀ v, m'.pairing.isFree v → m.pairing.isFree v
  zero : ∀ v : Nat, v ≠ x → m.dist[v]? = some (some 0) → m'.dist[v]? = some (some 0)

/-- **The turn of one vertex.** A pair that is made is counted. -/
theorem seek_eq (htarget : target ≤ g.leftSize + 1) (hm : Sweeping g target m) (hx : x < g.leftSize)
    (hzero : m.pairing.isFree x → m.dist[x]? = some (some 0)) :
    seek g (m.pairing.size, m) x = some ((turn g target ⟨m.pairing, m.dist⟩ x).pairing.size,
      m.withSweep (turn g target ⟨m.pairing, m.dist⟩ x)) ∧
    TurnOf g target x m (m.withSweep (turn g target ⟨m.pairing, m.dist⟩ x)) := by
  have hlt : x < m.pairing.left.size := by rw [hm.valid.left_size]; exact hx
  unfold seek turn
  simp only [isFree_eq hlt, Option.bind_eq_bind, Option.bind_some]
  split
  next hfree =>
    have hd := hzero hfree
    obtain ⟨hheld, -, hpartner⟩ := isFree_iff.mp hfree
    have hlevel : OnLevel m.dist 0 x := fun e he => by
      rw [hd] at he
      simp only [Option.some.injEq] at he
      exact he.symm
    have hfuel : target ≤ 0 + (g.leftSize + 1) := by omega
    have hsought := augment_spec (s := ⟨m.pairing, m.dist⟩) hfuel hm.valid hlt hlevel
    have hspares : Spares 0 x m.dist
        (g.augment target (g.leftSize + 1) 0 x ⟨m.pairing, m.dist⟩).2.depth :=
      spares_augment _ (Sweep.mk m.pairing m.dist)
    rw [augment_eq hg hfits htarget hm hd]
    generalize g.augment target (g.leftSize + 1) 0 x ⟨m.pairing, m.dist⟩ = r at hsought hspares
    obtain ⟨found, s⟩ := r
    have hdist_lt : ∀ z e : Nat, s.depth[z]? = some (some e) → e < g.leftSize := fun z e hz =>
      hm.dist_lt z e (hsought.shrinks z e hz)
    have hzeros : ∀ v : Nat, v ≠ x → m.dist[v]? = some (some 0) → s.depth[v]? = some (some 0) :=
      fun v hv => hspares.kept v 0 hv (Nat.le_refl 0)
    cases found with
    | true =>
      have hturned : Turned g m.dist 0 x m.pairing s.pairing := hsought.turned rfl
      refine ⟨?_, ⟨hturned.valid hm.valid hpartner hheld, hspares.size_eq.trans hm.dist_size,
        hdist_lt, hm.nilDist_eq⟩, fun v hv => ?_, hzeros⟩
      · rw [hturned.size_eq hpartner]; rfl
      · exact hturned.isFree hv
    | false =>
      have hpairing : s.pairing = m.pairing := hsought.pairing_eq rfl
      refine ⟨?_, ⟨by rw [withSweep, hpairing]; exact hm.valid, hspares.size_eq.trans hm.dist_size,
        hdist_lt, hm.nilDist_eq⟩, fun v hv => ?_, hzeros⟩
      · rw [hpairing]; rfl
      · rwa [withSweep, hpairing] at hv
  next => exact ⟨rfl, hm, fun _ h => h, fun _ _ h => h⟩

/-- **A sweep** goes through, and counts the pairs. -/
theorem seeks_eq (htarget : target ≤ g.leftSize + 1) {l : List Nat} (hl : l.Nodup)
    (hlt : ∀ x ∈ l, x < g.leftSize) (hm : Sweeping g target m)
    (hzero : ∀ x ∈ l, m.pairing.isFree x → m.dist[x]? = some (some 0)) :
    l.foldlM (seek g) (m.pairing.size, m) =
      some ((l.foldl (turn g target) ⟨m.pairing, m.dist⟩).pairing.size,
        m.withSweep (l.foldl (turn g target) ⟨m.pairing, m.dist⟩)) ∧
    Sweeping g target (m.withSweep (l.foldl (turn g target) ⟨m.pairing, m.dist⟩)) := by
  induction l generalizing m with
  | nil => exact ⟨rfl, hm⟩
  | cons x l ih =>
    obtain ⟨hx, hl⟩ := List.nodup_cons.mp hl
    obtain ⟨heq, hturn⟩ := seek_eq hg hfits htarget hm (hlt x (by simp)) (hzero x (by simp))
    rw [List.foldlM_cons, heq, List.foldl_cons]
    generalize turn g target ⟨m.pairing, m.dist⟩ x = s at hturn
    exact ih (m := m.withSweep s) hl (fun v hv => hlt v (by simp [hv])) hturn.sweeping
      fun v hv hfree => hturn.zero v (by rintro rfl; exact hx hv)
        (hzero v (by simp [hv]) (hturn.isFree v hfree))

end Search

/-! ### All sweeps -/

/-- The left vertices that take part. -/
def places (g : BipartiteGraph) (heldOut : Option Nat) : Nat :=
  g.leftSize - if heldOut.any (· < g.leftSize) then 1 else 0

/-- When there are as many pairs as left vertices that take part, none of these is free. -/
theorem isFree_eq_false_of_places (hp : p.Valid g) (h : places g p.heldOut ≤ p.size) (x : Nat) :
    p.isFree x = false := by
  refine Bool.eq_false_iff.mpr fun hfree => ?_
  obtain ⟨hheld, hx, hpartner⟩ := isFree_iff.mp hfree
  have hmatched : ∀ v ∈ p.matchedLeft, v < p.left.size ∧ v ≠ x ∧ p.heldOut ≠ some v := by
    intro v hv
    obtain ⟨y, hy⟩ := mem_matchedLeft.mp hv
    refine ⟨lt_of_partner hy, ?_, fun hv => ?_⟩
    · rintro rfl
      rw [hpartner] at hy
      cases hy
    · rw [hp.held_free hv] at hy
      cases hy
  have hnodup : (x :: p.matchedLeft).Nodup :=
    List.nodup_cons.mpr ⟨fun hmem => (hmatched x hmem).2.1 rfl, nodup_matchedLeft⟩
  rw [size_eq] at h
  unfold places at h
  split at h
  next hin =>
    obtain ⟨k, hk, hlt⟩ := (Option.any_eq_true ..).mp hin
    have hnodup' : (k :: x :: p.matchedLeft).Nodup := by
      refine List.nodup_cons.mpr ⟨fun hmem => ?_, hnodup⟩
      rcases List.mem_cons.mp hmem with rfl | hmem
      · exact hheld hk
      · exact (hmatched k hmem).2.2 hk
    have hle := length_le_of_nodup (n := g.leftSize) hnodup' fun v hv => by
      rw [← hp.left_size]
      rcases List.mem_cons.mp hv with rfl | hv
      · rw [hp.left_size]
        exact of_decide_eq_true hlt
      · rcases List.mem_cons.mp hv with rfl | hv
        · exact hx
        · exact (hmatched v hv).1
    simp only [List.length_cons] at hle
    omega
  next =>
    have hle := length_le_of_nodup (n := g.leftSize) hnodup fun v hv => by
      rw [← hp.left_size]
      rcases List.mem_cons.mp hv with rfl | hv
      · exact hx
      · exact (hmatched v hv).1
    simp only [List.length_cons] at hle
    omega

theorem improve_of_not_free (h : ∀ x, p.isFree x = false) (fuel : Nat) : g.improve fuel p = p := by
  have hnil : (List.range g.leftSize).filter p.isFree = [] :=
    List.filter_eq_nil_iff.mpr fun x _ => by simp [h x]
  cases fuel with
  | zero => rfl
  | succ fuel =>
    unfold BipartiteGraph.improve BipartiteGraph.layers
    simp only [hnil]
    rfl

section Runs
variable (hg : g.InRange) (hfits : g.leftSize < infinity)
include hg hfits

/-- **The sweeps end,** with the pairing of `BipartiteGraph.improve`. -/
theorem improve_eq {fuel : Nat} (hp : m.pairing.Valid g) (hdist : m.dist.size = g.leftSize)
    (hfuel : g.leftSize < m.pairing.size + fuel) :
    ∃ m', improve g (places g m.pairing.heldOut) m.pairing.size m =
      some ((g.improve fuel m.pairing).size, m') ∧ m'.pairing = g.improve fuel m.pairing := by
  induction fuel generalizing m with
  | zero =>
    have := m.pairing.size_le
    rw [hp.left_size] at this
    omega
  | succ fuel ih =>
    rw [improve]
    split
    next =>
      have hsurveyed := layers_spec hg hp
      have hbounded := layersFrom_bounded hg hp (Nat.zero_add _) (layered_free hp)
      rw [layer_eq hg hfits hp hdist]
      unfold BipartiteGraph.improve
      change (g.layers m.pairing).1.size = g.leftSize ∧ (∀ x e : Nat,
        (g.layers m.pairing).1[x]? = some (some e) → e < g.leftSize) at hbounded
      generalize g.layers m.pairing = r at hsurveyed hbounded
      obtain ⟨depth, target⟩ := r
      cases target with
      | none => exact ⟨_, rfl, rfl⟩
      | some target =>
        obtain ⟨htarget, hzero, hreach⟩ := hsurveyed
        obtain ⟨hv, hheld, hsize⟩ := sweep_spec htarget hzero hp hreach
        have hm : Sweeping g target ⟨m.pairing, depth, [], some target⟩ :=
          ⟨hp, hbounded.1, hbounded.2, rfl⟩
        obtain ⟨heq, hm'⟩ := seeks_eq hg hfits htarget List.nodup_range
          (fun x hx => List.mem_range.mp hx) hm fun x _ => (hzero x).mpr
        simp only [Option.isSome_some, Option.bind_eq_bind, Option.bind_some, if_true]
        rw [heq]
        simp only [Option.bind_some]
        rw [if_pos (by exact hsize)]
        obtain ⟨last, hlast, hpairing⟩ := ih hm'.valid hm'.dist_size (by
          change g.leftSize < (g.sweep target ⟨m.pairing, depth⟩).pairing.size + fuel
          omega)
        refine ⟨last, ?_, hpairing⟩
        rw [← hheld]
        exact hlast
    next hcount =>
      rw [improve_of_not_free (isFree_eq_false_of_places hp (Nat.not_lt.mp hcount))]
      exact ⟨m, rfl, rfl⟩

/-- **Every run goes through,** whatever is left over from the runs before, and makes the maximum
pairing. -/
theorem maxCardinality_eq (heldOut : Option Nat) (m : BipartiteMatcher) :
    ∃ m', maxCardinality g heldOut m = some ((g.maximum heldOut).size, m') ∧
      m'.pairing = g.maximum heldOut := by
  generalize hstart : BipartiteMatcher.mk (blank g heldOut) (.replicate g.leftSize none) m.queue
    m.nilDist = start
  have hpairing : start.pairing = blank g heldOut := by rw [← hstart]
  have hdist : start.dist.size = g.leftSize := by rw [← hstart, Array.size_replicate]
  have hclaims := claims_eq (m := start) hg List.nodup_range (fun x hx => List.mem_range.mp hx)
    (by rw [hpairing]; exact valid_blank heldOut)
    (fun x _ => by rw [hpairing]; exact partner_blank heldOut x)
  rw [hpairing, size_blank] at hclaims
  have hgreedy := greedy_spec (g := g) heldOut
  have hfuel : g.leftSize < (g.greedy heldOut).size + (g.leftSize + 1) := by omega
  obtain ⟨m', hm', hend⟩ :=
    improve_eq (m := { start with pairing := g.greedy heldOut }) hg hfits hgreedy.1 hdist hfuel
  refine ⟨m', ?_, hend⟩
  unfold maxCardinality
  change Option.bind ((List.range g.leftSize).foldlM (claim g) (0, BipartiteMatcher.mk
    (blank g heldOut) (.replicate g.leftSize none) m.queue m.nilDist)) _ = _
  rw [hstart, hclaims]
  simp only [hgreedy.2] at hm'
  exact hm'

end Runs

end BipartiteMatcher

/-! ### What is reported -/

/-- **A full report of a matching with `n` edges:** the edges by left vertex, and all vertices that are
left over. -/
structure Matching.Reports (g : BipartiteGraph) (heldOut : Option Nat) (n : Nat) (r : Matching) :
    Prop where
  isMatching : g.IsMatching heldOut r.pairs
  length_eq : r.pairs.length = n
  increasing : (r.pairs.map (·.1)).Pairwise (· < ·)
  mem_unmatchedLeft : ∀ x, x ∈ r.unmatchedLeft ↔
    x < g.leftSize ∧ heldOut ≠ some x ∧ ∀ y, (x, y) ∉ r.pairs
  mem_unmatchedRight : ∀ y, y ∈ r.unmatchedRight ↔ y < g.rightSize ∧ ∀ x, (x, y) ∉ r.pairs
  unmatched_increasing : r.unmatchedLeft.Pairwise (· < ·) ∧ r.unmatchedRight.Pairwise (· < ·)

namespace BipartiteMatcher

open BipartiteGraph Pairing

variable {g : BipartiteGraph} {m : BipartiteMatcher}

/-- To leave out the vertex that is held out leaves out no pair. -/
theorem pairs_matching (hp : m.pairing.Valid g) : m.matching.pairs = m.pairing.pairs := by
  unfold matching pairs
  simp only [List.filterMap_filter]
  refine List.filterMap_congr fun x _ => ?_
  by_cases hheld : m.pairing.heldOut = some x
  · simp [hheld, hp.held_free hheld]
  · simp [hheld]

theorem reports_matching (hp : m.pairing.Valid g) :
    m.matching.Reports g m.pairing.heldOut m.pairing.size := by
  have hpairs := pairs_matching hp
  exact {
    isMatching := by
      rw [hpairs]
      exact hp.isMatching
    length_eq := by rw [hpairs]; rfl
    increasing := by
      rw [hpairs, map_fst_pairs]
      exact List.pairwise_lt_range.filter _
    mem_unmatchedLeft := fun x => by
      simp only [hpairs, mem_pairs]
      unfold matching
      simp only [List.mem_filter, List.mem_range, hp.left_size, decide_eq_true_eq, and_assoc,
        Option.isNone_iff_eq_none, Option.eq_none_iff_forall_ne_some, ne_eq]
    mem_unmatchedRight := fun y => by
      simp only [hpairs, mem_pairs, hp.partner_iff]
      unfold matching
      simp only [List.mem_filter, List.mem_range, hp.right_size, decide_eq_true_eq]
      refine and_congr_right fun hy => ?_
      rw [← hp.right_size] at hy
      rw [Array.getElem?_eq_getElem hy]
      cases m.pairing.right[y] with
      | none => simp
      | some x => simp
    unmatched_increasing :=
      ⟨(List.pairwise_lt_range.filter _).filter _, List.pairwise_lt_range.filter _⟩ }

/-- **The matcher is correct.** Whatever is left over from earlier runs, a run goes through; it returns
the greatest size of a matching without `heldOut`, and reports such a matching. -/
theorem maxCardinality_spec (hg : g.InRange) (hfits : g.leftSize < infinity)
    (heldOut : Option Nat) (m : BipartiteMatcher) :
    ∃ n m', maxCardinality g heldOut m = some (n, m') ∧
      (∀ edges, g.IsMatching heldOut edges → edges.length ≤ n) ∧
      m'.matching.Reports g heldOut n := by
  obtain ⟨m', hrun, hpairing⟩ := maxCardinality_eq hg hfits heldOut m
  obtain ⟨hvalid, hheld, hmax⟩ := maximum_spec hg heldOut
  have hreports := reports_matching (m := m') (by rw [hpairing]; exact hvalid)
  rw [hpairing, hheld] at hreports
  exact ⟨_, m', hrun, hmax, hreports⟩

/-- Two left vertices that both have the first right vertex as a neighbour. -/
def crossing : BipartiteGraph := ⟨#[[0, 1], [0]], 2⟩

/-- A matcher that has been run on some other graph. -/
def worn : BipartiteMatcher := ⟨⟨#[some 3, none, some 0], #[some 2], some 1⟩, #[some 7], [5, 0], some 4⟩

theorem maxCardinality_spec_crossing : crossing.InRange ∧ crossing.leftSize < infinity ∧
    crossing.IsMatching none [(0, 1), (1, 0)] ∧
    ∃ m', maxCardinality crossing none worn = some (2, m') ∧ m'.matching.Reports crossing none 2 := by
  have hrange : crossing.InRange := by decide
  have hmatching : crossing.IsMatching none [(0, 1), (1, 0)] :=
    ⟨by decide, by decide, by decide, by decide⟩
  obtain ⟨n, m', hrun, hmax, hreports⟩ := maxCardinality_spec hrange (by decide) none worn
  have hle := length_le_of_nodup (n := 2) hreports.isMatching.left_nodup fun x hx => by
    obtain ⟨e, he, rfl⟩ := List.mem_map.mp hx
    exact (lt_of_mem_neighbours hrange (hreports.isMatching.edge e he)).1
  rw [List.length_map, hreports.length_eq] at hle
  have hn : n = 2 := Nat.le_antisymm hle (hmax _ hmatching)
  subst hn
  exact ⟨hrange, by decide, hmatching, m', hrun, hreports⟩

end BipartiteMatcher

end Bigraphs
