import Bigraphs.Matching.Embedding
import Bigraphs.Proofs.Graph.Traversals
import Bigraphs.Proofs.Matching.Pruning

/-! # What is thrown away cannot occur

The test of a subtree ends, and says what `canPlay` says (`testEnds_canPlay`). Wherever a subtree is
played, the test of its top is passed; wherever the subtrees below a root are played, the host passes;
and a mapping whose links are consistent has fitting ports at each pair (`filters_spec`). -/

namespace Bigraphs

namespace Problem

open Bigraph

variable {q : Problem} {t : Table}

/-! ### The stack of the test -/

/-- Whether the nodes below `x` find images below `images`, for at most `n` generations. -/
def passesBelow (q : Problem) (t : Table) (n : Nat) (e : PlaceId × List PlaceId) : Bool :=
  q.playableBelow t n e.2 e.1

/-- The nodes on top are tested one after the other, if each of them is. -/
theorem ends_test_list {n : Nat} {l : Casting} {b : Bool}
    (htop : ∀ e ∈ l, ∀ waiting,
      (if q.passesBelow t n e then Ends (q.testRound t) waiting b else b = false) →
      Ends (q.testRound t) (e :: waiting) b)
    {waiting : Casting}
    (h : if l.all (q.passesBelow t n) then Ends (q.testRound t) waiting b else b = false) :
    Ends (q.testRound t) (l ++ waiting) b := by
  induction l with
  | nil => simpa using h
  | cons e l ih =>
    refine htop e (by simp) _ ?_
    rw [List.all_cons] at h
    cases he : q.passesBelow t n e with
    | false => simpa [he] using h
    | true =>
      rw [he, Bool.true_and] at h
      exact ih (fun e' he' => htop e' (List.mem_cons_of_mem _ he')) h

theorem ends_test {n : Nat} (hq : q.Proper) {x : PlaceId} {images : List PlaceId}
    (hx : x < q.redex.places.size) (hn : q.redex.places.size ≤ q.redex.depth x + n) {b : Bool}
    {waiting : Casting}
    (h : if q.passesBelow t n (x, images) then Ends (q.testRound t) waiting b else b = false) :
    Ends (q.testRound t) ((x, images) :: waiting) b := by
  induction n generalizing x images waiting with
  | zero => exact absurd (hq.redex.depth_lt hx) (by omega)
  | succ n ih =>
    let found := (q.redex.vertexChildren x).map fun c => (c, q.candidatesBelow t images c)
    have hround : q.testRound t ((x, images) :: waiting) = some
        (if found.any (·.2.isEmpty) then .inr false else .inl (found.reverse ++ waiting)) := by
      rw [testRound, readChildren_eq hx]
      rfl
    have hpasses : q.passesBelow t (n + 1) (x, images) =
        (!found.any (·.2.isEmpty) && found.all (q.passesBelow t n)) := by
      rw [Bool.eq_iff_iff, List.not_any_eq_all_not]
      simp [passesBelow, playableBelow, found, candidatesBelow, forall_and]
    rw [hpasses] at h
    cases hempty : found.any (·.2.isEmpty) with
    | true =>
      have hb : b = false := by simpa [hempty] using h
      exact .now (by rw [hround, hempty, hb]; rfl)
    | false =>
      rw [hempty, Bool.not_false, Bool.true_and] at h
      refine .later (by rw [hround, hempty]; rfl) (ends_test_list (n := n) (fun e he waiting he' => ?_) ?_)
      · obtain ⟨c, hc, rfl⟩ := List.mem_map.mp (List.mem_reverse.mp he)
        have hpar := (hq.redex.mem_vertexChildren.mp hc).1
        have hdepth := hq.redex.depth_of_parent hpar
        exact ih (lt_of_parent hpar) (by omega) he'
      · rwa [List.all_reverse]

/-- **The test of a subtree ends,** and says what `canPlay` says. -/
theorem testEnds_canPlay (hq : q.Proper) {v u : PlaceId} (hu : q.redex.isNode u) :
    q.TestEnds t v u (q.canPlay t v u) := by
  unfold TestEnds canPlay
  cases q.locallyCompatible t v u with
  | false => rfl
  | true =>
    rw [if_pos rfl, Bool.true_and]
    refine ends_test hq (lt_of_isNode hu) (Nat.le_add_left _ _) ?_
    unfold passesBelow
    cases q.playableBelow t q.redex.places.size [v] u with
    | false => rfl
    | true => exact .now rfl

/-- **The filters let through what can occur.** -/
theorem filters_spec {agent redex : Bigraph} (ha : agent.Constructible) (hr : redex.Constructible)
    (hs : agent.signature = redex.signature) (hg : agent.isGround = true) :
    ∃ q, Problem.of agent redex = .ok q ∧ q.agent = agent ∧ q.redex = redex ∧
      (∀ v u f, redex.isNode u → q.PlaysSubtree v u f →
        q.canPlay q.table v u ∧ q.TestEnds q.table v u true) ∧
      (∀ h r, redex.isRoot r → (∀ c, redex.isNode c → redex.parent c = some r →
        ∃ d f, agent.parent d = some h ∧ q.PlaysSubtree d c f) → q.hostConsistent q.table h r) ∧
      ∀ m, q.linksConsistent m = .ok true → ∀ x y, (x, y) ∈ m → q.portsCompatible y x := by
  have hq := Matches.proper_of_constructible ha hr hs hg
  refine ⟨⟨agent, redex, hg⟩, dif_pos hg, rfl, rfl, fun v u f hu hf => ?_,
    fun h r _ hplays => hostConsistent_of_plays hq hplays,
    fun m hm x y hxy => portsCompatible_of_linksConsistent hm hxy⟩
  have hplay := hf.canPlay hq hu
  exact ⟨hplay, hplay ▸ testEnds_canPlay hq hu⟩

end Problem

/-! ### Rooms in touch -/

/-- The first two rooms pass the test of their subtrees, and the root above them passes for both roots. -/
theorem filters_spec_busyRooms : busyRooms.Constructible ∧ roomsInTouch.Constructible ∧
    busyRooms.signature = roomsInTouch.signature ∧ busyRooms.isGround = true ∧
    ∃ q, Problem.of busyRooms roomsInTouch = .ok q ∧ q.TestEnds q.table 1 2 true ∧
      q.TestEnds q.table 2 3 true ∧ q.hostConsistent q.table 0 0 ∧ q.hostConsistent q.table 0 1 ∧
      q.portsCompatible 7 5 := by
  obtain ⟨q, hq, hagent, hredex, htest, hhost, hports⟩ :=
    Problem.filters_spec constructible_busyRooms constructible_roomsInTouch signature_busyRooms
      isGround_busyRooms
  have heq : q = ⟨busyRooms, roomsInTouch, isGround_busyRooms⟩ :=
    Except.ok.inj (hq.symm.trans (dif_pos isGround_busyRooms))
  have hproper : q.Proper := heq ▸ Matches.proper_of_constructible constructible_busyRooms
    constructible_roomsInTouch signature_busyRooms isGround_busyRooms
  -- the first two rooms are an occurrence
  have hmem : ([0, 0], [(2, 1), (3, 2), (4, 4), (5, 7)]) ∈
      (q.toMatches {}).occurrences.toList.map fun o => (o.hosts, o.mapping) := by
    rw [heq]
    decide +kernel
  obtain ⟨o, ho, hpair⟩ := List.mem_map.mp hmem
  obtain ⟨hhosts, hmapping⟩ := Prod.mk.inj hpair
  have hocc := Matches.occurs_of_mem_occurrences hproper ho
  rw [hhosts, hmapping] at hocc
  have hlinks : q.linksConsistent [(2, 1), (3, 2), (4, 4), (5, 7)] = .ok true := by
    rw [heq]
    decide +kernel
  have hnodes : roomsInTouch.isNode 2 ∧ roomsInTouch.isNode 3 := by decide +kernel
  have hroots : roomsInTouch.roots = [0, 1] := by decide +kernel
  have hisRoot : ∀ r ∈ [0, 1], roomsInTouch.isRoot r := by decide +kernel
  rw [← hagent] at hhost
  rw [← hredex] at hhost hroots hisRoot
  exact ⟨constructible_busyRooms, constructible_roomsInTouch, signature_busyRooms,
    isGround_busyRooms, q, hq, (htest 1 2 _ hnodes.1 (hocc.playsSubtree hproper (by decide))).2,
    (htest 2 3 _ hnodes.2 (hocc.playsSubtree hproper (by decide))).2,
    hhost 0 0 (hisRoot 0 (by decide)) (hocc.plays_below_host (p := 0) hproper (by rw [hroots]; rfl) rfl),
    hhost 0 1 (hisRoot 1 (by decide)) (hocc.plays_below_host (p := 1) hproper (by rw [hroots]; rfl) rfl),
    hports _ hlinks 5 7 (by decide)⟩

end Bigraphs
