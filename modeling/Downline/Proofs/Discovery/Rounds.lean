import Downline.Config.Job
import Downline.Proofs.Discovery.Walks
import Mathlib.Algebra.BigOperators.Group.List.Basic
import Mathlib.Algebra.GroupWithZero.Nat

/-! The rounds of the search below a full person. Nothing but the bound on the depth ends them where child slots
form a cycle, and with the largest bound that a word can hold the count of the depth itself gives way: the search
runs over its counter exactly if a walk over holders of the placeholder is as long as the counter can count. -/

namespace Downline

/-- A search under way: whom it is still to visit, each with its depth, and the ends found so far. -/
structure Search where
  stack : List (PersonId × UInt32)
  found : List PersonId

namespace Tree

/-- The search below a person before its first round. -/
def searchBelow (t : Tree) (start : PersonId) : Search :=
  ⟨(t.childrenOf start).map (·, 1), []⟩

/-- One round of a search: the visit on top of the stack. A depth that is counted up wraps around in its 32
bits. A search with nobody left to visit has ended. -/
def round (t : Tree) (placeholder : String) (maxDepth : UInt32) (s : Search) : Search :=
  match s.stack with
  | [] => s
  | (id, depth) :: rest =>
    match t.visit placeholder maxDepth id depth with
    | .pass => { s with stack := rest }
    | .ends => { stack := rest, found := id :: s.found }
    | .goesOn children => { s with stack := children.map (·, depth + 1) ++ rest }

/-- A search after `n` more rounds. -/
def rounds (t : Tree) (placeholder : String) (maxDepth : UInt32) : (n : Nat) → Search → Search
  | 0, s => s
  | n + 1, s => rounds t placeholder maxDepth n (t.round placeholder maxDepth s)

/-- The next round counts up the last depth that a word can hold. -/
def Overruns (t : Tree) (placeholder : String) (maxDepth : UInt32) (s : Search) : Prop :=
  ∃ id rest children, s.stack = (id, 4294967295) :: rest ∧
    t.visit placeholder maxDepth id 4294967295 = .goesOn children

/-- From `id`, visited at this depth, holders of the placeholder lead down to the last depth that a word can
hold, and from there on to somebody else. -/
def Overlong (t : Tree) (placeholder : String) (id : PersonId) (depth : UInt32) : Prop :=
  ∃ inner last, t.SlotWalk id inner last ∧
    (∀ x ∈ id :: inner, t.passwordOf x = some placeholder) ∧ depth.toNat + inner.length = 4294967295

/-- A walk from `start` over as many holders of the placeholder as a depth counter can count. -/
def OverlongBelow (t : Tree) (placeholder : String) (start : PersonId) : Prop :=
  ∃ inner last, t.SlotWalk start inner last ∧
    (∀ x ∈ inner, t.passwordOf x = some placeholder) ∧ inner.length = 4294967295

/-- The search below a person comes to its end with these chain ends, within so many rounds none of which
overruns the depth counter. -/
def EndsWithin (t : Tree) (placeholder : String) (maxDepth : UInt32) (start : PersonId) (bound : Nat)
    (ends : List PersonId) : Prop :=
  ∃ n ≤ bound, t.rounds placeholder maxDepth n (t.searchBelow start) = ⟨[], ends⟩ ∧
    ∀ k < n, ¬ t.Overruns placeholder maxDepth (t.rounds placeholder maxDepth k (t.searchBelow start))

variable {t : Tree} {placeholder : String} {maxDepth depth : UInt32} {id start x : PersonId}
  {children found ends : List PersonId} {rest stack : List (PersonId × UInt32)} {s : Search}

/-! ### Walks that are too long -/

theorem overlongBelow_iff : t.OverlongBelow placeholder start ↔
    ∃ x ∈ t.childrenOf start, t.Overlong placeholder x 1 := by
  constructor
  · intro h
    obtain ⟨inner, last, hwalk, hinner, hlength⟩ := h
    cases inner with
    | nil => cases hlength
    | cons x inner =>
      obtain ⟨hx, hwalk⟩ := slotWalk_cons.mp hwalk
      exact ⟨x, hx, inner, last, hwalk, hinner, (Nat.add_comm 1 _).trans hlength⟩
  · intro h
    obtain ⟨x, hx, inner, last, hwalk, hinner, hlength⟩ := h
    exact ⟨x :: inner, last, slotWalk_cons.mpr ⟨hx, hwalk⟩, hinner,
      (Nat.add_comm _ 1).trans hlength⟩

/-- Whoever stands at the head of a walk that is too long is passed on the way. -/
theorem Overlong.visit (h : t.Overlong placeholder id depth) :
    t.visit placeholder 4294967295 id depth = .goesOn (t.childrenOf id) := by
  obtain ⟨inner, last, hwalk, hinner, -⟩ := h
  have hchild : t.childrenOf id ≠ [] := by
    cases inner with
    | nil => exact List.ne_nil_of_mem (slotWalk_nil.mp hwalk)
    | cons y inner => exact List.ne_nil_of_mem (slotWalk_cons.mp hwalk).1
  have hreach : depth ≤ 4294967295 :=
    UInt32.le_iff_toNat_le.mpr (Nat.le_of_lt_succ depth.toNat_lt)
  exact visit_eq_goesOn_iff.mpr ⟨hreach, hinner id List.mem_cons_self, rfl, hchild⟩

/-- Whoever is passed at the last depth heads a walk that is too long. -/
theorem overlong_of_last (h : t.visit placeholder maxDepth id 4294967295 = .goesOn children) :
    t.Overlong placeholder id 4294967295 := by
  obtain ⟨-, hp, rfl, hne⟩ := visit_eq_goesOn_iff.mp h
  obtain ⟨c, hc⟩ := List.exists_mem_of_ne_nil _ hne
  exact ⟨[], c, slotWalk_nil.mpr hc, List.forall_mem_singleton.mpr hp, rfl⟩

/-- Above the last depth a walk that is too long goes on over one of the children. -/
theorem overlong_of_goesOn (hv : t.visit placeholder maxDepth id depth = .goesOn children)
    (hd : depth ≠ 4294967295) :
    t.Overlong placeholder id depth ↔ ∃ c ∈ children, t.Overlong placeholder c (depth + 1) := by
  obtain ⟨-, hp, rfl, -⟩ := visit_eq_goesOn_iff.mp hv
  have hsucc : (depth + 1).toNat = depth.toNat + 1 := toNat_succ hd
  constructor
  · intro h
    obtain ⟨inner, last, hwalk, hinner, hlength⟩ := h
    cases inner with
    | nil => exact absurd (UInt32.toNat_inj.mp hlength) hd
    | cons c inner =>
      obtain ⟨hc, hwalk⟩ := slotWalk_cons.mp hwalk
      refine ⟨c, hc, inner, last, hwalk, (List.forall_mem_cons.mp hinner).2, ?_⟩
      rw [List.length_cons] at hlength
      omega
  · intro h
    obtain ⟨c, hc, inner, last, hwalk, hinner, hlength⟩ := h
    refine ⟨c :: inner, last, slotWalk_cons.mpr ⟨hc, hwalk⟩,
      List.forall_mem_cons.mpr ⟨hp, hinner⟩, ?_⟩
    rw [List.length_cons]
    omega

/-- The search breaks off exactly over walks that are too long. -/
theorem exists_chainEnds_error_iff (stack : List (PersonId × UInt32)) (found : List PersonId) :
    (∃ reason, t.chainEnds placeholder maxDepth stack found = .error reason) ↔
      maxDepth = 4294967295 ∧ ∃ v ∈ stack, t.Overlong placeholder v.1 v.2 := by
  fun_induction chainEnds t placeholder maxDepth stack found with
  | case1 found => simp
  | case2 id depth rest found hv ih =>
    rw [ih, List.exists_mem_cons_iff]
    refine and_congr_right fun hmax => (or_iff_right fun h => ?_).symm
    rw [hmax, h.visit] at hv
    cases hv
  | case3 id depth rest found hv ih =>
    rw [ih, List.exists_mem_cons_iff]
    refine and_congr_right fun hmax => (or_iff_right fun h => ?_).symm
    rw [hmax, h.visit] at hv
    cases hv
  | case4 id rest found children hv =>
    have hmax := eq_last_of_le (visit_eq_goesOn_iff.mp hv).1
    exact iff_of_true ⟨_, rfl⟩ ⟨hmax, _, List.mem_cons_self, overlong_of_last hv⟩
  | case5 id depth rest found children hv hd ih =>
    rw [ih, List.exists_mem_cons_iff, overlong_of_goesOn hv hd]
    simp only [List.mem_append, List.mem_map, or_and_right, exists_or]
    grind

/-! ### Rounds -/

section Rounds

theorem rounds_add (m n : Nat) (s : Search) : t.rounds placeholder maxDepth (m + n) s =
    t.rounds placeholder maxDepth n (t.rounds placeholder maxDepth m s) := by
  induction m generalizing s with
  | zero => rw [Nat.zero_add, rounds]
  | succ m ih => rw [Nat.succ_add, rounds, ih, rounds]

theorem rounds_nil (n : Nat) :
    t.rounds placeholder maxDepth n ⟨[], found⟩ = ⟨[], found⟩ := by
  induction n with
  | zero => rfl
  | succ n ih => exact ih

/-- A search that has ended stays as it is. -/
theorem rounds_of_ended {m n : Nat} (h : t.rounds placeholder maxDepth m s = ⟨[], ends⟩)
    (hn : m ≤ n) : t.rounds placeholder maxDepth n s = ⟨[], ends⟩ := by
  obtain ⟨k, rfl⟩ := Nat.exists_eq_add_of_le hn
  rw [rounds_add, h, rounds_nil]

theorem round_of_pass (h : t.visit placeholder maxDepth id depth = .pass) :
    t.round placeholder maxDepth ⟨(id, depth) :: rest, found⟩ = ⟨rest, found⟩ := by
  simp only [round, h]

theorem round_of_ends (h : t.visit placeholder maxDepth id depth = .ends) :
    t.round placeholder maxDepth ⟨(id, depth) :: rest, found⟩ = ⟨rest, id :: found⟩ := by
  simp only [round, h]

theorem round_of_goesOn (h : t.visit placeholder maxDepth id depth = .goesOn children) :
    t.round placeholder maxDepth ⟨(id, depth) :: rest, found⟩ =
      ⟨children.map (·, depth + 1) ++ rest, found⟩ := by
  simp only [round, h]

/-- Only a visit that goes on from the last depth overruns the counter. -/
theorem not_overruns (h : depth ≠ 4294967295 ∨
      ∀ children, t.visit placeholder maxDepth id depth ≠ .goesOn children) :
    ¬ t.Overruns placeholder maxDepth ⟨(id, depth) :: rest, found⟩ := by
  intro hover
  obtain ⟨id', rest', children, hstack, hv⟩ := hover
  cases hstack
  rcases h with h | h
  · exact h rfl
  · exact h children hv

/-- The most rounds that a visit can take whose search may go `n` more edges down. -/
def visitBound : Nat → Nat
  | 0 => 1
  | n + 1 => 1 + 2 * visitBound n

theorem visitBound_lt (n : Nat) : visitBound n < 2 ^ (n + 1) := by
  induction n with
  | zero => decide
  | succ n ih =>
    rw [visitBound, Nat.pow_succ]
    omega

theorem visitBound_pos (n : Nat) : 0 < visitBound n := by
  cases n <;> rw [visitBound] <;> omega

/-- The most rounds that are left for a stack; a visit beyond the bound takes one. -/
def stackBound (maxDepth : UInt32) (stack : List (PersonId × UInt32)) : Nat :=
  (stack.map fun v => visitBound (maxDepth.toNat + 1 - v.2.toNat)).sum

theorem stackBound_cons : stackBound maxDepth ((id, depth) :: rest) =
    visitBound (maxDepth.toNat + 1 - depth.toNat) + stackBound maxDepth rest := by
  rw [stackBound, List.map_cons, List.sum_cons, stackBound]

theorem stackBound_append : stackBound maxDepth (stack ++ rest) =
    stackBound maxDepth stack + stackBound maxDepth rest := by
  rw [stackBound, List.map_append, List.sum_append, stackBound, stackBound]

/-- All children are visited at the same depth. -/
theorem stackBound_children (children : List PersonId) (depth : UInt32) :
    stackBound maxDepth (children.map (·, depth)) =
      children.length * visitBound (maxDepth.toNat + 1 - depth.toNat) := by
  induction children with
  | nil => simp [stackBound]
  | cons c children ih =>
    rw [List.map_cons, stackBound_cons, ih, List.length_cons, Nat.succ_mul, Nat.add_comm]

/-- A visit that goes on leaves fewer rounds than there were before it. -/
theorem stackBound_goesOn (hv : t.visit placeholder maxDepth id depth = .goesOn children)
    (hd : depth ≠ 4294967295) :
    stackBound maxDepth (children.map (·, depth + 1) ++ rest) + 1 ≤
      stackBound maxDepth ((id, depth) :: rest) := by
  have hle := UInt32.le_iff_toNat_le.mp (visit_eq_goesOn_iff.mp hv).1
  obtain ⟨n, hn⟩ : ∃ n, maxDepth.toNat + 1 - depth.toNat = n + 1 :=
    ⟨maxDepth.toNat - depth.toNat, by omega⟩
  have hchild : maxDepth.toNat + 1 - (depth + 1).toNat = n := by
    rw [toNat_succ hd]
    omega
  have htwo := Nat.mul_le_mul_right (visitBound n) (length_le_of_visit hv)
  calc stackBound maxDepth (children.map (·, depth + 1) ++ rest) + 1
    _ = children.length * visitBound n + stackBound maxDepth rest + 1 := by
        rw [stackBound_append, stackBound_children, hchild]
    _ ≤ visitBound (n + 1) + stackBound maxDepth rest := by
        rw [visitBound]
        omega
    _ = stackBound maxDepth ((id, depth) :: rest) := by
        rw [stackBound_cons, hn]

/-- A search that is not broken off comes to its end round by round, and no round overruns the counter. -/
theorem rounds_of_chainEnds (h : t.chainEnds placeholder maxDepth stack found = .ok ends) :
    ∃ n ≤ stackBound maxDepth stack, t.rounds placeholder maxDepth n ⟨stack, found⟩ = ⟨[], ends⟩ ∧
      ∀ k < n, ¬ t.Overruns placeholder maxDepth (t.rounds placeholder maxDepth k ⟨stack, found⟩) := by
  -- One round, and the rest by the induction that the search itself goes by.
  have hstep {s s' : Search} {m m' : Nat} (hround : t.round placeholder maxDepth s = s')
      (hover : ¬ t.Overruns placeholder maxDepth s) (hm : m' + 1 ≤ m)
      (hrest : ∃ n ≤ m', t.rounds placeholder maxDepth n s' = ⟨[], ends⟩ ∧
        ∀ k < n, ¬ t.Overruns placeholder maxDepth (t.rounds placeholder maxDepth k s')) :
      ∃ n ≤ m, t.rounds placeholder maxDepth n s = ⟨[], ends⟩ ∧
        ∀ k < n, ¬ t.Overruns placeholder maxDepth (t.rounds placeholder maxDepth k s) := by
    obtain ⟨n, hn, hend, hnone⟩ := hrest
    refine ⟨n + 1, by omega, ?_, fun k hk => ?_⟩
    · rw [rounds, hround, hend]
    · cases k with
      | zero => exact hover
      | succ k =>
        rw [rounds, hround]
        exact hnone k (Nat.lt_of_succ_lt_succ hk)
  have hpop (id : PersonId) (depth : UInt32) (rest : List (PersonId × UInt32)) :
      stackBound maxDepth rest + 1 ≤ stackBound maxDepth ((id, depth) :: rest) := by
    have hpos := visitBound_pos (maxDepth.toNat + 1 - depth.toNat)
    rw [stackBound_cons]
    omega
  fun_induction chainEnds t placeholder maxDepth stack found with
  | case1 found =>
    cases h
    exact ⟨0, Nat.zero_le _, rfl, fun k hk => absurd hk (Nat.not_lt_zero k)⟩
  | case2 id depth rest found hv ih =>
    exact hstep (round_of_pass hv) (not_overruns (.inr (by simp [hv]))) (hpop id depth rest) (ih h)
  | case3 id depth rest found hv ih =>
    exact hstep (round_of_ends hv) (not_overruns (.inr (by simp [hv]))) (hpop id depth rest) (ih h)
  | case4 => cases h
  | case5 id depth rest found children hv hd ih =>
    exact hstep (round_of_goesOn hv) (not_overruns (.inl hd)) (stackBound_goesOn hv hd) (ih h)

/-- A search that is broken off comes to a round that overruns the counter. -/
theorem overruns_of_chainEnds {reason : Panic}
    (h : t.chainEnds placeholder maxDepth stack found = .error reason) :
    ∃ n, t.Overruns placeholder maxDepth (t.rounds placeholder maxDepth n ⟨stack, found⟩) := by
  have hstep {s s' : Search} (hround : t.round placeholder maxDepth s = s')
      (hrest : ∃ n, t.Overruns placeholder maxDepth (t.rounds placeholder maxDepth n s')) :
      ∃ n, t.Overruns placeholder maxDepth (t.rounds placeholder maxDepth n s) := by
    obtain ⟨n, hn⟩ := hrest
    refine ⟨n + 1, ?_⟩
    rw [rounds, hround]
    exact hn
  fun_induction chainEnds t placeholder maxDepth stack found with
  | case1 => cases h
  | case2 id depth rest found hv ih => exact hstep (round_of_pass hv) (ih h)
  | case3 id depth rest found hv ih => exact hstep (round_of_ends hv) (ih h)
  | case4 id rest found children hv => exact ⟨0, id, rest, children, rfl, hv⟩
  | case5 id depth rest found children hv hd ih => exact hstep (round_of_goesOn hv) (ih h)

end Rounds

/-- At most two children are visited first. -/
theorem stackBound_searchBelow_lt (t : Tree) (maxDepth : UInt32) (start : PersonId) :
    stackBound maxDepth (t.searchBelow start).stack < 2 ^ (maxDepth.toNat + 2) := by
  have hsum : stackBound maxDepth (t.searchBelow start).stack =
      (t.childrenOf start).length * visitBound maxDepth.toNat :=
    stackBound_children (t.childrenOf start) 1
  have htwo := Nat.mul_le_mul_right (visitBound maxDepth.toNat) (t.length_childrenOf_le start)
  have hlt := visitBound_lt maxDepth.toNat
  have hpow : 2 ^ (maxDepth.toNat + 2) = 2 ^ (maxDepth.toNat + 1) * 2 := Nat.pow_succ ..
  rw [hsum, hpow]
  omega

/-! ### Discovery -/

theorem exists_search_error_iff :
    (∃ reason, t.chainEnds placeholder maxDepth (t.searchBelow start).stack [] = .error reason) ↔
      maxDepth = 4294967295 ∧ t.OverlongBelow placeholder start := by
  rw [exists_chainEnds_error_iff, overlongBelow_iff, searchBelow]
  simp only [List.mem_map, exists_exists_and_eq_and]

/-- Discovery breaks down exactly if there is somebody full with a walk below that is too long. -/
theorem exists_rekeyCandidates_error_iff :
    (∃ reason, t.rekeyCandidates placeholder maxDepth = .error reason) ↔ maxDepth = 4294967295 ∧
      ∃ start, t.stateOf placeholder start = .full ∧ t.OverlongBelow placeholder start := by
  constructor
  · intro h
    obtain ⟨reason, hreason⟩ := h
    obtain ⟨start, hfull, hsearch⟩ := exists_chainEnds_of_error hreason
    obtain ⟨hmax, hlong⟩ := exists_search_error_iff.mp ⟨reason, hsearch⟩
    exact ⟨hmax, start, hfull, hlong⟩
  · intro h
    obtain ⟨hmax, start, hfull, hlong⟩ := h
    obtain ⟨reason, hsearch⟩ := exists_search_error_iff.mpr ⟨hmax, hlong⟩
    cases hc : t.rekeyCandidates placeholder maxDepth with
    | error reason' => exact ⟨reason', rfl⟩
    | ok candidates =>
      -- If all searches had come to an end, so would have the one below this person.
      obtain ⟨found, hfound, -⟩ := exists_mapM_of_candidates hc
      obtain ⟨below, hbelow⟩ := exists_of_mapM_ok hfound (mem_starts.mpr hfull)
      obtain ⟨ends, hends, -⟩ := exists_chainEnds_of_below hbelow
      rw [searchBelow, hends] at hsearch
      cases hsearch

/-- The rounds come to an end where the search does, and with the same chain ends. -/
theorem endsWithin_iff : t.EndsWithin placeholder maxDepth start (2 ^ (maxDepth.toNat + 2)) ends ↔
    t.chainEnds placeholder maxDepth (t.searchBelow start).stack [] = .ok ends := by
  have hstart : t.searchBelow start = ⟨(t.searchBelow start).stack, []⟩ := rfl
  constructor
  · intro h
    obtain ⟨n, -, hend, hnone⟩ := h
    cases hs : t.chainEnds placeholder maxDepth (t.searchBelow start).stack [] with
    | ok ends' =>
      obtain ⟨n', -, hend', -⟩ := rounds_of_chainEnds hs
      rw [← hstart] at hend'
      have hsame := (rounds_of_ended hend (Nat.le_max_left n n')).symm.trans
        (rounds_of_ended hend' (Nat.le_max_right n n'))
      cases hsame
      rfl
    | error reason =>
      -- The round that overruns the counter comes before the end or behind it.
      obtain ⟨k, hover⟩ := overruns_of_chainEnds hs
      rw [← hstart] at hover
      rcases Nat.lt_or_ge k n with hk | hk
      · exact absurd hover (hnone k hk)
      · rw [rounds_of_ended hend hk] at hover
        obtain ⟨id, rest, children, hstack, -⟩ := hover
        cases hstack
  · intro h
    obtain ⟨n, hn, hend, hnone⟩ := rounds_of_chainEnds h
    have hlt := stackBound_searchBelow_lt t maxDepth start
    exact ⟨n, Nat.le_of_lt (Nat.lt_of_le_of_lt hn hlt), hend, hnone⟩

/-- In every graph of child slots, cycles included, and for every bound on the depth: the rounds of the search
below a person come to an end, within a number that is exponential in the bound, and count no depth over its 32
bits, unless the bound is the largest of all and a walk over holders of the placeholder leads that far down. So
discovery succeeds unless there is such a walk below somebody full. -/
theorem search_ends_unless_walk_is_overlong (t : Tree) (placeholder : String) (maxDepth : UInt32) :
    (∀ start, (∃ ends, t.EndsWithin placeholder maxDepth start (2 ^ (maxDepth.toNat + 2)) ends) ↔
      ¬ (maxDepth = 4294967295 ∧ t.OverlongBelow placeholder start)) ∧
    (∀ start, maxDepth = 4294967295 → t.OverlongBelow placeholder start → ∃ n,
      t.Overruns placeholder maxDepth (t.rounds placeholder maxDepth n (t.searchBelow start))) ∧
    ((∃ candidates, t.rekeyCandidates placeholder maxDepth = .ok candidates) ↔
      ¬ (maxDepth = 4294967295 ∧
        ∃ start, t.stateOf placeholder start = .full ∧ t.OverlongBelow placeholder start)) := by
  refine ⟨fun start => ?_, fun start hmax hlong => ?_, ?_⟩
  · simp only [endsWithin_iff]
    rw [← exists_search_error_iff]
    cases t.chainEnds placeholder maxDepth (t.searchBelow start).stack [] <;> simp
  · obtain ⟨reason, hreason⟩ := exists_search_error_iff.mpr ⟨hmax, hlong⟩
    exact overruns_of_chainEnds hreason
  · rw [← exists_rekeyCandidates_error_iff]
    cases t.rekeyCandidates placeholder maxDepth <;> simp

/-! ### A cycle -/

/-- Below somebody full a holder of the placeholder who stands in a child slot of its own. -/
def spiral : Tree :=
  let people : List PersonRecord := [
    { id := ⟨"root"⟩, attributes := { username := some "boss", password := some "real" } },
    { id := ⟨"p"⟩, attributes := { username := some "p", password := some "changeme" } }]
  ((people.foldl insert default).attach ⟨"root"⟩ ⟨"p"⟩ .left).attach ⟨"p"⟩ ⟨"p"⟩ .left

theorem visit_spiral (depth : UInt32) :
    spiral.visit "changeme" 4294967295 ⟨"p"⟩ depth = .goesOn [⟨"p"⟩] := by
  have hreach : depth ≤ 4294967295 :=
    UInt32.le_iff_toNat_le.mpr (Nat.le_of_lt_succ depth.toNat_lt)
  exact visit_eq_goesOn_iff.mpr ⟨hreach, by decide +kernel, by decide +kernel, by decide⟩

/-- Walks round the cycle are as long as one likes. -/
theorem slotWalk_spiral (n : Nat) :
    spiral.SlotWalk ⟨"p"⟩ (List.replicate n ⟨"p"⟩) ⟨"p"⟩ := by
  have hp : ⟨"p"⟩ ∈ spiral.childrenOf ⟨"p"⟩ := by decide +kernel
  induction n with
  | zero => exact slotWalk_nil.mpr hp
  | succ n ih => exact slotWalk_cons.mpr ⟨hp, ih⟩

theorem overlongBelow_spiral : spiral.OverlongBelow "changeme" ⟨"root"⟩ := by
  refine overlongBelow_iff.mpr ⟨⟨"p"⟩, by decide +kernel, List.replicate 4294967294 ⟨"p"⟩, ⟨"p"⟩,
    slotWalk_spiral _, ?_, ?_⟩
  · intro x hx
    rw [← List.replicate_succ] at hx
    rw [List.eq_of_mem_replicate hx]
    decide +kernel
  · rw [List.length_replicate]
    rfl

/-- With the largest bound discovery breaks down over this cycle; a search whose depth wraps around would never
come to its end. -/
theorem search_never_ends_in_spiral :
    ({ placeholderPassword := "changeme", maxDepth := 4294967295 } : JobConfig).validate = .ok () ∧
      spiral.rekeyCandidates "changeme" 4294967295 = .error .depthOverflow ∧
      ∀ n, (spiral.rounds "changeme" 4294967295 n (spiral.searchBelow ⟨"root"⟩)).stack ≠ [] := by
  have hbroken : ∃ reason, spiral.rekeyCandidates "changeme" 4294967295 = .error reason :=
    exists_rekeyCandidates_error_iff.mpr ⟨rfl, ⟨"root"⟩, by decide +kernel, overlongBelow_spiral⟩
  obtain ⟨reason, hreason⟩ := hbroken
  obtain ⟨rfl, -⟩ := rekeyCandidates_eq_error hreason
  refine ⟨by decide, hreason, fun n => ?_⟩
  -- After every round the holder is visited again, one edge further down.
  have hround (n : Nat) : ∀ depth, ∃ depth', spiral.rounds "changeme" 4294967295 n
      ⟨[(⟨"p"⟩, depth)], []⟩ = ⟨[(⟨"p"⟩, depth')], []⟩ := by
    induction n with
    | zero => exact fun depth => ⟨depth, rfl⟩
    | succ n ih =>
      intro depth
      rw [rounds, round_of_goesOn (visit_spiral depth)]
      exact ih (depth + 1)
  have hchildren : spiral.childrenOf ⟨"root"⟩ = [⟨"p"⟩] := by decide +kernel
  obtain ⟨depth, hdepth⟩ := hround n 1
  rw [searchBelow, hchildren, List.map_cons, List.map_nil, hdepth]
  exact List.cons_ne_nil _ _

end Tree

end Downline
