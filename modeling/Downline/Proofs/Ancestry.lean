import Downline.Store.Tree.Lemmas
import Mathlib.Tactic.Common

/-! The ancestors of a person, and what the two bounded walks up a tree find. The parent map is
arbitrary: it may lead through ids that are no people, and round in circles. -/

namespace Downline.Tree

/-- The ancestor that stands `k` edges above an id. -/
def ancestor? (t : Tree) : (k : Nat) → (id : PersonId) → Option PersonId
  | 0, id => some id
  | k + 1, id => (t.parentOf id).bind (ancestor? t k)

/-- The first `k` ids on the way up from an id, the id itself first. -/
def walk (t : Tree) : (k : Nat) → (id : PersonId) → List PersonId
  | 0, _ => []
  | k + 1, id => id :: (t.parentOf id).elim [] (walk t k)

/-- `a` is the first proper ancestor of `id` with a property, and stands `k` edges above it. -/
structure FirstAbove (t : Tree) (P : PersonId → Prop) (k : Nat) (id a : PersonId) : Prop where
  pos : 0 < k
  reached : t.ancestor? k id = some a
  holds : P a
  first : ∀ j b, 0 < j → j < k → t.ancestor? j id = some b → ¬ P b

variable {t t' : Tree} {P : PersonId → Prop} {j k : Nat} {id p x a : PersonId}

/-! ### Ancestors -/

@[simp]
theorem ancestor?_zero (id : PersonId) : t.ancestor? 0 id = some id := rfl

theorem ancestor?_succ (k : Nat) (id : PersonId) :
    t.ancestor? (k + 1) id = (t.parentOf id).bind (t.ancestor? k) := rfl

@[simp]
theorem ancestor?_one (id : PersonId) : t.ancestor? 1 id = t.parentOf id := by
  rw [ancestor?_succ]
  cases t.parentOf id <;> rfl

theorem ancestor?_of_parent (h : t.parentOf id = some p) (k : Nat) :
    t.ancestor? (k + 1) id = t.ancestor? k p := by
  rw [ancestor?_succ, h, Option.bind_some]

theorem ancestor?_add (j k : Nat) (id : PersonId) :
    t.ancestor? (j + k) id = (t.ancestor? j id).bind (t.ancestor? k) := by
  induction j generalizing id with
  | zero => simp
  | succ j ih =>
    rw [Nat.succ_add, ancestor?_succ, ancestor?_succ, Option.bind_assoc]
    exact congrArg _ (funext ih)

theorem ancestor?_from (hx : t.ancestor? j id = some x) (hjk : j ≤ k) :
    t.ancestor? k id = t.ancestor? (k - j) x := by
  have hk : k = j + (k - j) := by omega
  conv_lhs => rw [hk, ancestor?_add, hx, Option.bind_some]

theorem ancestor?_of_le (ha : t.ancestor? k id = some a) (hjk : j ≤ k) :
    ∃ b, t.ancestor? j id = some b := by
  have hk : k = j + (k - j) := by omega
  rw [hk, ancestor?_add] at ha
  obtain ⟨b, hb, -⟩ := Option.bind_eq_some_iff.mp ha
  exact ⟨b, hb⟩

theorem ancestor?_succ_of_ancestor (hx : t.ancestor? j id = some x) :
    t.ancestor? (j + 1) id = t.parentOf x := by
  rw [ancestor?_add, hx, Option.bind_some, ancestor?_one]

/-- On the way up to a proper ancestor, one of its children is passed last. -/
theorem exists_child_of_ancestor (hk : 0 < k) (ha : t.ancestor? k id = some a) :
    ∃ b, t.ancestor? (k - 1) id = some b ∧ t.parentOf b = some a := by
  obtain ⟨b, hb⟩ := ancestor?_of_le ha (Nat.sub_le k 1)
  refine ⟨b, hb, ?_⟩
  rw [← ancestor?_succ_of_ancestor hb, Nat.sub_add_cancel hk, ha]

theorem ancestor?_congr (h : ∀ id, t'.parentOf id = t.parentOf id) (k : Nat) (id : PersonId) :
    t'.ancestor? k id = t.ancestor? k id := by
  induction k generalizing id with
  | zero => rfl
  | succ k ih => rw [ancestor?_succ, ancestor?_succ, h, funext ih]

/-! ### The first ancestor with a property -/

namespace FirstAbove

theorem of_parent (hp : t.parentOf id = some a) (ha : P a) : t.FirstAbove P 1 id a where
  pos := Nat.one_pos
  reached := by rw [ancestor?_one, hp]
  holds := ha
  first := by omega

theorem further (hp : t.parentOf id = some p) (hn : ¬ P p) (h : t.FirstAbove P k p a) :
    t.FirstAbove P (k + 1) id a where
  pos := Nat.succ_pos k
  reached := (ancestor?_of_parent hp k).trans h.reached
  holds := h.holds
  first := by
    intro j b hj hjk hb
    obtain ⟨i, rfl⟩ : ∃ i, j = i + 1 := ⟨j - 1, by omega⟩
    rw [ancestor?_of_parent hp] at hb
    rcases Nat.eq_zero_or_pos i with rfl | hi
    · cases hb
      exact hn
    · exact h.first i b hi (by omega) hb

theorem parent_cases (h : t.FirstAbove P k id a) :
    (k = 1 ∧ t.parentOf id = some a) ∨
      ∃ p m, k = m + 1 ∧ t.parentOf id = some p ∧ ¬ P p ∧ t.FirstAbove P m p a := by
  obtain ⟨m, rfl⟩ : ∃ m, k = m + 1 := ⟨k - 1, by have := h.pos; omega⟩
  obtain ⟨p, hp, hm⟩ := Option.bind_eq_some_iff.mp h.reached
  rcases Nat.eq_zero_or_pos m with rfl | hpos
  · cases hm
    exact .inl ⟨rfl, hp⟩
  · refine .inr ⟨p, m, rfl, hp, ?_, hpos, hm, h.holds, ?_⟩
    · exact h.first 1 p Nat.one_pos (by omega) (by rw [ancestor?_one, hp])
    · intro j b hj hjm hb
      exact h.first (j + 1) b (by omega) (by omega) ((ancestor?_of_parent hp j).trans hb)

theorem exists_parent (h : t.FirstAbove P k id a) : ∃ p, t.parentOf id = some p := by
  obtain ⟨-, hp⟩ | ⟨p, -, -, hp, -⟩ := h.parent_cases
  · exact ⟨a, hp⟩
  · exact ⟨p, hp⟩

theorem unique {k' : Nat} {a' : PersonId} (h : t.FirstAbove P k id a)
    (h' : t.FirstAbove P k' id a') : k = k' ∧ a = a' := by
  have hk : k = k' := by
    rcases Nat.lt_trichotomy k k' with hlt | he | hgt
    · exact absurd h.holds (h'.first k a h.pos hlt h.reached)
    · exact he
    · exact absurd h'.holds (h.first k' a' h'.pos hgt h'.reached)
  subst hk
  exact ⟨rfl, Option.some.inj (h.reached.symm.trans h'.reached)⟩

theorem of_passed (h : t.FirstAbove P k id a) (hx : t.ancestor? j id = some x) (hjk : j < k) :
    t.FirstAbove P (k - j) x a where
  pos := by omega
  reached := (ancestor?_from hx (Nat.le_of_lt hjk)).symm.trans h.reached
  holds := h.holds
  first := by
    intro i b hi hik hb
    refine h.first (j + i) b (by omega) (by omega) ?_
    rw [ancestor?_add, hx, Option.bind_some, hb]

/-- The first ancestor of someone above is also the first ancestor of those below, if nobody on the
way there has the property. -/
theorem of_above (hx : t.ancestor? j id = some x)
    (hn : ∀ i b, 0 < i → i ≤ j → t.ancestor? i id = some b → ¬ P b)
    (h : t.FirstAbove P k x a) : t.FirstAbove P (j + k) id a where
  pos := by have := h.pos; omega
  reached := by rw [ancestor?_add, hx, Option.bind_some, h.reached]
  holds := h.holds
  first := by
    intro i b hi hik hb
    by_cases hij : i ≤ j
    · exact hn i b hi hij hb
    · rw [ancestor?_from hx (by omega)] at hb
      exact h.first (i - j) b (by omega) (by omega) hb

/-- Where some proper ancestor has the property there is a first one, no further up. -/
theorem exists_of_ancestor (hk : 0 < k) (ha : t.ancestor? k id = some a) (hP : P a) :
    ∃ m b, m ≤ k ∧ t.FirstAbove P m id b := by
  classical
  induction k generalizing id with
  | zero => exact absurd hk (Nat.lt_irrefl 0)
  | succ k ih =>
    obtain ⟨p, hp, hk'⟩ := Option.bind_eq_some_iff.mp ha
    by_cases hPp : P p
    · exact ⟨1, p, by omega, of_parent hp hPp⟩
    · rcases Nat.eq_zero_or_pos k with rfl | hpos
      · cases hk'
        exact absurd hP hPp
      · obtain ⟨m, b, hm, hb⟩ := ih hpos hk'
        exact ⟨m + 1, b, by omega, further hp hPp hb⟩

theorem congr {Q : PersonId → Prop} (h : t.FirstAbove P k id a)
    (hp : ∀ x, t'.parentOf x = t.parentOf x)
    (hPQ : ∀ j b, 0 < j → j ≤ k → t.ancestor? j id = some b → (Q b ↔ P b)) :
    t'.FirstAbove Q k id a where
  pos := h.pos
  reached := (ancestor?_congr hp k id).trans h.reached
  holds := (hPQ k a h.pos (Nat.le_refl k) h.reached).mpr h.holds
  first := by
    intro j b hj hjk hb
    rw [ancestor?_congr hp] at hb
    exact fun hq => h.first j b hj hjk hb ((hPQ j b hj (Nat.le_of_lt hjk) hb).mp hq)

end FirstAbove

/-! ### The people on the way up -/

theorem walk_of_parent (h : t.parentOf id = some p) (k : Nat) :
    t.walk (k + 1) id = id :: t.walk k p := by
  rw [walk, h, Option.elim_some]

@[simp]
theorem walk_zero (id : PersonId) : t.walk 0 id = [] := rfl

@[simp]
theorem walk_one (id : PersonId) : t.walk 1 id = [id] := by
  cases hp : t.parentOf id <;> simp [walk, hp]

theorem cons_tail_walk (hk : 0 < k) (id : PersonId) : id :: (t.walk k id).tail = t.walk k id := by
  cases k with
  | zero => exact absurd hk (Nat.lt_irrefl 0)
  | succ k => rfl

theorem tail_walk (hp : t.parentOf id = some p) (hk : 0 < k) :
    (t.walk (k + 1) id).tail = p :: (t.walk k p).tail := by
  rw [walk_of_parent hp, List.tail_cons, cons_tail_walk hk]

theorem mem_walk : x ∈ t.walk k id ↔ ∃ j, j < k ∧ t.ancestor? j id = some x := by
  induction k generalizing id with
  | zero => simp [walk]
  | succ k ih =>
    cases hp : t.parentOf id with
    | none =>
      simp only [walk, hp, Option.elim_none, List.mem_singleton]
      constructor
      · rintro rfl
        exact ⟨0, by omega, rfl⟩
      · intro h
        obtain ⟨j, -, hj⟩ := h
        cases j with
        | zero => exact (Option.some.inj hj).symm
        | succ j => rw [ancestor?_succ, hp] at hj; cases hj
    | some p =>
      rw [walk_of_parent hp, List.mem_cons, ih]
      constructor
      · intro h
        rcases h with rfl | ⟨j, hj, hx⟩
        · exact ⟨0, by omega, rfl⟩
        · exact ⟨j + 1, by omega, (ancestor?_of_parent hp j).trans hx⟩
      · intro h
        obtain ⟨j, hj, hx⟩ := h
        cases j with
        | zero => exact .inl (Option.some.inj hx).symm
        | succ j => exact .inr ⟨j, by omega, (ancestor?_of_parent hp j).symm.trans hx⟩

theorem mem_tail_walk :
    x ∈ (t.walk k id).tail ↔ ∃ j, 0 < j ∧ j < k ∧ t.ancestor? j id = some x := by
  cases k with
  | zero => simp
  | succ k =>
    cases hp : t.parentOf id with
    | none =>
      refine iff_of_false (by simp [walk, hp]) ?_
      intro h
      obtain ⟨j, hj, -, hx⟩ := h
      obtain ⟨i, rfl⟩ : ∃ i, j = i + 1 := ⟨j - 1, by omega⟩
      rw [ancestor?_succ, hp] at hx
      cases hx
    | some p =>
      rw [walk_of_parent hp, List.tail_cons, mem_walk]
      constructor
      · intro hh
        obtain ⟨j, hj, hx⟩ := hh
        exact ⟨j + 1, by omega, by omega, (ancestor?_of_parent hp j).trans hx⟩
      · intro hh
        obtain ⟨j, hj, hjk, hx⟩ := hh
        obtain ⟨i, rfl⟩ : ∃ i, j = i + 1 := ⟨j - 1, by omega⟩
        exact ⟨i, by omega, (ancestor?_of_parent hp i).symm.trans hx⟩

theorem walk_succ (h : t.ancestor? k id = some a) : t.walk (k + 1) id = t.walk k id ++ [a] := by
  induction k generalizing id with
  | zero =>
    cases h
    rw [walk_one, walk_zero, List.nil_append]
  | succ k ih =>
    obtain ⟨p, hp, hk⟩ := Option.bind_eq_some_iff.mp h
    rw [walk_of_parent hp, walk_of_parent hp, ih hk, List.cons_append]

theorem length_walk (ha : t.ancestor? k id = some a) : (t.walk k id).length = k := by
  induction k generalizing id with
  | zero => rfl
  | succ k ih =>
    obtain ⟨p, hp, hk⟩ := Option.bind_eq_some_iff.mp ha
    rw [walk_of_parent hp, List.length_cons, ih hk]

theorem getElem?_walk (hjk : j < k) : (t.walk k id)[j]? = t.ancestor? j id := by
  induction k generalizing j id with
  | zero => exact absurd hjk (Nat.not_lt_zero j)
  | succ k ih =>
    cases j with
    | zero => rfl
    | succ j =>
      rw [walk, List.getElem?_cons_succ, ancestor?_succ]
      cases t.parentOf id with
      | none => rfl
      | some p => exact ih (Nat.lt_of_succ_lt_succ hjk)

/-- Each step of a walk leads to the parent. -/
theorem isChain_walk (k : Nat) (id : PersonId) :
    (t.walk k id).IsChain fun x p => t.parentOf x = some p := by
  induction k generalizing id with
  | zero => exact .nil
  | succ k ih =>
    cases hp : t.parentOf id with
    | none =>
      rw [walk, hp]
      exact .singleton id
    | some p =>
      rw [walk_of_parent hp]
      cases k with
      | zero => exact .singleton id
      | succ k => exact .cons_cons hp (ih p)

/-- A walk that nobody on it comes back to passes nobody twice. -/
theorem nodup_walk_of_no_return (hno : ∀ i j x, t.ancestor? i id = some x → 0 < j → i + j < k →
    t.ancestor? j x ≠ some x) : (t.walk k id).Nodup := by
  induction k generalizing id with
  | zero => exact List.nodup_nil
  | succ k ih =>
    cases hp : t.parentOf id with
    | none => simp [walk, hp]
    | some p =>
      rw [walk_of_parent hp, List.nodup_cons]
      constructor
      · intro hid
        obtain ⟨j, hjk, hj⟩ := mem_walk.mp hid
        exact hno 0 (j + 1) id rfl (Nat.succ_pos j) (by omega)
          ((ancestor?_of_parent hp j).trans hj)
      · exact ih fun i j x hx hj hij =>
          hno (i + 1) j x ((ancestor?_of_parent hp i).trans hx) hj (by omega)

/-- Nobody is passed twice before the first ancestor with a property: a walk that came back to somebody
would go round for ever, and have met that ancestor on its first round. -/
theorem FirstAbove.nodup_walk (h : t.FirstAbove P k id a) : (t.walk k id).Nodup := by
  refine nodup_walk_of_no_return fun i j x hx hj hij hround => ?_
  have habove : t.FirstAbove P (k - i) x a := h.of_passed hx (by omega)
  have hagain : t.ancestor? (k - i - j) x = some a :=
    (ancestor?_from hround (by omega)).symm.trans habove.reached
  exact habove.first _ a (by omega) (by omega) hagain h.holds

/-! ### What the walks find -/

/-- A climb finds the first terminator within reach, and nothing else. -/
theorem climb_eq_some_iff {terminators : IdSet} {n : Nat} {walked w : List PersonId} :
    t.climb terminators n id walked = some (w, a) ↔
      ∃ k, k ≤ n ∧ t.FirstAbove (· ∈ terminators) k id a ∧
        w = walked.reverse ++ (t.walk k id).tail := by
  induction n generalizing id walked with
  | zero =>
    refine iff_of_false (by simp [climb]) ?_
    intro hh
    obtain ⟨k, hk, h, -⟩ := hh
    have := h.pos
    omega
  | succ n ih =>
    cases hp : t.parentOf id with
    | none =>
      refine iff_of_false (by simp [climb, hp]) ?_
      intro hh
      obtain ⟨k, -, h, -⟩ := hh
      obtain ⟨p, hp'⟩ := h.exists_parent
      rw [hp] at hp'
      cases hp'
    | some p =>
      by_cases hm : p ∈ terminators
      · -- The climb ends at the parent, which is the first terminator.
        have hc : t.climb terminators (n + 1) id walked = some (walked.reverse, p) := by
          simp [climb, hp, hm]
        have h1 : t.FirstAbove (· ∈ terminators) 1 id p := .of_parent hp hm
        rw [hc, Option.some.injEq, Prod.mk.injEq]
        constructor
        · intro hh
          obtain ⟨rfl, rfl⟩ := hh
          exact ⟨1, by omega, h1, by simp⟩
        · intro hh
          obtain ⟨k, -, h, rfl⟩ := hh
          obtain ⟨rfl, rfl⟩ := h.unique h1
          simp
      · -- The parent is passed, and so the climb from there finds what the climb from `id` finds.
        have hc : t.climb terminators (n + 1) id walked =
            t.climb terminators n p (p :: walked) := by
          simp [climb, hp, hm]
        rw [hc, ih]
        constructor
        · intro hh
          obtain ⟨k, hk, h, rfl⟩ := hh
          refine ⟨k + 1, by omega, h.further hp hm, ?_⟩
          simp [tail_walk hp h.pos]
        · intro hh
          obtain ⟨k, hk, h, rfl⟩ := hh
          rcases h.parent_cases with ⟨-, h'⟩ | ⟨q, m, rfl, h', -, hq⟩
          · cases hp.symm.trans h'
            exact absurd h.holds hm
          · cases hp.symm.trans h'
            refine ⟨m, by omega, hq, ?_⟩
            simp [tail_walk hp hq.pos]

/-- A person has an upward path if the first terminator above it is within reach and holds a complete
login. -/
theorem upwardPath?_eq_some_iff {terminators : IdSet} {maxDepth : UInt32} {path : UpwardPath} :
    t.upwardPath? terminators maxDepth id = some path ↔
      (t.person? id).isSome ∧ ∃ k, k ≤ maxDepth.toNat ∧
        t.FirstAbove (· ∈ terminators) k id path.terminator ∧
        t.credentialsOf path.terminator = some path.credentials ∧
        path.origin = id ∧ path.walked = t.walk k id := by
  unfold upwardPath?
  cases hid : t.person? id with
  | none => simp
  | some r =>
    simp only [Option.isNone_some, Bool.false_eq_true, if_false, Option.isSome_some, true_and]
    have hwalk {k : Nat} (hk : 0 < k) : [id].reverse ++ (t.walk k id).tail = t.walk k id :=
      cons_tail_walk hk id
    cases hc : t.climb terminators maxDepth.toNat id [id] with
    | none =>
      refine iff_of_false (by simp) ?_
      intro hh
      obtain ⟨k, hk, h, -⟩ := hh
      have hs : t.climb terminators maxDepth.toNat id [id] =
          some ([id].reverse ++ (t.walk k id).tail, path.terminator) :=
        climb_eq_some_iff.mpr ⟨k, hk, h, rfl⟩
      rw [hc] at hs
      cases hs
    | some found =>
      obtain ⟨w, a⟩ := found
      obtain ⟨k, hk, h, rfl⟩ := climb_eq_some_iff.mp hc
      simp only [Option.map_eq_some_iff]
      constructor
      · intro hh
        obtain ⟨c, hcred, rfl⟩ := hh
        exact ⟨k, hk, h, hcred, rfl, hwalk h.pos⟩
      · intro hh
        obtain ⟨m, hm, h', hcred, ho, hw⟩ := hh
        obtain ⟨rfl, rfl⟩ := h'.unique h
        refine ⟨path.credentials, hcred, ?_⟩
        rw [hwalk h.pos, ← hw, ← ho]

/-- The climb to `start` meets it first where the path down from it begins. -/
theorem pathDownFrom_eq_some_iff {start : PersonId} {n : Nat} {below path : List PathNode} :
    t.pathDownFrom start n id below = some path ↔
      ∃ k, k ≤ n ∧ t.FirstAbove (· = start) k id start ∧
        path = ((t.walk (k + 1) id).tail.reverse.map t.pathNode) ++ below := by
  induction n generalizing id below with
  | zero =>
    refine iff_of_false (by simp [pathDownFrom]) ?_
    intro hh
    obtain ⟨k, hk, h, -⟩ := hh
    have := h.pos
    omega
  | succ n ih =>
    cases hp : t.parentOf id with
    | none =>
      refine iff_of_false (by simp [pathDownFrom, hp]) ?_
      intro hh
      obtain ⟨k, -, h, -⟩ := hh
      obtain ⟨p, hp'⟩ := h.exists_parent
      rw [hp] at hp'
      cases hp'
    | some p =>
      by_cases hs : p = start
      · subst hs
        have h1 : t.FirstAbove (· = p) 1 id p := .of_parent hp rfl
        have hc : t.pathDownFrom p (n + 1) id below = some (t.pathNode p :: below) := by
          simp [pathDownFrom, hp]
        rw [hc, Option.some.injEq]
        constructor
        · rintro rfl
          exact ⟨1, by omega, h1, by simp [tail_walk hp]⟩
        · intro hh
          obtain ⟨k, -, h, rfl⟩ := hh
          obtain ⟨rfl, -⟩ := h.unique h1
          simp [tail_walk hp]
      · have hc : t.pathDownFrom start (n + 1) id below =
            t.pathDownFrom start n p (t.pathNode p :: below) := by
          simp [pathDownFrom, hp, hs]
        rw [hc, ih]
        have hpath (m : Nat) : (t.walk (m + 1 + 1) id).tail = p :: (t.walk (m + 1) p).tail :=
          tail_walk hp (Nat.succ_pos m)
        constructor
        · intro hh
          obtain ⟨k, hk, h, rfl⟩ := hh
          exact ⟨k + 1, by omega, h.further hp hs, by simp [hpath]⟩
        · intro hh
          obtain ⟨k, hk, h, rfl⟩ := hh
          rcases h.parent_cases with ⟨-, h'⟩ | ⟨q, m, rfl, h', -, hq⟩
          · exact absurd (Option.some.inj (hp.symm.trans h')) hs
          · cases hp.symm.trans h'
            exact ⟨m, by omega, hq, by simp [hpath]⟩

/-- There is a path down to a person if the climb from it meets `start` within reach; the path is the
walk up to the first such place, turned round. -/
theorem downwardPath?_eq_some_iff {start : PersonId} {maxDepth : UInt32} {path : List PathNode} :
    t.downwardPath? start id maxDepth = some path ↔
      (t.person? id).isSome ∧ ∃ k, k ≤ maxDepth.toNat ∧ t.FirstAbove (· = start) k id start ∧
        path = (t.walk (k + 1) id).reverse.map t.pathNode := by
  unfold downwardPath?
  cases hid : t.person? id with
  | none => simp
  | some r =>
    simp only [Option.isNone_some, Bool.false_eq_true, if_false, Option.isSome_some, true_and]
    rw [pathDownFrom_eq_some_iff]
    simp [walk]

example : (household.downwardPath? ⟨"root"⟩ ⟨"c"⟩ 2).map (·.map (·.id)) =
    some [⟨"root"⟩, ⟨"b"⟩, ⟨"c"⟩] := by
  decide +kernel

end Downline.Tree
