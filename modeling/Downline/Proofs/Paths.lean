import Downline.Proofs.Ancestry
import Downline.Proofs.Memory
import Mathlib.Data.List.Chain

/-! What the in-memory store answers when it is asked for paths: the walks up to the first terminator, and the
way down to a person over the fewest edges. The parents may lead through ids that are no people, and round in
circles. -/

namespace Downline

namespace Tree

/-- The path is the walk from its origin, a person, up to the first terminator above it, `k` edges away. -/
structure WalkedUp (t : Tree) (terminators : IdSet) (k : Nat) (path : UpwardPath) : Prop where
  isSome : (t.person? path.origin).isSome
  first : t.FirstAbove (· ∈ terminators) k path.origin path.terminator
  credentials : t.credentialsOf path.terminator = some path.credentials
  /-- The origin and its first `k - 1` ancestors are walked through. -/
  length : path.walked.length = k
  walked : ∀ j, j < k → path.walked[j]? = t.ancestor? j path.origin

/-- The path leads down from `start` to `last` over the fewest edges, which are `k`. -/
structure WayDown (t : Tree) (start last : PersonId) (k : Nat) (path : List PathNode) : Prop where
  pos : 1 ≤ k
  reached : t.ancestor? k last = some start
  least : ∀ j, 1 ≤ j → t.ancestor? j last = some start → k ≤ j
  length : path.length = k + 1
  begins : path.head?.map (·.id) = some start
  ends : path.getLast?.map (·.id) = some last
  parents : path.IsChain fun above below => t.parentOf below.id = some above.id
  username : ∀ n ∈ path, n.username = (t.person? n.id).bind (·.attributes.username)
  password : ∀ n ∈ path, n.password = (t.person? n.id).bind (·.attributes.password)
  /-- The start comes up again only where it is the end as well. -/
  again : start ∈ path.tail.map (·.id) → start = last
  nodup : (path.tail.map (·.id)).Nodup

variable {t : Tree} {terminators : IdSet} {maxDepth : UInt32} {origin start last : PersonId}
  {path : UpwardPath} {k : Nat}

/-! ### Walks up -/

theorem exists_walkedUp (h : t.upwardPath? terminators maxDepth origin = some path) :
    path.origin = origin ∧ ∃ k, k ≤ maxDepth.toNat ∧ t.WalkedUp terminators k path := by
  obtain ⟨hp, k, hk, hfirst, hcredentials, rfl, hwalked⟩ := upwardPath?_eq_some_iff.mp h
  refine ⟨rfl, k, hk, hp, hfirst, hcredentials, ?_, ?_⟩
  · rw [hwalked, length_walk hfirst.reached]
  · intro j hj
    rw [hwalked, getElem?_walk hj]

/-- Somebody has a walk up exactly if it is a person whose first terminator is within reach and holds a
complete login. -/
theorem isSome_upwardPath : (t.upwardPath? terminators maxDepth origin).isSome ↔
    (t.person? origin).isSome ∧ ∃ k a, k ≤ maxDepth.toNat ∧
      t.FirstAbove (· ∈ terminators) k origin a ∧ (t.credentialsOf a).isSome := by
  constructor
  · intro h
    obtain ⟨path, hpath⟩ := Option.isSome_iff_exists.mp h
    obtain ⟨hp, k, hk, hfirst, hcredentials, -⟩ := upwardPath?_eq_some_iff.mp hpath
    exact ⟨hp, k, _, hk, hfirst, Option.isSome_of_eq_some hcredentials⟩
  · intro hh
    obtain ⟨hp, k, a, hk, hfirst, ha⟩ := hh
    obtain ⟨c, hc⟩ := Option.isSome_iff_exists.mp ha
    have hpath : t.upwardPath? terminators maxDepth origin = some ⟨origin, t.walk k origin, a, c⟩ :=
      upwardPath?_eq_some_iff.mpr ⟨hp, k, hk, hfirst, hc, rfl, rfl⟩
    exact Option.isSome_of_eq_some hpath

/-! ### Ways down -/

theorem map_id_pathNode (t : Tree) (ids : List PersonId) :
    (ids.map t.pathNode).map (·.id) = ids := by
  rw [List.map_map]
  exact List.map_id ids

/-- There is a way down to a person exactly if the start is an ancestor within reach. -/
theorem isSome_downwardPath : (t.downwardPath? start last maxDepth).isSome ↔
    (t.person? last).isSome ∧
      ∃ k, 1 ≤ k ∧ k ≤ maxDepth.toNat ∧ t.ancestor? k last = some start := by
  constructor
  · intro h
    obtain ⟨path, hpath⟩ := Option.isSome_iff_exists.mp h
    obtain ⟨hp, k, hk, hfirst, -⟩ := downwardPath?_eq_some_iff.mp hpath
    exact ⟨hp, k, hfirst.pos, hk, hfirst.reached⟩
  · intro hh
    obtain ⟨hp, k, hpos, hk, hreached⟩ := hh
    obtain ⟨m, b, hm, hfirst⟩ := FirstAbove.exists_of_ancestor (P := (· = start)) hpos hreached rfl
    obtain rfl : b = start := hfirst.holds
    exact Option.isSome_of_eq_some
      (downwardPath?_eq_some_iff.mpr ⟨hp, m, Nat.le_trans hm hk, hfirst, rfl⟩)

/-- The walk up to the first place where the start stands, turned round, is the way down over the fewest
edges. -/
theorem FirstAbove.wayDown (h : t.FirstAbove (· = start) k last start) :
    t.WayDown start last k ((t.walk (k + 1) last).reverse.map t.pathNode) := by
  have hids : (t.walk (k + 1) last).reverse = start :: (t.walk k last).reverse := by
    rw [walk_succ h.reached, List.reverse_append]
    rfl
  have htail : ((t.walk (k + 1) last).reverse.map t.pathNode).tail.map (·.id) =
      (t.walk k last).reverse := by
    rw [hids, List.map_cons, List.tail_cons, map_id_pathNode]
  have hlogin : ∀ n ∈ (t.walk (k + 1) last).reverse.map t.pathNode, n = t.pathNode n.id := by
    intro n hn
    obtain ⟨x, -, rfl⟩ := List.mem_map.mp hn
    rfl
  refine {
    pos := h.pos
    reached := h.reached
    least := fun j hj hreached => ?_
    length := ?_
    begins := ?_
    ends := ?_
    parents := ?_
    username := fun n hn => congrArg (·.username) (hlogin n hn)
    password := fun n hn => congrArg (·.password) (hlogin n hn)
    again := fun hs => ?_
    nodup := ?_ }
  · by_contra hjk
    exact h.first j start hj (Nat.lt_of_not_le hjk) hreached rfl
  · rw [List.length_map, hids, List.length_cons, List.length_reverse, length_walk h.reached]
  · rw [hids]
    rfl
  · rw [List.getLast?_map, List.getLast?_reverse]
    rfl
  · exact (List.isChain_map _).mpr (List.isChain_reverse.mpr (isChain_walk (k + 1) last))
  · -- Behind its first place the start could only stand where the walk begins, at the end of the path.
    rw [htail, List.mem_reverse, mem_walk] at hs
    obtain ⟨j, hjk, hj⟩ := hs
    rcases Nat.eq_zero_or_pos j with rfl | hpos
    · exact (Option.some.inj hj).symm
    · exact absurd rfl (h.first j start hpos hjk hj)
  · rw [htail, List.nodup_reverse]
    exact h.nodup_walk

end Tree

/-- A call for walks up answers, in the order of the origins, one path for each of them who is a person and
whose first terminator is within reach and holds a complete login: the walk up to there, with that login. It
is refused over a failing origin, and the tree stays as it is. -/
theorem upward_call_answers_first_terminators (s : MemoryStore) (origins : List PersonId)
    (terminators : IdSet) (maxDepth : UInt32) :
    ((∀ o ∈ origins, o ∉ s.failing) → ∃ pathOf : PersonId → Option UpwardPath,
      (MemoryStore.store.call (.upwardPaths origins terminators maxDepth) s).1 =
        .ok (origins.filterMap pathOf) ∧
      (∀ o, (pathOf o).isSome ↔ (s.tree.person? o).isSome ∧ ∃ k a, k ≤ maxDepth.toNat ∧
        s.tree.FirstAbove (· ∈ terminators) k o a ∧ (s.tree.credentialsOf a).isSome) ∧
      ∀ o path, pathOf o = some path →
        path.origin = o ∧ ∃ k, k ≤ maxDepth.toNat ∧ s.tree.WalkedUp terminators k path) ∧
    ((∃ o ∈ origins, o ∈ s.failing) → ∃ e,
      (MemoryStore.store.call (.upwardPaths origins terminators maxDepth) s).1 =
        .error (.error e) ∧ s.RefusedOver origins e) ∧
    (MemoryStore.store.call (.upwardPaths origins terminators maxDepth) s).2.tree = s.tree := by
  refine ⟨fun h => ⟨s.tree.upwardPath? terminators maxDepth, ?_, ?_, ?_⟩, fun h => ?_, ?_⟩
  · exact MemoryStore.call_upwardPaths h terminators maxDepth
  · exact fun o => Tree.isSome_upwardPath
  · exact fun o path hpath => Tree.exists_walkedUp hpath
  · exact MemoryStore.reading_refused (s := s.arrive) h
  · exact MemoryStore.tree_call (.upwardPaths origins terminators maxDepth) nofun

theorem upward_call_finds_boss : (∃ paths path,
      (MemoryStore.store.call (.upwardPaths [⟨"a"⟩, ⟨"c"⟩] (.ofIds [⟨"root"⟩]) 2)
        { tree := .household }).1 = .ok paths ∧ path ∈ paths ∧ path.walked.length = 2 ∧
      path.terminator = ⟨"root"⟩) ∧
    ∃ e, (MemoryStore.store.call (.upwardPaths [⟨"a"⟩, ⟨"c"⟩] (.ofIds [⟨"root"⟩]) 2)
      { tree := .household, failing := .ofIds [⟨"c"⟩] }).1 = .error (.error e) := by
  have hfirst : Tree.household.FirstAbove (· ∈ IdSet.ofIds [⟨"root"⟩]) 2 ⟨"c"⟩ ⟨"root"⟩ :=
    .further (p := ⟨"b"⟩) (by decide +kernel) (by decide +kernel)
      (.of_parent (by decide +kernel) (by decide +kernel))
  constructor
  · obtain ⟨hfound, -, -⟩ := upward_call_answers_first_terminators { tree := .household }
      [⟨"a"⟩, ⟨"c"⟩] (.ofIds [⟨"root"⟩]) 2
    obtain ⟨pathOf, hcall, hsome, hpaths⟩ := hfound fun o _ => Std.TreeSet.not_mem_emptyc
    obtain ⟨path, hpath⟩ := Option.isSome_iff_exists.mp ((hsome ⟨"c"⟩).mpr
      ⟨by decide +kernel, 2, _, Nat.le_refl 2, hfirst, by decide +kernel⟩)
    obtain ⟨horigin, k, -, hwalked⟩ := hpaths _ path hpath
    have hreached := hwalked.first
    rw [horigin] at hreached
    obtain ⟨rfl, hboss⟩ := hreached.unique hfirst
    exact ⟨_, path, hcall, List.mem_filterMap.mpr ⟨_, by decide, hpath⟩, hwalked.length, hboss⟩
  · obtain ⟨-, hrefused, -⟩ := upward_call_answers_first_terminators
      { tree := .household, failing := .ofIds [⟨"c"⟩] } [⟨"a"⟩, ⟨"c"⟩] (.ofIds [⟨"root"⟩]) 2
    obtain ⟨e, he, -⟩ := hrefused ⟨⟨"c"⟩, by decide, IdSet.mem_ofIds.mpr (by decide)⟩
    exact ⟨e, he⟩

/-- A call for the way down to somebody is answered by a path exactly if that is a person with the start among
its ancestors within reach, and then by the way over the fewest edges. -/
theorem downward_call_answers_shortest_way (s : MemoryStore) (start last : PersonId)
    (hs : start ∉ s.failing) (hl : last ∉ s.failing) (maxDepth : UInt32) :
    ∃ answer, (MemoryStore.store.call (.downwardPath start last maxDepth) s).1 = .ok answer ∧
      (answer.isSome ↔ (s.tree.person? last).isSome ∧
        ∃ k, 1 ≤ k ∧ k ≤ maxDepth.toNat ∧ s.tree.ancestor? k last = some start) ∧
      ∀ path, answer = some path →
        ∃ k, k ≤ maxDepth.toNat ∧ s.tree.WayDown start last k path := by
  refine ⟨_, MemoryStore.call_downwardPath hs hl maxDepth, Tree.isSome_downwardPath, ?_⟩
  intro path hpath
  obtain ⟨-, k, hk, hfirst, rfl⟩ := Tree.downwardPath?_eq_some_iff.mp hpath
  exact ⟨k, hk, hfirst.wayDown⟩

/-- The household after its last member has been made the parent of the first. -/
def Tree.roundabout : Tree := household.attach ⟨"c"⟩ ⟨"root"⟩ .left

/-- The way round leads from a person down to itself. -/
theorem downward_call_goes_round : ∃ path,
    (MemoryStore.store.call (.downwardPath ⟨"root"⟩ ⟨"root"⟩ 5) { tree := .roundabout }).1 =
      .ok (some path) ∧ path.length = 4 ∧ (path.tail.map (·.id)).Nodup := by
  obtain ⟨answer, hcall, hsome, hpaths⟩ := downward_call_answers_shortest_way
    { tree := .roundabout } ⟨"root"⟩ ⟨"root"⟩ Std.TreeSet.not_mem_emptyc Std.TreeSet.not_mem_emptyc 5
  have hround : Tree.roundabout.ancestor? 3 ⟨"root"⟩ = some ⟨"root"⟩ := by decide +kernel
  have hsooner : ∀ j, 1 ≤ j → j < 3 → Tree.roundabout.ancestor? j ⟨"root"⟩ ≠ some ⟨"root"⟩ := by
    decide +kernel
  obtain ⟨path, rfl⟩ := Option.isSome_iff_exists.mp
    (hsome.mpr ⟨by decide +kernel, 3, by decide, by decide, hround⟩)
  obtain ⟨k, -, hway⟩ := hpaths path rfl
  obtain rfl : k = 3 :=
    Nat.le_antisymm (hway.least 3 (by decide) hround)
      (Nat.le_of_not_lt fun hk => hsooner k hway.pos hk hway.reached)
  exact ⟨path, hcall, hway.length, hway.nodup⟩

end Downline
