import Downline.Proofs.Discovery.Walks
import Downline.Proofs.Rekey.Undisturbed

/-! Discovery and the check of a candidate agree. Discovery goes down child slots and counts from the
start, the check goes up to parents and counts from the end; where the two kinds of links mirror each other, a
chain that discovery has found passes the check as long as nothing changes. -/

namespace Downline

namespace Tree

variable {t : Tree} {placeholder : String} {start last : PersonId} {inner : List PersonId}

/-- An open walk from a full person is an open chain, with as many edges. -/
theorem OpenWalk.openChain (hslots : ∀ p c, c ∈ t.childrenOf p → t.parentOf c = some p)
    (hpeople : ∀ id, id ∈ t.relations → (t.person? id).isSome)
    (hfull : t.stateOf placeholder start = .full)
    (h : t.OpenWalk placeholder start inner last) :
    t.OpenChain placeholder start last (inner.length + 1) := by
  have hinterior : ∀ j x, 0 < j → j < inner.length + 1 → t.ancestor? j last = some x →
      t.passwordOf x = some placeholder := fun j x hj hji hx =>
    h.holders x (mem_inner_of_ancestor hslots h.slots hj (Nat.le_of_lt_succ hji) hx)
  have hfirst : t.FirstAbove (· = start) (inner.length + 1) last start := by
    refine ⟨Nat.succ_pos _, ancestor_of_slotWalk hslots h.slots, rfl, fun j x hj hji hx he => ?_⟩
    -- The start is full, and those in between hold the placeholder.
    rw [he] at hx
    exact not_full_of_password (hinterior j start hj hji hx) hfull
  obtain ⟨p, hp⟩ := hfirst.exists_parent
  refine ⟨hpeople last (mem_relations_of_parent hp), hfirst, hfull, hinterior, ?_⟩
  rcases h.ends with ⟨hlast, -⟩ | ⟨-, hinner⟩
  · exact .inr hlast
  · exact .inl (Nat.succ_lt_succ (List.length_pos_iff.mpr hinner))

end Tree

/-- Where child slots mirror parents and whoever is related is a person, as in every well-formed tree, the
path of each candidate is found again in the same state, re-keying has a plan for it, and the task of that
candidate by itself writes somebody. -/
theorem discovered_chains_are_rekeyed (s : MemoryStore) (hfail : ∀ x, x ∉ s.failing)
    (hslots : ∀ p c, c ∈ s.tree.childrenOf p → s.tree.parentOf c = some p)
    (hpeople : ∀ id, id ∈ s.tree.relations → (s.tree.person? id).isSome)
    (settings : TaskSettings) (hd : settings.maxDepth < 4294967295) :
    ∃ candidates,
      (MemoryStore.store.call (.rekeyCandidates settings.placeholder settings.maxDepth) s).1 =
        .ok candidates ∧
      ∀ c ∈ candidates, ∃ path plan written s',
        (MemoryStore.store.call (.downwardPath c.start c.last settings.maxDepth) s).1 =
          .ok (some path) ∧
        planRekey path settings.placeholder = .ok plan ∧
        rekeyChain MemoryStore.store settings c s =
          (.ok (.ended (.ok (.rekeyed written))), s') ∧ 1 ≤ written := by
  have hne : settings.maxDepth ≠ 4294967295 := UInt32.ne_of_lt hd
  obtain ⟨candidates, hc⟩ := s.tree.exists_candidates settings.placeholder hne
  refine ⟨candidates, MemoryStore.call_rekeyCandidates hc, fun c hm => ?_⟩
  obtain ⟨hfull, inner, hopen, hreach⟩ := (Tree.mem_candidates_iff hne hc).mp hm
  obtain ⟨path, plan, hpath, hplan⟩ :=
    (hopen.openChain hslots hpeople hfull).exists_plan hreach
  have hverdict : s.tree.verdict settings c = .ok plan := by
    rw [Tree.verdict, hpath]
    exact hplan
  obtain ⟨outcome, s', hrun, -, hsettles⟩ := exists_rekeyChain hfail settings c
  cases outcome with
  | skipped reason =>
    rw [hsettles.1] at hverdict
    cases hverdict
  | rekeyed written =>
    obtain ⟨-, -, -, -, -, -, hpos, -⟩ := hsettles
    refine ⟨path, plan, written, s', ?_, hplan, hrun, hpos⟩
    rw [MemoryStore.call_downwardPath (hfail _) (hfail _), hpath]

/-- The chain of the household is one that discovery returns. -/
theorem household_chain_is_rekeyed : Tree.household.WellFormed ∧
    ∃ candidates path plan written s',
      (MemoryStore.store.call (.rekeyCandidates "changeme" 2) { tree := Tree.household }).1 =
        .ok candidates ∧ ⟨⟨"root"⟩, ⟨"c"⟩⟩ ∈ candidates ∧
      (MemoryStore.store.call (.downwardPath ⟨"root"⟩ ⟨"c"⟩ 2) { tree := Tree.household }).1 =
        .ok (some path) ∧ planRekey path "changeme" = .ok plan ∧
      rekeyChain MemoryStore.store ⟨"changeme", 2⟩ ⟨⟨"root"⟩, ⟨"c"⟩⟩ { tree := Tree.household } =
        (.ok (.ended (.ok (.rekeyed written))), s') ∧ 1 ≤ written := by
  have htwo : (2 : UInt32) < 4294967295 := by decide
  obtain ⟨candidates, hcall, hall⟩ := discovered_chains_are_rekeyed { tree := Tree.household }
    (fun x => Std.TreeSet.not_mem_emptyc)
    (fun p c hc => (Tree.wellFormed_household.mirrored p c).mp hc)
    Tree.wellFormed_household.people ⟨"changeme", 2⟩ htwo
  have hmem : ⟨⟨"root"⟩, ⟨"c"⟩⟩ ∈ candidates := by
    obtain ⟨found, hfound⟩ := Tree.household.exists_candidates "changeme" (UInt32.ne_of_lt htwo)
    cases (MemoryStore.call_rekeyCandidates hfound).symm.trans hcall
    have hopen : Tree.household.OpenWalk "changeme" ⟨"root"⟩ [⟨"b"⟩] ⟨"c"⟩ :=
      ⟨by decide +kernel, by decide +kernel, by decide +kernel⟩
    exact (Tree.mem_candidates_iff (UInt32.ne_of_lt htwo) hfound).mpr
      ⟨by decide +kernel, _, hopen, Nat.le_refl 2⟩
  obtain ⟨path, plan, written, s', hpath, hplan, hrun, hpos⟩ := hall _ hmem
  exact ⟨Tree.wellFormed_household, candidates, path, plan, written, s', hcall, hmem, hpath, hplan,
    hrun, hpos⟩

end Downline
