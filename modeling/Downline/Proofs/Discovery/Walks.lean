import Downline.Proofs.Forest
import Downline.Proofs.Memory
import Mathlib.Data.List.Induction

/-! Discovery finds exactly the chains that walks down child slots make: from a full person over holders of
the placeholder to somebody who bounds the chain or ends it. The slots may form any graph. In a forest every
chain is found once. -/

namespace Downline

instance : Std.TransOrd ChainCandidate :=
  inferInstanceAs (Std.TransCmp
    (compareLex (compareOn ChainCandidate.start) (compareOn ChainCandidate.last)))

namespace Tree

/-- A walk down child slots from `start` over the people in `inner` to `last`. -/
def SlotWalk (t : Tree) (start : PersonId) (inner : List PersonId) (last : PersonId) : Prop :=
  (start :: (inner ++ [last])).IsChain fun p c => c ∈ t.childrenOf p

instance (t : Tree) (start : PersonId) (inner : List PersonId) (last : PersonId) :
    Decidable (t.SlotWalk start inner last) :=
  inferInstanceAs (Decidable (List.IsChain _ _))

/-- A walk over holders of the placeholder that ends with a holder who has no child, or with somebody else
who is not the first below the start. -/
structure OpenWalk (t : Tree) (placeholder : String) (start : PersonId) (inner : List PersonId)
    (last : PersonId) : Prop where
  slots : t.SlotWalk start inner last
  holders : ∀ x ∈ inner, t.passwordOf x = some placeholder
  ends : (t.passwordOf last = some placeholder ∧ t.childrenOf last = []) ∨
    (t.passwordOf last ≠ some placeholder ∧ inner ≠ [])

/-- The child slots form a forest: nobody stands in two slots, and no walk leads back to where it began. -/
structure SlotForest (t : Tree) : Prop where
  once : ∀ p, (t.childrenOf p).Nodup
  single : ∀ p q c, c ∈ t.childrenOf p → c ∈ t.childrenOf q → p = q
  acyclic : ∀ x inner, ¬ t.SlotWalk x inner x

variable {t : Tree} {placeholder : String} {maxDepth depth : UInt32} {start last p q x y : PersonId}
  {inner inner' : List PersonId}

/-! ### Walks -/

theorem slotWalk_nil : t.SlotWalk start [] last ↔ last ∈ t.childrenOf start := by
  simp [SlotWalk]

theorem slotWalk_cons :
    t.SlotWalk start (x :: inner) last ↔ x ∈ t.childrenOf start ∧ t.SlotWalk x inner last := by
  simp [SlotWalk]

theorem slotWalk_concat :
    t.SlotWalk start (inner ++ [x]) last ↔ t.SlotWalk start inner x ∧ last ∈ t.childrenOf x := by
  induction inner generalizing start with
  | nil => rw [List.nil_append, slotWalk_cons, slotWalk_nil, slotWalk_nil]
  | cons y inner ih => rw [List.cons_append, slotWalk_cons, slotWalk_cons, ih, and_assoc]

/-- In a forest there is no more than one walk between two people. -/
theorem SlotForest.walk_unique (hf : t.SlotForest) (h : t.SlotWalk start inner last)
    (h' : t.SlotWalk start inner' last) : inner = inner' := by
  -- Both walks take their last step from the one person in whose slots `last` stands.
  induction inner using List.reverseRecOn generalizing inner' last with
  | nil =>
    rw [slotWalk_nil] at h
    rcases List.eq_nil_or_concat' inner' with rfl | ⟨i, x, rfl⟩
    · rfl
    · obtain ⟨hstart, hx⟩ := slotWalk_concat.mp h'
      cases hf.single _ _ _ h hx
      exact absurd hstart (hf.acyclic start i)
  | append_singleton i x ih =>
    obtain ⟨hstart, hx⟩ := slotWalk_concat.mp h
    rcases List.eq_nil_or_concat' inner' with rfl | ⟨i', x', rfl⟩
    · cases hf.single _ _ _ (slotWalk_nil.mp h') hx
      exact absurd hstart (hf.acyclic start i)
    · obtain ⟨hstart', hx'⟩ := slotWalk_concat.mp h'
      cases hf.single _ _ _ hx hx'
      rw [ih hstart hstart']

/-! ### Where the search leads -/

/-- A visit leads to the ends of the walks that go on from there: over holders of the placeholder, within
reach, to somebody who ends or bounds the chain. -/
theorem exists_leads_iff (hd : maxDepth ≠ 4294967295) :
    (∃ x ∈ t.childrenOf p, t.Leads placeholder maxDepth x depth last) ↔
      ∃ inner, t.SlotWalk p inner last ∧ (∀ y ∈ inner, t.passwordOf y = some placeholder) ∧
        depth.toNat + inner.length ≤ maxDepth.toNat ∧
        ((t.passwordOf last = some placeholder ∧ t.childrenOf last = []) ∨
          (t.passwordOf last ≠ some placeholder ∧ 1 < depth.toNat + inner.length)) := by
  have hword : ∀ {d : UInt32}, d ≤ maxDepth → (d + 1).toNat = d.toNat + 1 := by
    intro d hle
    refine toNat_succ fun he => hd (eq_last_of_le ?_)
    rw [he] at hle
    exact hle
  constructor
  · -- Along the search: each visit that goes on adds its person to the walk.
    intro hh
    obtain ⟨x, hx, hl⟩ := hh
    induction hl generalizing p with
    | @ends x depth hv =>
      obtain ⟨hle, hends⟩ := visit_eq_ends_iff.mp hv
      refine ⟨[], slotWalk_nil.mpr hx, List.forall_mem_nil _, UInt32.le_iff_toNat_le.mp hle, ?_⟩
      exact hends.imp_right (And.imp_right UInt32.lt_iff_toNat_lt.mp)
    | @goesOn x c last depth children hv hc hl ih =>
      obtain ⟨hle, hp, rfl, -⟩ := visit_eq_goesOn_iff.mp hv
      obtain ⟨inner, hwalk, hinner, hreach, hends⟩ := ih hc
      rw [hword hle] at hreach hends
      refine ⟨x :: inner, slotWalk_cons.mpr ⟨hx, hwalk⟩, List.forall_mem_cons.mpr ⟨hp, hinner⟩,
        ?_, ?_⟩
      · rw [List.length_cons]
        omega
      · rw [List.length_cons, Nat.add_comm inner.length, ← Nat.add_assoc]
        exact hends
  · -- Along the walk: whoever is passed has a child, so the visit there goes on.
    intro hh
    obtain ⟨inner, hwalk, hinner, hreach, hends⟩ := hh
    induction inner generalizing p depth with
    | nil =>
      refine ⟨last, slotWalk_nil.mp hwalk, .ends (visit_eq_ends_iff.mpr ?_)⟩
      exact ⟨UInt32.le_iff_toNat_le.mpr hreach,
        hends.imp_right (And.imp_right UInt32.lt_iff_toNat_lt.mpr)⟩
    | cons x inner ih =>
      obtain ⟨hx, hwalk⟩ := slotWalk_cons.mp hwalk
      obtain ⟨hp, hinner⟩ := List.forall_mem_cons.mp hinner
      rw [List.length_cons, Nat.add_comm inner.length, ← Nat.add_assoc] at hreach hends
      have hle : depth ≤ maxDepth := UInt32.le_iff_toNat_le.mpr (by omega)
      rw [← hword hle] at hreach hends
      obtain ⟨c, hc, hl⟩ := ih hwalk hinner hreach hends
      have hgo : t.visit placeholder maxDepth x depth = .goesOn (t.childrenOf x) :=
        visit_eq_goesOn_iff.mpr ⟨hle, hp, rfl, List.ne_nil_of_mem hc⟩
      exact ⟨x, hx, .goesOn hgo hc hl⟩

/-- The candidates are the full people with the ends of the open walks from them that are within reach. -/
theorem mem_candidates_iff {candidates : List ChainCandidate} {c : ChainCandidate}
    (hd : maxDepth ≠ 4294967295) (h : t.rekeyCandidates placeholder maxDepth = .ok candidates) :
    c ∈ candidates ↔ t.stateOf placeholder c.start = .full ∧
      ∃ inner, t.OpenWalk placeholder c.start inner c.last ∧
        inner.length + 1 ≤ maxDepth.toNat := by
  have hone : (1 : UInt32).toNat = 1 := rfl
  have hlong (inner : List PersonId) : 1 < 1 + inner.length ↔ inner ≠ [] := by
    rw [← List.length_pos_iff]
    omega
  rw [mem_rekeyCandidates h, exists_leads_iff hd]
  refine and_congr_right fun _ => exists_congr fun inner => ?_
  rw [hone, hlong, Nat.add_comm 1]
  constructor
  · intro hh
    obtain ⟨hslots, hholders, hreach, hends⟩ := hh
    exact ⟨⟨hslots, hholders, hends⟩, hreach⟩
  · intro hh
    obtain ⟨⟨hslots, hholders, hends⟩, hreach⟩ := hh
    exact ⟨hslots, hholders, hreach, hends⟩

/-! ### Every chain once -/

theorem Leads.eq_or_exists_walk (h : t.Leads placeholder maxDepth x depth last) :
    x = last ∨ ∃ inner, t.SlotWalk x inner last := by
  induction h with
  | ends => exact .inl rfl
  | @goesOn x c last depth children hv hc hl ih =>
    obtain ⟨-, -, rfl, -⟩ := visit_eq_goesOn_iff.mp hv
    rcases ih with rfl | ⟨inner, hwalk⟩
    · exact .inr ⟨[], slotWalk_nil.mpr hc⟩
    · exact .inr ⟨c :: inner, slotWalk_cons.mpr ⟨hc, hwalk⟩⟩

/-- The search at one place does not come to an end that the search at the other comes to. -/
def Apart (t : Tree) (placeholder : String) (maxDepth : UInt32) (v w : PersonId × UInt32) : Prop :=
  ∀ last, t.Leads placeholder maxDepth v.1 v.2 last → ¬ t.Leads placeholder maxDepth w.1 w.2 last

namespace SlotForest

variable (hf : t.SlotForest)
include hf

/-- Two children of one person lead to no common end. -/
theorem eq_of_leads (hx : x ∈ t.childrenOf p) (hy : y ∈ t.childrenOf p)
    (hlx : t.Leads placeholder maxDepth x depth last)
    (hly : t.Leads placeholder maxDepth y depth last) : x = y := by
  rcases hlx.eq_or_exists_walk with rfl | ⟨inner, hwalk⟩ <;>
    rcases hly.eq_or_exists_walk with rfl | ⟨inner', hwalk'⟩
  · rfl
  · have h := hf.walk_unique (slotWalk_nil.mpr hx) (slotWalk_cons.mpr ⟨hy, hwalk'⟩)
    exact absurd h (List.cons_ne_nil _ _).symm
  · have h := hf.walk_unique (slotWalk_nil.mpr hy) (slotWalk_cons.mpr ⟨hx, hwalk⟩)
    exact absurd h (List.cons_ne_nil _ _).symm
  · have h := hf.walk_unique (slotWalk_cons.mpr ⟨hx, hwalk⟩) (slotWalk_cons.mpr ⟨hy, hwalk'⟩)
    exact (List.cons.inj h).1

theorem pairwise_children (p : PersonId) (depth : UInt32) :
    ((t.childrenOf p).map (·, depth)).Pairwise (t.Apart placeholder maxDepth) := by
  rw [List.pairwise_map]
  refine (hf.once p).imp_of_mem fun {x y} hx hy hne last hlx hly => hne ?_
  exact hf.eq_of_leads hx hy hlx hly

/-- While the places on the stack lie apart from each other and from what has been found, nothing is found
twice. -/
theorem nodup_chainEnds {stack : List (PersonId × UInt32)} {found ends : List PersonId}
    (h : t.chainEnds placeholder maxDepth stack found = .ok ends) (hfound : found.Nodup)
    (hnew : ∀ v ∈ stack, ∀ last ∈ found, ¬ t.Leads placeholder maxDepth v.1 v.2 last)
    (hstack : stack.Pairwise (t.Apart placeholder maxDepth)) : ends.Nodup := by
  fun_induction chainEnds t placeholder maxDepth stack found with
  | case1 found =>
    cases h
    exact hfound
  | case2 id depth rest found hv ih =>
    exact ih h hfound (List.forall_mem_cons.mp hnew).2 (List.pairwise_cons.mp hstack).2
  | case3 id depth rest found hv ih =>
    obtain ⟨hself, hrest⟩ := List.forall_mem_cons.mp hnew
    obtain ⟨hapart, hstack⟩ := List.pairwise_cons.mp hstack
    have hhere : t.Leads placeholder maxDepth id depth id := .ends hv
    refine ih h (List.nodup_cons.mpr ⟨fun hid => hself id hid hhere, hfound⟩) ?_ hstack
    intro v hvm
    exact List.forall_mem_cons.mpr ⟨hapart v hvm id hhere, hrest v hvm⟩
  | case4 => cases h
  | case5 id depth rest found children hv hd ih =>
    obtain ⟨hself, hrest⟩ := List.forall_mem_cons.mp hnew
    obtain ⟨hapart, hstack⟩ := List.pairwise_cons.mp hstack
    -- A child leads to no other ends than the place that goes on with it.
    have hchild : ∀ v ∈ children.map (·, depth + 1), ∀ last,
        t.Leads placeholder maxDepth v.1 v.2 last → t.Leads placeholder maxDepth id depth last := by
      intro v hvm last hl
      obtain ⟨c, hc, rfl⟩ := List.mem_map.mp hvm
      exact .goesOn hv hc hl
    refine ih h hfound (List.forall_mem_append.mpr ⟨?_, hrest⟩)
      (List.pairwise_append.mpr ⟨?_, hstack, ?_⟩)
    · intro v hvm last hlast hl
      exact hself last hlast (hchild v hvm last hl)
    · obtain ⟨-, -, rfl, -⟩ := visit_eq_goesOn_iff.mp hv
      exact hf.pairwise_children id (depth + 1)
    · intro v hvm w hw last hl
      exact hapart w hw last (hchild v hvm last hl)

theorem nodup_candidatesBelow {candidates : List ChainCandidate}
    (h : t.candidatesBelow placeholder maxDepth start = .ok candidates) : candidates.Nodup := by
  obtain ⟨ends, hs, rfl⟩ := exists_chainEnds_of_below h
  have hends : ends.Nodup := hf.nodup_chainEnds hs List.nodup_nil
    (fun _ _ => List.forall_mem_nil _) (hf.pairwise_children start 1)
  exact hends.map fun x y he => (ChainCandidate.mk.inj he).2

/-- In a forest no candidate is listed twice. -/
theorem nodup_rekeyCandidates {candidates : List ChainCandidate}
    (h : t.rekeyCandidates placeholder maxDepth = .ok candidates) : candidates.Nodup := by
  obtain ⟨found, hm, rfl⟩ := exists_mapM_of_candidates h
  have hstarts : (t.people.keys.filter fun id => t.stateOf placeholder id == .full).Nodup :=
    Std.TreeMap.nodup_keys.filter _
  rw [(List.mergeSort_perm _ _).nodup_iff, List.nodup_flatten]
  constructor
  · intro below hbelow
    obtain ⟨start, -, hs⟩ := (mem_of_mapM_ok hm).mp hbelow
    exact hf.nodup_candidatesBelow hs
  · refine pairwise_of_mapM_ok hm hstarts fun x y below below' hne hx hy c hc hc' => hne ?_
    rw [← ((mem_candidatesBelow hx).mp hc).1, ← ((mem_candidatesBelow hy).mp hc').1]

end SlotForest

/-! ### Order -/

/-- Candidates stand in the order of their starts, and those of one start in the order of their ends. -/
theorem pairwise_rekeyCandidates {candidates : List ChainCandidate}
    (h : t.rekeyCandidates placeholder maxDepth = .ok candidates) :
    candidates.Pairwise fun a b => compare a.start b.start = .lt ∨
      (a.start = b.start ∧ (compare a.last b.last).isLE = true) := by
  obtain ⟨found, -, rfl⟩ := exists_mapM_of_candidates h
  have htrans (a b c : ChainCandidate) (hab : (compare a b).isLE = true)
      (hbc : (compare b c).isLE = true) : (compare a c).isLE = true :=
    Std.TransCmp.isLE_trans hab hbc
  have htotal (a b : ChainCandidate) : ((compare a b).isLE || (compare b a).isLE) = true := by
    have hswap : compare b a = (compare a b).swap := Std.OrientedCmp.eq_swap
    rw [hswap]
    cases compare a b <;> rfl
  refine (List.pairwise_mergeSort htrans htotal _).imp fun {a b} hab => ?_
  exact (Ordering.isLE_then_iff_or.mp hab).imp_right
    (And.imp_left Std.LawfulEqOrd.compare_eq_iff_eq.mp)

/-! ### Slots and parents -/

section Mirrored

variable (hslots : ∀ p c, c ∈ t.childrenOf p → t.parentOf c = some p)
include hslots

/-- Where child slots agree with parents, a walk down the slots is a walk up, turned round. -/
theorem ancestor_of_slotWalk (h : t.SlotWalk start inner last) :
    t.ancestor? (inner.length + 1) last = some start := by
  induction inner generalizing start with
  | nil => rw [List.length_nil, ancestor?_one, hslots _ _ (slotWalk_nil.mp h)]
  | cons x inner ih =>
    obtain ⟨hx, hwalk⟩ := slotWalk_cons.mp h
    rw [List.length_cons, ancestor?_succ_of_ancestor (ih hwalk), hslots _ _ hx]

theorem mem_inner_of_ancestor (h : t.SlotWalk start inner last) {j : Nat} (hj : 0 < j)
    (hji : j ≤ inner.length) (hx : t.ancestor? j last = some x) : x ∈ inner := by
  induction inner generalizing start with
  | nil => exact absurd hj (Nat.not_lt.mpr hji)
  | cons y inner ih =>
    obtain ⟨-, hwalk⟩ := slotWalk_cons.mp h
    rcases Nat.lt_or_eq_of_le hji with hlt | rfl
    · exact List.mem_cons_of_mem y (ih hwalk (Nat.le_of_lt_succ hlt))
    · rw [List.length_cons, ancestor_of_slotWalk hslots hwalk] at hx
      cases hx
      exact List.mem_cons_self

end Mirrored

theorem WellFormed.slotForest (hw : t.WellFormed) : t.SlotForest where
  once := hw.once
  single p q c hp hq := by
    have hpq := ((hw.mirrored p c).mp hp).symm.trans ((hw.mirrored q c).mp hq)
    exact Option.some.inj hpq
  acyclic x inner h := hw.acyclic _ x (Nat.succ_pos _)
    (ancestor_of_slotWalk (fun p c hc => (hw.mirrored p c).mp hc) h)

end Tree

/-- Below the last depth that a word can hold, discovery succeeds in every graph of child slots. It lists
the full people with the ends of the open walks from them that are within reach, in order, and in a forest
each pair once. -/
theorem discovery_finds_open_walks (s : MemoryStore) (placeholder : String) {maxDepth : UInt32}
    (hd : maxDepth < 4294967295) :
    ∃ candidates,
      (MemoryStore.store.call (.rekeyCandidates placeholder maxDepth) s).1 = .ok candidates ∧
      (∀ c, c ∈ candidates ↔ s.tree.stateOf placeholder c.start = .full ∧
        ∃ inner, s.tree.OpenWalk placeholder c.start inner c.last ∧
          inner.length + 1 ≤ maxDepth.toNat) ∧
      (candidates.Pairwise fun a b => compare a.start b.start = .lt ∨
        (a.start = b.start ∧ (compare a.last b.last).isLE = true)) ∧
      (s.tree.SlotForest → candidates.Nodup) := by
  have hne : maxDepth ≠ 4294967295 := UInt32.ne_of_lt hd
  obtain ⟨candidates, hc⟩ := s.tree.exists_candidates placeholder hne
  exact ⟨candidates, MemoryStore.call_rekeyCandidates hc, fun c => Tree.mem_candidates_iff hne hc,
    Tree.pairwise_rekeyCandidates hc, fun hf => hf.nodup_rekeyCandidates hc⟩

theorem discovery_finds_household : ∃ candidates,
    (MemoryStore.store.call (.rekeyCandidates "changeme" 2) { tree := Tree.household }).1 =
        .ok candidates ∧
      ⟨⟨"root"⟩, ⟨"c"⟩⟩ ∈ candidates ∧ ⟨⟨"root"⟩, ⟨"b"⟩⟩ ∉ candidates ∧ candidates.Nodup := by
  obtain ⟨candidates, hok, hmem, -, hnodup⟩ :=
    discovery_finds_open_walks { tree := Tree.household } "changeme"
      (show (2 : UInt32) < 4294967295 by decide)
  have hwalk : Tree.household.OpenWalk "changeme" ⟨"root"⟩ [⟨"b"⟩] ⟨"c"⟩ :=
    ⟨by decide +kernel, by decide +kernel, by decide +kernel⟩
  refine ⟨candidates, hok, (hmem _).mpr ⟨by decide +kernel, [⟨"b"⟩], hwalk, Nat.le_refl 2⟩, ?_,
    hnodup Tree.wellFormed_household.slotForest⟩
  intro hb
  obtain ⟨-, inner, hopen, -⟩ := (hmem _).mp hb
  rcases hopen.ends with ⟨-, hchild⟩ | ⟨hp, -⟩
  · exact absurd hchild (by decide +kernel)
  · exact absurd hp (by decide +kernel)

end Downline
