import Downline.Proofs.Census
import Downline.Proofs.Forest
import Downline.Proofs.GuardedWrites
import Mathlib.Data.List.Induction

/-! How a forest grows. People may be inserted before or after they are attached, and whole trees may be
attached below one another: as long as nobody is given a second parent, put into a slot that is taken, or
attached below itself, the parents form a forest that the child slots mirror. -/

namespace Downline

namespace Tree

/-- Who stands in a child slot. -/
def slot? (t : Tree) (p : PersonId) : (side : Side) → Option PersonId
  | .left => (t.relationsOf p).left
  | .right => (t.relationsOf p).right

/-- Child slots and parents say the same: a child stands in exactly one slot of its parent, and nobody stands
in two slots. -/
structure Mirrored (t : Tree) : Prop where
  parent_iff : ∀ p c, (∃! side, t.slot? p side = some c) ↔ t.parentOf c = some p
  single : ∀ p q side side' c, t.slot? p side = some c → t.slot? q side' = some c →
    p = q ∧ side = side'

/-- The child has no parent yet, the slot is free, and the parent is neither the child nor below it. -/
structure Attachable (t : Tree) (parent child : PersonId) (side : Side) : Prop where
  orphan : t.parentOf child = none
  free : t.slot? parent side = none
  apart : ∀ k, t.ancestor? k parent ≠ some child

end Tree

/-- The id to which an incident gives a parent. -/
def Incident.attached? : Incident → Option PersonId
  | edit (.attach _ child _) => some child
  | _ => none

theorem Incident.eq_attach {i : Incident} {child : PersonId} (h : i.attached? = some child) :
    ∃ parent side, i = .edit (.attach parent child side) := by
  cases i with
  | call c => cases h
  | edit e =>
    cases e with
    | attach parent c side =>
      cases h
      exact ⟨parent, side, rfl⟩
    | insert | overwrite | failOn | clearFailures => cases h

/-- The ids to which a history gives parents, one for each time. -/
def attached (history : List Incident) : List PersonId :=
  history.filterMap Incident.attached?

namespace Tree

/-- What a tree keeps while it grows: every child that was attached stands where it was put, and nobody else
stands anywhere. -/
structure Rooted (t : Tree) (history : List Incident) : Prop where
  mirrored : t.Mirrored
  acyclic : ∀ k x, 0 < k → t.ancestor? k x ≠ some x
  slot_iff : ∀ p side c, t.slot? p side = some c ↔ .edit (.attach p c side) ∈ history

variable {t t' : Tree} {p parent child c x : PersonId} {side side' : Side} {k H : Nat}
  {history : List Incident} {i : Incident}

/-! ### Slots -/

theorem slot?_congr (h : ∀ x, t'.relationsOf x = t.relationsOf x) :
    t'.slot? p side = t.slot? p side := by
  cases side <;> simp only [slot?, h]

theorem mem_childrenOf_iff : c ∈ t.childrenOf p ↔ ∃ side, t.slot? p side = some c := by
  have hchildren : c ∈ t.childrenOf p ↔ t.slot? p .left = some c ∨ t.slot? p .right = some c := by
    simp [childrenOf, Relations.children, slot?]
  rw [hchildren]
  constructor
  · intro hh
    rcases hh with h | h
    · exact ⟨.left, h⟩
    · exact ⟨.right, h⟩
  · intro hh
    obtain ⟨side, h⟩ := hh
    cases side with
    | left => exact .inl h
    | right => exact .inr h

namespace Mirrored

/-- Slots mirror parents where each slot names the parent, each parent has a slot, and no two slots of one
parent are taken by one child. -/
theorem of_slots (hslot : ∀ p side c, t.slot? p side = some c → t.parentOf c = some p)
    (hparent : ∀ p c, t.parentOf c = some p → ∃ side, t.slot? p side = some c)
    (hone : ∀ p side side' c, t.slot? p side = some c → t.slot? p side' = some c → side = side') :
    t.Mirrored where
  parent_iff p c := by
    constructor
    · intro hh
      obtain ⟨side, hside, -⟩ := hh
      exact hslot p side c hside
    · intro hp
      obtain ⟨side, hside⟩ := hparent p c hp
      exact ⟨side, hside, fun side' hside' => hone p side' side c hside' hside⟩
  single p q side side' c hp hq := by
    cases (hslot p side c hp).symm.trans (hslot q side' c hq)
    exact ⟨rfl, hone p side side' c hp hq⟩

theorem parentOf_of_slot (h : t.Mirrored) (hc : t.slot? p side = some c) :
    t.parentOf c = some p :=
  (h.parent_iff p c).mp ⟨side, hc, fun side' hc' => (h.single p p side' side c hc' hc).2⟩

theorem exists_slot (h : t.Mirrored) (hp : t.parentOf c = some p) :
    ∃ side, t.slot? p side = some c :=
  ((h.parent_iff p c).mpr hp).exists

/-- The children that an id lists are those who name it as their parent. -/
theorem mem_childrenOf (h : t.Mirrored) : c ∈ t.childrenOf p ↔ t.parentOf c = some p := by
  rw [mem_childrenOf_iff]
  constructor
  · intro hh
    obtain ⟨side, hc⟩ := hh
    exact h.parentOf_of_slot hc
  · exact h.exists_slot

theorem congr (h : t.Mirrored) (hsame : ∀ x, t'.relationsOf x = t.relationsOf x) :
    t'.Mirrored := by
  refine ⟨fun p c => ?_, fun p q side side' c hp hq => ?_⟩
  · simp only [slot?_congr hsame, parentOf, hsame]
    exact h.parent_iff p c
  · rw [slot?_congr hsame] at hp hq
    exact h.single p q side side' c hp hq

theorem nodup_childrenOf (h : t.Mirrored) (p : PersonId) : (t.childrenOf p).Nodup := by
  unfold childrenOf Relations.children
  cases hl : (t.relationsOf p).left with
  | none => cases (t.relationsOf p).right <;> simp
  | some a =>
    cases hr : (t.relationsOf p).right with
    | none => simp
    | some b =>
      have hne : a ≠ b := by
        rintro rfl
        cases (h.single p p .left .right a hl hr).2
      simpa using hne

end Mirrored

/-! ### Attaching -/

theorem parentOf_attach : (t.attach parent child side).parentOf x =
    if child = x then some parent else t.parentOf x := by
  rw [parentOf, relationsOf_attach]

theorem slot?_attach : (t.attach parent child side).slot? p side' =
    if parent = p ∧ side = side' then some child else t.slot? p side' := by
  cases side' <;> rw [slot?, relationsOf_attach] <;> rfl

theorem Mirrored.attach (h : t.Mirrored) (ha : t.Attachable parent child side) :
    (t.attach parent child side).Mirrored := by
  -- One slot and the parent of the child change; the child stood nowhere before, and nobody in that slot.
  have hnowhere {p : PersonId} {side : Side} : t.slot? p side ≠ some child := by
    intro hc
    have hp := h.parentOf_of_slot hc
    rw [ha.orphan] at hp
    cases hp
  refine .of_slots ?_ ?_ ?_
  · intro p s c hc
    rw [slot?_attach] at hc
    rw [parentOf_attach]
    split at hc
    next hnew =>
      obtain ⟨rfl, -⟩ := hnew
      cases hc
      rw [if_pos rfl]
    next =>
      rw [if_neg fun he => hnowhere (he ▸ hc)]
      exact h.parentOf_of_slot hc
  · intro p c hp
    rw [parentOf_attach] at hp
    split at hp
    next he =>
      cases he
      cases hp
      exact ⟨side, by rw [slot?_attach, if_pos ⟨rfl, rfl⟩]⟩
    next =>
      obtain ⟨s, hs⟩ := h.exists_slot hp
      refine ⟨s, ?_⟩
      rw [slot?_attach, if_neg, hs]
      intro hnew
      obtain ⟨rfl, rfl⟩ := hnew
      rw [ha.free] at hs
      cases hs
  · intro p s s' c hs hs'
    rw [slot?_attach] at hs hs'
    split at hs <;> split at hs'
    next hnew hnew' => exact hnew.2.symm.trans hnew'.2
    next => exact absurd (hs.symm ▸ hs') hnowhere
    next => exact absurd (hs'.symm ▸ hs) hnowhere
    next => exact (h.single p p s s' c hs hs').2

/-- In a tree of known height only so many people have to be looked at above the parent. -/
theorem Attachable.of_height (hH : t.HeightAtMost H) (horphan : t.parentOf child = none)
    (hfree : t.slot? parent side = none) (hapart : ∀ k ≤ H, t.ancestor? k parent ≠ some child) :
    t.Attachable parent child side :=
  ⟨horphan, hfree, fun k hk => hapart k (hH.le hk) hk⟩

/-- The new link is not seen from anywhere above the parent. -/
theorem ancestor?_attach_of_apart (ha : ∀ k, t.ancestor? k x ≠ some child) (k : Nat) :
    (t.attach parent child side).ancestor? k x = t.ancestor? k x := by
  induction k generalizing x with
  | zero => rfl
  | succ k ih =>
    have hx : ¬ child = x := fun he => ha 0 (congrArg some he.symm)
    rw [ancestor?_succ, ancestor?_succ, parentOf_attach, if_neg hx]
    cases hp : t.parentOf x with
    | none => rfl
    | some p => exact ih fun j => ancestor?_of_parent hp j ▸ ha (j + 1)

/-- A walk up that does not come to the child before its last step is the one that there was before. -/
theorem ancestor?_attach_or_passes (k : Nat) (x : PersonId) :
    (t.attach parent child side).ancestor? k x = t.ancestor? k x ∨
      ∃ j < k, (t.attach parent child side).ancestor? j x = some child := by
  induction k generalizing x with
  | zero => exact .inl rfl
  | succ k ih =>
    by_cases hx : child = x
    · exact .inr ⟨0, k.succ_pos, congrArg some hx.symm⟩
    · have hsame : (t.attach parent child side).parentOf x = t.parentOf x := by
        rw [parentOf_attach, if_neg hx]
      cases hp : t.parentOf x with
      | none =>
        left
        rw [ancestor?_succ, ancestor?_succ, hsame, hp]
        rfl
      | some p =>
        rw [hp] at hsame
        rw [ancestor?_of_parent hsame, ancestor?_of_parent hp]
        refine (ih p).imp_right fun hh => ?_
        obtain ⟨j, hj, hc⟩ := hh
        exact ⟨j + 1, Nat.succ_lt_succ hj, (ancestor?_of_parent hsame j).trans hc⟩

theorem Attachable.acyclic (ha : t.Attachable parent child side)
    (h : ∀ k x, 0 < k → t.ancestor? k x ≠ some x) (hk : 0 < k) :
    (t.attach parent child side).ancestor? k x ≠ some x := by
  intro hx
  rcases ancestor?_attach_or_passes k x with hold | ⟨j, hj, hc⟩
  · exact h k x hk (hold ▸ hx)
  · -- The way round leads over the child, so it leads from the child back to the child, over the parent.
    have hround : (t.attach parent child side).ancestor? k child = some child := by
      have hback := (ancestor?_from hc hj.le).symm.trans hx
      rw [← Nat.sub_add_cancel hj.le, ancestor?_add, hback, Option.bind_some, hc]
    have hp : (t.attach parent child side).parentOf child = some parent := by
      rw [parentOf_attach, if_pos rfl]
    obtain ⟨m, rfl⟩ : ∃ m, k = m + 1 := ⟨k - 1, by omega⟩
    rw [ancestor?_of_parent hp, ancestor?_attach_of_apart ha.apart] at hround
    exact ha.apart m hround

namespace Rooted

theorem of_unrelated (h : ∀ x, t.relationsOf x = {}) : t.Rooted [] := by
  have hslot (p : PersonId) (side : Side) (c : PersonId) : t.slot? p side ≠ some c := by
    cases side <;> rw [slot?, h] <;> exact (Option.some_ne_none c).symm
  have hparent (x p : PersonId) : t.parentOf x ≠ some p := by
    rw [parentOf, h]
    exact (Option.some_ne_none p).symm
  refine ⟨.of_slots ?_ ?_ ?_, fun k x hk hx => ?_, fun p side c => ?_⟩
  · exact fun p side c hc => absurd hc (hslot p side c)
  · exact fun p c hp => absurd hp (hparent c p)
  · exact fun p side side' c hc => absurd hc (hslot p side c)
  · obtain ⟨m, rfl⟩ : ∃ m, k = m + 1 := ⟨k - 1, by omega⟩
    obtain ⟨p, hp, -⟩ := Option.bind_eq_some_iff.mp hx
    exact hparent x p hp
  · exact iff_of_false (hslot p side c) List.not_mem_nil

theorem congr (h : t.Rooted history) (hi : i.attached? = none)
    (hsame : ∀ x, t'.relationsOf x = t.relationsOf x) : t'.Rooted (history ++ [i]) := by
  have hparent (x : PersonId) : t'.parentOf x = t.parentOf x := by
    simp only [parentOf, hsame]
  refine ⟨h.mirrored.congr hsame, fun k x hk => ?_, fun p side c => ?_⟩
  · rw [ancestor?_congr hparent]
    exact h.acyclic k x hk
  · have hne : .edit (.attach p c side) ≠ i := by
      rintro rfl
      cases hi
    rw [slot?_congr hsame, h.slot_iff, List.mem_append, List.mem_singleton, or_iff_left hne]

theorem attach (h : t.Rooted history) (ha : t.Attachable parent child side) :
    (t.attach parent child side).Rooted (history ++ [.edit (.attach parent child side)]) := by
  refine ⟨h.mirrored.attach ha, fun k x hk => ha.acyclic h.acyclic hk, fun p s c => ?_⟩
  rw [slot?_attach, List.mem_append, List.mem_singleton, ← h.slot_iff]
  split
  next hnew =>
    obtain ⟨rfl, rfl⟩ := hnew
    simp [ha.free, eq_comm]
  next hold =>
    refine (or_iff_left fun he => hold ?_).symm
    cases he
    exact ⟨rfl, rfl⟩

/-- Whoever has a parent was attached to it. -/
theorem mem_attached (h : t.Rooted history) (hp : t.parentOf x = some p) : x ∈ attached history := by
  obtain ⟨side, hside⟩ := h.mirrored.exists_slot hp
  exact List.mem_filterMap.mpr ⟨_, (h.slot_iff p side x).mp hside, rfl⟩

/-- Nobody stands deeper than there are ids that were given a parent. -/
theorem heightAtMost (h : t.Rooted history) : t.HeightAtMost (attached history).length :=
  .of_acyclic h.acyclic fun _ _ hp => h.mem_attached hp

/-- Where everybody who is related is a person, what has grown is a forest of people. -/
theorem wellFormed (h : t.Rooted history)
    (hpeople : ∀ id, id ∈ t.relations → (t.person? id).isSome) : t.WellFormed where
  mirrored _ _ := h.mirrored.mem_childrenOf
  once := h.mirrored.nodup_childrenOf
  people := hpeople
  acyclic := h.acyclic

end Rooted

end Tree

/-! ### Histories -/

/-- An incident that attaches somebody finds the tree ready for it. -/
def Incident.Suits (t : Tree) : Incident → Prop
  | edit (.attach parent child side) => t.Attachable parent child side
  | _ => True

namespace MemoryStore

/-- Whenever somebody is attached in a history, the tree grown by then is ready for it. -/
def Orderly (history : List Incident) : Prop :=
  ∀ before i, before ++ [i] <+: history → i.Suits (grown before).tree

variable {s : MemoryStore} {history before : List Incident} {i : Incident} {x : PersonId}

theorem Orderly.of_prefix (h : Orderly history) (hb : before <+: history) : Orderly before :=
  fun earlier i hi => h earlier i (hi.trans hb)

theorem orderly_of_steps
    (h : ∀ (n : Nat) (i : Incident), history[n]? = some i → i.Suits (grown (history.take n)).tree) :
    Orderly history := by
  intro before i hi
  obtain ⟨rest, rfl⟩ := hi
  have hstep := h before.length i
  rw [List.append_assoc, List.take_left, List.getElem?_append_right (Nat.le_refl _),
    Nat.sub_self] at hstep
  exact hstep rfl

/-- A call relates nobody. -/
theorem relations_call (c : Call) : (store.call c s).2.tree.relations = s.tree.relations := by
  cases c with
  | setCredentials ids login guard =>
    rw [call_setCredentials_eq]
    split
    · rfl
    · exact s.tree.relations_write ids login guard
  | person | relations | emptyIds | fullIds | upwardPaths | rekeyCandidates | downwardPath
  | credentialCensus => exact congrArg Tree.relations (tree_call _ nofun)

/-- Only attaching changes how people are related. -/
theorem relationsOf_meet (hi : i.attached? = none) (x : PersonId) :
    (s.meet i).tree.relationsOf x = s.tree.relationsOf x := by
  cases i with
  | call c => rw [meet, Tree.relationsOf, relations_call, Tree.relationsOf]
  | edit e =>
    cases e with
    | insert r => exact s.tree.relationsOf_insert r x
    | attach => cases hi
    | overwrite | failOn | clearFailures => rfl

/-- Whoever is inserted is related from then on, if only to nobody. -/
theorem mem_relations_meet (hx : i.inserted? = some x ∨ x ∈ s.tree.relations) :
    x ∈ (s.meet i).tree.relations := by
  cases i with
  | call c =>
    rw [meet, relations_call]
    exact hx.resolve_left fun he => by cases he
  | edit e =>
    cases e with
    | insert r =>
      rw [meet, edit, Tree.insert, Std.TreeMap.mem_insertIfNew, Std.LawfulEqOrd.compare_eq_iff_eq]
      exact hx.imp_left Option.some.inj
    | attach parent child side =>
      simp only [meet, edit, Tree.attach, Std.TreeMap.mem_insert]
      exact .inr (.inr (hx.resolve_left fun he => by cases he))
    | overwrite | failOn | clearFailures => exact hx.resolve_left fun he => by cases he

theorem mem_relations_grown (hx : x ∈ inserted history) : x ∈ (grown history).tree.relations := by
  rw [inserted, List.mem_toFinset] at hx
  induction history using List.reverseRecOn with
  | nil => cases hx
  | append_singleton before latest ih =>
    rw [List.filterMap_append, List.mem_append] at hx
    rw [grown_concat]
    refine mem_relations_meet ?_
    rcases hx with hx | hx
    · exact .inr (ih hx)
    · left
      obtain ⟨j, hj, hjx⟩ := List.mem_filterMap.mp hx
      rwa [List.mem_singleton.mp hj] at hjx

/-- To insert a person once more relates nobody and adds no entry for anybody. -/
theorem relations_insert_again {r : PersonRecord} (hr : r.id ∈ s.tree.relations) (x : PersonId) :
    (s.edit (.insert r)).tree.relations[x]? = s.tree.relations[x]? := by
  rw [edit, Tree.insert, Std.TreeMap.getElem?_insertIfNew, if_neg]
  exact fun hh => hh.2 hr

/-- Every step of an orderly history keeps the tree rooted. -/
theorem rooted_grown (h : Orderly history) : (grown history).tree.Rooted history := by
  induction history using List.reverseRecOn with
  | nil =>
    refine .of_unrelated fun x => ?_
    have hnone : (grown []).tree.relations[x]? = none := Std.TreeMap.getElem?_emptyc
    rw [Tree.relationsOf, hnone, Option.getD_none]
  | append_singleton before latest ih =>
    have hbefore := ih (h.of_prefix (List.prefix_append _ _))
    rw [grown_concat]
    cases hc : latest.attached? with
    | none => exact hbefore.congr hc (relationsOf_meet hc)
    | some child =>
      obtain ⟨parent, side, rfl⟩ := Incident.eq_attach hc
      exact hbefore.attach (h before _ (List.prefix_refl _))

/-- A chain of four is put together from its two halves. People are inserted in between, and the first of them
once more at the end. -/
def planting : List Incident := [
  .edit (.attach ⟨"root"⟩ ⟨"a"⟩ .left),
  .edit (.attach ⟨"b"⟩ ⟨"c"⟩ .left),
  .edit (.insert { id := ⟨"root"⟩ }),
  .edit (.insert { id := ⟨"b"⟩ }),
  .edit (.attach ⟨"a"⟩ ⟨"b"⟩ .right),
  .edit (.insert { id := ⟨"a"⟩ }),
  .edit (.insert { id := ⟨"c"⟩ }),
  .edit (.insert { id := ⟨"root"⟩, attributes := { username := some "boss", password := some "real" } })]

theorem orderly_planting : Orderly planting := by
  refine orderly_of_steps fun n i hi => ?_
  match n with
  | 0 | 1 | 4 =>
    cases hi
    exact .of_height (H := 1) (.of_keys (by decide +kernel)) (by decide +kernel) (by decide +kernel)
      (by decide +kernel)
  | 2 | 3 | 5 | 6 | 7 =>
    cases hi
    trivial
  | n + 8 => cases hi

/-- What was grown in an orderly way is a forest of people as soon as everybody who is related has been
inserted, so that whatever holds of forests of people holds of it. -/
theorem wellFormed_grown (h : Orderly history)
    (hpeople : ∀ id, id ∈ (grown history).tree.relations → id ∈ inserted history) :
    (grown history).tree.WellFormed :=
  (rooted_grown h).wellFormed fun id hid => (isSome_person?_grown history).mpr (hpeople id hid)

/-- People may be inserted and attached in any order, whatever else happens in between. As long as each child
that is attached has no parent yet, the slot is free, and the parent is neither the child nor below it, then
after every step the relations are a forest: from nobody do more edges lead up than there were children
attached, a child is in exactly one slot of its parent, and nobody is in two slots. The slots hold just the
children that were attached. Inserting a person changes no relation; to insert it again adds no entry either. -/
theorem growth_keeps_forest {history done : List Incident} (h : Orderly history)
    (hdone : done <+: history) :
    (grown done).tree.HeightAtMost (attached done).length ∧
      (grown done).tree.Mirrored ∧
      (∀ p c, c ∈ (grown done).tree.childrenOf p ↔ (grown done).tree.parentOf c = some p) ∧
      (∀ p side c, (grown done).tree.slot? p side = some c ↔ .edit (.attach p c side) ∈ done) ∧
      (∀ r x, ((grown done).edit (.insert r)).tree.relationsOf x =
        (grown done).tree.relationsOf x) ∧
      ∀ (r : PersonRecord) (x : PersonId), r.id ∈ inserted done →
        ((grown done).edit (.insert r)).tree.relations[x]? = (grown done).tree.relations[x]? := by
  have hrooted := rooted_grown (h.of_prefix hdone)
  refine ⟨hrooted.heightAtMost, hrooted.mirrored, fun p c => hrooted.mirrored.mem_childrenOf,
    hrooted.slot_iff, fun r x => ?_, fun r x hr => ?_⟩
  · exact (grown done).tree.relationsOf_insert r x
  · exact relations_insert_again (mem_relations_grown hr) x

theorem planting_keeps_forest : Orderly planting ∧ planting.take 5 <+: planting ∧
    (grown (planting.take 5)).tree.HeightAtMost 3 ∧ (grown (planting.take 5)).tree.Mirrored ∧
    (grown (planting.take 5)).tree.slot? ⟨"a"⟩ .right = some ⟨"b"⟩ ∧
    (grown (planting.take 5)).tree.ancestor? 3 ⟨"c"⟩ = some ⟨"root"⟩ ∧
    ∀ x : PersonId, (grown planting).tree.relations[x]? =
      (grown (planting.take 7)).tree.relations[x]? := by
  obtain ⟨hheight, hmirrored, -, hslots, -⟩ :=
    growth_keeps_forest orderly_planting (List.take_prefix 5 planting)
  obtain ⟨-, -, -, -, -, hagain⟩ :=
    growth_keeps_forest orderly_planting (List.take_prefix 7 planting)
  have hattached : .edit (.attach ⟨"a"⟩ ⟨"b"⟩ .right) ∈ planting.take 5 := by simp [planting]
  refine ⟨orderly_planting, List.take_prefix 5 planting, hheight, hmirrored,
    (hslots _ _ _).mpr hattached, by decide +kernel, ?_⟩
  exact fun x => hagain _ x (by decide)

end MemoryStore

end Downline
