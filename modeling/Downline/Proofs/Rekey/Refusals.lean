import Downline.Proofs.Rekey.Plan

/-! Which lists of nodes re-keying plans for, which reason it gives for any other, and that a plan lists
exactly those behind the start who are not full. Nothing is asked of the list: ids may come twice, and a login
may lack either half anywhere on it. -/

namespace Downline

variable {placeholder : String} {path : List PathNode} {plan : RekeyPlan} {reason : SkipReason}

/-! ### Conditions on a path -/

namespace SkipReason

/-- What a path has to meet so that it is not left alone for this reason. -/
def Condition (placeholder : String) (path : List PathNode) : SkipReason → Prop
  | pathGone => 2 ≤ path.length
  | startNotFull => ∃ start ∈ path.head?, start.state placeholder = .full
  | interiorChanged => ∀ n ∈ path.tail.dropLast, n.password = some placeholder
  | nothingToWrite => 2 < path.length ∨ ∃ last ∈ path.getLast?, last.password = some placeholder

instance (placeholder : String) (path : List PathNode) :
    DecidablePred (Condition placeholder path)
  | pathGone => inferInstanceAs (Decidable (2 ≤ path.length))
  | startNotFull => inferInstanceAs (Decidable (∃ start ∈ path.head?, _))
  | interiorChanged => inferInstanceAs (Decidable (∀ n ∈ path.tail.dropLast, _))
  | nothingToWrite => inferInstanceAs (Decidable (2 < path.length ∨ ∃ last ∈ path.getLast?, _))

/-- The reasons in the order in which their conditions are looked at. -/
def inOrder : List SkipReason :=
  [pathGone, startNotFull, interiorChanged, nothingToWrite]

/-- The reason whose condition is the first that a path fails, if it fails any. -/
def first? (placeholder : String) (path : List PathNode) : Option SkipReason :=
  inOrder.find? fun reason => ¬ reason.Condition placeholder path

theorem mem_inOrder (reason : SkipReason) : reason ∈ inOrder := by
  cases reason <;> decide

theorem first?_eq_none : first? placeholder path = none ↔
    ∀ reason : SkipReason, reason.Condition placeholder path := by
  simp [first?, mem_inOrder]

end SkipReason

theorem PathNode.holdsPlaceholder_iff {n : PathNode} :
    n.holdsPlaceholder placeholder = true ↔ n.password = some placeholder := by
  rw [holdsPlaceholder, beq_iff_eq]

/-- Planning gives up for the first condition that fails, and for nothing else. -/
theorem first?_eq (path : List PathNode) (placeholder : String) :
    SkipReason.first? placeholder path =
      match planRekey path placeholder with
      | .error reason => some reason
      | .ok _ => none := by
  -- Planning takes a path of two nodes or more apart, and so each condition is put in its terms first.
  match path with
  | [] => rfl
  | [_] => rfl
  | start :: next :: below =>
    have hgone : SkipReason.pathGone.Condition placeholder (start :: next :: below) :=
      Nat.le_add_left 2 below.length
    have hstart : SkipReason.startNotFull.Condition placeholder (start :: next :: below) ↔
        start.state placeholder = .full := by
      simp [SkipReason.Condition]
    have hinterior : SkipReason.interiorChanged.Condition placeholder (start :: next :: below) ↔
        (next :: below).dropLast.all (·.holdsPlaceholder placeholder) = true := by
      simp [SkipReason.Condition, PathNode.holdsPlaceholder_iff]
    have htarget : SkipReason.nothingToWrite.Condition placeholder (start :: next :: below) ↔
        (next :: below).dropLast.isEmpty = false ∨
          ((next :: below).getLast (List.cons_ne_nil next below)).holdsPlaceholder placeholder =
            true := by
      rw [PathNode.holdsPlaceholder_iff]
      cases below <;> simp [SkipReason.Condition]
    unfold SkipReason.first? SkipReason.inOrder planRekey
    by_cases hs : start.state placeholder = .full
    · obtain ⟨c, hc, -⟩ := CredentialState.classify_full_iff.mp hs
      have hcredentials : start.credentials? = some c := hc
      by_cases hm : (next :: below).dropLast.all (·.holdsPlaceholder placeholder) = true
      · cases hl : ((next :: below).getLast (List.cons_ne_nil next below)).holdsPlaceholder
          placeholder <;> cases he : (next :: below).dropLast.isEmpty <;>
          simp [hgone, hstart, hinterior, htarget, hs, hcredentials, hm, hl, he]
      · simp [hgone, hstart, hinterior, hs, hcredentials, hm]
    · simp [hgone, hstart, hs]

theorem planRekey_eq_error_iff : planRekey path placeholder = .error reason ↔
    SkipReason.first? placeholder path = some reason := by
  rw [first?_eq]
  cases planRekey path placeholder <;> simp

theorem exists_plan_iff : (∃ plan, planRekey path placeholder = .ok plan) ↔
    ∀ reason : SkipReason, reason.Condition placeholder path := by
  rw [← SkipReason.first?_eq_none, first?_eq]
  cases planRekey path placeholder <;> simp

/-! ### Whom a plan lists -/

/-- A plan for a path has the login of its start, which is a real one, and lists the nodes behind the start
that are not full: those in `held`, and in `bare` an end that does not hold the placeholder. -/
structure RekeyPlan.Lists (plan : RekeyPlan) (placeholder : String) (path held : List PathNode)
    (bare : Option PathNode) : Prop where
  credentials : path.head?.bind (·.credentials?) = some plan.credentials
  real : CredentialState.classify plan.credentials.username plan.credentials.password placeholder =
    .full
  targets : plan.targets = held.map (·.id)
  emptyEnd : plan.emptyEnd = bare.map (·.id)
  /-- Together they are everyone behind the start who is not full, in the order of the path. -/
  not_full : held ++ bare.toList = path.tail.filter (·.state placeholder != .full)
  held_permitted : ∀ n ∈ held,
    (WriteGuard.holdsPlaceholder placeholder).permits n.username n.password = true
  bare_end : ∀ n ∈ bare, path.getLast? = some n ∧ n.password ≠ some placeholder
  bare_permitted : ∀ n ∈ bare,
    (WriteGuard.notFull placeholder).permits n.username n.password = true

namespace PathNode

variable {n : PathNode}

theorem not_full_of_placeholder (h : n.holdsPlaceholder placeholder = true) :
    n.state placeholder ≠ .full :=
  CredentialState.classify_ne_full_of_placeholder (holdsPlaceholder_iff.mp h)

/-- What becomes of the end of a path: it is a target, stands apart, or is full. -/
theorem end_cases (n : PathNode) (placeholder : String) :
    (n.holdsPlaceholder placeholder = true ∧ n.state placeholder ≠ .full) ∨
      (n.holdsPlaceholder placeholder = false ∧ n.state placeholder = .empty) ∨
      (n.holdsPlaceholder placeholder = false ∧ n.state placeholder = .full) := by
  cases hp : n.holdsPlaceholder placeholder with
  | true => exact .inl ⟨rfl, not_full_of_placeholder hp⟩
  | false =>
    by_cases he : n.state placeholder = .empty
    · exact .inr (.inl ⟨rfl, he⟩)
    · refine .inr (.inr ⟨rfl, ?_⟩)
      by_contra hf
      have hholds := holdsPlaceholder_iff.mpr (CredentialState.password_of_classify he hf)
      rw [hp] at hholds
      cases hholds

end PathNode

theorem CredentialState.classify_of_halves {username password : Option String} {c : Credentials}
    (h : Credentials.ofHalves? username password = some c) :
    classify username password placeholder = classify c.username c.password placeholder := by
  cases username <;> cases password <;> cases h
  rfl

theorem RekeyPlan.Fits.exists_lists {start last : PathNode} {mid : List PathNode}
    (h : plan.Fits placeholder start mid last) :
    ∃ held bare, plan.Lists placeholder (start :: (mid ++ [last])) held bare := by
  have hreal := (CredentialState.classify_of_halves h.credentials).symm.trans h.full
  have hmid : mid.filter (·.state placeholder != .full) = mid :=
    List.filter_eq_self.mpr fun n hn =>
      bne_iff_ne.mpr (PathNode.not_full_of_placeholder (h.interior n hn))
  have htargets := h.targets
  have hend := h.emptyEnd
  rcases last.end_cases placeholder with ⟨hp, hs⟩ | ⟨hp, hs⟩ | ⟨hp, hs⟩
  · have hheld := List.forall_mem_append.mpr ⟨h.interior, List.forall_mem_singleton.mpr hp⟩
    refine ⟨mid ++ [last], none, h.credentials, hreal, ?_, ?_, ?_, hheld, nofun, nofun⟩
    · simpa [hp] using htargets
    · simpa [hp] using hend
    · simp [List.filter_append, hmid, hs]
  · have hn : last.password ≠ some placeholder := by
      simpa [PathNode.holdsPlaceholder] using hp
    have hlast : (start :: (mid ++ [last])).getLast? = some last := by
      rw [← List.cons_append, List.getLast?_concat]
    have hpermits : (WriteGuard.notFull placeholder).permits last.username last.password = true := by
      refine bne_iff_ne.mpr fun hf => ?_
      cases hs.symm.trans hf
    refine ⟨mid, some last, h.credentials, hreal, ?_, ?_, ?_, h.interior, ?_, ?_⟩
    · simpa [hp] using htargets
    · simpa [hp, hs] using hend
    · simp [List.filter_append, hmid, hs]
    · rintro n ⟨⟩
      exact ⟨hlast, hn⟩
    · rintro n ⟨⟩
      exact hpermits
  · refine ⟨mid, none, h.credentials, hreal, ?_, ?_, ?_, h.interior, nofun, nofun⟩
    · simpa [hp] using htargets
    · simpa [hp, hs] using hend
    · simp [List.filter_append, hmid, hs]

namespace RekeyPlan.Lists

variable {held : List PathNode} {bare : Option PathNode} (h : plan.Lists placeholder path held bare)
include h

theorem listed_eq : plan.targets ++ plan.emptyEnd.toList =
    (path.tail.filter (·.state placeholder != .full)).map (·.id) := by
  rw [h.targets, h.emptyEnd, ← h.not_full, List.map_append]
  cases bare <;> rfl

/-- Where ids tell the nodes of a path apart, no id of a full node is listed. -/
theorem spares (hn : (path.map (·.id)).Nodup) {n : PathNode} (hmem : n ∈ path)
    (hf : n.state placeholder = .full) : n.id ∉ plan.targets ++ plan.emptyEnd.toList := by
  rw [h.listed_eq, List.mem_map]
  intro hh
  obtain ⟨m, hm, he⟩ := hh
  obtain ⟨htail, hm'⟩ := List.mem_filter.mp hm
  cases List.inj_on_of_nodup_map hn (List.mem_of_mem_tail htail) hmem he
  exact bne_iff_ne.mp hm' hf

end RekeyPlan.Lists

/-- A path gets a plan exactly if it meets every condition, and the reason for any other is that of the first
condition that it fails. A plan lists, in the order of the path, exactly the nodes behind the start that are
not full, with an empty end apart, each with a login that its guard lets through, and gives them the login of
the start, which is real. -/
theorem plans_exactly_what_is_permitted (path : List PathNode) (placeholder : String) :
    ((∃ plan, planRekey path placeholder = .ok plan) ↔
      ∀ reason : SkipReason, reason.Condition placeholder path) ∧
    (∀ reason, planRekey path placeholder = .error reason ↔
      SkipReason.first? placeholder path = some reason) ∧
    ∀ plan, planRekey path placeholder = .ok plan →
      (∃ held bare, plan.Lists placeholder path held bare) ∧
      ((path.map (·.id)).Nodup → ∀ n ∈ path, n.state placeholder = .full →
        n.id ∉ plan.targets ++ plan.emptyEnd.toList) := by
  refine ⟨exists_plan_iff, fun reason => planRekey_eq_error_iff, fun plan h => ?_⟩
  obtain ⟨start, mid, last, rfl, hfits⟩ := planRekey_eq_ok_iff.mp h
  obtain ⟨held, bare, hlists⟩ := hfits.exists_lists
  exact ⟨⟨held, bare, hlists⟩, fun hn n hmem hf => hlists.spares hn hmem hf⟩

/-- A path over somebody who has lost its username down to somebody with no login. -/
def halfFilledPath : List PathNode :=
  [⟨⟨"root"⟩, some "boss", some "real"⟩, ⟨⟨"b"⟩, none, some "changeme"⟩, ⟨⟨"c"⟩, none, none⟩]

theorem plans_half_filled_path : ∃ plan, planRekey halfFilledPath "changeme" = .ok plan ∧
    plan.targets ++ plan.emptyEnd.toList = [⟨"b"⟩, ⟨"c"⟩] ∧
    ⟨"root"⟩ ∉ plan.targets ++ plan.emptyEnd.toList := by
  obtain ⟨hplan, -, hlists⟩ := plans_exactly_what_is_permitted halfFilledPath "changeme"
  obtain ⟨plan, h⟩ := hplan.mpr (fun reason => by cases reason <;> decide)
  obtain ⟨⟨held, bare, hlisted⟩, hspared⟩ := hlists plan h
  refine ⟨plan, h, ?_, hspared (by decide) _ List.mem_cons_self (by decide)⟩
  rw [hlisted.listed_eq]
  decide

end Downline
