import Downline.Database.Script
import Downline.Proofs.Paths
import Downline.Proofs.Rekey.Refusals

/-! A path from a database against the same path in memory. The statement writes a missing half of a login as
the empty text, and the client reads every empty text as a missing half, so that a half which is set and empty
is lost on the way. -/

namespace Downline

/-! ### Empty texts in a login -/

namespace PathNode

/-- Whether a half of the login is set and empty. -/
def hasEmptyText (n : PathNode) : Bool :=
  n.username == some "" || n.password == some ""

/-- The node with its empty texts taken for missing halves. -/
def withoutEmptyTexts (n : PathNode) : PathNode :=
  { n with username := n.username.filter (· ≠ ""), password := n.password.filter (· ≠ "") }

variable {placeholder : String} {n : PathNode}

@[simp]
theorem id_withoutEmptyTexts (n : PathNode) : n.withoutEmptyTexts.id = n.id := rfl

theorem filter_ne_empty_eq_self {half : Option String} :
    half.filter (· ≠ "") = half ↔ half ≠ some "" := by
  cases half <;> simp [Option.filter]

theorem withoutEmptyTexts_eq_self : n.withoutEmptyTexts = n ↔ n.hasEmptyText = false := by
  obtain ⟨id, username, password⟩ := n
  simp only [withoutEmptyTexts, mk.injEq, true_and, filter_ne_empty_eq_self, hasEmptyText,
    Bool.or_eq_false_iff, beq_eq_false_iff_ne]

/-- A node that loses a half is left with an incomplete login. -/
theorem state_withoutEmptyTexts (n : PathNode) (placeholder : String) :
    n.withoutEmptyTexts.state placeholder =
      if n.hasEmptyText then .empty else n.state placeholder := by
  cases h : n.hasEmptyText with
  | false => rw [withoutEmptyTexts_eq_self.mpr h, if_neg Bool.false_ne_true]
  | true =>
    obtain ⟨id, username, password⟩ := n
    simp only [hasEmptyText, Bool.or_eq_true, beq_iff_eq] at h
    rcases h with rfl | rfl
    · rfl
    · cases username.filter (· ≠ "") <;>
        simp [withoutEmptyTexts, state, CredentialState.classify]

theorem holdsPlaceholder_withoutEmptyTexts (hp : placeholder ≠ "") :
    n.withoutEmptyTexts.holdsPlaceholder placeholder = n.holdsPlaceholder placeholder := by
  rw [Bool.eq_iff_iff, holdsPlaceholder_iff, holdsPlaceholder_iff]
  obtain ⟨id, username, password⟩ := n
  cases password with
  | none => rfl
  | some p =>
    by_cases he : p = ""
    · subst he
      simp [withoutEmptyTexts, Option.filter, hp.symm]
    · simp [withoutEmptyTexts, Option.filter, he]

end PathNode

/-! ### What becomes of a plan -/

section Plans

variable {placeholder : String} {start last : PathNode} {mid : List PathNode}

theorem map_withoutEmptyTexts (start last : PathNode) (mid : List PathNode) :
    (start :: (mid ++ [last])).map PathNode.withoutEmptyTexts =
      start.withoutEmptyTexts :: (mid.map PathNode.withoutEmptyTexts ++ [last.withoutEmptyTexts]) := by
  rw [List.map_cons, List.map_append, List.map_singleton]

/-- Without empty texts a path fails the conditions that it failed before, as long as its start keeps its
login. -/
theorem condition_withoutEmptyTexts (hp : placeholder ≠ "") (hs : start.hasEmptyText = false)
    (reason : SkipReason) :
    reason.Condition placeholder ((start :: (mid ++ [last])).map PathNode.withoutEmptyTexts) ↔
      reason.Condition placeholder (start :: (mid ++ [last])) := by
  have holds (n : PathNode) :
      n.withoutEmptyTexts.password = some placeholder ↔ n.password = some placeholder := by
    rw [← PathNode.holdsPlaceholder_iff, PathNode.holdsPlaceholder_withoutEmptyTexts hp,
      PathNode.holdsPlaceholder_iff]
  cases reason with
  | pathGone => simp [SkipReason.Condition]
  | startNotFull => simp [SkipReason.Condition, PathNode.withoutEmptyTexts_eq_self.mpr hs]
  | interiorChanged =>
    rw [map_withoutEmptyTexts]
    simp [SkipReason.Condition, holds]
  | nothingToWrite =>
    have hlast (n : PathNode) (ns : List PathNode) : (n :: (ns ++ [last])).getLast? = some last := by
      rw [← List.cons_append, List.getLast?_concat]
    have hlast' (n : PathNode) (ns : List PathNode) :
        (n :: (ns ++ [last.withoutEmptyTexts])).getLast? = some last.withoutEmptyTexts := by
      rw [← List.cons_append, List.getLast?_concat]
    rw [map_withoutEmptyTexts]
    simp [SkipReason.Condition, hlast, hlast', holds]

/-- The plan for a path without its empty texts writes an end that has lost a half of a real login, and nobody
else whom it did not write before. -/
theorem RekeyPlan.Fits.withoutEmptyTexts {plan : RekeyPlan} (h : plan.Fits placeholder start mid last)
    (hp : placeholder ≠ "") (hs : start.hasEmptyText = false) :
    RekeyPlan.Fits
      { plan with
        emptyEnd := if last.state placeholder = .full ∧ last.hasEmptyText then some last.id
          else plan.emptyEnd }
      placeholder start.withoutEmptyTexts (mid.map PathNode.withoutEmptyTexts)
      last.withoutEmptyTexts := by
  have hstart : start.withoutEmptyTexts = start := PathNode.withoutEmptyTexts_eq_self.mpr hs
  have hlast := PathNode.holdsPlaceholder_withoutEmptyTexts (n := last) hp
  refine ⟨?_, ?_, ?_, ?_, ?_, ?_⟩
  · rw [hstart]
    exact h.full
  · rw [hstart]
    exact h.credentials
  · intro n hn
    obtain ⟨m, hm, rfl⟩ := List.mem_map.mp hn
    rw [PathNode.holdsPlaceholder_withoutEmptyTexts hp]
    exact h.interior m hm
  · rw [hlast]
    exact h.some_target.imp_left (mt List.map_eq_nil_iff.mp)
  · rw [hlast, h.targets, List.map_map]
    rfl
  · rw [hlast, h.emptyEnd, PathNode.state_withoutEmptyTexts]
    -- The three kinds of end; only a full one can be told apart by its empty texts.
    rcases last.end_cases placeholder with ⟨hh, hf⟩ | ⟨hh, hf⟩ | ⟨hh, hf⟩
    · simp [hh, hf]
    · simp [hh, hf]
    · cases last.hasEmptyText <;> simp [hh, hf]

/-- A path of two people or more is given up for at once if its start is not full. -/
theorem planRekey_eq_startNotFull (hf : start.state placeholder ≠ .full) :
    planRekey (start :: (mid ++ [last])) placeholder = .error .startNotFull := by
  have hlong : SkipReason.pathGone.Condition placeholder (start :: (mid ++ [last])) := by
    simp [SkipReason.Condition]
  have hfails : ¬ SkipReason.startNotFull.Condition placeholder (start :: (mid ++ [last])) := by
    simp [SkipReason.Condition, hf]
  rw [planRekey_eq_error_iff, SkipReason.first?, SkipReason.inOrder,
    List.find?_cons_of_neg (by simpa using hlong), List.find?_cons_of_pos (by simpa using hfails)]

/-- How planning goes on a path without its empty texts: it gives up at a start that has lost a half, it writes
an end that has lost a half of a real login, and otherwise it goes as before. -/
theorem planRekey_withoutEmptyTexts (hp : placeholder ≠ "") :
    planRekey ((start :: (mid ++ [last])).map PathNode.withoutEmptyTexts) placeholder =
      if start.state placeholder = .full ∧ start.hasEmptyText then .error .startNotFull
      else (planRekey (start :: (mid ++ [last])) placeholder).map fun plan =>
        { plan with
          emptyEnd := if last.state placeholder = .full ∧ last.hasEmptyText then some last.id
            else plan.emptyEnd } := by
  cases hs : start.hasEmptyText with
  | true =>
    have hlost : start.withoutEmptyTexts.state placeholder ≠ .full := by
      simp [PathNode.state_withoutEmptyTexts, hs]
    rw [map_withoutEmptyTexts, planRekey_eq_startNotFull hlost]
    -- A start that was not full anyway is given up for as before.
    by_cases hf : start.state placeholder = .full
    · rw [if_pos ⟨hf, rfl⟩]
    · rw [if_neg fun hh => hf hh.1, planRekey_eq_startNotFull hf]
      rfl
  | false =>
    rw [if_neg (by simp)]
    cases hplan : planRekey (start :: (mid ++ [last])) placeholder with
    | ok plan =>
      rw [map_withoutEmptyTexts]
      exact planRekey_cons_eq_ok_iff.mpr
        ((planRekey_cons_eq_ok_iff.mp hplan).withoutEmptyTexts hp hs)
    | error reason =>
      rw [planRekey_eq_error_iff] at hplan
      refine planRekey_eq_error_iff.mpr ?_
      rw [← hplan]
      unfold SkipReason.first?
      simp only [condition_withoutEmptyTexts hp hs]

end Plans

/-! ### The columns of a path -/

namespace Database

namespace Value

/-- A property of a node: null where it is not set. -/
def ofProperty : Option String → Value
  | some s => text s
  | none => null

/-- A value, or another one in place of null. -/
def coalesce (v default : Value) : Value :=
  match v with
  | null => default
  | v => v

theorem asText?_coalesce (half : Option String) :
    ((ofProperty half).coalesce (text "")).asText? = some (half.getD "") := by
  cases half <;> rfl

end Value

/-- A row with the columns of a path as its statement asks for them: ids and both halves of each login, the
empty text in place of null. -/
structure Row.Fills (r : Row) (nodes : List PathNode) : Prop where
  ids : r.get? "ids" = some (.list (nodes.map fun n => .text n.id.text))
  usernames : r.get? "usernames" =
    some (.list (nodes.map fun n => (Value.ofProperty n.username).coalesce (.text "")))
  passwords : r.get? "passwords" =
    some (.list (nodes.map fun n => (Value.ofProperty n.password).coalesce (.text "")))

theorem nonEmpty?_getD (half : Option String) : nonEmpty? (half.getD "") = half.filter (· ≠ "") := by
  cases half with
  | none => rfl
  | some s => by_cases hs : s = "" <;> simp [nonEmpty?, Option.filter, hs]

theorem column_eq_ok {α : Type} {r : Row} {name : String} {v : Value} {value : Value → Option α} {a : α}
    (hv : r.get? name = some v) (ha : value v = some a) : r.column name value = .ok a := by
  simp only [Row.column, hv, Option.bind_some, ha]

theorem asTexts?_map (nodes : List PathNode) {value : PathNode → Value} {text : PathNode → String}
    (h : ∀ n, (value n).asText? = some (text n)) :
    (Value.list (nodes.map value)).asTexts? = some (nodes.map text) := by
  rw [Value.asTexts?]
  induction nodes with
  | nil => rfl
  | cons n ns ih => simp [h, ih]

theorem pathNodes_map (nodes : List PathNode) :
    pathNodes (nodes.map (·.id.text)) (nodes.map (·.username.getD ""))
      (nodes.map (·.password.getD "")) = nodes.map PathNode.withoutEmptyTexts := by
  induction nodes with
  | nil => rfl
  | cons n ns ih =>
    simp only [pathNodes, List.map_cons, List.zip_cons_cons, nonEmpty?_getD] at ih ⊢
    rw [ih]
    rfl

theorem pathOfRow_of_fills {r : Row} {nodes : List PathNode} (h : r.Fills nodes) :
    pathOfRow r = .ok (nodes.map PathNode.withoutEmptyTexts) := by
  have hids := column_eq_ok h.ids (asTexts?_map nodes fun n => rfl)
  have husernames := column_eq_ok h.usernames
    (asTexts?_map nodes fun n => Value.asText?_coalesce n.username)
  have hpasswords := column_eq_ok h.passwords
    (asTexts?_map nodes fun n => Value.asText?_coalesce n.password)
  simp only [pathOfRow, hids, husernames, hpasswords, bind, Except.bind, List.length_map,
    decide_true, Bool.and_self, if_true, pathNodes_map]
  rfl

/-! ### The client against the memory -/

theorem nodes_of_downwardPath {s : MemoryStore} {start last : PersonId} {maxDepth : UInt32}
    {nodes : List PathNode}
    (h : (MemoryStore.store.call (.downwardPath start last maxDepth) s).1 = .ok (some nodes)) :
    ∃ first mid bottom, nodes = first :: (mid ++ [bottom]) := by
  rw [MemoryStore.call_eq] at h
  simp only [MemoryStore.perform] at h
  rcases MemoryStore.reading_cases (s := s.arrive) [start, last]
    (s.arrive.tree.downwardPath? start last maxDepth) with ⟨hr, -⟩ | ⟨e, hr, -⟩
  · rw [hr, Except.ok.injEq] at h
    obtain ⟨-, k, -, hfirst, rfl⟩ := Tree.downwardPath?_eq_some_iff.mp h
    exact ⟨_, _, _, Tree.downwardPath_nodes hfirst⟩
  · rw [hr] at h
    cases h

/-- The client reads a path that the memory answers with as that path without its empty texts, and so as the
same path exactly if no half of a login on it is set and empty. What it plans then is what it plans for the path
itself, but for two places: it gives up at a full start whose login has an empty text, and it lists a full end
whose login has one. -/
theorem path_columns_drop_empty_texts {σ : Type} {L : Link σ} {l l' : σ} {s : MemoryStore}
    {start last : PersonId} {maxDepth : UInt32} {nodes : List PathNode} {row : Row} {rows : List Row}
    {placeholder : String} (hp : placeholder ≠ "")
    (hmemory : (MemoryStore.store.call (.downwardPath start last maxDepth) s).1 = .ok (some nodes))
    (hsend : L.send (.downwardPath start last maxDepth) l = (.ok (.rows (row :: rows)), l'))
    (hrow : row.Fills nodes) :
    L.store.call (.downwardPath start last maxDepth) l =
      (.ok (some (nodes.map PathNode.withoutEmptyTexts)), l') ∧
    (nodes.map PathNode.withoutEmptyTexts = nodes ↔ ∀ n ∈ nodes, n.hasEmptyText = false) ∧
    ∃ first mid bottom, nodes = first :: (mid ++ [bottom]) ∧
      planRekey (nodes.map PathNode.withoutEmptyTexts) placeholder =
        if first.state placeholder = .full ∧ first.hasEmptyText then .error .startNotFull
        else (planRekey nodes placeholder).map fun plan =>
          { plan with
            emptyEnd := if bottom.state placeholder = .full ∧ bottom.hasEmptyText then some bottom.id
              else plan.emptyEnd } := by
  refine ⟨?_, ?_, ?_⟩
  · have hrows : L.rows (.downwardPath start last maxDepth) l = (.ok (row :: rows), l') := by
      rw [Link.rows, hsend]
    have hanswer : answerOfRows (.downwardPath start last maxDepth) (row :: rows) =
        .ok (some (nodes.map PathNode.withoutEmptyTexts)) := by
      rw [answerOfRows, pathOfRow_of_fills hrow]
      rfl
    simp only [Store.call, Link.store, Statement.ofCall?, hrows, hanswer]
    rfl
  · simp only [← PathNode.withoutEmptyTexts_eq_self]
    conv_lhs => rhs; rw [← List.map_id nodes]
    exact List.map_inj_left
  · obtain ⟨first, mid, bottom, rfl⟩ := nodes_of_downwardPath hmemory
    exact ⟨first, mid, bottom, rfl, planRekey_withoutEmptyTexts hp⟩

/-- A holder of the placeholder below somebody whose username is the empty text. -/
def nameless : Tree :=
  let people : List PersonRecord := [
    { id := ⟨"root"⟩, attributes := { username := some "", password := some "real" } },
    { id := ⟨"p"⟩, attributes := { username := some "p", password := some "changeme" } }]
  (people.foldl Tree.insert default).attach ⟨"root"⟩ ⟨"p"⟩ .left

/-- The row that the statement of the path asks for there. -/
def namelessRow : Row :=
  [("ids", .list [.text "root", .text "p"]), ("usernames", .list [.text "", .text "p"]),
    ("passwords", .list [.text "real", .text "changeme"])]

def namelessPath : List PathNode :=
  [⟨⟨"root"⟩, some "", some "real"⟩, ⟨⟨"p"⟩, some "p", some "changeme"⟩]

theorem call_nameless :
    (MemoryStore.store.call (.downwardPath ⟨"root"⟩ ⟨"p"⟩ 10) { tree := nameless }).1 =
      .ok (some namelessPath) := by
  have hpath : nameless.downwardPath? ⟨"root"⟩ ⟨"p"⟩ 10 = some namelessPath := by
    decide +kernel
  rw [MemoryStore.call_downwardPath Std.TreeSet.not_mem_emptyc Std.TreeSet.not_mem_emptyc, hpath]

theorem fills_nameless : namelessRow.Fills namelessPath := ⟨rfl, rfl, rfl⟩

/-- The memory's path makes for a plan, and the client gives up on its own. -/
theorem path_columns_drop_nameless :
    Script.link.store.call (.downwardPath ⟨"root"⟩ ⟨"p"⟩ 10) { replies := [.rows [namelessRow]] } =
      (.ok (some (namelessPath.map PathNode.withoutEmptyTexts)),
        { sent := [.downwardPath ⟨"root"⟩ ⟨"p"⟩ 10] }) ∧
    planRekey (namelessPath.map PathNode.withoutEmptyTexts) "changeme" = .error .startNotFull := by
  obtain ⟨hcall, -, first, mid, bottom, hpath, hplan⟩ := path_columns_drop_empty_texts
    (L := Script.link) (l := { replies := [.rows [namelessRow]] })
    (show "changeme" ≠ "" by decide) call_nameless rfl fills_nameless
  have hfirst : first = ⟨⟨"root"⟩, some "", some "real"⟩ := (List.cons.inj hpath).1.symm
  exact ⟨hcall, by rw [hplan, hfirst, if_pos (by decide)]⟩

/-- It is not so that the client reads every path whose ids are not empty as the memory answers it. -/
theorem path_columns_differ_nameless : ¬ ∀ (s : MemoryStore) (start last : PersonId) (maxDepth : UInt32)
    (nodes : List PathNode) (row : Row) (l : Script),
    (∀ n ∈ nodes, n.id.text ≠ "") →
    (MemoryStore.store.call (.downwardPath start last maxDepth) s).1 = .ok (some nodes) →
    (Script.link.send (.downwardPath start last maxDepth) l).1 = .ok (.rows [row]) →
    row.Fills nodes →
    (Script.link.store.call (.downwardPath start last maxDepth) l).1 = .ok (some nodes) := by
  intro h
  have hsame := h { tree := nameless } ⟨"root"⟩ ⟨"p"⟩ 10 namelessPath namelessRow
    { replies := [.rows [namelessRow]] } (by decide) call_nameless rfl fills_nameless
  have hread : (Script.link.store.call (.downwardPath ⟨"root"⟩ ⟨"p"⟩ 10)
      { replies := [.rows [namelessRow]] }).1 =
        .ok (some (namelessPath.map PathNode.withoutEmptyTexts)) := rfl
  rw [hread, Except.ok.injEq, Option.some.injEq] at hsame
  exact absurd hsame (by decide)

end Database

end Downline
