import Downline.Entity
import Downline.Person.Document
import Downline.Store.Memory

/-! A person at hand among stores that may fail and change at any time: it asks for its relations at every
access until it is told them once, and from then on answers from what it was told, part by part. -/

namespace Downline

/-- A call and how it went. -/
structure Exchange where
  call : Call
  answer : Except Fault call.Answer

/-- The calls that a run makes, in their order. -/
def Prog.exchanges {σ α : Type} (S : Store σ) : Prog α → σ → List Exchange
  | done _, _ => []
  | abort _, _ => []
  | ask c next, s =>
    ⟨c, (S.call c s).1⟩ ::
      match S.call c s with
      | (.ok a, s') => (next (.ok a)).exchanges S s'
      | (.error (.error e), s') => (next (.error e)).exchanges S s'
      | (.error (.halt _), _) => []

/-- What may be asked of a person at hand, besides what its record tells. -/
inductive Access where
  | relative (which : Relative)
  | document

namespace Access

abbrev Answer : Access → Type
  | relative _ => Option PersonId
  | document => Json

/-- How an access is answered about a person with these relations. -/
def read (record : PersonRecord) (relations : Relations) : (a : Access) → a.Answer
  | relative which => relations.get which
  | document => record.document relations

end Access

/-- A text in a document; null stands for one that is not there. -/
def Json.orNull (text : Option String) : Json := text.elim null fun t => string (some t)

/-- The members of a document that tells all there is about a person: its id, its attributes and its three
relations, each in a member of its own. -/
def documentMembers (record : PersonRecord) (relations : Relations) : List (String × Json) :=
  [("id", .string (some record.id.text)),
    ("name", .orNull record.attributes.name),
    ("rank", .orNull record.attributes.rank),
    ("highest_rank", .orNull record.attributes.highestRank),
    ("signup_date", .orNull record.attributes.signupDate),
    ("center", .orNull record.attributes.center),
    ("country", .orNull record.attributes.country),
    ("personal_pv", .float record.attributes.personalPv),
    ("network_pv", .float record.attributes.networkPv),
    ("total_pv", .float record.attributes.totalPv),
    ("username", .orNull record.attributes.username),
    ("password", .orNull record.attributes.password),
    ("built_tree", .bool record.attributes.builtTree),
    ("parent_id", .orNull (relations.parent.map (·.text))),
    ("left_id", .orNull (relations.left.map (·.text))),
    ("right_id", .orNull (relations.right.map (·.text)))]

/-- What each access has to tell about a person with this record and these relations. The members of a
document may stand in any order. -/
inductive Tells (record : PersonRecord) (relations : Relations) : (a : Access) → a.Answer → Prop where
  | parent : Tells record relations (.relative .parent) relations.parent
  | left : Tells record relations (.relative .left) relations.left
  | right : Tells record relations (.relative .right) relations.right
  | document {members : List (String × Json)} (h : members.Perm (documentMembers record relations)) :
    Tells record relations .document (.object (members.map fun m => (some m.1, m.2)))

theorem Tells.exists_members {record : PersonRecord} {relations : Relations} {d : Json}
    (h : Tells record relations .document d) :
    ∃ members : List (String × Json), d = .object (members.map fun m => (some m.1, m.2)) ∧
      members.Perm (documentMembers record relations) := by
  cases h with
  | document hperm => exact ⟨_, rfl, hperm⟩

/-- An access, and what becomes of the store between the access before it and this one. -/
structure Visit (σ : Type) where
  meanwhile : σ → σ
  access : Access

/-- How an access went. -/
structure Episode where
  access : Access
  asked : List Exchange
  result : Except Fault access.Answer
  /-- The person at hand after the access. -/
  after : Entity

namespace Entity

variable {σ : Type} {S : Store σ} {record : PersonRecord} {relations : Relations} {a : Access}
  {v : Visit σ} {s : σ}

def access (e : Entity) : (a : Access) → Prog (Except StoreError a.Answer × Entity)
  | .relative which => e.relative which
  | .document => do
    let (r, e) ← e.document
    return (r.map fun d => d.1.document d.2, e)

/-- One access. A person at hand whose access is cut off stays as it was. -/
def visit (S : Store σ) (e : Entity) (v : Visit σ) (s : σ) : Episode × σ :=
  let s := v.meanwhile s
  let asked := (e.access v.access).exchanges S s
  match (e.access v.access).run S s with
  | (.ok (result, after), s') =>
    ({ access := v.access, asked, result := result.mapError .error, after }, s')
  | (.error h, s') => ({ access := v.access, asked, result := .error (.halt h), after := e }, s')

/-- Accesses to one person at hand, one after another. -/
def session (S : Store σ) : Entity → List (Visit σ) → σ → List Episode
  | _, [], _ => []
  | e, v :: rest, s =>
    (e.visit S v s).1 :: session S (e.visit S v s).1.after rest (e.visit S v s).2

/-- The access asked for the relations and was not told them. It fails with that same fault, and the person
at hand still knows its record and nothing else. -/
def Missed (record : PersonRecord) (ep : Episode) : Prop :=
  ∃ f, ep.asked = [⟨.relations record.id, .error f⟩] ∧ ep.result = .error f ∧
    ep.after = { record, relations := none }

/-- The access reports these very relations, and the person at hand knows them afterwards. -/
structure Reports (record : PersonRecord) (relations : Relations) (ep : Episode) : Prop where
  result : ∃ answer, ep.result = .ok answer ∧ Tells record relations ep.access answer
  after : ep.after = { record, relations := some relations }

/-! ### One access -/

theorem tells_read (record : PersonRecord) (relations : Relations) (a : Access) :
    Tells record relations a (a.read record relations) := by
  cases a with
  | relative which =>
    cases which with
    | parent => exact .parent
    | left => exact .left
    | right => exact .right
  | document =>
    have hnull (t : Option String) : Json.orNull t = .optText t := by cases t <;> rfl
    refine .document ?_
    simp only [documentMembers, hnull]
    exact List.mergeSort_perm _ _

theorem access_of_known (a : Access) :
    ({ record, relations := some relations } : Entity).access a =
      .done (.ok (a.read record relations), { record, relations := some relations }) := by
  cases a <;> rfl

/-- While the relations are not known, an access asks for them and keeps what it is told. -/
theorem access_of_unknown (record : PersonRecord) (a : Access) :
    (ofRecord record).access a = .ask (.relations record.id) fun answer =>
      .done (answer.map (a.read record), { record, relations := answer.toOption }) := by
  have hnext (f : Except StoreError Relations → Prog (Except StoreError a.Answer × Entity))
      (herror : ∀ e, f (.error e) = .done (.error e, ofRecord record))
      (hok : ∀ r, f (.ok r) = .done (.ok (a.read record r), { record, relations := some r })) :
      f = fun answer =>
        .done (answer.map (a.read record), { record, relations := answer.toOption }) := by
    funext answer
    cases answer with
    | error e => exact herror e
    | ok r => exact hok r
  cases a <;> exact congrArg (Prog.ask _) (hnext _ (fun _ => rfl) fun _ => rfl)

theorem visit_of_known (S : Store σ) (v : Visit σ) (s : σ) :
    ({ record, relations := some relations } : Entity).visit S v s =
      ({ access := v.access, asked := [], result := .ok (v.access.read record relations),
         after := { record, relations := some relations } }, v.meanwhile s) := by
  unfold visit
  rw [access_of_known]
  rfl

theorem visit_of_told {s' : σ}
    (h : S.call (.relations record.id) (v.meanwhile s) = (.ok relations, s')) :
    (ofRecord record).visit S v s =
      ({ access := v.access, asked := [⟨.relations record.id, .ok relations⟩],
         result := .ok (v.access.read record relations),
         after := { record, relations := some relations } }, s') := by
  unfold visit
  simp only [access_of_unknown, Prog.exchanges, Prog.run, h]
  rfl

theorem visit_of_missed {f : Fault} {s' : σ}
    (h : S.call (.relations record.id) (v.meanwhile s) = (.error f, s')) :
    (ofRecord record).visit S v s =
      ({ access := v.access, asked := [⟨.relations record.id, .error f⟩], result := .error f,
         after := ofRecord record }, s') := by
  unfold visit
  cases f with
  | error =>
    simp only [access_of_unknown, Prog.exchanges, Prog.run, h]
    rfl
  | halt => simp only [access_of_unknown, Prog.exchanges, Prog.run, h]

/-! ### A session -/

theorem map_access_session (S : Store σ) (e : Entity) (visits : List (Visit σ)) (s : σ) :
    (session S e visits s).map (·.access) = visits.map (·.access) := by
  have hvisit (e : Entity) (v : Visit σ) (s : σ) : (e.visit S v s).1.access = v.access := by
    unfold visit
    dsimp only
    split <;> rfl
  induction visits generalizing e s with
  | nil => rfl
  | cons v rest ih => rw [session, List.map_cons, List.map_cons, hvisit, ih]

/-- A person at hand that knows its relations asks for nothing, whatever becomes of the store. -/
theorem session_of_known (S : Store σ) (visits : List (Visit σ)) (s : σ) :
    ∀ ep ∈ session S { record, relations := some relations } visits s,
      ep.asked = [] ∧ Reports record relations ep := by
  induction visits generalizing s with
  | nil => exact List.forall_mem_nil _
  | cons v rest ih =>
    rw [session, visit_of_known, List.forall_mem_cons]
    exact ⟨⟨rfl, ⟨_, rfl, tells_read record relations v.access⟩, rfl⟩, ih _⟩

/-- The first of these accesses asked for the relations and was told them, none of the others asked, and all
of them report what was told. -/
structure Told (record : PersonRecord) (relations : Relations) (settled : List Episode) : Prop where
  asked : ∃ first rest, settled = first :: rest ∧
    first.asked = [⟨.relations record.id, .ok relations⟩] ∧ ∀ ep ∈ rest, ep.asked = []
  reports : ∀ ep ∈ settled, Reports record relations ep

/-- At first every access asks and fails; from the first answer on, no access asks and all report that
answer. -/
theorem exists_session (S : Store σ) (record : PersonRecord) (visits : List (Visit σ)) (s : σ) :
    ∃ missed settled, session S (ofRecord record) visits s = missed ++ settled ∧
      (∀ ep ∈ missed, Missed record ep) ∧
        (settled = [] ∨ ∃ relations, Told record relations settled) := by
  induction visits generalizing s with
  | nil => exact ⟨[], [], rfl, List.forall_mem_nil _, .inl rfl⟩
  | cons v rest ih =>
    obtain ⟨answer, s', hcall⟩ : ∃ answer s',
        S.call (.relations record.id) (v.meanwhile s) = (answer, s') := ⟨_, _, rfl⟩
    cases answer with
    | error f =>
      -- Nothing has been learned, so the rest is again a session with an unknown person.
      obtain ⟨missed, settled, hrest, hmissed, hsettled⟩ := ih s'
      have hfirst : Missed record ((ofRecord record).visit S v s).1 := by
        rw [visit_of_missed hcall]
        exact ⟨f, rfl, rfl, rfl⟩
      refine ⟨((ofRecord record).visit S v s).1 :: missed, settled, ?_,
        List.forall_mem_cons.mpr ⟨hfirst, hmissed⟩, hsettled⟩
      rw [session, List.cons_append, ← hrest, visit_of_missed hcall]
    | ok relations =>
      have hlater : ∀ ep ∈ session S { record, relations := some relations } rest s',
          ep.asked = [] ∧ Reports record relations ep := session_of_known S rest s'
      refine ⟨[], _, (List.nil_append _).symm, List.forall_mem_nil _, .inr ⟨relations, ?_, ?_⟩⟩
      · rw [session, visit_of_told hcall]
        exact ⟨_, _, rfl, rfl, fun ep hep => (hlater ep hep).1⟩
      · rw [session, visit_of_told hcall, List.forall_mem_cons]
        exact ⟨⟨⟨_, rfl, tells_read record relations v.access⟩, rfl⟩, fun ep hep => (hlater ep hep).2⟩

theorem keeps_record_of_session (S : Store σ) (visits : List (Visit σ)) (s : σ) :
    ∀ ep ∈ session S (ofRecord record) visits s, ep.after.record = record := by
  obtain ⟨missed, settled, hall, hmissed, hsettled⟩ := exists_session S record visits s
  intro ep hep
  rw [hall] at hep
  rcases List.mem_append.mp hep with hm | hs
  · obtain ⟨-, -, -, hafter⟩ := hmissed ep hm
    rw [hafter]
  · rcases hsettled with rfl | ⟨relations, htold⟩
    · cases hs
    · rw [(htold.reports ep hs).after]

/-- Of all the calls of a session no more than one is answered. -/
theorem countP_answered_session (S : Store σ) (visits : List (Visit σ)) (s : σ) :
    ((session S (ofRecord record) visits s).flatMap (·.asked)).countP (·.answer.isOk) ≤ 1 := by
  obtain ⟨missed, settled, hall, hmissed, hsettled⟩ := exists_session S record visits s
  have hnone : (missed.flatMap (·.asked)).countP (·.answer.isOk) = 0 := by
    rw [List.countP_eq_zero]
    intro x hx
    obtain ⟨ep, hep, hx⟩ := List.mem_flatMap.mp hx
    obtain ⟨f, hasked, -⟩ := hmissed ep hep
    rw [hasked, List.mem_singleton] at hx
    rw [hx]
    exact Bool.false_ne_true
  rw [hall, List.flatMap_append, List.countP_append, hnone, Nat.zero_add]
  rcases hsettled with rfl | ⟨relations, ⟨first, rest, rfl, hfirst, hrest⟩, -⟩
  · exact Nat.zero_le 1
  · have hquiet : rest.flatMap (·.asked) = [] := List.flatMap_eq_nil_iff.mpr hrest
    rw [List.flatMap_cons, hfirst, hquiet, List.append_nil, List.countP_singleton]
    exact Nat.le_refl 1

/-- A person at hand asks for its relations, one call an access, until it is told them, and never again.
Every access before that fails as its call did and leaves the person at hand as it was; every access from
then on reports what the one answered call told: a relation that very part of it, and a document all three
parts besides the id and the attributes. The record stays the same throughout. -/
theorem session_asks_until_told (S : Store σ) (record : PersonRecord) (visits : List (Visit σ))
    (s : σ) :
    (session S (ofRecord record) visits s).map (·.access) = visits.map (·.access) ∧
      (∃ missed settled, session S (ofRecord record) visits s = missed ++ settled ∧
        (∀ ep ∈ missed, Missed record ep) ∧
          (settled = [] ∨ ∃ relations, Told record relations settled)) ∧
      ((session S (ofRecord record) visits s).flatMap (·.asked)).countP (·.answer.isOk) ≤ 1 ∧
      ∀ ep ∈ session S (ofRecord record) visits s,
        ep.after.id = record.id ∧ ep.after.attributes = record.attributes := by
  refine ⟨map_access_session S _ visits s, exists_session S record visits s,
    countP_answered_session S visits s, fun ep hep => ?_⟩
  have hrecord := keeps_record_of_session S visits s ep hep
  rw [id, attributes, hrecord]
  exact ⟨rfl, rfl⟩

/-! ### A session while the store changes -/

/-- Somebody between a parent and one child. -/
def middle : PersonRecord := { id := ⟨"mid"⟩, attributes := { name := some "Mid" } }

/-- Three people one below the other; calls for the one in the middle fail. -/
def family : MemoryStore where
  tree := (((((default : Tree).insert { id := ⟨"top"⟩ }).insert middle).insert
    { id := ⟨"low"⟩ }).attach ⟨"top"⟩ ⟨"mid"⟩ .left).attach ⟨"mid"⟩ ⟨"low"⟩ .left
  failing := {⟨"mid"⟩}

def familyRelations : Relations := { parent := some ⟨"top"⟩, left := some ⟨"low"⟩ }

/-- The outage ends after the first access; after the second there is one more child, and after the third
another outage begins. -/
def unrest : List (Visit MemoryStore) :=
  [⟨fun s => s, .relative .parent⟩,
    ⟨fun s => s.edit .clearFailures, .relative .left⟩,
    ⟨fun s => s.edit (.attach ⟨"mid"⟩ ⟨"new"⟩ .right), .relative .right⟩,
    ⟨fun s => s.edit (.failOn ⟨"mid"⟩), .relative .parent⟩,
    ⟨fun s => s, .document⟩]

/-- Only the second call is answered. Everything reported from then on is part of that answer, whatever
becomes of the family in the meantime. -/
theorem family_reported_as_told : ∃ members : List (String × Json),
    session MemoryStore.store (ofRecord middle) unrest family = [
      { access := .relative .parent
        asked := [⟨.relations ⟨"mid"⟩,
          .error (.error (.unavailable "simulated failure touching mid"))⟩]
        result := .error (.error (.unavailable "simulated failure touching mid"))
        after := ofRecord middle },
      { access := .relative .left, asked := [⟨.relations ⟨"mid"⟩, .ok familyRelations⟩],
        result := .ok (some ⟨"low"⟩), after := ⟨middle, some familyRelations⟩ },
      { access := .relative .right, asked := [],
        result := .ok none, after := ⟨middle, some familyRelations⟩ },
      { access := .relative .parent, asked := [],
        result := .ok (some ⟨"top"⟩), after := ⟨middle, some familyRelations⟩ },
      { access := .document, asked := [],
        result := .ok (.object (members.map fun m => (some m.1, m.2))),
        after := ⟨middle, some familyRelations⟩ }] ∧
    members.length = 16 ∧
    [("id", .string (some "mid")), ("name", .string (some "Mid")), ("rank", .null),
      ("parent_id", .string (some "top")), ("left_id", .string (some "low")),
      ("right_id", .null)] ⊆ members := by
  obtain ⟨-, ⟨missed, settled, hall, hmissed, hsettled⟩, -⟩ :=
    session_asks_until_told MemoryStore.store middle unrest family
  have hlast : ({ access := .document, asked := []
                  result := .ok (middle.document familyRelations)
                  after := ⟨middle, some familyRelations⟩ } : Episode) ∈ missed ++ settled := by
    rw [← hall]
    exact List.mem_of_getElem? (i := 4) rfl
  have htells : Tells middle familyRelations .document (middle.document familyRelations) := by
    rcases List.mem_append.mp hlast with hm | hs
    · -- This access asked for nothing.
      obtain ⟨f, hasked, -⟩ := hmissed _ hm
      cases hasked
    · rcases hsettled with rfl | ⟨relations, htold⟩
      · cases hs
      · obtain ⟨⟨answer, hresult, htells⟩, hafter⟩ := htold.reports _ hs
        cases hafter
        cases hresult
        exact htells
  obtain ⟨members, hdocument, hperm⟩ := htells.exists_members
  refine ⟨members, ?_, hperm.length_eq, fun m hm => hperm.mem_iff.mpr ?_⟩
  · rw [← hdocument]
    rfl
  · revert m
    simp [documentMembers, middle, familyRelations, Json.orNull]

/-- Somebody without any relations is asked about only once as well. -/
example : session MemoryStore.store (ofRecord { id := ⟨"x"⟩ })
    [⟨fun s => s, .relative .left⟩, ⟨fun s => s, .relative .parent⟩]
    { tree := (default : Tree).insert { id := ⟨"x"⟩ } } = [
      { access := .relative .left, asked := [⟨.relations ⟨"x"⟩, .ok {}⟩],
        result := .ok none, after := ⟨{ id := ⟨"x"⟩ }, some {}⟩ },
      { access := .relative .parent, asked := [],
        result := .ok none, after := ⟨{ id := ⟨"x"⟩ }, some {}⟩ }] := by
  rfl

end Entity

end Downline
