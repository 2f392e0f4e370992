import Downline.Store.Tree

/-!
What each change to a tree does to the two views of it: the record of every id, and the relations of
every id.
-/

namespace Downline

namespace IdSet

theorem mem_foldl_insert (ids : List PersonId) (start : IdSet) (id : PersonId) :
    id ∈ ids.foldl (fun found id => found.insert id) start ↔ id ∈ start ∨ id ∈ ids := by
  induction ids generalizing start with
  | nil => simp
  | cons x rest ih =>
    rw [List.foldl_cons, ih, Std.TreeSet.mem_insert, Std.LawfulEqOrd.compare_eq_iff_eq,
      List.mem_cons, eq_comm (a := x)]
    constructor
    · intro hh
      rcases hh with (h | h) | h
      · exact .inr (.inl h)
      · exact .inl h
      · exact .inr (.inr h)
    · intro hh
      rcases hh with h | h | h
      · exact .inl (.inr h)
      · exact .inl (.inl h)
      · exact .inr h

@[simp]
theorem mem_ofIds {ids : List PersonId} {id : PersonId} : id ∈ ofIds ids ↔ id ∈ ids := by
  simp [ofIds, mem_foldl_insert]

/-- A set lists its members once each. -/
theorem nodup_toList (s : IdSet) : s.toList.Nodup := by
  refine List.Pairwise.imp (fun h he => h ?_) Std.TreeSet.distinct_toList
  exact Std.LawfulEqOrd.compare_eq_iff_eq.mpr he

end IdSet

namespace Tree

variable (t : Tree)

/-! ### Growth -/

theorem person?_insert (r : PersonRecord) (id : PersonId) :
    (t.insert r).person? id = if r.id = id then some r else t.person? id := by
  simp [person?, insert, Std.TreeMap.getElem?_insert]

@[simp]
theorem relationsOf_insert (r : PersonRecord) (id : PersonId) :
    (t.insert r).relationsOf id = t.relationsOf id := by
  unfold relationsOf insert
  rw [Std.TreeMap.getElem?_insertIfNew]
  split
  next h =>
    obtain ⟨he, hn⟩ := h
    cases Std.LawfulEqOrd.compare_eq_iff_eq.mp he
    rw [Std.TreeMap.getElem?_eq_none hn]
    rfl
  next => rfl

@[simp]
theorem person?_attach (parent child : PersonId) (side : Side) (id : PersonId) :
    (t.attach parent child side).person? id = t.person? id := rfl

theorem relationsOf_attach (parent child : PersonId) (side : Side) (id : PersonId) :
    (t.attach parent child side).relationsOf id =
      { parent := if child = id then some parent else t.parentOf id
        left := if parent = id ∧ side = .left then some child else (t.relationsOf id).left
        right := if parent = id ∧ side = .right then some child else (t.relationsOf id).right } := by
  unfold attach relationsOf parentOf relationsOf
  simp only [Std.TreeMap.getElem?_insert, Std.LawfulEqOrd.compare_eq_iff_eq]
  cases side <;> by_cases hc : child = id <;> by_cases hp : parent = id <;> simp [hc, hp]

/-! ### Other writers -/

theorem person?_setLogin (id : PersonId) (login : Option Credentials) (x : PersonId) :
    (t.setLogin id login).person? x =
      if id = x then
        (t.person? x).map fun r => { r with attributes := r.attributes.withLogin login }
      else t.person? x := by
  unfold setLogin person?
  simp only [Std.TreeMap.getElem?_modify, Std.LawfulEqOrd.compare_eq_iff_eq]
  split
  next h => rw [h]
  next => rfl

@[simp]
theorem relationsOf_setLogin (id : PersonId) (login : Option Credentials) (x : PersonId) :
    (t.setLogin id login).relationsOf x = t.relationsOf x := rfl

/-! ### Guarded writes -/

/-- A guarded write reaches the listed people that the guard permits. -/
theorem mem_writable {ids : List PersonId} {guard : WriteGuard} {id : PersonId} :
    id ∈ t.writable ids guard ↔ id ∈ ids ∧ t.permits guard id = true := by
  simp [writable, Std.TreeSet.mem_toList]

/-- A guarded write reaches nobody twice. -/
theorem nodup_writable (ids : List PersonId) (guard : WriteGuard) :
    (t.writable ids guard).Nodup :=
  (IdSet.nodup_toList _).filter _

private theorem person?_foldl_setLogin (login : Option Credentials) (targets : List PersonId)
    (x : PersonId) :
    (targets.foldl (fun t id => t.setLogin id login) t).person? x =
      if x ∈ targets then
        (t.person? x).map fun r => { r with attributes := r.attributes.withLogin login }
      else t.person? x := by
  induction targets generalizing t with
  | nil => simp
  | cons y rest ih =>
    rw [List.foldl_cons, ih, person?_setLogin]
    by_cases hy : y = x
    · subst hy
      by_cases hr : y ∈ rest <;> cases t.person? y <;> simp [hr, PersonAttributes.withLogin]
    · have hx : ¬ x = y := fun h => hy h.symm
      simp [hy, hx]

/-- After a guarded write the people that it reaches hold the new login, and all others what they
held before. -/
theorem person?_write (ids : List PersonId) (credentials : Credentials) (guard : WriteGuard)
    (x : PersonId) :
    (t.write ids credentials guard).2.person? x =
      if x ∈ t.writable ids guard then
        (t.person? x).map fun r =>
          { r with attributes := r.attributes.withLogin (some credentials) }
      else t.person? x :=
  t.person?_foldl_setLogin (some credentials) _ x

private theorem relations_foldl_setLogin (login : Option Credentials) (targets : List PersonId) :
    (targets.foldl (fun t id => t.setLogin id login) t).relations = t.relations := by
  induction targets generalizing t with
  | nil => rfl
  | cons y rest ih => exact ih (t.setLogin y login)

@[simp]
theorem relations_write (ids : List PersonId) (credentials : Credentials) (guard : WriteGuard) :
    (t.write ids credentials guard).2.relations = t.relations :=
  t.relations_foldl_setLogin (some credentials) _

@[simp]
theorem relationsOf_write (ids : List PersonId) (credentials : Credentials) (guard : WriteGuard)
    (x : PersonId) : (t.write ids credentials guard).2.relationsOf x = t.relationsOf x := by
  unfold relationsOf
  rw [relations_write]

theorem fst_write (ids : List PersonId) (credentials : Credentials) (guard : WriteGuard) :
    (t.write ids credentials guard).1 = (t.writable ids guard).length := rfl

/-- A full person over somebody empty on the one side and, on the other, a chain of two who hold the
placeholder. -/
def household : Tree :=
  let people : List PersonRecord := [
    { id := ⟨"root"⟩, attributes := { username := some "boss", password := some "real" } },
    { id := ⟨"a"⟩ },
    { id := ⟨"b"⟩, attributes := { username := some "b", password := some "changeme" } },
    { id := ⟨"c"⟩, attributes := { username := some "c", password := some "changeme" } }]
  (((people.foldl insert default).attach ⟨"root"⟩ ⟨"a"⟩ .left).attach ⟨"root"⟩ ⟨"b"⟩ .right).attach
    ⟨"b"⟩ ⟨"c"⟩ .left

example : household.parentOf ⟨"c"⟩ = some ⟨"b"⟩ ∧ household.emptyIds = [⟨"a"⟩] := by
  decide +kernel

end Tree

end Downline
