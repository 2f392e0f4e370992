import Downline.Json.Decode
import Downline.Proofs.Json.Reading

/-! Records are taken out of the documents that they are written as: whole numbers, lists of them, and
objects whose members all have names of their own. -/

namespace Downline.Json

variable {n bound levels : Nat} {names : List String} {members : List (String × Json)}

/-! ### Values -/

theorem asNat?_nat (h : n < bound) : asNat? bound (nat n) = some n := by
  have hwhole : ({ whole := Nat.toDigits 10 n } : Literal).isWhole = true := rfl
  simp only [asNat?, nat, Literal.ofString_toString, hwhole, Literal.digitsValue_toDigits, h,
    Bool.not_false, Bool.and_self, if_true]

theorem asCount?_nat (h : n < UInt64.size) : asCount? (nat n) = some n := asNat?_nat h

theorem asList?_map {α : Type} {item : Json → Option α} {write : α → Json} {values : List α}
    (h : ∀ a ∈ values, item (write a) = some a) :
    asList? item (.array (values.map write)) = some values := by
  rw [asList?]
  induction values with
  | nil => rfl
  | cons a rest ih =>
    have hrest := ih fun b hb => h b (List.mem_cons_of_mem a hb)
    rw [List.map_cons, List.mapM_cons, h a List.mem_cons_self, hrest]
    rfl

/-! ### Plain documents -/

theorem obj_injective : Function.Injective obj := by
  intro a b h
  have hwrite : ∀ m m' : String × Json, (some m.1, m.2) = (some m'.1, m'.2) → m = m' := by
    rintro ⟨k, j⟩ ⟨k', j'⟩ hm
    simpa using hm
  exact (List.map_inj_right hwrite).mp (object.inj h)

theorem plain_nat (n : Nat) : (nat n).Plain := ⟨n, rfl⟩

theorem plain_text (s : String) : (text s).Plain := trivial

theorem plain_array {items : List Json} (h : ∀ j ∈ items, j.Plain) : (array items).Plain := by
  show PlainItems items
  induction items with
  | nil => trivial
  | cons j rest ih =>
    exact ⟨h j List.mem_cons_self, ih fun j' hj => h j' (List.mem_cons_of_mem j hj)⟩

theorem plain_obj (h : ∀ m ∈ members, m.2.Plain) : (obj members).Plain := by
  show PlainMembers (members.map fun m => (some m.1, m.2))
  induction members with
  | nil => trivial
  | cons m rest ih =>
    exact ⟨h m List.mem_cons_self, ih fun m' hm => h m' (List.mem_cons_of_mem m hm)⟩

/-! ### Values kept before they are understood -/

/-- A whole number of 64 bits is in range as a floating-point number. -/
theorem isKeepable_nat (h : n < UInt64.size) : (nat n).isKeepable levels = true := by
  rw [nat, isKeepable, Literal.ofString_toString, Literal.scaledWord_toDigits h, Option.isSome_some]

theorem isKeepable_array {items : List Json} (h : ∀ j ∈ items, j.isKeepable levels = true) :
    (array items).isKeepable (levels + 1) = true := by
  show keepableItems levels items = true
  induction items with
  | nil => rfl
  | cons j rest ih =>
    have hrest := ih fun j' hj => h j' (List.mem_cons_of_mem j hj)
    rw [keepableItems, h j List.mem_cons_self, hrest, Bool.and_true]

theorem isKeepable_obj (h : ∀ m ∈ members, m.2.isKeepable levels = true) :
    (obj members).isKeepable (levels + 1) = true := by
  show keepableMembers levels (members.map fun m => (some m.1, m.2)) = true
  induction members with
  | nil => rfl
  | cons m rest ih =>
    have hrest := ih fun m' hm => h m' (List.mem_cons_of_mem m hm)
    rw [List.map_cons, keepableMembers, h m List.mem_cons_self, hrest]
    rfl

/-! ### Fields -/

theorem knownMembers?_obj (h : ∀ m ∈ members, m.1 ∈ names) :
    knownMembers? names (members.map fun m => (some m.1, m.2)) = some members := by
  induction members with
  | nil => rfl
  | cons m rest ih =>
    have hm : names.contains m.1 = true := by simpa using h m List.mem_cons_self
    have hrest := ih fun m' hm => h m' (List.mem_cons_of_mem m hm)
    rw [List.map_cons, knownMembers?, hrest, Option.map_some, hm]
    rfl

theorem distinctNames_iff : distinctNames members = true ↔ (members.map (·.1)).Nodup := by
  induction members with
  | nil => simp [distinctNames]
  | cons m rest ih =>
    rw [distinctNames, Bool.and_eq_true, ih, List.map_cons, List.nodup_cons]
    refine and_congr_left fun _ => ?_
    rw [Bool.not_eq_true', List.any_eq_false, List.mem_map]
    simp only [beq_iff_eq, not_exists, not_and]

/-- An object gives all its members as fields if they are known and none comes twice. -/
theorem fields?_obj (h : ∀ m ∈ members, m.1 ∈ names) (hd : (members.map (·.1)).Nodup) :
    (obj members).fields? names = some { found := members } := by
  rw [obj, fields?, knownMembers?_obj h]
  simp only [distinctNames_iff.mpr hd, if_true]

/-- The members of an object that have another name than one of its members. -/
theorem filter_members_ne {name : String} (h : ∀ m ∈ members, m.1 ≠ name) :
    (members.map fun m => (some m.1, m.2)).filter (fun m => m.1 == some name) = [] ∧
      (members.map fun m => (some m.1, m.2)).filter (fun m => m.1 != some name) =
        members.map fun m => (some m.1, m.2) := by
  constructor
  · apply List.filter_eq_nil_iff.mpr
    intro m hm
    obtain ⟨m', hm', rfl⟩ := List.mem_map.mp hm
    simpa using h m' hm'
  · apply List.filter_eq_self.mpr
    intro m hm
    obtain ⟨m', hm', rfl⟩ := List.mem_map.mp hm
    simpa using h m' hm'

end Downline.Json
