import Downline.Json.Printer
import Downline.Json.Reader

/-! Both ways of writing a document are one, up to the blanks between its parts. What is proved of every
layout that inserts blanks alone holds of a document on one line and of one over several. -/

namespace Downline.Json

/-- Where blanks stand between the parts of a document. -/
structure Layout where
  /-- What stands before an item, or before the end of its list, that is nested to a level. -/
  lineBreak : Nat → List Char
  /-- What stands behind the colon of a member. -/
  gap : List Char

/-- On one line. -/
def Layout.compact : Layout where
  lineBreak _ := []
  gap := []

/-- One item a line, with two blanks a level. -/
def Layout.pretty : Layout where
  lineBreak level := '\n' :: List.replicate (2 * level) ' '
  gap := [' ']

mutual

/-- A document nested to `level`. -/
def Layout.write (l : Layout) (level : Nat) : Json → List Char → List Char
  | array (j :: rest), behind =>
    '[' :: (l.lineBreak (level + 1) ++
      l.write (level + 1) j (l.writeItems level rest behind))
  | object ((k, j) :: rest), behind =>
    '\x7b' :: (l.lineBreak (level + 1) ++ writeString k (':' :: (l.gap ++
      l.write (level + 1) j (l.writeMembers level rest behind))))
  | j, behind => j.write behind

/-- The further items of an array at `level`, and its end. -/
def Layout.writeItems (l : Layout) (level : Nat) : List Json → List Char → List Char
  | [], behind => l.lineBreak level ++ ']' :: behind
  | j :: rest, behind =>
    ',' :: (l.lineBreak (level + 1) ++
      l.write (level + 1) j (l.writeItems level rest behind))

/-- The further members of an object at `level`, and its end. -/
def Layout.writeMembers (l : Layout) (level : Nat) :
    List (Option String × Json) → List Char → List Char
  | [], behind => l.lineBreak level ++ '\x7d' :: behind
  | (k, j) :: rest, behind =>
    ',' :: (l.lineBreak (level + 1) ++ writeString k (':' :: (l.gap ++
      l.write (level + 1) j (l.writeMembers level rest behind))))

end

theorem Layout.write_number (l : Layout) (level : Nat) (literal : String) (behind : List Char) :
    l.write level (number literal) behind = literal.toList ++ behind := rfl

theorem Layout.write_string (l : Layout) (level : Nat) (s : Option String) (behind : List Char) :
    l.write level (string s) behind = writeString s behind := rfl

mutual

theorem write_compact (level : Nat) :
    ∀ (j : Json) (behind : List Char), Layout.compact.write level j behind = j.write behind
  | null, _ | bool _, _ | number _, _ | string _, _ | array [], _ | object [], _ => rfl
  | array (j :: rest), behind => by
    rw [Layout.write, Json.write, write_compact (level + 1) j, writeItems_compact level rest]
    rfl
  | object ((k, j) :: rest), behind => by
    rw [Layout.write, Json.write, write_compact (level + 1) j, writeMembers_compact level rest]
    rfl

theorem writeItems_compact (level : Nat) : ∀ (items : List Json) (behind : List Char),
    Layout.compact.writeItems level items behind = writeItems items behind
  | [], _ => rfl
  | j :: rest, behind => by
    rw [Layout.writeItems, writeItems, write_compact (level + 1) j,
      writeItems_compact level rest]
    rfl

theorem writeMembers_compact (level : Nat) :
    ∀ (members : List (Option String × Json)) (behind : List Char),
      Layout.compact.writeMembers level members behind = writeMembers members behind
  | [], _ => rfl
  | (k, j) :: rest, behind => by
    rw [Layout.writeMembers, writeMembers, write_compact (level + 1) j,
      writeMembers_compact level rest]
    rfl

end

mutual

theorem write_pretty (level : Nat) :
    ∀ (j : Json) (behind : List Char), Layout.pretty.write level j behind = j.writePretty level behind
  | null, _ | bool _, _ | number _, _ | string _, _ | array [], _ | object [], _ => rfl
  | array (j :: rest), behind => by
    rw [Layout.write, writePretty, write_pretty (level + 1) j, writeItems_pretty level rest]
    rfl
  | object ((k, j) :: rest), behind => by
    rw [Layout.write, writePretty, write_pretty (level + 1) j, writeMembers_pretty level rest]
    rfl

theorem writeItems_pretty (level : Nat) : ∀ (items : List Json) (behind : List Char),
    Layout.pretty.writeItems level items behind = writePrettyItems level items behind
  | [], _ => rfl
  | j :: rest, behind => by
    rw [Layout.writeItems, writePrettyItems, write_pretty (level + 1) j,
      writeItems_pretty level rest]
    rfl

theorem writeMembers_pretty (level : Nat) :
    ∀ (members : List (Option String × Json)) (behind : List Char),
      Layout.pretty.writeMembers level members behind = writePrettyMembers level members behind
  | [], _ => rfl
  | (k, j) :: rest, behind => by
    rw [Layout.writeMembers, writePrettyMembers, write_pretty (level + 1) j,
      writeMembers_pretty level rest]
    rfl

end

def AllBlank (cs : List Char) : Prop := ∀ c ∈ cs, isBlank c = true

/-- A layout inserts nothing but blanks. -/
structure Layout.Blank (l : Layout) : Prop where
  lineBreak : ∀ level, AllBlank (l.lineBreak level)
  gap : AllBlank l.gap

theorem Layout.blank_compact : Layout.compact.Blank where
  lineBreak _ := nofun
  gap := nofun

theorem Layout.blank_pretty : Layout.pretty.Blank where
  lineBreak level := by
    intro c hc
    rcases List.mem_cons.mp hc with rfl | hc
    · rfl
    · rw [List.eq_of_mem_replicate hc]
      rfl
  gap := by
    intro c hc
    rw [List.mem_singleton.mp hc]
    rfl

end Downline.Json
