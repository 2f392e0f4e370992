import Downline.Uuid
import Mathlib.Algebra.GroupWithZero.Nat

/-! Identifiers are read back from what they are written as, and so no two of them are written alike. -/

namespace Downline.Uuid

variable {sizes : List Nat} {cs : List Char}

/-- Hyphens that were put between groups are found and taken out again. -/
theorem ungrouped?_grouped (hne : sizes ≠ []) (h : cs.length = sizes.sum) :
    ungrouped? sizes (grouped sizes cs) = some cs := by
  fun_induction grouped sizes cs with
  | case1 => exact absurd rfl hne
  | case2 n cs =>
    have hlength : cs.length = n := by simpa using h
    rw [← hlength, List.take_length, ungrouped?, if_pos rfl]
  | case3 n rest cs hrest ih =>
    have hsum : cs.length = n + rest.sum := h
    have htake : (cs.take n).length = n := by
      rw [List.length_take]
      omega
    -- The first group is as long as it says, so the hyphen stands right behind it.
    have hbehind : (cs.take n ++ '-' :: grouped rest (cs.drop n)).drop n =
        '-' :: grouped rest (cs.drop n) := List.drop_left' htake
    have hgroup : (cs.take n ++ '-' :: grouped rest (cs.drop n)).take n = cs.take n :=
      List.take_left' htake
    have hagain : ungrouped? rest (grouped rest (cs.drop n)) = some (cs.drop n) :=
      ih hrest (by rw [List.length_drop]; omega)
    rw [ungrouped?.eq_3 _ _ _ hrest, hbehind, hgroup]
    show (ungrouped? rest (grouped rest (cs.drop n))).map (cs.take n ++ ·) = some cs
    rw [hagain, Option.map_some, List.take_append_drop]

theorem length_grouped (hne : sizes ≠ []) (h : cs.length = sizes.sum) :
    (grouped sizes cs).length + 1 = sizes.sum + sizes.length := by
  fun_induction grouped sizes cs with
  | case1 => exact absurd rfl hne
  | case2 n cs =>
    have hlength : cs.length = n := by simpa using h
    rw [← hlength, List.take_length, List.sum_singleton, List.length_singleton]
  | case3 n rest cs hrest ih =>
    have hsum : cs.length = n + rest.sum := h
    have hih := ih hrest (by rw [List.length_drop]; omega)
    rw [List.length_append, List.length_take, List.length_cons, List.sum_cons, List.length_cons]
    omega

theorem mapM_ofChar?_map_char (ds : List HexDigit) :
    (ds.map HexDigit.char).mapM HexDigit.ofChar? = some ds := by
  induction ds with
  | nil => rfl
  | cons d rest ih =>
    rw [List.map_cons, List.mapM_cons, HexDigit.ofChar?_char, ih]
    rfl

theorem ofDigits?_map_char (u : Uuid) :
    ofDigits? (u.digits.toList.map HexDigit.char) = some u := by
  obtain ⟨⟨⟨ds⟩, hds⟩⟩ := u
  rw [ofDigits?, mapM_ofChar?_map_char]
  exact dif_pos hds

theorem ofString?_text (u : Uuid) : ofString? u.text = some u := by
  have hlength : (u.digits.toList.map HexDigit.char).length = groupSizes.sum := by
    rw [List.length_map, Vector.length_toList]
    rfl
  have hchars : u.chars.length = 36 := by
    have h : u.chars.length + 1 = groupSizes.sum + groupSizes.length :=
      length_grouped nofun hlength
    have hsum : groupSizes.sum + groupSizes.length = 37 := rfl
    omega
  have hungrouped : ungrouped? groupSizes u.chars = some (u.digits.toList.map HexDigit.char) :=
    ungrouped?_grouped nofun hlength
  rw [ofString?, text, String.toList_ofList, ofChars?, hchars, if_neg (by decide), if_pos rfl,
    hungrouped]
  exact ofDigits?_map_char u

theorem text_injective {u v : Uuid} (h : u.text = v.text) : u = v := by
  have hu := ofString?_text u
  rw [h, ofString?_text v] at hu
  exact (Option.some.inj hu).symm

end Downline.Uuid
