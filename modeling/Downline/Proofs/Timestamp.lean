import Downline.Proofs.Digits
import Downline.Timestamp
import Mathlib.Algebra.GroupWithZero.Nat

/-! Points in time are read back from what they are written as: years of any number of digits, leap
seconds, and fractions of a second as long as they are. -/

namespace Downline.Timestamp

variable {width max n m : Nat} {ds rest : List Char} {c mark : Char} {y : Int}

/-! ### Padded numbers -/

theorem value_eq (cs : List Char) : value cs = Nat.ofDigitChars 10 cs 0 := foldl_digits_eq cs 0

theorem value_padded (width n : Nat) : value (padded width n) = n := by
  rw [value_eq, padded, Nat.ofDigitChars_append, Nat.ofDigitChars_replicate_zero, Nat.mul_zero,
    Nat.ofDigitChars_ten_toDigits]

theorem isDigit_of_mem_padded (h : c ∈ padded width n) : c.isDigit = true := by
  rcases List.mem_append.mp h with h | h
  · rw [List.eq_of_mem_replicate h]
    rfl
  · exact isDigit_of_mem_toDigits h

theorem length_padded (hw : 0 < width) (hn : n < 10 ^ width) : (padded width n).length = width := by
  have hle : (Nat.toDigits 10 n).length ≤ width := (Nat.length_toDigits_le_iff (by decide) hw).mpr hn
  rw [padded, List.length_append, List.length_replicate]
  omega

theorem exists_padded_eq_cons (width n : Nat) :
    ∃ d ds, padded width n = d :: ds ∧ d.isDigit = true := by
  have hne : padded width n ≠ [] := List.append_ne_nil_of_right_ne_nil _ Nat.toDigits_ne_nil
  obtain ⟨d, ds, hds⟩ := List.exists_cons_of_ne_nil hne
  have hmem : d ∈ padded width n := by
    rw [hds]
    exact List.mem_cons_self
  exact ⟨d, ds, hds, isDigit_of_mem_padded hmem⟩

/-! ### Single parts -/

theorem skipSpace_cons (h : isSpace c = false) : skipSpace (c :: rest) = c :: rest :=
  List.dropWhile_cons_of_neg (by rw [h]; exact Bool.false_ne_true)

theorem isSpace_of_isDigit (h : c.isDigit = true) : isSpace c = false := by
  have hbounds : 48 ≤ c.toNat ∧ c.toNat ≤ 57 := by
    rw [Char.isDigit, Bool.and_eq_true, decide_eq_true_eq, decide_eq_true_eq] at h
    exact h
  simp [isSpace]
  omega

theorem skipSpace_padded : skipSpace (padded width n ++ rest) = padded width n ++ rest := by
  obtain ⟨d, ds, hds, hd⟩ := exists_padded_eq_cons width n
  rw [hds, List.cons_append, skipSpace_cons (isSpace_of_isDigit hd)]

/-- As many digits as may be read, or fewer and no digit behind them. -/
theorem takeWhile_take_padded (hle : (padded width n).length ≤ max)
    (hr : (padded width n).length = max ∨ NoDigitAhead rest) :
    ((padded width n ++ rest).take max).takeWhile Char.isDigit = padded width n := by
  have hdigits : ∀ c ∈ padded width n, c.isDigit = true := fun c => isDigit_of_mem_padded
  rcases hr with hfull | hr
  · rw [List.take_left' hfull]
    simpa using takeWhile_isDigit hdigits noDigitAhead_nil
  · have hahead : NoDigitAhead (rest.take (max - (padded width n).length)) := by
      intro c hc
      rw [List.head?_take] at hc
      split_ifs at hc
      · cases hc
      · exact hr c hc
    rw [List.take_append, List.take_of_length_le hle]
    exact takeWhile_isDigit hdigits hahead

theorem readNumber_padded (hle : (padded width n).length ≤ max)
    (hr : (padded width n).length = max ∨ NoDigitAhead rest) :
    readNumber max (padded width n ++ rest) = some (n, rest) := by
  obtain ⟨d, ds, hds, -⟩ := exists_padded_eq_cons width n
  have hne : padded width n ≠ [] := by
    rw [hds]
    exact List.cons_ne_nil d ds
  rw [readNumber, takeWhile_take_padded hle hr]
  simp only [if_neg hne, value_padded, List.drop_left]

theorem readPart_padded (hn : n < 100) : readPart (padded 2 n ++ rest) = some (n, rest) := by
  have hlength : (padded 2 n).length = 2 := length_padded (by decide) hn
  rw [readPart, skipSpace_padded]
  exact readNumber_padded (Nat.le_of_eq hlength) (.inl hlength)

theorem readMark_cons (h : isSpace mark = false) : readMark mark (mark :: rest) = some rest := by
  rw [readMark, skipSpace_cons h]
  exact if_pos rfl

theorem readYear_yearChars (hr : NoDigitAhead rest) :
    readYear (yearChars y ++ rest) = some (y, rest) := by
  have hsigned (n : Nat) : readNumber (padded 4 n ++ rest).length (padded 4 n ++ rest) =
      some (n, rest) := by
    refine readNumber_padded ?_ (.inr hr)
    rw [List.length_append]
    omega
  by_cases hplain : (0 ≤ y && y ≤ 9999) = true
  · have hbounds : 0 ≤ y ∧ y ≤ 9999 := by simpa using hplain
    have hlength : (padded 4 y.toNat).length = 4 := length_padded (by decide) (by omega)
    have hread : readNumber 4 (padded 4 y.toNat ++ rest) = some (y.toNat, rest) :=
      readNumber_padded (Nat.le_of_eq hlength) (.inl hlength)
    have hyear : ((y.toNat : Nat) : Int) = y := Int.toNat_of_nonneg hbounds.1
    obtain ⟨d, ds, hds, hd⟩ := exists_padded_eq_cons 4 y.toNat
    have hminus : d ≠ '-' := ne_of_isDigit hd rfl
    have hplus : d ≠ '+' := ne_of_isDigit hd rfl
    rw [yearChars, if_pos hplain, readYear, skipSpace_padded]
    rw [hds, List.cons_append] at hread ⊢
    simp [hminus, hplus, hread, hyear]
  -- Behind a sign any number of digits is read, up to the hyphen.
  · by_cases hneg : y < 0
    · have hyear : (-(y.natAbs : Int)) = y := by omega
      rw [yearChars, if_neg hplain, if_pos hneg, List.cons_append, readYear,
        skipSpace_cons rfl]
      simp only [hsigned, Option.map_some, hyear]
    · have hyear : (y.natAbs : Int) = y := by omega
      rw [yearChars, if_neg hplain, if_neg hneg, List.cons_append, readYear,
        skipSpace_cons rfl]
      simp only [hsigned, Option.map_some, hyear]

/-- A fraction of nine digits or fewer. -/
theorem readFraction_padded (hw : 0 < width) (hmax : width ≤ 9) (hn : n < 10 ^ width)
    (hr : NoDigitAhead rest) :
    readFraction ('.' :: (padded width n ++ rest)) = some (n * 10 ^ (9 - width), rest) := by
  have hlength : (padded width n).length = width := length_padded hw hn
  obtain ⟨d, ds, hds, -⟩ := exists_padded_eq_cons width n
  have hne : padded width n ≠ [] := by
    rw [hds]
    exact List.cons_ne_nil d ds
  have htake : ((padded width n ++ rest).take 9).takeWhile Char.isDigit = padded width n :=
    takeWhile_take_padded (by omega) (.inr hr)
  have hbehind : ([] ++ rest).dropWhile Char.isDigit = rest := dropWhile_isDigit nofun hr
  rw [List.nil_append] at hbehind
  simp only [readFraction, htake, if_neg hne, value_padded, List.drop_left, hbehind]
  rw [hlength]
  rfl

theorem readFraction_fractionChars (hn : n < 1000000000) (hr : NoDigitAhead rest)
    (hpoint : rest.head? ≠ some '.') :
    readFraction (fractionChars n ++ rest) = some (n, rest) := by
  rw [fractionChars]
  split_ifs with hzero hmillis hmicros
  · subst hzero
    rw [List.nil_append, readFraction.eq_2]
    rintro behind rfl
    exact hpoint rfl
  · have hvalue : n / 1000000 * 10 ^ (9 - 3) = n := by omega
    rw [List.cons_append, readFraction_padded (by decide) (by decide) (by omega) hr, hvalue]
  · have hvalue : n / 1000 * 10 ^ (9 - 6) = n := by omega
    rw [List.cons_append, readFraction_padded (by decide) (by decide) (by omega) hr, hvalue]
  · rw [List.cons_append, readFraction_padded (by decide) (by decide) (by omega) hr]
    rw [Nat.sub_self, Nat.pow_zero, Nat.mul_one]

/-! ### The whole -/

theorem minusMinutes_zero {t : Timestamp} (hhour : t.hour < 24) (hminute : t.minute < 60) :
    t.minusMinutes 0 = t := by
  have hwithin : ((t.hour * 60 + t.minute - 0 : Int) % 1440).toNat = t.hour * 60 + t.minute := by
    omega
  have hdivide : (t.hour * 60 + t.minute) / 60 = t.hour := by omega
  have hrest : (t.hour * 60 + t.minute) % 60 = t.minute := by omega
  simp only [minusMinutes, hwithin, hdivide, hrest]
  rw [if_neg (by omega), if_neg (by omega)]

theorem daysInMonth_le (y : Int) (m : Nat) : daysInMonth y m ≤ 31 := by
  unfold daysInMonth
  grind

theorem ofString?_text {t : Timestamp} (h : t.isValid = true) : ofString? t.text = some t := by
  have hvalid := h
  simp only [isValid, Bool.and_eq_true, decide_eq_true_eq] at hvalid
  obtain ⟨⟨⟨⟨⟨⟨-, hmonth⟩, -⟩, hday⟩, hhour⟩, hminute⟩, hsecond⟩ := hvalid.1
  have hdays : daysInMonth t.year t.month ≤ 31 := daysInMonth_le t.year t.month
  have hnanos : t.nanos < 1000000000 := hvalid.2
  have hyear {cs : List Char} : NoDigitAhead ('-' :: cs) := noDigitAhead_cons rfl
  have hzone : NoDigitAhead ['Z'] := noDigitAhead_cons rfl
  have hchars : t.chars = yearChars t.year ++ '-' :: (padded 2 t.month ++ '-' :: (padded 2 t.day ++
      'T' :: (padded 2 t.hour ++ ':' :: (padded 2 t.minute ++ ':' :: (padded 2 t.second ++
      (fractionChars t.nanos ++ ['Z'])))))) := by
    simp only [chars, List.append_assoc, List.cons_append]
  rw [ofString?, text, String.toList_ofList, hchars, ofChars?]
  -- One part after another is read off the front, and what is left of the text gets shorter.
  refine Option.bind_eq_some_iff.mpr ⟨_, readYear_yearChars hyear, ?_⟩
  refine Option.bind_eq_some_iff.mpr ⟨_, readMark_cons rfl, ?_⟩
  refine Option.bind_eq_some_iff.mpr ⟨_, readPart_padded (by omega), ?_⟩
  refine Option.bind_eq_some_iff.mpr ⟨_, readMark_cons rfl, ?_⟩
  refine Option.bind_eq_some_iff.mpr ⟨_, readPart_padded (by omega), ?_⟩
  refine Option.bind_eq_some_iff.mpr ⟨_, readPart_padded (by omega), ?_⟩
  refine Option.bind_eq_some_iff.mpr ⟨_, readMark_cons rfl, ?_⟩
  refine Option.bind_eq_some_iff.mpr ⟨_, readPart_padded (by omega), ?_⟩
  refine Option.bind_eq_some_iff.mpr ⟨_, readMark_cons rfl, ?_⟩
  refine Option.bind_eq_some_iff.mpr ⟨_, readPart_padded (by omega), ?_⟩
  refine Option.bind_eq_some_iff.mpr ⟨_, readFraction_fractionChars hnanos hzone (by decide), ?_⟩
  refine Option.bind_eq_some_iff.mpr ⟨_, (rfl : readOffset ['Z'] = some (0, [])), ?_⟩
  have hend : ¬ skipSpace [] ≠ [] := not_not_intro rfl
  have haccepted : ¬ (!t.isValid || decide (1440 ≤ Int.natAbs 0)) = true := by simp [h]
  refine (if_neg hend).trans ((if_neg haccepted).trans ?_)
  show (if (t.minusMinutes 0).isValid = true then some (t.minusMinutes 0) else none) = some t
  rw [minusMinutes_zero hhour hminute, if_pos h]

end Downline.Timestamp
