import Downline.Decimal.Literal
import Mathlib.Tactic.Common

/-! Decimal digits at the front of a text, and the numbers that they stand for. A whole number is written
without a sign, a fraction or an exponent, and whoever reads its digits has the number back. -/

namespace Downline

/-- No digit stands at the front. -/
def NoDigitAhead (cs : List Char) : Prop := ∀ c ∈ cs.head?, c.isDigit = false

variable {c : Char} {ds rest : List Char} {n : Nat}

theorem noDigitAhead_nil : NoDigitAhead [] := nofun

theorem noDigitAhead_cons (h : c.isDigit = false) : NoDigitAhead (c :: rest) := by
  intro x hx
  cases hx
  exact h

theorem ne_of_isDigit (h : c.isDigit = true) {x : Char} (hx : x.isDigit = false) : c ≠ x := by
  intro he
  rw [he, hx] at h
  cases h

/-- Taking digits from the front stops where the digits end. -/
theorem takeWhile_isDigit (hd : ∀ c ∈ ds, c.isDigit = true) (hr : NoDigitAhead rest) :
    (ds ++ rest).takeWhile Char.isDigit = ds := by
  rw [List.takeWhile_append_of_pos hd]
  cases rest with
  | nil => rw [List.takeWhile_nil, List.append_nil]
  | cons c rest =>
    have hc : c.isDigit = false := hr c rfl
    rw [List.takeWhile_cons_of_neg (by rw [hc]; exact Bool.false_ne_true), List.append_nil]

theorem dropWhile_isDigit (hd : ∀ c ∈ ds, c.isDigit = true) (hr : NoDigitAhead rest) :
    (ds ++ rest).dropWhile Char.isDigit = rest := by
  rw [List.dropWhile_append_of_pos hd]
  cases rest with
  | nil => rfl
  | cons c rest =>
    have hc : c.isDigit = false := hr c rfl
    rw [List.dropWhile_cons_of_neg (by rw [hc]; exact Bool.false_ne_true)]

theorem isDigit_of_mem_toDigits (h : c ∈ Nat.toDigits 10 n) : c.isDigit = true :=
  Nat.isDigit_of_mem_toDigits (by decide) (by decide) h

/-- A written number begins with a digit. -/
theorem exists_toDigits_eq_cons (n : Nat) :
    ∃ d ds, Nat.toDigits 10 n = d :: ds ∧ d.isDigit = true := by
  obtain ⟨d, ds, hds⟩ := List.exists_cons_of_ne_nil (Nat.toDigits_ne_nil (n := n) (b := 10))
  refine ⟨d, ds, hds, isDigit_of_mem_toDigits (n := n) ?_⟩
  rw [hds]
  exact List.mem_cons_self

/-- A number that begins with a zero is written with that zero alone. -/
theorem eq_nil_of_toDigits (h : Nat.toDigits 10 n = '0' :: ds) : ds = [] := by
  induction n using Nat.strongRecOn generalizing ds with
  | _ n ih =>
    by_cases hn : n < 10
    · rw [Nat.toDigits_of_lt_base hn] at h
      exact (List.cons.inj h).2.symm
    · rw [Nat.toDigits_of_base_le (by decide) (Nat.le_of_not_lt hn)] at h
      obtain ⟨d, ds', hds, -⟩ := exists_toDigits_eq_cons (n / 10)
      rw [hds, List.cons_append] at h
      obtain ⟨rfl, -⟩ := List.cons.inj h
      -- All digits but the last are those of a tenth, and begin with the zero as well.
      have hlead : ds' = [] := ih (n / 10) (by omega) hds
      have hzero : n / 10 = 0 := by
        have hvalue := Nat.ofDigitChars_ten_toDigits (n := n / 10)
        rw [hds, hlead] at hvalue
        exact hvalue.symm
      omega

/-! ### Values -/

/-- The step of every reader of digits is that of the library's. -/
theorem foldl_digits_eq (cs : List Char) (n : Nat) :
    cs.foldl (fun n c => n * 10 + (c.toNat - 48)) n = Nat.ofDigitChars 10 cs n := by
  have hstep : (fun (n : Nat) (c : Char) => n * 10 + (c.toNat - 48)) =
      fun n c => 10 * n + (c.toNat - '0'.toNat) := by
    funext n c
    rw [Nat.mul_comm]
    rfl
  rw [Nat.ofDigitChars_eq_foldl, hstep]

/-- Digits behind a number do not make it smaller. -/
theorem le_ofDigitChars (cs : List Char) (n : Nat) : n ≤ Nat.ofDigitChars 10 cs n := by
  induction cs generalizing n with
  | nil => exact Nat.le_of_eq Nat.ofDigitChars_nil.symm
  | cons c rest ih =>
    rw [Nat.ofDigitChars_cons]
    have h := ih (10 * n + (c.toNat - '0'.toNat))
    omega

namespace Literal

theorem digitsValue_toDigits (n : Nat) : digitsValue (Nat.toDigits 10 n) = n := by
  rw [digitsValue, foldl_digits_eq, Nat.ofDigitChars_ten_toDigits]

/-- A whole number as it is written: digits alone. -/
theorem ofString_toString (n : Nat) :
    ofString (toString n) = { whole := Nat.toDigits 10 n } := by
  obtain ⟨d, ds, hds, hd⟩ := exists_toDigits_eq_cons n
  have hall : ∀ c ∈ d :: ds, c.isDigit = true := by
    rw [← hds]
    exact fun c => isDigit_of_mem_toDigits
  have hsign : splitSign (d :: ds) = (false, d :: ds) := by
    have hminus : d ≠ '-' := ne_of_isDigit hd rfl
    have hplus : d ≠ '+' := ne_of_isDigit hd rfl
    simp [splitSign, hminus, hplus]
  have htake : (d :: ds).takeWhile Char.isDigit = d :: ds := by
    simpa using takeWhile_isDigit hall noDigitAhead_nil
  have hdrop : (d :: ds).dropWhile Char.isDigit = [] := by
    simpa using dropWhile_isDigit hall noDigitAhead_nil
  rw [ofString, Nat.toString_eq_ofList_toDigits, String.toList_ofList, hds]
  simp only [ofChars, hsign, htake, hdrop]

/-- Digits that keep the number below the bound of a word are all taken. -/
theorem leading_eq (cs : List Char) (n : Nat) (h : Nat.ofDigitChars 10 cs n < UInt64.size) :
    leading n cs = (Nat.ofDigitChars 10 cs n, []) := by
  induction cs generalizing n with
  | nil => rfl
  | cons c rest ih =>
    have hstep : n * 10 + (c.toNat - 48) = 10 * n + (c.toNat - '0'.toNat) := by
      rw [Nat.mul_comm]
      rfl
    rw [Nat.ofDigitChars_cons, ← hstep] at h ⊢
    have hlt : n * 10 + (c.toNat - 48) < UInt64.size :=
      Nat.lt_of_le_of_lt (le_ofDigitChars rest _) h
    rw [leading, if_pos hlt, ih _ h]

/-- A whole number of 64 bits is read as it is. -/
theorem scaledWord_toDigits (h : n < UInt64.size) :
    ({ whole := Nat.toDigits 10 n } : Literal).scaledWord = some (Float.ofNat n) := by
  have hlead : leading 0 (Nat.toDigits 10 n) = (n, []) := by
    have hvalue : Nat.ofDigitChars 10 (Nat.toDigits 10 n) 0 = n := Nat.ofDigitChars_ten_toDigits
    rw [leading_eq _ _ (by rw [hvalue]; exact h), hvalue]
  simp [scaledWord, hlead, leading, exponentValue, scaled, signed]

end Literal

end Downline
