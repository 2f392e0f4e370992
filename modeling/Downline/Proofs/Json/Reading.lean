import Downline.Proofs.Digits
import Downline.Proofs.Json.Layout

/-! What is written as JSON is read back, on one line or over several. Both ways of writing are one layout,
which says where blanks stand, and the reader passes over blanks. Of numbers only whole ones are considered,
the only ones that reports hold. -/

namespace Downline.Json

/-! ### Strings -/

/-- The escape of a control character is read as the unit that it names. -/
theorem unit?_of_control : ∀ n < 32, ∃ a b c d : Char,
    (HexDigit.ofNat 4 n).map HexDigit.char = [a, b, c, d] ∧ unit? a b c d = some n := by
  intro n hn
  refine ⟨_, _, _, _, rfl, ?_⟩
  revert n
  decide

/-- A character stands in a string behind a backslash, as the unit that it is, or for itself. -/
theorem escape_cases (c : Char) :
    (∃ e, escape c = ['\\', e] ∧ e ≠ 'u' ∧ shortEscape? e = some c) ∨
      (c.toNat < 32 ∧
        escape c = '\\' :: 'u' :: (HexDigit.ofNat 4 c.toNat).map HexDigit.char) ∨
      (c ≠ '"' ∧ c ≠ '\\' ∧ 32 ≤ c.toNat ∧ escape c = [c]) := by
  have hshort (e x : Char) (hx : escape x = ['\\', e]) (he : e ≠ 'u' ∧ shortEscape? e = some x) :
      c = x → ∃ e, escape c = ['\\', e] ∧ e ≠ 'u' ∧ shortEscape? e = some c := by
    rintro rfl
    exact ⟨e, hx, he⟩
  by_cases hq : c = '"'
  · exact .inl (hshort '"' _ rfl (by decide) hq)
  by_cases hb : c = '\\'
  · exact .inl (hshort '\\' _ rfl (by decide) hb)
  by_cases h8 : c = '\x08'
  · exact .inl (hshort 'b' _ rfl (by decide) h8)
  by_cases hc : c = '\x0c'
  · exact .inl (hshort 'f' _ rfl (by decide) hc)
  by_cases hn : c = '\n'
  · exact .inl (hshort 'n' _ rfl (by decide) hn)
  by_cases hr : c = '\r'
  · exact .inl (hshort 'r' _ rfl (by decide) hr)
  by_cases ht : c = '\t'
  · exact .inl (hshort 't' _ rfl (by decide) ht)
  right
  by_cases hl : c.toNat < 32
  · exact .inl ⟨hl, by simp only [escape, hq, hb, h8, hc, hn, hr, ht, hl, if_true, if_false]⟩
  · exact .inr ⟨hq, hb, Nat.le_of_not_lt hl, by
      simp only [escape, hq, hb, h8, hc, hn, hr, ht, hl, if_false]⟩

/-- A character is read back from what it is written as inside a string. -/
theorem readPieces_escape (c : Char) (rest : List Char) :
    readPieces (escape c ++ rest) = (readPieces rest).map fun p => (.char c :: p.1, p.2) := by
  rcases escape_cases c with ⟨e, hc, hu, he⟩ | ⟨hl, hc⟩ | ⟨hq, hb, hl, hc⟩
  · rw [hc, List.cons_append, List.cons_append, List.nil_append, readPieces]
    · rw [he]
      cases readPieces rest <;> rfl
    · intro _ _ _ _ _ hu'
      exact absurd hu' hu
  · obtain ⟨a, b, c', d, hdigits, hunit⟩ := unit?_of_control c.toNat hl
    have hpiece : Piece.ofUnit c.toNat = .char c := by
      have hhalf : ¬ 0xD800 ≤ c.toNat := by omega
      simp [Piece.ofUnit, hhalf, Char.ofNat_toNat]
    rw [hc, hdigits, ← hpiece]
    simp only [List.cons_append, List.nil_append, readPieces, hunit]
    cases readPieces rest <;> rfl
  · have hguard : ¬ ((c.toNat < 32 || c = '\\') = true) := by
      simp [hb, Nat.not_lt.mpr hl]
    rw [hc, List.cons_append, List.nil_append, readPieces]
    · rw [if_neg hguard]
      cases readPieces rest <;> rfl
    all_goals simp_all

theorem readPieces_writeText (cs behind : List Char) :
    readPieces (writeText cs behind) = some (cs.map .char, behind) := by
  induction cs with
  | nil => rfl
  | cons c rest ih => rw [writeText, readPieces_escape, ih]; rfl

theorem assemble_char (cs : List Char) : assemble (cs.map .char) = some cs := by
  induction cs with
  | nil => rfl
  | cons c rest ih => rw [List.map_cons, assemble, ih]; rfl

/-- A string is read back with what stands behind it. -/
theorem readString_write (s : Option String) (behind : List Char) :
    ∃ inside, writeString s behind = '"' :: inside ∧ readString inside = some (s, behind) := by
  cases s with
  | none => exact ⟨_, rfl, rfl⟩
  | some s =>
    refine ⟨_, rfl, ?_⟩
    rw [readString, readPieces_writeText]
    show some ((assemble (s.toList.map .char)).map String.ofList, behind) = some (some s, behind)
    rw [assemble_char, Option.map_some, String.ofList_toList]

/-! ### Numbers -/

/-- Nothing stands at the front that would make a number before it longer. -/
def Stops (cs : List Char) : Prop :=
  ∀ c ∈ cs.head?, c.isDigit = false ∧ c ≠ '.' ∧ c ≠ 'e' ∧ c ≠ 'E'

theorem stops_nil : Stops [] := nofun

theorem stops_cons {c : Char} {cs : List Char}
    (h : c.isDigit = false ∧ c ≠ '.' ∧ c ≠ 'e' ∧ c ≠ 'E') : Stops (c :: cs) := by
  intro x hx
  cases hx
  exact h

theorem Stops.noDigitAhead {cs : List Char} (h : Stops cs) : NoDigitAhead cs :=
  fun c hc => (h c hc).1

theorem Stops.readFraction {cs : List Char} (h : Stops cs) : readFraction cs = ([], cs) := by
  cases cs with
  | nil => rfl
  | cons c rest =>
    have hc : c ≠ '.' := (h c rfl).2.1
    simp [Json.readFraction, hc]

theorem Stops.readExponent {cs : List Char} (h : Stops cs) : readExponent cs = ([], cs) := by
  cases cs with
  | nil => rfl
  | cons c rest =>
    obtain ⟨-, -, he, hE⟩ := h c rfl
    simp [Json.readExponent, he, hE]

/-- A whole number is read up to where it ends. -/
theorem readNumber_toDigits (n : Nat) {behind : List Char} (h : Stops behind) :
    readNumber (Nat.toDigits 10 n ++ behind) = some (Nat.toDigits 10 n, behind) := by
  obtain ⟨d, ds, hds, hd⟩ := exists_toDigits_eq_cons n
  have hall : ∀ c ∈ ds, c.isDigit = true := by
    intro c hc
    apply isDigit_of_mem_toDigits (n := n)
    rw [hds]
    exact List.mem_cons_of_mem d hc
  have hwhole : readWhole (d :: (ds ++ behind)) = some (d :: ds, behind) := by
    by_cases h0 : d = '0'
    · -- Behind a zero in front no digit is read, and there is none.
      subst h0
      have hnil : ds = [] := eq_nil_of_toDigits hds
      rw [hnil]
      rfl
    · have htake := takeWhile_isDigit hall h.noDigitAhead
      have hdrop := dropWhile_isDigit hall h.noDigitAhead
      simp [readWhole, takeDigits, hd, htake, hdrop]
  have hminus : d ≠ '-' := ne_of_isDigit hd rfl
  rw [hds, List.cons_append]
  simp [readNumber, hminus, hwhole, h.readFraction, h.readExponent]

/-! ### Blanks -/

variable {l : Layout} {bs cs behind : List Char} {fuel level : Nat}

theorem skipBlanks_append (hb : AllBlank bs) (cs : List Char) :
    skipBlanks (bs ++ cs) = skipBlanks cs :=
  List.dropWhile_append_of_pos hb

theorem skipBlanks_cons {c : Char} (hc : isBlank c = false) (cs : List Char) :
    skipBlanks (c :: cs) = c :: cs :=
  List.dropWhile_cons_of_neg (by rw [hc]; exact Bool.false_ne_true)

theorem Stops.append (hb : AllBlank bs) (h : Stops cs) : Stops (bs ++ cs) := by
  cases bs with
  | nil => exact h
  | cons b bs =>
    apply stops_cons
    have hblank : isBlank b = true := hb b List.mem_cons_self
    rcases (by simpa [isBlank] using hblank : ((b = ' ' ∨ b = '\t') ∨ b = '\n') ∨ b = '\r') with
      ((rfl | rfl) | rfl) | rfl <;> decide

/-- The reader passes over blanks in front of a document. -/
theorem readValue_append (hb : AllBlank bs) (cs : List Char) :
    readValue fuel (bs ++ cs) = readValue fuel cs := by
  cases fuel with
  | zero => rfl
  | succ fuel => rw [readValue, readValue, skipBlanks_append hb]

theorem readItems_append (hb : AllBlank bs) (cs : List Char) :
    readItems fuel (bs ++ cs) = readItems fuel cs := by
  cases fuel with
  | zero => rfl
  | succ fuel => rw [readItems, readItems, readValue_append hb]

theorem readMembers_append (hb : AllBlank bs) (cs : List Char) :
    readMembers fuel (bs ++ cs) = readMembers fuel cs := by
  cases fuel with
  | zero => rfl
  | succ fuel => rw [readMembers, readMembers, skipBlanks_append hb]

/-! ### Documents -/

mutual

/-- Every number in a document is a whole one without a sign. -/
def Plain : Json → Prop
  | number literal => ∃ n : Nat, literal = toString n
  | array items => PlainItems items
  | object members => PlainMembers members
  | _ => True

def PlainItems : List Json → Prop
  | [] => True
  | j :: rest => j.Plain ∧ PlainItems rest

def PlainMembers : List (Option String × Json) → Prop
  | [] => True
  | (_, j) :: rest => j.Plain ∧ PlainMembers rest

end

mutual

/-- Fuel that is enough to read a document. -/
def steps : Json → Nat
  | array items => stepsItems items + 1
  | object members => stepsMembers members + 1
  | _ => 1

def stepsItems : List Json → Nat
  | [] => 0
  | j :: rest => j.steps + stepsItems rest + 1

def stepsMembers : List (Option String × Json) → Nat
  | [] => 0
  | (_, j) :: rest => j.steps + stepsMembers rest + 1

end

/-- What a document is written as begins with no blank and with no bracket that ends a list. -/
theorem exists_write_eq_cons : ∀ j : Json, j.Plain → ∃ c cs, l.write level j behind = c :: cs ∧
    isBlank c = false ∧ c ≠ ']'
  | null, _ => ⟨_, _, rfl, by decide⟩
  | bool true, _ => ⟨_, _, rfl, by decide⟩
  | bool false, _ => ⟨_, _, rfl, by decide⟩
  | number literal, h => by
    obtain ⟨n, rfl⟩ := h
    obtain ⟨d, ds, hds, hd⟩ := exists_toDigits_eq_cons n
    refine ⟨d, ds ++ behind, ?_, ?_, ne_of_isDigit hd rfl⟩
    · rw [Layout.write_number, Nat.toString_eq_ofList_toDigits, String.toList_ofList, hds]
      rfl
    · simp [isBlank, ne_of_isDigit hd]
  | string s, _ => by
    obtain ⟨inside, hs, -⟩ := readString_write s behind
    exact ⟨'"', inside, hs, by decide⟩
  | array [], _ | array (_ :: _), _ | object [], _ | object (_ :: _), _ => ⟨_, _, rfl, by decide⟩

theorem Layout.Blank.stops_writeItems (hl : l.Blank) (items : List Json) :
    Stops (l.writeItems level items behind) := by
  cases items with
  | nil => exact .append (hl.lineBreak level) (stops_cons (by decide))
  | cons j rest => exact stops_cons (by decide)

theorem Layout.Blank.stops_writeMembers (hl : l.Blank) (members : List (Option String × Json)) :
    Stops (l.writeMembers level members behind) := by
  cases members with
  | nil => exact .append (hl.lineBreak level) (stops_cons (by decide))
  | cons m rest => exact stops_cons (by decide)

/-- A text with a digit in front is read as a number. -/
theorem readValue_digit {d : Char} (hd : d.isDigit = true) (cs : List Char) :
    readValue (fuel + 1) (d :: cs) =
      (readNumber (d :: cs)).map fun (literal, rest) => (.number (String.ofList literal), rest) := by
  have hblank : isBlank d = false := by
    simp [isBlank, ne_of_isDigit hd]
  rw [readValue, skipBlanks_cons hblank]
  split
  -- Each other kind of value begins with a character of its own, which is no digit.
  iterate 6
    next h => exact absurd (List.cons.inj h).1 (ne_of_isDigit hd rfl)
  next => rfl

mutual

/-- A document is read back, however it is laid out, with what stands behind it. -/
theorem readValue_write (hl : l.Blank) : ∀ (j : Json) (level fuel : Nat) (behind : List Char),
    j.Plain → Stops behind → j.steps ≤ fuel →
      readValue fuel (l.write level j behind) = some (j, behind)
  | null, _, fuel + 1, _, _, _, _ => rfl
  | bool true, _, fuel + 1, _, _, _, _ => rfl
  | bool false, _, fuel + 1, _, _, _, _ => rfl
  | number literal, level, fuel + 1, behind, h, hstop, _ => by
    obtain ⟨n, rfl⟩ := h
    obtain ⟨d, ds, hds, hd⟩ := exists_toDigits_eq_cons n
    have hread := readNumber_toDigits n hstop
    rw [hds] at hread
    rw [Layout.write_number, Nat.toString_eq_ofList_toDigits, String.toList_ofList, hds,
      List.cons_append, readValue_digit hd, ← List.cons_append, hread]
    rfl
  | string s, level, fuel + 1, behind, _, _, _ => by
    obtain ⟨inside, hs, hread⟩ := readString_write s behind
    rw [Layout.write_string, hs, readValue, skipBlanks_cons rfl]
    simp only [hread, Option.map_some]
  | array [], _, fuel + 1, _, _, _, _ => rfl
  | object [], _, fuel + 1, _, _, _, _ => rfl
  | array (j :: rest), level, fuel + 1, behind, h, _, hfuel => by
    obtain ⟨hj, hrest⟩ := h
    -- Behind the bracket stands the first item: blanks are passed over, and no end of the list comes first.
    have hitems := readItems_write hl j rest level fuel behind hj hrest (by
      rw [steps] at hfuel
      omega)
    have hfront : ∃ c cs, l.write (level + 1) j (l.writeItems level rest behind) = c :: cs ∧
        isBlank c = false ∧ c ≠ ']' := exists_write_eq_cons j hj
    obtain ⟨c, cs, hc, hblank, hend⟩ := hfront
    rw [hc] at hitems
    rw [Layout.write, hc, readValue, skipBlanks_cons rfl]
    simp only [skipBlanks_append (hl.lineBreak (level + 1)), skipBlanks_cons hblank]
    split
    next h => exact absurd (List.cons.inj h).1 hend
    next => rw [hitems, Option.map_some]
  | object ((k, j) :: rest), level, fuel + 1, behind, h, _, hfuel => by
    obtain ⟨hj, hrest⟩ := h
    -- Behind the bracket stands the quote of the first key.
    have hmembers := readMembers_write hl k j rest level fuel behind hj hrest (by
      rw [steps] at hfuel
      omega)
    obtain ⟨inside, hk, -⟩ := readString_write k (':' :: (l.gap ++
      l.write (level + 1) j (l.writeMembers level rest behind)))
    have hquote : isBlank '"' = false := rfl
    rw [hk] at hmembers
    rw [Layout.write, hk, readValue, skipBlanks_cons rfl]
    simp only [skipBlanks_append (hl.lineBreak (level + 1)), skipBlanks_cons hquote]
    split
    next h => cases h
    next => rw [hmembers, Option.map_some]

theorem readItems_write (hl : l.Blank) : ∀ (j : Json) (rest : List Json) (level fuel : Nat)
    (behind : List Char), j.Plain → PlainItems rest → stepsItems (j :: rest) ≤ fuel →
      readItems fuel (l.write (level + 1) j (l.writeItems level rest behind)) =
        some (j :: rest, behind)
  | j, [], level, fuel + 1, behind, hj, _, hfuel => by
    -- The last item ends where the blanks before the bracket begin.
    have hvalue := readValue_write hl j (level + 1) fuel (l.writeItems level [] behind) hj
      (hl.stops_writeItems []) (by simp only [stepsItems] at hfuel; omega)
    rw [readItems, hvalue]
    simp only [Layout.writeItems, skipBlanks_append (hl.lineBreak level),
      skipBlanks_cons (c := ']') rfl]
  | j, j' :: rest, level, fuel + 1, behind, hj, hrest, hfuel => by
    simp only [stepsItems] at hfuel
    have hvalue := readValue_write hl j (level + 1) fuel (l.writeItems level (j' :: rest) behind) hj
      (hl.stops_writeItems (j' :: rest)) (by omega)
    have hitems := readItems_write hl j' rest level fuel behind hrest.1 hrest.2 (by
      simp only [stepsItems]
      omega)
    rw [readItems, hvalue]
    simp only [Layout.writeItems, skipBlanks_cons (c := ',') rfl,
      readItems_append (hl.lineBreak (level + 1)), hitems, Option.map_some]

theorem readMembers_write (hl : l.Blank) : ∀ (k : Option String) (j : Json)
    (rest : List (Option String × Json)) (level fuel : Nat) (behind : List Char),
    j.Plain → PlainMembers rest → stepsMembers ((k, j) :: rest) ≤ fuel →
      readMembers fuel (writeString k (':' :: (l.gap ++
        l.write (level + 1) j (l.writeMembers level rest behind)))) = some ((k, j) :: rest, behind)
  | k, j, [], level, fuel + 1, behind, hj, _, hfuel => by
    obtain ⟨inside, hk, hkey⟩ := readString_write k (':' :: (l.gap ++
      l.write (level + 1) j (l.writeMembers level [] behind)))
    have hvalue := readValue_write hl j (level + 1) fuel (l.writeMembers level [] behind) hj
      (hl.stops_writeMembers []) (by simp only [stepsMembers] at hfuel; omega)
    rw [hk, readMembers]
    simp only [skipBlanks_cons (c := '"') rfl, hkey, skipBlanks_cons (c := ':') rfl,
      readValue_append hl.gap, hvalue]
    simp only [Layout.writeMembers, skipBlanks_append (hl.lineBreak level),
      skipBlanks_cons (c := '\x7d') rfl]
  | k, j, (k', j') :: rest, level, fuel + 1, behind, hj, hrest, hfuel => by
    simp only [stepsMembers] at hfuel
    obtain ⟨inside, hk, hkey⟩ := readString_write k (':' :: (l.gap ++
      l.write (level + 1) j (l.writeMembers level ((k', j') :: rest) behind)))
    have hvalue := readValue_write hl j (level + 1) fuel
      (l.writeMembers level ((k', j') :: rest) behind) hj
      (hl.stops_writeMembers ((k', j') :: rest)) (by omega)
    have hmembers := readMembers_write hl k' j' rest level fuel behind hrest.1 hrest.2 (by
      simp only [stepsMembers]
      omega)
    rw [hk, readMembers]
    simp only [skipBlanks_cons (c := '"') rfl, hkey, skipBlanks_cons (c := ':') rfl,
      readValue_append hl.gap, hvalue]
    simp only [Layout.writeMembers, skipBlanks_cons (c := ',') rfl,
      readMembers_append (hl.lineBreak (level + 1)), hmembers, Option.map_some]

end

/-! ### Whole texts -/

theorem length_writeString (s : Option String) (behind : List Char) :
    behind.length + 2 ≤ (writeString s behind).length := by
  have htext (cs : List Char) : behind.length + 1 ≤ (writeText cs behind).length := by
    induction cs with
    | nil => exact Nat.le_refl _
    | cons c rest ih =>
      rw [writeText, List.length_append]
      omega
  cases s with
  | none =>
    simp only [writeString, List.length_cons]
    omega
  | some s =>
    rw [writeString, List.length_cons]
    have h := htext s.toList
    omega

mutual

/-- A document takes no more steps to read than it has characters. -/
theorem steps_le : ∀ (j : Json) (level : Nat) (behind : List Char), j.Plain →
    j.steps + behind.length ≤ (l.write level j behind).length
  | null, _, _, _ | bool true, _, _, _ | bool false, _, _, _ => by
    simp only [Layout.write, Json.write, steps, List.length_cons]
    omega
  | array [], _, _, _ | object [], _, _, _ => by
    simp only [Layout.write, Json.write, steps, stepsItems, stepsMembers, List.length_cons]
    omega
  | number literal, level, behind, h => by
    obtain ⟨n, rfl⟩ := h
    have hdigits : 0 < (Nat.toDigits 10 n).length := Nat.length_toDigits_pos
    have hsteps : (number (toString n)).steps = 1 := rfl
    rw [hsteps, Layout.write_number, Nat.toString_eq_ofList_toDigits, String.toList_ofList,
      List.length_append]
    omega
  | string s, level, behind, _ => by
    have hs := length_writeString s behind
    have hsteps : (string s).steps = 1 := rfl
    rw [hsteps, Layout.write_string]
    omega
  | array (j :: rest), level, behind, h => by
    have hj := steps_le j (level + 1) (l.writeItems level rest behind) h.1
    have hrest := stepsItems_le rest level behind h.2
    simp only [Layout.write, steps, stepsItems, List.length_cons, List.length_append]
    omega
  | object ((k, j) :: rest), level, behind, h => by
    have hj := steps_le j (level + 1) (l.writeMembers level rest behind) h.1
    have hrest := stepsMembers_le rest level behind h.2
    have hk := length_writeString k (':' :: (l.gap ++
      l.write (level + 1) j (l.writeMembers level rest behind)))
    simp only [List.length_cons, List.length_append] at hk
    simp only [Layout.write, steps, stepsMembers, List.length_cons, List.length_append]
    omega

theorem stepsItems_le : ∀ (items : List Json) (level : Nat) (behind : List Char),
    PlainItems items →
      stepsItems items + behind.length + 1 ≤ (l.writeItems level items behind).length
  | [], level, behind, _ => by
    simp only [Layout.writeItems, stepsItems, List.length_cons, List.length_append]
    omega
  | j :: rest, level, behind, h => by
    have hj := steps_le j (level + 1) (l.writeItems level rest behind) h.1
    have hrest := stepsItems_le rest level behind h.2
    simp only [Layout.writeItems, stepsItems, List.length_cons, List.length_append]
    omega

theorem stepsMembers_le : ∀ (members : List (Option String × Json)) (level : Nat)
    (behind : List Char), PlainMembers members →
      stepsMembers members + behind.length + 1 ≤ (l.writeMembers level members behind).length
  | [], level, behind, _ => by
    simp only [Layout.writeMembers, stepsMembers, List.length_cons, List.length_append]
    omega
  | (k, j) :: rest, level, behind, h => by
    have hj := steps_le j (level + 1) (l.writeMembers level rest behind) h.1
    have hrest := stepsMembers_le rest level behind h.2
    have hk := length_writeString k (':' :: (l.gap ++
      l.write (level + 1) j (l.writeMembers level rest behind)))
    simp only [List.length_cons, List.length_append] at hk
    simp only [Layout.writeMembers, stepsMembers, List.length_cons, List.length_append]
    omega

end

theorem Layout.Blank.ofChars?_write (hl : l.Blank) {j : Json} (h : j.Plain) :
    ofChars? (l.write 0 j []) = some j := by
  have hsteps : j.steps ≤ 2 * (l.write 0 j []).length + 2 := by
    have hle := steps_le (l := l) j 0 [] h
    rw [List.length_nil] at hle
    omega
  rw [ofChars?, readValue_write hl j 0 _ [] h stops_nil hsteps]
  rfl

/-- What is written on one line is read back. -/
theorem ofString?_compact {j : Json} (h : j.Plain) : ofString? j.compact = some j := by
  rw [ofString?, compact, String.toList_ofList, ← write_compact 0]
  exact Layout.blank_compact.ofChars?_write h

/-- What is written over several lines is read back. -/
theorem ofString?_pretty {j : Json} (h : j.Plain) : ofString? j.pretty = some j := by
  rw [ofString?, pretty, String.toList_ofList, ← write_pretty 0]
  exact Layout.blank_pretty.ofChars?_write h

end Downline.Json
