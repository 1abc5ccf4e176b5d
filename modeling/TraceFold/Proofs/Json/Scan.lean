/-
  TraceFold.Proofs.Json.Scan

  The texts of numbers and strings are scanned as what they were written for, whatever
  follows them.  Only behind a number the text must not go on as one (`Stops`).
-/

import Mathlib.Data.List.TakeWhile
import TraceFold.Json.Printer
import TraceFold.Json.Token
import TraceFold.Proofs.Number.FixedPlaces

namespace TraceFold

namespace Json

/-! ## Numbers -/

/-- The text does not go on as a number. -/
def Stops (cs : List Char) : Prop :=
  ∀ c ∈ cs.head?, c.isDigit = false ∧ c ≠ '.' ∧ c ≠ 'e' ∧ c ≠ 'E'

/-- A run of digits is scanned up to the first character that is none. -/
theorem scanDigits_append {run rest : List Char} (hrun : ∀ c ∈ run, c.isDigit) (hne : run ≠ [])
    (hrest : ∀ c ∈ rest.head?, c.isDigit = false) :
    scanDigits (run ++ rest) = some (run, rest) := by
  have htake : rest.takeWhile Char.isDigit = [] := by
    cases rest with
    | nil => rfl
    | cons c rest => simp [hrest c rfl]
  have hdrop : rest.dropWhile Char.isDigit = rest := by
    cases rest with
    | nil => rfl
    | cons c rest => simp [hrest c rfl]
  simp only [scanDigits, List.takeWhile_append_of_pos hrun, List.dropWhile_append_of_pos hrun,
    htake, hdrop, List.append_nil, List.isEmpty_iff, hne, if_false]

/-- The text of a power of ten. -/
def powerChars : Option Int → List Char
  | none => []
  | some e => 'e' :: (if e < 0 then ['-'] else []) ++ Text.digits e.natAbs

theorem scanSignedDigits_of_head {c : Char} {cs : List Char} (hc : c.isDigit) :
    scanSignedDigits (c :: cs) =
      (scanDigits (c :: cs)).map fun (run, rest) => ((Nat.ofDigitChars 10 run 0 : Int), rest) := by
  unfold scanSignedDigits
  split
  · rename_i h
    simp [(List.cons.inj h).1] at hc
  · rename_i h
    simp [(List.cons.inj h).1] at hc
  · rfl

/-- An integer is scanned as itself, with a sign in front if it is negative. -/
theorem scanSignedDigits_digits (e : Int) {rest : List Char} (hrest : Stops rest) :
    scanSignedDigits ((if e < 0 then ['-'] else []) ++ Text.digits e.natAbs ++ rest)
      = some (e, rest) := by
  have hscan := scanDigits_append (fun c hc => Text.isDigit_of_mem_digits hc)
    (Text.digits_ne_nil e.natAbs) fun c hc => (hrest c hc).1
  by_cases he : e < 0
  · have habs : -(e.natAbs : Int) = e := by omega
    simp only [he, ↓reduceIte, List.cons_append, List.nil_append, scanSignedDigits, hscan,
      Option.map_some, Text.value_digits, habs]
  · have habs : (e.natAbs : Int) = e := by omega
    obtain ⟨c, cs, hdigits⟩ := List.exists_cons_of_ne_nil (Text.digits_ne_nil e.natAbs)
    have hc : c.isDigit := Text.isDigit_of_mem_digits (hdigits ▸ List.mem_cons_self)
    have hvalue := Text.value_digits e.natAbs
    rw [hdigits] at hscan hvalue ⊢
    rw [if_neg he, List.nil_append, List.cons_append, scanSignedDigits_of_head hc,
      ← List.cons_append, hscan]
    simp only [Option.map_some, hvalue, habs]

/-- A power of ten is scanned as itself, and none if there is none. -/
theorem scanExponent_powerChars (e : Option Int) {rest : List Char} (hrest : Stops rest) :
    scanExponent (powerChars e ++ rest) = some (e, rest) := by
  cases e with
  | none =>
    cases rest with
    | nil => rfl
    | cons c rest =>
      obtain ⟨-, -, he, hE⟩ := hrest c rfl
      simp [powerChars, scanExponent, he, hE]
  | some e =>
    simp only [powerChars, List.cons_append, scanExponent]
    rw [scanSignedDigits_digits e hrest, Option.map_some]

/-- Behind the digits of a number stands no further digit and no second point. -/
theorem head?_powerChars (e : Option Int) {rest : List Char} (hrest : Stops rest) :
    ∀ c ∈ (powerChars e ++ rest).head?, c.isDigit = false ∧ c ≠ '.' := by
  intro c hc
  cases e with
  | none => exact ⟨(hrest c hc).1, (hrest c hc).2.1⟩
  | some e =>
    obtain rfl : 'e' = c := by simpa [powerChars] using hc
    decide

/-- The digits behind the point are scanned as they were written. -/
theorem scanFraction_written {places n : Nat} {whole fraction tail : List Char}
    (hwritten : Number.Written places n whole fraction)
    (htail : ∀ c ∈ tail.head?, c.isDigit = false ∧ c ≠ '.') :
    scanFraction ((if places = 0 then [] else '.' :: fraction) ++ tail) =
      some (fraction, tail) := by
  have hlength := hwritten.length_fraction
  by_cases hplaces : places = 0
  · obtain rfl : fraction = [] := List.length_eq_zero_iff.1 (hlength.trans hplaces)
    cases tail with
    | nil => simp [hplaces, scanFraction]
    | cons c tail => simp [hplaces, scanFraction, (htail c rfl).2]
  · have hne : fraction ≠ [] := List.length_pos_iff.1 (by omega)
    simp only [hplaces, if_false, List.cons_append, scanFraction]
    exact scanDigits_append (fun c hc => hwritten.isDigit c (List.mem_append_right _ hc)) hne
      fun c hc => (htail c hc).1

/-- A number is scanned as itself, sign apart. -/
theorem scanMagnitude_placed (n : Numeral) {rest : List Char} (hrest : Stops rest) :
    scanMagnitude n.negative (Number.placed n.places n.digits ++ (powerChars n.exponent ++ rest))
      = some (.number n, rest) := by
  obtain ⟨whole, fraction, hwritten⟩ := Number.exists_written n.places n.digits
  have htail := head?_powerChars n.exponent hrest
  -- the whole digits end where the point, the exponent mark or the rest begins
  have hend : ∀ c ∈ ((if n.places = 0 then [] else '.' :: fraction)
      ++ (powerChars n.exponent ++ rest)).head?, c.isDigit = false := by
    intro c hc
    by_cases hplaces : n.places = 0
    · exact (htail c (by simpa [hplaces] using hc)).1
    · obtain rfl : '.' = c := by simpa [hplaces] using hc
      decide
  have hwhole := scanDigits_append (fun c hc => hwritten.isDigit c (List.mem_append_left _ hc))
    hwritten.whole_ne_nil hend
  have hlead : ¬(whole.head? = some '0' && whole.length != 1) = true := by
    simpa using hwritten.lead
  simp only [scanMagnitude, hwritten.placed_eq, List.append_assoc, hwhole,
    Option.bind_eq_bind, Option.bind_some, hlead, scanFraction_written hwritten htail,
    scanExponent_powerChars n.exponent hrest, hwritten.value, hwritten.length_fraction]
  rfl

theorem scan_of_isDigit {c : Char} {cs : List Char} (hc : c.isDigit) :
    Token.scan (c :: cs) = scanMagnitude false (c :: cs) := by
  unfold Token.scan
  split <;> first
    | rfl
    | (rename_i h; simp [(List.cons.inj h).1] at hc)

/-- A number is scanned from its text. -/
theorem scan_numeralChars (n : Numeral) {rest : List Char} (hrest : Stops rest) :
    Token.scan (numeralChars n ++ rest) = some (.number n, rest) := by
  have htext : numeralChars n ++ rest = (if n.negative then ['-'] else [])
      ++ (Number.placed n.places n.digits ++ (powerChars n.exponent ++ rest)) := by
    have hparts : numeralChars n = (if n.negative then ['-'] else [])
        ++ Number.placed n.places n.digits ++ powerChars n.exponent := rfl
    rw [hparts, List.append_assoc, List.append_assoc]
  have hmagnitude := scanMagnitude_placed n hrest
  rw [htext]
  cases hnegative : n.negative with
  | true =>
    rw [hnegative] at hmagnitude
    exact hmagnitude
  | false =>
    rw [hnegative] at hmagnitude
    obtain ⟨whole, fraction, hwritten⟩ := Number.exists_written n.places n.digits
    obtain ⟨c, cs, hwhole⟩ := List.exists_cons_of_ne_nil hwritten.whole_ne_nil
    have hc : c.isDigit := hwritten.isDigit c (by simp [hwhole])
    rw [hwritten.placed_eq, hwhole] at hmagnitude ⊢
    exact (scan_of_isDigit hc).trans hmagnitude

/-! ## Strings -/

theorem assemble_unit {code : Nat} (hcode : code < 0xD800) (pieces : List Piece) :
    assemble (.unit code :: pieces) = (assemble pieces).map (Char.ofNat code :: ·) := by
  have hhigh : isHighSurrogate code = false := by
    simp only [isHighSurrogate, Bool.and_eq_false_iff, decide_eq_false_iff_not]
    omega
  have hlow : isLowSurrogate code = false := by
    simp only [isLowSurrogate, Bool.and_eq_false_iff, decide_eq_false_iff_not]
    omega
  cases pieces with
  | nil => simp [assemble, hhigh, hlow]
  | cons piece pieces =>
    cases piece with
    | char c => simp [assemble, hhigh, hlow]
    | unit low => simp [assemble, hhigh, hlow]

theorem hexUnit?_hexDigit :
    ∀ n < 0x20, hexUnit? '0' '0' (hexDigit (n / 16)) (hexDigit (n % 16)) = some n := by
  decide

/-- A character is escaped by a character of its own or by its number, or stands for itself. -/
theorem escape_cases (c : Char) :
    (∃ e, escape c = ['\\', e] ∧ e ≠ 'u' ∧ shortEscape? e = some c) ∨
      (c.toNat < 0x20 ∧
        escape c = ['\\', 'u', '0', '0', hexDigit (c.toNat / 16), hexDigit (c.toNat % 16)]) ∨
      (escape c = [c] ∧ 0x20 ≤ c.toNat ∧ c ≠ '"' ∧ c ≠ '\\') := by
  unfold escape
  split_ifs with hquote hslash hback hform hline hreturn htab hcontrol
  · exact Or.inl ⟨'"', rfl, by decide, by subst hquote; rfl⟩
  · exact Or.inl ⟨'\\', rfl, by decide, by subst hslash; rfl⟩
  · exact Or.inl ⟨'b', rfl, by decide, hback ▸ rfl⟩
  · exact Or.inl ⟨'f', rfl, by decide, hform ▸ rfl⟩
  · exact Or.inl ⟨'n', rfl, by decide, hline ▸ rfl⟩
  · exact Or.inl ⟨'r', rfl, by decide, hreturn ▸ rfl⟩
  · exact Or.inl ⟨'t', rfl, by decide, htab ▸ rfl⟩
  · exact Or.inr (Or.inl ⟨hcontrol, rfl⟩)
  · exact Or.inr (Or.inr ⟨rfl, Nat.le_of_not_lt hcontrol, hquote, hslash⟩)

/-- A character is scanned as one piece, which denotes it. -/
theorem exists_piece_escape (c : Char) {cs rest : List Char} {pieces : List Piece}
    (hcs : scanPieces cs = some (pieces, rest)) :
    ∃ piece, scanPieces (escape c ++ cs) = some (piece :: pieces, rest) ∧
      assemble (piece :: pieces) = (assemble pieces).map (c :: ·) := by
  rcases escape_cases c with ⟨e, he, hu, hshort⟩ | ⟨hcontrol, he⟩ | ⟨he, hplain, hquote, hslash⟩
  · refine ⟨.char c, ?_, rfl⟩
    rw [he]
    simp [scanPieces, hu, hshort, hcs]
  · refine ⟨.unit c.toNat, ?_, ?_⟩
    · rw [he]
      simp [scanPieces, hexUnit?_hexDigit _ hcontrol, hcs]
    · rw [assemble_unit (by omega), Char.ofNat_toNat]
  · refine ⟨.char c, ?_, rfl⟩
    rw [he]
    simp [scanPieces, hslash, Nat.not_lt.2 hplain, hcs]

/-- The characters of a string are put together again from the pieces that they are scanned as. -/
theorem scanPieces_flatMap_escape (cs rest : List Char) : ∃ pieces,
    scanPieces (cs.flatMap escape ++ '"' :: rest) = some (pieces, rest) ∧
      assemble pieces = some cs := by
  induction cs with
  | nil => exact ⟨[], rfl, rfl⟩
  | cons c cs ih =>
    obtain ⟨pieces, hscan, hassemble⟩ := ih
    obtain ⟨piece, hscan', hassemble'⟩ := exists_piece_escape c hscan
    refine ⟨piece :: pieces, ?_, ?_⟩
    · rw [List.flatMap_cons, List.append_assoc, hscan']
    · rw [hassemble', hassemble, Option.map_some]

/-- A string is scanned from its text, also one without a text. -/
theorem scan_quote (t : Option String) (rest : List Char) :
    Token.scan (quote t ++ rest) = some (.string t, rest) := by
  cases t with
  | none => rfl
  | some s =>
    obtain ⟨pieces, hscan, hassemble⟩ := scanPieces_flatMap_escape s.toList rest
    have htext : quote (some s) ++ rest = '"' :: (s.toList.flatMap escape ++ '"' :: rest) := by
      simp [quote]
    rw [htext]
    simp [Token.scan, scanString, hscan, hassemble]

end Json

end TraceFold
