/-
  TraceFold.Json.Token

  The tokens of JSON text.  `Token.scan` takes one token off the front of a text that
  starts with none of the four blanks; what it leaves is shorter than what it got.
  The body of a string is scanned into pieces first, so that the shape of the escapes
  is checked apart from what they denote.
-/

import TraceFold.Json.Basic

namespace TraceFold.Json

/-- The blanks that may stand between tokens. -/
def isSpace (c : Char) : Bool :=
  c == ' ' || c == '\t' || c == '\n' || c == '\r'

inductive Token where
  | openBracket
  | closeBracket
  | openBrace
  | closeBrace
  | comma
  | colon
  | null
  | bool (value : Bool)
  | number (value : Numeral)
  | string (text : Option String)
  deriving DecidableEq, Repr

/-! ## Strings -/

/-- A piece of a string: a character, or a UTF-16 code unit given by its number. -/
inductive Piece where
  | char (c : Char)
  | unit (code : Nat)
  deriving DecidableEq, Repr

/-- The value of a hexadecimal digit, in either case. -/
def hexValue? (c : Char) : Option Nat :=
  if c.isDigit then some (c.toNat - '0'.toNat)
  else if 'a' ≤ c && c ≤ 'f' then some (c.toNat - 'a'.toNat + 10)
  else if 'A' ≤ c && c ≤ 'F' then some (c.toNat - 'A'.toNat + 10)
  else none

def hexUnit? (a b c d : Char) : Option Nat := do
  let a ← hexValue? a
  let b ← hexValue? b
  let c ← hexValue? c
  let d ← hexValue? d
  pure (((a * 16 + b) * 16 + c) * 16 + d)

/-- The character that a backslash and a single character stand for. -/
def shortEscape? : Char → Option Char
  | '"' => some '"'
  | '\\' => some '\\'
  | '/' => some '/'
  | 'b' => some '\x08'
  | 'f' => some '\x0c'
  | 'n' => some '\n'
  | 'r' => some '\r'
  | 't' => some '\t'
  | _ => none

/-- The pieces of a string up to its closing quote, and the text after it. -/
def scanPieces : List Char → Option (List Piece × List Char)
  | [] => none
  | '"' :: rest => some ([], rest)
  | '\\' :: 'u' :: a :: b :: c :: d :: rest => do
    let code ← hexUnit? a b c d
    let (pieces, rest) ← scanPieces rest
    pure (.unit code :: pieces, rest)
  | '\\' :: e :: rest => do
    let c ← shortEscape? e
    let (pieces, rest) ← scanPieces rest
    pure (.char c :: pieces, rest)
  | c :: rest =>
    if c.toNat < 0x20 || c == '\\' then none
    else do
      let (pieces, rest) ← scanPieces rest
      pure (.char c :: pieces, rest)

def isHighSurrogate (code : Nat) : Bool :=
  0xD800 ≤ code && code ≤ 0xDBFF

def isLowSurrogate (code : Nat) : Bool :=
  0xDC00 ≤ code && code ≤ 0xDFFF

/-- The text that pieces denote.  Units that form a surrogate pair denote one
    character; half of a pair denotes none. -/
def assemble : List Piece → Option (List Char)
  | [] => some []
  | .char c :: rest => (assemble rest).map (c :: ·)
  | .unit high :: .unit low :: rest =>
    if isHighSurrogate high && isLowSurrogate low then
      (assemble rest).map
        (Char.ofNat ((high - 0xD800) * 0x400 + (low - 0xDC00) + 0x10000) :: ·)
    else if isHighSurrogate high || isLowSurrogate high then none
    else (assemble (.unit low :: rest)).map (Char.ofNat high :: ·)
  | .unit code :: rest =>
    if isHighSurrogate code || isLowSurrogate code then none
    else (assemble rest).map (Char.ofNat code :: ·)

/-- The string behind an opening quote. -/
def scanString (cs : List Char) : Option (Token × List Char) := do
  let (pieces, rest) ← scanPieces cs
  pure (.string ((assemble pieces).map String.ofList), rest)

/-! ## Numbers -/

/-- The digits at the front of a text and what follows them; at least one digit. -/
def scanDigits (cs : List Char) : Option (List Char × List Char) :=
  let run := cs.takeWhile Char.isDigit
  if run.isEmpty then none else some (run, cs.dropWhile Char.isDigit)

/-- The digits behind a point, none if no point is there. -/
def scanFraction : List Char → Option (List Char × List Char)
  | '.' :: cs => scanDigits cs
  | cs => some ([], cs)

/-- The digits of an exponent under their sign. -/
def scanSignedDigits : List Char → Option (Int × List Char)
  | '-' :: cs => (scanDigits cs).map fun (run, rest) => (-(Nat.ofDigitChars 10 run 0 : Int), rest)
  | '+' :: cs => (scanDigits cs).map fun (run, rest) => ((Nat.ofDigitChars 10 run 0 : Int), rest)
  | cs => (scanDigits cs).map fun (run, rest) => ((Nat.ofDigitChars 10 run 0 : Int), rest)

/-- The exponent, absent if no exponent mark is there. -/
def scanExponent : List Char → Option (Option Int × List Char)
  | 'e' :: cs => (scanSignedDigits cs).map fun (e, rest) => (some e, rest)
  | 'E' :: cs => (scanSignedDigits cs).map fun (e, rest) => (some e, rest)
  | cs => some (none, cs)

/-- A number without its sign.  Its integer part has no leading zero. -/
def scanMagnitude (negative : Bool) (cs : List Char) : Option (Token × List Char) := do
  let (whole, rest) ← scanDigits cs
  if whole.head? = some '0' && whole.length != 1 then none
  else
    let (fraction, rest) ← scanFraction rest
    let (exponent, rest) ← scanExponent rest
    pure (.number {
      negative
      digits := Nat.ofDigitChars 10 (whole ++ fraction) 0
      places := fraction.length
      exponent }, rest)

def Token.scan : List Char → Option (Token × List Char)
  | '[' :: rest => some (.openBracket, rest)
  | ']' :: rest => some (.closeBracket, rest)
  | '\x7b' :: rest => some (.openBrace, rest)
  | '\x7d' :: rest => some (.closeBrace, rest)
  | ',' :: rest => some (.comma, rest)
  | ':' :: rest => some (.colon, rest)
  | '"' :: rest => scanString rest
  | 'n' :: 'u' :: 'l' :: 'l' :: rest => some (.null, rest)
  | 't' :: 'r' :: 'u' :: 'e' :: rest => some (.bool true, rest)
  | 'f' :: 'a' :: 'l' :: 's' :: 'e' :: rest => some (.bool false, rest)
  | '-' :: rest => scanMagnitude true rest
  | cs => scanMagnitude false cs

/-! ## What is left is shorter -/

/-- A string takes at least its closing quote. -/
theorem scanPieces_length {cs rest : List Char} {pieces : List Piece}
    (h : scanPieces cs = some (pieces, rest)) : rest.length < cs.length := by
  fun_induction scanPieces cs generalizing pieces rest with
  | case1 => simp at h
  | case2 cs => grind
  | case3 a b c d cs ih =>
    simp only [Option.bind_eq_bind, Option.bind_eq_some_iff] at h
    obtain ⟨code, -, ⟨ps, r⟩, hps, h⟩ := h
    have := ih hps
    cases h
    simp only [List.length_cons]
    omega
  | case4 e cs h1 ih =>
    simp only [Option.bind_eq_bind, Option.bind_eq_some_iff] at h
    obtain ⟨c, -, ⟨ps, r⟩, hps, h⟩ := h
    have := ih hps
    cases h
    simp only [List.length_cons]
    omega
  | case5 c cs hc h1 h2 h3 => simp at h
  | case6 c cs hc h1 h2 h3 ih =>
    simp only [Option.bind_eq_bind, Option.bind_eq_some_iff] at h
    obtain ⟨⟨ps, r⟩, hps, h⟩ := h
    have := ih hps
    cases h
    simp only [List.length_cons]
    omega

/-- A run of digits takes at least one. -/
theorem scanDigits_length {cs run rest : List Char} (h : scanDigits cs = some (run, rest)) :
    rest.length < cs.length := by
  have hlen := congrArg List.length (List.takeWhile_append_dropWhile (p := Char.isDigit) (l := cs))
  simp only [scanDigits] at h
  split at h
  · simp at h
  · next hne =>
    simp only [Option.some.injEq, Prod.mk.injEq] at h
    rw [List.length_append, h.1, h.2] at hlen
    rw [h.1, List.isEmpty_iff, ← List.length_eq_zero_iff] at hne
    omega

/-- The digits behind a point may be missing, and take nothing then. -/
theorem scanFraction_length {cs run rest : List Char} (h : scanFraction cs = some (run, rest)) :
    rest.length ≤ cs.length := by
  unfold scanFraction at h
  split at h
  · next cs => have := scanDigits_length h; grind
  · grind

theorem scanSignedDigits_length {cs rest : List Char} {e : Int}
    (h : scanSignedDigits cs = some (e, rest)) : rest.length < cs.length := by
  unfold scanSignedDigits at h
  split at h <;>
    (obtain ⟨⟨run, rest'⟩, hd, he⟩ := Option.map_eq_some_iff.1 h
     have := scanDigits_length hd
     grind)

theorem scanExponent_length {cs rest : List Char} {e : Option Int}
    (h : scanExponent cs = some (e, rest)) : rest.length ≤ cs.length := by
  unfold scanExponent at h
  split at h
  · obtain ⟨⟨e', rest'⟩, hd, he⟩ := Option.map_eq_some_iff.1 h
    have := scanSignedDigits_length hd
    grind
  · obtain ⟨⟨e', rest'⟩, hd, he⟩ := Option.map_eq_some_iff.1 h
    have := scanSignedDigits_length hd
    grind
  · grind

theorem scanMagnitude_length {negative : Bool} {cs rest : List Char} {t : Token}
    (h : scanMagnitude negative cs = some (t, rest)) : rest.length < cs.length := by
  simp only [scanMagnitude, Option.bind_eq_bind, Option.bind_eq_some_iff] at h
  obtain ⟨⟨whole, r1⟩, h1, h⟩ := h
  split at h
  · simp at h
  · simp only [Option.bind_eq_some_iff] at h
    obtain ⟨⟨fraction, r2⟩, h2, ⟨exponent, r3⟩, h3, h4⟩ := h
    have l1 := scanDigits_length h1
    have l2 := scanFraction_length h2
    have l3 := scanExponent_length h3
    simp at h4
    grind

/-- Every token takes at least one character, so the reading comes to an end. -/
theorem Token.scan_length {cs rest : List Char} {t : Token} (h : Token.scan cs = some (t, rest)) :
    rest.length < cs.length := by
  unfold Token.scan at h
  split at h
  case h_7 =>
    simp only [scanString, Option.bind_eq_bind, Option.bind_eq_some_iff] at h
    obtain ⟨⟨pieces, r⟩, h1, h2⟩ := h
    have := scanPieces_length h1
    simp at h2
    grind
  case h_11 => have := scanMagnitude_length h; grind
  case h_12 => exact scanMagnitude_length h
  all_goals grind

end TraceFold.Json
