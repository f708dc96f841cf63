/-!
LoopNest.Json.Token — the lexemes of JSON.

A text is cut into tokens, and tokens are spelled out again.  White space
between tokens is the four characters of the standard and nothing else.

Two kinds of token keep less than was written, and no more than a reader
of annotations and replies needs:

* a number is an integer when it is written as one, so `1.0`, `1e0` and
  `-0` are not; any other number is kept as its literal;
* a string is the text it denotes; one with an unpaired surrogate escape
  denotes no text (`none`).

`Token.scan` cuts, `Token.spelling` spells.
-/

namespace LoopNest.Json

/-- A number as it was written. -/
inductive Number where
  /-- an optional minus sign and digits, minus zero excepted -/
  | integer (value : Int)
  /-- any other literal -/
  | decimal (literal : List Char)
deriving DecidableEq, Repr

/-- The smallest pieces of a JSON text that mean something. -/
inductive Token where
  | openBrace
  | closeBrace
  | openBracket
  | closeBracket
  | comma
  | colon
  | null
  | bool (value : Bool)
  | number (value : Number)
  | string (text : Option String)
deriving DecidableEq, Repr

/-! ## White space and digits -/

/-- White space between tokens. -/
def isSpace (c : Char) : Bool := c == ' ' || c == '\t' || c == '\n' || c == '\r'

/-- The value of a hexadecimal digit of either case. -/
def hexValue? (c : Char) : Option Nat :=
  if c.isDigit then some (c.toNat - '0'.toNat)
  else if 'a' ≤ c ∧ c ≤ 'f' then some (c.toNat - 'a'.toNat + 10)
  else if 'A' ≤ c ∧ c ≤ 'F' then some (c.toNat - 'A'.toNat + 10)
  else none

/-- The 16-bit unit that four hexadecimal digits denote. -/
def hexUnit? (a b c d : Char) : Option Nat := do
  return (← hexValue? a) * 4096 + (← hexValue? b) * 256 + (← hexValue? c) * 16 + (← hexValue? d)

/-! ## Strings -/

/-- One element of a string literal: a character that stands for itself or
was written with a short escape, or a 16-bit unit written in hexadecimal. -/
inductive Glyph where
  | char (c : Char)
  | unit (value : Nat)
deriving DecidableEq, Repr

/-- The character that a letter denotes after a backslash. -/
def shortEscape? : Char → Option Char
  | '"' => some '"'
  | '\\' => some '\\'
  | '/' => some '/'
  | 'b' => some '\x08'
  | 'f' => some '\x0c'
  | 'n' => some '\n'
  | 'r' => some '\r'
  | 't' => some '\t'
  | _ => none

/-- The elements of a string literal up to its closing quote, and what
follows the quote.  Control characters may not stand for themselves. -/
def scanString : List Char → Option (List Glyph × List Char)
  | [] => none
  | '"' :: rest => some ([], rest)
  | '\\' :: 'u' :: a :: b :: c :: d :: rest => do
    let unit ← hexUnit? a b c d
    let (glyphs, rest) ← scanString rest
    return (.unit unit :: glyphs, rest)
  | '\\' :: e :: rest => do
    let c ← shortEscape? e
    let (glyphs, rest) ← scanString rest
    return (.char c :: glyphs, rest)
  | c :: rest =>
    if c = '\\' ∨ c.toNat < 0x20 then none
    else do
      let (glyphs, rest) ← scanString rest
      return (.char c :: glyphs, rest)

/-- Whether a unit is the first half of a pair. -/
def isHighSurrogate (u : Nat) : Bool := 0xD800 ≤ u && u ≤ 0xDBFF

/-- Whether a unit is the second half of a pair. -/
def isLowSurrogate (u : Nat) : Bool := 0xDC00 ≤ u && u ≤ 0xDFFF

/-- The text that the elements of a literal denote.  Two units written one
after the other may pair up to a character; an unpaired half denotes
nothing. -/
def joinGlyphs : List Glyph → Option (List Char)
  | [] => some []
  | .char c :: rest => (joinGlyphs rest).map (c :: ·)
  | .unit u :: .unit v :: rest =>
    if isHighSurrogate u then
      if isLowSurrogate v then
        (joinGlyphs rest).map
          (Char.ofNat (0x10000 + (u - 0xD800) * 0x400 + (v - 0xDC00)) :: ·)
      else none
    else if isLowSurrogate u then none
    else (joinGlyphs (.unit v :: rest)).map (Char.ofNat u :: ·)
  | .unit u :: rest =>
    if isHighSurrogate u || isLowSurrogate u then none
    else (joinGlyphs rest).map (Char.ofNat u :: ·)

/-! ## Numbers -/

/-- The longest run of digits at the front. -/
def spanDigits (cs : List Char) : List Char × List Char :=
  (cs.takeWhile Char.isDigit, cs.dropWhile Char.isDigit)

/-- The whole part of a number: a zero alone, or digits that do not start
with one. -/
def scanWhole : List Char → Option (List Char × List Char)
  | '0' :: rest => some (['0'], rest)
  | c :: rest =>
    if c.isDigit then some (c :: (spanDigits rest).1, (spanDigits rest).2) else none
  | [] => none

/-- The fraction of a number, with its point; empty if there is no point. -/
def scanFraction : List Char → Option (List Char × List Char)
  | '.' :: rest =>
    if (spanDigits rest).1.isEmpty then none
    else some ('.' :: (spanDigits rest).1, (spanDigits rest).2)
  | rest => some ([], rest)

/-- The sign of an exponent, if there is one. -/
def scanSign : List Char → List Char × List Char
  | '+' :: rest => (['+'], rest)
  | '-' :: rest => (['-'], rest)
  | rest => ([], rest)

/-- The exponent of a number, with its letter; empty if there is none. -/
def scanExponent : List Char → Option (List Char × List Char)
  | c :: rest =>
    if c = 'e' ∨ c = 'E' then
      let (sign, rest) := scanSign rest
      if (spanDigits rest).1.isEmpty then none
      else some (c :: sign ++ (spanDigits rest).1, (spanDigits rest).2)
    else some ([], c :: rest)
  | [] => some ([], [])

/-- A number without its sign, as whole part, fraction and exponent. -/
def scanUnsigned (cs : List Char) : Option ((List Char × List Char × List Char) × List Char) := do
  let (whole, rest) ← scanWhole cs
  let (fraction, rest) ← scanFraction rest
  let (exponent, rest) ← scanExponent rest
  return ((whole, fraction, exponent), rest)

/-- The number that a literal's parts make. -/
def Number.ofParts (negative : Bool) (whole fraction exponent : List Char) : Number :=
  let value := Nat.ofDigitChars 10 whole 0
  let literal := (if negative then ['-'] else []) ++ whole ++ fraction ++ exponent
  if fraction = [] ∧ exponent = [] then
    if negative then
      if value = 0 then .decimal literal else .integer (-(value : Int))
    else .integer value
  else .decimal literal

/-- Whether a number starts with a minus sign, and what follows it. -/
def scanMinus : List Char → Bool × List Char
  | '-' :: rest => (true, rest)
  | rest => (false, rest)

/-- The number at the front of a text. -/
def scanNumber (cs : List Char) : Option (Number × List Char) := do
  let ((whole, fraction, exponent), rest) ← scanUnsigned (scanMinus cs).2
  return (.ofParts (scanMinus cs).1 whole fraction exponent, rest)

/-! ## Tokens -/

/-- Drop a word from the front of a text. -/
def dropWord : List Char → List Char → Option (List Char)
  | [], rest => some rest
  | w :: word, c :: rest => if w = c then dropWord word rest else none
  | _ :: _, [] => none

namespace Token

/-- The tokens of one character. -/
def punctuation? : Char → Option Token
  | '\x7b' => some .openBrace
  | '\x7d' => some .closeBrace
  | '[' => some .openBracket
  | ']' => some .closeBracket
  | ',' => some .comma
  | ':' => some .colon
  | _ => none

/-- The tokens that are words, by their first letter, with their other
letters. -/
def keyword? : Char → Option (Token × List Char)
  | 'n' => some (.null, ['u', 'l', 'l'])
  | 't' => some (.bool true, ['r', 'u', 'e'])
  | 'f' => some (.bool false, ['a', 'l', 's', 'e'])
  | _ => none

/-- The token that starts with the character `c`, and what follows it. -/
def next (c : Char) (rest : List Char) : Option (Token × List Char) :=
  match punctuation? c, keyword? c with
  | some token, _ => some (token, rest)
  | none, some (token, word) => (dropWord word rest).map (token, ·)
  | none, none =>
    if c = '"' then
      (scanString rest).map fun r => (.string ((joinGlyphs r.1).map String.ofList), r.2)
    else (scanNumber (c :: rest)).map fun r => (.number r.1, r.2)

theorem length_dropWord {word cs rest : List Char} (h : dropWord word cs = some rest) :
    rest.length ≤ cs.length := by
  induction word generalizing cs with
  | nil => simp only [dropWord, Option.some.injEq] at h; simp [h]
  | cons w word ih =>
    cases cs with
    | nil => simp [dropWord] at h
    | cons c cs =>
      simp only [dropWord] at h
      split at h
      · exact Nat.le_succ_of_le (ih h)
      · cases h

end Token

theorem length_scanString {cs rest : List Char} {glyphs : List Glyph}
    (h : scanString cs = some (glyphs, rest)) : rest.length < cs.length := by
  fun_induction scanString cs generalizing glyphs rest with
  | case1 => cases h
  | case2 rest' =>
    simp only [Option.some.injEq, Prod.mk.injEq] at h
    simp [h.2]
  | case3 a b c d rest' ih =>
    simp only [Option.bind_eq_bind, Option.bind_eq_some_iff, Option.pure_def, Option.some.injEq,
      Prod.mk.injEq, Prod.exists] at h
    obtain ⟨u, -, g, r, hr, -, rfl⟩ := h
    have := ih hr
    simp only [List.length_cons]
    omega
  | case4 e rest' _ ih =>
    simp only [Option.bind_eq_bind, Option.bind_eq_some_iff, Option.pure_def, Option.some.injEq,
      Prod.mk.injEq, Prod.exists] at h
    obtain ⟨u, -, g, r, hr, -, rfl⟩ := h
    have := ih hr
    simp only [List.length_cons]
    omega
  | case5 => cases h
  | case6 c rest' _ _ _ _ ih =>
    simp only [Option.bind_eq_bind, Option.bind_eq_some_iff, Option.pure_def, Option.some.injEq,
      Prod.mk.injEq, Prod.exists] at h
    obtain ⟨g, r, hr, -, rfl⟩ := h
    have := ih hr
    simp only [List.length_cons]
    omega

theorem length_spanDigits (cs : List Char) : (spanDigits cs).2.length ≤ cs.length :=
  (List.dropWhile_suffix _).length_le

theorem length_scanWhole {cs whole rest : List Char} (h : scanWhole cs = some (whole, rest)) :
    rest.length < cs.length := by
  unfold scanWhole at h
  split at h
  · simp only [Option.some.injEq, Prod.mk.injEq] at h
    simp [h.2]
  · next c cs _ =>
    split at h
    · simp only [Option.some.injEq, Prod.mk.injEq] at h
      have := length_spanDigits cs
      simp only [List.length_cons, ← h.2]
      omega
    · cases h
  · cases h

theorem length_scanFraction {cs fraction rest : List Char}
    (h : scanFraction cs = some (fraction, rest)) : rest.length ≤ cs.length := by
  unfold scanFraction at h
  split at h
  · next cs =>
    split at h
    · cases h
    · simp only [Option.some.injEq, Prod.mk.injEq] at h
      have := length_spanDigits cs
      simp only [List.length_cons, ← h.2]
      omega
  · simp only [Option.some.injEq, Prod.mk.injEq] at h
    simp [h.2]

theorem length_scanSign (cs : List Char) : (scanSign cs).2.length ≤ cs.length := by
  unfold scanSign
  split <;> simp

theorem length_scanExponent {cs exponent rest : List Char}
    (h : scanExponent cs = some (exponent, rest)) : rest.length ≤ cs.length := by
  unfold scanExponent at h
  split at h
  · next c cs =>
    split at h
    · simp only at h
      split at h
      · cases h
      · simp only [Option.some.injEq, Prod.mk.injEq] at h
        have h1 := length_spanDigits (scanSign cs).2
        have h2 := length_scanSign cs
        simp only [List.length_cons, ← h.2]
        omega
    · simp only [Option.some.injEq, Prod.mk.injEq] at h
      simp [← h.2]
  · simp only [Option.some.injEq, Prod.mk.injEq] at h
    simp [← h.2]

theorem length_scanUnsigned {cs rest : List Char} {parts : List Char × List Char × List Char}
    (h : scanUnsigned cs = some (parts, rest)) : rest.length < cs.length := by
  simp only [scanUnsigned, Option.bind_eq_bind, Option.bind_eq_some_iff, Option.pure_def,
    Option.some.injEq, Prod.mk.injEq, Prod.exists] at h
  obtain ⟨w, r1, h1, f, r2, h2, e, r3, h3, -, rfl⟩ := h
  have := length_scanWhole h1
  have := length_scanFraction h2
  have := length_scanExponent h3
  omega

theorem length_scanMinus (cs : List Char) : (scanMinus cs).2.length ≤ cs.length := by
  unfold scanMinus
  split <;> simp

theorem length_scanNumber {cs rest : List Char} {n : Number}
    (h : scanNumber cs = some (n, rest)) : rest.length < cs.length := by
  simp only [scanNumber, Option.bind_eq_bind, Option.bind_eq_some_iff, Option.pure_def,
    Option.some.injEq, Prod.mk.injEq, Prod.exists] at h
  obtain ⟨w, f, e, r, h1, -, rfl⟩ := h
  have := length_scanUnsigned h1
  have := length_scanMinus cs
  omega

namespace Token

/-- A token takes up at least the character that it starts with. -/
theorem length_next {c : Char} {rest left : List Char} {t : Token}
    (h : next c rest = some (t, left)) : left.length ≤ rest.length := by
  unfold next at h
  split at h
  · simp only [Option.some.injEq, Prod.mk.injEq] at h
    simp [h.2]
  · simp only [Option.map_eq_some_iff, Prod.mk.injEq] at h
    obtain ⟨r, hr, -, rfl⟩ := h
    exact length_dropWord hr
  · split at h
    · simp only [Option.map_eq_some_iff, Prod.mk.injEq] at h
      obtain ⟨r, hr, -, rfl⟩ := h
      exact Nat.le_of_lt (length_scanString hr)
    · simp only [Option.map_eq_some_iff, Prod.mk.injEq] at h
      obtain ⟨r, hr, -, rfl⟩ := h
      have := length_scanNumber hr
      simp only [List.length_cons] at this
      omega

/-- Cut a text into tokens; `none` when some part of it is no token. -/
def scan : List Char → Option (List Token)
  | [] => some []
  | c :: rest =>
    if isSpace c then scan rest
    else
      match _h : next c rest with
      | none => none
      | some (token, left) => (scan left).map (token :: ·)
termination_by cs => cs.length
decreasing_by
  · simp
  · have := length_next _h
    simp only [List.length_cons]
    omega

end Token

end LoopNest.Json
