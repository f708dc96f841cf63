import LoopNest.Json.Value
import Mathlib.Data.List.Chain

/-!
LoopNest.Proofs.Json.Lexemes — however a token is written, it is cut off again.

The grammar leaves a writer some choice.  A character of a string may stand
for itself or be escaped, a number may have a fraction and an exponent, and
white space may stand around any token (`Token.Spells`, `Written`).  The
reader has to see by itself where a token ends, and does, with one condition.
A number must not be followed by a character that would continue it
(`continuesNumber`), and neither white space nor any token but another number
starts with one.

* `scanString_spellsAll`, `scanNumber_spells` — a string and a number;
* `Token.scan_spells` — a token, whatever follows;
* `Token.scan_written` — a whole text, numbers apart;
* `Token.spells_spelling`, `written_spellings` — the one spelling that is
  used for writing is among those that are read.
-/

namespace LoopNest.Json

/-! ## The grammar -/

/-- The ways to write one element of a string. -/
inductive Glyph.Spells : Glyph → List Char → Prop
  /-- a character as it is -/
  | self {c : Char} (hquote : c ≠ '"') (hback : c ≠ '\\') (hc : 0x20 ≤ c.toNat) :
    Spells (.char c) [c]
  /-- a backslash and a letter -/
  | short {letter c : Char} (h : shortEscape? letter = some c) : Spells (.char c) ['\\', letter]
  /-- a unit in hexadecimal -/
  | unit {a b c d : Char} {u : Nat} (h : hexUnit? a b c d = some u) :
    Spells (.unit u) ['\\', 'u', a, b, c, d]

/-- The ways to write the elements of a string one after the other. -/
inductive Glyph.SpellsAll : List Glyph → List Char → Prop
  | nil : SpellsAll [] []
  | cons {glyph : Glyph} {glyphs : List Glyph} {piece body : List Char}
      (hglyph : glyph.Spells piece) (hglyphs : SpellsAll glyphs body) :
    SpellsAll (glyph :: glyphs) (piece ++ body)

/-- A whole part of a number: a zero alone, or digits that do not start with
one. -/
inductive IsWhole : List Char → Prop
  | zero : IsWhole ['0']
  | digits {c : Char} {more : List Char} (hc : c.isDigit = true) (hzero : c ≠ '0')
      (hmore : ∀ d ∈ more, d.isDigit = true) : IsWhole (c :: more)

/-- A fraction of a number: none, or a point and digits. -/
inductive IsFraction : List Char → Prop
  | absent : IsFraction []
  | digits {c : Char} {more : List Char} (hdigits : ∀ d ∈ c :: more, d.isDigit = true) :
    IsFraction ('.' :: c :: more)

/-- An exponent of a number: none, or a letter, possibly a sign, and digits. -/
inductive IsExponent : List Char → Prop
  | absent : IsExponent []
  | digits {letter c : Char} {sign more : List Char} (hletter : letter = 'e' ∨ letter = 'E')
      (hsign : sign = [] ∨ sign = ['+'] ∨ sign = ['-'])
      (hdigits : ∀ d ∈ c :: more, d.isDigit = true) :
    IsExponent (letter :: (sign ++ c :: more))

/-- The ways to write a number. -/
inductive Number.Spells : Number → List Char → Prop
  | parts (negative : Bool) {whole fraction exponent : List Char} (hwhole : IsWhole whole)
      (hfraction : IsFraction fraction) (hexponent : IsExponent exponent) :
    Spells (.ofParts negative whole fraction exponent)
      ((if negative then ['-'] else []) ++ (whole ++ (fraction ++ exponent)))

namespace Token

/-- Whether a token is a number. -/
def isNumber : Token → Bool
  | .number _ => true
  | _ => false

/-- Whether there is only one way to write a token. -/
def Fixed : Token → Prop
  | .number _ | .string _ => False
  | _ => True

/-- The ways to write a token. -/
inductive Spells : Token → List Char → Prop
  | fixed {t : Token} (ht : t.Fixed) : Spells t t.spelling
  | number {n : Number} {piece : List Char} (hn : n.Spells piece) : Spells (.number n) piece
  | string {glyphs : List Glyph} {body : List Char} (hbody : Glyph.SpellsAll glyphs body) :
    Spells (.string ((joinGlyphs glyphs).map String.ofList)) ('"' :: (body ++ ['"']))

end Token

/-- The ways to write tokens one after the other, with any white space before,
between and after them. -/
inductive Written : List Token → List Char → Prop
  | done {blank : List Char} (hblank : ∀ c ∈ blank, isSpace c = true) : Written [] blank
  | token {t : Token} {tokens : List Token} {blank piece rest : List Char}
      (hblank : ∀ c ∈ blank, isSpace c = true) (hpiece : t.Spells piece)
      (hrest : Written tokens rest) : Written (t :: tokens) (blank ++ (piece ++ rest))

/-! ## Strings -/

theorem scanString_short {letter c : Char} (h : shortEscape? letter = some c) (rest : List Char) :
    scanString ('\\' :: letter :: rest)
      = (scanString rest).map fun r => (.char c :: r.1, r.2) := by
  have hu : letter ≠ 'u' := by
    rintro rfl
    cases h
  have hnotUnit : ∀ a b c d more, letter = 'u' → rest = a :: b :: c :: d :: more → False :=
    fun _ _ _ _ _ e _ => hu e
  rw [scanString, h]
  · cases scanString rest <;> rfl
  · exact hnotUnit

theorem scanString_unit {a b c d : Char} {u : Nat} (h : hexUnit? a b c d = some u)
    (rest : List Char) : scanString ('\\' :: 'u' :: a :: b :: c :: d :: rest)
      = (scanString rest).map fun r => (.unit u :: r.1, r.2) := by
  rw [scanString, h]
  cases scanString rest <;> rfl

theorem scanString_self {c : Char} (hquote : c ≠ '"') (hback : c ≠ '\\') (hc : 0x20 ≤ c.toNat)
    (rest : List Char) :
    scanString (c :: rest) = (scanString rest).map fun r => (.char c :: r.1, r.2) := by
  rw [scanString.eq_def]
  simp only [hback, Nat.not_lt.2 hc, false_implies, implies_true, or_self, if_false,
    Option.bind_eq_bind]
  cases scanString rest <;> rfl

theorem scanString_spells {glyph : Glyph} {piece : List Char} (h : glyph.Spells piece)
    (rest : List Char) :
    scanString (piece ++ rest) = (scanString rest).map fun r => (glyph :: r.1, r.2) := by
  cases h with
  | self hquote hback hc => exact scanString_self hquote hback hc rest
  | short h => exact scanString_short h rest
  | unit h => exact scanString_unit h rest

/-- A string ends at the first quote that is no part of an element. -/
theorem scanString_spellsAll {glyphs : List Glyph} {body : List Char}
    (h : Glyph.SpellsAll glyphs body) (rest : List Char) :
    scanString (body ++ '"' :: rest) = some (glyphs, rest) := by
  induction h with
  | nil => rfl
  | cons hglyph _ ih =>
    rw [List.append_assoc, scanString_spells hglyph, ih]
    rfl

/-! ## Numbers -/

/-- Whether a number would take in a character that follows its digits. -/
def continuesNumber (c : Char) : Bool := c.isDigit || c == '.' || c == 'e' || c == 'E'

theorem spanDigits_append {digits rest : List Char} (h : ∀ c ∈ digits, c.isDigit = true)
    (hrest : ∀ c ∈ rest.head?, c.isDigit = false) :
    spanDigits (digits ++ rest) = (digits, rest) := by
  have hnone : rest.takeWhile Char.isDigit = [] ∧ rest.dropWhile Char.isDigit = rest := by
    cases rest with
    | nil => exact ⟨rfl, rfl⟩
    | cons c rest => simp [hrest c rfl]
  rw [spanDigits, List.takeWhile_append_of_pos h, List.dropWhile_append_of_pos h, hnone.1,
    hnone.2, List.append_nil]

theorem IsWhole.scan {whole rest : List Char} (h : IsWhole whole)
    (hrest : ∀ c ∈ rest.head?, c.isDigit = false) :
    scanWhole (whole ++ rest) = some (whole, rest) := by
  cases h with
  | zero => rfl
  | digits hc hzero hmore =>
    rw [List.cons_append, scanWhole.eq_def]
    split
    · next heq =>
      cases heq
      exact absurd rfl hzero
    · next heq =>
      cases heq
      rw [if_pos hc, spanDigits_append hmore hrest]
    · next heq => cases heq

theorem IsFraction.scan {fraction rest : List Char} (h : IsFraction fraction)
    (hrest : ∀ c ∈ rest.head?, c.isDigit = false ∧ c ≠ '.') :
    scanFraction (fraction ++ rest) = some (fraction, rest) := by
  cases h with
  | absent =>
    rw [List.nil_append, scanFraction.eq_def]
    split
    · next digits => exact absurd rfl (hrest '.' rfl).2
    · rfl
  | digits hdigits =>
    rw [List.cons_append, scanFraction, spanDigits_append hdigits fun c hc => (hrest c hc).1]
    rfl

theorem scanSign_append {sign rest : List Char} (h : sign = [] ∨ sign = ['+'] ∨ sign = ['-'])
    (hrest : ∀ c ∈ rest.head?, c.isDigit = true) : scanSign (sign ++ rest) = (sign, rest) := by
  rcases h with rfl | rfl | rfl
  · rw [List.nil_append, scanSign.eq_def]
    split
    · exact absurd (hrest '+' rfl) (by decide)
    · exact absurd (hrest '-' rfl) (by decide)
    · rfl
  · rfl
  · rfl

theorem IsExponent.scan {exponent rest : List Char} (h : IsExponent exponent)
    (hrest : ∀ c ∈ rest.head?, continuesNumber c = false) :
    scanExponent (exponent ++ rest) = some (exponent, rest) := by
  simp only [continuesNumber, Bool.or_eq_false_iff, beq_eq_false_iff_ne] at hrest
  cases h with
  | absent =>
    cases rest with
    | nil => rfl
    | cons c rest =>
      obtain ⟨⟨-, he⟩, hE⟩ := hrest c rfl
      rw [List.nil_append, scanExponent, if_neg (not_or.2 ⟨he, hE⟩)]
  | @digits letter c sign more hletter hsign hdigits =>
    have hsplit : scanSign (sign ++ (c :: more ++ rest)) = (sign, c :: more ++ rest) := by
      refine scanSign_append hsign fun d hd => ?_
      cases hd
      exact hdigits c (List.mem_cons_self ..)
    have hspan := spanDigits_append hdigits fun c hc => (hrest c hc).1.1.1
    rw [List.cons_append, List.append_assoc, scanExponent, if_pos hletter, hsplit]
    simp only [hspan]
    rfl

/-- What follows the whole part does not continue it. -/
theorem IsFraction.head {fraction rest : List Char} (h : IsFraction fraction)
    (hrest : ∀ c ∈ rest.head?, c.isDigit = false) :
    ∀ c ∈ (fraction ++ rest).head?, c.isDigit = false := by
  cases h with
  | absent => exact hrest
  | digits _ =>
    intro c hc
    cases hc
    rfl

/-- What follows the fraction does not continue it. -/
theorem IsExponent.head {exponent rest : List Char} (h : IsExponent exponent)
    (hrest : ∀ c ∈ rest.head?, continuesNumber c = false) :
    ∀ c ∈ (exponent ++ rest).head?, c.isDigit = false ∧ c ≠ '.' := by
  cases h with
  | absent =>
    intro c hc
    have hstop := hrest c hc
    simp only [continuesNumber, Bool.or_eq_false_iff, beq_eq_false_iff_ne] at hstop
    exact hstop.1.1
  | digits hletter _ _ =>
    intro c hc
    cases hc
    rcases hletter with rfl | rfl <;> decide

theorem scanUnsigned_parts {whole fraction exponent rest : List Char} (hwhole : IsWhole whole)
    (hfraction : IsFraction fraction) (hexponent : IsExponent exponent)
    (hrest : ∀ c ∈ rest.head?, continuesNumber c = false) :
    scanUnsigned (whole ++ (fraction ++ (exponent ++ rest)))
      = some ((whole, fraction, exponent), rest) := by
  have hend := hexponent.head hrest
  rw [scanUnsigned, hwhole.scan (hfraction.head fun c hc => (hend c hc).1)]
  simp only [Option.bind_eq_bind, Option.bind_some]
  rw [hfraction.scan hend]
  simp only [Option.bind_some]
  rw [hexponent.scan hrest]
  rfl

theorem IsWhole.exists_cons {whole : List Char} (h : IsWhole whole) :
    ∃ c more, whole = c :: more ∧ c.isDigit = true := by
  cases h with
  | zero => exact ⟨'0', [], rfl, by decide⟩
  | digits hc _ _ => exact ⟨_, _, rfl, hc⟩

theorem scanMinus_append (negative : Bool) {whole : List Char} (hwhole : IsWhole whole)
    (rest : List Char) :
    scanMinus ((if negative then ['-'] else []) ++ (whole ++ rest)) = (negative, whole ++ rest) := by
  cases negative with
  | true => rfl
  | false =>
    obtain ⟨c, more, rfl, hc⟩ := hwhole.exists_cons
    rw [if_neg Bool.false_ne_true, List.nil_append, scanMinus.eq_def]
    split
    · next heq =>
      cases heq
      cases hc
    · rfl

/-- A number is cut off where nothing continues it. -/
theorem scanNumber_spells {n : Number} {piece rest : List Char} (h : n.Spells piece)
    (hrest : ∀ c ∈ rest.head?, continuesNumber c = false) :
    scanNumber (piece ++ rest) = some (n, rest) := by
  cases h with
  | parts negative hwhole hfraction hexponent =>
    simp only [List.append_assoc]
    rw [scanNumber, scanMinus_append negative hwhole,
      scanUnsigned_parts hwhole hfraction hexponent hrest]
    rfl

/-- A number starts with a minus sign or a digit. -/
theorem Number.Spells.exists_cons {n : Number} {piece : List Char} (h : n.Spells piece) :
    ∃ c more, piece = c :: more ∧ (c.isDigit = true ∨ c = '-') := by
  cases h with
  | parts negative hwhole _ _ =>
    cases negative with
    | true => exact ⟨'-', _, rfl, Or.inr rfl⟩
    | false =>
      obtain ⟨c, more, rfl, hc⟩ := hwhole.exists_cons
      exact ⟨c, _, rfl, Or.inl hc⟩

/-! ## Tokens -/

namespace Token

theorem scan_of_next {c : Char} {rest left : List Char} {t : Token} (hc : isSpace c = false)
    (h : next c rest = some (t, left)) : scan (c :: rest) = (scan left).map (t :: ·) := by
  rw [scan.eq_def]
  simp only [hc, Bool.false_eq_true, if_false]
  split
  · next hnone => rw [h] at hnone; cases hnone
  · next heq =>
    rw [h] at heq
    cases heq
    rfl

theorem next_string (rest : List Char) : next '"' rest
    = (scanString rest).map fun r => (.string ((joinGlyphs r.1).map String.ofList), r.2) := rfl

/-- A digit or a minus sign starts a number and nothing else. -/
theorem next_number {c : Char} (hc : c.isDigit = true ∨ c = '-') (rest : List Char) :
    next c rest = (scanNumber (c :: rest)).map fun r => (.number r.1, r.2) := by
  have hpunctuation : punctuation? c = none := by
    rw [punctuation?.eq_def]
    split <;> first | exact absurd hc (by decide) | rfl
  have hkeyword : keyword? c = none := by
    rw [keyword?.eq_def]
    split <;> first | exact absurd hc (by decide) | rfl
  have hquote : c ≠ '"' := by
    rintro rfl
    exact absurd hc (by decide)
  rw [next, hpunctuation, hkeyword]
  simp only [if_neg hquote]

theorem isSpace_eq_false {c : Char} (hc : c.isDigit = true ∨ c = '-') : isSpace c = false := by
  simp only [isSpace, Bool.or_eq_false_iff, beq_eq_false_iff_ne]
  refine ⟨⟨⟨?_, ?_⟩, ?_⟩, ?_⟩ <;> rintro rfl <;> exact absurd hc (by decide)

theorem scan_fixed {t : Token} (ht : t.Fixed) (rest : List Char) :
    scan (t.spelling ++ rest) = (scan rest).map (t :: ·) := by
  cases t with
  | number n => exact ht.elim
  | string text => exact ht.elim
  | bool b => cases b <;> exact scan_of_next rfl rfl
  | _ => exact scan_of_next rfl rfl

/-- A token is cut off from what follows. -/
theorem scan_spells {t : Token} {piece rest : List Char} (h : t.Spells piece)
    (hrest : t.isNumber = true → ∀ c ∈ rest.head?, continuesNumber c = false) :
    scan (piece ++ rest) = (scan rest).map (t :: ·) := by
  cases h with
  | fixed ht => exact scan_fixed ht rest
  | number hn =>
    have hscan := scanNumber_spells hn (hrest rfl)
    obtain ⟨c, more, rfl, hc⟩ := hn.exists_cons
    rw [List.cons_append] at hscan ⊢
    refine scan_of_next (isSpace_eq_false hc) ?_
    rw [next_number hc, hscan]
    rfl
  | string hbody =>
    rw [List.cons_append, List.append_assoc]
    refine scan_of_next rfl ?_
    rw [next_string, List.singleton_append, scanString_spellsAll hbody]
    rfl

/-- Only numbers start with a character that continues one. -/
theorem Spells.exists_cons {t : Token} {piece : List Char} (h : t.Spells piece)
    (ht : t.isNumber = false) : ∃ c more, piece = c :: more ∧ continuesNumber c = false := by
  cases h with
  | fixed hfixed =>
    cases t with
    | number n => cases ht
    | string text => exact hfixed.elim
    | bool b => cases b <;> exact ⟨_, _, rfl, by decide⟩
    | _ => exact ⟨_, _, rfl, by decide⟩
  | number hn => cases ht
  | string hbody => exact ⟨_, _, rfl, by decide⟩

/-- Two tokens that are not both numbers. -/
def Apart (t u : Token) : Prop := t.isNumber = true → u.isNumber = false

end Token

/-! ## Texts -/

theorem continuesNumber_of_isSpace {c : Char} (h : isSpace c = true) :
    continuesNumber c = false := by
  simp only [isSpace, Bool.or_eq_true, beq_iff_eq] at h
  rcases h with ((rfl | rfl) | rfl) | rfl <;> decide

theorem scan_blank : ∀ {blank : List Char}, (∀ c ∈ blank, isSpace c = true) →
    ∀ rest : List Char, Token.scan (blank ++ rest) = Token.scan rest
  | [], _, rest => rfl
  | c :: blank, h, rest => by
      rw [List.cons_append, Token.scan.eq_def]
      simp only [h c (List.mem_cons_self ..), if_true]
      exact scan_blank (fun d hd => h d (List.mem_cons_of_mem c hd)) rest

/-- A text that does not start with a number does not continue one. -/
theorem Written.head {tokens : List Token} {text : List Char} (h : Written tokens text)
    (hfirst : ∀ t ∈ tokens.head?, t.isNumber = false) :
    ∀ c ∈ text.head?, continuesNumber c = false := by
  cases h with
  | done hblank =>
    intro c hc
    exact continuesNumber_of_isSpace (hblank c (List.mem_of_mem_head? hc))
  | @token t tokens blank piece rest hblank hpiece _ =>
    intro c hc
    cases blank with
    | nil =>
      obtain ⟨d, more, rfl, hd⟩ := hpiece.exists_cons (hfirst t rfl)
      cases hc
      exact hd
    | cons d blank =>
      cases hc
      exact continuesNumber_of_isSpace (hblank c (List.mem_cons_self ..))

/-- Tokens are cut off one after the other, as long as no number directly
follows another. -/
theorem Token.scan_written {tokens : List Token} {text : List Char} (h : Written tokens text) :
    tokens.IsChain Apart → scan text = some tokens := by
  induction h with
  | @done blank hblank =>
    intro _
    rw [← List.append_nil blank, scan_blank hblank, scan]
  | @token t tokens blank piece rest hblank hpiece hrest ih =>
    intro hapart
    have hnext : t.isNumber = true → ∀ c ∈ rest.head?, continuesNumber c = false := by
      intro ht
      refine hrest.head fun u hu => ?_
      cases tokens with
      | nil => cases hu
      | cons v more =>
        cases hu
        exact hapart.rel ht
    rw [scan_blank hblank, scan_spells hpiece hnext, ih hapart.tail]
    rfl

/-! ## The spelling that is used for writing -/

/-- A character is written with a short escape, in hexadecimal or as it is. -/
theorem escape_cases (c : Char) :
    (∃ letter, escape c = ['\\', letter] ∧ shortEscape? letter = some c) ∨
    (c.toNat < 0x20 ∧
      escape c = ['\\', 'u', '0', '0', hexDigit (c.toNat / 16), hexDigit c.toNat]) ∨
    (c ≠ '"' ∧ c ≠ '\\' ∧ 0x20 ≤ c.toNat ∧ escape c = [c]) := by
  by_cases hshort : c ∈ ['"', '\\', '\x08', '\x0c', '\n', '\r', '\t']
  · left
    simp only [List.mem_cons, List.not_mem_nil, or_false] at hshort
    rcases hshort with rfl | rfl | rfl | rfl | rfl | rfl | rfl <;> exact ⟨_, rfl, rfl⟩
  · right
    simp only [List.mem_cons, List.not_mem_nil, or_false, not_or] at hshort
    obtain ⟨hquote, hback, h1, h2, h3, h4, h5⟩ := hshort
    rw [escape, if_neg hquote, if_neg hback, if_neg h1, if_neg h2, if_neg h3, if_neg h4, if_neg h5]
    by_cases hcontrol : c.toNat < 0x20
    · exact Or.inl ⟨hcontrol, if_pos hcontrol⟩
    · exact Or.inr ⟨hquote, hback, Nat.not_lt.1 hcontrol, if_neg hcontrol⟩

theorem hexUnit?_control :
    ∀ n < 0x20, hexUnit? '0' '0' (hexDigit (n / 16)) (hexDigit n) = some n := by
  decide

/-- A unit below the surrogates denotes a character by itself. -/
theorem joinGlyphs_unit {u : Nat} (hu : u < 0xD800) (glyphs : List Glyph) :
    joinGlyphs (.unit u :: glyphs) = (joinGlyphs glyphs).map (Char.ofNat u :: ·) := by
  have hhigh : isHighSurrogate u = false := by
    simp only [isHighSurrogate, Bool.and_eq_false_iff, decide_eq_false_iff_not]
    omega
  have hlow : isLowSurrogate u = false := by
    simp only [isLowSurrogate, Bool.and_eq_false_iff, decide_eq_false_iff_not]
    omega
  rw [joinGlyphs.eq_def]
  cases glyphs with
  | nil => simp [hhigh, hlow]
  | cons g rest => cases g <;> simp [hhigh, hlow]

/-- The way a character is written denotes it. -/
theorem exists_glyph (c : Char) : ∃ glyph : Glyph, glyph.Spells (escape c) ∧
    ∀ glyphs, joinGlyphs (glyph :: glyphs) = (joinGlyphs glyphs).map (c :: ·) := by
  rcases escape_cases c with ⟨letter, hescape, hletter⟩ | ⟨hc, hescape⟩ |
    ⟨hquote, hback, hc, hescape⟩
  · exact ⟨.char c, hescape ▸ .short hletter, fun glyphs => rfl⟩
  · refine ⟨.unit c.toNat, hescape ▸ .unit (hexUnit?_control c.toNat hc), fun glyphs => ?_⟩
    rw [joinGlyphs_unit (by omega), Char.ofNat_toNat]
  · exact ⟨.char c, hescape ▸ .self hquote hback hc, fun glyphs => rfl⟩

/-- So does the way a text is written. -/
theorem exists_glyphs : ∀ text : List Char, ∃ glyphs,
    Glyph.SpellsAll glyphs (text.flatMap escape) ∧ joinGlyphs glyphs = some text
  | [] => ⟨[], .nil, rfl⟩
  | c :: text => by
      obtain ⟨glyph, hglyph, hjoin⟩ := exists_glyph c
      obtain ⟨glyphs, hglyphs, htext⟩ := exists_glyphs text
      refine ⟨glyph :: glyphs, .cons hglyph hglyphs, ?_⟩
      rw [hjoin, htext]
      rfl

theorem exists_toDigits (n : Nat) : ∃ c digits, Nat.toDigits 10 n = c :: digits ∧
    c.isDigit = true ∧ ∀ d ∈ digits, d.isDigit = true := by
  have hdigit : ∀ c ∈ Nat.toDigits 10 n, c.isDigit = true := fun c hc =>
    Nat.isDigit_of_mem_toDigits (by decide) (by decide) hc
  cases hdigits : Nat.toDigits 10 n with
  | nil => exact absurd hdigits Nat.toDigits_ne_nil
  | cons c digits =>
    rw [hdigits] at hdigit
    exact ⟨c, digits, rfl, hdigit c (List.mem_cons_self ..),
      fun d hd => hdigit d (List.mem_cons_of_mem c hd)⟩

/-- No number but zero is written with a zero in front. -/
theorem head?_toDigits_ne_zero {n : Nat} (hn : 0 < n) : (Nat.toDigits 10 n).head? ≠ some '0' := by
  induction n using Nat.strongRecOn with
  | ind n ih =>
    by_cases hsmall : n < 10
    · have hdigits : ∀ n < 10, 0 < n → Nat.digitChar n ≠ '0' := by decide
      rw [Nat.toDigits_of_lt_base hsmall]
      exact fun h => hdigits n hsmall hn (Option.some.inj h)
    · have hfront := ih (n / 10) (by omega) (by omega)
      obtain ⟨c, digits, hdigits, -⟩ := exists_toDigits (n / 10)
      rw [hdigits] at hfront
      rw [Nat.toDigits_of_base_le (by decide) (by omega), hdigits]
      exact hfront

theorem isWhole_toDigits (n : Nat) : IsWhole (Nat.toDigits 10 n) := by
  rcases Nat.eq_zero_or_pos n with rfl | hn
  · exact .zero
  · have hzero := head?_toDigits_ne_zero hn
    obtain ⟨c, digits, hdigits, hc, hmore⟩ := exists_toDigits n
    rw [hdigits] at hzero ⊢
    exact .digits hc (fun h => hzero (congrArg some h)) hmore

theorem Number.ofParts_toDigits (n : Int) :
    Number.ofParts (decide (n < 0)) (Nat.toDigits 10 n.natAbs) [] [] = .integer n := by
  have hvalue : Nat.ofDigitChars 10 (Nat.toDigits 10 n.natAbs) 0 = n.natAbs :=
    Nat.ofDigitChars_ten_toDigits
  simp only [ofParts, hvalue, and_self, if_true, decide_eq_true_eq]
  by_cases hn : n < 0
  · have hzero : n.natAbs ≠ 0 := by omega
    have habs : -(n.natAbs : Int) = n := by omega
    rw [if_pos hn, if_neg hzero, habs]
  · have habs : (n.natAbs : Int) = n := by omega
    rw [if_neg hn, habs]

theorem Number.spells_intDigits (n : Int) : (integer n).Spells (intDigits n) := by
  have h := Spells.parts (decide (n < 0)) (isWhole_toDigits n.natAbs) .absent .absent
  simp only [ofParts_toDigits, decide_eq_true_eq, List.append_nil] at h
  exact h

namespace Token

/-- Whether the meaning of a token says how it is spelled: all are but numbers
that are no integers. -/
def Plain : Token → Prop
  | .number (.decimal _) => False
  | _ => True

theorem spells_string (text : Option String) : (string text).Spells (string text).spelling := by
  cases text with
  | none =>
    have hunit : hexUnit? 'd' '8' '0' '0' = some 0xD800 := by decide
    exact .string (.cons (.unit hunit) .nil)
  | some s =>
    obtain ⟨glyphs, hglyphs, hjoin⟩ := exists_glyphs s.toList
    have h := Spells.string hglyphs
    rw [hjoin, Option.map_some, String.ofList_toList] at h
    exact h

theorem spells_spelling {t : Token} (ht : t.Plain) : t.Spells t.spelling := by
  cases t with
  | number n =>
    cases n with
    | decimal literal => exact ht.elim
    | integer n => exact .number (Number.spells_intDigits n)
  | string text => exact spells_string text
  | _ => exact .fixed trivial

end Token

/-- What is spelled out without any white space is one of the ways to write
it. -/
theorem written_spellings : ∀ {tokens : List Token}, (∀ t ∈ tokens, t.Plain) →
    Written tokens (tokens.flatMap Token.spelling)
  | [], _ => .done nofun
  | t :: rest, h => by
      have hrest := written_spellings fun u hu => h u (List.mem_cons_of_mem t hu)
      exact @Written.token t rest [] _ _ nofun (Token.spells_spelling (h t (List.mem_cons_self ..)))
        hrest

end LoopNest.Json
