import LoopNest.Text.Printable

/-!
LoopNest.Text.Quoted — texts shown between double quotes in reports.

Paths appear quoted in messages, so that blanks at their ends and
characters without a glyph can be seen.  A quote, a backslash and the
common controls are written with a backslash, other characters that are
not printable by their code point in braces, and all else stands for
itself, the apostrophe included.
-/

namespace LoopNest

/-- A number in lower-case hexadecimal. -/
def hexText (n : Nat) : String := String.ofList (Nat.toDigits 16 n)

/-- How one character is written between double quotes. -/
def quoteChar : Char → String
  | '\x00' => "\\0"
  | '\t' => "\\t"
  | '\r' => "\\r"
  | '\n' => "\\n"
  | '\\' => "\\\\"
  | '"' => "\\\""
  | c => if isPrintable c then String.singleton c else "\\u\x7b" ++ hexText c.toNat ++ "\x7d"

/-- A text between double quotes. -/
def quoted (s : String) : String :=
  "\"" ++ String.join (s.toList.map quoteChar) ++ "\""

end LoopNest
