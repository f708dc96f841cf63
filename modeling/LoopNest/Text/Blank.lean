/-!
LoopNest.Text.Blank — Unicode white space, and trimming it.

The class is the `White_Space` property of the Unicode standard.  It has
the line and paragraph separators, the no-break spaces and the
ideographic space; it lacks the zero-width space and the byte order mark.
-/

namespace LoopNest

/-- The code points with the `White_Space` property outside ASCII, as
closed ranges in ascending order. -/
def blankRanges : List (Nat × Nat) :=
  [(0x85, 0x85), (0xA0, 0xA0), (0x1680, 0x1680), (0x2000, 0x200A), (0x2028, 0x2029),
   (0x202F, 0x202F), (0x205F, 0x205F), (0x3000, 0x3000)]

/-- Whether a character is Unicode white space. -/
def isBlank (c : Char) : Bool :=
  c == ' ' || ('\t' ≤ c && c ≤ '\r') ||
    blankRanges.any fun r => r.1 ≤ c.toNat && c.toNat ≤ r.2

/-- A text without the white space at its two ends. -/
def trimBlank (s : String) : String :=
  String.ofList (((s.toList.dropWhile isBlank).reverse.dropWhile isBlank).reverse)

example : trimBlank "\u3000a b\u00a0\u2028" = "a b" := by decide

end LoopNest
