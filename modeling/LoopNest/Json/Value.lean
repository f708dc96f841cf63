import LoopNest.Json.Token

/-!
LoopNest.Json.Value — JSON values, read from tokens and written as text.

Reading goes through the tokens once, with the brackets that are still
open on a stack (`Frame`).  Members of an object are kept in document
order, repeated names included.

* `Value.ofTokens?`, `Value.ofText?` — reading;
* `Value.tokens`, `Value.text` — writing, without any white space.
-/

namespace LoopNest.Json

/-- A JSON value.  Names and strings are `none` where they denote no text. -/
inductive Value where
  | null
  | bool (value : Bool)
  | number (value : Number)
  | string (text : Option String)
  | array (elements : List Value)
  | object (members : List (Option String × Value))
deriving Inhabited

namespace Value

/-- A string value. -/
def ofString (s : String) : Value := .string (some s)

/-- An integer value. -/
def ofInt (n : Int) : Value := .number (.integer n)

/-- A natural number as a value. -/
def ofNat (n : Nat) : Value := .number (.integer n)

/-- An object with the given names. -/
def record (members : List (String × Value)) : Value :=
  .object (members.map fun m => (some m.1, m.2))

/-- A value, or null. -/
def ofOption {α : Type} (f : α → Value) : Option α → Value
  | some a => f a
  | none => .null

/-- An array of strings. -/
def ofStrings (l : List String) : Value := .array (l.map ofString)

end Value

/-! ## Reading -/

/-- A bracket that is still open, with what has been read inside it, the
latest first. -/
inductive Frame where
  | array (done : List Value)
  | object (done : List (Option String × Value)) (name : Option String)

/-- What the next token has to be.  The open brackets are listed innermost
first. -/
inductive Site where
  /-- the start of a value -/
  | value (outer : List Frame)
  /-- the first element of an array, or its end -/
  | firstElement (outer : List Frame)
  /-- the first name of an object, or its end -/
  | firstName (outer : List Frame)
  /-- another name of an object -/
  | nextName (done : List (Option String × Value)) (outer : List Frame)
  /-- the colon after a name -/
  | colon (done : List (Option String × Value)) (name : Option String) (outer : List Frame)
  /-- what follows a complete value -/
  | after (value : Value) (outer : List Frame)

namespace Site

/-- Take the first token of a value. -/
def start (outer : List Frame) : Token → Option Site
  | .null => some (.after .null outer)
  | .bool b => some (.after (.bool b) outer)
  | .number n => some (.after (.number n) outer)
  | .string s => some (.after (.string s) outer)
  | .openBracket => some (.firstElement outer)
  | .openBrace => some (.firstName outer)
  | .closeBracket | .closeBrace | .comma | .colon => none

/-- Take a token after a complete value. -/
def finish (value : Value) : List Frame → Token → Option Site
  | .array done :: outer, .comma => some (.value (.array (value :: done) :: outer))
  | .array done :: outer, .closeBracket =>
    some (.after (.array (value :: done).reverse) outer)
  | .object done name :: outer, .comma => some (.nextName ((name, value) :: done) outer)
  | .object done name :: outer, .closeBrace =>
    some (.after (.object ((name, value) :: done).reverse) outer)
  | _, _ => none

/-- Take one token. -/
def step : Site → Token → Option Site
  | .value outer, t => start outer t
  | .firstElement outer, .closeBracket => some (.after (.array []) outer)
  | .firstElement outer, t => start (.array [] :: outer) t
  | .firstName outer, .closeBrace => some (.after (.object []) outer)
  | .firstName outer, .string s => some (.colon [] s outer)
  | .firstName _, _ => none
  | .nextName done outer, .string s => some (.colon done s outer)
  | .nextName _ _, _ => none
  | .colon done name outer, .colon => some (.value (.object done name :: outer))
  | .colon _ _ _, _ => none
  | .after v outer, t => finish v outer t

/-- The value that is complete when no bracket is open any more. -/
def value? : Site → Option Value
  | .after v [] => some v
  | _ => none

end Site

/-- The value that some tokens make up, all of them. -/
def Value.ofTokens? (tokens : List Token) : Option Value := do
  (← tokens.foldlM Site.step (.value [])).value?

/-- The value that a text denotes. -/
def Value.ofText? (text : String) : Option Value := do
  Value.ofTokens? (← Token.scan text.toList)

/-! ## Writing -/

/-- One digit of lower-case hexadecimal. -/
def hexDigit (n : Nat) : Char := Nat.digitChar (n % 16)

/-- How a character is written in a string.  Only the quote, the backslash
and the control characters need an escape. -/
def escape (c : Char) : List Char :=
  if c = '"' then ['\\', '"']
  else if c = '\\' then ['\\', '\\']
  else if c = '\x08' then ['\\', 'b']
  else if c = '\x0c' then ['\\', 'f']
  else if c = '\n' then ['\\', 'n']
  else if c = '\r' then ['\\', 'r']
  else if c = '\t' then ['\\', 't']
  else if c.toNat < 0x20 then
    ['\\', 'u', '0', '0', hexDigit (c.toNat / 16), hexDigit c.toNat]
  else [c]

/-- An integer in decimal. -/
def intDigits (n : Int) : List Char :=
  (if n < 0 then ['-'] else []) ++ Nat.toDigits 10 n.natAbs

/-- The characters of a token.  A string without a text is written as one
unpaired surrogate. -/
def Token.spelling : Token → List Char
  | .openBrace => ['\x7b']
  | .closeBrace => ['\x7d']
  | .openBracket => ['[']
  | .closeBracket => [']']
  | .comma => [',']
  | .colon => [':']
  | .null => ['n', 'u', 'l', 'l']
  | .bool true => ['t', 'r', 'u', 'e']
  | .bool false => ['f', 'a', 'l', 's', 'e']
  | .number (.integer n) => intDigits n
  | .number (.decimal literal) => literal
  | .string (some s) => '"' :: s.toList.flatMap escape ++ ['"']
  | .string none => ['"', '\\', 'u', 'd', '8', '0', '0', '"']

mutual

/-- The tokens of a value. -/
def Value.tokens : Value → List Token
  | .null => [.null]
  | .bool b => [.bool b]
  | .number n => [.number n]
  | .string s => [.string s]
  | .array [] => [.openBracket, .closeBracket]
  | .array (v :: rest) => .openBracket :: v.tokens ++ elementTokens rest ++ [.closeBracket]
  | .object [] => [.openBrace, .closeBrace]
  | .object ((name, v) :: rest) =>
    .openBrace :: .string name :: .colon :: v.tokens ++ memberTokens rest ++ [.closeBrace]

/-- The tokens of the elements after the first. -/
def elementTokens : List Value → List Token
  | [] => []
  | v :: rest => .comma :: v.tokens ++ elementTokens rest

/-- The tokens of the members after the first. -/
def memberTokens : List (Option String × Value) → List Token
  | [] => []
  | (name, v) :: rest => .comma :: .string name :: .colon :: v.tokens ++ memberTokens rest

end

/-- The text of a value, without any white space. -/
def Value.text (v : Value) : String :=
  String.ofList (v.tokens.flatMap Token.spelling)

end LoopNest.Json
