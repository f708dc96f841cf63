/-!
LoopNest.Action.Kind — the six kinds of loop transformation.

Every kind fixes the layout of its parameters: loops first, outermost
first, then factors.  Kinds are read from the command line by name or
abbreviation, without regard to letter case.

* `Kind.shape` — the layout, position by position;
* `Kind.ofText` — names and abbreviations.
-/

namespace LoopNest

/-- A kind of loop transformation. -/
inductive Kind where
  /-- mark one loop parallel -/
  | parallelization
  /-- skew two nested loops by two factors -/
  | skewing
  /-- swap two loops -/
  | interchange
  /-- reverse the iteration order of one loop -/
  | reversal
  /-- unroll one loop by a factor -/
  | unrolling
  /-- tile two nested loops -/
  | tiling2d
deriving DecidableEq, Repr, Inhabited

/-- What one parameter position holds. -/
inductive Shape where
  | loop
  | factor
deriving DecidableEq, Repr, Inhabited

/-- The word for a shape in messages. -/
def Shape.text : Shape → String
  | .loop => "loop"
  | .factor => "factor"

namespace Kind

/-- Every kind, in the order in which messages list them. -/
def all : List Kind :=
  [.parallelization, .skewing, .interchange, .reversal, .unrolling, .tiling2d]

/-- The full name. -/
def name : Kind → String
  | .parallelization => "parallelization"
  | .skewing => "skewing"
  | .interchange => "interchange"
  | .reversal => "reversal"
  | .unrolling => "unrolling"
  | .tiling2d => "tiling2d"

/-- Parameter layout, position by position. -/
def shape : Kind → List Shape
  | .parallelization | .reversal => [.loop]
  | .interchange => [.loop, .loop]
  | .unrolling => [.loop, .factor]
  | .skewing | .tiling2d => [.loop, .loop, .factor, .factor]

/-- Number of parameters. -/
def arity (k : Kind) : Nat := k.shape.length

/-- Number of loop parameters, the length of a candidate. -/
def loopCount (k : Kind) : Nat := k.shape.count .loop

/-- A letter without its case.  Beside the capitals A to Z only the Kelvin
sign has a small letter among a to z, namely k. -/
def foldLetter (c : Char) : Char :=
  if c = '\u212A' then 'k' else c.toLower

/-- A name that denotes no kind. -/
structure UnknownName where
  text : String
deriving DecidableEq, Repr

/-- The message for a name that denotes no kind; it lists those that do. -/
def UnknownName.message (e : UnknownName) : String :=
  "Unknown transformation: '" ++ e.text ++ "'. Valid options: " ++
    ", ".intercalate (all.map name)

/-- The kind that a small-letter name or abbreviation denotes. -/
def ofAlias? : String → Option Kind
  | "parallelization" | "parallel" | "p" => some .parallelization
  | "skewing" | "skew" | "s" => some .skewing
  | "interchange" | "i" => some .interchange
  | "reversal" | "r" => some .reversal
  | "unrolling" | "unroll" | "u" => some .unrolling
  | "tiling2d" | "tiling" | "t2" => some .tiling2d
  | _ => none

/-- The kind that a name or abbreviation denotes in any letter case. -/
def ofText (text : String) : Except UnknownName Kind :=
  match ofAlias? (text.map foldLetter) with
  | some kind => .ok kind
  | none => .error ⟨text⟩

/-- The kind with exactly this full name. -/
def ofName? (text : String) : Option Kind :=
  all.find? fun kind => kind.name == text

theorem ofName?_name (k : Kind) : ofName? k.name = some k := by
  cases k <;> decide

end Kind

end LoopNest
