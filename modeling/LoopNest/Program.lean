import LoopNest.Table.Json
import LoopNest.Forest.Build
import LoopNest.Text.ReadResult

/-!
LoopNest.Program — a program under optimization.

A program is a name, the annotation it came with and the forest that the
annotation describes.  A program that comes from a file is named after
the file, its directory and its last extension left out.
-/

namespace LoopNest

/-- A program. -/
structure Program where
  /-- the name used towards an oracle -/
  name : String
  table : Table
  forest : Forest
deriving DecidableEq, Inhabited

/-! ## Names of files -/

/-- The parts of a path between its slashes.  Empty parts and single dots
name nothing, a first dot excepted. -/
def pathParts (path : List Char) : List (List Char) :=
  (path.splitOn '/').filter fun part => part ≠ [] ∧ part ≠ ['.']

/-- A file name without its last extension.  A dot at the very start begins
no extension. -/
def dropExtension (name : List Char) : List Char :=
  let afterDot := (name.reverse.takeWhile (· ≠ '.')).length
  if name.length ≤ afterDot + 1 then name else name.take (name.length - afterDot - 1)

/-- The name of the file at a path, without its extension; a path that ends
in no file name has none. -/
def fileStem? (path : String) : Option String :=
  match (pathParts path.toList).getLast? with
  | none => none
  | some ['.', '.'] => none
  | some name => some (String.ofList (dropExtension name))

example : fileStem? "a/b.tar.gz" = some "b.tar" := by decide
example : fileStem? ".json" = some ".json" := by decide
example : fileStem? ".." = none := by decide

/-! ## Programs -/

/-- The text of a file, of which the reading is done. -/
def fileText (content : ReadResult) : Except Error String :=
  match content.text with
  | .ok text => .ok text
  | .error reason => .error (.io reason)

namespace Program

/-- The program that an annotation describes. -/
def ofTable (name : String) (table : Table) : Except Error Program := do
  let forest ← Forest.ofTable table
  return { name, table, forest }

/-- The program that a text describes. -/
def ofText (name : String) (text : String) : Except Error Program := do
  ofTable name (← Table.ofText text)

/-- The program in a file, of which the path and what reading it gave are
known. -/
def ofFile (path : String) (content : ReadResult) : Except Error Program := do
  ofText ((fileStem? path).getD "program") (← fileText content)

end Program

end LoopNest
