import LoopNest.Action.Candidate
import LoopNest.CommandLine.Invocation
import LoopNest.Forest.Text
import LoopNest.Oracle.Command
import LoopNest.Schedule.Text
import LoopNest.Search.Greedy

/-!
LoopNest.CommandLine.Report — what a command prints, and how it ends.

A command either succeeds and prints its result, or fails and reports the
error: what was being done, and below it the causes, the immediate one
first.
-/

namespace LoopNest.CommandLine

/-- Why a command failed: what was being done, if that adds anything, and the
error. -/
structure Failure where
  context : Option String
  error : Error

/-- The causes of an error, the error itself first.  A failed reading has its
reason as a cause of its own. -/
def causes : Error → List String
  | .io reason => [(Error.io reason).message, reason]
  | e => [e.message]

/-- A cause in a report.  Its further lines are indented like the first;
causes are numbered when there is more than one. -/
def causeLines (number : Option Nat) (cause : String) : List String :=
  let indent := if number.isSome then "       " else "    "
  let first :=
    match number with
    | some n => String.ofList (List.replicate (5 - n.repr.length) ' ') ++ n.repr ++ ": "
    | none => indent
  match cause.splitOn "\n" with
  | [] => []
  | line :: rest => (first ++ line) :: rest.map (indent ++ ·)

/-- The causes in a report, numbered from `n` on. -/
def numberedLines (n : Nat) : List String → List String
  | [] => []
  | cause :: rest => causeLines (some n) cause ++ numberedLines (n + 1) rest

/-- The lines that list an error and its causes.  What the reader of a JSON
text has to say is not repeated: such an error is numbered as the first of
several causes, and the others are left out. -/
def causeList (e : Error) : List String :=
  match e, causes e with
  | .malformedJson, causes => numberedLines 0 causes
  | _, [cause] => causeLines none cause
  | _, causes => numberedLines 0 causes

/-- The lines of a report on a failure. -/
def Failure.lines (f : Failure) : List String :=
  match f.context with
  | some context => ["Error: " ++ context, "", "Caused by:"] ++ causeList f.error
  | none => ("Error: " ++ f.error.message).splitOn "\n"

/-- How a command ends. -/
inductive Ending where
  /-- with something printed -/
  | printed (output : String)
  /-- with a report on what failed -/
  | failed (failure : Failure)
  /-- at once, when a call of an oracle needs more time than the clock has -/
  | aborted

/-- The exit code of a command. -/
def Ending.exitCode : Ending → Nat
  | .printed _ => 0
  | .failed _ => 1
  | .aborted => 101

/-- What a command printed. -/
def Ending.output : Ending → String
  | .printed output => output
  | .failed _ | .aborted => ""

/-- The ending of a command that gives an output or fails. -/
def Ending.of : Except Failure String → Ending
  | .ok output => .printed output
  | .error failure => .failed failure

/-- What a command leaves behind. -/
structure Result where
  ending : Ending
  /-- what an oracle was asked -/
  asked : List Query := []

/-- The version line. -/
def versionLine : String := "polysched 0.1.0\n"

/-- What the program is called with. -/
def helpText : String :=
  "Usage: polysched [OPTIONS] <COMMAND>\n\n" ++
  "Commands:\n" ++
  "  sections    Print the iterator tree and its candidate sections\n" ++
  "  candidates  Print the candidates of one transformation kind\n" ++
  "  search      Run sequential parallelization against an oracle program\n\n" ++
  "Options:\n" ++
  "  -v, --verbose...  Verbose output\n" ++
  "  -q, --quiet       Quiet mode\n" ++
  "  -h, --help        Print help\n" ++
  "  -V, --version     Print version\n"

/-- An error together with what was being done. -/
def during {α : Type} (context : String) : Except Error α → Except Failure α
  | .ok a => .ok a
  | .error e => .error ⟨some context, e⟩

/-- An error that speaks for itself. -/
def plainly {α : Type} : Except Error α → Except Failure α
  | .ok a => .ok a
  | .error e => .error ⟨none, e⟩

/-- The program in a file. -/
def load (file : String) (content : ReadResult) : Except Failure Program :=
  during ("Failed to load program annotation: " ++ quoted file) (Program.ofFile file content)

/-- The lines of a root's sections. -/
def sectionLines (root : LoopId) (sections : List Section) : String :=
  root.text ++ ":\n" ++
    String.join (sections.map fun chain =>
      "  [" ++ ", ".intercalate (chain.map LoopId.text) ++ "]\n")

/-- The outline of a program and its sections. -/
def sectionsOutput (program : Program) : Except Failure String := do
  let sections ← plainly program.forest.sections
  return program.forest.text ++
    String.join (sections.entries.map fun p => sectionLines p.1 p.2)

/-- The line of a candidate: its loops with their levels. -/
def candidateLine (t : Forest) (candidate : Candidate) : Except Error String := do
  let levels ← t.levels candidate
  let shown := List.zipWith (fun id (level : Nat) => id.text ++ "@L" ++ level.repr) candidate levels
  return "  " ++ " ".intercalate shown ++ "\n"

/-- The lines of some candidates. -/
def candidateLines (t : Forest) : List Candidate → Except Error String
  | [] => .ok ""
  | candidate :: rest => do
    let line ← candidateLine t candidate
    let lines ← candidateLines t rest
    return line ++ lines

/-- The candidates of all roots. -/
def candidateBlocks (t : Forest) : List (LoopId × List Candidate) → Except Error String
  | [] => .ok ""
  | (root, candidates) :: rest => do
    let lines ← candidateLines t candidates
    let blocks ← candidateBlocks t rest
    return root.text ++ " (" ++ candidates.length.repr ++ " candidates):\n" ++ lines ++ blocks

/-- The candidates of a kind. -/
def candidatesOutput (kind : Kind) (program : Program) : Except Failure String := do
  let candidates ← during ("Failed to generate " ++ kind.name ++ " candidates")
    (kind.candidates program.forest)
  plainly (candidateBlocks program.forest candidates.entries)

/-- The command that a search calls its oracle with. -/
def SearchSettings.command (s : SearchSettings) : Command where
  executable := s.oracle
  arguments := s.oracleArguments
  timeout := .ofSeconds s.timeoutSeconds 0

/-- The bounds of a search. -/
def SearchSettings.limits (s : SearchSettings) : SearchLimits where
  candidatesPerRoot := s.maxCandidates
  oracleCalls := s.maxOracleCalls

/-- The line that shows what a search found. -/
def outcomeLine (calls : Bool) (outcome : Search.Outcome) : Except Failure String :=
  match outcome.schedule with
  | none => .ok "no schedule found\n"
  | some schedule => do
    let text ← plainly (if calls then schedule.calls else schedule.shortForm)
    return text ++ "\n"

/-- How a search ends that found something or failed. -/
def searchEnding (settings : SearchSettings) (file : String) : Except Error Search.Outcome → Ending
  | .ok outcome => .of (outcomeLine settings.calls outcome)
  | .error e => .failed ⟨some ("Search failed on " ++ quoted file), e⟩

/-- Search with an oracle program; `runs` says what its calls come to.  The first
call aborts the search if the clock cannot show when the time allowed for it
is over. -/
def searchResult (settings : SearchSettings) (file : String)
    (runs : List Request → Request → Run) (program : Program) : Result :=
  let command := settings.command
  let (answer, asked) := Search.run settings.limits (command.oracle runs) program
  if command.endsInTime || (Request.sent asked).isEmpty then
    ⟨searchEnding settings file answer, asked⟩
  else ⟨.aborted, []⟩

/-- Carry out what a command line asks for.  `content` is what reading the
file gave, and `runs` what the calls of an oracle program come to. -/
def Invocation.perform (invocation : Invocation) (content : ReadResult)
    (runs : List Request → Request → Run) : Result :=
  match invocation with
  | .version => ⟨.printed versionLine, []⟩
  | .help => ⟨.printed helpText, []⟩
  | .sections file => ⟨.of (load file content >>= sectionsOutput), []⟩
  | .candidates kind file => ⟨.of (load file content >>= candidatesOutput kind), []⟩
  | .search settings file =>
    match load file content with
    | .error f => ⟨.failed f, []⟩
    | .ok program => searchResult settings file runs program

end LoopNest.CommandLine
