import LoopNest.Action.Kind

/-!
LoopNest.CommandLine.Invocation — what the words of a command line ask
for.

    sections FILE
    candidates [-k KIND] FILE
    search --oracle PROGRAM [--oracle-arg ARG]... [--timeout-secs N]
           [--max-candidates N] [--max-oracle-calls N] [--calls] FILE

Words are taken one after the other.  Long options give their value after
`=` or in the next word, short ones in the rest of the same word or in the
next; short options without a value may share a word.  After `--` every
word is a file.  `-v` and `-q` may stand anywhere.
-/

namespace LoopNest.CommandLine

/-- A mistake in a command line. -/
inductive UsageError where
  | noCommand
  | unknownCommand (word : String)
  | unknownOption (option : String)
  | unexpectedWord (word : String)
  | missingValue (option : String)
  | unexpectedValue (option : String)
  | invalidValue (option value : String)
  | repeated (option : String)
  | missing (option : String)
deriving DecidableEq, Repr

/-- The wording of a mistake. -/
def UsageError.message : UsageError → String
  | .noCommand => "a command is required: sections, candidates or search"
  | .unknownCommand word => "unrecognized command '" ++ word ++ "'"
  | .unknownOption option => "unexpected option '" ++ option ++ "'"
  | .unexpectedWord word => "unexpected argument '" ++ word ++ "'"
  | .missingValue option => "a value is required for '" ++ option ++ "'"
  | .unexpectedValue option => "no value is allowed for '" ++ option ++ "'"
  | .invalidValue option value => "invalid value '" ++ value ++ "' for '" ++ option ++ "'"
  | .repeated option => "'" ++ option ++ "' cannot be used more than once"
  | .missing option => "'" ++ option ++ "' is required"

/-- How a program ends that was called by mistake. -/
def UsageError.exitCode : Nat := 2

/-- The settings of a search. -/
structure SearchSettings where
  oracle : String
  oracleArguments : List String
  timeoutSeconds : Nat
  maxCandidates : Option Nat
  maxOracleCalls : Option Nat
  calls : Bool
deriving DecidableEq, Repr

/-- What a command line asks for. -/
inductive Invocation where
  | version
  | help
  | sections (file : String)
  | candidates (kind : Kind) (file : String)
  | search (settings : SearchSettings) (file : String)
deriving DecidableEq, Repr

/-- The file that has to be read. -/
def Invocation.file? : Invocation → Option String
  | .version | .help => none
  | .sections file | .candidates _ file | .search _ file => some file

/-! ## Options -/

/-- Everything that can be set with an option. -/
inductive Switch where
  | verbose
  | quiet
  | help
  | version
  | kind
  | oracle
  | oracleArg
  | timeoutSecs
  | maxCandidates
  | maxOracleCalls
  | calls
deriving DecidableEq, Repr

/-- The long name. -/
def Switch.long : Switch → String
  | .verbose => "verbose"
  | .quiet => "quiet"
  | .help => "help"
  | .version => "version"
  | .kind => "kind"
  | .oracle => "oracle"
  | .oracleArg => "oracle-arg"
  | .timeoutSecs => "timeout-secs"
  | .maxCandidates => "max-candidates"
  | .maxOracleCalls => "max-oracle-calls"
  | .calls => "calls"

/-- The letter, if there is one. -/
def Switch.short? : Switch → Option Char
  | .verbose => some 'v'
  | .quiet => some 'q'
  | .help => some 'h'
  | .version => some 'V'
  | .kind => some 'k'
  | _ => none

/-- Whether a value belongs to the option. -/
def Switch.takesValue : Switch → Bool
  | .kind | .oracle | .oracleArg | .timeoutSecs | .maxCandidates | .maxOracleCalls => true
  | _ => false

/-- Whether the value may look like an option. -/
def Switch.takesHyphens : Switch → Bool
  | .oracleArg => true
  | _ => false

/-- The three commands. -/
inductive CommandName where
  | sections
  | candidates
  | search
deriving DecidableEq, Repr

/-- The command of a name. -/
def CommandName.ofText? : String → Option CommandName
  | "sections" => some .sections
  | "candidates" => some .candidates
  | "search" => some .search
  | _ => none

/-- The options that may stand before the command. -/
def outerSwitches : List Switch := [.verbose, .quiet, .help, .version]

/-- The options that may stand after a command. -/
def CommandName.switches : CommandName → List Switch
  | .sections => [.verbose, .quiet, .help]
  | .candidates => [.verbose, .quiet, .help, .kind]
  | .search =>
    [.verbose, .quiet, .help, .oracle, .oracleArg, .timeoutSecs, .maxCandidates, .maxOracleCalls,
     .calls]

/-! ## Values -/

/-- A number below 2^64 in decimal digits, after a plus sign perhaps. -/
def unsigned64? (text : String) : Option Nat :=
  let digits :=
    match text.toList with
    | '+' :: rest => rest
    | cs => cs
  if digits ≠ [] ∧ digits.all Char.isDigit then
    let n := Nat.ofDigitChars 10 digits 0
    if n < Nat.pow 2 64 then some n else none
  else none

/-- What has been set so far. -/
structure Gathered where
  quiet : Bool := false
  kind : Option Kind := none
  oracle : Option String := none
  oracleArguments : List String := []
  timeoutSeconds : Option Nat := none
  maxCandidates : Option Nat := none
  maxOracleCalls : Option Nat := none
  calls : Bool := false
  file : Option String := none
deriving Repr

/-- Why reading ends before the last word. -/
inductive Stop where
  | mistake (e : UsageError)
  | version
  | help
deriving Repr

namespace Gathered

/-- Give a setting its value, which it may not have yet. -/
def once {α : Type} (s : Switch) (old : Option α) (value : α) : Except Stop (Option α) :=
  if old.isSome then .error (.mistake (.repeated s.long)) else .ok (some value)

/-- A value that is needed in a certain form. -/
def needForm {α : Type} (s : Switch) (text : String) : Option α → Except Stop α
  | some value => .ok value
  | none => .error (.mistake (.invalidValue s.long text))

/-- A path, which may be anything but empty. -/
def path? (text : String) : Option String := if text.isEmpty then none else some text

/-- Take an option without a value. -/
def setFlag (g : Gathered) (s : Switch) : Except Stop Gathered :=
  match s with
  | .quiet => if g.quiet then .error (.mistake (.repeated s.long)) else .ok { g with quiet := true }
  | .calls => if g.calls then .error (.mistake (.repeated s.long)) else .ok { g with calls := true }
  | .version => .error .version
  | .help => .error .help
  | _ => .ok g

/-- Take an option with its value. -/
def setValue (g : Gathered) (s : Switch) (text : String) : Except Stop Gathered :=
  match s with
  | .kind => do
    let kind ← once s g.kind (← needForm s text (Kind.ofText text).toOption)
    return { g with kind }
  | .oracle => do
    let oracle ← once s g.oracle (← needForm s text (path? text))
    return { g with oracle }
  | .oracleArg => .ok { g with oracleArguments := g.oracleArguments ++ [text] }
  | .timeoutSecs => do
    let timeoutSeconds ← once s g.timeoutSeconds (← needForm s text (unsigned64? text))
    return { g with timeoutSeconds }
  | .maxCandidates => do
    let maxCandidates ← once s g.maxCandidates (← needForm s text (unsigned64? text))
    return { g with maxCandidates }
  | .maxOracleCalls => do
    let maxOracleCalls ← once s g.maxOracleCalls (← needForm s text (unsigned64? text))
    return { g with maxOracleCalls }
  | _ => .ok g

/-- Take the file. -/
def setFile (g : Gathered) (text : String) : Except Stop Gathered :=
  if g.file.isSome then .error (.mistake (.unexpectedWord text))
  else if text.isEmpty then .error (.mistake (.invalidValue "FILE" text))
  else .ok { g with file := some text }

/-- Take every word as a file. -/
def setFiles (g : Gathered) : List String → Except Stop Gathered
  | [] => .ok g
  | word :: rest => do (← g.setFile word).setFiles rest

end Gathered

/-! ## Words -/

/-- A word by its form. -/
inductive Word where
  /-- two hyphens and a name, perhaps with a value after an equals sign -/
  | long (name : String) (value : Option String)
  /-- a hyphen and letters -/
  | short (letters : List Char)
  /-- two hyphens alone -/
  | escape
  | plain (text : String)
deriving Repr

/-- The form of a word.  A single hyphen is a plain word. -/
def Word.ofText (text : String) : Word :=
  match text.toList with
  | ['-', '-'] => .escape
  | '-' :: '-' :: rest =>
    let name := rest.takeWhile (· ≠ '=')
    match rest.dropWhile (· ≠ '=') with
    | [] => .long (String.ofList name) none
    | _ :: value => .long (String.ofList name) (some (String.ofList value))
  | '-' :: c :: rest => .short (c :: rest)
  | _ => .plain text

/-- Whether a word has the form of an option. -/
def Word.isOption : Word → Bool
  | .plain _ => false
  | _ => true

/-- An option that still lacks its value, if any, after some short options
that share a word.  A value may follow its letter directly or after an
equals sign. -/
def readShort (switches : List Switch) (g : Gathered) :
    List Char → Except Stop (Gathered × Option Switch)
  | [] => .ok (g, none)
  | c :: rest =>
    match switches.find? fun s => s.short? == some c with
    | none => .error (.mistake (.unknownOption (String.ofList ['-', c])))
    | some s =>
      if s.takesValue then
        match rest with
        | [] => .ok (g, some s)
        | '=' :: value => do return (← g.setValue s (String.ofList value), none)
        | value => do return (← g.setValue s (String.ofList value), none)
      else do readShort switches (← g.setFlag s) rest

/-- A long option, with whether its value is still to come. -/
def readLong (switches : List Switch) (g : Gathered) (name : String) (value : Option String) :
    Except Stop (Gathered × Option Switch) :=
  match switches.find? fun s => s.long == name with
  | none => .error (.mistake (.unknownOption ("--" ++ name)))
  | some s =>
    if s.takesValue then
      match value with
      | some text => do return (← g.setValue s text, none)
      | none => .ok (g, some s)
    else if value.isSome then .error (.mistake (.unexpectedValue s.long))
    else do return (← g.setFlag s, none)

/-- Read the words after a command.  `waiting` is an option whose value has to
come next. -/
def readWords (switches : List Switch) :
    Gathered → Option Switch → List String → Except Stop Gathered
  | g, none, [] => .ok g
  | _, some s, [] => .error (.mistake (.missingValue s.long))
  | g, some s, word :: rest =>
    if (Word.ofText word).isOption && !s.takesHyphens then
      .error (.mistake (.missingValue s.long))
    else do readWords switches (← g.setValue s word) none rest
  | g, none, word :: rest =>
    match Word.ofText word with
    | .escape => g.setFiles rest
    | .plain text => do readWords switches (← g.setFile text) none rest
    | .long name value => do
      let (g, waiting) ← readLong switches g name value
      readWords switches g waiting rest
    | .short letters => do
      let (g, waiting) ← readShort switches g letters
      readWords switches g waiting rest

/-! ## Command lines -/

/-- A setting that has to be there. -/
def needed {α : Type} (option : String) : Option α → Except Stop α
  | some value => .ok value
  | none => .error (.mistake (.missing option))

/-- What a command asks for with the settings given. -/
def Gathered.invocation (g : Gathered) : CommandName → Except Stop Invocation
  | .sections => do
    return .sections (← needed "FILE" g.file)
  | .candidates => do
    return .candidates (g.kind.getD .parallelization) (← needed "FILE" g.file)
  | .search => do
    let oracle ← needed "oracle" g.oracle
    let file ← needed "FILE" g.file
    let settings : SearchSettings :=
      { oracle
        oracleArguments := g.oracleArguments
        timeoutSeconds := g.timeoutSeconds.getD 60
        maxCandidates := g.maxCandidates
        maxOracleCalls := g.maxOracleCalls
        calls := g.calls }
    return .search settings file

/-- Where the words after `help` lead.  They name one command at most, as no
command has commands of its own. -/
def helpFor : List String → Stop
  | [] => .help
  | name :: rest =>
    if (CommandName.ofText? name).isNone && name ≠ "help" then .mistake (.unknownCommand name)
    else
      match rest with
      | [] => .help
      | word :: _ => .mistake (.unknownCommand word)

/-- Read the words before the command, and the command. -/
def readOuter : Gathered → List String → Except Stop Invocation
  | _, [] => .error (.mistake .noCommand)
  | g, word :: rest =>
    match Word.ofText word with
    | .escape =>
      match rest with
      | [] => .error (.mistake .noCommand)
      | next :: _ => .error (.mistake (.unexpectedWord next))
    | .long name value => do
      let (g, _) ← readLong outerSwitches g name value
      readOuter g rest
    | .short letters => do
      let (g, _) ← readShort outerSwitches g letters
      readOuter g rest
    | .plain text =>
      match CommandName.ofText? text with
      | some command => do
        (← readWords command.switches {} none rest).invocation command
      | none =>
        if text = "help" then .error (helpFor rest)
        else .error (.mistake (.unknownCommand text))

/-- What a command line asks for. -/
def Invocation.ofWords (words : List String) : Except UsageError Invocation :=
  match readOuter {} words with
  | .ok invocation => .ok invocation
  | .error .version => .ok .version
  | .error .help => .ok .help
  | .error (.mistake e) => .error e

end LoopNest.CommandLine
