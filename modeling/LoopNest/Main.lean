import LoopNest.CommandLine.Report

/-!
LoopNest.Main — the program.

Reading the file, printing and the exit code are done here, and nothing
else.  This build starts no oracle programs: a search finds its oracle
unavailable and says so by finding no schedule.
-/

namespace LoopNest

/-- The reason in a report for a file that could not be read. -/
def readingReason : IO.Error → String
  | .noFileOrDirectory .. => "No such file or directory (os error 2)"
  | .permissionDenied .. => "Permission denied (os error 13)"
  | .inappropriateType .. => "Is a directory (os error 21)"
  | e => toString e

/-- What reading a file gives. -/
def readContent (file : String) : IO ReadResult := do
  try
    return .ok (← IO.FS.readBinFile file)
  catch e =>
    return .error (readingReason e)

end LoopNest

open LoopNest LoopNest.CommandLine

/-- Prints what a command leaves behind and ends with its exit code. -/
def main (words : List String) : IO UInt32 := do
  match Invocation.ofWords words with
  | .error mistake =>
    IO.eprintln ("error: " ++ mistake.message)
    return UsageError.exitCode.toUInt32
  | .ok invocation =>
    let content ←
      match invocation.file? with
      | some file => readContent file
      | none => pure (.ok ByteArray.empty)
    let result := invocation.perform content fun _ _ => .unstarted "Operation not supported"
    IO.print result.ending.output
    if let .failed failure := result.ending then
      for line in failure.lines do
        IO.eprintln line
    return result.ending.exitCode.toUInt32
