import LoopNest.Duration
import LoopNest.Text.Quoted

/-!
LoopNest.Oracle.Outage — the ways in which an oracle fails to answer.

An outage says that no verdict came back; it says nothing about the
schedule that was asked about.
-/

namespace LoopNest

/-- How a process ended. -/
inductive ExitStatus where
  | code (n : Nat)
  | signal (number : Nat)
deriving DecidableEq, Repr, Inhabited

namespace ExitStatus

/-- A process succeeds by ending on its own with code zero. -/
def isSuccess : ExitStatus → Bool
  | .code n => n == 0
  | .signal _ => false

/-- The names of the signals that end a process, by number. -/
def signalNames : List (Nat × String) :=
  [(1, "SIGHUP"), (2, "SIGINT"), (3, "SIGQUIT"), (4, "SIGILL"), (5, "SIGTRAP"), (6, "SIGABRT"),
   (7, "SIGBUS"), (8, "SIGFPE"), (9, "SIGKILL"), (10, "SIGUSR1"), (11, "SIGSEGV"),
   (12, "SIGUSR2"), (13, "SIGPIPE"), (14, "SIGALRM"), (15, "SIGTERM")]

/-- The wording of a status. -/
def text : ExitStatus → String
  | .code n => "exit status: " ++ n.repr
  | .signal number =>
    "signal: " ++ number.repr ++
      match signalNames.lookup number with
      | some name => " (" ++ name ++ ")"
      | none => ""

end ExitStatus

/-- Why no answer came back from an oracle. -/
inductive Outage where
  /-- the program could not be started -/
  | unstarted (executable reason : String)
  /-- no answer within the time allowed -/
  | timedOut (after : Duration)
  /-- the request could not be written -/
  | unsent (reason : String)
  /-- the answer could not be read as text -/
  | unreadable (reason : String)
  /-- the end of the program could not be awaited -/
  | unawaited (reason : String)
  /-- the program ended without success -/
  | exited (status : ExitStatus) (complaint : String)
  /-- the answer is not a reply -/
  | unparsable
  /-- any other cause, in the oracle's own words -/
  | stated (reason : String)
deriving DecidableEq, Repr, Inhabited

/-- The wording of an outage. -/
def Outage.message : Outage → String
  | .unstarted executable reason => "failed to start " ++ quoted executable ++ ": " ++ reason
  | .timedOut after => "timed out after " ++ after.text
  | .unsent reason => "failed to send request: " ++ reason
  | .unreadable reason => "failed to read reply: " ++ reason
  | .unawaited reason => "failed to wait for oracle: " ++ reason
  | .exited status complaint => "oracle exited with " ++ status.text ++ ": " ++ complaint
  | .unparsable => "unparsable reply"
  | .stated reason => reason

end LoopNest
