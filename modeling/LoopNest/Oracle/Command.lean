import LoopNest.Oracle.Request
import LoopNest.Text.Blank
import LoopNest.Text.ReadResult

/-!
LoopNest.Oracle.Command — an oracle that is a program, run once for each
query.

The program is started with fixed arguments, gets the request on its
input and is expected to write one reply and to end with success in time.
Input, output and complaints are served side by side, so the ends of the
three pipes come in any order (`PipeEvent`).  A program that comes to an
end makes a run (`Run`), and `Command.read` says what a run answers:
whatever the order of events, the output is looked at first, then the
exit status, then the reply.

A program need not end (`Behaviour`).  While one of its outputs is open the
time allowed limits the call, which then kills it; but as soon as both are
in, its end is waited for however long it takes.  So a program that closes
its outputs and goes on running holds its caller up for ever
(`Command.run?`).
-/

namespace LoopNest

/-- How writing a request went. -/
inductive WriteResult where
  | complete
  /-- the program closed its input first; it may still answer -/
  | brokenPipe
  | failed (reason : String)
deriving DecidableEq, Repr

/-- Something that happens while a program runs. -/
inductive PipeEvent where
  | written (result : WriteResult)
  | output (result : ReadResult)
  | complaint (result : ReadResult)
  /-- the time allowed is over -/
  | deadline

/-- One run of an oracle program that came to an end. -/
inductive Run where
  /-- it could not be started -/
  | unstarted (reason : String)
  /-- it was started, the events came in this order, and it ended so -/
  | started (events : List PipeEvent) (status : Except String ExitStatus)

/-- What an oracle program does when it is called. -/
inductive Behaviour where
  /-- it cannot be started, or it ends by itself -/
  | ends (run : Run)
  /-- it is started, the events come in this order, with the deadline among
  them if an output stays open, and it runs until it is killed -/
  | endless (events : List PipeEvent)

/-- How an oracle program is called. -/
structure Command where
  executable : String
  arguments : List String := []
  /-- the time allowed for one call -/
  timeout : Duration := .ofSeconds 60 0
deriving DecidableEq, Repr, Inhabited

namespace Command

/-- Whether the clock can show when the time allowed is over.  It counts whole
seconds below 2^63, and one at least has passed when a call is made. -/
def endsInTime (c : Command) : Bool := c.timeout.nanoseconds / Nat.pow 10 9 + 1 < Nat.pow 2 63

/-- Wait until both outputs are in, or until no more events come.  Complaints
that cannot be read count as none. -/
def await (c : Command) :
    List PipeEvent → Option String → Option String → Except Outage (String × String)
  | _, some out, some err => .ok (out, err)
  | [], out, err => .ok (out.getD "", err.getD "")
  | .written (.failed reason) :: _, _, _ => .error (.unsent reason)
  | .written _ :: rest, out, err => c.await rest out err
  | .output result :: rest, _, err =>
    match result.text with
    | .ok out => c.await rest (some out) err
    | .error reason => .error (.unreadable reason)
  | .complaint result :: rest, out, _ =>
    c.await rest out (some (result.text.toOption.getD ""))
  | .deadline :: _, _, _ => .error (.timedOut c.timeout)

/-- What a program wrote that ended with success. -/
def conclude (status : Except String ExitStatus) (out err : String) : Except Outage String :=
  match status with
  | .error reason => .error (.unawaited reason)
  | .ok status =>
    if status.isSuccess then .ok (trimBlank out)
    else .error (.exited status (trimBlank err))

/-- The reply that a run gives. -/
def read (c : Command) : Run → Except Outage String
  | .unstarted reason => .error (.unstarted c.executable reason)
  | .started events status => do
    let (out, err) ← c.await events none none
    conclude status out err

/-- What a run answers, if the reply can be understood. -/
def answer {α : Type} (c : Command) (understand : String → Option α) (run : Run) :
    Except Error α :=
  match c.read run with
  | .error outage => .error (.oracleUnavailable outage)
  | .ok reply =>
    match understand reply with
    | some a => .ok a
    | none => .error (.oracleUnavailable .unparsable)

/-- The run that a call comes to, or none if the call never comes back.  A call
that gives up on a program kills it. -/
def run? (c : Command) : Behaviour → Option Run
  | .ends run => some run
  | .endless events =>
    match c.await events none none with
    | .ok _ => none
    | .error _ => some (.started events (.ok (.signal 9)))

/-- The oracle that a program is, all calls of it coming back.  What the program
does on a call may depend on the requests of earlier calls. -/
def oracle (c : Command) (program : List Request → Request → Run) : Oracle where
  name := "command"
  judge := fun asked p schedule => do
    let request ← Request.legality p schedule
    c.answer verdictOfText? (program (Request.sent asked) request)
  solve := fun asked p schedule levels computations => do
    let request ← Request.skewing p schedule levels computations
    c.answer factorsOfText? (program (Request.sent asked) request)

end Command

end LoopNest
