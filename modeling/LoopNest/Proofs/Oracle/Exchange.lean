import LoopNest.Oracle.Command
import Mathlib.Logic.Relation

/-!
LoopNest.Proofs.Oracle.Exchange — an answer does not depend on who is first.

While an oracle program runs, each of its three pipes is served by a helper of
its own.  A helper reports once, when its pipe is done, and whenever that may be.
Reports queue up, and the call looks at them one by one: until both outputs are
in, until one report ends the call, or until there is no helper left
(`Exchange`).

`Command.await` is this loop over reports in a given order.  What one report does
to it is `Command.hear`, and one invariant says what is still to come (`Due`): an
output that is not in is among the reports that nobody has looked at.  One report
keeps it (`Due.hear`), which carries the loop (`Due.await_eq`) and the exchange
(`Exchange.Runs.fits`) alike.

* `outputs`, `settled` — what comes of a call, from bytes and exit status alone;
* `Exchange.Runs.follows` — an exchange is the loop over what it has looked at;
* `Exchange.exists_step`, `Exchange.Step.weight_lt` — it comes to an end;
* `answer_in_any_order` — all of it.
-/

namespace LoopNest

/-! ## One report after the other -/

/-- How far a call is that waits for reports: what is in of the output and of the
complaints, or what the wait came to. -/
inductive Wait where
  | waiting (out err : Option String)
  | ended (result : Except Outage (String × String))

namespace Command

variable {c : Command} {out err : Option String}

/-- A report is looked at. -/
def hear (c : Command) (out err : Option String) : PipeEvent → Wait
  | .written (.failed reason) => .ended (.error (.unsent reason))
  | .written _ => .waiting out err
  | .output result =>
    match result.text with
    | .ok out => .waiting (some out) err
    | .error reason => .ended (.error (.unreadable reason))
  | .complaint result => .waiting out (some (result.text.toOption.getD ""))
  | .deadline => .ended (.error (.timedOut c.timeout))

/-- With both outputs in, no further report is looked at. -/
theorem await_both (hboth : ¬ (out = none ∨ err = none)) (events : List PipeEvent) :
    c.await events out err = .ok (out.getD "", err.getD "") := by
  cases out <;> cases err <;> simp_all [await]

/-- Without a further report, what is not in counts as empty. -/
theorem await_nil (out err : Option String) :
    c.await [] out err = .ok (out.getD "", err.getD "") := by
  cases out <;> cases err <;> simp [await]

/-- The loop looks at one report and goes on. -/
theorem await_cons (hopen : out = none ∨ err = none) (event : PipeEvent)
    (rest : List PipeEvent) :
    c.await (event :: rest) out err =
      match c.hear out err event with
      | .waiting out err => c.await rest out err
      | .ended result => result := by
  obtain rfl | rfl := hopen
  all_goals
    rcases event with (_ | _ | _) | result | result | _
    case output => cases hresult : result.text <;> simp [await, hear, hresult]
    all_goals simp [await, hear]

end Command

/-! ## What is still to come -/

/-- The outputs of a program that wrote these bytes, if there is a reply to
read. -/
def outputs (output complaint : ByteArray) : Except Outage (String × String) :=
  match String.fromUTF8? output with
  | some reply => .ok (reply, (String.fromUTF8? complaint).getD "")
  | none => .error (.unreadable "stream did not contain valid UTF-8")

/-- The reports of a call in time: the bytes on the two outputs, and that the
request was written or that the program did not care to read it. -/
def Reported (output complaint : ByteArray) : PipeEvent → Prop
  | .written result => ∀ reason, result ≠ .failed reason
  | .output result => result = .ok output
  | .complaint result => result = .ok complaint
  | .deadline => False

/-- Reports that nobody has looked at, and what is in already.  Each output is in,
or it is among them. -/
structure Due (output complaint : ByteArray) (pending : List PipeEvent)
    (out err : Option String) : Prop where
  reported : ∀ event ∈ pending, Reported output complaint event
  output : (out = none ∧ .output (.ok output) ∈ pending) ∨
    ∃ reply, out = some reply ∧ String.fromUTF8? output = some reply
  complaint : (err = none ∧ .complaint (.ok complaint) ∈ pending) ∨
    err = some ((String.fromUTF8? complaint).getD "")

/-- The wait is over with the outputs, or they are due. -/
def Wait.Fits (output complaint : ByteArray) (pending : List PipeEvent) : Wait → Prop
  | .waiting out err => Due output complaint pending out err
  | .ended result => result = outputs output complaint

namespace Due

variable {c : Command} {output complaint : ByteArray} {pending : List PipeEvent}
  {out err : Option String}

/-- The order of reports does not matter. -/
theorem of_mem_iff (h : Due output complaint pending out err) {others : List PipeEvent}
    (hmem : ∀ event, event ∈ others ↔ event ∈ pending) :
    Due output complaint others out err where
  reported := fun event hevent => h.reported event ((hmem event).1 hevent)
  output := by
    rw [hmem]
    exact h.output
  complaint := by
    rw [hmem]
    exact h.complaint

/-- If the wait ends because both outputs are in, or because there are no more
reports, then with the outputs of the program. -/
theorem close (h : Due output complaint pending out err)
    (hend : ¬ (out = none ∨ err = none) ∨ pending = []) :
    .ok (out.getD "", err.getD "") = outputs output complaint := by
  -- with a report still to come the wait ends only if both outputs are in
  have hclosed : ∀ event ∈ pending, ¬ (out = none ∨ err = none) := by
    intro event hevent
    rcases hend with hboth | rfl
    · exact hboth
    · cases hevent
  have hout : ∃ reply, out = some reply ∧ String.fromUTF8? output = some reply :=
    h.output.resolve_left fun ⟨hnone, hmem⟩ => hclosed _ hmem (Or.inl hnone)
  have herr : err = some ((String.fromUTF8? complaint).getD "") :=
    h.complaint.resolve_left fun ⟨hnone, hmem⟩ => hclosed _ hmem (Or.inr hnone)
  obtain ⟨reply, rfl, hreply⟩ := hout
  rw [herr, outputs, hreply]
  rfl

/-- After a look at one report the others are due, or the wait is over. -/
theorem hear {event : PipeEvent} (h : Due output complaint (event :: pending) out err) :
    (c.hear out err event).Fits output complaint pending := by
  have hevent := h.reported event (List.mem_cons_self ..)
  have hreported : ∀ event ∈ pending, Reported output complaint event := fun e he =>
    h.reported e (List.mem_cons_of_mem _ he)
  have houtput := h.output
  have hcomplaint := h.complaint
  rw [List.mem_cons] at houtput hcomplaint
  cases event with
  | written result =>
    have hwaiting : c.hear out err (.written result) = .waiting out err := by
      cases result with
      | failed reason => exact absurd rfl (hevent reason)
      | _ => rfl
    rw [hwaiting]
    exact ⟨hreported, by simpa using houtput, by simpa using hcomplaint⟩
  | output result =>
    obtain rfl : result = .ok output := hevent
    rw [Command.hear, ReadResult.text]
    cases hreply : String.fromUTF8? output with
    | none => exact (by rw [outputs, hreply] : _ = outputs output complaint)
    | some reply => exact ⟨hreported, Or.inr ⟨reply, rfl, hreply⟩, by simpa using hcomplaint⟩
  | complaint result =>
    obtain rfl : result = .ok complaint := hevent
    refine ⟨hreported, by simpa using houtput, Or.inr ?_⟩
    rw [ReadResult.text]
    cases String.fromUTF8? complaint <;> rfl
  | deadline => exact hevent.elim

/-- The loop ends with the outputs of the program. -/
theorem await_eq : ∀ {events : List PipeEvent} {out err : Option String},
    Due output complaint events out err → c.await events out err = outputs output complaint
  | [], out, err, h => by rw [Command.await_nil, h.close (Or.inr rfl)]
  | event :: rest, out, err, h => by
      by_cases hopen : out = none ∨ err = none
      · have hfits := h.hear (c := c)
        rw [Command.await_cons hopen]
        cases hheard : c.hear out err event with
        | waiting out' err' =>
          rw [hheard] at hfits
          exact await_eq hfits
        | ended result =>
          rw [hheard] at hfits
          exact hfits
      · rw [Command.await_both hopen, h.close (Or.inl hopen)]

end Due

/-! ## Exchanges -/

/-- A call and its helpers. -/
structure Exchange where
  /-- what the helpers that are still at work are going to report -/
  unsent : List PipeEvent
  /-- reported and not looked at, the oldest first -/
  queue : List PipeEvent := []
  /-- looked at, the oldest first -/
  seen : List PipeEvent := []
  state : Wait := .waiting none none

namespace Exchange

/-- One thing that can happen next. -/
inductive Step (c : Command) : Exchange → Exchange → Prop
  /-- a helper reports, no matter which -/
  | report {before after queue seen : List PipeEvent} {event : PipeEvent} {state : Wait} :
    Step c ⟨before ++ event :: after, queue, seen, state⟩
      ⟨before ++ after, queue ++ [event], seen, state⟩
  /-- as long as an output is not in, the oldest report is looked at -/
  | look {unsent queue seen : List PipeEvent} {event : PipeEvent} {out err : Option String}
      (hopen : out = none ∨ err = none) :
    Step c ⟨unsent, event :: queue, seen, .waiting out err⟩
      ⟨unsent, queue, seen ++ [event], c.hear out err event⟩
  /-- both outputs are in, or there is nobody left to wait for -/
  | leave {unsent queue seen : List PipeEvent} {out err : Option String}
      (hend : ¬ (out = none ∨ err = none) ∨ queue ++ unsent = []) :
    Step c ⟨unsent, queue, seen, .waiting out err⟩
      ⟨unsent, queue, seen, .ended (.ok (out.getD "", err.getD ""))⟩

/-- What can become of an exchange. -/
def Runs (c : Command) : Exchange → Exchange → Prop := Relation.ReflTransGen (Step c)

variable {c : Command} {x y : Exchange}

/-- A call that waits can go on. -/
theorem exists_step (c : Command) {out err : Option String} (hwait : x.state = .waiting out err) :
    ∃ y, x.Step c y := by
  obtain ⟨unsent, queue, seen, state⟩ := x
  obtain rfl : state = .waiting out err := hwait
  by_cases hopen : out = none ∨ err = none
  · cases queue with
    | cons event queue => exact ⟨_, .look hopen⟩
    | nil =>
      cases unsent with
      | cons event unsent => exact ⟨_, @Step.report c [] unsent [] seen event _⟩
      | nil => exact ⟨_, .leave (Or.inr rfl)⟩
  · exact ⟨_, .leave (Or.inl hopen)⟩

/-- How much can still happen: each report is sent and looked at, and the call is
left once. -/
def weight (x : Exchange) : Nat :=
  2 * x.unsent.length + x.queue.length +
    match x.state with
    | .waiting _ _ => 1
    | .ended _ => 0

theorem Step.weight_lt (h : x.Step c y) : y.weight < x.weight := by
  cases h with
  | report =>
    simp only [weight, List.length_append, List.length_cons, List.length_nil]
    omega
  | @look unsent queue seen event out err hopen =>
    simp only [weight, List.length_cons]
    cases c.hear out err event <;> simp only <;> omega
  | leave _ => simp [weight]

/-- The state of a call is that of the loop over the reports it has looked at. -/
def Follows (c : Command) (seen : List PipeEvent) : Wait → Prop
  | .waiting out err => ∀ rest, c.await (seen ++ rest) none none = c.await rest out err
  | .ended result => c.await seen none none = result

theorem Step.follows (h : x.Step c y) (hx : Follows c x.seen x.state) :
    Follows c y.seen y.state := by
  cases h with
  | report => exact hx
  | @look unsent queue seen event out err hopen =>
    have hnext : ∀ rest, c.await (seen ++ [event] ++ rest) none none =
        match c.hear out err event with
        | .waiting out err => c.await rest out err
        | .ended result => result := by
      intro rest
      rw [List.append_assoc, List.singleton_append, hx, Command.await_cons hopen]
    cases hheard : c.hear out err event with
    | waiting out' err' =>
      rw [hheard] at hnext
      exact hnext
    | ended result =>
      rw [hheard] at hnext
      exact (by simpa using hnext [] : c.await (seen ++ [event]) none none = result)
  | @leave unsent queue seen out err hend =>
    have hnow := hx []
    rw [List.append_nil, Command.await_nil] at hnow
    exact hnow

theorem Step.fits {output complaint : ByteArray} (h : x.Step c y)
    (hx : x.state.Fits output complaint (x.queue ++ x.unsent)) :
    y.state.Fits output complaint (y.queue ++ y.unsent) := by
  cases h with
  | @report before after queue seen event state =>
    cases state with
    | ended result => exact hx
    | waiting out err =>
      refine Due.of_mem_iff hx fun e => ?_
      simp only [List.mem_append, List.mem_cons, List.not_mem_nil]
      grind
  | look _ => exact Due.hear hx
  | leave hend => exact Due.close hx hend

theorem Runs.follows {reports : List PipeEvent} (h : Runs c { unsent := reports } x) :
    Follows c x.seen x.state := by
  induction h with
  | refl => exact fun _ => rfl
  | tail _ hstep ih => exact hstep.follows ih

theorem Runs.fits {output complaint : ByteArray} {reports : List PipeEvent}
    (hdue : Due output complaint reports none none) (h : Runs c { unsent := reports } x) :
    x.state.Fits output complaint (x.queue ++ x.unsent) := by
  induction h with
  | refl => exact hdue
  | tail _ hstep ih => exact hstep.fits ih

end Exchange

/-! ## The answer -/

namespace Command

variable {c : Command} {α : Type}

/-- What a call answers in time, from the bytes on the two outputs and the exit
status alone: an output without a text is no reply, whatever the status; then the
status counts, and only then the reply. -/
def settled (understand : String → Option α) (output complaint : ByteArray)
    (status : ExitStatus) : Except Error α :=
  match String.fromUTF8? output with
  | none => .error (.oracleUnavailable (.unreadable "stream did not contain valid UTF-8"))
  | some reply =>
    if status.isSuccess then
      match understand (trimBlank reply) with
      | some a => .ok a
      | none => .error (.oracleUnavailable .unparsable)
    else
      .error (.oracleUnavailable
        (.exited status (trimBlank ((String.fromUTF8? complaint).getD ""))))

/-- The same with its errors in words. -/
def worded (understand : String → Option α) (output complaint : ByteArray)
    (status : ExitStatus) : Except String α :=
  let unavailable := fun what => .error ("Oracle unavailable: " ++ what)
  match String.fromUTF8? output with
  | none => unavailable ("failed to read reply: " ++ "stream did not contain valid UTF-8")
  | some reply =>
    if status.isSuccess then
      match understand (trimBlank reply) with
      | some a => .ok a
      | none => unavailable "unparsable reply"
    else
      unavailable ("oracle exited with " ++ status.text ++ ": " ++
        trimBlank ((String.fromUTF8? complaint).getD ""))

theorem mapError_message_settled (understand : String → Option α) (output complaint : ByteArray)
    (status : ExitStatus) : (settled understand output complaint status).mapError Error.message
      = worded understand output complaint status := by
  rw [settled, worded]
  cases String.fromUTF8? output with
  | none => rfl
  | some reply =>
    dsimp only
    cases status.isSuccess with
    | true => cases understand (trimBlank reply) <;> rfl
    | false => rfl

theorem answer_eq_settled {output complaint : ByteArray} {events : List PipeEvent}
    (h : c.await events none none = outputs output complaint) (understand : String → Option α)
    (status : ExitStatus) :
    c.answer understand (.started events (.ok status))
      = settled understand output complaint status := by
  cases hreply : String.fromUTF8? output with
  | none =>
    have hread : c.read (.started events (.ok status)) =
        .error (.unreadable "stream did not contain valid UTF-8") := by
      rw [read, h, outputs, hreply]
      rfl
    rw [answer, hread, settled, hreply]
  | some reply =>
    have hread : c.read (.started events (.ok status)) =
        conclude (.ok status) reply ((String.fromUTF8? complaint).getD "") := by
      rw [read, h, outputs, hreply]
      rfl
    rw [answer, hread, conclude, settled, hreply]
    cases status.isSuccess <;> rfl

/-- The reports of a call in time, before any has been looked at. -/
theorem due_reports (output complaint : ByteArray) {written events : List PipeEvent}
    (hwritten : ∀ event ∈ written, ∃ w, event = .written w ∧ ∀ reason, w ≠ .failed reason)
    (hevents : events.Perm (written ++ [.output (.ok output), .complaint (.ok complaint)])) :
    Due output complaint events none none where
  reported := by
    intro event hevent
    rw [hevents.mem_iff, List.mem_append] at hevent
    rcases hevent with hevent | hevent
    · obtain ⟨w, rfl, hw⟩ := hwritten event hevent
      exact hw
    · rcases List.mem_cons.1 hevent with rfl | hevent
      · exact rfl
      · obtain rfl := List.mem_singleton.1 hevent
        exact rfl
  output := Or.inl ⟨rfl, hevents.mem_iff.2 (by simp)⟩
  complaint := Or.inl ⟨rfl, hevents.mem_iff.2 (by simp)⟩

/-- The answer of a call does not depend on the order in which its helpers come to
an end.

Let the program write some bytes on its two outputs and end with some status, all
in time, and let the request be written or the program close its input before.
Whatever the order of the three reports, and also if the two outputs are in
before that on the request is there, the answer is the same; it takes no account
of the complaints if the program ended with success.  And each way in which the
helpers may proceed leads to this answer: as long as the call waits something
can happen, nothing happens without end, and when the wait is over it has come
to what the loop makes of the reports looked at. -/
theorem answer_in_any_order (c : Command) (understand : String → Option α)
    (output complaint : ByteArray) (status : ExitStatus) {w : WriteResult}
    (hw : ∀ reason, w ≠ .failed reason) :
    let both := [PipeEvent.output (.ok output), .complaint (.ok complaint)]
    let answer := fun events => c.answer understand (.started events (.ok status))
    let result := settled understand output complaint status
    (∀ events, events.Perm (.written w :: both) ∨ events.Perm both → answer events = result) ∧
    (∀ x, Exchange.Runs c { unsent := .written w :: both } x →
      (∀ out err, x.state = .waiting out err → ∃ y, x.Step c y) ∧
      (∀ y, x.Step c y → y.weight < x.weight) ∧
      ∀ outcome, x.state = .ended outcome →
        c.await x.seen none none = outcome ∧ answer x.seen = result) ∧
    (status.isSuccess = true → ∀ other, settled understand output other status = result) ∧
    result.mapError Error.message = worded understand output complaint status := by
  intro both answer result
  have hwritten : ∀ event ∈ [PipeEvent.written w],
      ∃ w, event = .written w ∧ ∀ reason, w ≠ .failed reason := by
    intro event hevent
    exact ⟨w, List.mem_singleton.1 hevent, hw⟩
  refine ⟨fun events hevents => ?_, fun x hruns => ⟨fun out err => x.exists_step c,
    fun y hstep => hstep.weight_lt, fun outcome hended => ?_⟩, fun hsuccess other => ?_, ?_⟩
  · refine answer_eq_settled ?_ understand status
    rcases hevents with hall | hunread
    · exact (due_reports output complaint hwritten hall).await_eq
    · exact (@due_reports output complaint [] events (by simp) hunread).await_eq
  · have hfollows := hruns.follows
    have hfits := hruns.fits (due_reports output complaint hwritten (.refl _))
    rw [hended] at hfollows hfits
    exact ⟨hfollows, answer_eq_settled (hfollows.trans hfits) understand status⟩
  · show settled understand output other status = settled understand output complaint status
    simp only [settled, hsuccess, if_true]
  · exact mapError_message_settled understand output complaint status

/-- A program that complains in bytes that are no text, accepts the schedule without
reading the request to the end and ends with success.  Its answer counts, whether
the call learns of the request or not, and there is a way to it. -/
theorem answer_of_careless_program :
    let c : Command := { executable := "judge" }
    let reply := "\x7b\"legal\": true\x7d\n"
    let output := PipeEvent.output (.ok reply.toUTF8)
    let complaint := PipeEvent.complaint (.ok ⟨#[0xff]⟩)
    let written := PipeEvent.written .brokenPipe
    c.answer verdictOfText? (.started [complaint, written, output] (.ok (.code 0))) = .ok true ∧
      c.answer verdictOfText? (.started [output, complaint] (.ok (.code 0))) = .ok true ∧
      ∃ x result, Exchange.Runs c { unsent := [written, output, complaint] } x ∧
        x.state = .ended result ∧ x.unsent = [written] ∧
        c.answer verdictOfText? (.started x.seen (.ok (.code 0))) = .ok true := by
  intro c reply output complaint written
  obtain ⟨hany, hruns, -⟩ := answer_in_any_order c verdictOfText? reply.toUTF8 ⟨#[0xff]⟩
    (.code 0) (w := .brokenPipe) (by simp)
  have hreply : String.fromUTF8? reply.toUTF8 = some reply := by decide +kernel
  have hverdict : verdictOfText? (trimBlank reply) = some true := by decide +kernel
  have hsettled : settled verdictOfText? reply.toUTF8 ⟨#[0xff]⟩ (.code 0) = .ok true := by
    simp only [settled, hreply, hverdict]
    rfl
  refine ⟨(hany _ (.inl ?_)).trans hsettled, (hany _ (.inr (.refl _))).trans hsettled, ?_⟩
  · exact @List.perm_append_comm _ [complaint] [written, output]
  · have hfirst : c.hear none none complaint = .waiting none (some "") := by rfl
    have hthen : c.hear none (some "") output = .waiting (some reply) (some "") := by
      simp only [output, hear, ReadResult.text, hreply]
    have hlooked : Exchange.Runs c { unsent := [written, output, complaint] }
        ⟨[written, output], [], [complaint], .waiting none (some "")⟩ :=
      ((Relation.ReflTransGen.single
        (@Exchange.Step.report c [written, output] [] [] [] complaint _)).tail
          (.look (.inl rfl))).trans (by rw [hfirst]; exact .refl)
    have hboth : Exchange.Runs c { unsent := [written, output, complaint] }
        ⟨[written], [], [complaint, output], .waiting (some reply) (some "")⟩ :=
      ((hlooked.tail (@Exchange.Step.report c [written] [] [] [complaint] output _)).tail
          (.look (.inl rfl))).trans (by rw [hthen]; exact .refl)
    have hleft := hboth.tail (.leave (.inl (by simp)))
    exact ⟨_, _, hleft, rfl, rfl, ((hruns _ hleft).2.2 _ rfl).2.trans hsettled⟩

end Command

end LoopNest
