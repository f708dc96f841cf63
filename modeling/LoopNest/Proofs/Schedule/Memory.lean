import LoopNest.Schedule.Workbench
import Mathlib.Logic.Function.Basic

/-!
LoopNest.Proofs.Schedule.Memory — what a remembered verdict is worth.

A schedule remembers the oracle's verdict on it.  Copies inherit the
memory and every addition wipes it, so several schedules may remember what
was said of one of them only.  What makes this sound is kept for a whole
workbench at a time (`Workbench.Kept`): each memory is an answer in the
common record of queries, about exactly the actions that the schedule has
now.

The actions themselves are known without any oracle: they are what was
added to a place, or to the place it was copied from, in order
(`Operation.contents`).

* `Oracle.Answered` — an answer somewhere in a record of queries;
* `Operation`, `Workbench.after`, `Workbench.session` — what is done at a
  workbench, and a whole run of it;
* `Kept.after`, `Kept.run` — one operation, and a run of them;
* `Workbench.session_remembers` — what a run can rely on.
-/

namespace LoopNest

/-- At some point of a record of queries an oracle was asked for its verdict
on a schedule, and this was its answer there. -/
def Oracle.Answered (oracle : Oracle) (asked : List Query) (program : Program)
    (schedule : List Action) (answer : Except Error Bool) : Prop :=
  ∃ earlier later, asked = earlier ++ .legality program schedule :: later ∧
    oracle.judge earlier program schedule = answer

variable {oracle : Oracle} {program : Program}

theorem Oracle.answered_concat_iff {asked : List Query} {last schedule : List Action}
    {answer : Except Error Bool} :
    oracle.Answered (asked ++ [.legality program last]) program schedule answer ↔
      oracle.Answered asked program schedule answer ∨
        schedule = last ∧ oracle.judge asked program last = answer := by
  constructor
  · rintro ⟨earlier, later, hsplit, hanswer⟩
    rcases List.eq_nil_or_concat later with rfl | ⟨most, query, rfl⟩
    · obtain ⟨rfl, hquery⟩ := List.append_inj' hsplit rfl
      cases hquery
      exact Or.inr ⟨rfl, hanswer⟩
    · rw [List.concat_eq_append, ← List.cons_append, ← List.append_assoc] at hsplit
      obtain ⟨rfl, -⟩ := List.append_inj' hsplit rfl
      exact Or.inl ⟨earlier, most, rfl, hanswer⟩
  · rintro (⟨earlier, later, rfl, hanswer⟩ | ⟨rfl, hanswer⟩)
    · exact ⟨earlier, later ++ [.legality program last], by simp, hanswer⟩
    · exact ⟨asked, [], rfl, hanswer⟩

/-- The verdict on a schedule: what it remembers, or what the oracle says. -/
def Schedule.answer (s : Schedule) (oracle : Oracle) (asked : List Query) : Except Error Bool :=
  match s.verdict with
  | some legal => .ok legal
  | none => oracle.judge asked s.program s.actions

/-- The query that has to be put for a verdict; none if it is remembered. -/
def Schedule.question (s : Schedule) : List Query :=
  if s.verdict = none then [.legality s.program s.actions] else []

/-- Judging a schedule puts its question, gives its answer and remembers it,
if it is a verdict. -/
theorem Schedule.judge_eq (s : Schedule) (oracle : Oracle) (asked : List Query) :
    s.judge oracle asked = (s.answer oracle asked,
      { s with verdict := (s.answer oracle asked).toOption }, asked ++ s.question) := by
  obtain ⟨p, actions, _ | legal⟩ := s
  · cases hanswer : oracle.judge asked p actions <;>
      simp [judge, answer, question, Oracle.askLegality, hanswer, Except.toOption]
  · simp [judge, answer, question, Except.toOption]

/-- A verdict that a schedule gives has been given by the oracle, if what it
remembers was. -/
theorem Schedule.answered_of_answer {s : Schedule} {asked : List Query} {legal : Bool}
    (hmemory : ∀ legal, s.verdict = some legal →
      oracle.Answered asked s.program s.actions (.ok legal))
    (h : s.answer oracle asked = .ok legal) :
    oracle.Answered (asked ++ s.question) s.program s.actions (.ok legal) := by
  cases hverdict : s.verdict with
  | some verdict =>
    rw [answer, hverdict] at h
    rw [question, hverdict, if_neg (Option.some_ne_none _), List.append_nil]
    exact hmemory legal (hverdict.trans (congrArg some (Except.ok.inj h)))
  | none =>
    rw [answer, hverdict] at h
    rw [question, hverdict, if_pos rfl, Oracle.answered_concat_iff]
    exact Or.inr ⟨rfl, h⟩

/-- An error comes from the oracle, and nothing is remembered of it. -/
theorem Schedule.verdict_of_error {s : Schedule} {asked : List Query} {e : Error}
    (h : s.answer oracle asked = .error e) : s.verdict = none := by
  cases hverdict : s.verdict with
  | none => rfl
  | some legal =>
    rw [answer, hverdict] at h
    cases h

/-! ## Sessions -/

/-- What can be done with the schedules of a workbench. -/
inductive Operation where
  /-- start afresh in a place -/
  | clear (place : String)
  /-- add one action -/
  | push (place : String) (action : Action)
  /-- add some actions, perhaps none -/
  | append (place : String) (actions : List Action)
  /-- put a copy of one schedule in another place -/
  | copy (source target : String)
  /-- ask whether a schedule is legal -/
  | judge (place : String)

namespace Operation

/-- The place that an operation works on. -/
def place : Operation → String
  | .clear place | .push place _ | .append place _ | .copy _ place | .judge place => place

/-- The actions in every place after an operation, from those before it. -/
def contents (held : String → List Action) : Operation → String → List Action
  | .clear place => Function.update held place []
  | .push place action => Function.update held place (held place ++ [action])
  | .append place actions => Function.update held place (held place ++ actions)
  | .copy source target => Function.update held target (held source)
  | .judge _ => held

end Operation

namespace Workbench

/-- A workbench after an operation. -/
def after (oracle : Oracle) (w : Workbench) : Operation → Workbench
  | .clear place => w.put place (.empty w.program)
  | .push place action => w.put place ((w.schedule place).push action)
  | .append place actions => w.append place actions
  | .copy source target => w.copy source target
  | .judge place => (w.judge oracle place).2

/-- The workbench of a program after a run of operations. -/
def session (oracle : Oracle) (program : Program) (operations : List Operation) : Workbench :=
  operations.foldl (after oracle) { program }

/-- The actions in every place after a run of operations. -/
def contents (operations : List Operation) : String → List Action :=
  operations.foldl Operation.contents fun _ => []

variable {w : Workbench} {held : String → List Action}

theorem schedule_put (w : Workbench) (place : String) (s : Schedule) (x : String) :
    (w.put place s).schedule x = if x = place then s else w.schedule x := by
  by_cases hx : x = place
  · subst hx
    simp [schedule, put]
  · have hx' : place ≠ x := fun e => hx e.symm
    simp [schedule, put, Std.ExtTreeMap.getElem?_insert, hx, hx']

theorem judge_eq (w : Workbench) (oracle : Oracle) (place : String) :
    w.judge oracle place =
      let s := w.schedule place
      let answer := s.answer oracle w.asked
      (answer, { w.put place { s with verdict := answer.toOption } with
        asked := w.asked ++ s.question }) := by
  rw [judge, Schedule.judge_eq]

/-- An operation changes the schedule in one place only. -/
theorem schedule_after (oracle : Oracle) (w : Workbench) (operation : Operation) {x : String}
    (hx : x ≠ operation.place) : (w.after oracle operation).schedule x = w.schedule x := by
  cases operation with
  | clear place => exact (schedule_put ..).trans (if_neg hx)
  | push place action => exact (schedule_put ..).trans (if_neg hx)
  | append place actions => exact (schedule_put ..).trans (if_neg hx)
  | copy source target => exact (schedule_put ..).trans (if_neg hx)
  | judge place =>
    rw [after, judge_eq]
    exact (schedule_put ..).trans (if_neg hx)

/-! ## What is kept -/

/-- A workbench holds known actions, and each verdict that is remembered was
given on the actions that are there now. -/
structure Kept (oracle : Oracle) (program : Program) (held : String → List Action)
    (w : Workbench) : Prop where
  program_eq : w.program = program
  schedule_program : ∀ place, (w.schedule place).program = program
  actions_eq : ∀ place, (w.schedule place).actions = held place
  answered : ∀ place legal, (w.schedule place).verdict = some legal →
    oracle.Answered w.asked program (held place) (.ok legal)

namespace Kept

theorem start (oracle : Oracle) (program : Program) :
    Kept oracle program (fun _ => []) { program } where
  program_eq := rfl
  schedule_program _ := rfl
  actions_eq _ := rfl
  answered := by
    intro place legal hverdict
    cases hverdict

/-- A schedule may be put in a place if its own memory is sound. -/
theorem put (h : Kept oracle program held w) (place : String) {s : Schedule}
    (hprogram : s.program = program) (hverdict : ∀ legal, s.verdict = some legal →
      oracle.Answered w.asked program s.actions (.ok legal)) :
    Kept oracle program (Function.update held place s.actions) (w.put place s) where
  program_eq := h.program_eq
  schedule_program := by
    intro x
    rw [schedule_put]
    split
    · exact hprogram
    · exact h.schedule_program x
  actions_eq := by
    intro x
    rw [schedule_put, Function.update_apply]
    split
    · rfl
    · exact h.actions_eq x
  answered := by
    intro x legal
    rw [schedule_put, Function.update_apply]
    split
    · exact hverdict legal
    · exact h.answered x legal

/-- More queries take no answer back. -/
theorem ask (h : Kept oracle program held w) (more : List Query) :
    Kept oracle program held { w with asked := w.asked ++ more } where
  program_eq := h.program_eq
  schedule_program := h.schedule_program
  actions_eq := h.actions_eq
  answered := by
    intro place legal hverdict
    obtain ⟨earlier, later, hsplit, hanswer⟩ := h.answered place legal hverdict
    exact ⟨earlier, later ++ more, by simp [hsplit], hanswer⟩

theorem append (h : Kept oracle program held w) (place : String) (actions : List Action) :
    Kept oracle program (Function.update held place (held place ++ actions))
      (w.append place actions) := by
  rw [← h.actions_eq place]
  refine h.put place (s := (w.schedule place).append actions) (h.schedule_program place) ?_
  intro legal hverdict
  cases hverdict

theorem copy (h : Kept oracle program held w) (source target : String) :
    Kept oracle program (Function.update held target (held source)) (w.copy source target) := by
  rw [← h.actions_eq source]
  refine h.put target (h.schedule_program source) fun legal hverdict => ?_
  rw [h.actions_eq source]
  exact h.answered source legal hverdict

theorem judge (h : Kept oracle program held w) (place : String) :
    Kept oracle program held (w.judge oracle place).2 := by
  rw [judge_eq]
  simp only
  generalize hs : w.schedule place = s
  have hprogram : s.program = program := hs ▸ h.schedule_program place
  have hactions : s.actions = held place := hs ▸ h.actions_eq place
  have hmemory : ∀ legal, s.verdict = some legal →
      oracle.Answered w.asked s.program s.actions (.ok legal) := by
    intro legal hverdict
    rw [hprogram, hactions]
    exact h.answered place legal (hs ▸ hverdict)
  have hheld : Function.update held place s.actions = held := by
    rw [hactions, Function.update_eq_self]
  rw [← hheld]
  -- the question joins the record first, then the schedule remembers the answer
  refine (h.ask s.question).put place
    (s := { s with verdict := (s.answer oracle w.asked).toOption }) hprogram ?_
  intro legal hverdict
  simp only [← hprogram]
  refine Schedule.answered_of_answer hmemory ?_
  cases hanswer : s.answer oracle w.asked with
  | ok verdict =>
    rw [hanswer] at hverdict
    exact congrArg Except.ok (Option.some.inj hverdict)
  | error e =>
    rw [hanswer] at hverdict
    cases hverdict

theorem after (h : Kept oracle program held w) (operation : Operation) :
    Kept oracle program (operation.contents held) (w.after oracle operation) := by
  cases operation with
  | clear place =>
    refine h.put place (s := .empty w.program) h.program_eq fun legal hverdict => ?_
    cases hverdict
  | push place action => exact h.append place [action]
  | append place actions => exact h.append place actions
  | copy source target => exact h.copy source target
  | judge place => exact h.judge place

theorem run (h : Kept oracle program held w) (operations : List Operation) :
    Kept oracle program (operations.foldl Operation.contents held)
      (operations.foldl (Workbench.after oracle) w) := by
  induction operations generalizing held w with
  | nil => exact h
  | cons operation rest ih => exact ih (h.after operation)

end Kept

/-- Whatever is done at a workbench, and whatever the oracle answers, after
any run of operations each schedule has the actions that were added to it or
to what it was copied from, in order, and a verdict that it remembers is the
oracle's answer to an earlier query about just these.  An operation on one
schedule touches no other.

Asking for a verdict puts a query exactly if none is remembered, one and
about the present actions; other operations put none.  The answer is the
verdict that is remembered or what the oracle says now.  A verdict is
remembered from then on; an error is passed on and leaves the schedule as it
was. -/
theorem session_remembers (oracle : Oracle) (program : Program) (operations : List Operation) :
    let w := session oracle program operations
    let held := contents operations
    (∀ place, (w.schedule place).program = program ∧ (w.schedule place).actions = held place) ∧
    (∀ place legal, (w.schedule place).verdict = some legal →
      oracle.Answered w.asked program (held place) (.ok legal)) ∧
    (∀ operation x, x ≠ operation.place →
      (w.after oracle operation).schedule x = w.schedule x) ∧
    (∀ operation, (∀ place, operation ≠ .judge place) →
      (w.after oracle operation).asked = w.asked) ∧
    ∀ place,
      let s := w.schedule place
      let answer := (w.judge oracle place).1
      let next := (w.judge oracle place).2
      next.asked = w.asked ++ (if s.verdict = none then [.legality program (held place)] else []) ∧
      answer = (match s.verdict with
        | some legal => .ok legal
        | none => oracle.judge w.asked program (held place)) ∧
      next.schedule place = { s with verdict := answer.toOption } ∧
      ∀ e, answer = .error e → next.schedule place = s := by
  intro w held
  have hkept : Kept oracle program held w := (Kept.start oracle program).run operations
  refine ⟨fun place => ⟨hkept.schedule_program place, hkept.actions_eq place⟩, hkept.answered,
    fun operation x hx => schedule_after oracle w operation hx, ?_, ?_⟩
  · intro operation hoperation
    cases operation with
    | judge place => exact absurd rfl (hoperation place)
    | _ => rfl
  · intro place s answer next
    have hprogram : s.program = program := hkept.schedule_program place
    have hactions : s.actions = held place := hkept.actions_eq place
    have hanswer : answer = s.answer oracle w.asked := by
      show (w.judge oracle place).1 = _
      rw [judge_eq]
    have hschedule : next.schedule place = { s with verdict := answer.toOption } := by
      rw [hanswer]
      show (w.judge oracle place).2.schedule place = _
      rw [judge_eq]
      exact (schedule_put ..).trans (if_pos rfl)
    refine ⟨?_, ?_, hschedule, fun e he => ?_⟩
    · rw [← hprogram, ← hactions]
      show (w.judge oracle place).2.asked = _
      rw [judge_eq]
      rfl
    · rw [hanswer, Schedule.answer, hprogram, hactions]
    · have hnone := Schedule.verdict_of_error (hanswer.symm.trans he)
      rw [hschedule, he]
      show { s with verdict := none } = s
      rw [← hnone]

/-- A copy is added to: the two schedules have a verdict each, of their own. -/
theorem session_branches :
    let oracle := Oracle.scripted [.ok true, .ok false] (.ok true) [] (.ok none)
    let outer : Action := ⟨.parallelization, [.loop ⟨"i"⟩], ["S"]⟩
    let inner : Action := ⟨.reversal, [.loop ⟨"j"⟩], ["S"]⟩
    let w := session oracle ⟨"p", ⟨.empty⟩, .empty⟩ [.push "best" outer, .judge "best",
      .copy "best" "trial", .append "trial" [inner], .judge "trial", .judge "best"]
    w.asked.length = 2 ∧
      oracle.Answered w.asked ⟨"p", ⟨.empty⟩, .empty⟩ [outer] (.ok true) ∧
      oracle.Answered w.asked ⟨"p", ⟨.empty⟩, .empty⟩ [outer, inner] (.ok false) := by
  intro oracle outer inner w
  obtain ⟨-, hanswered, -⟩ := session_remembers oracle ⟨"p", ⟨.empty⟩, .empty⟩
    [.push "best" outer, .judge "best", .copy "best" "trial", .append "trial" [inner],
      .judge "trial", .judge "best"]
  exact ⟨by decide +kernel, hanswered "best" true (by decide +kernel),
    hanswered "trial" false (by decide +kernel)⟩

end Workbench

end LoopNest
