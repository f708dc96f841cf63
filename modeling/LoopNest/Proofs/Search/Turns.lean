import LoopNest.Proofs.Forest.SectionOrder
import LoopNest.Proofs.Search.Fold
import LoopNest.Proofs.Search.Steps

/-!
LoopNest.Proofs.Search.Turns — what a search does at one root.

At a root the search looks at its loops in turn and passes them by, a loop
with nothing to compute inside being skipped and a trial being refused or
lost (`Passed`).  This ends in one of three ways: no loop is left, no call is
left, or a trial settles the root (`Turn`).  In each the search has looked at
the first so many loops, and its record and its counters follow from these
loops alone (`Looked`).

A search is one turn after the other, until one of them ends it (`Course`).

* `tryCandidates_turn`, `tryRoots_course` — a search consists of such turns;
* `Turn.looked_eq`, `Turn.isPrefix`, `Turn.accepted_le` — what a turn comes to;
* `OutsideIn`, `exists_outsideIn` — the loops of every root, outer ones first;
* `rounds` — the turns of a search, with the roots that they are about;
* `Course.invariant` — what every turn keeps, a search keeps;
* `run_course` — a whole search.
-/

namespace LoopNest

theorem Forest.marking?_eq_some_iff {t : Forest} {loop : LoopId} {action : Action} :
    t.marking? loop = some action ↔ ∃ computations,
      t.subtreeComputations loop = .ok computations ∧ computations ≠ [] ∧
        action = .parallel loop computations := by
  cases hcomputations : t.subtreeComputations loop with
  | error e => simp [marking?, hcomputations]
  | ok computations =>
    by_cases hnone : computations = []
    · simp [marking?_eq hcomputations, hnone]
    · simp [marking?_eq hcomputations, hnone, eq_comm]

namespace Search

variable {limits : SearchLimits} {oracle : Oracle} {t : Forest} {p q : Progress}

/-! ## Looking at loops -/

/-- Loops that are looked at in turn and do not settle their root: there is
nothing to compute inside, or the trial is refused, or the oracle fails on
it. -/
inductive Passed (oracle : Oracle) (t : Forest) : Progress → List LoopId → Progress → Prop where
  | nil (p : Progress) : Passed oracle t p [] p
  | skipped {p q : Progress} {loop : LoopId} {looked : List LoopId} :
    t.subtreeComputations loop = .ok [] → Passed oracle t p.skip looked q →
    Passed oracle t p (loop :: looked) q
  | refused {p q : Progress} {loop : LoopId} {action : Action} {looked : List LoopId} :
    t.marking? loop = some action → ending? (p.answer oracle action) = none →
    Passed oracle t (p.tried oracle action) looked q → Passed oracle t p (loop :: looked) q

/-- How the search may leave a root with these loops, and at which of them it
has looked then. -/
inductive Turn (limits : SearchLimits) (oracle : Oracle) (t : Forest) (loops : List LoopId)
    (p : Progress) : List LoopId → Progress × Option Halt → Prop where
  | exhausted {q : Progress} : Passed oracle t p loops q →
    Turn limits oracle t loops p loops (q, none)
  | spent {q : Progress} {looked left : List LoopId} {next : LoopId} :
    loops = looked ++ next :: left → Passed oracle t p looked q →
    limits.allowsCall q.statistics.oracleCalls = false →
    Turn limits oracle t loops p looked (q, some .spent)
  | settled {q : Progress} {looked left : List LoopId} {loop : LoopId} {action : Action}
    {halt : Option Halt} : loops = looked ++ loop :: left → Passed oracle t p looked q →
    t.marking? loop = some action → ending? (q.answer oracle action) = some halt →
    Turn limits oracle t loops p (looked ++ [loop]) (q.tried oracle action, halt)

/-- A turn that begins with a loop that is passed by. -/
theorem Turn.cons {loop : LoopId} {loops looked : List LoopId} {result : Progress × Option Halt}
    (hpass : ∀ {more : List LoopId} {r : Progress}, Passed oracle t q more r →
      Passed oracle t p (loop :: more) r)
    (h : Turn limits oracle t loops q looked result) :
    Turn limits oracle t (loop :: loops) p (loop :: looked) result := by
  cases h with
  | exhausted hpassed => exact .exhausted (hpass hpassed)
  | spent hsplit hpassed hcall => exact .spent (congrArg (loop :: ·) hsplit) (hpass hpassed) hcall
  | settled hsplit hpassed hmark hend =>
    exact .settled (congrArg (loop :: ·) hsplit) (hpass hpassed) hmark hend

theorem tryCandidates_turn : ∀ (loops : List LoopId) (p : Progress),
    (∀ loop ∈ loops, ∃ computations, t.subtreeComputations loop = .ok computations) →
    ∃ looked, Turn limits oracle t loops p looked
      (tryCandidates limits oracle t (loops.map fun loop => [loop]) p)
  | [], p, _ => ⟨[], .exhausted (.nil p)⟩
  | loop :: rest, p, hloops => by
      obtain ⟨computations, hcomputations⟩ := hloops loop (List.mem_cons_self ..)
      have hrest := fun x hx => hloops x (List.mem_cons_of_mem _ hx)
      rw [List.map_cons, tryCandidates_single hcomputations]
      split
      · next hcall => exact ⟨[], .spent (List.nil_append _).symm (.nil p) hcall⟩
      · split
        · next hnone =>
          obtain ⟨looked, hturn⟩ := tryCandidates_turn rest p.skip hrest
          exact ⟨loop :: looked, hturn.cons (.skipped (hnone ▸ hcomputations))⟩
        · next hne =>
          have hmark := Forest.marking?_eq_some_iff.2 ⟨computations, hcomputations, hne, rfl⟩
          cases hend : ending? (p.answer oracle (.parallel loop computations)) with
          | some halt => exact ⟨[loop], .settled (List.nil_append _).symm (.nil p) hmark hend⟩
          | none =>
            obtain ⟨looked, hturn⟩ := tryCandidates_turn rest _ hrest
            exact ⟨loop :: looked, hturn.cons (.refused hmark hend)⟩

/-! ## Counters -/

theorem ending?_eq_accepted_iff {answer : Except Error Bool} :
    ending? answer = some none ↔ answer = .ok true := by
  match answer with
  | .ok true => simp [ending?]
  | .ok false => simp [ending?]
  | .error e => by_cases he : e.isOracleFailure = true <;> simp [ending?, he]

theorem ne_legal_of_ending? {answer : Except Error Bool} (h : ending? answer = none) :
    answer ≠ .ok true := by
  rintro rfl
  cases h

namespace Progress

variable (oracle : Oracle) (p : Progress) (action : Action)

/-- A trial is counted as one.  It adds to neither the roots nor the skipped
candidates. -/
theorem counters_tried :
    (p.tried oracle action).statistics.rootsVisited = p.statistics.rootsVisited ∧
    (p.tried oracle action).statistics.candidatesTried = p.statistics.candidatesTried + 1 ∧
    (p.tried oracle action).statistics.candidatesSkipped = p.statistics.candidatesSkipped := by
  unfold tried
  split
  · exact ⟨rfl, rfl, rfl⟩
  · exact ⟨rfl, rfl, rfl⟩
  · split <;> exact ⟨rfl, rfl, rfl⟩

theorem accepted_tried : (p.tried oracle action).statistics.accepted =
    p.statistics.accepted + if p.answer oracle action = .ok true then 1 else 0 := by
  unfold tried
  split
  · next hlegal => rw [if_pos hlegal]; rfl
  · next hillegal => simp [hillegal, reject, ask]
  · next he => split <;> simp [he, drop, ask]

end Progress

/-- What the search asks about an action, added to its best schedule. -/
def Progress.trial (p : Progress) (action : Action) : Query :=
  .legality p.best.program (p.best.actions ++ [action])

/-- What looking at some loops adds to a record and its counters: a trial for
each loop with something to compute inside, and a skip for every other. -/
structure Looked (t : Forest) (looked : List LoopId) (p q : Progress) : Prop where
  rootsVisited : q.statistics.rootsVisited = p.statistics.rootsVisited
  tried : q.statistics.candidatesTried
    = p.statistics.candidatesTried + (looked.filterMap t.marking?).length
  skipped : q.statistics.candidatesSkipped = p.statistics.candidatesSkipped
    + looked.countP fun loop => t.subtreeComputations loop = .ok []
  asked : q.asked = p.asked ++ (looked.filterMap t.marking?).map p.trial

namespace Looked

variable {looked more : List LoopId}

theorem nil (t : Forest) (p : Progress) : Looked t [] p p :=
  ⟨rfl, rfl, rfl, by simp⟩

theorem skip {loop : LoopId} (h : t.subtreeComputations loop = .ok []) (p : Progress) :
    Looked t [loop] p p.skip := by
  have hmark : t.marking? loop = none := by simp [Forest.marking?_eq h]
  constructor <;> simp [Progress.skip, hmark, h]

theorem tried_marking {loop : LoopId} {action : Action} (h : t.marking? loop = some action)
    (oracle : Oracle) (p : Progress) : Looked t [loop] p (p.tried oracle action) := by
  obtain ⟨computations, hcomputations, hne, -⟩ := Forest.marking?_eq_some_iff.1 h
  obtain ⟨hroots, htried, hskipped⟩ := Progress.counters_tried oracle p action
  refine ⟨hroots, ?_, ?_, ?_⟩
  · simp [htried, h]
  · simp [hskipped, hcomputations, hne]
  · simp [h, Progress.trial]

/-- Looking goes on from where it stands, the best schedule being the same. -/
theorem append {r : Progress} (h : Looked t looked p q) (hbest : q.best = p.best)
    (h' : Looked t more q r) : Looked t (looked ++ more) p r where
  rootsVisited := h'.rootsVisited.trans h.rootsVisited
  tried := by rw [h'.tried, h.tried, List.filterMap_append, List.length_append, Nat.add_assoc]
  skipped := by rw [h'.skipped, h.skipped, List.countP_append, Nat.add_assoc]
  asked := by
    have htrial : q.trial = p.trial := by
      funext action
      rw [Progress.trial, hbest, Progress.trial]
    rw [h'.asked, h.asked, htrial, List.filterMap_append, List.map_append, List.append_assoc]

end Looked

/-- Loops that are passed by leave the best schedule as it was. -/
theorem Passed.best_eq {looked : List LoopId} (h : Passed oracle t p looked q) :
    q.best = p.best ∧ q.statistics.accepted = p.statistics.accepted := by
  induction h with
  | nil => exact ⟨rfl, rfl⟩
  | skipped _ _ ih => exact ih
  | @refused p q loop action looked _ hend _ ih =>
    have hne := ne_legal_of_ending? hend
    rw [Progress.best_tried_of_ne hne, Progress.accepted_tried, if_neg hne] at ih
    exact ih

theorem Passed.looked {looked : List LoopId} (h : Passed oracle t p looked q) :
    Looked t looked p q := by
  induction h with
  | nil p => exact .nil t p
  | @skipped p q loop looked hnone _ ih =>
    exact (Looked.skip hnone p).append rfl ih
  | @refused p q loop action looked hmark hend _ ih =>
    exact (Looked.tried_marking hmark oracle p).append
      (Progress.best_tried_of_ne (ne_legal_of_ending? hend)) ih

/-! ## Turns -/

namespace Turn

variable {loops looked : List LoopId} {halt : Option Halt}

theorem looked_eq (h : Turn limits oracle t loops p looked (q, halt)) : Looked t looked p q := by
  cases h with
  | exhausted hpassed => exact hpassed.looked
  | spent _ hpassed _ => exact hpassed.looked
  | settled _ hpassed hmark _ =>
    exact hpassed.looked.append hpassed.best_eq.1 (.tried_marking hmark oracle _)

theorem isPrefix (h : Turn limits oracle t loops p looked (q, halt)) : looked <+: loops := by
  cases h with
  | exhausted => exact List.prefix_rfl
  | spent hsplit _ _ => exact ⟨_, hsplit.symm⟩
  | @settled _ _ left loop _ _ hsplit _ _ _ => exact ⟨left, by simp [hsplit]⟩

theorem program_eq (h : Turn limits oracle t loops p looked (q, halt)) :
    q.best.program = p.best.program := by
  cases h with
  | exhausted hpassed => rw [hpassed.best_eq.1]
  | spent _ hpassed _ => rw [hpassed.best_eq.1]
  | settled _ hpassed _ _ => rw [Progress.program_tried, hpassed.best_eq.1]

/-- A turn accepts one trial at most. -/
theorem accepted_le (h : Turn limits oracle t loops p looked (q, halt)) :
    p.statistics.accepted ≤ q.statistics.accepted ∧
      q.statistics.accepted ≤ p.statistics.accepted + 1 := by
  cases h with
  | exhausted hpassed => simp [hpassed.best_eq.2]
  | spent _ hpassed _ => simp [hpassed.best_eq.2]
  | settled _ hpassed _ _ =>
    rw [Progress.accepted_tried, hpassed.best_eq.2]
    split <;> simp

/-- If nothing is accepted and the search goes on, it has looked at all
loops. -/
theorem eq_of_accepted_eq (h : Turn limits oracle t loops p looked (q, none))
    (hnone : q.statistics.accepted = p.statistics.accepted) : looked = loops := by
  cases h with
  | exhausted => rfl
  | settled _ hpassed _ hend =>
    rw [Progress.accepted_tried, if_pos (ending?_eq_accepted_iff.1 hend), hpassed.best_eq.2]
      at hnone
    omega

/-- Only a bound on calls stops a search that has not failed. -/
theorem halt_eq_none (h : Turn limits oracle t loops p looked (q, halt))
    (hcalls : limits.oracleCalls = none) (hne : ∀ e, halt ≠ some (.failed e)) : halt = none := by
  cases h with
  | exhausted => rfl
  | spent _ _ hcall => simp [SearchLimits.allowsCall, hcalls] at hcall
  | settled _ _ _ hend =>
    match halt with
    | none => rfl
    | some .spent => exact absurd hend (ending?_ne_spent _)
    | some (.failed e) => exact absurd rfl (hne e)

end Turn

/-! ## The loops of every root -/

/-- The candidates of every root are its loops one by one, and among them an
outer loop comes before those inside it. -/
structure OutsideIn (t : Forest) (candidates : OrderedMap LoopId (List Candidate))
    (loops : LoopId → List LoopId) : Prop where
  get?_eq : ∀ root ∈ t.roots,
    candidates.get? root = some ((loops root).map fun loop => [loop])
  perm : ∀ root ∈ t.roots, (loops root).Perm (t.inside root)
  outside_in : ∀ root ∈ t.roots, ∀ x ∈ loops root, ∀ a, t.Above a x →
    [a, x].Sublist (loops root)

theorem exists_outsideIn (h : t.Linked) : ∃ candidates loops,
    Kind.parallelization.candidates t = .ok candidates ∧ OutsideIn t candidates loops := by
  obtain ⟨sections, hsections, -, hroot⟩ := h.sections_eq
  have hcut : ∀ root ∈ t.roots, t.Cut [root] ((sections.get? root).getD []) ∧
      sections.get? root = some ((sections.get? root).getD []) := by
    intro root hr
    obtain ⟨cut, hget, hcut⟩ := hroot root hr
    rw [hget]
    exact ⟨hcut, rfl⟩
  refine ⟨sections.map fun _ sections => sections.flatten.map fun id => [id],
    fun root => ((sections.get? root).getD []).flatten, ?_, ?_, ?_, ?_⟩
  · simp only [Kind.candidates, hsections, ok_bind]
    rfl
  · intro root hr
    rw [OrderedMap.get?_map, (hcut root hr).2]
    rfl
  · exact fun root hr => (hcut root hr).1.perm_inside h
  · exact fun root hr x hx a ha => (hcut root hr).1.outside_in h hr hx ha

namespace OutsideIn

variable {candidates : OrderedMap LoopId (List Candidate)} {loops : LoopId → List LoopId}

/-- All loops have their computations. -/
theorem exists_computations (h : OutsideIn t candidates loops) (hlinked : t.Linked) {root : LoopId}
    (hr : root ∈ t.roots) {loop : LoopId} (hloop : loop ∈ loops root) :
    ∃ computations, t.subtreeComputations loop = .ok computations := by
  obtain ⟨r, hn, -⟩ := hlinked.exists_node_of_mem_roots hr
  obtain ⟨n, hn⟩ := hlinked.exists_node_of_mem_inside hn ((h.perm root hr).mem_iff.1 hloop)
  exact ⟨_, hlinked.subtreeComputations_eq hn⟩

theorem offered (h : OutsideIn t candidates loops) (hlinked : t.Linked) :
    Offered t candidates t.roots := by
  intro root hr
  refine ⟨_, h.get?_eq root hr, fun c hc => ?_⟩
  obtain ⟨loop, hloop, rfl⟩ := List.mem_map.1 hc
  obtain ⟨computations, hcomputations⟩ := h.exists_computations hlinked hr hloop
  exact ⟨loop, computations, rfl, hcomputations⟩

theorem nodup (h : OutsideIn t candidates loops) (hlinked : t.Linked) :
    (t.roots.flatMap loops).Nodup := by
  have hperm : (t.roots.flatMap loops).Perm t.listing := .flatMap_left _ h.perm
  exact hperm.nodup_iff.2 hlinked.nodup_listing

end OutsideIn

theorem cut_map {α β : Type} (limits : SearchLimits) (f : α → β) (l : List α) :
    limits.cut (l.map f) = (limits.cut l).map f := by
  unfold SearchLimits.cut
  split
  · rfl
  · rw [List.map_take]

theorem cut_isPrefix {α : Type} (limits : SearchLimits) (l : List α) : limits.cut l <+: l := by
  unfold SearchLimits.cut
  split
  · exact List.prefix_rfl
  · exact List.take_prefix ..

/-! ## Root after root -/

/-- One root of a search, with how far the search had come before it and
after it. -/
structure Round where
  root : LoopId
  before : Progress
  after : Progress

/-- The roots that a search looks at. -/
def rounds (limits : SearchLimits) (oracle : Oracle) (t : Forest)
    (candidates : OrderedMap LoopId (List Candidate)) : List LoopId → Progress → List Round
  | [], _ => []
  | root :: rest, p =>
    match candidates.get? root with
    | none => ⟨root, p, p.visit⟩ :: rounds limits oracle t candidates rest p.visit
    | some found =>
      match tryCandidates limits oracle t (limits.cut found) p.visit with
      | (q, none) => ⟨root, p, q⟩ :: rounds limits oracle t candidates rest q
      | (q, some _) => [⟨root, p, q⟩]

/-- A search as its turns, one after the other until one of them ends it. -/
inductive Course (limits : SearchLimits) (oracle : Oracle) (t : Forest)
    (loops : LoopId → List LoopId) : Progress → List Round → Progress × Option Halt → Prop where
  | done (p : Progress) : Course limits oracle t loops p [] (p, none)
  | next {p q : Progress} {root : LoopId} {looked : List LoopId} {rest : List Round}
    {result : Progress × Option Halt} : root ∈ t.roots →
    Turn limits oracle t (limits.cut (loops root)) p.visit looked (q, none) →
    Course limits oracle t loops q rest result →
    Course limits oracle t loops p (⟨root, p, q⟩ :: rest) result
  | last {p q : Progress} {root : LoopId} {looked : List LoopId} {halt : Halt} :
    root ∈ t.roots →
    Turn limits oracle t (limits.cut (loops root)) p.visit looked (q, some halt) →
    Course limits oracle t loops p [⟨root, p, q⟩] (q, some halt)

theorem tryRoots_course {candidates : OrderedMap LoopId (List Candidate)}
    {loops : LoopId → List LoopId} (h : OutsideIn t candidates loops) (hlinked : t.Linked) :
    ∀ (roots : List LoopId) (p : Progress), roots ⊆ t.roots →
      Course limits oracle t loops p (rounds limits oracle t candidates roots p)
        (tryRoots limits oracle t candidates roots p)
  | [], p, _ => .done p
  | root :: rest, p, hroots => by
      have hr := hroots (List.mem_cons_self ..)
      obtain ⟨looked, hturn⟩ := @tryCandidates_turn limits oracle t (limits.cut (loops root))
        p.visit fun loop hloop =>
          h.exists_computations hlinked hr ((cut_isPrefix limits _).subset hloop)
      rw [rounds, tryRoots, h.get?_eq root hr]
      simp only [cut_map]
      generalize tryCandidates limits oracle t ((limits.cut (loops root)).map fun loop => [loop])
        p.visit = result at hturn
      obtain ⟨q, _ | halt⟩ := result
      · exact .next hr hturn (tryRoots_course h hlinked rest q
          fun x hx => hroots (List.mem_cons_of_mem _ hx))
      · exact .last hr hturn

/-- The roots that are looked at are the first ones, and all of them if the
search goes on to its end. -/
theorem rounds_roots {candidates : OrderedMap LoopId (List Candidate)} :
    ∀ (roots : List LoopId) (p : Progress),
      (rounds limits oracle t candidates roots p).map Round.root <+: roots ∧
      ((tryRoots limits oracle t candidates roots p).2 = none →
        (rounds limits oracle t candidates roots p).map Round.root = roots)
  | [], _ => ⟨List.prefix_rfl, fun _ => rfl⟩
  | root :: rest, p => by
      rw [rounds, tryRoots]
      cases candidates.get? root with
      | none =>
        obtain ⟨hfirst, hall⟩ := rounds_roots rest p.visit
        exact ⟨(List.prefix_cons_inj root).2 hfirst, fun hend => congrArg (root :: ·) (hall hend)⟩
      | some found =>
        simp only
        generalize tryCandidates limits oracle t (limits.cut found) p.visit = result
        obtain ⟨q, _ | halt⟩ := result
        · obtain ⟨hfirst, hall⟩ := rounds_roots rest q
          exact ⟨(List.prefix_cons_inj root).2 hfirst, fun hend => congrArg (root :: ·) (hall hend)⟩
        · exact ⟨⟨rest, rfl⟩, fun hend => absurd hend (by simp)⟩

namespace Course

variable {loops : LoopId → List LoopId} {rounds : List Round} {result : Progress × Option Halt}

/-- What every turn keeps, a search keeps. -/
theorem invariant {P : List LoopId → Progress → Prop}
    (hturn : ∀ (visited : List LoopId) (root : LoopId) (p q : Progress) (looked : List LoopId)
      (halt : Option Halt), root ∈ t.roots → P visited p →
      Turn limits oracle t (limits.cut (loops root)) p.visit looked (q, halt) →
      P (visited ++ [root]) q)
    (h : Course limits oracle t loops p rounds result) {visited : List LoopId}
    (hp : P visited p) : P (visited ++ rounds.map Round.root) result.1 := by
  induction h generalizing visited with
  | done p => simpa using hp
  | next hr hthis _ ih => simpa using ih (hturn _ _ _ _ _ _ hr hp hthis)
  | last hr hthis => exact hturn _ _ _ _ _ _ hr hp hthis

/-- Every round is a turn.  It goes on to the next one unless the search ends
with it. -/
theorem exists_turn (h : Course limits oracle t loops p rounds result) {r : Round}
    (hr : r ∈ rounds) : r.root ∈ t.roots ∧ ∃ looked halt,
      Turn limits oracle t (limits.cut (loops r.root)) r.before.visit looked (r.after, halt) ∧
        (halt = none ∨ halt = result.2) := by
  induction h with
  | done => cases hr
  | next hroot hthis _ ih =>
    rcases List.mem_cons.1 hr with rfl | hr
    · exact ⟨hroot, _, none, hthis, Or.inl rfl⟩
    · exact ih hr
  | last hroot hthis =>
    rcases List.mem_cons.1 hr with rfl | hr
    · exact ⟨hroot, _, _, hthis, Or.inr rfl⟩
    · cases hr

/-- A search without a bound on calls goes on to its end if it does not fail. -/
theorem halt_eq_none (h : Course limits oracle t loops p rounds result)
    (hcalls : limits.oracleCalls = none) (hne : ∀ e, result.2 ≠ some (.failed e)) :
    result.2 = none := by
  induction h with
  | done => rfl
  | next _ _ _ ih => exact ih hne
  | last _ hthis => exact hthis.halt_eq_none hcalls hne

end Course

/-- A whole search of a linked forest is a course through its roots. -/
theorem run_course {program : Program} (h : program.forest.Linked) (limits : SearchLimits)
    (oracle : Oracle) :
    ∃ candidates loops result, Kind.parallelization.candidates program.forest = .ok candidates ∧
      OutsideIn program.forest candidates loops ∧
      result = tryRoots limits oracle program.forest candidates program.forest.roots
        (.start program) ∧
      run limits oracle program = returned result ∧
      Reaches oracle program.forest (.start program) result ∧
      Course limits oracle program.forest loops (.start program)
        (rounds limits oracle program.forest candidates program.forest.roots (.start program))
        result := by
  obtain ⟨candidates, loops, hcandidates, hloops⟩ := exists_outsideIn h
  exact ⟨candidates, loops, _, hcandidates, hloops, rfl, run_eq_returned hcandidates limits oracle,
    tryRoots_reaches _ _ (hloops.offered h),
    tryRoots_course hloops h _ _ (List.Subset.refl _)⟩

end Search

end LoopNest
