import LoopNest.Proofs.Search.Accounting

/-!
LoopNest.Proofs.Search.PerRootLimit — what the limit for one root counts.

The limit cuts the candidates of a root before it is seen which of them have
something to compute inside.  A candidate that is skipped takes one of the
places, so a root can be given up before as many trials are made as the limit
says (`run_limited`), and with an idle loop in front it is given up before a
trial that the limit would allow (`limit_counts_places`).

* `countP_take_eq_min_iff` — when the first elements of a list hold as much as
  they could;
* `Turn.limited` — what is tried and what is skipped at a root that is left
  without an acceptance.
-/

namespace LoopNest

/-- A loop, and in it a loop without work and then a loop with work. -/
def Table.idleFirst : Table where
  loops := .ofList [
    (⟨"i"⟩, { parent := none, lower := .constant 0, upper := .constant 8,
              children := [⟨"j"⟩, ⟨"k"⟩] }),
    (⟨"j"⟩, { parent := some ⟨"i"⟩, lower := .constant 0, upper := .constant 8 }),
    (⟨"k"⟩, { parent := some ⟨"i"⟩, lower := .constant 0, upper := .constant 8,
              computations := ["S"] })]

/-- Whether there is something to compute inside a loop. -/
def Forest.isBusy (t : Forest) (loop : LoopId) : Bool :=
  t.subtreeComputations loop ≠ .ok []

namespace Search

variable {oracle : Oracle} {t : Forest}

/-- Among the first so many elements of a list are as many of a kind as there are
places or as there are in the whole list, whichever is less, exactly if no place
is taken by another kind or nothing of the kind is left out. -/
theorem countP_take_eq_min_iff {α : Type} (most : Nat) (l : List α) (f : α → Bool) :
    ((l.take most).countP f ≤ min most (l.countP f)) ∧
      ((l.take most).countP f = min most (l.countP f) ↔
        (∀ a ∈ l.take most, f a = true) ∨ ∀ a ∈ l.drop most, f a = false) := by
  have hall : l.countP f = (l.take most).countP f + (l.drop most).countP f := by
    rw [← List.countP_append, List.take_append_drop]
  have hfirst : (∀ a ∈ l.take most, f a = true) ↔
      (l.take most).countP f = (l.take most).length := List.countP_eq_length.symm
  have hrest : (∀ a ∈ l.drop most, f a = false) ↔ (l.drop most).countP f = 0 := by
    simp [List.countP_eq_zero]
  have hplaces := @List.countP_le_length _ f (l.take most)
  have hleft := @List.countP_le_length _ f (l.drop most)
  rw [List.length_take] at hfirst hplaces
  rw [List.length_drop] at hleft
  rw [hfirst, hrest]
  omega

/-- The loops that are tried are the busy ones. -/
theorem length_filterMap_marking? {loops : List LoopId}
    (h : ∀ loop ∈ loops, ∃ computations, t.subtreeComputations loop = .ok computations) :
    (loops.filterMap t.marking?).length = loops.countP t.isBusy := by
  rw [List.length_filterMap_eq_countP]
  refine List.countP_congr fun loop hloop => ?_
  obtain ⟨computations, hcomputations⟩ := h loop hloop
  by_cases hnone : computations = [] <;>
    simp [Forest.marking?_eq hcomputations, Forest.isBusy, hcomputations, hnone]

/-- What the search does at a root that it leaves without an acceptance, if only
the limit for one root is set. -/
theorem Turn.limited {most : Nat} {loops looked : List LoopId} {r : Round}
    (hloops : ∀ loop ∈ loops, ∃ computations, t.subtreeComputations loop = .ok computations)
    (h : Turn { candidatesPerRoot := some most } oracle t (loops.take most) r.before.visit looked
      (r.after, none)) (hnone : r.accepted = 0) :
    r.asked = ((loops.take most).filterMap t.marking?).map r.before.trial ∧
      r.asked.length = (loops.take most).countP t.isBusy ∧
      r.asked.length + r.skipped = min most loops.length := by
  have hfirst : ∀ loop ∈ loops.take most, ∃ computations,
      t.subtreeComputations loop = .ok computations :=
    fun loop hloop => hloops loop (List.mem_of_mem_take hloop)
  have hasked := h.asked_eq
  have hlength : r.asked.length = r.tried := by
    rw [h.tried_eq, hasked, List.length_map]
  obtain rfl := h.eq_of_accepted_eq_zero hnone
  refine ⟨hasked, ?_, ?_⟩
  · rw [hlength, h.tried_eq, length_filterMap_marking? hfirst]
  · rw [hlength, h.tried_add_skipped hfirst hnone, List.length_take]

/-- A search with a limit for one root, no bound on calls, and an oracle whose
errors are its own.  All roots are looked at.  At a root that is left without an
acceptance exactly the first candidates are looked at, as many as the limit says,
and those among them that have something to compute inside are tried.  So the
candidates that are skipped take places: the trials are as many as the limit and
the candidates allow only if none of the places goes to a candidate without work,
or none with work comes after the places. -/
theorem run_limited {program : Program} (h : program.forest.Reachable) (most : Nat)
    {oracle : Oracle}
    (hjudge : ∀ (asked : List Query) (schedule : List Action) (e : Error),
      oracle.judge asked program schedule = .error e → e.isOracleFailure = true) :
    let limits : SearchLimits := { candidatesPerRoot := some most }
    let t := program.forest
    ∃ outcome candidates, (run limits oracle program).1 = .ok outcome ∧
      Kind.parallelization.candidates t = .ok candidates ∧
      let rounds := rounds limits oracle t candidates t.roots (.start program)
      rounds.map Round.root = t.roots ∧
      (run limits oracle program).2 = rounds.flatMap Round.asked ∧
      ∀ r ∈ rounds, r.accepted = 0 → ∃ loops : List LoopId,
        candidates.get? r.root = some (loops.map fun loop => [loop]) ∧
        r.asked = ((loops.take most).filterMap t.marking?).map r.before.trial ∧
        r.asked.length = (loops.take most).countP t.isBusy ∧
        r.asked.length + r.skipped = min most loops.length ∧
        r.asked.length ≤ min most (loops.countP t.isBusy) ∧
        (r.asked.length = min most (loops.countP t.isBusy) ↔
          (∀ loop ∈ loops.take most, t.isBusy loop = true) ∨
            ∀ loop ∈ loops.drop most, t.isBusy loop = false) := by
  intro limits t
  have hlinked := h.sound.toLinked
  obtain ⟨candidates, loops, result, hcandidates, hloops, hresult, hreturned, hreaches, hcourse⟩ :=
    run_course hlinked limits oracle
  have hne : ∀ e, result.2 ≠ some (.failed e) :=
    hreaches.ne_failed fun asked schedule e _ => hjudge asked schedule e
  have hgoes : result.2 = none := hcourse.halt_eq_none rfl hne
  obtain ⟨-, hall⟩ := @rounds_roots limits oracle t candidates t.roots (.start program)
  rw [← hresult] at hall
  rw [hreturned, returned_snd]
  refine ⟨_, candidates, returned_eq_ok_iff.2 ⟨hne, rfl⟩, hcandidates, hall hgoes,
    hcourse.asked_eq, fun r hr hnone => ⟨loops r.root, ?_⟩⟩
  obtain ⟨hroot, looked, halt, hturn, hhalt⟩ := hcourse.exists_turn hr
  obtain rfl : halt = none := hhalt.elim id (·.trans hgoes)
  obtain ⟨hasked, hlength, hplaces⟩ :=
    hturn.limited (fun _ => hloops.exists_computations hlinked hroot) hnone
  obtain ⟨hle, hiff⟩ := countP_take_eq_min_iff most (loops r.root) t.isBusy
  rw [← hlength] at hle hiff
  exact ⟨hloops.get?_eq _ hroot, hasked, hlength, hplaces, hle, hiff⟩

/-- An oracle that declines whatever it is asked. -/
def declining : Oracle := .scripted [] (.ok false) [] (.ok none)

/-- In `idleFirst` two candidates may be looked at, and two of its three have
something to compute inside; yet only one of them is tried. -/
theorem idleFirst_limited :
    ∃ (t : Forest) (r : Round), Forest.ofTable .idleFirst = .ok t ∧
      (run { candidatesPerRoot := some 2 } declining ⟨"idleFirst", .idleFirst, t⟩).2 = r.asked ∧
      r.root = ⟨"i"⟩ ∧ r.asked.length = 1 ∧ r.skipped = 1 := by
  obtain ⟨t, ht⟩ : ∃ t, Forest.ofTable .idleFirst = .ok t := ⟨_, rfl⟩
  have hjudge : ∀ (asked : List Query) (schedule : List Action) (e : Error),
      declining.judge asked ⟨"idleFirst", .idleFirst, t⟩ schedule = .error e →
        e.isOracleFailure = true := by
    intro asked schedule e h
    cases h
  obtain ⟨-, candidates, -, hcandidates, hroots, hasked, hall⟩ :=
    @run_limited ⟨"idleFirst", .idleFirst, t⟩ (.built ht) 2 declining hjudge
  obtain ⟨hroot, hbusy, hcandidate, haccepted⟩ : t.roots = [⟨"i"⟩] ∧
      [(⟨"i"⟩ : LoopId), ⟨"j"⟩].countP t.isBusy = 1 ∧
      candidates.get? ⟨"i"⟩ = some [[⟨"i"⟩], [⟨"j"⟩], [⟨"k"⟩]] ∧
      (rounds { candidatesPerRoot := some 2 } declining t candidates t.roots
        (.start ⟨"idleFirst", .idleFirst, t⟩)).map Round.accepted = [0] := by
    cases ht
    cases hcandidates
    exact ⟨rfl, by decide +kernel, rfl, by decide +kernel⟩
  obtain ⟨r, hround, hr⟩ := List.map_eq_singleton_iff.1 (hroots.trans hroot)
  rw [hround] at hasked hall haccepted
  obtain ⟨loops, hloops, -, hlength, hplaces, -⟩ :=
    hall r (List.mem_singleton_self r) (List.singleton_inj.1 haccepted)
  rw [hr, hcandidate] at hloops
  obtain rfl : [⟨"i"⟩, ⟨"j"⟩, ⟨"k"⟩] = loops :=
    List.map_injective_iff.2 (fun _ _ h => List.singleton_inj.1 h) (Option.some.inj hloops)
  have hone : r.asked.length = 1 := hlength.trans hbusy
  have htwo : r.asked.length + r.skipped = 2 := hplaces
  exact ⟨t, r, ht, by rw [hasked, List.flatMap_singleton], hr, hone, by omega⟩

/-- So the limit does not count trials: it is not so that at each root that is
left without an acceptance as many trials are made as the limit allows and there
are candidates with something to compute inside. -/
theorem limit_counts_places :
    ¬ ∀ (program : Program) (most : Nat) (oracle : Oracle)
      (candidates : OrderedMap LoopId (List Candidate)), program.forest.Reachable →
      (∀ (asked : List Query) (schedule : List Action) (e : Error),
        oracle.judge asked program schedule = .error e → e.isOracleFailure = true) →
      Kind.parallelization.candidates program.forest = .ok candidates →
      ∀ r ∈ rounds { candidatesPerRoot := some most } oracle program.forest candidates
        program.forest.roots (.start program), r.accepted = 0 →
      ∀ loops : List LoopId, candidates.get? r.root = some (loops.map fun loop => [loop]) →
        r.asked.length = min most (loops.countP program.forest.isBusy) := by
  intro hclaim
  obtain ⟨t, candidates, ht, hcandidates⟩ : ∃ t candidates, Forest.ofTable .idleFirst = .ok t ∧
      Kind.parallelization.candidates t = .ok candidates := ⟨_, _, rfl, rfl⟩
  obtain ⟨hbusy, hcandidate, hrounds⟩ :
      [(⟨"i"⟩ : LoopId), ⟨"j"⟩, ⟨"k"⟩].countP t.isBusy = 2 ∧
      candidates.get? ⟨"i"⟩ = some [[⟨"i"⟩], [⟨"j"⟩], [⟨"k"⟩]] ∧
      (rounds { candidatesPerRoot := some 2 } declining t candidates t.roots
        (.start ⟨"idleFirst", .idleFirst, t⟩)).map
        (fun r => (r.root, r.accepted, r.asked.length)) = [(⟨"i"⟩, 0, 1)] := by
    cases ht
    cases hcandidates
    exact ⟨by decide +kernel, rfl, by decide +kernel⟩
  obtain ⟨r, hround, hr⟩ := List.map_eq_singleton_iff.1 hrounds
  obtain ⟨hroot, haccepted, hasked⟩ : r.root = ⟨"i"⟩ ∧ r.accepted = 0 ∧ r.asked.length = 1 := by
    simpa using hr
  have htwo := hclaim ⟨"idleFirst", .idleFirst, t⟩ 2 declining candidates (.built ht)
    (fun _ _ _ h => by cases h) hcandidates r (by rw [hround]; exact List.mem_singleton_self r)
    haccepted [⟨"i"⟩, ⟨"j"⟩, ⟨"k"⟩] (by rw [hroot]; exact hcandidate)
  rw [hasked, hbusy] at htwo
  cases htwo

end Search

end LoopNest
