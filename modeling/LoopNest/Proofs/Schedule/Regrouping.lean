import LoopNest.Proofs.Schedule.Calls
import LoopNest.Proofs.Schedule.ShortForm

/-!
LoopNest.Proofs.Schedule.Regrouping — calls are regrouped and not changed.

Each action of a schedule can write the calls for its targets by itself, line
by line (`Action.lines`).  The calls of the schedule are the same lines in
another order: put behind each other in schedule order and then sorted by
their computations, lines of one computation staying in order.  Computations
of the forest come by rank, others after them by first use (`callPlace`).

* `mergeSort_eq_flatMap_filter` — sorting by key, seen as collecting the
  elements of one key after the other;
* `pairwise_callOrder`, `mem_callOrder` — the order in which a schedule goes
  through computations is the order of their places;
* `calls_regroup` — the whole of it, with the reasons for failing.
-/

namespace LoopNest

/-! ## Stable sorting by key -/

section Sorting

variable {α κ : Type}

theorem place_le_trans (key : α → κ) (place : κ → Nat) (a b c : α)
    (hab : decide (place (key a) ≤ place (key b)) = true)
    (hbc : decide (place (key b) ≤ place (key c)) = true) :
    decide (place (key a) ≤ place (key c)) = true := by
  simp only [decide_eq_true_eq] at hab hbc ⊢
  exact Nat.le_trans hab hbc

theorem place_le_total (key : α → κ) (place : κ → Nat) (a b : α) :
    (decide (place (key a) ≤ place (key b)) || decide (place (key b) ≤ place (key a))) = true := by
  simp only [Bool.or_eq_true, decide_eq_true_eq]
  exact Nat.le_total _ _

variable [DecidableEq κ] {key : α → κ} {place : κ → Nat}

/-- In a list sorted by key, the elements of a least key come first. -/
theorem eq_filter_append_filter {k : κ} : ∀ {l : List α},
    l.Pairwise (fun x y => place (key x) ≤ place (key y)) →
    (∀ x ∈ l, key x ≠ k → place k < place (key x)) →
    l = l.filter (fun x => key x = k) ++ l.filter (fun x => key x ≠ k)
  | [], _, _ => rfl
  | x :: rest, .cons hx hrest, hleast => by
      by_cases hk : key x = k
      · have ih := eq_filter_append_filter hrest fun y hy => hleast y (List.mem_cons_of_mem _ hy)
        rw [List.filter_cons_of_pos (by simpa using hk),
          List.filter_cons_of_neg (by simpa using hk), List.cons_append, ← ih]
      · -- everything from `x` on comes after `k`
        have hlater : ∀ y ∈ x :: rest, key y ≠ k := by
          intro y hy hyk
          have hxk := hleast x (List.mem_cons_self ..) hk
          rcases List.mem_cons.1 hy with rfl | hy
          · exact hk hyk
          · have := hx y hy
            rw [hyk] at this
            omega
        rw [List.filter_eq_nil_iff.2 fun y hy => by simpa using hlater y hy,
          List.filter_eq_self.2 fun y hy => by simpa using hlater y hy, List.nil_append]

/-- A list sorted by key consists of its elements of one key after the other. -/
theorem eq_flatMap_filter : ∀ {order : List κ} {l : List α},
    order.Pairwise (fun k j => place k < place j) →
    l.Pairwise (fun x y => place (key x) ≤ place (key y)) → (∀ x ∈ l, key x ∈ order) →
    l = order.flatMap fun k => l.filter fun x => key x = k
  | [], l, _, _, hkeys => by
      rw [List.flatMap_nil, List.eq_nil_iff_forall_not_mem]
      exact fun x hx => List.not_mem_nil (hkeys x hx)
  | k :: rest, l, .cons hk hrest, hl, hkeys => by
      have hother : ∀ x ∈ l, key x ≠ k → key x ∈ rest := fun x hx hne =>
        (List.mem_cons.1 (hkeys x hx)).resolve_left hne
      have hsplit := eq_filter_append_filter hl fun x hx hne => hk _ (hother x hx hne)
      have ih := eq_flatMap_filter (l := l.filter fun x => key x ≠ k) hrest (hl.filter _)
        fun x hx => hother x (List.mem_of_mem_filter hx) (by simpa using List.of_mem_filter hx)
      have hsame : ∀ j ∈ rest, (l.filter fun x => key x ≠ k).filter (fun x => key x = j)
          = l.filter fun x => key x = j := by
        intro j hj
        have hne : j ≠ k := by
          rintro rfl
          exact Nat.lt_irrefl _ (hk j hj)
        rw [List.filter_filter]
        refine List.filter_congr fun x _ => ?_
        by_cases hx : key x = j <;> simp [hx, hne]
      rw [List.flatMap_cons, ← List.flatMap_congr hsame, ← ih]
      exact hsplit

/-- Sorting by key keeps the elements of one key in their order. -/
theorem filter_mergeSort (k : κ) : ∀ l : List α,
    (l.mergeSort fun x y => place (key x) ≤ place (key y)).filter (fun x => key x = k)
      = l.filter fun x => key x = k
  | [] => by simp
  | x :: rest => by
      obtain ⟨before, after, hsorted, hrest, hbefore⟩ :=
        List.mergeSort_cons (place_le_trans key place) (place_le_total key place) x rest
      have ih := filter_mergeSort k rest
      rw [hrest, List.filter_append] at ih
      rw [hsorted, List.filter_append]
      by_cases hx : key x = k
      · -- what comes before `x` has smaller keys
        have hnone : before.filter (fun y => key y = k) = [] := by
          rw [List.filter_eq_nil_iff]
          intro y hy hyk
          have hlt := hbefore y hy
          rw [of_decide_eq_true hyk, hx] at hlt
          simp at hlt
        rw [hnone, List.nil_append] at ih
        rw [hnone, List.nil_append, List.filter_cons_of_pos (by simpa using hx),
          List.filter_cons_of_pos (by simpa using hx), ih]
      · rw [List.filter_cons_of_neg (by simpa using hx),
          List.filter_cons_of_neg (by simpa using hx), ih]

/-- Sorting by key collects the elements of one key after the other. -/
theorem mergeSort_eq_flatMap_filter {order : List κ} {l : List α}
    (horder : order.Pairwise fun k j => place k < place j) (hkeys : ∀ x ∈ l, key x ∈ order) :
    l.mergeSort (fun x y => place (key x) ≤ place (key y))
      = order.flatMap fun k => l.filter fun x => key x = k := by
  have hsorted :=
    List.pairwise_mergeSort (place_le_trans key place) (place_le_total key place) l
  rw [eq_flatMap_filter horder (hsorted.imp fun h => by simpa using h)
    fun x hx => hkeys x (List.mem_mergeSort.1 hx)]
  exact List.flatMap_congr fun k _ => filter_mergeSort k l

end Sorting

/-! ## Lines -/

/-- The calls of an action, target after target, each with its target. -/
def Action.lines (t : Forest) (a : Action) : Except Error (List (String × String)) :=
  a.computations.mapM fun c => do return (c, ← a.call t c)

/-- The lines of an action whose loops are there. -/
def Action.written (t : Forest) (a : Action) : List (String × String) :=
  a.computations.map fun c => (c, callLine a.kind (a.numbers t) c)

namespace Action

variable {t : Forest} {a : Action}

theorem Placed.lines_eq (h : a.Placed t) : a.lines t = .ok (a.written t) := by
  refine mapM_eq_ok fun c _ => ?_
  rw [h.call_eq]
  rfl

theorem Placed.calls_eq (h : a.Placed t) :
    a.calls t = .ok (String.join ((a.written t).map Prod.snd)) := by
  rw [h.calls_eq_join, written, List.map_map]
  rfl

/-- Among the lines of an action with different targets there is one for each
target. -/
theorem filter_written (hnd : a.computations.Nodup) (c : String) :
    ((a.written t).filter fun line => line.1 = c).map Prod.snd =
      if c ∈ a.computations then [callLine a.kind (a.numbers t) c] else [] := by
  rw [written, List.filter_map, List.map_map]
  show (a.computations.filter fun d => d = c).map (callLine a.kind (a.numbers t)) = _
  rw [List.filter_eq, hnd.count]
  split <;> rfl

end Action

namespace Schedule

variable {t : Forest} {actions : List Action}

/-- The calls for one computation are its lines among those of all actions. -/
theorem linesFor_eq_filter (hnd : ∀ action ∈ actions, action.computations.Nodup) (c : String) :
    linesFor (Action.numbers t) actions c =
      ((actions.flatMap (Action.written t)).filter fun line => line.1 = c).map Prod.snd := by
  induction actions with
  | nil => rfl
  | cons action rest ih =>
    rw [linesFor_cons, List.flatMap_cons, List.filter_append, List.map_append,
      Action.filter_written (hnd action (List.mem_cons_self ..)),
      ← ih fun a ha => hnd a (List.mem_cons_of_mem _ ha)]
    split <;> rfl

/-! ## The order of computations -/

/-- Where the calls for a computation come: a computation of the forest at its
rank, any other after all ranks, at its first use. -/
def callPlace (s : Schedule) (c : String) : Nat :=
  match s.program.forest.rank? c with
  | some rank => rank
  | none => s.program.forest.computations.length + 1 +
      (s.actions.flatMap Action.computations).idxOf c

/-- A foreign name that is not appended is there already. -/
theorem mem_of_not_new {name : String} {order : List String}
    (h : ¬((t.rank? name).isNone ∧ name ∉ order)) (hforeign : t.rank? name = none) :
    name ∈ order :=
  Decidable.of_not_not fun hnew => h ⟨by simp [hforeign], hnew⟩

theorem mem_addForeign {c : String} : ∀ {names order : List String},
    c ∈ addForeign t order names ↔ c ∈ order ∨ (t.rank? c = none ∧ c ∈ names)
  | [], order => by simp [addForeign]
  | name :: rest, order => by
      rw [addForeign, List.mem_cons]
      split
      case isTrue hname =>
        have hforeign : t.rank? name = none := by simpa using hname.1
        rw [mem_addForeign, List.mem_append, List.mem_singleton, or_assoc]
        by_cases hc : c = name
        · simp [hc, hforeign]
        · simp [hc]
      case isFalse hname =>
        rw [mem_addForeign]
        by_cases hc : c = name
        · have hthere := mem_of_not_new hname
          rw [hc]
          exact ⟨Or.imp_right (And.imp_right Or.inr),
            fun h => Or.inl (h.elim id fun hforeign => hthere hforeign.1)⟩
        · simp [hc]

/-- Names are appended in the order of their places: `done` are the targets
looked at so far, and the foreign ones among them have been appended. -/
theorem pairwise_addForeign {place : String → Nat} (base : Nat) :
    ∀ {names order : List String} (done : List String),
      (∀ c, t.rank? c = none → place c = base + (done ++ names).idxOf c) →
      order.Pairwise (fun c d => place c < place d) →
      (∀ c ∈ order, place c < base ∨ (t.rank? c = none ∧ c ∈ done)) →
      (∀ c ∈ done, t.rank? c = none → c ∈ order) →
      (addForeign t order names).Pairwise fun c d => place c < place d
  | [], _, _, _, horder, _, _ => horder
  | name :: rest, order, done, hplace, horder, hknown, hdone => by
      have hplace' : ∀ c, t.rank? c = none →
          place c = base + ((done ++ [name]) ++ rest).idxOf c := by
        intro c hc
        rw [hplace c hc, List.append_assoc, List.singleton_append]
      rw [addForeign]
      split
      case isTrue hname =>
        have hforeign : t.rank? name = none := by simpa using hname.1
        have hfresh : name ∉ done := fun hmem => hname.2 (hdone name hmem hforeign)
        have hat : place name = base + done.length := by
          rw [hplace name hforeign, List.idxOf_append_of_notMem hfresh, List.idxOf_cons_self,
            Nat.add_zero]
        have hlast : ∀ c ∈ order, place c < place name := by
          intro c hc
          rcases hknown c hc with hlt | ⟨hnone, hmem⟩
          · omega
          · have := List.idxOf_lt_length_of_mem hmem
            rw [hplace c hnone, List.idxOf_append_of_mem hmem]
            omega
        refine pairwise_addForeign base _ hplace' ?_ (fun c hc => ?_) fun c hc hnone => ?_
        · refine List.pairwise_append.2 ⟨horder, List.pairwise_singleton _ _, fun c hc d hd => ?_⟩
          rw [List.mem_singleton.1 hd]
          exact hlast c hc
        · rcases List.mem_append.1 hc with hc | hc
          · exact (hknown c hc).imp_right (And.imp_right (List.mem_append_left _))
          · rw [List.mem_singleton.1 hc]
            exact Or.inr ⟨hforeign, List.mem_append_right _ (List.mem_singleton_self _)⟩
        · rcases List.mem_append.1 hc with hc | hc
          · exact List.mem_append_left _ (hdone c hc hnone)
          · exact List.mem_append_right _ hc
      case isFalse hname =>
        refine pairwise_addForeign base _ hplace' horder
          (fun c hc => (hknown c hc).imp_right (And.imp_right (List.mem_append_left _)))
          fun c hc hnone => ?_
        rcases List.mem_append.1 hc with hc | hc
        · exact hdone c hc hnone
        · rw [List.mem_singleton.1 hc] at hnone ⊢
          exact mem_of_not_new hname hnone

/-- A schedule goes through computations in the order of their places. -/
theorem pairwise_callOrder {s : Schedule} (h : s.program.forest.Sound) :
    s.callOrder.Pairwise fun c d => s.callPlace c < s.callPlace d := by
  have hrank : ∀ c rank, s.program.forest.rank? c = some rank → s.callPlace c = rank := by
    intro c rank hc
    rw [callPlace, hc]
  refine pairwise_addForeign (s.program.forest.computations.length + 1) []
    (fun c hc => ?_) (h.pairwise_rank.imp ?_) (fun c hc => Or.inl ?_) (by simp)
  · rw [callPlace, hc]
    rfl
  · rintro c d ⟨i, j, hi, hj, hij⟩
    rwa [hrank c i hi, hrank d j hj]
  · have hlt := List.idxOf_lt_length_of_mem hc
    rw [hrank c _ (by rw [h.rank?_eq, if_pos hc])]
    omega

/-- Every target has its turn. -/
theorem mem_callOrder {s : Schedule} (h : s.program.forest.Sound) {action : Action} {c : String}
    (haction : action ∈ s.actions) (hc : c ∈ action.computations) : c ∈ s.callOrder := by
  rw [callOrder, mem_addForeign, h.rank?_eq]
  by_cases hown : c ∈ s.program.forest.computations
  · exact Or.inl hown
  · exact Or.inr ⟨if_neg hown, List.mem_flatMap.2 ⟨action, haction, hc⟩⟩

/-! ## Failures -/

theorem exists_callsFor_iff {c : String} : ∀ {actions : List Action},
    (∃ text, callsFor t c actions = .ok text) ↔
      ∀ action ∈ actions, c ∈ action.computations → action.Placed t
  | [] => by simp [callsFor]
  | action :: rest => by
      rw [List.forall_mem_cons, ← exists_callsFor_iff, callsFor]
      by_cases hc : c ∈ action.computations
      · rw [if_pos hc, forall_prop_of_true hc, ← Action.exists_paramTexts_iff]
        constructor
        · rintro ⟨_, htext⟩
          obtain ⟨call, hcall, htext⟩ := bind_eq_ok.1 htext
          obtain ⟨others, hothers, -⟩ := bind_eq_ok.1 htext
          obtain ⟨texts, htexts, -⟩ := bind_eq_ok.1 hcall
          exact ⟨⟨texts, htexts⟩, others, hothers⟩
        · rintro ⟨⟨texts, htexts⟩, others, hothers⟩
          have hcall : action.call t c = .ok _ := bind_eq_ok.2 ⟨texts, htexts, rfl⟩
          exact ⟨_, bind_eq_ok.2 ⟨_, hcall, bind_eq_ok.2 ⟨others, hothers, rfl⟩⟩⟩
      · rw [if_neg hc]
        simp [hc]

theorem exists_callsForAll_iff : ∀ {order : List String},
    (∃ text, callsForAll t actions order = .ok text) ↔
      ∀ c ∈ order, ∀ action ∈ actions, c ∈ action.computations → action.Placed t
  | [] => by simp [callsForAll]
  | c :: rest => by
      rw [List.forall_mem_cons, ← exists_callsForAll_iff, ← exists_callsFor_iff, callsForAll]
      constructor
      · rintro ⟨_, htext⟩
        obtain ⟨first, hfirst, htext⟩ := bind_eq_ok.1 htext
        obtain ⟨others, hothers, -⟩ := bind_eq_ok.1 htext
        exact ⟨⟨first, hfirst⟩, others, hothers⟩
      · rintro ⟨⟨first, hfirst⟩, others, hothers⟩
        exact ⟨_, bind_eq_ok.2 ⟨first, hfirst, bind_eq_ok.2 ⟨others, hothers, rfl⟩⟩⟩

/-- Calls can be written exactly if all loops are there: every action has a
target, at whose turn its loops are looked up. -/
theorem exists_calls_iff {s : Schedule} (h : s.program.forest.Sound)
    (hmade : ∀ action ∈ s.actions, action.Made) :
    (∃ text, s.calls = .ok text) ↔ ∀ action ∈ s.actions, action.Placed s.program.forest := by
  rw [calls, exists_callsForAll_iff]
  constructor
  · intro hall action haction
    obtain ⟨c, hc⟩ := List.exists_mem_of_ne_nil _ (hmade action haction).fits.2
    exact hall c (mem_callOrder h haction hc) action haction hc
  · exact fun hall _ _ action haction _ => hall action haction

/-! ## Regrouping -/

/-- The calls of a schedule are the calls of its actions, regrouped.

Of made actions without repeated targets: the calls cannot be written exactly
if some action names an absent loop, and then there is no short form either.
Otherwise every action has its own lines, which make up its own calls, and the
calls of the schedule are the lines of all actions in schedule order, stably
sorted by the places of their computations. -/
theorem calls_regroup {s : Schedule} (h : s.program.forest.Reachable)
    (hmade : ∀ action ∈ s.actions, action.Made)
    (hnodup : ∀ action ∈ s.actions, action.computations.Nodup) :
    let t := s.program.forest
    let Lost := ∃ action ∈ s.actions, ∃ loop ∈ action.loops, t.contains loop = false
    ((∃ e, s.calls = .error e) ↔ Lost) ∧ ((∃ e, s.shortForm = .error e) ↔ Lost) ∧
      (¬ Lost → ∃ own : List (List (String × String)),
        s.actions.mapM (fun action => action.lines t) = .ok own ∧
        s.actions.mapM (fun action => action.calls t)
          = .ok (own.map fun lines => String.join (lines.map Prod.snd)) ∧
        let lines := own.flatten.mergeSort fun x y => s.callPlace x.1 ≤ s.callPlace y.1
        s.calls = .ok (String.join (lines.map Prod.snd)) ∧ lines.Perm own.flatten ∧
          ∀ c, lines.filter (fun line => line.1 = c)
            = own.flatten.filter fun line => line.1 = c) := by
  intro t Lost
  have hlost : (¬ ∀ action ∈ s.actions, action.Placed t) ↔ Lost := Action.not_placed_iff
  refine ⟨?_, ?_, fun hfound => ?_⟩
  · rw [exists_error_iff, exists_calls_iff h.sound hmade, hlost]
  · rw [exists_error_iff, exists_shortForm_iff, hlost]
  have hplaced : ∀ action ∈ s.actions, action.Placed t := by
    by_contra hnot
    exact hfound (hlost.1 hnot)
  refine ⟨s.actions.map (Action.written t), mapM_eq_ok fun a ha => (hplaced a ha).lines_eq, ?_, ?_⟩
  · rw [List.map_map]
    exact mapM_eq_ok fun a ha => (hplaced a ha).calls_eq
  intro lines
  have hkeys : ∀ line ∈ (s.actions.map (Action.written t)).flatten, line.1 ∈ s.callOrder := by
    intro line hline
    obtain ⟨_, hown, hline⟩ := List.mem_flatten.1 hline
    obtain ⟨action, haction, rfl⟩ := List.mem_map.1 hown
    obtain ⟨c, hc, rfl⟩ := List.mem_map.1 hline
    exact mem_callOrder h.sound haction hc
  have hlines : s.callOrder.flatMap (linesFor (Action.numbers t) s.actions)
      = lines.map Prod.snd :=
    calc
      _ = s.callOrder.flatMap fun c =>
          ((s.actions.map (Action.written t)).flatten.filter fun line => line.1 = c).map Prod.snd :=
        List.flatMap_congr fun c _ => linesFor_eq_filter hnodup c
      _ = lines.map Prod.snd := by
        rw [← List.map_flatMap,
          ← mergeSort_eq_flatMap_filter (pairwise_callOrder h.sound) hkeys]
  refine ⟨?_, List.mergeSort_perm _ _, fun c => filter_mergeSort c _⟩
  rw [calls, callsForAll_eq fun a ha => (hplaced a ha).paramTexts_eq, hlines]

/-- In `branching`, two actions share a target that is no computation of the
forest.  Its two calls come last, in the order of the actions; with a loop
that is not there, nothing can be written. -/
theorem branching_calls :
    ∃ t own, Forest.ofTable .branching = .ok t ∧
      let schedule (loop : LoopId) : Schedule := ⟨⟨"branching", .branching, t⟩,
        [⟨.reversal, [.loop loop], ["x", "T"]⟩,
          ⟨.unrolling, [.loop ⟨"j"⟩, .factor 4], ["S", "x"]⟩], none⟩
      let s := schedule ⟨"k"⟩
      s.actions.mapM (fun action => action.lines t) = .ok own ∧
        own.flatten.map Prod.fst = ["x", "T", "S", "x"] ∧
        (let lines := own.flatten.mergeSort fun x y => s.callPlace x.1 ≤ s.callPlace y.1
        s.calls = .ok (String.join (lines.map Prod.snd)) ∧
          (lines.filter fun line => line.1 = "x").map Prod.snd
            = ["\n\tx.loop_reversal(1);", "\n\tx.unroll(1, 4);"]) ∧
        (∃ e, (schedule ⟨"y"⟩).calls = .error e) ∧
        ∃ e, (schedule ⟨"y"⟩).shortForm = .error e := by
  obtain ⟨t, ht⟩ : ∃ t, Forest.ofTable .branching = .ok t := ⟨_, rfl⟩
  let schedule (loop : LoopId) : Schedule := ⟨⟨"branching", .branching, t⟩,
    [⟨.reversal, [.loop loop], ["x", "T"]⟩,
      ⟨.unrolling, [.loop ⟨"j"⟩, .factor 4], ["S", "x"]⟩], none⟩
  have hmade : ∀ loop, ∀ action ∈ (schedule loop).actions, action.Made := by
    intro loop action haction
    refine ⟨action.kind, action.params, action.computations, ?_⟩
    rcases List.mem_pair.1 haction with rfl | rfl <;> rfl
  have hnodup : ∀ loop, ∀ action ∈ (schedule loop).actions, action.computations.Nodup := by
    intro loop action haction
    rcases List.mem_pair.1 haction with rfl | rfl <;> simp
  obtain ⟨-, -, hregroup⟩ := calls_regroup (s := schedule ⟨"k"⟩) (.built ht) (hmade _) (hnodup _)
  obtain ⟨hcalls, hshort, -⟩ :=
    calls_regroup (s := schedule ⟨"y"⟩) (.built ht) (hmade _) (hnodup _)
  have hlost : ∃ action ∈ (schedule ⟨"y"⟩).actions, ∃ loop ∈ action.loops,
      t.contains loop = false := by
    refine ⟨_, List.mem_cons_self .., ⟨"y"⟩, List.mem_singleton_self _, ?_⟩
    cases ht
    decide +kernel
  obtain ⟨own, hown, -, hlines, -, hkeep⟩ := hregroup (by
    cases ht
    decide +kernel)
  refine ⟨t, own, ht, hown, ?_, ⟨hlines, ?_⟩, hcalls.2 hlost, hshort.2 hlost⟩
  · cases ht
    cases hown
    rfl
  · rw [hkeep]
    cases ht
    cases hown
    rfl

end Schedule

end LoopNest
