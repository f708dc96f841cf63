import LoopNest.Proofs.Forest.Acceptance
import Mathlib.Data.List.Count

/-!
LoopNest.Proofs.Forest.Rejection — what a refused table is told.

A table can have several defects at once, and only the first that is met is
reported: entries are compared in table order, loops without a way up are looked
for after that, and computations last, along a walk.  Whatever is reported is
there (`blames_of_ofTable`), and the checks of single nodes never come to speak:
by the time nodes are made, nothing is left that they could find.

* `Table.Blames` — what a report means, and its wording;
* `Table.crossCheck_eq_error`, `Draft.build_eq_error`, `claim_eq_error` — who
  reports what.
-/

namespace LoopNest

namespace Table

/-- A defect of a table, as it is reported and in words. -/
inductive Blames (a : Table) : Error → String → Prop
  /-- a parent that is not in the table -/
  | missingParent {x p : LoopId} {entry : Entry} (hx : a.loops.get? x = some entry)
      (hp : entry.parent = some p) (habsent : a.loops.get? p = none) :
    a.Blames (.missingParent x p) ("Iterator " ++ x.text ++ " references missing parent " ++ p.text)
  /-- a child that is not in the table -/
  | unknownChild {x c : LoopId} {entry : Entry} (hx : a.loops.get? x = some entry)
      (hc : c ∈ entry.children) (habsent : a.loops.get? c = none) :
    a.Blames (.unknownLoop c) ("Unknown iterator: " ++ c.text)
  /-- a parent that does not list the loop -/
  | unlisted {x p : LoopId} {entry above : Entry} (hx : a.loops.get? x = some entry)
      (hp : entry.parent = some p) (habove : a.loops.get? p = some above)
      (hunlisted : x ∉ above.children) :
    a.Blames (.invalidNode x (.unlistedBy p)) ("Invalid node spec for " ++ x.text ++ ": " ++
      ("parent " ++ p.text ++ " does not list it as a child"))
  /-- a child with another parent, or with none -/
  | claimed {x c : LoopId} {entry below : Entry} (hx : a.loops.get? x = some entry)
      (hc : c ∈ entry.children) (hbelow : a.loops.get? c = some below)
      (hother : below.parent ≠ some x) :
    a.Blames (.invalidNode c (.claimedBy x)) ("Invalid node spec for " ++ c.text ++ ": " ++
      ("listed as a child of " ++ x.text ++ " but names another parent"))
  /-- a child listed twice -/
  | repeated {x c : LoopId} {entry : Entry} (hx : a.loops.get? x = some entry)
      (htwice : 2 ≤ entry.children.count c) :
    a.Blames (.invalidNode x (.repeatedChild c)) ("Invalid node spec for " ++ x.text ++ ": " ++
      ("child " ++ c.text ++ " listed twice"))
  /-- no loop without a parent, though there are loops -/
  | noRoot (hentries : a.loops.entries ≠ [])
      (hparents : ∀ row ∈ a.loops.entries, row.2.parent ≠ none) :
    a.Blames (.invalidTable .noRoot) "Invalid annotation: no root iterator"
  /-- the first loop from which parents do not lead to a loop without one -/
  | unreachable {x : LoopId} {before after : List LoopId}
      (hkeys : a.loops.keys = before ++ x :: after) (hx : ¬∃ depth, a.Depth x depth)
      (hbefore : ∀ y ∈ before, ∃ depth, a.Depth y depth) :
    a.Blames (.invalidNode x .unreachable)
      ("Invalid node spec for " ++ x.text ++ ": " ++ "not reachable from any root")
  /-- a computation of two loops, or twice in one -/
  | taken {x y : LoopId} {c : String} {entry other : Entry} (hx : a.loops.get? x = some entry)
      (hc : c ∈ entry.computations) (hy : a.loops.get? y = some other)
      (hc' : c ∈ other.computations) (htwice : x = y → 2 ≤ entry.computations.count c) :
    a.Blames (.invalidNode x (.takenComputation c y)) ("Invalid node spec for " ++ x.text ++ ": " ++
      ("computation " ++ c ++ " already attached to " ++ y.text))

/-- A root, and beside it a loop that is its own parent and child. -/
def besideItself : Table where
  loops := .ofList [
    (⟨"i"⟩, { parent := none, lower := .constant 0, upper := .symbolic "N",
              computations := ["S"] }),
    (⟨"j"⟩, { parent := some ⟨"j"⟩, lower := .constant 0, upper := .symbolic "M",
              children := [⟨"j"⟩] })]

variable {a : Table}

/-! ## The cross check -/

theorem checkParent_eq_error {x : LoopId} {entry : Entry} {e : Error}
    (hx : a.loops.get? x = some entry) (h : a.checkParent x entry.parent = .error e) :
    a.Blames e e.message := by
  cases hp : entry.parent with
  | none =>
    rw [hp] at h
    cases h
  | some p =>
    rw [hp] at h
    cases habove : a.loops.get? p with
    | none =>
      simp only [checkParent, habove, Except.error.injEq] at h
      subst h
      exact .missingParent hx hp habove
    | some above =>
      by_cases hlisted : x ∈ above.children
      · simp [checkParent, habove, hlisted] at h
      · simp only [checkParent, habove, if_neg hlisted, Except.error.injEq] at h
        subst h
        exact .unlisted hx hp habove hlisted

/-- The report on a list of children is about one of them; those before it are
in order. -/
theorem checkChildren_eq_error {x : LoopId} {e : Error} : ∀ {children seen : List LoopId},
    a.checkChildren x seen children = .error e →
      ∃ before c after, children = before ++ c :: after ∧
        (a.loops.get? c = none ∧ e = .unknownLoop c ∨
          (∃ below, a.loops.get? c = some below ∧ below.parent ≠ some x ∧
            e = .invalidNode c (.claimedBy x)) ∨
          c ∈ before ++ seen ∧ e = .invalidNode x (.repeatedChild c))
  | [], seen, h => by cases h
  | child :: rest, seen, h => by
      cases hc : a.loops.get? child with
      | none =>
        simp only [checkChildren, hc, Except.error.injEq] at h
        exact ⟨[], child, rest, rfl, Or.inl ⟨hc, h.symm⟩⟩
      | some below =>
        by_cases hp : below.parent ≠ some x
        · simp only [checkChildren, hc, if_pos hp, Except.error.injEq] at h
          exact ⟨[], child, rest, rfl, Or.inr (Or.inl ⟨below, hc, hp, h.symm⟩)⟩
        · by_cases hs : child ∈ seen
          · simp only [checkChildren, hc, if_neg hp, if_pos hs, Except.error.injEq] at h
            exact ⟨[], child, rest, rfl, Or.inr (Or.inr ⟨hs, h.symm⟩)⟩
          · simp only [checkChildren, hc, if_neg hp, if_neg hs] at h
            obtain ⟨before, c, after, rfl, hcause⟩ := checkChildren_eq_error h
            refine ⟨child :: before, c, after, rfl, ?_⟩
            rcases hcause with hcause | hcause | ⟨hmem, he⟩
            · exact Or.inl hcause
            · exact Or.inr (Or.inl hcause)
            · refine Or.inr (Or.inr ⟨?_, he⟩)
              simpa only [List.cons_append, List.mem_cons, List.mem_append, or_left_comm] using hmem

theorem crossCheck_eq_error {e : Error} : ∀ {rows : List (LoopId × Entry)},
    a.crossCheck rows = .error e → ∃ row ∈ rows,
      a.checkParent row.1 row.2.parent = .error e ∨ a.checkChildren row.1 [] row.2.children = .error e
  | [], h => by cases h
  | (x, entry) :: rest, h => by
      rw [crossCheck, bind_eq_error] at h
      rcases h with h | ⟨⟨⟩, -, h⟩
      · exact ⟨(x, entry), List.mem_cons_self .., Or.inl h⟩
      · rcases bind_eq_error.1 h with h | ⟨⟨⟩, -, h⟩
        · exact ⟨(x, entry), List.mem_cons_self .., Or.inr h⟩
        · obtain ⟨row, hrow, hcause⟩ := crossCheck_eq_error h
          exact ⟨row, List.mem_cons_of_mem _ hrow, hcause⟩

/-- What the cross check reports is there. -/
theorem blames_of_crossCheck {e : Error} (h : a.crossCheck a.loops.entries = .error e) :
    a.Blames e e.message := by
  obtain ⟨⟨x, entry⟩, hrow, hcause⟩ := crossCheck_eq_error h
  have hx := OrderedMap.get?_eq_some_iff.2 hrow
  rcases hcause with hparent | hchildren
  · exact checkParent_eq_error hx hparent
  · obtain ⟨before, c, after, hsplit, hcause⟩ := checkChildren_eq_error hchildren
    simp only at hsplit
    have hc : c ∈ entry.children := by simp [hsplit]
    rcases hcause with ⟨habsent, rfl⟩ | ⟨below, hbelow, hother, rfl⟩ | ⟨hmem, rfl⟩
    · exact .unknownChild hx hc habsent
    · exact .claimed hx hc hbelow hother
    · refine .repeated hx ?_
      rw [List.append_nil] at hmem
      have hbefore := List.count_pos_iff.2 hmem
      rw [hsplit, List.count_append, List.count_cons_self]
      omega

end Table

/-! ## Single nodes -/

/-- The defects that a node by itself can have. -/
def NodeDefect.OfSingle : NodeDefect → Prop
  | .missing _ | .deepRoot _ | .shallowInner | .selfReference => True
  | _ => False

namespace Draft

theorem need_eq_error {α : Type} {owner : LoopId} {field : NodeField} {value : Option α}
    {e : Error} (h : need owner field value = .error e) :
    e = .invalidNode owner (.missing field) := by
  cases value with
  | none =>
    cases h
    rfl
  | some value => cases h

theorem validate_eq_error {n : Node} {e : Error} (h : validate n = .error e) :
    ∃ defect, e = .invalidNode n.id defect ∧ defect.OfSingle := by
  rw [validate] at h
  split at h
  · cases h
    exact ⟨_, rfl, trivial⟩
  · split at h
    · cases h
      exact ⟨_, rfl, trivial⟩
    · split at h
      · cases h
        exact ⟨_, rfl, trivial⟩
      · cases h

/-- A node in the making is refused for what can be seen from it alone. -/
theorem build_eq_error {d : Draft} {e : Error} (h : d.build = .error e) :
    ∃ x defect, e = .invalidNode x defect ∧ defect.OfSingle := by
  have hmissing : ∀ {α : Type} {owner : LoopId} {field : NodeField} {value : Option α},
      need owner field value = .error e → ∃ x defect, e = .invalidNode x defect ∧
        defect.OfSingle :=
    fun h => ⟨_, _, need_eq_error h, trivial⟩
  simp only [build, bind_eq_error] at h
  obtain h | ⟨id, -, h | ⟨lower, -, h | ⟨upper, -, h | ⟨parent, -, h | ⟨children, -, h |
    ⟨computations, -, h | ⟨level, -, h⟩⟩⟩⟩⟩⟩⟩ := h
  all_goals first | exact hmissing h | exact ⟨_, validate_eq_error h⟩

end Draft

namespace Forest

variable {t : Forest} {a : Table}

/-! ## Computations held twice -/

/-- A computation that cannot be given an owner has one. -/
theorem claim_eq_error {e : Error} : ∀ {held : List (LoopId × String)} {owners : NameMap LoopId},
    claim owners held = .error e →
      ∃ before x c after y, held = before ++ (x, c) :: after ∧
        (owners[c]? = some y ∨ (y, c) ∈ before) ∧ e = .invalidNode x (.takenComputation c y)
  | [], owners, h => by cases h
  | (x, c) :: rest, owners, h => by
      cases hc : owners[c]? with
      | some y =>
        simp only [claim, hc, Except.error.injEq] at h
        exact ⟨[], x, c, rest, y, rfl, Or.inl hc, h.symm⟩
      | none =>
        simp only [claim, hc] at h
        obtain ⟨before, x', c', after, y, rfl, hfirst, he⟩ := claim_eq_error h
        refine ⟨(x, c) :: before, x', c', after, y, rfl, ?_, he⟩
        rcases hfirst with hfirst | hfirst
        · rw [Std.ExtTreeMap.getElem?_insert] at hfirst
          by_cases hsame : c = c'
          · subst hsame
            simp only [Std.ReflCmp.compare_self, if_true, Option.some.injEq] at hfirst
            subst hfirst
            exact Or.inr (List.mem_cons_self ..)
          · simp only [Std.LawfulEqOrd.compare_eq_iff_eq, hsame, if_false] at hfirst
            exact Or.inl hfirst
        · exact Or.inr (List.mem_cons_of_mem _ hfirst)

/-- Along loops that do not repeat, a computation comes with a loop as often as
the loop holds it. -/
theorem count_held {x : LoopId} {c : String} : ∀ {ids : List LoopId}, ids.Nodup → x ∈ ids →
    (t.held ids).count (x, c) = (t.computationsOf x).count c
  | id :: rest, hnodup, hx => by
      obtain ⟨hid, hnodup⟩ := List.nodup_cons.1 hnodup
      rw [held_cons, List.count_append]
      rcases List.mem_cons.1 hx with rfl | hx
      · have hrest : (t.held rest).count (x, c) = 0 :=
          List.count_eq_zero.2 fun hmem => hid (mem_held.1 hmem).1
        rw [hrest, Nat.add_zero]
        exact List.count_map_of_injective _ _ (fun _ _ h => congrArg Prod.snd h) c
      · have hne : id ≠ x := fun e => hid (e ▸ hx)
        have hnow : ((t.computationsOf id).map fun computation => (id, computation)).count (x, c)
            = 0 := List.count_eq_zero.2 (by simp [hne])
        rw [hnow, Nat.zero_add, count_held hnodup hx]

/-- What is reported when the indices are made is there. -/
theorem blames_of_indexed {e : Error} (hagrees : a.Agrees) (h : a.rooted.indexed = .error e) :
    a.Blames e e.message := by
  have hlinked := hagrees.linked_rooted
  rw [hlinked.indexed_eq, bind_eq_error] at h
  rcases h with h | ⟨owners, -, h⟩
  · obtain ⟨before, x, c, after, y, hsplit, hfirst, rfl⟩ := claim_eq_error h
    have hfirst : (y, c) ∈ before := by simpa using hfirst
    have hentry : ∀ {z : LoopId}, (z, c) ∈ a.rooted.held a.rooted.listing →
        ∃ entry, a.loops.get? z = some entry ∧ c ∈ entry.computations ∧
          entry.computations = a.rooted.computationsOf z := by
      intro z hz
      obtain ⟨n, hn, hc⟩ := mem_computationsOf.1 (mem_held.1 hz).2
      exact ⟨n.entry, Table.get?_rooted hn, hc, (computationsOf_eq hn).symm⟩
    obtain ⟨entry, hx, hc, hsame⟩ := hentry (z := x) (by simp [hsplit])
    obtain ⟨other, hy, hc', -⟩ := hentry (z := y) (by simp [hsplit, hfirst])
    refine .taken hx hc hy hc' ?_
    rintro rfl
    have hmem : (x, c) ∈ a.rooted.held a.rooted.listing := by simp [hsplit]
    have hlisted := (mem_held.1 hmem).1
    have hbefore := List.count_pos_iff.2 hfirst
    rw [hsame, ← count_held hlinked.nodup_listing hlisted, hsplit, List.count_append,
      List.count_cons_self]
    omega
  · cases h

/-! ## The whole construction -/

/-- The loops of a table that its roots lead to are those from which parents
lead to a root. -/
theorem contains_rooted {x : LoopId} (hx : x ∈ a.loops.keys) :
    a.rooted.nodes.contains x = true ↔ ∃ depth, a.Depth x depth := by
  obtain ⟨entry, hentry⟩ := OrderedMap.mem_keys.1 hx
  rw [Std.ExtTreeMap.contains_eq_isSome_getElem?, Option.isSome_iff_exists]
  constructor
  · rintro ⟨n, hn⟩
    obtain ⟨-, depth, -, hdepth, -⟩ := Table.nodes_rooted.1 hn
    exact ⟨depth, hdepth⟩
  · rintro ⟨depth, hdepth⟩
    exact ⟨_, Table.nodes_rooted.2 ⟨entry, depth, hentry, hdepth, rfl⟩⟩

/-- A refused table has the defect that is reported, in these words, and it is
none that a single node could be refused for. -/
theorem blames_of_ofTable {e : Error} (h : ofTable a = .error e) :
    a.Blames e e.message ∧ ∀ d : Draft, d.build ≠ .error e := by
  have hblames : a.Blames e e.message := by
    cases hcheck : a.crossCheck a.loops.entries with
    | error e' =>
      rw [ofTable, hcheck] at h
      cases h
      exact Table.blames_of_crossCheck hcheck
    | ok u =>
      have hagrees := (Table.crossCheck_eq_ok_iff a).1 hcheck
      rw [hagrees.linked_rooted.ofTable_eq Table.name_rooted Table.get?_rooted hagrees rfl] at h
      by_cases hnone : a.rooted.roots = [] ∧ a.loops.entries ≠ []
      · rw [if_pos hnone] at h
        cases h
        refine .noRoot hnone.2 fun row hrow hp => ?_
        have hroot : row.1 ∈ a.rooted.roots :=
          Table.mem_roots.2 ⟨row.2, OrderedMap.get?_eq_some_iff.2 hrow, hp⟩
        rw [hnone.1] at hroot
        cases hroot
      · rw [if_neg hnone] at h
        cases hfind : a.loops.keys.find? fun id => !a.rooted.nodes.contains id with
        | none =>
          rw [hfind] at h
          exact blames_of_indexed hagrees h
        | some stray =>
          rw [hfind] at h
          cases h
          obtain ⟨hstray, before, after, hkeys, hbefore⟩ := List.find?_eq_some_iff_append.1 hfind
          refine .unreachable hkeys ?_ fun y hy => ?_
          · rw [← contains_rooted (List.mem_of_find?_eq_some hfind), Bool.not_eq_true,
              ← Bool.not_eq_true']
            exact hstray
          · rw [← contains_rooted (by simp [hkeys, hy])]
            simpa using hbefore y hy
  refine ⟨hblames, fun d hd => ?_⟩
  obtain ⟨x, defect, rfl, hown⟩ := Draft.build_eq_error hd
  cases hblames <;> exact hown

/-- The loop `j` of `besideItself` refers to itself, but no check of single nodes
gets to see it: no root leads to it, and that is what is reported. -/
theorem besideItself_blamed :
    ofTable .besideItself = .error (.invalidNode ⟨"j"⟩ .unreachable) ∧
      Table.besideItself.Blames (.invalidNode ⟨"j"⟩ .unreachable)
        "Invalid node spec for j: not reachable from any root" ∧
      ∀ d : Draft, d.build ≠ .error (.invalidNode ⟨"j"⟩ .unreachable) := by
  have hrefused : ofTable .besideItself = .error (.invalidNode ⟨"j"⟩ .unreachable) := rfl
  have hmessage : (Error.invalidNode ⟨"j"⟩ .unreachable).message
      = "Invalid node spec for j: not reachable from any root" := by decide
  obtain ⟨hblames, hbuild⟩ := blames_of_ofTable hrefused
  rw [hmessage] at hblames
  exact ⟨hrefused, hblames, hbuild⟩

end Forest

end LoopNest
