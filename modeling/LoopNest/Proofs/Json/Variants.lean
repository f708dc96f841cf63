import LoopNest.Proofs.Json.RoundTrip
import Mathlib.Logic.Relation

/-!
LoopNest.Proofs.Json.Variants — annotations as other programs write them.

An annotation may come from a program that writes more than is read here, in
another order and with other white space.  What may differ is listed as single
edits (`Table.Edit`).  Whatever edits are made, and however the tokens are then
written, the text holds the same annotation, its loops in the same order
(`ofText_of_variant`).

One thing that an edit may do is not harmless.  The name of a member is
compared with the names of the fields, so it has to denote a text, also when
the member is then passed over.  A name with an unpaired surrogate denotes
none, and the whole annotation is refused (`variants_not_all_read`).

* `Json.MemberEdit.exists_sorted` — what one edit does to the fields of a
  record;
* `Table.Edit.reads` — an edited annotation is read as before, if its names
  denote texts;
* `Table.Variant.ofJson?_eq_some_iff` — the same after any number of edits.
-/

namespace LoopNest

open Json (Value Written)

/-! ## Edits -/

namespace Json

/-- The members of an object. -/
def Value.members : Value → List (Option String × Value)
  | .object members => members
  | _ => []

/-- A change to the members of an object that is read for some fields, of
which those in `spare` say no more than their absence. -/
inductive MemberEdit (fields : List String) (spare : List (String × Value)) :
    List (Option String × Value) → List (Option String × Value) → Prop
  /-- put in a member that is no field, also one whose name is there already -/
  | insert (before after : List (Option String × Value)) (name : Option String) (value : Value)
      (hname : ∀ field ∈ fields, name ≠ some field) :
    MemberEdit fields spare (before ++ after) (before ++ (name, value) :: after)
  /-- change the order -/
  | reorder {ms ns : List (Option String × Value)} (hperm : ms.Perm ns) :
    MemberEdit fields spare ms ns
  /-- leave off a member that says no more than its absence -/
  | leaveOff (before after : List (Option String × Value)) {name : String} {value : Value}
      (hspare : (name, value) ∈ spare) :
    MemberEdit fields spare (before ++ (some name, value) :: after) (before ++ after)

end Json

/-- The members of an entry that say no more than their absence. -/
def Entry.spareMembers : List (String × Value) :=
  [("parent_iterator", .null), ("child_iterators", .array []), ("computations_list", .array [])]

namespace Table

/-- A change to an annotation: to its own members, none of which can be left
off, or to the members of one entry.  Entries keep their order. -/
inductive Edit : Value → Value → Prop
  | outside {ms ns : List (Option String × Value)} (h : Json.MemberEdit ["iterators"] [] ms ns) :
    Edit (.object ms) (.object ns)
  | inside (before after rows rows' : List (Option String × Value)) (id : Option String)
      {ms ns : List (Option String × Value)}
      (h : Json.MemberEdit Entry.fieldNames Entry.spareMembers ms ns) :
    Edit
      (.object (before ++ (some "iterators", .object (rows ++ (id, .object ms) :: rows')) :: after))
      (.object (before ++ (some "iterators", .object (rows ++ (id, .object ns) :: rows')) :: after))

/-- What an annotation may become. -/
def Variant (a : Table) (v : Value) : Prop := Relation.ReflTransGen Edit a.toJson v

/-- The names that are compared with names of fields: those of an annotation's
members and of its entries' members. -/
def comparedNames (v : Value) : List (Option String) :=
  v.members.flatMap fun m =>
    m.1 :: if m.1 = some "iterators" then
      m.2.members.flatMap fun row => row.2.members.map Prod.fst else []

end Table

/-! ## Members -/

namespace Json.MemberEdit

variable {fields : List String} {spare : List (String × Value)}
  {ms ns : List (Option String × Value)}

/-- An edit keeps every field, but for one that may be left off. -/
theorem exists_sorted (h : MemberEdit fields spare ms ns) (hnames : none ∉ ns.map Prod.fst)
    {slots filled : List (Option Value)} (hms : sortMembers fields slots ms = some filled) :
    ∃ rest, sortMembers fields slots ns = some rest ∧
      (rest = filled ∨ ∃ m ∈ spare, setField m.1 m.2 fields rest = some filled) := by
  cases h with
  | insert before after name value hname =>
    cases name with
    | none => exact absurd (by simp) hnames
    | some name =>
      have hunknown : name ∉ fields := fun hmem => hname name hmem rfl
      refine ⟨filled, ?_, Or.inl rfl⟩
      rw [sortMembers_insert, hms, Option.bind_some, setField_of_not_mem value hunknown]
  | reorder hperm => exact ⟨filled, (sortMembers_perm hperm slots).symm.trans hms, Or.inl rfl⟩
  | leaveOff before after hspare =>
    rw [sortMembers_insert] at hms
    obtain ⟨rest, hrest, hset⟩ := Option.bind_eq_some_iff.1 hms
    exact ⟨rest, hrest, Or.inr ⟨_, hspare, hset⟩⟩

/-- No edit takes away a name that denotes no text. -/
theorem none_mem_names (h : MemberEdit fields spare ms ns) (hms : none ∈ ms.map Prod.fst) :
    none ∈ ns.map Prod.fst := by
  cases h with
  | insert before after name value _ =>
    simp only [List.map_append, List.map_cons, List.mem_append, List.mem_cons] at hms ⊢
    tauto
  | reorder hperm => exact (hperm.map Prod.fst).mem_iff.1 hms
  | leaveOff before after _ =>
    simpa only [List.map_append, List.map_cons, List.mem_append, List.mem_cons, reduceCtorEq,
      false_or] using hms

end Json.MemberEdit

/-! ## Entries -/

namespace Entry

/-- A spare member is read as if it were not there. -/
theorem ofFields?_of_spare {m : String × Value} (hspare : m ∈ spareMembers)
    {rest filled : List (Option Value)} (hlength : rest.length = 5)
    (hset : Json.setField m.1 m.2 fieldNames rest = some filled) :
    ofFields? rest = ofFields? filled := by
  match rest, hlength with
  | [parent, lower, upper, children, computations], _ =>
    simp only [spareMembers, List.mem_cons, List.not_mem_nil, or_false] at hspare
    rcases hspare with rfl | rfl | rfl
    · cases parent <;> cases hset
      rfl
    · cases children <;> cases hset
      rfl
    · cases computations <;> cases hset
      rfl

theorem reads_edited {ms ns : List (Option String × Value)}
    (h : Json.MemberEdit fieldNames spareMembers ms ns) (hnames : none ∉ ns.map Prod.fst)
    {e : Entry} (he : ofJson? (.object ms) = some e) : ofJson? (.object ns) = some e := by
  obtain ⟨filled, hsort, hfields⟩ := Option.bind_eq_some_iff.1 he
  obtain ⟨rest, hrest, hkept⟩ := h.exists_sorted hnames hsort
  refine Option.bind_eq_some_iff.2 ⟨rest, hrest, ?_⟩
  rcases hkept with rfl | ⟨m, hm, hset⟩
  · exact hfields
  · rw [ofFields?_of_spare hm (Json.length_sortMembers hrest) hset]
    exact hfields

end Entry

/-! ## Tables -/

namespace Table

variable {a : Table} {v w : Value}

theorem tableOfMembers?_replace {id : Option String} {rows' : List (Option String × Value)}
    (hvw : ∀ e, Entry.ofJson? v = some e → Entry.ofJson? w = some e) :
    ∀ {rows : List (Option String × Value)} {table loops : OrderedMap LoopId Entry},
      tableOfMembers? table (rows ++ (id, v) :: rows') = some loops →
        tableOfMembers? table (rows ++ (id, w) :: rows') = some loops
  | [], table, loops, h => by
      obtain ⟨name, hname, h⟩ := Option.bind_eq_some_iff.1 h
      obtain ⟨e, he, h⟩ := Option.bind_eq_some_iff.1 h
      exact Option.bind_eq_some_iff.2 ⟨name, hname, Option.bind_eq_some_iff.2 ⟨e, hvw e he, h⟩⟩
  | row :: rows, table, loops, h => by
      obtain ⟨name, hname, h⟩ := Option.bind_eq_some_iff.1 h
      obtain ⟨e, he, h⟩ := Option.bind_eq_some_iff.1 h
      exact Option.bind_eq_some_iff.2
        ⟨name, hname, Option.bind_eq_some_iff.2 ⟨e, he, tableOfMembers?_replace hvw h⟩⟩

theorem exists_entry_of_tableOfMembers? : ∀ {rows : List (Option String × Value)}
    {table loops : OrderedMap LoopId Entry}, tableOfMembers? table rows = some loops →
      ∀ row ∈ rows, ∃ e, Entry.ofJson? row.2 = some e
  | first :: rows, table, loops, h, row, hrow => by
      obtain ⟨name, -, h⟩ := Option.bind_eq_some_iff.1 h
      obtain ⟨e, he, h⟩ := Option.bind_eq_some_iff.1 h
      rcases List.mem_cons.1 hrow with rfl | hrow
      · exact ⟨e, he⟩
      · exact exists_entry_of_tableOfMembers? h row hrow

/-- Where the loops stand among the members does not matter. -/
theorem ofJson?_iterators (before after : List (Option String × Value)) (x : Value) :
    ofJson? (.object (before ++ (some "iterators", x) :: after)) = some a ↔
      Json.sortMembers ["iterators"] [none] (before ++ after) = some [none] ∧
        tableOfJson? x = some a.loops := by
  have hlast : ofJson? (.object (before ++ (some "iterators", x) :: after))
      = ((Json.sortMembers ["iterators"] [none] (before ++ after)).bind
          (Json.setField "iterators" x ["iterators"])).bind ofFields? :=
    congrArg (Option.bind · ofFields?) (Json.sortMembers_insert "iterators" x after before [none])
  rw [hlast]
  cases hrest : Json.sortMembers ["iterators"] [none] (before ++ after) with
  | none => simp
  | some slots =>
    obtain ⟨slot, rfl⟩ := List.length_eq_one_iff.1 (Json.length_sortMembers hrest)
    cases slot with
    | some old => simp [Json.setField]
    | none =>
      have hloops : (tableOfJson? x).map mk = some a ↔ tableOfJson? x = some a.loops := by
        rw [Option.map_eq_some_iff]
        constructor
        · rintro ⟨loops, hx, rfl⟩
          exact hx
        · exact fun hx => ⟨a.loops, hx, rfl⟩
      simpa [Json.setField, ofFields?, Json.required] using hloops

/-- An edited annotation is read as before, if its names denote texts. -/
theorem Edit.reads (h : Edit v w) (hnames : none ∉ comparedNames w) (hv : ofJson? v = some a) :
    ofJson? w = some a := by
  cases h with
  | @outside ms ns h =>
    have hns : none ∉ ns.map Prod.fst := by
      intro hmem
      obtain ⟨m, hm, hnone⟩ := List.mem_map.1 hmem
      exact hnames (List.mem_flatMap.2 ⟨m, hm, hnone ▸ List.mem_cons_self ..⟩)
    obtain ⟨filled, hsort, hfields⟩ := Option.bind_eq_some_iff.1 hv
    obtain ⟨rest, hrest, rfl | ⟨m, hm, -⟩⟩ := h.exists_sorted hns hsort
    · exact Option.bind_eq_some_iff.2 ⟨rest, hrest, hfields⟩
    · cases hm
  | @inside before after rows rows' id ms ns h =>
    have hns : none ∉ ns.map Prod.fst := by
      intro hmem
      refine hnames ?_
      simp only [comparedNames, Value.members, List.flatMap_append, List.flatMap_cons, if_true,
        List.mem_append, List.mem_cons]
      tauto
    rw [ofJson?_iterators] at hv ⊢
    exact ⟨hv.1, tableOfMembers?_replace (fun e he => Entry.reads_edited h hns he) hv.2⟩

theorem Edit.none_mem_comparedNames (h : Edit v w) (hv : none ∈ comparedNames v) :
    none ∈ comparedNames w := by
  cases h with
  | outside h =>
    obtain ⟨m, hm, hnone⟩ := List.mem_flatMap.1 hv
    refine List.mem_flatMap.2 ⟨m, ?_, hnone⟩
    cases h with
    | insert before after name value _ =>
      simp only [Value.members, List.mem_append, List.mem_cons] at hm ⊢
      tauto
    | reorder hperm => exact hperm.mem_iff.1 hm
    | leaveOff before after hspare => cases hspare
  | inside before after rows rows' id h =>
    have hedited := h.none_mem_names
    simp only [comparedNames, Value.members, List.flatMap_append, List.flatMap_cons, if_true,
      List.mem_append, List.mem_cons] at hv ⊢
    tauto

/-- All names of what is read as an annotation denote texts. -/
theorem none_not_mem_comparedNames (hv : ofJson? v = some a) : none ∉ comparedNames v := by
  intro hnone
  cases v with
  | object ms =>
    obtain ⟨⟨name, x⟩, hm, hnone⟩ := List.mem_flatMap.1 hnone
    rcases List.mem_cons.1 hnone with hname | hinner
    · obtain ⟨filled, hsort, -⟩ := Option.bind_eq_some_iff.1 hv
      exact Json.not_mem_names_of_sortMembers hsort (List.mem_map.2 ⟨_, hm, hname.symm⟩)
    · by_cases hname : name = some "iterators"
      · subst hname
        obtain ⟨before, after, rfl⟩ := List.append_of_mem hm
        obtain ⟨-, hx⟩ := (ofJson?_iterators before after x).1 hv
        rw [if_pos rfl] at hinner
        obtain ⟨⟨id, entry⟩, hrow, hinner⟩ := List.mem_flatMap.1 hinner
        cases x with
        | object rows =>
          obtain ⟨e, he⟩ := exists_entry_of_tableOfMembers? hx _ hrow
          cases entry with
          | object es =>
            obtain ⟨filled, hsort, -⟩ := Option.bind_eq_some_iff.1 he
            exact Json.not_mem_names_of_sortMembers hsort hinner
          | _ => cases hinner
        | _ => cases hrow
      · rw [if_neg hname] at hinner
        cases hinner
  | _ => cases hnone

/-- A variant is read as the annotation exactly if its names denote texts. -/
theorem Variant.ofJson?_eq_some_iff (h : a.Variant v) :
    ofJson? v = some a ↔ none ∉ comparedNames v := by
  refine ⟨none_not_mem_comparedNames, ?_⟩
  induction h with
  | refl => exact fun _ => ofJson?_toJson a
  | tail _ hedit ih =>
    exact fun hnames => hedit.reads hnames (ih (mt hedit.none_mem_comparedNames hnames))

/-- A text that says the same as an annotation, with other members, in
another order, spare members left off and any white space, is read as this
annotation, provided that the names to compare denote texts.  Otherwise it is
refused. -/
theorem ofText_of_variant {text : String} (hv : a.Variant v)
    (ht : Written v.tokens text.toList) :
    (none ∉ comparedNames v → ofText text = .ok a) ∧
      (none ∈ comparedNames v → ofText text = .error .malformedJson) := by
  rw [ofText, Value.ofText?_of_written ht, Option.bind_some]
  constructor
  · intro hnames
    rw [hv.ofJson?_eq_some_iff.2 hnames]
  · intro hnone
    cases hread : ofJson? v with
    | none => rfl
    | some b => exact absurd hnone (none_not_mem_comparedNames hread)

/-- One loop. -/
def oneLoop : Table where
  loops := .ofList [(⟨"i"⟩, { parent := none, lower := .constant 0, upper := .constant 8 })]

/-- The loop of `oneLoop` as another program describes it: an unpaired surrogate in
a member that is no field, the bounds in the other order, and not a word on
parent, children and computations. -/
def oneLoopElsewhere : Option String × Value :=
  (some "iterators", .object [(some "i", .object [(some "x", .string none),
    (some "upper_bound", .ofInt 8), (some "lower_bound", .ofInt 0)])])

theorem variant_oneLoopElsewhere : Variant oneLoop (.object [oneLoopElsewhere]) := by
  let lower : Option String × Value := (some "lower_bound", .ofInt 0)
  let upper : Option String × Value := (some "upper_bound", .ofInt 8)
  let children : Option String × Value := (some "child_iterators", .array [])
  let work : Option String × Value := (some "computations_list", .array [])
  have edit {ms ns : List (Option String × Value)}
      (h : Json.MemberEdit Entry.fieldNames Entry.spareMembers ms ns) :
      Edit (.object [(some "iterators", .object [(some "i", .object ms)])])
        (.object [(some "iterators", .object [(some "i", .object ns)])]) :=
    .inside [] [] [] [] (some "i") h
  have horphan : Variant oneLoop _ :=
    .single (edit (.leaveOff [] [lower, upper, children, work] (List.mem_cons_self ..)))
  have hchildless := horphan.tail
    (edit (.leaveOff [lower, upper] [work] (List.mem_cons_of_mem _ (List.mem_cons_self ..))))
  have hidle := hchildless.tail (edit (.leaveOff [lower, upper] []
    (List.mem_cons_of_mem _ (List.mem_cons_of_mem _ (List.mem_cons_self ..)))))
  have hswapped := hidle.tail (edit (.reorder (.swap upper lower [])))
  exact hswapped.tail
    (edit (.insert [] [upper, lower] (some "x") (.string none) (by decide)))

/-- It is read as `oneLoop`, also beside a member with an exponent and with white
space. -/
theorem ofText_of_variant_oneLoop : ofText
    " \x7b \"x\" : 1e3,\"iterators\":\x7b\"i\":\x7b\"x\":\"\\ud800\",\"upper_bound\":8,\"lower_bound\":0\x7d\x7d\x7d"
      = .ok oneLoop := by
  have hvariant : Variant oneLoop (.object
      [(some "x", .number (.decimal ['1', 'e', '3'])), oneLoopElsewhere]) :=
    variant_oneLoopElsewhere.tail (.outside (.insert [] [oneLoopElsewhere] _ _ (by decide)))
  have hplain : ∀ t ∈ Json.memberTokens [oneLoopElsewhere] ++ [.closeBrace], t.Plain := by
    simp [oneLoopElsewhere, Json.memberTokens, Value.tokens, Value.ofInt, Json.Token.Plain]
  have hnumber : Json.Number.Spells (.decimal ['1', 'e', '3']) ['1', 'e', '3'] :=
    @Json.Number.Spells.parts false ['1'] [] ['e', '3']
      (.digits (by decide) (by decide) (List.forall_mem_nil _)) .absent
      (@Json.IsExponent.digits 'e' '3' [] [] (Or.inl rfl) (Or.inl rfl)
        (List.forall_mem_singleton.2 rfl))
  have hblank : ∀ c ∈ [' '], Json.isSpace c = true := List.forall_mem_singleton.2 rfl
  have hwritten := Written.token hblank (.fixed (t := .openBrace) trivial) <|
    .token hblank (Json.Token.spells_string (some "x")) <|
    .token hblank (.fixed (t := .colon) trivial) <|
    .token hblank (.number hnumber) (Json.written_spellings hplain)
  rw [← String.toList_ofList (l := [' '] ++ _)] at hwritten
  exact (ofText_of_variant hvariant hwritten).1 (by decide)

/-- Not every variant is read: the name of a member that would be passed over is an
unpaired surrogate. -/
theorem variants_not_all_read :
    ofText "\x7b\"iterators\":\x7b\x7d,\"\\ud800\":null\x7d" = .error .malformedJson ∧
      ¬∀ (a : Table) (v : Value) (text : String),
        a.Variant v → Written v.tokens text.toList → ofText text = .ok a := by
  let v : Value := .object [(some "iterators", .object []), (none, .null)]
  have hvariant : Variant ⟨.empty⟩ v :=
    .single (.outside (.insert [(some "iterators", .object [])] [] none .null (by simp)))
  have hplain : v.Plain := by
    refine Value.plain_object fun m hm => ?_
    simp only [List.mem_cons, List.not_mem_nil, or_false] at hm
    rcases hm with rfl | rfl
    · exact Value.plain_object nofun
    · exact Value.plain_of_tokens rfl trivial
  have htext : v.text = "\x7b\"iterators\":\x7b\x7d,\"\\ud800\":null\x7d" := by decide
  have hrefused : ofText v.text = .error .malformedJson := by
    rw [ofText, Value.ofText?_text hplain]
    rfl
  refine ⟨htext ▸ hrefused, fun hread => ?_⟩
  have hok := hread ⟨.empty⟩ v v.text hvariant (Value.written_text hplain)
  rw [hrefused] at hok
  cases hok

end Table

end LoopNest
