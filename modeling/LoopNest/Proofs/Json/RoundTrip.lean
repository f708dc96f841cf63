import LoopNest.Action.Json
import LoopNest.Proofs.Json.Grammar
import LoopNest.Proofs.Json.Records

/-!
LoopNest.Proofs.Json.RoundTrip — what was written is read.

Annotations and actions are written as JSON values, and the values as text.
Either step can be undone.  A loop and a symbolic bound are strings, a
factor and a constant are integers, so a loop named `5` and the factor 5
stay apart; and every integer that is written fits the 64 bits that are
read.

* `Entry.ofJson?_toJson`, `Table.ofJson?_toJson`, `Action.ofJson?_toJson` —
  values read back;
* `Table.plain_toJson`, `Action.plain_toJson` — values whose texts are;
* `ofText_text` — both together.
-/

namespace LoopNest

open Json (Value)

/-! ## Values -/

theorem Bound.ofJson?_toJson (b : Bound) : Bound.ofJson? b.toJson = some b := by
  cases b with
  | constant n =>
    show (Value.ofInt n.toInt).int64?.map Bound.constant = _
    rw [Value.int64?_ofInt]
    rfl
  | symbolic s => rfl

theorem Param.ofJson?_toJson (p : Param) : Param.ofJson? p.toJson = some p := by
  cases p with
  | loop id => rfl
  | factor n =>
    show (Value.ofInt n.toInt).int64?.map Param.factor = _
    rw [Value.int64?_ofInt]
    rfl

theorem Kind.ofJson?_toJson (k : Kind) : Kind.ofJson? k.toJson = some k := ofName?_name k

theorem Json.Value.list?_ofStrings (l : List String) :
    Value.list? Value.string? (.ofStrings l) = some l :=
  Value.list?_array Value.ofString (fun _ => rfl) l

theorem Entry.ofJson?_toJson (e : Entry) : Entry.ofJson? e.toJson = some e := by
  have hfields : e.toJson.fields? Entry.fieldNames 3 = some [
      some (.ofOption LoopId.toJson e.parent), some e.lower.toJson, some e.upper.toJson,
      some (.array (e.children.map LoopId.toJson)), some (.ofStrings e.computations)] :=
    Value.fields?_record_self (by decide) 3 rfl
  have hparent : Value.nullable? LoopId.ofJson? (.ofOption LoopId.toJson e.parent)
      = some e.parent :=
    Value.nullable?_ofOption LoopId.toJson (fun _ => rfl) (fun _ => nofun) e.parent
  have hchildren : Value.list? LoopId.ofJson? (.array (e.children.map LoopId.toJson))
      = some e.children :=
    Value.list?_array LoopId.toJson (fun _ => rfl) e.children
  rw [ofJson?, hfields]
  simp only [Option.bind_eq_bind, Option.bind_some, ofFields?, Json.optional, Json.required,
    hparent, Bound.ofJson?_toJson, hchildren, Value.list?_ofStrings]
  rfl

namespace Table

theorem tableOfMembers?_map : ∀ (entries : List (LoopId × Entry)) (table : OrderedMap LoopId Entry),
    tableOfMembers? table (entries.map fun p => (some p.1.text, p.2.toJson))
      = some (entries.foldl (fun m p => m.insert p.1 p.2) table)
  | [], _ => rfl
  | (id, e) :: rest, table => by
      rw [List.map_cons, tableOfMembers?, List.foldl_cons]
      simp only [Option.bind_eq_bind, Option.bind_some, Entry.ofJson?_toJson]
      exact tableOfMembers?_map rest _

theorem ofJson?_toJson (a : Table) : ofJson? a.toJson = some a := by
  have hfields : a.toJson.fields? ["iterators"] 1
      = some [some (.record (a.loops.entries.map fun p => (p.1.text, p.2.toJson)))] :=
    Value.fields?_record_self (by decide) 1 rfl
  have hentries : tableOfJson? (.record (a.loops.entries.map fun p => (p.1.text, p.2.toJson)))
      = some a.loops := by
    rw [Value.record, tableOfJson?, List.map_map]
    refine (tableOfMembers?_map a.loops.entries .empty).trans (congrArg some ?_)
    exact OrderedMap.ext (OrderedMap.entries_ofList a.loops.distinct)
  rw [ofJson?, hfields]
  simp only [Option.bind_eq_bind, Option.bind_some, ofFields?, Json.required, hentries]
  rfl

end Table

theorem Action.ofJson?_toJson (a : Action) : Action.ofJson? a.toJson = some a := by
  have hfields : a.toJson.fields? ["kind", "params", "comps"] 3 = some [some a.kind.toJson,
      some (.array (a.params.map Param.toJson)), some (.ofStrings a.computations)] :=
    Value.fields?_record_self (by decide) 3 rfl
  have hparams : Value.list? Param.ofJson? (.array (a.params.map Param.toJson)) = some a.params :=
    Value.list?_array Param.toJson Param.ofJson?_toJson a.params
  rw [ofJson?, hfields]
  simp only [Option.bind_eq_bind, Option.bind_some, ofFields?, Json.required,
    Kind.ofJson?_toJson, hparams, Value.list?_ofStrings]
  rfl

/-! ## Texts -/

namespace Json.Value

theorem plain_ofString (s : String) : (ofString s).Plain := plain_of_tokens rfl trivial

theorem plain_ofInt (n : Int) : (ofInt n).Plain := plain_of_tokens rfl trivial

theorem plain_map {α : Type} {write : α → Value} (h : ∀ a, (write a).Plain) (l : List α) :
    (array (l.map write)).Plain := by
  refine plain_array fun v hv => ?_
  obtain ⟨a, -, rfl⟩ := List.mem_map.1 hv
  exact h a

end Json.Value

open Json.Value

theorem LoopId.plain_toJson (id : LoopId) : id.toJson.Plain := plain_ofString id.text

theorem Bound.plain_toJson (b : Bound) : b.toJson.Plain := by
  cases b with
  | constant n => exact plain_ofInt n.toInt
  | symbolic s => exact plain_ofString s

theorem Param.plain_toJson (p : Param) : p.toJson.Plain := by
  cases p with
  | loop id => exact id.plain_toJson
  | factor n => exact plain_ofInt n.toInt

theorem Entry.plain_toJson (e : Entry) : e.toJson.Plain := by
  have hparent : (ofOption LoopId.toJson e.parent).Plain := by
    cases e.parent with
    | none => exact plain_of_tokens rfl trivial
    | some id => exact id.plain_toJson
  refine plain_record fun m hm => ?_
  simp only [List.mem_cons, List.not_mem_nil, or_false] at hm
  rcases hm with rfl | rfl | rfl | rfl | rfl
  · exact hparent
  · exact e.lower.plain_toJson
  · exact e.upper.plain_toJson
  · exact plain_map LoopId.plain_toJson e.children
  · exact plain_map plain_ofString e.computations

theorem Table.plain_toJson (a : Table) : a.toJson.Plain := by
  refine plain_record fun m hm => ?_
  obtain rfl := List.mem_singleton.1 hm
  refine plain_record fun m hm => ?_
  obtain ⟨p, -, rfl⟩ := List.mem_map.1 hm
  exact p.2.plain_toJson

theorem Action.plain_toJson (a : Action) : a.toJson.Plain := by
  refine plain_record fun m hm => ?_
  simp only [List.mem_cons, List.not_mem_nil, or_false] at hm
  rcases hm with rfl | rfl | rfl
  · exact plain_ofString a.kind.name
  · exact plain_map Param.plain_toJson a.params
  · exact plain_map plain_ofString a.computations

/-- Reading undoes writing, for every annotation, its entries in their order,
and for every action, whether it fits its kind or not. -/
theorem ofText_text : (∀ a : Table, Table.ofText a.text = .ok a) ∧
    ∀ action : Action, Action.ofText action.text = .ok action := by
  constructor
  · intro a
    rw [Table.ofText, Table.text, ofText?_text a.plain_toJson, Option.bind_some,
      Table.ofJson?_toJson]
  · intro action
    rw [Action.ofText, Action.text, ofText?_text action.plain_toJson, Option.bind_some,
      Action.ofJson?_toJson]

/-- The loop `5` and the factor 5. -/
example : (Action.mk .unrolling [.loop ⟨"5"⟩, .factor 5] ["S"]).text =
    "\x7b\"kind\":\"unrolling\",\"params\":[\"5\",5],\"comps\":[\"S\"]\x7d" := by
  decide

end LoopNest
