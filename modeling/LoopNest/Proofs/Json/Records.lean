import LoopNest.Json.Record
import LoopNest.OrderedMap

/-!
LoopNest.Proofs.Json.Records — records, lists and numbers read back.

An object says the same of a record whatever the order of its members and
whatever other members it has: each field gets the value that stands with
its name (`fields?_record`).  Repetition is harmless only for names that are
no fields.

* `setField_map`, `sortMembers_map` — a member, and all members, sorted in;
* `setField_comm`, `sortMembers_perm`, `sortMembers_insert` — the order of the
  members, whether they can all be sorted in or not;
* `fields?_record`, `fields?_record_self` — the fields of an object;
* `list?_array`, `nullable?_ofOption`, `int64?_ofInt` — what fields hold.
-/

namespace LoopNest

namespace Json

/-! ## Fields -/

theorem setField_cons_of_ne {name f : String} (h : f ≠ name) (value : Value) (fields : List String)
    (slot : Option Value) (slots : List (Option Value)) :
    setField name value (f :: fields) (slot :: slots)
      = (setField name value fields slots).map (slot :: ·) := by
  cases slot <;> rw [setField, if_neg h]

/-- A field that has no value yet gets one, and a name that is no field changes
nothing. -/
theorem setField_map {name : String} (value : Value) {slots : String → Option Value} :
    ∀ {fields : List String}, fields.Nodup → (name ∈ fields → slots name = none) →
      setField name value fields (fields.map slots)
        = some (fields.map fun f => if name = f then some value else slots f)
  | [], _, _ => rfl
  | f :: rest, hnd, hslot => by
      obtain ⟨hf, hrest⟩ := List.nodup_cons.1 hnd
      rw [List.map_cons, List.map_cons]
      by_cases hname : name = f
      · subst hname
        have hothers : rest.map slots
            = rest.map fun f => if name = f then some value else slots f := by
          refine List.map_congr_left fun g hg => (if_neg ?_).symm
          rintro rfl
          exact hf hg
        rw [hslot (List.mem_cons_self ..), setField, if_pos rfl, if_pos rfl, hothers]
      · have hother : f ≠ name := fun e => hname e.symm
        rw [setField_cons_of_ne hother, setField_map value hrest
          fun h => hslot (List.mem_cons_of_mem _ h), if_neg hname]
        rfl

/-- Every field gets the value that stands with its name, if it stands with one
value at most. -/
theorem sortMembers_map {fields : List String} (hnd : fields.Nodup) :
    ∀ {members : List (String × Value)} {slots : String → Option Value},
      (members.Pairwise fun m n => m.1 ∈ fields → m.1 ≠ n.1) →
      (∀ m ∈ members, m.1 ∈ fields → slots m.1 = none) →
      sortMembers fields (fields.map slots) (members.map fun m => (some m.1, m.2))
        = some (fields.map fun f => (lookupKey f members).or (slots f))
  | [], _, _, _ => rfl
  | (name, value) :: rest, slots, hdistinct, hslots => by
      obtain ⟨hname, hrest⟩ := List.pairwise_cons.1 hdistinct
      have hnext : ∀ m ∈ rest, m.1 ∈ fields →
          (if name = m.1 then some value else slots m.1) = none := by
        intro m hm hfield
        have hne : name ≠ m.1 := fun e => hname m hm (e ▸ hfield) e
        rw [if_neg hne]
        exact hslots m (List.mem_cons_of_mem _ hm) hfield
      rw [List.map_cons, sortMembers, setField_map value hnd (hslots _ (List.mem_cons_self ..)),
        Option.bind_eq_bind, Option.bind_some, sortMembers_map hnd hrest hnext]
      refine congrArg some (List.map_congr_left fun f hf => ?_)
      rw [lookupKey]
      by_cases hfn : name = f
      · have hnone : lookupKey f rest = none :=
          lookupKey_eq_none fun m hm e => hname m hm (hfn ▸ hf) (hfn.trans e.symm)
        rw [hnone, if_pos hfn, if_pos hfn]
        rfl
      · rw [if_neg hfn, if_neg hfn]

/-! ## Members in any order -/

/-- A name that is no field changes nothing. -/
theorem setField_of_not_mem {name : String} (value : Value) : ∀ {fields : List String}
    {slots : List (Option Value)}, name ∉ fields → setField name value fields slots = some slots
  | [], slots, _ => by cases slots <;> rfl
  | f :: fields, [], _ => rfl
  | f :: fields, slot :: slots, h => by
      obtain ⟨hne, hrest⟩ := not_or.1 (mt List.mem_cons.2 h)
      rw [setField_cons_of_ne (Ne.symm hne), setField_of_not_mem value hrest]
      rfl

theorem setField_cons_self (f : String) (value : Value) (fields : List String)
    (slot : Option Value) (slots : List (Option Value)) :
    setField f value (f :: fields) (slot :: slots)
      = slot.elim (some (some value :: slots)) fun _ => none := by
  cases slot <;> rw [setField, if_pos rfl] <;> rfl

theorem setField_cons_comm {f n : String} (hn : f ≠ n) (v w : Value) (fields : List String)
    (slot : Option Value) (slots : List (Option Value)) :
    (setField f v (f :: fields) (slot :: slots)).bind (setField n w (f :: fields))
      = (setField n w (f :: fields) (slot :: slots)).bind (setField f v (f :: fields)) := by
  simp only [setField_cons_of_ne hn, Option.bind_map, Function.comp_def, setField_cons_self]
  cases slot with
  | none =>
    simp only [Option.elim_none, Option.bind_some, setField_cons_of_ne hn]
    exact Option.map_eq_bind
  | some old => cases setField n w fields slots <;> rfl

/-- It does not matter which of two fields is set first: if they are the same,
the second one is refused. -/
theorem setField_comm (m n : String) (v w : Value) : ∀ (fields : List String)
    (slots : List (Option Value)), (setField m v fields slots).bind (setField n w fields)
      = (setField n w fields slots).bind (setField m v fields)
  | [], slots => by cases slots <;> rfl
  | f :: fields, [] => rfl
  | f :: fields, slot :: slots => by
      by_cases hm : f = m
      · subst hm
        by_cases hn : f = n
        · subst hn
          cases slot <;> simp [setField_cons_self]
        · exact setField_cons_comm hn v w fields slot slots
      · by_cases hn : f = n
        · subst hn
          exact (setField_cons_comm hm w v fields slot slots).symm
        · have hrest := setField_comm m n v w fields slots
          have hslot := congrArg (Option.map (slot :: ·)) hrest
          simp only [Option.map_bind, Function.comp_def] at hslot
          simpa only [setField_cons_of_ne hm, setField_cons_of_ne hn, Option.bind_map,
            Function.comp_def] using hslot

theorem length_setField {name : String} {value : Value} : ∀ {fields : List String}
    {slots filled : List (Option Value)}, setField name value fields slots = some filled →
      filled.length = slots.length
  | [], slots, filled, h => by cases slots <;> cases h <;> rfl
  | f :: fields, [], filled, h => by cases h; rfl
  | f :: fields, slot :: slots, filled, h => by
      by_cases hf : f = name
      · cases slot with
        | none =>
          rw [setField, if_pos hf] at h
          cases h
          rfl
        | some old =>
          rw [setField, if_pos hf] at h
          cases h
      · rw [setField_cons_of_ne hf, Option.map_eq_some_iff] at h
        obtain ⟨rest, hrest, rfl⟩ := h
        rw [List.length_cons, List.length_cons, length_setField hrest]

/-- Wherever a field stands, it may as well be set last. -/
theorem sortMembers_insert {fields : List String} (name : String) (value : Value)
    (after : List (Option String × Value)) : ∀ (before : List (Option String × Value))
    (slots : List (Option Value)),
      sortMembers fields slots (before ++ (some name, value) :: after)
        = (sortMembers fields slots (before ++ after)).bind (setField name value fields) := by
  have hlast : ∀ (rest : List (Option String × Value)) (slots : List (Option Value)),
      (setField name value fields slots).bind (fun filled => sortMembers fields filled rest)
        = (sortMembers fields slots rest).bind (setField name value fields) := by
    intro rest
    induction rest with
    | nil => exact fun slots => Option.bind_fun_some _
    | cons m rest ih =>
      intro slots
      obtain ⟨other, w⟩ := m
      cases other with
      | none => exact Option.bind_fun_none _
      | some other =>
        simp only [sortMembers, Option.bind_eq_bind]
        rw [← Option.bind_assoc, setField_comm, Option.bind_assoc, Option.bind_assoc]
        exact congrArg _ (funext ih)
  intro before
  induction before with
  | nil => exact hlast after
  | cons m before ih =>
    intro slots
    obtain ⟨other, w⟩ := m
    cases other with
    | none => rfl
    | some other =>
      simp only [List.cons_append, sortMembers, Option.bind_eq_bind]
      rw [Option.bind_assoc]
      exact congrArg _ (funext ih)

theorem sortMembers_perm {fields : List String} {ms ns : List (Option String × Value)}
    (h : ms.Perm ns) : ∀ slots, sortMembers fields slots ms = sortMembers fields slots ns := by
  induction h with
  | nil => exact fun _ => rfl
  | cons m _ ih =>
    intro slots
    obtain ⟨name, value⟩ := m
    cases name with
    | none => rfl
    | some name =>
      rw [sortMembers, sortMembers]
      exact congrArg _ (funext ih)
  | swap m n rest =>
    intro slots
    obtain ⟨first, v⟩ := m
    obtain ⟨second, w⟩ := n
    cases first with
    | none =>
      cases second with
      | none => rfl
      | some second => exact Option.bind_fun_none _
    | some first =>
      cases second with
      | none => exact (Option.bind_fun_none _).symm
      | some second =>
        simp only [sortMembers, Option.bind_eq_bind]
        rw [← Option.bind_assoc, setField_comm, Option.bind_assoc]
  | trans _ _ ih ih' => exact fun slots => (ih slots).trans (ih' slots)

theorem length_sortMembers {fields : List String} : ∀ {members : List (Option String × Value)}
    {slots filled : List (Option Value)}, sortMembers fields slots members = some filled →
      filled.length = slots.length
  | [], _, _, h => by cases h; rfl
  | (none, _) :: _, _, _, h => by cases h
  | (some name, value) :: rest, slots, filled, h => by
      obtain ⟨next, hnext, hrest⟩ := Option.bind_eq_some_iff.1 h
      rw [length_sortMembers hrest, length_setField hnext]

/-- All names of a record denote texts. -/
theorem not_mem_names_of_sortMembers {fields : List String} :
    ∀ {members : List (Option String × Value)} {slots filled : List (Option Value)},
      sortMembers fields slots members = some filled → none ∉ members.map Prod.fst
  | [], _, _, _ => List.not_mem_nil
  | (none, _) :: _, _, _, h => by cases h
  | (some name, value) :: rest, slots, filled, h => by
      obtain ⟨next, -, hrest⟩ := Option.bind_eq_some_iff.1 h
      rw [List.map_cons, List.mem_cons, not_or]
      exact ⟨nofun, not_mem_names_of_sortMembers hrest⟩

namespace Value

/-- The fields of an object are found by their names. -/
theorem fields?_record {fields : List String} (hnd : fields.Nodup) (least : Nat)
    {members : List (String × Value)}
    (hdistinct : members.Pairwise fun m n => m.1 ∈ fields → m.1 ≠ n.1) :
    (record members).fields? fields least = some (fields.map fun f => lookupKey f members) := by
  rw [record, fields?, sortMembers_map hnd hdistinct fun _ _ _ => rfl]
  simp only [Option.or_none]

/-- An object that has the fields and nothing else. -/
theorem fields?_record_self {fields : List String} (hnd : fields.Nodup) (least : Nat)
    {members : List (String × Value)} (hfields : members.map Prod.fst = fields) :
    (record members).fields? fields least = some (members.map fun m => some m.2) := by
  subst hfields
  have hdistinct : members.Pairwise fun m n => m.1 ∈ members.map Prod.fst → m.1 ≠ n.1 := by
    refine (List.pairwise_map.1 hnd).imp ?_
    intro m n hne _
    exact hne
  rw [fields?_record hnd least hdistinct, List.map_map]
  refine congrArg some (List.map_congr_left fun m hm => ?_)
  exact (lookupKey_eq_some_iff hnd).2 hm

/-! ## Values of fields -/

theorem nullable?_ofOption {α : Type} {read : Value → Option α} (write : α → Value)
    (hread : ∀ a, read (write a) = some a) (hnull : ∀ a, write a ≠ .null) (o : Option α) :
    nullable? read (ofOption write o) = some o := by
  cases o with
  | none => rfl
  | some a =>
    rw [ofOption, nullable?.eq_def]
    split
    · next heq => exact absurd heq (hnull a)
    · rw [hread]
      rfl

theorem int64?_ofInt (n : Int64) : (ofInt n.toInt).int64? = some n := by
  rw [ofInt, int64?, if_pos ⟨n.minValue_le_toInt, n.toInt_le⟩, n.ofInt_toInt]

end Value

theorem readAll_map {α : Type} {read : Value → Option α} {write : α → Value}
    (hread : ∀ a, read (write a) = some a) : ∀ l : List α, readAll read (l.map write) = some l
  | [] => rfl
  | a :: rest => by
      rw [List.map_cons, readAll, hread, readAll_map hread rest]
      rfl

theorem Value.list?_array {α : Type} {read : Value → Option α} (write : α → Value)
    (hread : ∀ a, read (write a) = some a) (l : List α) :
    list? read (.array (l.map write)) = some l :=
  readAll_map hread l

end Json

end LoopNest
