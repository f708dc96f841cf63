/-!
LoopNest.OrderedMap — finite maps that remember the order in which
their keys first arrived.

Annotation tables and per-root results are both of this kind: a key
that is inserted again keeps its place and takes the new value, and
every listing follows first arrival.  That no key occurs twice is a
field of the type, so no operation below has to promise it.

* `OrderedMap.insert`, `OrderedMap.get?`, `OrderedMap.keys` — the view;
* `get?_insert_self`, `get?_insert_of_ne`, `keys_insert` — what one
  insertion does to it;
* `get?_eq_some_iff`, `entries_ofList` — the view and the listing agree.
-/

namespace LoopNest

/-- The value that the first pair with key `k` holds. -/
def lookupKey {κ α : Type} [DecidableEq κ] (k : κ) : List (κ × α) → Option α
  | [] => none
  | (j, v) :: rest => if j = k then some v else lookupKey k rest

/-- Replace the value at key `k` where it stands, or append the pair. -/
def putKey {κ α : Type} [DecidableEq κ] (k : κ) (v : α) : List (κ × α) → List (κ × α)
  | [] => [(k, v)]
  | (j, w) :: rest => if j = k then (j, v) :: rest else (j, w) :: putKey k v rest

theorem map_fst_putKey {κ α : Type} [DecidableEq κ] (k : κ) (v : α) (l : List (κ × α)) :
    (putKey k v l).map Prod.fst =
      if k ∈ l.map Prod.fst then l.map Prod.fst else l.map Prod.fst ++ [k] := by
  induction l with
  | nil => simp [putKey]
  | cons p rest ih =>
    obtain ⟨j, w⟩ := p
    by_cases h : j = k
    · simp [putKey, h]
    · have hk : ¬ k = j := fun e => h e.symm
      by_cases hm : k ∈ rest.map Prod.fst <;> simp_all [putKey]

theorem nodup_putKey {κ α : Type} [DecidableEq κ] (k : κ) (v : α) (l : List (κ × α))
    (h : (l.map Prod.fst).Nodup) : ((putKey k v l).map Prod.fst).Nodup := by
  rw [map_fst_putKey]
  split
  · exact h
  · next hk => exact List.nodup_append.2 ⟨h, by simp, by
      intro a ha b hb e
      simp only [List.mem_singleton] at hb
      exact hk (hb ▸ e ▸ ha)⟩

theorem lookupKey_putKey {κ α : Type} [DecidableEq κ] (k j : κ) (v : α) (l : List (κ × α)) :
    lookupKey j (putKey k v l) = if k = j then some v else lookupKey j l := by
  induction l with
  | nil => simp [putKey, lookupKey]
  | cons p rest ih =>
    obtain ⟨i, w⟩ := p
    by_cases h : i = k
    · subst h
      by_cases hj : i = j <;> simp [putKey, lookupKey, hj]
    · by_cases hj : i = j
      · subst hj
        simp [putKey, lookupKey, h, Ne.symm h]
      · simp [putKey, lookupKey, h, hj, ih]

/-- Among pairs with different keys, the value at a key is the one it stands with. -/
theorem lookupKey_eq_some_iff {κ α : Type} [DecidableEq κ] {k : κ} {v : α} :
    ∀ {l : List (κ × α)}, (l.map Prod.fst).Nodup → (lookupKey k l = some v ↔ (k, v) ∈ l)
  | [], _ => by simp [lookupKey]
  | (j, w) :: rest, h => by
      rw [List.map_cons, List.nodup_cons] at h
      by_cases hj : j = k
      · subst hj
        have hout : (j, v) ∉ rest := fun hmem => h.1 (List.mem_map.2 ⟨_, hmem, rfl⟩)
        simp [lookupKey, hout, eq_comm]
      · have hk : k ≠ j := fun e => hj e.symm
        simp [lookupKey, hj, hk, lookupKey_eq_some_iff h.2]

/-- A key that no pair has is not found. -/
theorem lookupKey_eq_none {κ α : Type} [DecidableEq κ] {k : κ} : ∀ {l : List (κ × α)},
    (∀ p ∈ l, p.1 ≠ k) → lookupKey k l = none
  | [], _ => rfl
  | (j, _) :: rest, h => by
      have hj : j ≠ k := h _ (List.mem_cons_self ..)
      rw [lookupKey, if_neg hj, lookupKey_eq_none fun p hp => h p (List.mem_cons_of_mem _ hp)]

theorem putKey_eq_append {κ α : Type} [DecidableEq κ] {k : κ} (v : α) :
    ∀ {l : List (κ × α)}, k ∉ l.map Prod.fst → putKey k v l = l ++ [(k, v)]
  | [], _ => rfl
  | (j, w) :: rest, h => by
      rw [List.map_cons, List.mem_cons, not_or] at h
      rw [putKey, if_neg (fun e => h.1 e.symm), putKey_eq_append v h.2, List.cons_append]

/-- A finite map listed in order of first arrival. -/
structure OrderedMap (κ α : Type) where
  entries : List (κ × α)
  distinct : (entries.map Prod.fst).Nodup
deriving DecidableEq

namespace OrderedMap

variable {κ α β : Type}

/-- The map without keys. -/
def empty : OrderedMap κ α := ⟨[], by simp⟩

instance : Inhabited (OrderedMap κ α) := ⟨empty⟩

/-- Keys in order of first arrival. -/
def keys (m : OrderedMap κ α) : List κ := m.entries.map Prod.fst

/-- Number of keys. -/
def size (m : OrderedMap κ α) : Nat := m.entries.length

/-- Whether there is no key at all. -/
def isEmpty (m : OrderedMap κ α) : Bool := m.entries.isEmpty

variable [DecidableEq κ]

/-- The value at a key. -/
def get? (m : OrderedMap κ α) (k : κ) : Option α := lookupKey k m.entries

/-- Whether a key is present. -/
def contains (m : OrderedMap κ α) (k : κ) : Bool := (m.get? k).isSome

/-- Give a key a value; a key already present keeps its place. -/
def insert (m : OrderedMap κ α) (k : κ) (v : α) : OrderedMap κ α :=
  ⟨putKey k v m.entries, nodup_putKey k v m.entries m.distinct⟩

/-- Insert pairs one after the other. -/
def ofList (l : List (κ × α)) : OrderedMap κ α :=
  l.foldl (fun m p => m.insert p.1 p.2) empty

omit [DecidableEq κ] in
/-- Transform every value, knowing its key. -/
def map (f : κ → α → β) (m : OrderedMap κ α) : OrderedMap κ β :=
  ⟨m.entries.map fun p => (p.1, f p.1 p.2), by
    have h : (m.entries.map fun p => (p.1, f p.1 p.2)).map Prod.fst = m.entries.map Prod.fst := by
      simp [Function.comp_def]
    rw [h]; exact m.distinct⟩

omit [DecidableEq κ] in
@[ext] theorem ext {m n : OrderedMap κ α} (h : m.entries = n.entries) : m = n := by
  cases m; cases n; simp_all

theorem get?_insert (m : OrderedMap κ α) (k j : κ) (v : α) :
    (m.insert k v).get? j = if k = j then some v else m.get? j :=
  lookupKey_putKey k j v m.entries

@[simp] theorem get?_insert_self (m : OrderedMap κ α) (k : κ) (v : α) :
    (m.insert k v).get? k = some v := by
  simp [get?_insert]

theorem get?_insert_of_ne (m : OrderedMap κ α) {k j : κ} (v : α) (h : k ≠ j) :
    (m.insert k v).get? j = m.get? j := by
  simp [get?_insert, h]

theorem keys_insert (m : OrderedMap κ α) (k : κ) (v : α) :
    (m.insert k v).keys = if k ∈ m.keys then m.keys else m.keys ++ [k] :=
  map_fst_putKey k v m.entries

theorem get?_eq_some_iff {m : OrderedMap κ α} {k : κ} {v : α} :
    m.get? k = some v ↔ (k, v) ∈ m.entries :=
  lookupKey_eq_some_iff m.distinct

omit [DecidableEq κ] in
theorem nodup_keys (m : OrderedMap κ α) : m.keys.Nodup := m.distinct

theorem mem_keys {m : OrderedMap κ α} {k : κ} : k ∈ m.keys ↔ ∃ v, m.get? k = some v := by
  simp [keys, get?_eq_some_iff]

/-- Pairs with different keys are listed as they were inserted. -/
theorem entries_ofList {l : List (κ × α)} (h : (l.map Prod.fst).Nodup) :
    (ofList l).entries = l := by
  have step : ∀ (l : List (κ × α)) (m : OrderedMap κ α),
      (m.entries.map Prod.fst ++ l.map Prod.fst).Nodup →
      (l.foldl (fun m p => m.insert p.1 p.2) m).entries = m.entries ++ l := by
    intro l
    induction l with
    | nil => simp
    | cons p rest ih =>
      intro m hm
      have hp : p.1 ∉ m.entries.map Prod.fst := by
        intro hmem
        exact (List.nodup_append.1 hm).2.2 p.1 hmem p.1 (by simp) rfl
      have hput : (m.insert p.1 p.2).entries = m.entries ++ [p] := putKey_eq_append p.2 hp
      rw [List.foldl_cons, ih, hput, List.append_assoc, List.singleton_append]
      rw [hput, List.map_append, List.append_assoc]
      exact hm
  exact step l empty (by simpa [empty] using h)

omit [DecidableEq κ] in
@[simp] theorem keys_map (f : κ → α → β) (m : OrderedMap κ α) : (m.map f).keys = m.keys := by
  simp [keys, map, Function.comp_def]

theorem get?_map (f : κ → α → β) (m : OrderedMap κ α) (k : κ) :
    (m.map f).get? k = (m.get? k).map (f k) := by
  refine Option.ext fun v => ?_
  rw [get?_eq_some_iff, Option.map_eq_some_iff]
  simp only [map, List.mem_map, Prod.exists, Prod.mk.injEq, get?_eq_some_iff]
  constructor
  · rintro ⟨_, w, hw, rfl, rfl⟩
    exact ⟨w, hw, rfl⟩
  · rintro ⟨w, hw, rfl⟩
    exact ⟨k, w, hw, rfl, rfl⟩

end OrderedMap

end LoopNest
