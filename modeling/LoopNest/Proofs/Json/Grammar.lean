import LoopNest.Proofs.Json.Lexemes

/-!
LoopNest.Proofs.Json.Grammar — the tokens of a value make up the value.

The reader goes through the tokens with the open brackets on a stack.  From
where a value has to start, the tokens of a value take it to where that
value is complete, whatever brackets are open and whatever follows
(`Value.foldlM_tokens`).  Elements and members after the first start where
the one before is complete.

* `Value.ofTokens?_tokens` — so the tokens of a value are read back;
* `apart_of_foldlM` — tokens that can be read keep numbers apart;
* `Value.ofText?_of_written` — so a value is read from every text that is a
  way to write it;
* `Value.ofText?_text` — from its own text too, if its numbers are integers.
-/

namespace LoopNest.Json

/-- A value does not start with the bracket that ends an array. -/
theorem Value.exists_tokens (v : Value) :
    ∃ t rest, v.tokens = t :: rest ∧ t ≠ .closeBracket := by
  match v with
  | .null | .bool _ | .number _ | .string _ => exact ⟨_, _, rfl, by simp⟩
  | .array [] | .array (_ :: _) => exact ⟨_, _, rfl, by simp⟩
  | .object [] | .object (_ :: _) => exact ⟨_, _, rfl, by simp⟩

theorem Site.step_firstElement {t : Token} (ht : t ≠ .closeBracket) (outer : List Frame) :
    step (.firstElement outer) t = step (.value (.array [] :: outer)) t := by
  cases t with
  | closeBracket => exact absurd rfl ht
  | _ => rfl

/-- The first element of an array is a value like any other. -/
theorem Value.foldlM_firstElement (v : Value) (outer : List Frame) (rest : List Token) :
    (v.tokens ++ rest).foldlM Site.step (.firstElement outer)
      = (v.tokens ++ rest).foldlM Site.step (.value (.array [] :: outer)) := by
  obtain ⟨t, more, htokens, ht⟩ := v.exists_tokens
  rw [htokens, List.cons_append, List.foldlM_cons, List.foldlM_cons, Site.step_firstElement ht]

mutual

theorem Value.foldlM_tokens : ∀ (v : Value) (outer : List Frame) (rest : List Token),
    (v.tokens ++ rest).foldlM Site.step (.value outer) = rest.foldlM Site.step (.after v outer)
  | .null, outer, rest => rfl
  | .bool b, outer, rest => rfl
  | .number n, outer, rest => rfl
  | .string s, outer, rest => rfl
  | .array [], outer, rest => rfl
  | .array (v :: vs), outer, rest => by
      have hopen : ((Value.array (v :: vs)).tokens ++ rest).foldlM Site.step (.value outer)
          = (v.tokens ++ (elementTokens vs ++ .closeBracket :: rest)).foldlM Site.step
              (.firstElement outer) := by
        rw [Value.tokens]
        simp only [List.cons_append, List.append_assoc, List.nil_append]
        rfl
      rw [hopen, Value.foldlM_firstElement, Value.foldlM_tokens v, foldlM_elementTokens]
      rfl
  | .object [], outer, rest => rfl
  | .object ((name, v) :: ms), outer, rest => by
      have hopen : ((Value.object ((name, v) :: ms)).tokens ++ rest).foldlM Site.step (.value outer)
          = (v.tokens ++ (memberTokens ms ++ .closeBrace :: rest)).foldlM Site.step
              (.value (.object [] name :: outer)) := by
        rw [Value.tokens]
        simp only [List.cons_append, List.append_assoc, List.nil_append]
        rfl
      rw [hopen, Value.foldlM_tokens v, foldlM_memberTokens]
      rfl

theorem foldlM_elementTokens : ∀ (vs done : List Value) (v : Value) (outer : List Frame)
    (rest : List Token),
    (elementTokens vs ++ .closeBracket :: rest).foldlM Site.step (.after v (.array done :: outer))
      = rest.foldlM Site.step (.after (.array (done.reverse ++ v :: vs)) outer)
  | [], done, v, outer, rest => by
      have hclose : (elementTokens [] ++ .closeBracket :: rest).foldlM Site.step
          (.after v (.array done :: outer))
          = rest.foldlM Site.step (.after (.array (v :: done).reverse) outer) := rfl
      rw [hclose, List.reverse_cons]
  | w :: vs, done, v, outer, rest => by
      have hcomma : (elementTokens (w :: vs) ++ .closeBracket :: rest).foldlM Site.step
          (.after v (.array done :: outer))
          = (w.tokens ++ (elementTokens vs ++ .closeBracket :: rest)).foldlM Site.step
              (.value (.array (v :: done) :: outer)) := by
        rw [elementTokens]
        simp only [List.cons_append, List.append_assoc]
        rfl
      rw [hcomma, Value.foldlM_tokens w, foldlM_elementTokens, List.reverse_cons,
        List.append_assoc, List.singleton_append]

theorem foldlM_memberTokens : ∀ (ms done : List (Option String × Value)) (name : Option String)
    (v : Value) (outer : List Frame) (rest : List Token),
    (memberTokens ms ++ .closeBrace :: rest).foldlM Site.step
        (.after v (.object done name :: outer))
      = rest.foldlM Site.step (.after (.object (done.reverse ++ (name, v) :: ms)) outer)
  | [], done, name, v, outer, rest => by
      have hclose : (memberTokens [] ++ .closeBrace :: rest).foldlM Site.step
          (.after v (.object done name :: outer))
          = rest.foldlM Site.step (.after (.object ((name, v) :: done).reverse) outer) := rfl
      rw [hclose, List.reverse_cons]
  | (next, w) :: ms, done, name, v, outer, rest => by
      have hcomma : (memberTokens ((next, w) :: ms) ++ .closeBrace :: rest).foldlM Site.step
          (.after v (.object done name :: outer))
          = (w.tokens ++ (memberTokens ms ++ .closeBrace :: rest)).foldlM Site.step
              (.value (.object ((name, v) :: done) next :: outer)) := by
        rw [memberTokens]
        simp only [List.cons_append, List.append_assoc]
        rfl
      rw [hcomma, Value.foldlM_tokens w, foldlM_memberTokens, List.reverse_cons,
        List.append_assoc, List.singleton_append]

end

/-- The tokens of a value are read back. -/
theorem Value.ofTokens?_tokens (v : Value) : ofTokens? v.tokens = some v := by
  have hread := v.foldlM_tokens [] []
  rw [List.append_nil] at hread
  rw [ofTokens?, hread]
  rfl

/-! ## Numbers -/

theorem Site.finish_number (v : Value) (outer : List Frame) (n : Number) :
    finish v outer (.number n) = none := by
  match outer with
  | [] => rfl
  | .array _ :: _ => rfl
  | .object _ _ :: _ => rfl

/-- After a number a value is complete. -/
theorem Site.exists_of_step_number {a b : Site} {n : Number}
    (h : step a (.number n) = some b) : ∃ v outer, b = .after v outer := by
  cases a with
  | value outer => cases h; exact ⟨_, _, rfl⟩
  | firstElement outer => cases h; exact ⟨_, _, rfl⟩
  | after v outer => rw [step, finish_number] at h; cases h
  | _ => cases h

/-- No number follows another. -/
theorem Site.apart_of_step {t u : Token} {a b c : Site} (ht : step a t = some b)
    (hu : step b u = some c) : t.Apart u := by
  intro hnumber
  cases t with
  | number n =>
    obtain ⟨v, outer, rfl⟩ := exists_of_step_number ht
    cases u with
    | number m => rw [step, finish_number] at hu; cases hu
    | _ => rfl
  | _ => cases hnumber

theorem Site.apart_of_foldlM : ∀ {tokens : List Token} {a b : Site},
    tokens.foldlM step a = some b → tokens.IsChain Token.Apart
  | [], _, _, _ => .nil
  | [t], _, _, _ => .singleton t
  | t :: u :: rest, a, b, h => by
      rw [List.foldlM_cons, Option.bind_eq_bind, Option.bind_eq_some_iff] at h
      obtain ⟨next, ht, hrest⟩ := h
      refine .cons_cons ?_ (apart_of_foldlM hrest)
      rw [List.foldlM_cons, Option.bind_eq_bind, Option.bind_eq_some_iff] at hrest
      obtain ⟨last, hu, -⟩ := hrest
      exact apart_of_step ht hu

/-! ## Texts -/

/-- A value whose numbers are all integers. -/
def Value.Plain (v : Value) : Prop := ∀ t ∈ v.tokens, t.Plain

/-- A value of one token. -/
theorem Value.plain_of_tokens {v : Value} {t : Token} (h : v.tokens = [t]) (ht : t.Plain) :
    v.Plain := by
  intro u hu
  rw [h, List.mem_singleton] at hu
  rw [hu]
  exact ht

theorem plain_elementTokens : ∀ {vs : List Value}, (∀ v ∈ vs, v.Plain) →
    ∀ t ∈ elementTokens vs, t.Plain
  | [], _, t, ht => by
      rw [elementTokens] at ht
      cases ht
  | v :: vs, h, t, ht => by
      rw [elementTokens, List.mem_append, List.mem_cons] at ht
      rcases ht with (rfl | ht) | ht
      · trivial
      · exact h v (List.mem_cons_self ..) t ht
      · exact plain_elementTokens (fun w hw => h w (List.mem_cons_of_mem v hw)) t ht

theorem plain_memberTokens : ∀ {ms : List (Option String × Value)}, (∀ m ∈ ms, m.2.Plain) →
    ∀ t ∈ memberTokens ms, t.Plain
  | [], _, t, ht => by
      rw [memberTokens] at ht
      cases ht
  | (name, v) :: ms, h, t, ht => by
      rw [memberTokens, List.mem_append, List.mem_cons, List.mem_cons, List.mem_cons] at ht
      rcases ht with (rfl | rfl | rfl | ht) | ht
      · trivial
      · trivial
      · trivial
      · exact h (name, v) (List.mem_cons_self ..) t ht
      · exact plain_memberTokens (fun m hm => h m (List.mem_cons_of_mem _ hm)) t ht

namespace Value

theorem plain_array {vs : List Value} (h : ∀ v ∈ vs, v.Plain) : (array vs).Plain := by
  intro t ht
  cases vs with
  | nil =>
    rw [tokens] at ht
    simp only [List.mem_cons, List.not_mem_nil, or_false] at ht
    rcases ht with rfl | rfl <;> trivial
  | cons v vs =>
    -- the brackets stand around what would follow a comma
    have hcomma : t = .openBracket ∨ t ∈ elementTokens (v :: vs) ∨ t = .closeBracket := by
      rw [tokens] at ht
      rw [elementTokens]
      simp only [List.mem_append, List.mem_cons, List.not_mem_nil, or_false] at ht ⊢
      tauto
    rcases hcomma with rfl | ht | rfl
    · trivial
    · exact plain_elementTokens h t ht
    · trivial

theorem plain_object {ms : List (Option String × Value)} (h : ∀ m ∈ ms, m.2.Plain) :
    (object ms).Plain := by
  intro t ht
  cases ms with
  | nil =>
    rw [tokens] at ht
    simp only [List.mem_cons, List.not_mem_nil, or_false] at ht
    rcases ht with rfl | rfl <;> trivial
  | cons m ms =>
    have hcomma : t = .openBrace ∨ t ∈ memberTokens (m :: ms) ∨ t = .closeBrace := by
      rw [tokens] at ht
      rw [memberTokens]
      simp only [List.mem_append, List.mem_cons, List.not_mem_nil, or_false] at ht ⊢
      tauto
    rcases hcomma with rfl | ht | rfl
    · trivial
    · exact plain_memberTokens h t ht
    · trivial

theorem plain_record {members : List (String × Value)} (h : ∀ m ∈ members, m.2.Plain) :
    (record members).Plain := by
  refine plain_object fun p hp => ?_
  obtain ⟨m, hm, rfl⟩ := List.mem_map.1 hp
  exact h m hm

/-- However a value is written, it is read. -/
theorem ofText?_of_written {v : Value} {text : String} (h : Written v.tokens text.toList) :
    ofText? text = some v := by
  have hread := v.foldlM_tokens [] []
  rw [List.append_nil] at hread
  have hscan : Token.scan text.toList = some v.tokens :=
    Token.scan_written h (Site.apart_of_foldlM hread)
  rw [ofText?, hscan]
  exact v.ofTokens?_tokens

theorem written_text {v : Value} (h : v.Plain) : Written v.tokens v.text.toList := by
  rw [text, String.toList_ofList]
  exact written_spellings h

/-- The text of a value is read back, if its numbers are integers. -/
theorem ofText?_text {v : Value} (h : v.Plain) : ofText? v.text = some v :=
  ofText?_of_written (written_text h)

end Value

end LoopNest.Json
