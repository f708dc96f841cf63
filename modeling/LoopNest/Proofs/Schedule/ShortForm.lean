import LoopNest.Oracle.Request
import LoopNest.Proofs.Action.Writing
import LoopNest.Proofs.Forest.Reachable
import LoopNest.Proofs.Json.RoundTrip
import LoopNest.Schedule.Text
import Mathlib.Data.List.Forall2
import Std.Data.String.ToInt

/-!
LoopNest.Proofs.Schedule.ShortForm — what a short form tells.

A short form names loops by level and says nothing of targets.  All else is in
it: kinds, levels and factors can be read off, position by position, so two
schedules have one short form exactly if they agree in these
(`Action.ReadsAs`, `shortForm_eq_iff`).  The text is cut at its separators,
which no piece contains: bars between actions, a bracket after the letters of
the kind, commas between arguments.

* `intercalate_inj` — cutting at a separator;
* `Action.form_eq_iff` — the short form of one action;
* `exists_shortForm_iff` — when there is a short form at all.
-/

namespace LoopNest

/-! ## Cutting a text at separators -/

/-- A text is cut in one way at the first place of a character. -/
theorem append_cons_inj {x : Char} : ∀ {a b c d : List Char}, x ∉ a → x ∉ c →
    a ++ x :: b = c ++ x :: d → a = c ∧ b = d
  | [], _, [], _, _, _, h => ⟨rfl, (List.cons.inj h).2⟩
  | [], _, y :: _, _, _, hc, h => absurd ((List.cons.inj h).1 ▸ List.mem_cons_self ..) hc
  | y :: _, _, [], _, ha, _, h => absurd ((List.cons.inj h).1 ▸ List.mem_cons_self ..) ha
  | y :: a, _, z :: c, _, ha, hc, h => by
      obtain ⟨rfl, hrest⟩ := List.cons.inj h
      obtain ⟨rfl, hb⟩ := append_cons_inj (fun hx => ha (List.mem_cons_of_mem _ hx))
        (fun hx => hc (List.mem_cons_of_mem _ hx)) hrest
      exact ⟨rfl, hb⟩

/-- A piece of a text that can be told from its neighbours: not empty and
without the separator. -/
def Piece (sep : Char) (text : String) : Prop := text ≠ "" ∧ sep ∉ text.toList

theorem intercalate_eq_empty_iff {sep : String} {pieces : List String}
    (h : ∀ p ∈ pieces, p ≠ "") : sep.intercalate pieces = "" ↔ pieces = [] := by
  constructor
  · intro hempty
    rcases pieces with _ | ⟨p, _ | ⟨q, rest⟩⟩
    · rfl
    · rw [String.intercalate_singleton] at hempty
      exact absurd hempty (h p (List.mem_cons_self ..))
    · rw [String.intercalate_cons_cons, String.append_eq_empty_iff,
        String.append_eq_empty_iff] at hempty
      exact absurd hempty.1.1 (h p (List.mem_cons_self ..))
  · rintro rfl
    rfl

theorem mem_intercalate {sep : String} {c : Char} : ∀ {pieces : List String},
    c ∈ (sep.intercalate pieces).toList → c ∈ sep.toList ∨ ∃ p ∈ pieces, c ∈ p.toList
  | [], hc => by simp at hc
  | [p], hc => by
      rw [String.intercalate_singleton] at hc
      exact Or.inr ⟨p, List.mem_cons_self .., hc⟩
  | p :: q :: rest, hc => by
      rw [String.intercalate_cons_cons, String.toList_append, String.toList_append,
        List.mem_append, List.mem_append] at hc
      rcases hc with (hc | hc) | hc
      · exact Or.inr ⟨p, List.mem_cons_self .., hc⟩
      · exact Or.inl hc
      · exact (mem_intercalate hc).imp_right fun ⟨r, hr, hcr⟩ =>
          ⟨r, List.mem_cons_of_mem _ hr, hcr⟩

/-- The pieces of a text can be had back from it. -/
theorem splitOn_toList_intercalate {sep : String} {c : Char} (hsep : sep.toList = [c])
    {pieces : List String} (hne : pieces ≠ []) (h : ∀ p ∈ pieces, Piece c p) :
    (sep.intercalate pieces).toList.splitOn c = pieces.map String.toList := by
  rw [String.toList_intercalate, hsep]
  refine List.splitOn_intercalate c (fun l hl => ?_) (by simpa using hne)
  obtain ⟨p, hp, rfl⟩ := List.mem_map.1 hl
  exact (h p hp).2

/-- A text is put together from pieces in one way. -/
theorem intercalate_inj {sep : String} {c : Char} (hsep : sep.toList = [c])
    {xs ys : List String} (hx : ∀ x ∈ xs, Piece c x) (hy : ∀ y ∈ ys, Piece c y)
    (h : sep.intercalate xs = sep.intercalate ys) : xs = ys := by
  by_cases hxs : xs = []
  · rw [hxs, String.intercalate_nil] at h
    rw [hxs, (intercalate_eq_empty_iff fun y hy' => (hy y hy').1).1 h.symm]
  by_cases hys : ys = []
  · rw [hys, String.intercalate_nil] at h
    rw [hys, (intercalate_eq_empty_iff fun x hx' => (hx x hx').1).1 h]
  have hsplit := splitOn_toList_intercalate hsep hxs hx
  rw [h, splitOn_toList_intercalate hsep hys hy] at hsplit
  exact (List.map_injective_iff.2 (fun _ _ => String.toList_injective) hsplit).symm

/-! ## Arguments -/

theorem digit_or_minus_of_mem_repr (n : Int) {c : Char} (hc : c ∈ n.repr.toList) :
    c.isDigit = true ∨ c = '-' := by
  have hdigit : ∀ k : Nat, c ∈ k.repr.toList → c.isDigit = true := by
    intro k hk
    rw [Nat.toList_repr] at hk
    exact Nat.isDigit_of_mem_toDigits (by decide) (by decide) hk
  rw [Int.repr_eq_if] at hc
  split at hc
  · exact Or.inl (hdigit _ hc)
  · rw [String.toList_append, List.mem_append] at hc
    rcases hc with hc | hc
    · exact Or.inr (by simpa using hc)
    · exact Or.inl (hdigit _ hc)

theorem repr_ne_empty (n : Int) : n.repr ≠ "" := by
  have hnat : ∀ k : Nat, k.repr ≠ "" := by
    intro k hk
    have hdigits := Nat.toList_repr (n := k)
    rw [hk] at hdigits
    exact Nat.toDigits_ne_nil hdigits.symm
  rw [Int.repr_eq_if]
  split
  · exact hnat _
  · rw [Ne, String.append_eq_empty_iff, not_and]
    exact fun _ => hnat _

/-- The argument that a parameter becomes in a short form. -/
def Param.label (t : Forest) (p : Param) : String := Action.argument (p.number t).repr p.shape

namespace Param

variable {t : Forest}

/-- An argument is made of digits, a sign or the letter of a level. -/
theorem mem_label {p : Param} {c : Char} (hc : c ∈ (p.label t).toList) :
    c.isDigit = true ∨ c = '-' ∨ c = 'L' := by
  cases p with
  | factor value => exact (digit_or_minus_of_mem_repr _ hc).imp_right Or.inl
  | loop id =>
    simp only [label, shape, Action.argument, String.toList_append, List.mem_append] at hc
    rcases hc with hc | hc
    · exact Or.inr (Or.inr (by simpa using hc))
    · exact (digit_or_minus_of_mem_repr _ hc).imp_right Or.inl

theorem label_ne_empty (p : Param) : p.label t ≠ "" := by
  cases p with
  | factor value => exact repr_ne_empty _
  | loop id =>
    simp only [label, shape, Action.argument, Ne, String.append_eq_empty_iff, not_and]
    exact fun _ => repr_ne_empty _

/-- Arguments of one shape tell the numbers. -/
theorem label_eq_iff {p q : Param} (h : p.shape = q.shape) :
    p.label t = q.label t ↔ p.number t = q.number t := by
  rw [label, label, h]
  cases q.shape with
  | loop => rw [Action.argument, Action.argument, String.append_right_inj, Int.repr_inj]
  | factor => exact Int.repr_inj

end Param

/-! ## Actions -/

/-- The letters of a kind tell the kind. -/
theorem Kind.find?_tag (k : Kind) : Kind.all.find? (fun other => other.tag = k.tag) = some k := by
  cases k <;> decide

theorem Kind.tag_injective : Function.Injective Kind.tag := by
  intro k l h
  have hk := k.find?_tag
  rw [h, l.find?_tag] at hk
  exact (Option.some.inj hk).symm

/-- The characters of the letters of kinds. -/
theorem Kind.mem_tag {k : Kind} {c : Char} (hc : c ∈ k.tag.toList) :
    c ∈ ['P', 'S', 'I', 'R', 'U', 'T', '2'] := by
  cases k <;> simp_all [tag]

namespace Action

variable {t : Forest} {a b : Action}

/-- The short form of an action whose loops are all there. -/
def form (t : Forest) (a : Action) : String :=
  a.kind.tag ++ "(" ++ ",".intercalate (a.params.map (Param.label t)) ++ ")"

theorem shortForm_eq (hmade : a.Made) (hplaced : a.Placed t) :
    a.shortForm t = .ok (a.form t) := by
  have harguments : List.zipWith argument (a.numbers t) a.kind.shape
      = a.params.map (Param.label t) := by
    rw [← hmade.fits.1, numbers, List.zipWith_map, List.zipWith_self]
    rfl
  rw [shortForm, hplaced.paramTexts_eq, ok_bind, harguments]
  rfl

theorem exists_shortForm_iff : (∃ form, a.shortForm t = .ok form) ↔ a.Placed t := by
  rw [← exists_paramTexts_iff, shortForm]
  constructor
  · rintro ⟨form, hform⟩
    obtain ⟨texts, htexts, -⟩ := bind_eq_ok.1 hform
    exact ⟨texts, htexts⟩
  · rintro ⟨texts, htexts⟩
    exact ⟨_, bind_eq_ok.2 ⟨texts, htexts, rfl⟩⟩

/-- A short form can stand between bars. -/
theorem piece_form (a : Action) : Piece '|' (a.form t) := by
  constructor
  · intro hempty
    simp [form] at hempty
  · intro hbar
    simp only [form, String.toList_append, List.mem_append] at hbar
    rcases hbar with ((hc | hc) | hc) | hc
    · simpa using Kind.mem_tag hc
    · simp at hc
    · rcases mem_intercalate hc with hc | ⟨label, hlabel, hc⟩
      · simp at hc
      · obtain ⟨p, -, rfl⟩ := List.mem_map.1 hlabel
        simpa using Param.mem_label hc
    · simp at hc

/-- Two actions that nothing but their targets and the names of their loops
tells apart: one kind, loops of the same levels, the same factors. -/
structure ReadsAs (t : Forest) (a b : Action) : Prop where
  kind : a.kind = b.kind
  levels : t.levels a.loops = t.levels b.loops
  factors : a.factors = b.factors

/-- Of parameters in one layout, the numbers are the same if the levels and the
factors are. -/
theorem map_number_eq_iff : ∀ {a b : Action},
    a.params.map Param.shape = b.params.map Param.shape →
    (a.params.map (Param.number t) = b.params.map (Param.number t) ↔
      a.loops.map t.levelAt = b.loops.map t.levelAt ∧ a.factors = b.factors)
  | ⟨_, [], _⟩, ⟨_, [], _⟩, _ => by simp [loops, factors]
  | ⟨k, .loop x :: ps, c⟩, ⟨l, .loop y :: qs, d⟩, h => by
      have ih := map_number_eq_iff (a := ⟨k, ps, c⟩) (b := ⟨l, qs, d⟩) (List.cons.inj h).2
      simp only [loops, factors] at ih
      simp only [loops, factors, List.map_cons, List.filterMap_cons, List.cons.injEq, Param.number,
        Int.natCast_inj, ih, and_assoc]
  | ⟨k, .factor v :: ps, c⟩, ⟨l, .factor w :: qs, d⟩, h => by
      have ih := map_number_eq_iff (a := ⟨k, ps, c⟩) (b := ⟨l, qs, d⟩) (List.cons.inj h).2
      simp only [loops, factors] at ih
      simp [loops, factors, Param.number, ih, Int64.toInt_inj, and_left_comm]

/-- Arguments in one layout are the same if the numbers are. -/
theorem map_label_eq_iff : ∀ {ps qs : List Param}, ps.map Param.shape = qs.map Param.shape →
    (ps.map (Param.label t) = qs.map (Param.label t) ↔
      ps.map (Param.number t) = qs.map (Param.number t))
  | [], [], _ => by simp
  | p :: ps, q :: qs, h => by
      obtain ⟨hshape, hrest⟩ := List.cons.inj h
      simp only [List.map_cons, List.cons.injEq, Param.label_eq_iff hshape,
        map_label_eq_iff hrest]

/-- A short form is cut into the letters of the kind and the arguments. -/
theorem form_inj (h : a.form t = b.form t) :
    a.kind = b.kind ∧ a.params.map (Param.label t) = b.params.map (Param.label t) := by
  have hparen : ∀ k : Kind, '(' ∉ k.tag.toList := fun k hk => by
    simpa using Kind.mem_tag hk
  have hpiece : ∀ a : Action, ∀ text ∈ a.params.map (Param.label t), Piece ',' text := by
    intro a text htext
    obtain ⟨p, -, rfl⟩ := List.mem_map.1 htext
    exact ⟨p.label_ne_empty, fun hc => by simpa using Param.mem_label hc⟩
  have hcut : ∀ a : Action, (a.form t).toList = a.kind.tag.toList ++
      '(' :: ((",".intercalate (a.params.map (Param.label t))).toList ++ [')']) := by
    intro a
    simp [form]
  have hlist := congrArg String.toList h
  rw [hcut, hcut] at hlist
  obtain ⟨htag, hrest⟩ := append_cons_inj (hparen _) (hparen _) hlist
  refine ⟨Kind.tag_injective (String.toList_injective htag), ?_⟩
  exact intercalate_inj rfl (hpiece a) (hpiece b)
    (String.toList_injective (List.append_cancel_right hrest))

/-- Short forms of actions that could be made and written tell all that
`ReadsAs` compares. -/
theorem form_eq_iff (ha : a.Made) (hb : b.Made) (hpa : a.Placed t) (hpb : b.Placed t) :
    a.form t = b.form t ↔ a.ReadsAs t b := by
  have hshape : a.kind = b.kind → a.params.map Param.shape = b.params.map Param.shape := by
    intro hkind
    rw [ha.fits.1, hb.fits.1, hkind]
  have hlevels : t.levels a.loops = t.levels b.loops ↔
      a.loops.map t.levelAt = b.loops.map t.levelAt := by
    rw [Forest.levels_eq hpa, Forest.levels_eq hpb, Except.ok.injEq]
  constructor
  · intro h
    obtain ⟨hkind, hlabels⟩ := form_inj h
    have hnumbers := (map_label_eq_iff (hshape hkind)).1 hlabels
    obtain ⟨hl, hf⟩ := (map_number_eq_iff (hshape hkind)).1 hnumbers
    exact ⟨hkind, hlevels.2 hl, hf⟩
  · rintro ⟨hkind, hl, hf⟩
    have hnumbers := (map_number_eq_iff (hshape hkind)).2 ⟨hlevels.1 hl, hf⟩
    rw [form, form, hkind, (map_label_eq_iff (hshape hkind)).2 hnumbers]

end Action

/-! ## Schedules -/

namespace Schedule

variable {t : Forest} {actions : List Action}

theorem shortForms_eq : ∀ {actions : List Action},
    (∀ action ∈ actions, action.Made ∧ action.Placed t) →
    shortForms t actions = .ok (actions.map (Action.form t))
  | [], _ => rfl
  | action :: rest, h => by
      obtain ⟨hmade, hplaced⟩ := h action (List.mem_cons_self ..)
      rw [shortForms, Action.shortForm_eq hmade hplaced,
        shortForms_eq fun a ha => h a (List.mem_cons_of_mem _ ha)]
      rfl

/-- There are short forms exactly if all loops are there. -/
theorem exists_shortForms_iff : ∀ {actions : List Action},
    (∃ forms, shortForms t actions = .ok forms) ↔ ∀ action ∈ actions, action.Placed t
  | [] => by simp [shortForms]
  | action :: rest => by
      rw [List.forall_mem_cons, ← exists_shortForms_iff, ← Action.exists_shortForm_iff, shortForms]
      constructor
      · rintro ⟨_, hall⟩
        obtain ⟨form, hform, hall⟩ := bind_eq_ok.1 hall
        obtain ⟨forms, hforms, -⟩ := bind_eq_ok.1 hall
        exact ⟨⟨form, hform⟩, forms, hforms⟩
      · rintro ⟨⟨form, hform⟩, forms, hforms⟩
        exact ⟨form :: forms, bind_eq_ok.2 ⟨form, hform, bind_eq_ok.2 ⟨forms, hforms, rfl⟩⟩⟩

/-- A schedule has a short form exactly if all loops of its actions are there. -/
theorem exists_shortForm_iff {s : Schedule} : (∃ form, s.shortForm = .ok form) ↔
    ∀ action ∈ s.actions, action.Placed s.program.forest := by
  rw [← exists_shortForms_iff, shortForm]
  constructor
  · rintro ⟨form, hform⟩
    obtain ⟨forms, hforms, -⟩ := bind_eq_ok.1 hform
    exact ⟨forms, hforms⟩
  · rintro ⟨forms, hforms⟩
    exact ⟨_, bind_eq_ok.2 ⟨forms, hforms, rfl⟩⟩

/-- Lists of short forms are the same if the actions read alike, position by
position. -/
theorem map_form_eq_iff : ∀ {as bs : List Action},
    (∀ a ∈ as, a.Made ∧ a.Placed t) → (∀ b ∈ bs, b.Made ∧ b.Placed t) →
    (as.map (Action.form t) = bs.map (Action.form t) ↔ List.Forall₂ (Action.ReadsAs t) as bs)
  | [], [], _, _ => by simp
  | [], _ :: _, _, _ => by simp
  | _ :: _, [], _, _ => by simp
  | a :: as, b :: bs, ha, hb => by
      obtain ⟨⟨hmade, hplaced⟩, has⟩ := List.forall_mem_cons.1 ha
      obtain ⟨⟨hmade', hplaced'⟩, hbs⟩ := List.forall_mem_cons.1 hb
      rw [List.map_cons, List.map_cons, List.cons_eq_cons, List.forall₂_cons,
        Action.form_eq_iff hmade hmade' hplaced hplaced', map_form_eq_iff has hbs]

end Schedule

/-! ## Requests -/

section Request

open Json (Value)
open Json.Value

theorem Request.plain_toJson (r : Request) : r.toJson.Plain := by
  have hlevels : ∀ n : Nat, (Value.ofNat n).Plain := fun n => plain_ofInt n
  refine plain_record fun m hm => ?_
  cases hr : r.levels with
  | none =>
    simp only [hr, List.append_nil, List.cons_append, List.nil_append, List.mem_cons,
      List.not_mem_nil, or_false] at hm
    rcases hm with rfl | rfl | rfl | rfl
    · exact plain_ofString _
    · exact plain_ofString _
    · exact plain_map plain_ofString _
    · exact plain_map plain_ofString _
  | some levels =>
    simp only [hr, List.cons_append, List.nil_append, List.mem_cons, List.not_mem_nil,
      or_false] at hm
    rcases hm with rfl | rfl | rfl | rfl | rfl
    · exact plain_ofString _
    · exact plain_ofString _
    · exact plain_map plain_ofString _
    · exact plain_map hlevels [levels.1, levels.2]
    · exact plain_map plain_ofString _

theorem ofStrings_injective : Function.Injective Value.ofStrings := by
  intro l m h
  have hread := list?_ofStrings l
  rw [h, list?_ofStrings] at hread
  exact (Option.some.inj hread).symm

/-- A request can be had back from its members. -/
theorem Request.toJson_injective : Function.Injective Request.toJson := by
  rintro ⟨kind, program, schedule, levels, computations⟩
    ⟨kind', program', schedule', levels', computations'⟩ h
  -- whether there are levels shows in the number of members
  rcases levels with _ | ⟨level, level'⟩ <;> rcases levels' with _ | ⟨other, other'⟩
  · simpa [toJson, record, ofString, ofStrings_injective.eq_iff] using h
  · simp [toJson, record] at h
  · simp [toJson, record] at h
  · simpa [toJson, record, ofString, ofNat, ofStrings_injective.eq_iff, Int.natCast_inj] using h

/-- Different requests have different texts. -/
theorem Request.text_injective : Function.Injective Request.text := by
  intro r q h
  apply toJson_injective
  rw [← Option.some_inj, ← ofText?_text r.plain_toJson, ← ofText?_text q.plain_toJson]
  exact congrArg ofText? h

end Request

namespace Schedule

/-- Short forms tell kinds, levels and factors, and no more.

Two schedules on one forest, of made actions whose loops are all there, have
the same short form exactly if they are as long as each other and read alike
position by position.  Only the schedule without actions has the empty short
form.  Requests for a verdict list the short forms, so they are told apart by
the same things and by the name of the program. -/
theorem shortForm_eq_iff {s u : Schedule} (hforest : u.program.forest = s.program.forest)
    (hmade : ∀ action ∈ s.actions ++ u.actions, action.Made)
    (hplaced : ∀ action ∈ s.actions ++ u.actions, ∀ loop ∈ action.loops,
      s.program.forest.contains loop = true) :
    let Alike := List.Forall₂ (Action.ReadsAs s.program.forest) s.actions u.actions
    ∃ form other, s.shortForm = .ok form ∧ u.shortForm = .ok other ∧
      (form = other ↔ Alike) ∧
      (form = "" ↔ s.actions = []) ∧
      ∃ r q, Request.legality s.program s.actions = .ok r ∧
        Request.legality u.program u.actions = .ok q ∧
        (r.schedule = q.schedule ↔ Alike) ∧
        (s.program.name = u.program.name → (r.text = q.text ↔ Alike)) := by
  intro Alike
  have hs : ∀ action ∈ s.actions, action.Made ∧ action.Placed s.program.forest := fun a ha =>
    ⟨hmade a (List.mem_append_left _ ha), hplaced a (List.mem_append_left _ ha)⟩
  have hu : ∀ action ∈ u.actions, action.Made ∧ action.Placed s.program.forest := fun a ha =>
    ⟨hmade a (List.mem_append_right _ ha), hplaced a (List.mem_append_right _ ha)⟩
  have hforms := shortForms_eq hs
  have hothers : shortForms u.program.forest u.actions
      = .ok (u.actions.map (Action.form s.program.forest)) := by
    rw [hforest]
    exact shortForms_eq hu
  have hlists := map_form_eq_iff hs hu
  have hpieces : ∀ actions : List Action,
      ∀ text ∈ actions.map (Action.form s.program.forest), Piece '|' text := by
    intro actions text htext
    obtain ⟨a, -, rfl⟩ := List.mem_map.1 htext
    exact a.piece_form
  refine ⟨_, _, bind_eq_ok.2 ⟨_, hforms, rfl⟩, bind_eq_ok.2 ⟨_, hothers, rfl⟩, ?_, ?_,
    _, _, bind_eq_ok.2 ⟨_, hforms, rfl⟩, bind_eq_ok.2 ⟨_, hothers, rfl⟩, hlists, fun hname => ?_⟩
  · refine Iff.trans ?_ hlists
    exact ⟨intercalate_inj rfl (hpieces _) (hpieces _), fun h => by rw [h]⟩
  · rw [intercalate_eq_empty_iff fun p hp => (hpieces _ p hp).1, List.map_eq_nil_iff]
  · refine Iff.trans ?_ hlists
    rw [Request.text_injective.eq_iff, hname]
    simp

/-- In `branching` the loops `j` and `k` lie side by side: to unroll one or the
other, by a negative factor, reads the same, and to unroll by the opposite
factor does not. -/
theorem branching_shortForm :
    ∃ t form other, Forest.ofTable .branching = .ok t ∧
      let schedule (loop : LoopId) (factor : Int64) (target : String) : Schedule :=
        ⟨⟨"branching", .branching, t⟩,
          [⟨.unrolling, [.loop loop, .factor factor], [target]⟩,
            ⟨.reversal, [.loop ⟨"l"⟩], [target, "x"]⟩], none⟩
      (schedule ⟨"j"⟩ (-4) "S").shortForm = .ok form ∧
      (schedule ⟨"k"⟩ (-4) "T").shortForm = .ok form ∧
      (schedule ⟨"j"⟩ 4 "S").shortForm = .ok other ∧ form ≠ other ∧ form ≠ "" := by
  obtain ⟨t, ht⟩ : ∃ t, Forest.ofTable .branching = .ok t := ⟨_, rfl⟩
  let schedule (loop : LoopId) (factor : Int64) (target : String) : Schedule :=
    ⟨⟨"branching", .branching, t⟩,
      [⟨.unrolling, [.loop loop, .factor factor], [target]⟩,
        ⟨.reversal, [.loop ⟨"l"⟩], [target, "x"]⟩], none⟩
  have hmade : ∀ loop factor target, ∀ action ∈ (schedule loop factor target).actions,
      action.Made := by
    intro loop factor target action haction
    refine ⟨action.kind, action.params, action.computations, ?_⟩
    rcases List.mem_pair.1 haction with rfl | rfl <;> rfl
  obtain ⟨hj, hk, hl⟩ :
      t.contains ⟨"j"⟩ = true ∧ t.contains ⟨"k"⟩ = true ∧ t.contains ⟨"l"⟩ = true := by
    cases ht
    decide +kernel
  have hplaced : ∀ {loop}, t.contains loop = true → ∀ factor target,
      ∀ action ∈ (schedule loop factor target).actions, action.Placed t := by
    intro loop hloop factor target action haction
    rcases List.mem_pair.1 haction with rfl | rfl
    · simpa [Action.Placed, Action.loops] using hloop
    · simpa [Action.Placed, Action.loops] using hl
  obtain ⟨form, _, hform, hform', halike, hempty, -⟩ :=
    shortForm_eq_iff (s := schedule ⟨"j"⟩ (-4) "S") (u := schedule ⟨"k"⟩ (-4) "T") rfl
      (List.forall_mem_append.2 ⟨hmade _ _ _, hmade _ _ _⟩)
      (List.forall_mem_append.2 ⟨hplaced hj _ _, hplaced hk _ _⟩)
  obtain ⟨_, other, hform'', hother, halike', -⟩ :=
    shortForm_eq_iff (s := schedule ⟨"j"⟩ (-4) "S") (u := schedule ⟨"j"⟩ 4 "S") rfl
      (List.forall_mem_append.2 ⟨hmade _ _ _, hmade _ _ _⟩)
      (List.forall_mem_append.2 ⟨hplaced hj _ _, hplaced hj _ _⟩)
  rw [hform, Except.ok.injEq] at hform''
  subst hform''
  have hlevels : t.levels [⟨"j"⟩] = t.levels [⟨"k"⟩] := by
    cases ht
    rfl
  obtain rfl := halike.2 (.cons ⟨rfl, hlevels, rfl⟩ (.cons ⟨rfl, rfl, rfl⟩ .nil))
  refine ⟨t, form, other, ht, hform, hform', hother, fun h => ?_, fun h => ?_⟩
  · -- the factors tell the schedules apart
    have hread := (List.forall₂_cons.1 (halike'.1 h)).1.factors
    exact absurd hread (by decide)
  · exact List.cons_ne_nil _ _ (hempty.1 h)

end Schedule

end LoopNest
