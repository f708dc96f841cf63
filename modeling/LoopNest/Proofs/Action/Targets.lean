import LoopNest.Proofs.Action.LoopPairs
import LoopNest.Proofs.Forest.Downward

/-!
LoopNest.Proofs.Action.Targets — candidates become actions.

A candidate is one loop, a loop that is passed through with the next one, or a
pair of loops to interchange (`Offers`).  The layout of every kind has its
loops first and then its factors, so a candidate with the right number of
factors always fits; what can be missing is work to transform.

The targets are collected loop by loop, and names that are there already are
left out.  Two loops of a candidate have nothing inside in common if they are
siblings, and otherwise all that is inside the second is inside the first: so
the targets are the work inside the first loop, and for siblings that inside the
second after it (`Targeted`).

* `Action.addNew_eq` — what joins a list of names;
* `Action.make_eq` — what can go wrong with loops and factors;
* `Linked.exists_candidates` — every candidate is an offer;
* `Sound.exists_collected` — its targets;
* `Reachable.candidates_become_actions` — all of it.
-/

namespace LoopNest

/-! ## Names, once each -/

/-- Of names without repetition those join a list that are not there yet. -/
theorem Action.addNew_eq : ∀ {names : List String} (known : List String), names.Nodup →
    addNew known names = known ++ names.filter (· ∉ known)
  | [], known, _ => by simp [addNew]
  | name :: rest, known, hnd => by
      obtain ⟨hname, hrest⟩ := List.nodup_cons.1 hnd
      by_cases hknown : name ∈ known
      · rw [addNew, if_pos hknown, addNew_eq known hrest, List.filter_cons_of_neg (by simpa)]
      · -- the name itself is not among the others, so its joining keeps none of them out
        have hothers : rest.filter (· ∉ known ++ [name]) = rest.filter (· ∉ known) := by
          refine List.filter_congr fun c hc => ?_
          have hne : c ≠ name := fun e => hname (e ▸ hc)
          simp [hne]
        rw [addNew, if_neg hknown, addNew_eq _ hrest, hothers,
          List.filter_cons_of_pos (by simpa), List.append_assoc, List.singleton_append]

/-! ## Loops first, then factors -/

/-- The layout of a kind: its loops, then its factors. -/
theorem Kind.shape_eq (kind : Kind) : kind.shape =
    List.replicate kind.loopCount .loop ++ List.replicate (kind.arity - kind.loopCount) .factor := by
  cases kind <;> decide

theorem Kind.loopCount_le_arity (kind : Kind) : kind.loopCount ≤ kind.arity :=
  List.count_le_length

namespace Action

/-- Parameters of the right shapes pass the comparison. -/
theorem checkShapes_eq_ok (kind : Kind) : ∀ (params : List Param) (index : Nat),
    checkShapes kind index params (params.map Param.shape) = .ok ()
  | [], _ => rfl
  | param :: rest, index => by
      rw [List.map_cons, checkShapes, if_pos rfl, checkShapes_eq_ok kind rest]

/-- Some loops and then some factors, as parameters. -/
def layOut (loops : List LoopId) (factors : List Int64) : List Param :=
  loops.map .loop ++ factors.map .factor

theorem loops_layOut (kind : Kind) (loops : List LoopId) (factors : List Int64)
    (computations : List String) :
    (⟨kind, layOut loops factors, computations⟩ : Action).loops = loops := by
  simp [Action.loops, layOut, List.filterMap_append, List.filterMap_map]

theorem factors_layOut (kind : Kind) (loops : List LoopId) (factors : List Int64)
    (computations : List String) :
    (⟨kind, layOut loops factors, computations⟩ : Action).factors = factors := by
  simp [Action.factors, layOut, List.filterMap_append, List.filterMap_map]

theorem map_shape_layOut (loops : List LoopId) (factors : List Int64) :
    (layOut loops factors).map Param.shape =
      List.replicate loops.length .loop ++ List.replicate factors.length .factor := by
  simp [layOut, Function.comp_def, Param.shape]

/-- With the right number of loops there can be two things wrong: the number of
factors, and then that there is nothing to transform. -/
theorem make_eq {kind : Kind} {loops : List LoopId} (hloops : loops.length = kind.loopCount)
    (factors : List Int64) (computations : List String) :
    make kind (layOut loops factors) computations =
      if factors.length ≠ kind.arity - kind.loopCount then
        .error (.parameterCount kind kind.arity (loops.length + factors.length))
      else if computations = [] then .error (.noTargets kind)
      else .ok ⟨kind, layOut loops factors, computations⟩ := by
  have hle := kind.loopCount_le_arity
  have hlength : (layOut loops factors).length = loops.length + factors.length := by
    simp [layOut]
  have hcount : loops.length + factors.length = kind.arity ↔
      factors.length = kind.arity - kind.loopCount := by omega
  simp only [make, hlength, ne_eq, hcount, List.isEmpty_iff]
  refine ite_congr rfl (fun _ => rfl) fun hfactors => ?_
  have hshape : kind.shape = (layOut loops factors).map Param.shape := by
    rw [map_shape_layOut, hloops, Decidable.of_not_not hfactors]
    exact kind.shape_eq
  rw [hshape, checkShapes_eq_ok, ok_bind]

end Action

namespace Forest

variable {t : Forest}

/-! ## Candidates -/

/-- What a candidate of a kind can be. -/
inductive Offers (t : Forest) : Kind → Candidate → Prop
  | loop {kind : Kind} {id : LoopId} {n : Node} (hkind : kind.loopCount = 1)
      (hn : t.nodes[id]? = some n) : t.Offers kind [id]
  | passing {kind : Kind} {outer inner : LoopId} (hkind : kind = .skewing ∨ kind = .tiling2d)
      (hpasses : t.PassesTo outer inner) : t.Offers kind [outer, inner]
  | siblings {a b : LoopId} (hsiblings : t.areSiblings a b = .ok true) :
    t.Offers .interchange [a, b]
  | enclosing {a b : LoopId} (habove : t.Above a b) : t.Offers .interchange [a, b]

/-- A candidate names as many loops as the kind takes. -/
theorem Offers.length_eq {kind : Kind} {candidate : Candidate} (h : t.Offers kind candidate) :
    candidate.length = kind.loopCount := by
  cases h with
  | loop hkind _ => exact hkind.symm
  | passing hkind _ => rcases hkind with rfl | rfl <;> rfl
  | siblings _ => rfl
  | enclosing _ => rfl

/-- A candidate of two loops that are not to be interchanged. -/
theorem Offers.exists_passesTo {kind : Kind} {candidate : Candidate}
    (h : t.Offers kind candidate) (hkind : kind = .skewing ∨ kind = .tiling2d) :
    ∃ outer inner, candidate = [outer, inner] ∧ t.PassesTo outer inner := by
  cases h with
  | loop hcount _ => rcases hkind with rfl | rfl <;> cases hcount
  | @passing _ outer inner _ hpasses => exact ⟨outer, inner, rfl, hpasses⟩
  | siblings _ => simp at hkind
  | enclosing _ => simp at hkind

theorem areSiblings_nodes {a b : LoopId} {answer : Bool} (h : t.areSiblings a b = .ok answer) :
    (∃ n, t.nodes[a]? = some n) ∧ ∃ m, t.nodes[b]? = some m := by
  obtain ⟨n, hn, h⟩ := bind_eq_ok.1 h
  obtain ⟨m, hm, -⟩ := bind_eq_ok.1 h
  exact ⟨⟨n, node_eq_ok_iff.1 hn⟩, m, node_eq_ok_iff.1 hm⟩

namespace Linked

/-- The loops of a walk that have computations and no loops inside. -/
theorem innermost_eq (ids : List LoopId) (hids : ∀ id ∈ ids, ∃ n, t.nodes[id]? = some n) :
    ∃ found, t.innermost ids = .ok found ∧ ∀ candidate ∈ found, ∃ id ∈ ids, candidate = [id] := by
  induction ids with
  | nil => exact ⟨[], rfl, by simp⟩
  | cons id rest ih =>
    obtain ⟨n, hn⟩ := hids id (List.mem_cons_self ..)
    obtain ⟨found, hfound, hmem⟩ := ih fun x hx => hids x (List.mem_cons_of_mem _ hx)
    refine ⟨if n.isLeaf && !n.computations.isEmpty then [id] :: found else found, ?_, ?_⟩
    · rw [innermost, node_eq hn, hfound]
      rfl
    · intro candidate hcandidate
      have hcase : candidate = [id] ∨ candidate ∈ found := by
        split at hcandidate
        · exact List.mem_cons.1 hcandidate
        · exact Or.inr hcandidate
      rcases hcase with rfl | hcandidate
      · exact ⟨id, List.mem_cons_self .., rfl⟩
      · obtain ⟨x, hx, hsingle⟩ := hmem candidate hcandidate
        exact ⟨x, List.mem_cons_of_mem _ hx, hsingle⟩

/-- Candidates picked from the sections of each root. -/
theorem exists_picked (h : t.Linked) (pick : List Section → List Candidate) {kind : Kind}
    (hpick : ∀ root ∈ t.roots, ∀ sections, t.Cut [root] sections →
      ∀ candidate ∈ pick sections, t.Offers kind candidate) :
    ∃ found, (do let sections ← t.sections
                 return sections.map fun _ sections => pick sections) = .ok found ∧
      found.keys = t.roots ∧ ∀ root candidates, found.get? root = some candidates →
        ∀ candidate ∈ candidates, t.Offers kind candidate := by
  obtain ⟨sections, hsections, hkeys, hroot⟩ := h.sections_eq
  refine ⟨sections.map fun _ sections => pick sections, by rw [hsections]; rfl,
    by rw [OrderedMap.keys_map, hkeys], fun root candidates hget => ?_⟩
  rw [OrderedMap.get?_map, Option.map_eq_some_iff] at hget
  obtain ⟨cut, hcut, rfl⟩ := hget
  have hmem : root ∈ t.roots := hkeys ▸ OrderedMap.mem_keys.2 ⟨cut, hcut⟩
  obtain ⟨cut', hcut', hcuts⟩ := hroot root hmem
  rw [hcut] at hcut'
  cases hcut'
  exact hpick root hmem cut hcuts

/-- Candidates picked from the walk of each root. -/
theorem exists_walked (h : t.Linked) (pick : List LoopId → Except Error (List Candidate))
    {kind : Kind} (hpick : ∀ root n, t.nodes[root]? = some n → ∃ found,
      pick (t.inside root) = .ok found ∧ ∀ candidate ∈ found, t.Offers kind candidate) :
    ∃ found, perRoot (fun root => do pick (← t.preorder root)) .empty t.roots = .ok found ∧
      found.keys = t.roots ∧ ∀ root candidates, found.get? root = some candidates →
        ∀ candidate ∈ candidates, t.Offers kind candidate := by
  have hroot : ∀ root ∈ t.roots, ∃ candidates, (do pick (← t.preorder root)) = .ok candidates ∧
      ∀ candidate ∈ candidates, t.Offers kind candidate := by
    intro root hr
    obtain ⟨n, hn, -⟩ := h.exists_node_of_mem_roots hr
    rw [h.preorder_eq hn]
    exact hpick root n hn
  obtain ⟨found, hfound, hget, -⟩ := perRoot_eq (fun root => do pick (← t.preorder root)) t.roots
    .empty fun root hr => (hroot root hr).imp fun _ hpicked => hpicked.1
  have hkeys : found.keys = t.roots := keys_perRoot _ t.roots .empty found h.roots_nodup hfound
  refine ⟨found, hfound, hkeys, fun root candidates hcandidates => ?_⟩
  have hmem : root ∈ t.roots := hkeys ▸ OrderedMap.mem_keys.2 ⟨candidates, hcandidates⟩
  obtain ⟨value, hvalue, hat⟩ := hget root hmem
  obtain ⟨picked, hpicked, hoffers⟩ := hroot root hmem
  rw [hvalue] at hpicked
  cases hpicked
  rw [hcandidates] at hat
  cases hat
  exact hoffers

/-- Every kind has its candidates, and each is an offer. -/
theorem exists_candidates (h : t.Linked) (kind : Kind) :
    ∃ found, kind.candidates t = .ok found ∧ found.keys = t.roots ∧
      ∀ root candidates, found.get? root = some candidates →
        ∀ candidate ∈ candidates, t.Offers kind candidate := by
  have hinside : ∀ root n, t.nodes[root]? = some n →
      ∀ id ∈ t.inside root, ∃ n, t.nodes[id]? = some n := fun root n hn id hid =>
    h.exists_node_of_mem_inside hn hid
  have hsingle : ∀ kind : Kind, kind.loopCount = 1 → ∀ root ∈ t.roots, ∀ sections,
      t.Cut [root] sections → ∀ candidate ∈ sections.flatten.map (fun id => [id]),
        t.Offers kind candidate := by
    intro kind hkind root hr sections hcut candidate hcandidate
    obtain ⟨id, hid, rfl⟩ := List.mem_map.1 hcandidate
    obtain ⟨n, hn, -⟩ := h.exists_node_of_mem_roots hr
    obtain ⟨m, hm⟩ := hinside root n hn id ((hcut.perm_inside h).mem_iff.1 hid)
    exact .loop hkind hm
  have hpairs : ∀ kind : Kind, kind = .skewing ∨ kind = .tiling2d → ∀ root ∈ t.roots,
      ∀ sections, t.Cut [root] sections → ∀ candidate ∈ sections.flatMap adjacentPairs,
        t.Offers kind candidate := by
    intro kind hkind root _ sections hcut candidate hcandidate
    rw [hcut.adjacentPairs_eq, List.mem_filterMap] at hcandidate
    obtain ⟨outer, -, hpair⟩ := hcandidate
    obtain ⟨inner, rfl, hpasses⟩ := passingPair?_eq_some_iff.1 hpair
    exact .passing hkind hpasses
  cases kind with
  | parallelization => exact h.exists_picked _ (hsingle _ rfl)
  | reversal => exact h.exists_picked _ (hsingle _ rfl)
  | skewing => exact h.exists_picked _ (hpairs _ (Or.inl rfl))
  | tiling2d => exact h.exists_picked _ (hpairs _ (Or.inr rfl))
  | interchange =>
    refine h.exists_walked t.interchangePairs fun root n hn =>
      ⟨_, h.interchangePairs_eq _ (hinside root n hn), fun candidate hcandidate => ?_⟩
    obtain ⟨a, b, rfl, -, hrelated⟩ := (mem_orderedPairs _).1 hcandidate
    rcases of_decide_eq_true hrelated with hsiblings | habove
    · exact .siblings hsiblings
    · exact .enclosing habove
  | unrolling =>
    refine h.exists_walked t.innermost fun root n hn => ?_
    obtain ⟨found, hfound, hmem⟩ := innermost_eq _ (hinside root n hn)
    refine ⟨found, hfound, fun candidate hcandidate => ?_⟩
    obtain ⟨id, hid, rfl⟩ := hmem candidate hcandidate
    obtain ⟨m, hm⟩ := hinside root n hn id hid
    exact .loop rfl hm

/-! ## Work inside two loops -/

/-- Siblings lie at one level. -/
theorem level_eq_of_areSiblings (h : t.Linked) {a b : LoopId} {n m : Node}
    (hn : t.nodes[a]? = some n) (hm : t.nodes[b]? = some m)
    (hsiblings : t.areSiblings a b = .ok true) : a ≠ b ∧ n.level = m.level := by
  obtain ⟨hne, p, ⟨k, hk, ha⟩, k', hk', hb⟩ := (h.areSiblings_eq_true_iff hn hm).1 hsiblings
  rw [hk] at hk'
  cases hk'
  obtain ⟨n', hn', -, hnl⟩ := h.child hk ha
  obtain ⟨m', hm', -, hml⟩ := h.child hk hb
  rw [hn] at hn'
  rw [hm] at hm'
  cases hn'
  cases hm'
  exact ⟨hne, hnl.trans hml.symm⟩

/-- A loop lies deeper than those above it. -/
theorem level_lt_of_above (h : t.Linked) {a b : LoopId} {n m : Node}
    (hn : t.nodes[a]? = some n) (hm : t.nodes[b]? = some m) (habove : t.Above a b) :
    n.level < m.level := by
  obtain ⟨hne, hinside⟩ := (h.above_iff hn hm).1 habove
  refine Nat.lt_of_le_of_ne (h.level_le_of_mem_inside hn hm hinside) fun hlevel => hne ?_
  exact (h.eq_of_mem_inside hn hm hlevel hm hinside (h.self_mem_inside hm)).symm

/-- No loop is a sibling of one inside it. -/
theorem not_areSiblings_of_above (h : t.Linked) {a b : LoopId} (habove : t.Above a b) :
    t.areSiblings a b ≠ .ok true := by
  intro hsiblings
  obtain ⟨⟨n, hn⟩, m, hm⟩ := habove.exists_nodes
  exact Nat.ne_of_lt (h.level_lt_of_above hn hm habove)
    (h.level_eq_of_areSiblings hn hm hsiblings).2

/-- What is computed inside a loop above another is computed inside the upper
one as well. -/
theorem work_subset_of_above (h : t.Linked) {a b : LoopId} (habove : t.Above a b) {c : String}
    (hc : c ∈ (t.inside b).flatMap t.computationsOf) :
    c ∈ (t.inside a).flatMap t.computationsOf := by
  obtain ⟨⟨n, hn⟩, m, hm⟩ := habove.exists_nodes
  obtain ⟨x, hx, hc⟩ := List.mem_flatMap.1 hc
  obtain ⟨k, hk⟩ := h.exists_node_of_mem_inside hm hx
  exact List.mem_flatMap.2
    ⟨x, h.mem_inside_trans hn hm hk ((h.above_iff hn hm).1 habove).2 hx, hc⟩

end Linked

namespace Sound

/-- Siblings have no work in common. -/
theorem work_disjoint_of_areSiblings (h : t.Sound) {a b : LoopId}
    (hsiblings : t.areSiblings a b = .ok true) {c : String}
    (hca : c ∈ (t.inside a).flatMap t.computationsOf) :
    c ∉ (t.inside b).flatMap t.computationsOf := by
  intro hcb
  have hlinked := h.toLinked
  obtain ⟨⟨n, hn⟩, m, hm⟩ := areSiblings_nodes hsiblings
  obtain ⟨hne, hlevel⟩ := hlinked.level_eq_of_areSiblings hn hm hsiblings
  obtain ⟨x, hxa, hcx⟩ := List.mem_flatMap.1 hca
  obtain ⟨y, hyb, hcy⟩ := List.mem_flatMap.1 hcb
  -- the computation has one owner, and it would be inside both
  have howner := (h.owner_iff.2 (mem_computationsOf.1 hcx)).symm.trans
    (h.owner_iff.2 (mem_computationsOf.1 hcy))
  cases howner
  obtain ⟨k, hk⟩ := hlinked.exists_node_of_mem_inside hn hxa
  exact hne (hlinked.eq_of_mem_inside hn hm hlevel hk hxa hyb)

/-- Only computations of the forest are inside a loop. -/
theorem mem_computations_of_work (h : t.Sound) {id : LoopId} {c : String}
    (hc : c ∈ (t.inside id).flatMap t.computationsOf) : c ∈ t.computations := by
  obtain ⟨owner, -, hc⟩ := List.mem_flatMap.1 hc
  exact h.mem_computations_iff.2 ⟨owner, h.owner_iff.2 (mem_computationsOf.1 hc)⟩

/-- One more loop adds what is computed inside it and not yet named. -/
theorem targetsBelow_cons (h : t.Sound) {id : LoopId} {n : Node} (hn : t.nodes[id]? = some n)
    (known : List String) (rest : List LoopId) :
    Action.targetsBelow t known (id :: rest) = Action.targetsBelow t
      (known ++ ((t.inside id).flatMap t.computationsOf).filter (· ∉ known)) rest := by
  rw [Action.targetsBelow, h.toLinked.subtreeComputations_eq hn, ok_bind,
    Action.addNew_eq known (h.nodup_subtreeComputations hn)]

theorem targetsBelow_single (h : t.Sound) {id : LoopId} {n : Node}
    (hn : t.nodes[id]? = some n) :
    Action.targetsBelow t [] [id] = .ok ((t.inside id).flatMap t.computationsOf) := by
  rw [h.targetsBelow_cons hn]
  simp [Action.targetsBelow]

theorem targetsBelow_pair (h : t.Sound) {a b : LoopId} {n m : Node}
    (hn : t.nodes[a]? = some n) (hm : t.nodes[b]? = some m) :
    Action.targetsBelow t [] [a, b] = .ok ((t.inside a).flatMap t.computationsOf ++
      ((t.inside b).flatMap t.computationsOf).filter
        (· ∉ (t.inside a).flatMap t.computationsOf)) := by
  rw [h.targetsBelow_cons hn, h.targetsBelow_cons hm]
  simp [Action.targetsBelow]

end Sound

/-! ## Targets -/

/-- Two siblings, to be interchanged. -/
def SiblingPair (t : Forest) (kind : Kind) (candidate : Candidate) : Prop :=
  kind = .interchange ∧ ∃ a b, candidate = [a, b] ∧ t.areSiblings a b = .ok true

/-- The targets that belong to a candidate: the computations inside its first
loop and, if it is a pair of siblings, after them those inside the second. -/
inductive Targeted (t : Forest) (kind : Kind) : Candidate → List String → Prop
  | first {id : LoopId} {rest : List LoopId} {own : List String}
      (hown : t.subtreeComputations id = .ok own) (hpair : ¬ t.SiblingPair kind (id :: rest)) :
    t.Targeted kind (id :: rest) own
  | both {a b : LoopId} {own others : List String} (hown : t.subtreeComputations a = .ok own)
      (hothers : t.subtreeComputations b = .ok others) (hpair : t.SiblingPair kind [a, b]) :
    t.Targeted kind [a, b] (own ++ others)

/-- Something is computed inside one of some loops. -/
def HasWork (t : Forest) (ids : List LoopId) : Prop :=
  ∃ id ∈ ids, ∃ computations, t.subtreeComputations id = .ok computations ∧ computations ≠ []

/-- The computations to collect for a candidate: those that belong to it, each
once, all known to the forest, and none only if there is none. -/
structure Collected (t : Forest) (kind : Kind) (candidate : Candidate)
    (targets : List String) : Prop where
  below : Action.targetsBelow t [] candidate = .ok targets
  targeted : t.Targeted kind candidate targets
  once : targets.Nodup
  known : ∀ c ∈ targets, c ∈ t.computations
  work : targets ≠ [] ↔ t.HasWork candidate

namespace Sound

/-- A loop with all the work of its candidate inside. -/
theorem collected_first (h : t.Sound) {kind : Kind} {id : LoopId} {rest : List LoopId} {n : Node}
    (hn : t.nodes[id]? = some n)
    (hbelow : Action.targetsBelow t [] (id :: rest)
      = .ok ((t.inside id).flatMap t.computationsOf))
    (hrest : t.HasWork rest → (t.inside id).flatMap t.computationsOf ≠ [])
    (hpair : ¬ t.SiblingPair kind (id :: rest)) :
    t.Collected kind (id :: rest) ((t.inside id).flatMap t.computationsOf) where
  below := hbelow
  targeted := .first (h.toLinked.subtreeComputations_eq hn) hpair
  once := h.nodup_subtreeComputations hn
  known := fun _ => h.mem_computations_of_work
  work := by
    have hown := h.toLinked.subtreeComputations_eq hn
    constructor
    · exact fun hne => ⟨id, List.mem_cons_self .., _, hown, hne⟩
    · rintro ⟨x, hx, computations, hx', hne⟩
      rcases List.mem_cons.1 hx with rfl | hx
      · rw [hown] at hx'
        cases hx'
        exact hne
      · exact hrest ⟨x, hx, computations, hx', hne⟩

/-- A loop and one of which all the work is inside the first. -/
theorem collected_nested (h : t.Sound) {kind : Kind} {a b : LoopId} {n m : Node}
    (hn : t.nodes[a]? = some n) (hm : t.nodes[b]? = some m)
    (hsubset : ∀ c ∈ (t.inside b).flatMap t.computationsOf,
      c ∈ (t.inside a).flatMap t.computationsOf)
    (hpair : ¬ t.SiblingPair kind [a, b]) :
    t.Collected kind [a, b] ((t.inside a).flatMap t.computationsOf) := by
  refine h.collected_first hn ?_ ?_ hpair
  · have hnone : ((t.inside b).flatMap t.computationsOf).filter
        (· ∉ (t.inside a).flatMap t.computationsOf) = [] := by
      rw [List.filter_eq_nil_iff]
      intro c hc
      simpa using hsubset c hc
    rw [h.targetsBelow_pair hn hm, hnone, List.append_nil]
  · rintro ⟨x, hx, computations, hcomputations, hne⟩
    obtain rfl := List.mem_singleton.1 hx
    rw [h.toLinked.subtreeComputations_eq hm] at hcomputations
    cases hcomputations
    obtain ⟨c, hc⟩ := List.exists_mem_of_ne_nil _ hne
    exact List.ne_nil_of_mem (hsubset c hc)

theorem collected_siblings (h : t.Sound) {a b : LoopId}
    (hsiblings : t.areSiblings a b = .ok true) :
    t.Collected .interchange [a, b] ((t.inside a).flatMap t.computationsOf ++
      (t.inside b).flatMap t.computationsOf) := by
  have hlinked := h.toLinked
  obtain ⟨⟨n, hn⟩, m, hm⟩ := areSiblings_nodes hsiblings
  have hown := hlinked.subtreeComputations_eq hn
  have hothers := hlinked.subtreeComputations_eq hm
  have hdisjoint := fun c hca => h.work_disjoint_of_areSiblings hsiblings (c := c) hca
  constructor
  case below =>
    have hall : ((t.inside b).flatMap t.computationsOf).filter
        (· ∉ (t.inside a).flatMap t.computationsOf) = (t.inside b).flatMap t.computationsOf := by
      rw [List.filter_eq_self]
      intro c hcb
      exact decide_eq_true fun hca => hdisjoint c hca hcb
    rw [h.targetsBelow_pair hn hm, hall]
  case targeted => exact .both hown hothers ⟨rfl, a, b, rfl, hsiblings⟩
  case once =>
    refine List.nodup_append.2 ⟨h.nodup_subtreeComputations hn, h.nodup_subtreeComputations hm, ?_⟩
    rintro c hca _ hcb rfl
    exact hdisjoint c hca hcb
  case known =>
    intro c hc
    rcases List.mem_append.1 hc with hc | hc <;> exact h.mem_computations_of_work hc
  case work => simp [HasWork, hown, hothers, imp_iff_not_or]

/-- The targets collected for an offer. -/
theorem exists_collected (h : t.Sound) {kind : Kind} {candidate : Candidate}
    (hoffer : t.Offers kind candidate) : ∃ targets, t.Collected kind candidate targets := by
  have hlinked := h.toLinked
  cases hoffer with
  | @loop _ id n _ hn =>
    refine ⟨_, h.collected_first hn (h.targetsBelow_single hn) ?_ ?_⟩
    · rintro ⟨x, hx, -⟩
      cases hx
    · rintro ⟨-, a, b, hpair, -⟩
      cases hpair
  | @passing _ outer inner hkind hpasses =>
    obtain ⟨n, hn, hchildren, -⟩ := hpasses
    obtain ⟨m, hm, -⟩ := hlinked.child hn (c := inner) (by simp [hchildren])
    refine ⟨_, h.collected_nested hn hm (fun c => hlinked.work_subset_of_above ?_) ?_⟩
    · exact (hlinked.above_child_iff hn (by simp [hchildren])).2 (Or.inl rfl)
    · rintro ⟨rfl, -⟩
      simp at hkind
  | siblings hsiblings => exact ⟨_, h.collected_siblings hsiblings⟩
  | @enclosing a b habove =>
    obtain ⟨⟨n, hn⟩, m, hm⟩ := habove.exists_nodes
    refine ⟨_, h.collected_nested hn hm (fun c => hlinked.work_subset_of_above habove) ?_⟩
    rintro ⟨-, x, y, hpair, hsiblings⟩
    cases hpair
    exact hlinked.not_areSiblings_of_above habove hsiblings

end Sound

/-- The loops of an offer have the same work inside, unless they are to be
interchanged. -/
theorem Linked.exists_work_of_offers (h : t.Linked) {kind : Kind} (hkind : kind ≠ .interchange)
    {candidate : Candidate} (hoffer : t.Offers kind candidate) :
    ∃ work, ∀ x ∈ candidate, t.subtreeComputations x = .ok work := by
  cases hoffer with
  | loop _ hn => exact ⟨_, by simpa using h.subtreeComputations_eq hn⟩
  | passing _ hpasses =>
    obtain ⟨-, work, houter, hinner⟩ := h.of_passesTo hpasses
    exact ⟨work, by simp [houter, hinner]⟩
  | siblings _ => exact absurd rfl hkind
  | enclosing _ => exact absurd rfl hkind

/-- It is the work that belongs to the offer. -/
theorem Targeted.eq_work {kind : Kind} (hkind : kind ≠ .interchange) {candidate : Candidate}
    {targets work : List String} (h : t.Targeted kind candidate targets)
    (hwork : ∀ x ∈ candidate, t.subtreeComputations x = .ok work) : targets = work := by
  cases h with
  | first hown _ => exact Except.ok.inj (hown.symm.trans (hwork _ (List.mem_cons_self ..)))
  | both _ _ hpair => exact absurd hpair.1 hkind

/-- The action made from an offer and some factors, or what is wrong with
them. -/
theorem Collected.ofCandidate_eq {kind : Kind} {candidate : Candidate} {targets : List String}
    (h : t.Collected kind candidate targets) (hoffer : t.Offers kind candidate)
    (factors : List Int64) :
    Action.ofCandidate kind t candidate factors =
      if factors.length ≠ kind.arity - kind.loopCount then
        .error (.parameterCount kind kind.arity (candidate.length + factors.length))
      else if targets = [] then .error (.noTargets kind)
      else .ok ⟨kind, Action.layOut candidate factors, targets⟩ := by
  rw [Action.ofCandidate, h.below, ok_bind]
  exact Action.make_eq hoffer.length_eq factors targets

/-- Whatever action is made from an offer, it is this one. -/
theorem Collected.eq_of_ofCandidate {kind : Kind} {candidate : Candidate}
    {targets : List String} (h : t.Collected kind candidate targets)
    (hoffer : t.Offers kind candidate) {factors : List Int64} {action : Action}
    (hmade : Action.ofCandidate kind t candidate factors = .ok action) :
    action = ⟨kind, Action.layOut candidate factors, targets⟩ := by
  rw [h.ofCandidate_eq hoffer] at hmade
  split at hmade
  · cases hmade
  · split at hmade
    · cases hmade
    · exact (Except.ok.inj hmade).symm

/-- Every candidate of every kind makes an action.

The wrong number of factors is refused first, and then a candidate without any
work inside.  Otherwise there is an action of the kind, on the loops of the
candidate and with the given factors.  Its targets are the computations inside
the first loop, followed by those inside the second if the two are siblings to
be interchanged; each comes once and is known to the forest.  No loop is ever
missing, and no parameter is in the wrong place. -/
theorem Reachable.candidates_become_actions (h : t.Reachable) (kind : Kind) :
    ∃ found, kind.candidates t = .ok found ∧
      ∀ root candidates, found.get? root = some candidates →
        ∀ candidate ∈ candidates, ∀ factors : List Int64,
          (factors.length ≠ kind.arity - kind.loopCount →
            Action.ofCandidate kind t candidate factors = .error
              (.parameterCount kind kind.arity (kind.loopCount + factors.length))) ∧
          (factors.length = kind.arity - kind.loopCount → ¬ t.HasWork candidate →
            Action.ofCandidate kind t candidate factors = .error (.noTargets kind)) ∧
          (factors.length = kind.arity - kind.loopCount → t.HasWork candidate →
            ∃ action, Action.ofCandidate kind t candidate factors = .ok action ∧
              action.kind = kind ∧ action.loops = candidate ∧ action.factors = factors ∧
              t.Targeted kind candidate action.computations ∧ action.computations.Nodup ∧
              ∀ c ∈ action.computations, c ∈ t.computations) ∧
          (∀ id, Action.ofCandidate kind t candidate factors ≠ .error (.unknownLoop id)) ∧
          ∀ subject index expected, Action.ofCandidate kind t candidate factors
            ≠ .error (.parameterShape subject index expected) := by
  have hsound := h.sound
  obtain ⟨found, hfound, -, hoffers⟩ := hsound.toLinked.exists_candidates kind
  refine ⟨found, hfound, fun root candidates hget candidate hcandidate factors => ?_⟩
  have hoffer := hoffers root candidates hget candidate hcandidate
  obtain ⟨targets, hcollected⟩ := hsound.exists_collected hoffer
  have hanswer := hcollected.ofCandidate_eq hoffer factors
  refine ⟨fun hfactors => ?_, fun hfactors hwork => ?_, fun hfactors hwork => ?_, fun id => ?_,
    fun subject index expected => ?_⟩
  · rw [hanswer, if_pos hfactors, hoffer.length_eq]
  · rw [hanswer, if_neg (not_not.2 hfactors),
      if_pos (not_not.1 fun hne => hwork (hcollected.work.1 hne))]
  · rw [if_neg (not_not.2 hfactors), if_neg (hcollected.work.2 hwork)] at hanswer
    exact ⟨_, hanswer, rfl, Action.loops_layOut .., Action.factors_layOut ..,
      hcollected.targeted, hcollected.once, hcollected.known⟩
  all_goals
    rw [hanswer]
    split
    · simp
    · split <;> simp

/-- In `branching`, its loops `i` and `k` exchanged, the siblings `j` and `i` are
interchanged for the work of both; no factor goes with them. -/
theorem branching_becomes_actions :
    ∃ t u, ofTable .branching = .ok t ∧ t.interchange ⟨"i"⟩ ⟨"k"⟩ = .ok u ∧
      (∃ action, Action.ofCandidate .interchange u [⟨"j"⟩, ⟨"i"⟩] [] = .ok action ∧
        u.Targeted .interchange [⟨"j"⟩, ⟨"i"⟩] action.computations) ∧
      Action.ofCandidate .interchange u [⟨"j"⟩, ⟨"i"⟩] [4] =
        .error (.parameterCount Kind.interchange 2 3) := by
  obtain ⟨t, u, ht, hu⟩ := exists_branching_exchanged
  obtain ⟨found, hfound, hactions⟩ :=
    Reachable.candidates_become_actions (.interchanged (.built ht) hu) .interchange
  obtain ⟨candidates, hcandidates, hpair, hwork⟩ : ∃ candidates,
      found.get? ⟨"k"⟩ = some candidates ∧ [⟨"j"⟩, ⟨"i"⟩] ∈ candidates ∧
        u.HasWork [⟨"j"⟩, ⟨"i"⟩] := by
    cases ht
    cases hu
    cases hfound
    exact ⟨_, rfl, by decide +kernel, ⟨"j"⟩, by simp, ["S"], rfl, by simp⟩
  have hmade := hactions _ _ hcandidates _ hpair
  obtain ⟨action, haction, -, -, -, htargeted, -⟩ := (hmade []).2.2.1 rfl hwork
  exact ⟨t, u, ht, hu, ⟨action, haction, htargeted⟩, (hmade [4]).1 (by decide)⟩

end Forest

end LoopNest
