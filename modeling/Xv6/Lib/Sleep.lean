import Mathlib.Tactic.Common

namespace Sleep

section
variable {P C : Type} [DecidableEq C]

def wakeup (asleep : P → Option C) (c : C) (p : P) : Option C := if asleep p = some c then none else asleep p

@[simp] theorem wakeup_some {asleep : P → Option C} : wakeup asleep c p = some d ↔ asleep p = some d ∧ d ≠ c := by
  unfold wakeup
  split
  · rename_i here
    rw [here]
    constructor
    · intro impossible; cases impossible
    · rintro ⟨same,other⟩
      exact absurd (Option.some.inj same).symm other
  rename_i elsewhere
  constructor
  · intro there
    exact ⟨there,fun same => elsewhere (same ▸ there)⟩
  · exact fun both => both.1

end
end Sleep
