import Mathlib.Tactic.Common

namespace Runs

-- Systems that move by labelled steps, and what holds along their runs.
section
variable {σ ι : Type}

inductive Run (start : σ → Prop) (step : σ → ι → σ → Prop) : List ι → σ → Prop where
  | start : start s → Run start step [] s
  | step : Run start step events s → step s event next → Run start step (event :: events) next

def Only (fine : σ → ι → Prop) (step : σ → ι → σ → Prop) (s : σ) (event : ι) (next : σ) : Prop :=
  fine s event ∧ step s event next

variable {start : σ → Prop} {step : σ → ι → σ → Prop} {events : List ι} {s : σ}

theorem Run.traced {I : List ι → σ → Prop} (run : Run start step events s) (first : ∀ s, start s → I [] s)
    (keeps : ∀ events s event next, I events s → step s event next → I (event :: events) next) : I events s := by
  induction run with
  | start began => exact first _ began
  | step _ moved ih => exact keeps _ _ _ _ ih moved

theorem Run.invariant {I : σ → Prop} (run : Run start step events s) (first : ∀ s, start s → I s)
    (keeps : ∀ s event next, I s → step s event next → I next) : I s :=
  run.traced first fun _ => keeps

theorem Run.mono {other : σ → ι → σ → Prop} (run : Run start step events s)
    (wider : ∀ s event next, step s event next → other s event next) : Run start other events s := by
  induction run with
  | start began => exact .start began
  | step _ moved ih => exact .step ih (wider _ _ _ moved)

theorem Run.whole {fine : σ → ι → Prop} (run : Run start (Only fine step) events s) : Run start step events s :=
  run.mono fun _ _ _ moved => moved.2

end

-- The result of a loop that is given turns enough; none is a loop that has not come to its end.
def Returns {α : Type} (f : Nat → Option α) (r : α) : Prop := ∃ most, ∀ fuel, most ≤ fuel → f fuel = some r

theorem Returns.unique {α : Type} {f : Nat → Option α} {r t : α} (first : Returns f r) (second : Returns f t) : r = t := by
  obtain ⟨one,ran⟩ := first
  obtain ⟨two,also⟩ := second
  exact Option.some.inj ((ran (max one two) (Nat.le_max_left ..)).symm.trans (also (max one two) (Nat.le_max_right ..)))

-- A loop whose first turn leads to another loop.
theorem Returns.turn {α : Type} {f g : Nat → Option α} {r : α} (rest : Returns g r) (first : ∀ fuel, f (fuel+1) = g fuel) : Returns f r := by
  obtain ⟨most,ran⟩ := rest
  refine ⟨most+1,fun fuel enough => ?_⟩
  obtain ⟨fuel,rfl⟩ : ∃ k, fuel = k+1 := ⟨fuel-1,by omega⟩
  rw [first]
  exact ran fuel (by omega)

theorem Returns.now {α : Type} {f : Nat → Option α} {r : α} (first : ∀ fuel, f (fuel+1) = some r) : Returns f r :=
  Returns.turn ⟨0,fun _ _ => rfl⟩ first

end Runs
