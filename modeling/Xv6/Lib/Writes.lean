import Mathlib.Logic.Function.Basic
import Mathlib.Data.List.Basic
import Mathlib.Tactic.Common

namespace Writes

-- Ordered writes to cells. A run is a list of writes and a state is what the
-- list leaves behind, so a stop after any number of writes is a `take`.
variable {α : Type}

def apply (ws : List (Nat × α)) (d : Nat → α) : Nat → α :=
  ws.foldl (fun d w => Function.update d w.1 w.2) d

@[simp] theorem apply_nil (d : Nat → α) : apply [] d = d := rfl

@[simp] theorem apply_cons (w : Nat × α) (ws : List (Nat × α)) (d : Nat → α) :
    apply (w::ws) d = apply ws (Function.update d w.1 w.2) := rfl

theorem apply_append (ws vs : List (Nat × α)) (d : Nat → α) :
    apply (ws++vs) d = apply vs (apply ws d) := by
  simp [apply]

section
variable (ws : List (Nat × α))
include ws

theorem apply_other (d : Nat → α) (x : Nat)
    (away : ∀ w ∈ ws, w.1 ≠ x) : apply ws d x = d x := by
  induction ws generalizing d with
  | nil => rfl
  | cons w ws ih =>
    rw [apply_cons,ih _ (fun v member => away v (List.mem_cons_of_mem _ member))]
    exact Function.update_of_ne (away w (by simp)).symm _ _

theorem apply_congr (a b : Nat → α) (x : Nat)
    (agree : (∃ w ∈ ws, w.1 = x) ∨ a x = b x) : apply ws a x = apply ws b x := by
  induction ws generalizing a b with
  | nil =>
    rcases agree with ⟨w,member,_⟩ | same
    · cases member
    · exact same
  | cons w ws ih =>
    rw [apply_cons,apply_cons]
    apply ih
    by_cases here : w.1 = x
    · right; subst here; simp
    rcases agree with ⟨v,member,at_x⟩ | same
    · rcases List.mem_cons.mp member with rfl | later
      · exact absurd at_x here
      · exact .inl ⟨v,later,at_x⟩
    · right
      rw [Function.update_of_ne (Ne.symm here),Function.update_of_ne (Ne.symm here),same]

theorem apply_restart (m : Nat) (d : Nat → α) (x : Nat) :
    apply ws (apply (ws.take m) d) x = apply ws d x := by
  apply apply_congr
  by_cases hit : ∃ w ∈ ws, w.1 = x
  · exact .inl hit
  · right
    apply apply_other
    intro w member at_x
    exact hit ⟨w,List.mem_of_mem_take member,at_x⟩

theorem apply_set (d : Nat → α) (i : Nat) (w : Nat × α) (bound : i < ws.length)
    (same : (ws.get ⟨i,bound⟩).1 = w.1) (distinct : (ws.map Prod.fst).Nodup) :
    apply (ws.set i w) d = apply (ws++[w]) d := by
  induction ws generalizing d i with
  | nil => simp at bound
  | cons v ws ih =>
    cases i with
    | zero =>
      have first : v.1 = w.1 := same
      have away : ∀ u ∈ ws, u.1 ≠ w.1 := by
        intro u member equal
        have fresh := (List.nodup_cons.mp distinct).1
        exact fresh (List.mem_map.mpr ⟨u,member,equal.trans first.symm⟩)
      funext x
      rw [List.set_cons_zero,List.cons_append,apply_cons,apply_cons,apply_append]
      by_cases here : x = w.1
      · subst here
        rw [apply_other _ _ _ away]; simp
      have skip : ∀ d : Nat → α, apply [w] d x = d x := fun d => by simp [here]
      rw [skip]
      apply apply_congr
      right
      rw [Function.update_of_ne here,Function.update_of_ne (first ▸ here)]
    | succ i =>
      rw [List.set_cons_succ,List.cons_append,apply_cons,apply_cons]
      exact ih _ i (by simpa using bound) same (List.nodup_cons.mp distinct).2

end

theorem apply_mem {ws : List (Nat × α)} (distinct : (ws.map Prod.fst).Nodup) (member : (x,v) ∈ ws) : apply ws d x = v := by
  induction ws generalizing d with
  | nil => cases member
  | cons w ws ih =>
    obtain ⟨fresh,distinct⟩ := List.nodup_cons.mp distinct
    rcases List.mem_cons.mp member with rfl | later
    · rw [apply_cons,apply_other _ _ _ fun u other same => fresh (List.mem_map.mpr ⟨u,other,same⟩)]
      exact Function.update_self ..
    · exact ih distinct later

end Writes
