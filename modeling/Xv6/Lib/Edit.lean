import Mathlib.Tactic.Common

namespace Edit

-- Edit scripts on lists, and the recursion that counts the shortest one.
section
variable {α : Type}

inductive Step : List α → List α → Prop where
  | insert (l r : List α) (c : α) : Step (l ++ r) (l ++ c :: r)
  | delete (l r : List α) (c : α) : Step (l ++ c :: r) (l ++ r)
  | replace (l r : List α) (c d : α) : Step (l ++ c :: r) (l ++ d :: r)

inductive Script : Nat → List α → List α → Prop where
  | done : Script 0 s s
  | step : Step s t → Script n t u → Script (n+1) s u

theorem Step.cons (step : Step s t) (a : α) : Step (a :: s) (a :: t) := by
  cases step with
  | insert l r c => exact .insert (a :: l) r c
  | delete l r c => exact .delete (a :: l) r c
  | replace l r c d => exact .replace (a :: l) r c d

theorem Script.cons (script : Script n s t) (a : α) : Script n (a :: s) (a :: t) := by
  induction script with
  | done => exact .done
  | step first _ ih => exact .step (first.cons a) ih

theorem Step.reverse {s t : List α} (step : Step s t) : Step s.reverse t.reverse := by
  cases step with
  | insert l r c =>
    have moved := Step.insert r.reverse l.reverse c
    simpa using moved
  | delete l r c =>
    have moved := Step.delete r.reverse l.reverse c
    simpa using moved
  | replace l r c d =>
    have moved := Step.replace r.reverse l.reverse c d
    simpa using moved

theorem Script.reverse {s t : List α} (script : Script n s t) : Script n s.reverse t.reverse := by
  induction script with
  | done => exact .done
  | step first _ ih => exact .step first.reverse ih

theorem Script.clear (s : List α) : Script s.length s [] := by
  induction s with
  | nil => exact .done
  | cons a s ih => exact .step (.delete [] s a) ih

theorem Script.fill (t : List α) : Script t.length [] t := by
  induction t with
  | nil => exact .done
  | cons b t ih => exact .step (.insert [] [] b) (ih.cons b)

end

section
variable {α : Type} [DecidableEq α]

def dist : List α → List α → Nat
  | [],t => t.length
  | s,[] => s.length
  | a :: s,b :: t => min (min (dist s (b :: t)) (dist (a :: s) t) + 1) (dist s t + if a = b then 0 else 1)
termination_by s t => s.length + t.length

theorem dist_nil (s : List α) : dist s [] = s.length := by
  cases s <;> simp [dist]

theorem nil_dist (t : List α) : dist [] t = t.length := by simp [dist]

theorem dist_cons (a b : α) (s t : List α) : dist (a :: s) (b :: t) =
    min (min (dist s (b :: t)) (dist (a :: s) t) + 1) (dist s t + if a = b then 0 else 1) := by rw [dist]

theorem script_dist (s t : List α) : Script (dist s t) s t := by
  induction s generalizing t with
  | nil =>
    rw [nil_dist]
    exact .fill t
  | cons a s ih =>
    induction t with
    | nil =>
      rw [dist_nil]
      exact .clear (a :: s)
    | cons b t inner =>
      have delete : Script (dist s (b :: t)+1) (a :: s) (b :: t) := .step (.delete [] s a) (ih (b :: t))
      have insert : Script (dist (a :: s) t+1) (a :: s) (b :: t) := .step (.insert [] (a :: s) b) (inner.cons b)
      have keep : Script (dist s t + if a = b then 0 else 1) (a :: s) (b :: t) := by
        split
        · rename_i same
          rw [same]
          exact (ih t).cons b
        · exact .step (.replace [] s a b) ((ih t).cons b)
      rw [dist_cons]
      rcases Nat.le_total (min (dist s (b :: t)) (dist (a :: s) t) + 1) (dist s t + if a = b then 0 else 1) with le | le
      · rw [Nat.min_eq_left le]
        rcases Nat.le_total (dist s (b :: t)) (dist (a :: s) t) with le | le
        · rw [Nat.min_eq_left le]
          exact delete
        · rw [Nat.min_eq_right le]
          exact insert
      · rw [Nat.min_eq_right le]
        exact keep

theorem dist_comm (s t : List α) : dist s t = dist t s := by
  induction s generalizing t with
  | nil => rw [nil_dist,dist_nil]
  | cons a s ih =>
    induction t with
    | nil => rw [nil_dist,dist_nil]
    | cons b t inner =>
      rw [dist_cons,dist_cons,ih,ih,inner,Nat.min_comm (dist (b :: t) s),if_congr (show a = b ↔ b = a from eq_comm) rfl rfl]

theorem dist_cons_left (a : α) (s t : List α) : dist (a :: s) t ≤ dist s t + 1 := by
  cases t with
  | nil => simp [dist_nil]
  | cons b t =>
    rw [dist_cons]
    omega

theorem dist_cons_right (b : α) (s t : List α) : dist s (b :: t) ≤ dist s t + 1 := by
  rw [dist_comm,dist_comm s]
  exact dist_cons_left b t s

theorem dist_tail_left (a : α) (s t : List α) : dist s t ≤ dist (a :: s) t + 1 := by
  induction t with
  | nil =>
    rw [dist_nil,dist_nil,List.length_cons]
    omega
  | cons b t ih =>
    have wider := dist_cons_right b s t
    rw [dist_cons]
    omega

theorem dist_tail_right (b : α) (s t : List α) : dist s t ≤ dist s (b :: t) + 1 := by
  rw [dist_comm,dist_comm s]
  exact dist_tail_left b t s

theorem dist_same (a : α) (s t : List α) : dist (a :: s) (a :: t) = dist s t := by
  have left := dist_tail_left a s t
  have right := dist_tail_right a s t
  rw [dist_cons,if_pos rfl]
  omega

theorem dist_other (other : a ≠ b) (s t : List α) :
    dist (a :: s) (b :: t) = min (min (dist (a :: s) t) (dist s (b :: t))) (dist s t) + 1 := by
  rw [dist_cons,if_neg other]
  omega

theorem dist_replace (c d : α) (s t : List α) : dist (c :: s) t ≤ dist (d :: s) t + 1 := by
  induction t with
  | nil =>
    rw [dist_nil,dist_nil]
    exact Nat.le_succ _
  | cons b t ih =>
    rw [dist_cons,dist_cons d]
    split <;> split <;> omega

theorem dist_under (a : α) (near : ∀ u, dist s u ≤ dist t u + 1) (u : List α) : dist (a :: s) u ≤ dist (a :: t) u + 1 := by
  induction u with
  | nil =>
    have lengths := near []
    rw [dist_nil,dist_nil] at lengths ⊢
    simp only [List.length_cons]
    omega
  | cons b u ih =>
    have one := near (b :: u)
    have two := near u
    rw [dist_cons,dist_cons]
    omega

theorem dist_append (l : List α) (near : ∀ u, dist s u ≤ dist t u + 1) (u : List α) : dist (l ++ s) u ≤ dist (l ++ t) u + 1 := by
  induction l generalizing u with
  | nil => exact near u
  | cons a l ih => exact dist_under a ih u

theorem Step.dist_le (step : Step s t) (u : List α) : dist s u ≤ dist t u + 1 := by
  cases step with
  | insert l r c => exact dist_append l (dist_tail_left c r) u
  | delete l r c => exact dist_append l (dist_cons_left c r) u
  | replace l r c d => exact dist_append l (dist_replace c d r) u

-- No script is shorter.
theorem Script.dist_le {s t : List α} (script : Script n s t) : dist s t ≤ n := by
  induction script with
  | @done s =>
    induction s with
    | nil => rw [dist_nil]; exact Nat.le_refl _
    | cons a s ih => rw [dist_same]; exact ih
  | step first _ ih => exact Nat.le_trans (first.dist_le _) (Nat.succ_le_succ ih)

theorem dist_reverse (s t : List α) : dist s.reverse t.reverse = dist s t := by
  apply Nat.le_antisymm
  · exact (script_dist s t).reverse.dist_le
  · have back := (script_dist s.reverse t.reverse).reverse.dist_le
    simpa using back

end
end Edit
