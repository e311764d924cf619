import Mathlib.Data.List.Basic

namespace Lines

-- Lines of a text: the pieces that a mark ends, and what comes after the last mark.

variable {α : Type} {mark : α} {x r : List α} {ls : List (List α)}

def joined (mark : α) (ls : List (List α)) : List α := ls.flatMap (· ++ [mark])

theorem joined_cons (mark : α) (l : List α) (ls : List (List α)) : joined mark (l :: ls) = l ++ mark :: joined mark ls := by
  rw [joined,List.flatMap_cons,List.append_assoc]
  rfl

theorem joined_append (mark : α) (ls ms : List (List α)) : joined mark (ls ++ ms) = joined mark ls ++ joined mark ms :=
  List.flatMap_append

def start (mark : α) (ls : List (List α)) (i : Nat) : Nat := (joined mark (ls.take i)).length

theorem start_succ (mark : α) (inside : i < ls.length) : start mark ls (i+1) = start mark ls i + ((ls.get ⟨i,inside⟩).length + 1) := by
  rw [start,start,List.take_succ_eq_append_getElem inside,joined_append,List.length_append,joined_cons,List.length_append,List.length_cons]
  rfl

theorem start_lt (mark : α) (less : i < j) (inside : j ≤ ls.length) : start mark ls i < start mark ls j := by
  induction j with
  | zero => omega
  | succ j ih =>
    have step := start_succ mark (show j < ls.length by omega)
    by_cases last : i = j
    · subst last
      omega
    · have before := ih (by omega) (by omega)
      omega

def glue (r : List α) : List (List α) → List (List α)
  | [] => []
  | l :: ls => (r ++ l) :: ls

def carry (r : List α) (ls : List (List α)) (t : List α) : List α := if ls.isEmpty then r ++ t else t

theorem glue_nil (ls : List (List α)) : glue [] ls = ls := by
  cases ls <;> rfl

theorem glue_glue (r t : List α) (ls : List (List α)) : glue r (glue t ls) = glue (r ++ t) ls := by
  cases ls with
  | nil => rfl
  | cons l ls => rw [glue,glue,glue,List.append_assoc]

theorem glue_length (r : List α) (ls : List (List α)) : (glue r ls).length = ls.length := by
  cases ls <;> rfl

theorem joined_glue (r : List α) (ls : List (List α)) (t : List α) : joined mark (glue r ls) ++ carry r ls t = r ++ (joined mark ls ++ t) := by
  cases ls with
  | nil => rfl
  | cons l ls =>
    rw [glue,joined_cons,joined_cons,carry,List.isEmpty_cons,if_neg Bool.false_ne_true]
    simp only [List.append_assoc,List.cons_append]

variable [DecidableEq α]

def cut (mark : α) : List α → List (List α) × List α
  | [] => ([],[])
  | c :: x =>
    if c = mark then ([] :: (cut mark x).1,(cut mark x).2)
    else (glue [c] (cut mark x).1,carry [c] (cut mark x).1 (cut mark x).2)

theorem cut_append (mark : α) (x y : List α) : cut mark (x ++ y) =
    ((cut mark x).1 ++ glue (cut mark x).2 (cut mark y).1,carry (cut mark x).2 (cut mark y).1 (cut mark y).2) := by
  induction x with
  | nil =>
    simp only [List.nil_append,cut,glue_nil,carry]
    split <;> rfl
  | cons c x ih =>
    rw [List.cons_append,cut,cut,ih]
    split
    · rfl
    cases first : (cut mark x).1 with
    | nil =>
      cases (cut mark y).1 <;> rfl
    | cons l ls => rfl

theorem cut_clean (clean : mark ∉ x) : cut mark x = ([],x) := by
  induction x with
  | nil => rfl
  | cons c x ih =>
    rw [List.mem_cons,not_or] at clean
    rw [cut,if_neg (Ne.symm clean.1),ih clean.2]
    rfl

theorem cut_line (clean : mark ∉ x) (y : List α) : cut mark (x ++ mark :: y) = (x :: (cut mark y).1,(cut mark y).2) := by
  rw [cut_append,cut_clean clean,cut,if_pos rfl]
  simp only [glue,List.nil_append,List.append_nil,carry,List.isEmpty_cons,Bool.false_eq_true,reduceIte]

theorem cut_joined (clean : ∀ l ∈ ls, mark ∉ l) (rest : mark ∉ r) : cut mark (joined mark ls ++ r) = (ls,r) := by
  induction ls with
  | nil => exact cut_clean rest
  | cons l ls ih =>
    rw [joined_cons,List.append_assoc,List.cons_append,cut_line (clean l List.mem_cons_self),ih fun m later => clean m (List.mem_cons_of_mem _ later)]

theorem joined_cut (mark : α) (x : List α) : joined mark (cut mark x).1 ++ (cut mark x).2 = x := by
  induction x with
  | nil => rfl
  | cons c x ih =>
    rw [cut]
    split
    · rename_i same
      rw [joined_cons,same]
      exact congrArg (mark :: ·) ih
    · rw [joined_glue,ih]
      rfl

theorem cut_rest_length (mark : α) (x : List α) : (cut mark x).2.length ≤ x.length := by
  have whole := congrArg List.length (joined_cut mark x)
  rw [List.length_append] at whole
  omega

theorem cut_count (mark : α) (x : List α) : (cut mark x).1.length = x.count mark := by
  induction x with
  | nil => rfl
  | cons c x ih =>
    rw [cut]
    split
    · rename_i same
      rw [same,List.length_cons,List.count_cons_self,ih]
    · rename_i other
      rw [glue_length,List.count_cons_of_ne other,ih]

theorem cut_rest (mark : α) (x : List α) : mark ∉ (cut mark x).2 := by
  induction x with
  | nil => exact List.not_mem_nil
  | cons c x ih =>
    rw [cut]
    split
    · exact ih
    rename_i other
    unfold carry
    split
    · rw [List.singleton_append,List.mem_cons,not_or]
      exact ⟨Ne.symm other,ih⟩
    · exact ih

end Lines
