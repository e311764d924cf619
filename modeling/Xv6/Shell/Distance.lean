import Xv6.Lib.Edit

namespace Xv6.Shell
open Edit

-- sh.c: stringdistance. A string is the list of its characters before the NUL, and a grid
-- is an array of rows. Each loop is told by how many turns it has made.

abbrev Grid := Nat → Nat → Nat

def Grid.set (dp : Grid) (i j v : Nat) : Grid := fun a b => if a = i ∧ b = j then v else dp a b

def threeintmin (x1 x2 x3 : Nat) : Nat :=
  if x1 ≤ x2 ∧ x1 ≤ x3 then x1
  else if x2 ≤ x1 ∧ x2 ≤ x3 then x2
  else x3

-- dp[i][0] = i and dp[0][i] = i.
def firstColumn (dp : Grid) : Nat → Grid
  | 0 => dp
  | i+1 => (firstColumn dp i).set i 0 i

def firstRow (dp : Grid) : Nat → Grid
  | 0 => dp
  | i+1 => (firstRow dp i).set 0 i i

def cell (s1 s2 : List UInt8) (dp : Grid) (i j : Nat) : Nat :=
  if s1.getD (i-1) 0 = s2.getD (j-1) 0 then dp (i-1) (j-1)
  else threeintmin (dp i (j-1)) (dp (i-1) j) (dp (i-1) (j-1)) + 1

def fillRow (s1 s2 : List UInt8) (dp : Grid) (i : Nat) : Nat → Grid
  | 0 => dp
  | j+1 => (fillRow s1 s2 dp i j).set i (j+1) (cell s1 s2 (fillRow s1 s2 dp i j) i (j+1))

def fillRows (s1 s2 : List UInt8) (dp : Grid) : Nat → Grid
  | 0 => dp
  | i+1 => fillRow s1 s2 (fillRows s1 s2 dp i) (i+1) s2.length

-- dp is what malloc gives, with anything in it.
def stringdistance (dp : Grid) (s1 s2 : List UInt8) : Nat :=
  let len1 := s1.length
  let len2 := s2.length
  let dp := firstColumn dp (len1+1)
  let dp := firstRow dp (len2+1)
  let dp := dp.set 0 0 0
  fillRows s1 s2 dp len1 len1 len2

section
variable {s1 s2 : List UInt8} {dp : Grid}

theorem Grid.set_same (dp : Grid) (i j v : Nat) : dp.set i j v i j = v := if_pos ⟨rfl,rfl⟩

theorem Grid.set_other (dp : Grid) (v : Nat) (other : ¬ (a = i ∧ b = j)) : dp.set i j v a b = dp a b := if_neg other

theorem threeintmin_eq (x1 x2 x3 : Nat) : threeintmin x1 x2 x3 = min (min x1 x2) x3 := by
  unfold threeintmin
  split
  · omega
  · split <;> omega

theorem firstColumn_done (dp : Grid) (a : Nat) : ∀ n, a < n → firstColumn dp n a 0 = a := by
  intro n
  induction n with
  | zero => intro small; omega
  | succ n ih =>
    intro small
    rw [firstColumn]
    by_cases last : a = n
    · subst last
      exact Grid.set_same ..
    · rw [Grid.set_other _ _ fun both => last both.1]
      exact ih (by omega)

theorem firstRow_done (dp : Grid) (b : Nat) : ∀ n, b < n → firstRow dp n 0 b = b := by
  intro n
  induction n with
  | zero => intro small; omega
  | succ n ih =>
    intro small
    rw [firstRow]
    by_cases last : b = n
    · subst last
      exact Grid.set_same ..
    · rw [Grid.set_other _ _ fun both => last both.2]
      exact ih (by omega)

theorem firstRow_below (dp : Grid) (below : 0 < a) (n : Nat) : firstRow dp n a b = dp a b := by
  induction n with
  | zero => rfl
  | succ n ih =>
    rw [firstRow,Grid.set_other _ _ fun both => by omega]
    exact ih

def upTo (s1 s2 : List UInt8) (i j : Nat) : Nat := dist (s1.take i).reverse (s2.take j).reverse

theorem take_reverse (s : List UInt8) (inside : i < s.length) : (s.take (i+1)).reverse = s.getD i 0 :: (s.take i).reverse := by
  rw [List.take_succ_eq_append_getElem inside,List.reverse_append,List.getD_eq_getElem?_getD,List.getElem?_eq_getElem inside]
  rfl

theorem cell_eq (one : i < s1.length) (two : j < s2.length) (diagonal : dp i j = upTo s1 s2 i j) (left : dp (i+1) j = upTo s1 s2 (i+1) j)
    (above : dp i (j+1) = upTo s1 s2 i (j+1)) : cell s1 s2 dp (i+1) (j+1) = upTo s1 s2 (i+1) (j+1) := by
  have whole : upTo s1 s2 (i+1) (j+1) = dist (s1.getD i 0 :: (s1.take i).reverse) (s2.getD j 0 :: (s2.take j).reverse) := by
    rw [upTo,take_reverse s1 one,take_reverse s2 two]
  unfold cell
  rw [Nat.add_sub_cancel,Nat.add_sub_cancel]
  split
  · rename_i same
    rw [whole,same,dist_same,diagonal,upTo]
  · rename_i other
    rw [whole,dist_other other,threeintmin_eq,diagonal,left,above,upTo,upTo,upTo,take_reverse s1 one,take_reverse s2 two]

structure Filled (s1 s2 : List UInt8) (dp : Grid) (i j : Nat) : Prop where
  rows : ∀ a < i, ∀ b ≤ s2.length, dp a b = upTo s1 s2 a b
  row : ∀ b ≤ j, dp i b = upTo s1 s2 i b
  column : ∀ a ≤ s1.length, dp a 0 = a

theorem fillRow_filled (inside : i < s1.length) (filled : Filled s1 s2 dp (i+1) 0) :
    ∀ j ≤ s2.length, Filled s1 s2 (fillRow s1 s2 dp (i+1) j) (i+1) j := by
  intro j
  induction j with
  | zero => exact fun _ => filled
  | succ j ih =>
    intro short
    have before := ih (by omega)
    have new := cell_eq inside (show j < s2.length by omega) (before.rows i (by omega) j (by omega)) (before.row j .refl)
      (before.rows i (by omega) (j+1) short)
    rw [fillRow]
    refine ⟨fun a low b narrow => ?_,fun b narrow => ?_,fun a low => ?_⟩
    · rw [Grid.set_other _ _ fun both => by omega]
      exact before.rows a low b narrow
    · by_cases last : b = j+1
      · subst last
        rw [Grid.set_same]
        exact new
      · rw [Grid.set_other _ _ fun both => last both.2]
        exact before.row b (by omega)
    · rw [Grid.set_other _ _ fun both => by omega]
      exact before.column a low

theorem upTo_column (low : i ≤ s1.length) : upTo s1 s2 i 0 = i := by
  rw [upTo,List.take_zero,List.reverse_nil,dist_nil,List.length_reverse,List.length_take,Nat.min_eq_left low]

theorem upTo_row (low : j ≤ s2.length) : upTo s1 s2 0 j = j := by
  rw [upTo,List.take_zero,List.reverse_nil,nil_dist,List.length_reverse,List.length_take,Nat.min_eq_left low]

theorem fillRows_filled (filled : Filled s1 s2 dp 0 s2.length) :
    ∀ i ≤ s1.length, Filled s1 s2 (fillRows s1 s2 dp i) i s2.length := by
  intro i
  induction i with
  | zero => exact fun _ => filled
  | succ i ih =>
    intro low
    have before := ih (by omega)
    rw [fillRows]
    refine fillRow_filled low ⟨fun a small b narrow => ?_,fun b none => ?_,before.column⟩ s2.length .refl
    · by_cases last : a = i
      · subst last
        exact before.row b narrow
      · exact before.rows a (by omega) b narrow
    · obtain rfl : b = 0 := by omega
      rw [before.column (i+1) low,upTo_column low]

theorem borders_filled (dp : Grid) : Filled s1 s2 ((firstRow (firstColumn dp (s1.length+1)) (s2.length+1)).set 0 0 0) 0 s2.length := by
  refine ⟨fun a none => by omega,fun b narrow => ?_,fun a low => ?_⟩
  · rw [upTo_row narrow]
    by_cases corner : b = 0
    · subst corner
      exact Grid.set_same ..
    · rw [Grid.set_other _ _ fun both => corner both.2]
      exact firstRow_done _ b _ (by omega)
  · by_cases corner : a = 0
    · subst corner
      exact Grid.set_same ..
    · rw [Grid.set_other _ _ fun both => corner both.1,firstRow_below _ (by omega)]
      exact firstColumn_done _ a _ (by omega)

theorem stringdistance_eq (dp : Grid) (s1 s2 : List UInt8) : stringdistance dp s1 s2 = dist s1 s2 := by
  have borders : Filled s1 s2 _ 0 s2.length := borders_filled dp
  have filled := fillRows_filled borders s1.length .refl
  have last := filled.row s2.length .refl
  rw [upTo,List.take_length,List.take_length,dist_reverse] at last
  exact last

-- As many edits as stringdistance says are enough, and no fewer are.
theorem stringdistance_least (dp : Grid) (s1 s2 : List UInt8) :
    Script (stringdistance dp s1 s2) s1 s2 ∧ ∀ n, Script n s1 s2 → stringdistance dp s1 s2 ≤ n := by
  rw [stringdistance_eq]
  exact ⟨script_dist s1 s2,fun n script => script.dist_le⟩

end
end Xv6.Shell
