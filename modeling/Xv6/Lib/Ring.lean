import Mathlib.Tactic.Common

namespace Ring

-- A ring of C cells with two counters that wrap at W: r counts what was taken and w
-- what was put. Cell n of the stream lies at n % C, so C has to divide W.

def count (W r w : Nat) : Nat := (w + (W - r)) % W

def contents (C W : Nat) (cells : Nat → α) (r w : Nat) : List α :=
  (List.range (count W r w)).map fun k => cells ((r + k) % C)

section
variable {C W r w : Nat}

theorem count_lt (positive : 0 < W) (r w : Nat) : count W r w < W := Nat.mod_lt _ positive

theorem count_self (below : r < W) : count W r r = 0 := by
  unfold count
  rw [Nat.add_sub_cancel' (Nat.le_of_lt below),Nat.mod_self]

section
variable (belowR : r < W)
include belowR

theorem write_eq (belowW : w < W) : w = (r + count W r w) % W := by
  unfold count
  by_cases order : r ≤ w
  · have wrapped : w + (W-r) = W + (w-r) := by omega
    rw [wrapped,Nat.add_mod_left,Nat.mod_eq_of_lt (show w-r < W by omega),Nat.add_sub_cancel' order,Nat.mod_eq_of_lt belowW]
  · rw [Nat.mod_eq_of_lt (show w + (W-r) < W by omega)]
    have wrapped : r + (w + (W-r)) = W + w := by omega
    rw [wrapped,Nat.add_mod_left,Nat.mod_eq_of_lt belowW]

theorem count_of_write (below : n < W) : count W r ((r+n) % W) = n := by
  unfold count
  by_cases wraps : r+n < W
  · rw [Nat.mod_eq_of_lt wraps,show r+n+(W-r) = W+n by omega,Nat.add_mod_left,Nat.mod_eq_of_lt below]
  · have inner : (r+n) % W = r+n-W := by rw [Nat.mod_eq_sub_mod (by omega),Nat.mod_eq_of_lt (by omega)]
    rw [inner,show r+n-W+(W-r) = n by omega,Nat.mod_eq_of_lt below]

theorem count_eq_iff (belowW : w < W) (below : n < W) : w = (r+n) % W ↔ count W r w = n := by
  constructor
  · rintro rfl
    exact count_of_write belowR below
  · rintro rfl
    exact write_eq belowR belowW

theorem count_put (belowW : w < W) (room : count W r w + 1 < W) :
    count W r ((w+1) % W) = count W r w + 1 := by
  have next : (w+1) % W = (r + (count W r w + 1)) % W := by
    conv_lhs => rw [write_eq belowR belowW]
    rw [Nat.mod_add_mod,Nat.add_assoc]
  rw [next,count_of_write belowR room]

theorem count_take (belowW : w < W) (some : 0 < count W r w) :
    count W ((r+1) % W) w = count W r w - 1 := by
  have bounded := count_lt (show 0 < W by omega) r w
  have next : w = ((r+1) % W + (count W r w - 1)) % W := by
    rw [Nat.mod_add_mod,show r+1+(count W r w - 1) = r + count W r w by omega]
    exact write_eq belowR belowW
  conv_lhs => rw [next]
  exact count_of_write (Nat.mod_lt _ (by omega)) (by omega)

end

theorem contents_length (cells : Nat → α) : (contents C W cells r w).length = count W r w := by
  simp [contents]

theorem contents_put (divides : C ∣ W) (belowR : r < W) (belowW : w < W) (room : count W r w < C)
    (cells : Nat → α) (x : α) (more : C < W) :
    contents C W (Function.update cells (w % C) x) r ((w+1) % W) = contents C W cells r w ++ [x] := by
  have last : w % C = (r + count W r w) % C := by
    conv_lhs => rw [write_eq belowR belowW]
    exact Nat.mod_mod_of_dvd _ divides
  unfold contents
  rw [count_put belowR belowW (by omega),List.range_succ,List.map_append,List.map_singleton,last,Function.update_self]
  congr 1
  apply List.map_congr_left
  intro k inside
  rw [List.mem_range] at inside
  -- Two of the cells in use are less than C apart.
  have apart : (r+k) % C ≠ (r + count W r w) % C := by
    intro same
    have fewer := Nat.sub_mod_eq_zero_of_mod_eq same.symm
    rw [show r + count W r w - (r+k) = count W r w - k by omega,Nat.mod_eq_of_lt (by omega)] at fewer
    omega
  rw [Function.update_of_ne apart]

theorem contents_take (divides : C ∣ W) (belowR : r < W) (belowW : w < W) (some : 0 < count W r w) (cells : Nat → α) :
    contents C W cells r w = cells (r % C) :: contents C W cells ((r+1) % W) w := by
  unfold contents
  rw [count_take belowR belowW some]
  obtain ⟨n,more⟩ : ∃ n, count W r w = n+1 := ⟨count W r w - 1,by omega⟩
  rw [more,List.range_succ_eq_map,List.map_cons,List.map_map,Nat.add_zero,Nat.add_sub_cancel]
  congr 1
  apply List.map_congr_left
  intro k _
  simp only [Function.comp_apply]
  congr 1
  rw [← Nat.mod_mod_of_dvd ((r+1) % W + k) divides,Nat.mod_add_mod,Nat.mod_mod_of_dvd _ divides]
  congr 1
  omega

theorem contents_self (cells : Nat → α) (below : r < W) : contents C W cells r r = [] := by
  rw [contents,count_self below,List.range_zero,List.map_nil]

theorem contents_cut (cells : Nat → α) (belowR : r < W) (belowW : w < W) (fewer : n ≤ count W r w) :
    contents C W cells r ((r+n) % W) = (contents C W cells r w).take n := by
  have bounded := count_lt (show 0 < W by omega) r w
  rw [contents,contents,count_of_write belowR (by omega),← List.map_take,List.take_range,Nat.min_eq_left fewer]

theorem contents_drop (divides : C ∣ W) (cells : Nat → α) (belowR : r < W) (belowW : w < W) (fewer : n ≤ count W r w) :
    contents C W cells ((r+n) % W) w = (contents C W cells r w).drop n := by
  induction n generalizing r with
  | zero => rw [Nat.add_zero,Nat.mod_eq_of_lt belowR,List.drop_zero]
  | succ n ih =>
    have next := count_take belowR belowW (by omega)
    have rest := ih (r := (r+1) % W) (Nat.mod_lt _ (by omega)) (by omega)
    rw [Nat.mod_add_mod,show r+1+n = r+(n+1) by omega] at rest
    rw [rest,contents_take divides belowR belowW (by omega),List.drop_succ_cons]

end
end Ring
