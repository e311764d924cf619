import Mathlib.Tactic.Common

namespace Chunks

-- Cutting a byte range at the multiples of a block size B: the offsets and
-- lengths that a block-by-block copy loop visits. The fuel bounds the number of
-- pieces, and n pieces always suffice since none is empty.
def cut (B : Nat) : Nat → Nat → Nat → List (Nat × Nat)
  | 0,_,_ => []
  | fuel+1,off,n =>
    if n = 0 then [] else
      let m := min n (B - off % B)
      (off,m) :: cut B fuel (off+m) (n-m)

def chunks (B off n : Nat) : List (Nat × Nat) := cut B n off n

theorem piece_pos (off : Nat) (positive : 0 < B) (some : n ≠ 0) : 0 < min n (B - off % B) := by
  have inside := Nat.mod_lt off positive
  omega

theorem cut_fuel (positive : 0 < B) (one : n ≤ f) (two : n ≤ g) : cut B f off n = cut B g off n := by
  induction f generalizing g off n with
  | zero =>
    obtain rfl : n = 0 := by omega
    cases g <;> simp [cut]
  | succ f ih =>
    cases g with
    | zero =>
      obtain rfl : n = 0 := by omega
      simp [cut]
    | succ g =>
      simp only [cut]
      split
      · rfl
      · rename_i some
        have step := piece_pos off positive some
        rw [ih (g := g) (by omega) (by omega)]

theorem chunks_zero (B off : Nat) : chunks B off 0 = [] := rfl

theorem chunks_step (positive : 0 < B) (some : n ≠ 0) :
    chunks B off n = (off,min n (B - off % B)) ::
      chunks B (off + min n (B - off % B)) (n - min n (B - off % B)) := by
  have step := piece_pos off positive some
  have enough : n = n-1+1 := by omega
  have unfolded : cut B n off n = cut B (n-1+1) off n := by rw [← enough]
  rw [chunks,unfolded,cut,if_neg some]
  have fuel : cut B (n-1) (off + min n (B - off % B)) (n - min n (B - off % B)) =
      chunks B (off + min n (B - off % B)) (n - min n (B - off % B)) :=
    cut_fuel positive (by omega) .refl
  simp only [fuel]

theorem chunks_induct (positive : 0 < B) {motive : Nat → Nat → Prop} (zero : ∀ off, motive off 0)
    (step : ∀ off n m, n ≠ 0 → m = min n (B - off % B) → 0 < m → motive (off+m) (n-m) → motive off n) :
    ∀ off n, motive off n := by
  intro off n
  induction n using Nat.strongRecOn generalizing off with
  | ind n ih =>
    by_cases none : n = 0
    · subst none; exact zero off
    · have some := piece_pos off positive none
      exact step off n _ none rfl some (ih _ (by omega) _)

end Chunks
