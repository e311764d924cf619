import Mathlib.Algebra.Group.Nat.Defs
import Mathlib.Logic.Function.Basic

namespace Xv6.Memmove

open Function (update)

-- string.c on 32 bit memory: pointer arithmetic wraps.
abbrev Memory := BitVec 32 → UInt8

def forward (m : Memory) (d s : BitVec 32) : Nat → Memory
  | 0 => m
  | n+1 => forward (update m d (m s)) (d+1) (s+1) n

def backward (m : Memory) (d s : BitVec 32) : Nat → Memory
  | 0 => m
  | n+1 => backward (update m (d-1) (m (s-1))) (d-1) (s-1) n

def memmove (m : Memory) (dst src n : BitVec 32) : Memory :=
  if src < dst ∧ src+n > dst then backward m (dst+n) (src+n) n.toNat else forward m dst src n.toNat

variable {m : Memory} {d s : BitVec 32} {n : Nat}

-- Going up, a written byte is read again only if d lies inside the source.
theorem forward_at (apart : d = s ∨ n ≤ (d-s).toNat) (fits : n ≤ 2^32) (a : BitVec 32) :
    forward m d s n a = if (a-d).toNat < n then m (s+(a-d)) else m a := by
  induction n generalizing m d s with
  | zero => rw [if_neg (Nat.not_lt_zero _),forward]
  | succ n ih =>
    rw [forward,ih (by bv_omega) (by omega)]
    by_cases here : a = d
    · rw [here,if_neg (by bv_omega),if_pos (by bv_omega),Function.update_self,show s+(d-d) = s by bv_omega]
    have step : (a-d).toNat = (a-(d+1)).toNat+1 := by bv_omega
    rw [step,show s+1+(a-(d+1)) = s+(a-d) by bv_omega,Function.update_of_ne here]
    simp only [Nat.add_lt_add_iff_right]
    split
    · rw [Function.update_of_ne (by bv_omega)]
    · rfl

-- Going down, only if s lies inside the destination. Here d and s are the ends.
theorem backward_at (apart : d = s ∨ n ≤ (s-d).toNat) (fits : n ≤ 2^32) (a : BitVec 32) :
    backward m d s n a = if (d-1-a).toNat < n then m (s-(d-a)) else m a := by
  induction n generalizing m d s with
  | zero => rw [if_neg (Nat.not_lt_zero _),backward]
  | succ n ih =>
    rw [backward,ih (by bv_omega) (by omega)]
    by_cases here : a = d-1
    · rw [here,if_neg (by bv_omega),if_pos (by bv_omega),Function.update_self,show d-(d-1) = 1 by bv_omega]
    have step : (d-1-a).toNat = (d-1-1-a).toNat+1 := by bv_omega
    rw [step,show s-1-(d-1-a) = s-(d-a) by bv_omega,Function.update_of_ne here]
    simp only [Nat.add_lt_add_iff_right]
    split
    · rw [Function.update_of_ne (by bv_omega)]
    · rfl

-- Distances from the ends, as distances from the starts.
theorem from_end (d n a : BitVec 32) : d+n-a = n-(a-d) := by bv_omega
theorem from_last (d n a : BitVec 32) : d+n-1-a = n-1-(a-d) := by bv_omega
theorem end_back (s n x : BitVec 32) : s+n-(n-x) = s+x := by bv_omega
theorem last_back (n x : BitVec 32) : (n-1-x).toNat < n.toNat ↔ x.toNat < n.toNat := by bv_omega
theorem ends_apart (d s n : BitVec 32) : s+n-(d+n) = s-d := by bv_omega

-- A source ending at the top of memory wraps to zero and goes up: its
-- destination cannot lie above it.
theorem up_apart {d s n : BitVec 32} (high : d.toNat+n.toNat ≤ 2^32) (low : s.toNat+n.toNat ≤ 2^32) (outside : ¬ (s < d ∧ s+n > d)) :
    d = s ∨ n.toNat ≤ (d-s).toNat := by
  by_cases below : s < d
  · have beyond : ¬ d < s+n := fun inside => outside ⟨below,inside⟩
    bv_omega
  · bv_omega

theorem memmove_at (m : Memory) (dst src n a : BitVec 32) (high : dst.toNat+n.toNat ≤ 2^32) (low : src.toNat+n.toNat ≤ 2^32) :
    memmove m dst src n a = if (a-dst).toNat < n.toNat then m (src+(a-dst)) else m a := by
  unfold memmove
  split
  · rename_i inside
    have apart : n.toNat ≤ (src+n-(dst+n)).toNat := by
      rw [ends_apart]
      have below := inside.1
      bv_omega
    rw [backward_at (.inr apart) (by omega),from_last,from_end dst,end_back]
    simp only [last_back]
  · rename_i outside
    exact forward_at (up_apart high low outside) (by omega) a

theorem memmove_moves (m : Memory) (dst src n : BitVec 32) (high : dst.toNat+n.toNat ≤ 2^32) (low : src.toNat+n.toNat ≤ 2^32) :
    (∀ i < n, memmove m dst src n (dst+i) = m (src+i)) ∧
      ∀ a, (a < dst ∨ dst.toNat+n.toNat ≤ a.toNat) → memmove m dst src n a = m a := by
  constructor
  · intro i inside
    have index : dst+i-dst = i := by bv_omega
    rw [memmove_at m dst src n _ high low,index,if_pos (by bv_omega)]
  · intro a outside
    rw [memmove_at m dst src n a high low,if_neg (by bv_omega)]

theorem memmove_moves_up : (∀ i < 3, memmove (fun a => .ofNat a.toNat) 5 4 3 (5+i) = .ofNat (4+i : BitVec 32).toNat) ∧
    ∀ a, (a < 5 ∨ (5 : BitVec 32).toNat+(3 : BitVec 32).toNat ≤ a.toNat) → memmove (fun a => .ofNat a.toNat) 5 4 3 a = .ofNat a.toNat :=
  memmove_moves (fun a => .ofNat a.toNat) 5 4 3 (by decide) (by decide)

end Xv6.Memmove
