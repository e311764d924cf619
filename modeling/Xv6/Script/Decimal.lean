import Mathlib.Data.List.TakeWhile
import Mathlib.Tactic.Common

namespace Xv6.Script

-- Integers as text: itoa of script.c, printint of printf.c for %d, atoi of ulib.c.

-- while(n != 0): the digits, the last one first. % and / are those of C.
def itoaLoop (n : Int) : List UInt8 := if n = 0 then [] else UInt8.ofNat (n.tmod 10+48).toNat :: itoaLoop (n.tdiv 10)
termination_by n.natAbs
decreasing_by
  rw [Int.natAbs_tdiv]
  exact Nat.div_lt_self (Int.natAbs_pos.mpr ‹_›) (by decide)

-- The string in a zeroed buffer.
def itoa (n : Int) : List UInt8 := (itoaLoop n).reverse

-- do ... while((x /= base) != 0).
def printLoop (x : Nat) : List UInt8 := UInt8.ofNat (x % 10+48) :: if x/10 = 0 then [] else printLoop (x/10)
termination_by x
decreasing_by omega

-- x is a uint.
def printint (xx : Int) : List UInt8 :=
  (if xx < 0 then printLoop ((-xx) % 4294967296).toNat ++ [45] else printLoop (xx % 4294967296).toNat).reverse

def isDigit (c : UInt8) : Bool := 48 ≤ c && c ≤ 57

-- n*10 + *s++ - '0'
def nextDigit (n : Int) (c : UInt8) : Int := n*10+(c.toNat-48)

-- An int wraps around.
def readDigits (s : List UInt8) : Int := (s.takeWhile isDigit).foldl (fun n c => (nextDigit n c).bmod 4294967296) 0

def atoi : List UInt8 → Int
  | 45 :: s => (-readDigits s).bmod 4294967296
  | s => readDigits s

theorem printLoop_digit (x : Nat) : ∀ c ∈ printLoop x, isDigit c = true := by
  induction x using Nat.strongRecOn with
  | _ x ih =>
    intro c member
    rw [printLoop] at member
    rcases List.mem_cons.mp member with rfl | more
    · have small : (UInt8.ofNat (x % 10+48)).toNat = x % 10+48 := UInt8.toNat_ofNat_of_lt' (by change x % 10+48 < 256; omega)
      have low : 48 ≤ (UInt8.ofNat (x % 10+48)).toNat := by omega
      have high : (UInt8.ofNat (x % 10+48)).toNat ≤ 57 := by omega
      exact Bool.and_eq_true_iff.mpr ⟨decide_eq_true low,decide_eq_true high⟩
    · split at more
      · cases more
      · exact ih (x/10) (by omega) c more

theorem itoaLoop_nat (x : Nat) (positive : 0 < x) : itoaLoop x = printLoop x := by
  induction x using Nat.strongRecOn with
  | _ x ih =>
    rw [itoaLoop,if_neg (by omega),printLoop]
    have digit : ((x : Int).tmod 10+48).toNat = x % 10+48 := by
      rw [Int.tmod_eq_emod_of_nonneg (by omega)]
      omega
    have rest : (x : Int).tdiv 10 = (x/10 : Nat) := by
      rw [Int.tdiv_eq_ediv_of_nonneg (by omega)]
      omega
    rw [digit,rest]
    congr 1
    split
    · rename_i last
      rw [last,itoaLoop]
      rfl
    · exact ih (x/10) (by omega) (by omega)

-- A sign changes the digits, and not how many there are.
theorem itoaLoop_length (n : Int) : (itoaLoop n).length = (itoaLoop n.natAbs).length := by
  induction size : n.natAbs using Nat.strongRecOn generalizing n with
  | _ size' ih =>
    rw [itoaLoop,itoaLoop.eq_def (size' : Int)]
    by_cases zero : n = 0
    · rw [if_pos zero,if_pos (by omega)]
    have rest : (size' : Int).tdiv 10 = ((n.tdiv 10).natAbs : Nat) := by
      rw [Int.natAbs_tdiv,size]
      rfl
    rw [if_neg zero,if_neg (by omega),List.length_cons,List.length_cons,rest]
    exact congrArg (·+1) (ih _ (by rw [Int.natAbs_tdiv,size]; exact Nat.div_lt_self (by omega) (by decide)) _ rfl)

theorem atoi_unsigned (plain : ∀ c ∈ s.head?, isDigit c = true) : atoi s = readDigits s := by
  unfold atoi
  split
  · cases plain 45 rfl
  · rfl

theorem atoi_printLoop (x : Nat) (small : x < 2147483648) : atoi (printLoop x).reverse = x := by
  rw [atoi_unsigned fun c first => printLoop_digit x c (List.mem_reverse.mp (List.mem_of_mem_head? first)),readDigits,List.takeWhile_eq_self_iff.mpr fun c member => printLoop_digit x c (List.mem_reverse.mp member),List.foldl_reverse]
  induction x using Nat.strongRecOn with
  | _ x ih =>
    have digit : (UInt8.ofNat (x % 10+48)).toNat = x % 10+48 := UInt8.toNat_ofNat_of_lt' (by change x % 10+48 < 256; omega)
    have front : (if x/10 = 0 then [] else printLoop (x/10)).foldr (fun c n => (nextDigit n c).bmod 4294967296) 0 = (x/10 : Nat) := by
      split
      · rename_i last
        rw [last]
        rfl
      · exact ih (x/10) (by omega) (by omega)
    rw [printLoop,List.foldr_cons,front,nextDigit,digit,Int.bmod_eq_of_le (by omega) (by omega)]
    omega

theorem conversions_agree (low : -2147483648 ≤ n) (high : n < 2147483648) : (itoa n = printint n ∧ atoi (itoa n) = n) ↔ 0 < n := by
  constructor
  · rintro ⟨same,_⟩
    by_contra bad
    have lengths := congrArg List.length same
    rw [itoa,printint,List.length_reverse,List.length_reverse,itoaLoop_length] at lengths
    by_cases zero : n = 0
    · subst zero
      rw [if_neg (by decide),printLoop,itoaLoop,if_pos (by decide)] at lengths
      cases lengths
    · -- printint has the sign besides
      rw [if_pos (by omega),show ((-n) % 4294967296).toNat = n.natAbs by omega,itoaLoop_nat _ (by omega),List.length_append] at lengths
      exact Nat.ne_of_lt (Nat.lt_succ_self _) lengths
  · intro positive
    obtain ⟨x,rfl⟩ := Int.eq_ofNat_of_zero_le (Int.le_of_lt positive)
    have text : itoa x = (printLoop x).reverse := congrArg List.reverse (itoaLoop_nat x (by omega))
    rw [text,printint,if_neg (by omega),show ((x : Int) % 4294967296).toNat = x by omega]
    exact ⟨rfl,atoi_printLoop x (by omega)⟩

theorem conversions_agree_42 : itoa 42 = printint 42 ∧ atoi (itoa 42) = 42 := (conversions_agree (by decide) (by decide)).mpr (by decide)

-- 0 has no digits.
theorem itoa_zero : itoa 0 = [] ∧ printint 0 = [48] := by
  constructor
  · rw [itoa,itoaLoop,if_pos rfl]
    rfl
  · rw [printint,if_neg (by decide),printLoop]
    rfl

end Xv6.Script
