import Mathlib.Data.List.Basic

namespace Xv6.Shell

-- ulib.c: the string functions that the shell uses. A string that is only read is the list of its
-- characters before the NUL; memory that is written is a map of offsets.

def strchr (s : List UInt8) (c : UInt8) : Bool := s.contains c

def memset (m : Nat → UInt8) (s n : Nat) : Nat → UInt8 := fun q => if s ≤ q ∧ q < s+n then 0 else m q

def strcpy (m : Nat → UInt8) (s : Nat) (t : List UInt8) : Nat → UInt8 :=
  fun q => if s ≤ q ∧ q < s+t.length then t.getD (q-s) 0 else if q = s+t.length then 0 else m q

-- The second string goes over the NUL of the first.
def strcat (m : Nat → UInt8) (dst : Nat) (s1 s2 : List UInt8) : Nat → UInt8 := strcpy (strcpy m dst s1) (dst+s1.length) s2

def substring (src : List UInt8) (start stop : Nat) : List UInt8 := (src.drop start).take (stop - start)

structure Reads (m : Nat → UInt8) (p : Nat) (text : List UInt8) : Prop where
  chars : ∀ i < text.length, m (p+i) = text.getD i 0
  solid : 0 ∉ text
  nul : m (p + text.length) = 0

theorem strcpy_char (m : Nat → UInt8) (s : Nat) (t : List UInt8) (inside : i < t.length) : strcpy m s t (s+i) = t.getD i 0 := by
  unfold strcpy
  rw [if_pos (by omega),Nat.add_sub_cancel_left]

theorem strcpy_nul (m : Nat → UInt8) (s : Nat) (t : List UInt8) : strcpy m s t (s+t.length) = 0 := by
  unfold strcpy
  rw [if_neg (by omega),if_pos rfl]

theorem strcpy_other (m : Nat → UInt8) (t : List UInt8) (outside : q < s ∨ s+t.length < q) : strcpy m s t q = m q := by
  unfold strcpy
  rw [if_neg (by omega),if_neg (by omega)]

theorem strcat_eq (m : Nat → UInt8) (dst : Nat) (s1 s2 : List UInt8) : strcat m dst s1 s2 = strcpy m dst (s1 ++ s2) := by
  funext q
  unfold strcat strcpy
  rw [List.length_append]
  by_cases low : q < dst
  · simp only [show ¬ (dst + s1.length ≤ q ∧ q < dst + s1.length + s2.length) by omega,show q ≠ dst + s1.length + s2.length by omega,
      show ¬ (dst ≤ q ∧ q < dst + s1.length) by omega,show q ≠ dst + s1.length by omega,show ¬ (dst ≤ q ∧ q < dst + (s1.length + s2.length)) by omega,
      show q ≠ dst + (s1.length + s2.length) by omega,reduceIte]
  obtain ⟨i,rfl⟩ := Nat.exists_eq_add_of_le (Nat.le_of_not_lt low)
  by_cases first : i < s1.length
  · rw [if_neg (by omega),if_neg (by omega),if_pos (by omega),if_pos (by omega),Nat.add_sub_cancel_left]
    simp only [List.getD_eq_getElem?_getD,List.getElem?_append_left first]
  by_cases second : i < s1.length + s2.length
  · rw [if_pos (by omega),if_pos (by omega),Nat.add_sub_cancel_left,Nat.add_sub_add_left]
    simp only [List.getD_eq_getElem?_getD,List.getElem?_append_right (Nat.le_of_not_lt first)]
  · by_cases last : i = s1.length + s2.length
    · rw [if_neg (by omega),if_pos (by omega),if_neg (by omega),if_pos (by omega)]
    · rw [if_neg (by omega),if_neg (by omega),if_neg (by omega),if_neg (by omega),if_neg (by omega),if_neg (by omega)]

end Xv6.Shell
