import Mathlib.Data.List.Perm.Subperm

namespace Bubble

-- Bubble sort of the first n entries of an array. A pass is told by the comparisons made,
-- the sort by the passes made: pass i+1 makes n-1-i comparisons.

variable {α : Type}

def swapped (z : Nat → α) (j : Nat) : Nat → α := fun a => if a = j then z (j+1) else if a = j+1 then z j else z a

def compare (key : α → Nat) (z : Nat → α) (j : Nat) : Nat → α := if key (z j) > key (z (j+1)) then swapped z j else z

def pass (key : α → Nat) (z : Nat → α) : Nat → Nat → α
  | 0 => z
  | j+1 => compare key (pass key z j) j

def sort (key : α → Nat) (n : Nat) (z : Nat → α) : Nat → Nat → α
  | 0 => z
  | i+1 => pass key (sort key n z i) (n-1-i)

variable {key : α → Nat} {z : Nat → α}

theorem swapped_left (z : Nat → α) (j : Nat) : swapped z j j = z (j+1) := if_pos rfl

theorem swapped_right (z : Nat → α) (j : Nat) : swapped z j (j+1) = z j := by
  unfold swapped
  rw [if_neg (by omega),if_pos rfl]

theorem swapped_other (left : a ≠ j) (right : a ≠ j+1) : swapped z j a = z a := by
  unfold swapped
  rw [if_neg left,if_neg right]

def Swapping (key : α → Nat) (n : Nat) (P : (Nat → α) → Prop) : Prop :=
  ∀ z j, j+1 < n → key (z (j+1)) < key (z j) → P z → P (swapped z j)

variable {P : (Nat → α) → Prop}

theorem pass_keeps (swapping : Swapping key n P) (start : P z) : ∀ j, j < n → P (pass key z j) := by
  intro j
  induction j with
  | zero => exact fun _ => start
  | succ j ih =>
    intro inside
    have before := ih (by omega)
    rw [pass,compare]
    split
    · rename_i wrong
      exact swapping _ j inside wrong before
    · exact before

theorem sort_keeps (swapping : Swapping key n P) (start : P z) : ∀ i, i < n → P (sort key n z i) := by
  intro i
  induction i with
  | zero => exact fun _ => start
  | succ i ih =>
    intro inside
    exact pass_keeps swapping (ih (by omega)) _ (by omega)

def Settled (key : α → Nat) (n : Nat) (z : Nat → α) (m : Nat) : Prop := ∀ a b, a < b → m ≤ b → b < n → key (z a) ≤ key (z b)

theorem settled_swapped (low : j+1 < m) (settled : Settled key n z m) : Settled key n (swapped z j) m := by
  intro a b less late inside
  rw [swapped_other (show b ≠ j by omega) (show b ≠ j+1 by omega)]
  by_cases left : a = j
  · subst left
    rw [swapped_left]
    exact settled _ b (by omega) late inside
  by_cases right : a = j+1
  · subst right
    rw [swapped_right]
    exact settled _ b (by omega) late inside
  · rw [swapped_other left right]
    exact settled a b less late inside

theorem compare_greatest (greatest : ∀ a < j, key (z a) ≤ key (z j)) : ∀ a < j+1, key (compare key z j a) ≤ key (compare key z j (j+1)) := by
  intro a less
  unfold compare
  split
  · rename_i wrong
    rw [swapped_right]
    by_cases left : a = j
    · subst left
      rw [swapped_left]
      omega
    · rw [swapped_other left (by omega)]
      exact greatest a (by omega)
  · rename_i right
    by_cases last : a = j
    · subst last
      omega
    · have old := greatest a (by omega)
      omega

theorem pass_settled (settled : Settled key n z m) : ∀ j < m, Settled key n (pass key z j) m ∧ ∀ a < j, key (pass key z j a) ≤ key (pass key z j j) := by
  intro j
  induction j with
  | zero => exact fun _ => ⟨settled,fun a none => by omega⟩
  | succ j ih =>
    intro low
    obtain ⟨before,greatest⟩ := ih (by omega)
    refine ⟨?_,compare_greatest greatest⟩
    rw [pass,compare]
    split
    · exact settled_swapped low before
    · exact before

theorem sort_settled (key : α → Nat) (z : Nat → α) : ∀ i < n, Settled key n (sort key n z i) (n-i) := by
  intro i
  induction i with
  | zero => exact fun _ a b _ late inside => by omega
  | succ i ih =>
    intro inside
    obtain ⟨settled,greatest⟩ := pass_settled (ih (by omega)) (n-1-i) (by omega)
    intro a b less late small
    by_cases new : b = n-1-i
    · subst new
      exact greatest a less
    · exact settled a b less (by omega) small

theorem sort_sorted (key : α → Nat) (n : Nat) (z : Nat → α) (less : a < b) (inside : b < n) :
    key (sort key n z (n-1) a) ≤ key (sort key n z (n-1) b) :=
  sort_settled key z (n-1) (by omega) a b less (by omega) inside

def Stable (key mark : α → Nat) (n : Nat) (z : Nat → α) : Prop :=
  ∀ a b, a < b → b < n → key (z a) = key (z b) → mark (z a) < mark (z b)

theorem stable_swapping (key mark : α → Nat) (n : Nat) : Swapping key n (Stable key mark n) := by
  intro z j inside wrong stable a b less small
  by_cases left : a = j
  · subst left
    rw [swapped_left]
    by_cases next : b = a+1
    · subst next
      rw [swapped_right]
      omega
    · rw [swapped_other (by omega) next]
      exact stable _ b (by omega) small
  · by_cases right : a = j+1
    · subst right
      rw [swapped_right,swapped_other (show b ≠ j by omega) (by omega)]
      exact stable j b (by omega) small
    rw [swapped_other left right]
    by_cases first : b = j
    · subst first
      rw [swapped_left]
      exact stable a _ (by omega) inside
    by_cases second : b = j+1
    · subst second
      rw [swapped_right]
      exact stable a j (by omega) (by omega)
    · rw [swapped_other first second]
      exact stable a b less small

def Present (n : Nat) (x : α) (z : Nat → α) : Prop := ∃ a < n, z a = x

theorem present_swapping (key : α → Nat) (n : Nat) (x : α) : Swapping key n (Present n x) := by
  rintro z j inside - ⟨a,small,rfl⟩
  by_cases left : a = j
  · subst left
    exact ⟨a+1,inside,swapped_right z a⟩
  · by_cases right : a = j+1
    · subst right
      exact ⟨j,by omega,swapped_left z j⟩
    · exact ⟨a,small,swapped_other left right⟩

end Bubble
