import Mathlib.Data.List.Pairwise
import Mathlib.Data.List.Nodup
import Mathlib.Logic.Function.Basic

namespace Circular

-- Circular lists: a table of next pointers, and the nodes of a walk.
section
variable {α : Type} {next other : α → α} {a b e m t : α} {l r : List α}

def Chain (next : α → α) : α → List α → α → Prop
  | t,[],e => t = e
  | t,a :: l,e => t = a ∧ Chain next (next a) l e

theorem chain_append : Chain next t (l ++ r) e ↔ ∃ m, Chain next t l m ∧ Chain next m r e := by
  induction l generalizing t with
  | nil =>
    constructor
    · intro chain
      exact ⟨t,rfl,chain⟩
    · rintro ⟨m,rfl,chain⟩
      exact chain
  | cons a l ih =>
    constructor
    · rintro ⟨start,chain⟩
      obtain ⟨m,first,second⟩ := ih.mp chain
      exact ⟨m,⟨start,first⟩,second⟩
    · rintro ⟨m,⟨start,first⟩,second⟩
      exact ⟨start,ih.mpr ⟨m,first,second⟩⟩

theorem Chain.congr (chain : Chain next t l e) (same : ∀ a ∈ l, other a = next a) : Chain other t l e := by
  induction l generalizing t with
  | nil => exact chain
  | cons a l ih =>
    refine ⟨chain.1,?_⟩
    rw [same a List.mem_cons_self]
    exact ih chain.2 fun b member => same b (.tail _ member)

theorem Chain.head (chain : Chain next t (a :: l) e) : t = a := chain.1

theorem Chain.tail (chain : Chain next t (a :: l) e) : Chain next (next a) l e := chain.2

theorem Chain.rotate (ring : Chain next a (l ++ b :: r) a) (start : (l ++ b :: r).head? = some a) : Chain next b (b :: r ++ l) b := by
  obtain ⟨m,first,second⟩ := chain_append.mp ring
  cases l with
  | nil =>
    obtain rfl : b = a := Option.some.inj start
    rw [List.append_nil]
    exact ⟨rfl,second.2⟩
  | cons c l =>
    obtain rfl : c = a := Option.some.inj start
    have here : m = b := second.1
    rw [here] at first second
    exact chain_append.mpr ⟨c,second,first⟩

theorem Chain.nexts (chain : Chain next t l e) : t :: l.map next = l ++ [e] := by
  induction l generalizing t with
  | nil =>
    have ends : t = e := chain
    rw [ends]
    rfl
  | cons a l ih =>
    rw [chain.head,List.map_cons,List.cons_append,ih chain.tail]

theorem Chain.inj (ring : Chain next a l a) (once : l.Nodup) (first : b ∈ l) (second : m ∈ l) (same : next b = next m) : b = m := by
  have rotated : (l.map next).Perm l := by
    have both : (a :: l.map next).Perm (a :: l) := by
      rw [ring.nexts]
      exact List.perm_append_singleton a l
    exact both.cons_inv
  exact List.inj_on_of_nodup_map (rotated.nodup_iff.mpr once) first second same

end

def seek (next : Nat → Nat) (x : Nat) : Nat → Nat → Option Nat
  | 0,_ => none
  | left+1,p =>
    if p < x ∧ x < next p then some p
    else if next p ≤ p ∧ (p < x ∨ x < next p) then some p
    else seek next x left (next p)

section
variable {next : Nat → Nat} {base x p q : Nat} {l r : List Nat}

theorem seek_pass (pass : ¬ (p < x ∧ x < next p)) (low : ¬ (next p ≤ p ∧ (p < x ∨ x < next p))) (left : Nat) :
    seek next x (left+1) p = seek next x left (next p) := by
  rw [seek,if_neg pass,if_neg low]

theorem seek_up (ups : Chain next q (l ++ [p]) e) (sorted : (l ++ [p]).Pairwise (· < ·)) (below : p < x)
    (stops : x < e ∨ e ≤ p) (enough : l.length < left) : seek next x left q = some p := by
  induction l generalizing q left with
  | nil =>
    obtain ⟨left,rfl⟩ : ∃ k, left = k+1 := ⟨left-1,by omega⟩
    obtain ⟨rfl,ends⟩ := ups
    have ends : next q = e := ends
    rw [seek,ends]
    rcases stops with above | wrap
    · rw [if_pos ⟨below,above⟩]
    · split
      · rfl
      · rw [if_pos ⟨wrap,.inl below⟩]
  | cons c l ih =>
    obtain ⟨left,rfl⟩ : ∃ k, left = k+1 := ⟨left-1,by omega⟩
    rw [List.cons_append,List.pairwise_cons] at sorted
    obtain ⟨rfl,later⟩ := ups
    have rest := sorted.1
    obtain ⟨first,start,higher,lower⟩ : ∃ first, next q = first ∧ q < first ∧ first < x := by
      cases l with
      | nil =>
        have start : next q = p := later.1
        exact ⟨p,start,rest p (by simp),below⟩
      | cons d l =>
        have start : next q = d := later.1
        have order := (List.pairwise_cons.mp sorted.2).1 p (by simp)
        exact ⟨d,start,rest d (by simp),by omega⟩
    rw [seek_pass (by omega) (by omega)]
    exact ih later sorted.2 (by simp at enough; omega)

theorem seek_around (ups : Chain next q (q :: l) base) (sorted : (q :: l).Pairwise (· < ·)) (above : x < q) (low : base < x) (left : Nat) :
    seek next x (left+l.length+1) q = seek next x left base := by
  induction l generalizing q with
  | nil =>
    have ends : next q = base := ups.2
    rw [List.length_nil,Nat.add_zero,seek_pass (by omega) (by omega),ends]
  | cons c l ih =>
    obtain ⟨_,start,later⟩ := ups
    rw [List.pairwise_cons] at sorted
    have higher := sorted.1 c (.head _)
    rw [List.length_cons,← Nat.add_assoc,seek_pass (by omega) (by omega),start]
    exact ih ⟨rfl,later⟩ sorted.2 (by omega)

theorem seek_ring (ring : Chain next base (l ++ p :: r) base) (first : (l ++ p :: r).head? = some base) (sorted : (l ++ p :: r).Pairwise (· < ·))
    (below : p < x) (above : ∀ y ∈ r, x < y) (start : q ∈ l ++ p :: r) (enough : (l ++ p :: r).length ≤ left) :
    seek next x left q = some p := by
  have split : l ++ p :: r = (l ++ [p]) ++ r := by simp
  rw [split] at ring sorted
  have ascending := (List.pairwise_append.mp sorted).1
  obtain ⟨m,lower,upper⟩ := chain_append.mp ring
  have low : base ≤ p := by
    cases l with
    | nil =>
      obtain rfl : p = base := Option.some.inj first
      exact Nat.le_refl p
    | cons c l =>
      obtain rfl : c = base := Option.some.inj first
      exact Nat.le_of_lt ((List.pairwise_cons.mp ascending).1 p (by simp))
  have stops : x < m ∨ m ≤ p := by
    cases r with
    | nil =>
      obtain rfl : m = base := upper
      exact .inr low
    | cons c r =>
      obtain rfl : m = c := upper.1
      exact .inl (above m (.head _))
  rw [List.length_append,List.length_cons] at enough
  rcases List.mem_append.mp start with early | late
  · obtain ⟨before,after,rfl⟩ := List.append_of_mem early
    rw [List.append_assoc] at lower ascending
    obtain ⟨n,_,from_q⟩ := chain_append.mp lower
    obtain rfl : n = q := from_q.1
    refine seek_up from_q (List.pairwise_append.mp ascending).2.1 below stops ?_
    simp only [List.length_append,List.length_cons] at enough ⊢
    omega
  rcases List.mem_cons.mp late with rfl | later
  · refine seek_up (l := []) ?_ (List.pairwise_singleton _ _) below stops (by simp only [List.length_nil]; omega)
    obtain ⟨n,_,from_q⟩ := chain_append.mp lower
    obtain rfl : n = q := from_q.1
    exact from_q
  obtain ⟨before,after,rfl⟩ := List.append_of_mem later
  obtain ⟨n,_,from_q⟩ := chain_append.mp upper
  obtain rfl : n = q := from_q.1
  have order := (List.pairwise_append.mp (List.pairwise_append.mp sorted).2.1).2.1
  simp only [List.length_append,List.length_cons] at enough
  obtain ⟨rest,rfl⟩ : ∃ rest, left = rest+after.length+1 := ⟨left-after.length-1,by omega⟩
  rw [seek_around from_q order (above n (by simp)) (by omega)]
  exact seek_up lower ascending below stops (by omega)

end
end Circular
