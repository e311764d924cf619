import Mathlib.Tactic.Common

namespace Linked

-- Singly linked lists: a head pointer and a table of next pointers.
section
variable {B : Type}

inductive Chained (next : B → Option B) : Option B → List B → Prop where
  | nil : Chained next none []
  | cons : Chained next (next b) rest → Chained next (some b) (b :: rest)

inductive Link (B : Type) where
  | head
  | next (b : B)

def target (head : Option B) (next : B → Option B) : Link B → Option B
  | .head => head
  | .next b => next b

-- The walk to the first link that points nowhere. On a cycle no fuel is enough.
def lastLink (head : Option B) (next : B → Option B) : Nat → Link B → Option (Link B)
  | 0,_ => none
  | fuel+1,pp =>
    match target head next pp with
    | none => some pp
    | some b => lastLink head next fuel (.next b)

def endOf (pp : Link B) : List B → Link B
  | [] => pp
  | b :: rest => endOf (.next b) rest

variable {next other : B → Option B} {head : Option B} {l : List B}

theorem Chained.congr (chained : Chained next head l) (same : ∀ b ∈ l, other b = next b) : Chained other head l := by
  induction chained with
  | nil => exact .nil
  | cons _ ih =>
    rename_i b rest _
    refine .cons ?_
    rw [same b (by simp)]
    exact ih fun c member => same c (by simp [member])

theorem Chained.head_eq (chained : Chained next head l) : head = l.head? := by
  cases chained <;> rfl

theorem Chained.tail (chained : Chained next head (b :: rest)) : Chained next (next b) rest := by
  cases chained with
  | cons tail => exact tail

theorem lastLink_end (chained : Chained next (target head next pp) l) (ended : lastLink head next fuel pp = some last) :
    last = endOf pp l := by
  induction l generalizing pp fuel with
  | nil =>
    cases fuel with
    | zero => cases ended
    | succ fuel =>
      rw [lastLink,chained.head_eq] at ended
      exact (Option.some.inj ended).symm
  | cons b rest ih =>
    cases fuel with
    | zero => cases ended
    | succ fuel =>
      rw [lastLink,chained.head_eq] at ended
      exact ih chained.tail ended

theorem lastLink_some (chained : Chained next (target head next pp) l) : lastLink head next (l.length+1) pp = some (endOf pp l) := by
  induction l generalizing pp with
  | nil => rw [lastLink,chained.head_eq]; rfl
  | cons b rest ih =>
    rw [lastLink,chained.head_eq]
    exact ih chained.tail

theorem Chained.append [DecidableEq B] (chained : Chained next head l) (new : b ∉ l) (nodup : l.Nodup) (last : next b = none) :
    match endOf .head l with
    | .head => Chained next (some b) (l ++ [b])
    | .next c => Chained (Function.update next c (some b)) head (l ++ [b]) := by
  have walk : ∀ (l : List B) (a : B), Chained next (some a) (a :: l) → b ∉ a :: l → (a :: l).Nodup → ∃ c ∈ a :: l,
      endOf (.next a) l = .next c ∧ Chained (Function.update next c (some b)) (some a) (a :: l ++ [b]) := by
    intro l
    induction l with
    | nil =>
      intro a chained new _
      refine ⟨a,by simp,rfl,.cons ?_⟩
      rw [Function.update_self]
      refine .cons ?_
      rw [Function.update_of_ne (by simpa using new),last]
      exact .nil
    | cons d l ih =>
      intro a chained new nodup
      have tail := chained.tail
      have here : next a = some d := tail.head_eq
      rw [here] at tail
      obtain ⟨c,member,ends,longer⟩ := ih d tail (fun old => new (by simp [old])) (List.nodup_cons.mp nodup).2
      refine ⟨c,by simp [member],ends,.cons ?_⟩
      have other : a ≠ c := by
        rintro rfl
        exact (List.nodup_cons.mp nodup).1 member
      rw [Function.update_of_ne other,here]
      exact longer
  cases l with
  | nil =>
    refine .cons ?_
    rw [last]
    exact .nil
  | cons a l =>
    have start := chained.head_eq
    subst start
    obtain ⟨c,_,ends,longer⟩ := walk l a chained new nodup
    rw [endOf,ends]
    exact longer

end
end Linked
