import Mathlib.Algebra.BigOperators.Group.List.Basic
import Mathlib.Algebra.GroupWithZero.Nat
import Mathlib.Algebra.Order.BigOperators.Group.List
import Mathlib.Algebra.Order.Group.Nat
import Mathlib.Data.List.Nodup
import Mathlib.Order.WellFounded

namespace Visits

-- Walks of a graph without marks: a node is visited after its children, once for every way that leads to it.
section
variable {α : Type} {children : α → List α}

def Reaches (children : α → List α) : α → α → Prop := Relation.ReflTransGen fun a b => b ∈ children a

def Grounded (children : α → List α) : Prop := WellFounded fun b a => b ∈ children a

def visits (grounded : Grounded children) (a : α) : List α := (children a).attach.flatMap (fun b => visits grounded b.1) ++ [a]
termination_by grounded.wrap a
decreasing_by exact b.2

-- No node is the child of two nodes, or of one node twice.
structure Unshared (children : α → List α) (root : α) : Prop where
  inside : Reaches children root r → (children r).Nodup
  across : Reaches children root r → Reaches children root s → t ∈ children r → t ∈ children s → r = s

variable (grounded : Grounded children)

theorem visits_eq (a : α) : visits grounded a = (children a).flatMap (visits grounded) ++ [a] := by
  rw [visits,List.flatMap_subtype (fun _ _ => rfl),List.unattach_attach]

theorem visits_self (a : α) : a ∈ visits grounded a := by
  rw [visits_eq]
  exact List.mem_append_right _ (.head _)

theorem visits_child (child : b ∈ children a) : (visits grounded b).Sublist ((children a).flatMap (visits grounded)) :=
  List.sublist_flatten_of_mem (List.mem_map_of_mem child)

theorem visits_sublist (reaches : Reaches children a b) : (visits grounded b).Sublist (visits grounded a) := by
  induction reaches with
  | refl => exact List.Sublist.refl _
  | @tail b c _ child ih =>
    refine List.Sublist.trans ?_ ih
    rw [visits_eq grounded b]
    exact (visits_child grounded child).trans (List.sublist_append_left ..)

theorem visits_after (reaches : Reaches children root a) (child : b ∈ children a) : [b,a].Sublist (visits grounded root) := by
  refine List.Sublist.trans ?_ (visits_sublist grounded reaches)
  rw [visits_eq]
  exact ((List.singleton_sublist.mpr (visits_self grounded b)).trans (visits_child grounded child)).append (List.Sublist.refl [a])

theorem mem_visits : b ∈ visits grounded a → Reaches children a b := by
  induction a using grounded.induction with
  | _ a ih =>
    intro member
    rw [visits_eq] at member
    rcases List.mem_append.mp member with below | self
    · obtain ⟨c,child,under⟩ := List.mem_flatMap.mp below
      exact .head child (ih c child under)
    · rw [List.mem_singleton.mp self]
      exact .refl

theorem root_not_child (grounded : Grounded children) (reaches : Reaches children root r) : root ∉ children r := by
  intro child
  have cycle : Relation.TransGen (fun a b => b ∈ children a) root root := .tail' reaches child
  exact (WellFounded.irrefl (WellFounded.transGen grounded)).irrefl root (Relation.transGen_swap.mp cycle)

variable [DecidableEq α]

-- A node is visited once for each time that one of its parents is, and the root once more.
theorem visits_count (t a : α) :
    (visits grounded a).count t = (if a = t then 1 else 0) + ((visits grounded a).map fun r => (children r).count t).sum := by
  induction a using grounded.induction with
  | _ a ih =>
    have below : ∀ l : List α, (∀ c ∈ l, c ∈ children a) →
        (l.flatMap (visits grounded)).count t = l.count t + ((l.flatMap (visits grounded)).map fun r => (children r).count t).sum := by
      intro l
      induction l with
      | nil => intro _; rfl
      | cons c l more =>
        intro all
        rw [List.flatMap_cons,List.count_append,List.map_append,List.sum_append,more fun d member => all d (List.mem_cons_of_mem _ member),
          ih c (all c List.mem_cons_self),List.count_cons,beq_eq_decide]
        simp only [decide_eq_true_eq]
        omega
    rw [visits_eq,List.count_append,List.map_append,List.sum_append,below _ fun _ => id,List.count_singleton,beq_eq_decide,
      List.map_singleton,List.sum_singleton]
    simp only [decide_eq_true_eq]
    omega

theorem unshared_once (unshared : Unshared children root) (reaches : Reaches children root t) : (visits grounded root).count t = 1 := by
  induction reaches with
  | refl =>
    have zero : ∀ k ∈ (visits grounded root).map fun r => (children r).count root, k = 0 := by
      intro k member
      obtain ⟨r,visited,rfl⟩ := List.mem_map.mp member
      exact List.count_eq_zero.mpr (root_not_child grounded (mem_visits grounded visited))
    rw [visits_count,if_pos rfl,List.sum_eq_zero zero,Nat.add_zero]
  | @tail r t before child ih =>
    have single := List.sum_map_eq_nsmul_single r (fun r => (children r).count t) fun s other visited =>
      List.count_eq_zero.mpr fun also => other (unshared.across (mem_visits grounded visited) before also child)
    rw [visits_count,if_neg (ne_of_mem_of_not_mem child (root_not_child grounded before)).symm,single,ih,
      List.count_eq_one_of_mem (unshared.inside before) child,one_nsmul]

-- Two uses of a node are two visits of it.
theorem once_unshared (once : ∀ t, Reaches children root t → (visits grounded root).count t = 1) : Unshared children root := by
  have visited : ∀ {r}, Reaches children root r → r ∈ visits grounded root := fun reaches =>
    (visits_sublist grounded reaches).subset (visits_self grounded _)
  have bound : ∀ t (l : List α), l.Nodup → (∀ r ∈ l, Reaches children root r) → Reaches children root t → (l.map fun r => (children r).count t).sum ≤ 1 := by
    intro t l distinct all reaches
    have whole := once t reaches
    obtain ⟨part,same,sub⟩ := List.subperm_of_subset distinct fun r member => visited (all r member)
    have less := (sub.map fun r => (children r).count t).sum_le_sum fun _ _ => Nat.zero_le _
    rw [visits_count] at whole
    rw [← (same.map _).sum_eq]
    omega
  constructor
  · intro r reaches
    rw [List.nodup_iff_count_le_one]
    intro t
    by_cases child : t ∈ children r
    · exact bound t [r] (List.nodup_singleton r) (fun s member => List.mem_singleton.mp member ▸ reaches) (reaches.tail child)
    · rw [List.count_eq_zero.mpr child]
      exact Nat.zero_le 1
  · intro r s t first second child also
    by_contra differ
    have one := bound t [r,s] (by simp [differ]) (by simp [first,second]) (first.tail child)
    have here := List.count_pos_iff.mpr child
    have there := List.count_pos_iff.mpr also
    simp only [List.map_cons,List.map_nil,List.sum_cons,List.sum_nil] at one
    omega

end

end Visits
