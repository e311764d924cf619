import Xv6.Lib.Runs
import Xv6.Lib.Visits
import Mathlib.Data.Fintype.EquivFin

namespace Xv6.User.Make
open Runs Visits

-- How make walks the rules of the makefile and runs their recipes.

structure Rule where
  name : List UInt8
  depends : List (List UInt8)
  orders : List (List UInt8)
deriving DecidableEq

-- The list of NODEs.
structure Rules where
  table : List Rule
  distinct : (table.map Rule.name).Nodup

-- subtree[i]: the last node whose name the loops of main found equal to depends[i].
def Rules.subtree (rules : Rules) (depend : List UInt8) : Option Rule := rules.table.reverse.find? fun node => node.name = depend

def Rules.subtrees (rules : Rules) (tree : Rule) : List Rule := tree.depends.filterMap rules.subtree

inductive Outcome where
  | exit
  | built (done : List Rule)
deriving DecidableEq

-- for (i = 0; i < depends_num; i++) if (subtree[i] != NULL) makefiletree(subtree[i]).
def eachSubtree (make : Rule → List Rule → Option Outcome) : List Rule → List Rule → Option Outcome
  | [],done => some (.built done)
  | subtree :: rest,done => match make subtree done with
    | some (.built done) => eachSubtree make rest done
    | other => other

-- done has the rules whose orders were run. The file list is that of the directory after them.
def makefiletree (rules : Rules) (files : List Rule → List (List UInt8)) : Nat → Rule → List Rule → Option Outcome
  | 0,_,_ => none
  | fuel+1,tree,done => match eachSubtree (makefiletree rules files fuel) (rules.subtrees tree) done with
    | some (.built done) => some (if tree.depends ⊆ files done then .built (done ++ [tree]) else .exit)
    | other => other

def Rules.Acyclic (rules : Rules) : Prop := ∀ r ∈ rules.table, ¬ Relation.TransGen (fun a b => b ∈ rules.subtrees a) r r

-- Every target that root needs is built once, and after its prerequisites.
structure BuiltOnce (rules : Rules) (root : Rule) (built : List Rule) : Prop where
  once : ∀ t, Reaches rules.subtrees root t → built.count t = 1
  after : ∀ t, Reaches rules.subtrees root t → ∀ p ∈ rules.subtrees t, [p,t].Sublist built

theorem Rules.subtrees_mem (rules : Rules) (child : b ∈ rules.subtrees a) : b ∈ rules.table := by
  obtain ⟨depend,_,found⟩ := List.mem_filterMap.mp child
  exact List.mem_reverse.mp (List.mem_of_find?_eq_some found)

theorem Rules.Acyclic.grounded {rules : Rules} (acyclic : rules.Acyclic) : Grounded rules.subtrees := by
  let before (x y : {r // r ∈ rules.table}) : Prop := Relation.TransGen (fun b a => b ∈ rules.subtrees a) x.1 y.1
  have trans : IsTrans _ before := ⟨fun _ _ _ => Relation.TransGen.trans⟩
  have irrefl : Std.Irrefl before := ⟨fun x cycle => acyclic x.1 x.2 (Relation.transGen_swap.mp cycle)⟩
  have finite := Finite.wellFounded_of_trans_of_irrefl before
  have member : ∀ x : {r // r ∈ rules.table}, Acc (fun b a => b ∈ rules.subtrees a) x.1 := by
    intro x
    induction x using finite.induction with
    | _ x ih => exact ⟨_,fun b child => ih ⟨b,rules.subtrees_mem child⟩ (.single child)⟩
  exact ⟨fun a => ⟨a,fun b child => member ⟨b,rules.subtrees_mem child⟩⟩⟩

section
variable {rules : Rules} {files : List Rule → List (List UInt8)} (grounded : Grounded rules.subtrees)

-- Either a prerequisite of tree is missing, or the rules of the walk are run in its order.
def Ends (rules : Rules) (files : List Rule → List (List UInt8)) (tree : Rule) (done walk : List Rule) (out : Outcome) : Prop :=
  (out = .exit ∧ ∃ r done, Reaches rules.subtrees tree r ∧ ¬ r.depends ⊆ files done) ∨ out = .built (done ++ walk)

theorem eachSubtree_ends (ih : ∀ c ∈ rules.subtrees tree, ∀ done, ∃ out, Returns (fun fuel => makefiletree rules files fuel c done) out ∧
      Ends rules files c done (visits grounded c) out) (l : List Rule) (all : ∀ c ∈ l, c ∈ rules.subtrees tree) (done : List Rule) :
    ∃ out, Returns (fun fuel => eachSubtree (makefiletree rules files fuel) l done) out ∧
      Ends rules files tree done (l.flatMap (visits grounded)) out := by
  induction l generalizing done with
  | nil => exact ⟨.built done,⟨0,fun _ _ => rfl⟩,.inr (by rw [List.flatMap_nil,List.append_nil])⟩
  | cons c l more =>
    have child := all c (.head _)
    obtain ⟨out,⟨most,ran⟩,ends⟩ := ih c child done
    rcases ends with ⟨rfl,r,checked,below,missing⟩ | rfl
    · refine ⟨.exit,⟨most,fun fuel enough => ?_⟩,.inl ⟨rfl,r,checked,.head child below,missing⟩⟩
      simp only [eachSubtree,ran fuel enough]
    obtain ⟨out,⟨later,also⟩,ends⟩ := more (fun d member => all d (.tail _ member)) (done ++ visits grounded c)
    refine ⟨out,⟨max most later,fun fuel enough => ?_⟩,?_⟩
    · simp only [eachSubtree,ran fuel (by omega)]
      exact also fuel (by omega)
    · rwa [Ends,List.flatMap_cons,← List.append_assoc]

theorem makefiletree_ends (files : List Rule → List (List UInt8)) (tree : Rule) : ∀ done, ∃ out, Returns (fun fuel => makefiletree rules files fuel tree done) out ∧
    Ends rules files tree done (visits grounded tree) out := by
  induction tree using grounded.induction with
  | _ tree ih =>
    intro done
    obtain ⟨out,⟨most,ran⟩,ends⟩ := eachSubtree_ends grounded ih _ (fun _ => id) done
    have turn : ∀ fuel, most+1 ≤ fuel → makefiletree rules files fuel tree done = match some out with
        | some (.built done) => some (if tree.depends ⊆ files done then .built (done ++ [tree]) else .exit)
        | other => other := by
      intro fuel enough
      obtain ⟨fuel,rfl⟩ : ∃ k, fuel = k+1 := ⟨fuel-1,by omega⟩
      rw [makefiletree]
      simp only [ran fuel (by omega)]
    rcases ends with ⟨rfl,missing⟩ | rfl
    · exact ⟨.exit,⟨most+1,turn⟩,.inl ⟨rfl,missing⟩⟩
    refine ⟨_,⟨most+1,turn⟩,?_⟩
    split
    · rw [visits_eq,List.append_assoc]
      exact .inr rfl
    · exact .inl ⟨rfl,tree,_,.refl,‹_›⟩

end

theorem Rules.acyclic_of_rank (rules : Rules) (rank : Rule → Nat) (down : ∀ a ∈ rules.table, ∀ b ∈ rules.subtrees a, rank b < rank a) :
    rules.Acyclic := by
  intro r member cycle
  have lower : ∀ t, Relation.TransGen (fun a b => b ∈ rules.subtrees a) r t → rank t < rank r ∧ t ∈ rules.table := by
    intro t path
    induction path with
    | single child => exact ⟨down r member _ child,rules.subtrees_mem child⟩
    | tail _ child ih => exact ⟨Nat.lt_trans (down _ ih.2 _ child) ih.1,rules.subtrees_mem child⟩
  exact Nat.lt_irrefl _ (lower r cycle).1

-- a: b c, and b: d. Each command is its target's name.
def tree : Rules := ⟨[⟨[97],[[98],[99]],[[97]]⟩,⟨[98],[[100]],[[98]]⟩],by decide⟩

-- a: b c, b: d, c: d, and d: with a command of its own.
def diamond : Rules := ⟨[⟨[97],[[98],[99]],[[97]]⟩,⟨[98],[[100]],[[98]]⟩,⟨[99],[[100]],[[99]]⟩,⟨[100],[],[[100]]⟩],by decide⟩

end Xv6.User.Make
