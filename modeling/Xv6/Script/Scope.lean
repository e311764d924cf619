import Xv6.Script.Values
import Xv6.Lib.Runs

namespace Xv6.Script
open Runs

-- The tables of variables over a run of the interpreter.

-- A frame of the stack, and whether find_vars_in_line is putting variables in it.
structure Frame where
  vars : List Var
  declaring : Bool

structure Tables where
  frame : Frame
  callers : List Frame
  globals : List Var

def Tables.scope (t : Tables) : Scope := ⟨t.frame.vars,t.globals⟩

-- The last variable of each name.
def removeDuplicateVariables : List Var → List Var
  | [] => []
  | x :: vars => if vars.any (·.name = x.name) then removeDuplicateVariables vars else x :: removeDuplicateVariables vars

-- A name of letters, digits and underscores.
def nameChar (c : UInt8) : Bool := (97 ≤ c && c ≤ 122) || (65 ≤ c && c ≤ 90) || c == 95

def Identifier (name : List UInt8) : Prop := (∀ c ∈ name, nameChar c = true ∨ isDigit c = true) ∧ ∃ c ∈ name.head?, nameChar c = true

def Distinct (vars : List Var) : Prop := (vars.map Var.name).Nodup

def Tables.setVar (t : Tables) (name : List UInt8) (v : Value) : Option Tables :=
  (Script.setVar t.scope name v).map fun s => { t with frame := { t.frame with vars := s.vars }, globals := s.globals }

inductive Change where
  | declare | settle | assign | call | leave

-- A call comes in the middle of a statement, that may be a declaration.
inductive Changes : Tables → Change → Tables → Prop where
  | declare : Identifier x.name → x.value ≠ .void → t.frame.vars.length+1 < MAX_VARS_NUMBER →
      Changes t .declare { t with frame := ⟨t.frame.vars ++ [x],true⟩ }
  | settle : Changes t .settle { t with frame := ⟨removeDuplicateVariables t.frame.vars,false⟩ }
  | assign : t.setVar name v = some next → Changes t .assign next
  | call : Distinct params → (∀ x ∈ params, Identifier x.name ∧ x.value ≠ .void) → params.length < MAX_VARS_NUMBER →
      Changes t .call { t with frame := ⟨params,false⟩, callers := t.frame :: t.callers }
  | leave : t.callers = caller :: callers → Changes t .leave { t with frame := caller, callers := callers }

-- main() is called after find_global_vars.
def Started (t : Tables) : Prop :=
  t.frame = ⟨[],false⟩ ∧ t.callers = [] ∧ ∃ found : List Var, (∀ x ∈ found, Identifier x.name ∧ x.value ≠ .void) ∧
    found.length < MAX_VARS_NUMBER ∧ t.globals = removeDuplicateVariables found

theorem removeDuplicate_names (vars : List Var) : ∀ x ∈ removeDuplicateVariables vars, x ∈ vars := by
  induction vars with
  | nil => exact fun _ member => member
  | cons y vars ih =>
    intro x member
    rw [removeDuplicateVariables] at member
    split at member
    · exact List.mem_cons_of_mem y (ih x member)
    · exact (List.mem_cons.mp member).elim (fun same => same ▸ List.mem_cons_self) fun later => List.mem_cons_of_mem y (ih x later)

theorem removeDuplicate_distinct (vars : List Var) : Distinct (removeDuplicateVariables vars) := by
  induction vars with
  | nil => exact List.nodup_nil
  | cons y vars ih =>
    rw [removeDuplicateVariables]
    split
    · exact ih
    · rename_i fresh
      refine List.nodup_cons.mpr ⟨fun again => ?_,ih⟩
      obtain ⟨x,member,same⟩ := List.mem_map.mp again
      exact fresh (List.any_eq_true.mpr ⟨x,removeDuplicate_names vars x member,decide_eq_true same⟩)

theorem setLast_names (vars : List Var) : ∀ next, setLast name v vars = some next → next.map Var.name = vars.map Var.name := by
  induction vars with
  | nil => exact fun _ none => nomatch none
  | cons x vars ih =>
    intro next set
    rw [setLast] at set
    split_ifs at set
    · obtain ⟨rest,done,rfl⟩ := Option.map_eq_some_iff.mp set
      rw [List.map_cons,List.map_cons,ih rest done]
    · obtain ⟨w,-,rfl⟩ := Option.map_eq_some_iff.mp set
      rfl

def lookup (vars : List Var) (name : List UInt8) : Option Value := (vars.find? (·.name = name)).map Var.value

theorem lookup_cons : lookup (x :: vars) name = if x.name = name then some x.value else lookup vars name := by
  by_cases here : x.name = name <;> simp [lookup,here]

theorem lookup_any : vars.any (·.name = name) = (lookup vars name).isSome := by
  induction vars with
  | nil => rfl
  | cons x vars ih => by_cases here : x.name = name <;> simp [lookup_cons,here,ih]

theorem setLast_lookup (distinct : Distinct vars) (found : lookup vars name = some old) (fits : assign old v = some w) :
    ∃ next, setLast name v vars = some next ∧ ∀ y, lookup next y = if y = name then some w else lookup vars y := by
  induction vars with
  | nil => cases found
  | cons x vars ih =>
    obtain ⟨fresh,distinct⟩ := List.nodup_cons.mp distinct
    rw [lookup_cons] at found
    rw [setLast,lookup_any]
    split_ifs at found with here
    · have last : lookup vars name = none := by
        by_contra more
        rw [← ne_eq,← Option.isSome_iff_ne_none,← lookup_any] at more
        obtain ⟨z,member,same⟩ := List.any_eq_true.mp more
        exact fresh (List.mem_map.mpr ⟨z,member,(of_decide_eq_true same).trans here.symm⟩)
      cases found
      rw [last,fits,if_neg (by decide),if_pos here]
      refine ⟨_,rfl,fun y => ?_⟩
      rw [lookup_cons,lookup_cons,here]
      by_cases same : y = name
      · rw [if_pos same,if_pos same.symm]
      · rw [if_neg same,if_neg (Ne.symm same),if_neg (Ne.symm same)]
    · obtain ⟨next,set,others⟩ := ih distinct found
      rw [found,Option.isSome_some,if_pos rfl,set]
      refine ⟨_,rfl,fun y => ?_⟩
      rw [lookup_cons,lookup_cons,others]
      by_cases same : y = name
      · subst same
        rw [if_neg here,if_pos rfl,if_pos rfl]
      · rw [if_neg same,if_neg same]

-- An identifier is no literal.
theorem nameChar_plain (letter : nameChar c = true) : isDigit c = false ∧ c ≠ 45 ∧ c ≠ 39 ∧ c ≠ 34 ∧ c ≠ 48 := by
  have least : 65 ≤ c.toNat := by
    simp only [nameChar,Bool.or_eq_true,Bool.and_eq_true,decide_eq_true_eq,beq_iff_eq] at letter
    rcases letter with (⟨low,_⟩ | ⟨low,_⟩) | rfl
    · exact Nat.le_trans (by decide) (UInt8.le_iff_toNat_le.mp low)
    · exact UInt8.le_iff_toNat_le.mp low
    · decide
  refine ⟨Bool.eq_false_iff.mpr fun digit => ?_,?_,?_,?_,?_⟩
  · have most := UInt8.le_iff_toNat_le.mp (of_decide_eq_true (Bool.and_eq_true_iff.mp digit).2)
    exact absurd (Nat.le_trans least most) (by decide)
  all_goals rintro rfl; exact absurd least (by decide)

theorem getVar_identifier (s : Scope) (identifier : Identifier name) : getVar s name = (lookup s.vars name).or (lookup s.globals name) := by
  obtain ⟨c,first,letter⟩ := identifier.2
  cases name with
  | nil => cases first
  | cons d name =>
    cases first
    obtain ⟨digit,minus,single,double,zero⟩ := nameChar_plain letter
    have none : atoi (c :: name) = 0 := by
      rw [atoi.eq_2 _ fun _ same => minus (List.cons.inj same).1,readDigits,List.takeWhile_cons_of_neg (by rw [digit]; decide)]
      rfl
    rw [getVar,none,if_neg (by simp [zero]),if_neg single,if_neg double,Option.map_or]
    rfl

structure Stored (s next : Scope) (x : List UInt8) (v : Value) : Prop where
  found : getVar next x = some v
  others : y ≠ x → getVar next y = getVar s y
  hidden : lookup s.vars x ≠ none → next.globals = s.globals

def Value.sameType : Value → Value → Bool
  | .int _,.int _ | .char _,.char _ | .string _,.string _ => true
  | _,_ => false

theorem assign_same (same : old.sameType v = true) : assign old v = some v := by
  cases old <;> cases v <;> first | rfl | cases same

theorem getVar_same (vars : lookup next.vars y = lookup s.vars y) (globals : lookup next.globals y = lookup s.globals y) :
    getVar next y = getVar s y := by
  cases y with
  | nil => rfl
  | cons c y => simp only [getVar,Option.map_or,show ∀ l, (l.find? fun v : Var => v.name = c :: y).map Var.value = lookup l (c :: y) from fun _ => rfl,vars,globals]

theorem setVar_stored (distinct : Distinct s.vars) (globals : Distinct s.globals) (identifier : Identifier x) (declared : getVar s x = some old)
    (fits : assign old v = some w) : ∃ next, setVar s x v = some next ∧ Stored s next x w := by
  rw [getVar_identifier s identifier] at declared
  rw [setVar,lookup_any]
  cases mine : lookup s.vars x with
  | some value =>
    rw [mine,Option.some_or] at declared
    cases declared
    obtain ⟨vars,set,others⟩ := setLast_lookup distinct mine fits
    rw [set]
    refine ⟨_,rfl,?_,fun other => getVar_same ?_ rfl,fun _ => rfl⟩
    · rw [getVar_identifier _ identifier,others,if_pos rfl,Option.some_or]
    · rw [others,if_neg other]
  | none =>
    rw [mine,Option.none_or] at declared
    obtain ⟨vars,set,others⟩ := setLast_lookup globals declared fits
    rw [set]
    refine ⟨_,rfl,?_,fun other => getVar_same rfl ?_,fun no => absurd mine no⟩
    · rw [getVar_identifier _ identifier,mine,Option.none_or,others,if_pos rfl]
    · rw [others,if_neg other]

-- The names in a frame are distinct between statements.
structure Sound (t : Tables) : Prop where
  frames : ∀ f ∈ t.frame :: t.callers, f.declaring = false → Distinct f.vars
  globals : Distinct t.globals

theorem changes_sound (sound : Sound t) (step : Changes t change next) : Sound next := by
  obtain ⟨frames,globals⟩ := sound
  have callers := fun f member => frames f (List.mem_cons_of_mem t.frame member)
  cases step with
  | declare => exact ⟨List.forall_mem_cons.mpr ⟨nofun,callers⟩,globals⟩
  | settle => exact ⟨List.forall_mem_cons.mpr ⟨fun _ => removeDuplicate_distinct _,callers⟩,globals⟩
  | call distinct => exact ⟨List.forall_mem_cons.mpr ⟨fun _ => distinct,frames⟩,globals⟩
  | leave stack => exact ⟨fun f member => callers f (stack ▸ member),globals⟩
  | assign set =>
    obtain ⟨s,done,rfl⟩ := Option.map_eq_some_iff.mp set
    have names : s.vars.map Var.name = t.frame.vars.map Var.name ∧ s.globals.map Var.name = t.globals.map Var.name := by
      unfold Script.setVar at done
      split at done
      · obtain ⟨vars,last,rfl⟩ := Option.map_eq_some_iff.mp done
        exact ⟨setLast_names _ vars last,rfl⟩
      · obtain ⟨vars,last,rfl⟩ := Option.map_eq_some_iff.mp done
        exact ⟨rfl,setLast_names _ vars last⟩
    refine ⟨List.forall_mem_cons.mpr ⟨fun settled => ?_,callers⟩,?_⟩
    · exact (congrArg List.Nodup names.1).mpr (frames t.frame (.head _) settled)
    · exact (congrArg List.Nodup names.2).mpr globals

theorem run_sound (run : Run Started Changes events t) : Sound t := by
  refine run.invariant (fun t began => ?_) fun _ _ _ => changes_sound
  obtain ⟨frame,callers,found,-,-,globals⟩ := began
  refine ⟨?_,globals ▸ removeDuplicate_distinct found⟩
  rw [frame,callers]
  exact List.forall_mem_singleton.mpr fun _ => List.nodup_nil

end Xv6.Script
