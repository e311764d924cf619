import Xv6.Vm.Map
import Xv6.Vm.Served

namespace Xv6.Vm
open Bytes Exec

-- The calls of kalloc that growing an address space makes: one for each page, and
-- one after it for the table where the page is the first to need it.

section Counting
variable {s : Machine} {m : Bytes.Store} {d : Nat}

def Opens (m : Bytes.Store) (d first v : Nat) : Prop := tableOf m d (v/1024) = none ∧ (v = first ∨ v%1024 = 0)

def Reached (first v i : Nat) : Prop := first/1024 ≤ i ∧ 1024*i < v ∧ first < v

instance (first v i : Nat) : Decidable (Reached first v i) := inferInstanceAs (Decidable (_ ∧ _ ∧ _))

def opened (m : Bytes.Store) (d first v : Nat) : Nat :=
  (List.range 1024).countP fun i => (tableOf m d i).isNone && decide (Reached first v i)

def made (base : Nat) (m : Bytes.Store) (d first v : Nat) : Nat := base + (v-first) + opened m d first v

theorem reached_succ (low : first ≤ v) : Reached first (v+1) i ↔ Reached first v i ∨ (i = v/1024 ∧ (v = first ∨ v%1024 = 0)) := by
  unfold Reached; omega

theorem made_here (base : Nat) (m : Bytes.Store) (d first : Nat) : made base m d first first = base := by
  have nothing : ∀ i, ¬ Reached first first i := fun i reached => by unfold Reached at reached; omega
  simp [made,opened,nothing]

theorem made_opens (low : first ≤ v) (small : v < 1048576) (opens : Opens m d first v) :
    made base m d first (v+1) = made base m d first v + 2 := by
  have flip : opened m d first v + 1 = opened m d first (v+1) := by
    refine countP_flip List.nodup_range (i := v/1024) (List.mem_range.mpr (by omega)) ?_ ?_ fun i _ other => ?_
    · rw [opens.1]; simpa using (reached_succ low).mpr (.inr ⟨rfl,opens.2⟩)
    · have fresh : ¬ Reached first v (v/1024) := by unfold Reached; have := opens.2; omega
      simp [fresh]
    · have same : Reached first (v+1) i ↔ Reached first v i := by
        rw [reached_succ low]; exact or_iff_left fun new => other new.1
      simp only [same]
  unfold made; omega

theorem made_stays (low : first ≤ v) (old : ¬ Opens m d first v) : made base m d first (v+1) = made base m d first v + 1 := by
  have same : opened m d first (v+1) = opened m d first v := by
    refine List.countP_congr fun i _ => ?_
    simp only [Bool.and_eq_true,Option.isNone_iff_eq_none,decide_eq_true_eq]
    refine and_congr_right fun missing => ?_
    rw [reached_succ low]
    exact or_iff_left fun ⟨here,new⟩ => old ⟨here ▸ missing,new⟩
  unfold made; omega

theorem made_lt (low : first ≤ v) (before : v < w) (small : w ≤ 1048576) : made base m d first v < made base m d first w := by
  induction w with
  | zero => omega
  | succ w ih =>
    have step : made base m d first w < made base m d first (w+1) := by
      by_cases opens : Opens m d first w
      · rw [made_opens (by omega) (by omega) opens]; omega
      · rw [made_stays (by omega) opens]; omega
    by_cases here : v = w
    · rw [here]; exact step
    · exact Nat.lt_trans (ih (by omega) (by omega)) step

theorem made_le (low : first ≤ v) (before : v ≤ w) (small : w ≤ 1048576) : made base m d first v ≤ made base m d first w := by
  rcases Nat.lt_or_eq_of_le before with less | rfl
  · exact Nat.le_of_lt (made_lt low less small)
  · exact Nat.le_refl _

def PageCall (base : Nat) (m : Bytes.Store) (d first size j : Nat) : Prop :=
  ∃ v, first ≤ v ∧ 4096*v < size ∧ j = made base m d first v

def TableCall (base : Nat) (m : Bytes.Store) (d first size j : Nat) : Prop :=
  ∃ v, first ≤ v ∧ 4096*v < size ∧ Opens m d first v ∧ j = made base m d first v + 1

theorem TableCall.wider (call : TableCall base m d first size j) (more : size ≤ big) : TableCall base m d first big j := by
  obtain ⟨v,low,inside,rest⟩ := call
  exact ⟨v,low,by omega,rest⟩

theorem FirstRefused.imp (refused : FirstRefused s n P) (weaker : ∀ j, P j → Q j) : FirstRefused s n Q := by
  obtain ⟨j,call,rest⟩ := refused
  exact ⟨j,weaker j call,rest⟩

-- Growing has come to page v, and every call of kalloc since start was served. n is
-- the number of pages that were free then; base calls came before page first, when
-- the memory was m.
structure Growing (start : Machine) (n base : Nat) (m : Bytes.Store) (d first v : Nat) (s : Machine) (free : List Nat) : Prop where
  low : first ≤ v
  tables : i < 1024 → (tableOf s.mem d i = none ↔ tableOf m d i = none ∧ ¬ Reached first v i)
  entries : x < 1048576 → x < first ∨ v ≤ x → pteOf s.mem d x = pteOf m d x
  fails : s.fails = start.fails
  calls : s.calls = start.calls + made base m d first v
  served : j < made base m d first v → start.fails (start.calls+j) = false
  left : free.length + made base m d first v = n

section Growing
variable {start next : Machine} {free later : List Nat}

section
variable (growing : Growing start n base m d first v s free)
include growing

theorem Growing.opens (small : v < 1048576) :
    tableOf s.mem d (v/1024) = none ↔ Opens m d first v := by
  have low := growing.low
  rw [growing.tables (by omega),Opens]
  refine and_congr_right fun _ => ?_
  unfold Reached; omega

theorem Growing.unrefused (early : j < made base m d first v) :
    ¬ Refused start n j := by
  rintro (flag | few)
  · rw [growing.served early] at flag; cases flag
  · have := growing.left; omega

theorem Growing.advance (small : v < 1048576)
    (here : tableOf next.mem d (v/1024) = some t)
    (tables : ∀ i < 1024, i ≠ v/1024 → tableOf next.mem d i = tableOf s.mem d i)
    (kept : tableOf s.mem d (v/1024) ≠ none → tableOf next.mem d (v/1024) = tableOf s.mem d (v/1024))
    (entries : ∀ x < 1048576, x ≠ v → pteOf next.mem d x = pteOf s.mem d x)
    (served : Served s next) (count : absent next.mem d + free.length = absent s.mem d + later.length + 1)
    (calls : next.calls + later.length = s.calls + free.length) :
    Growing start n base m d first (v+1) next later := by
  have low := growing.low
  have first_calls := growing.calls
  have first_left := growing.left
  have total : next.calls = start.calls + made base m d first (v+1) := by
    by_cases opens : Opens m d first v
    · have lost := absent_attach (by omega) ((growing.opens small).mpr opens) here tables
      rw [made_opens low small opens]; omega
    have was : tableOf s.mem d (v/1024) ≠ none := fun none => opens ((growing.opens small).mp none)
    have same : absent next.mem d = absent s.mem d := absent_same fun i bound => by
      by_cases other : i = v/1024
      · rw [other]; exact kept was
      · exact tables i bound other
    rw [made_stays low opens]; omega
  refine ⟨by omega,fun {i} bound => ?_,fun {x} bound away => ?_,served.fails.trans growing.fails,total,fun {j} early => ?_,by omega⟩
  · rw [reached_succ low]
    by_cases same : i = v/1024
    · subst same
      have now : Reached first v (v/1024) ∨ (v/1024 = v/1024 ∧ (v = first ∨ v%1024 = 0)) ∨ tableOf m d (v/1024) ≠ none := by
        by_cases missing : tableOf m d (v/1024) = none
        · by_cases opens : v = first ∨ v%1024 = 0
          · exact .inr (.inl ⟨rfl,opens⟩)
          · left; unfold Reached; omega
        · exact .inr (.inr missing)
      rw [here]
      refine ⟨fun no => (by cases no),fun ⟨missing,unreached⟩ => ?_⟩
      rcases now with reached | fresh | there
      · exact absurd (.inl reached) unreached
      · exact absurd (.inr fresh) unreached
      · exact absurd missing there
    · rw [tables i bound same,growing.tables bound]
      exact and_congr_right fun _ => not_congr (or_iff_left fun new => same new.1).symm
  · rw [entries x bound (by omega)]
    exact growing.entries bound (by omega)
  · by_cases old : j < made base m d first v
    · exact growing.served old
    · rw [← growing.fails]
      exact served.worked (by omega) (by omega)

theorem Growing.refused (small : v < 1048576) (inside : 4096*v < size)
    (missing : tableOf s.mem d (v/1024) = none) (works : s.fails s.calls = false) (some_left : free ≠ [])
    (why : s.fails (s.calls+1) = true ∨ free.length ≤ 1) : FirstRefused start n (TableCall base m d first size) := by
  have calls := growing.calls
  have left := growing.left
  have more : 0 < free.length := List.length_pos_iff.mpr some_left
  refine ⟨made base m d first v + 1,⟨v,growing.low,inside,(growing.opens small).mp missing,rfl⟩,?_,fun j early => ?_⟩
  · refine why.imp (fun flag => ?_) fun few => by omega
    rw [← growing.fails,show start.calls+(made base m d first v+1) = s.calls+1 by omega]; exact flag
  · by_cases old : j < made base m d first v
    · exact growing.unrefused old
    · have here : j = made base m d first v := by omega
      rintro (flag | few)
      · rw [← growing.fails,here,← calls,works] at flag; cases flag
      · omega

theorem Growing.full (inside : 4096*v < size)
    (why : s.fails s.calls = true ∨ free = []) : FirstRefused start n (PageCall base m d first size) := by
  have left := growing.left
  refine ⟨made base m d first v,⟨v,growing.low,inside,rfl⟩,why.imp (fun flag => ?_) fun none => ?_,fun j => growing.unrefused⟩
  · rw [← growing.fails,← growing.calls]; exact flag
  · rw [none,List.length_nil] at left; omega

theorem Growing.same (tables : ∀ i < 1024, tableOf next.mem d i = tableOf s.mem d i)
    (entries : ∀ x < 1048576, pteOf next.mem d x = pteOf s.mem d x) (fails : next.fails = s.fails) (calls : next.calls = s.calls) :
    Growing start n base m d first v next free where
  low := growing.low
  tables bound := by rw [tables _ bound]; exact growing.tables bound
  entries bound away := by rw [entries _ bound]; exact growing.entries bound away
  fails := fails.trans growing.fails
  calls := calls.trans growing.calls
  served := growing.served
  left := growing.left

end

theorem growing_here (s : Machine) (d first : Nat) (free : List Nat) : Growing s free.length 0 s.mem d first first s free := by
  have nothing : ∀ i, ¬ Reached first first i := fun i reached => by unfold Reached at reached; omega
  have zero := made_here 0 s.mem d first
  refine ⟨.refl,fun _ => ?_,fun _ _ => rfl,rfl,by rw [zero]; rfl,fun early => by omega,by omega⟩
  simp [nothing]

end Growing

-- The calls for tables that building an address space of size bytes makes. Call 0
-- is for the directory; its 64 tables follow, then pages and, with every 1024th of
-- them, a table.
def FreshTable (size j : Nat) : Prop := (1 ≤ j ∧ j ≤ 64) ∨ ∃ i, 4194304*i < size ∧ j = 1025*i+66

theorem countP_below (k n : Nat) : (List.range n).countP (fun i => decide (i < k)) = min n k := by
  induction n with
  | zero => simp
  | succ n ih =>
    rw [List.range_succ,List.countP_append,ih]
    by_cases below : n < k
    · simp [below]; omega
    · simp [below]; omega

section
variable (none : ∀ i < 512, tableOf m d i = none)
include none

theorem made_fresh (small : v ≤ 524288) : made 65 m d 0 v = 65 + (v + (v+1023)/1024) := by
  have each : opened m d 0 v = (List.range 1024).countP (fun i => decide (i < (v+1023)/1024)) := by
    refine List.countP_congr fun i _ => ?_
    simp only [Bool.and_eq_true,Option.isNone_iff_eq_none,decide_eq_true_eq]
    unfold Reached
    refine ⟨fun ⟨_,reached⟩ => by omega,fun below => ⟨none i (by omega),by omega⟩⟩
  rw [made,each,countP_below]; omega

theorem TableCall.fresh (top : size ≤ 2147483648) (call : TableCall 65 m d 0 size j) :
    FreshTable size j := by
  obtain ⟨v,_,inside,opens,rfl⟩ := call
  have start : v%1024 = 0 := by have := opens.2; omega
  rw [made_fresh none (by omega)]
  exact .inr ⟨v/1024,by omega,by omega⟩

theorem PageCall.not_fresh (top : size ≤ 2147483648) (call : PageCall 65 m d 0 size j) :
    ¬ FreshTable size j := by
  obtain ⟨v,_,inside,here⟩ := call
  rw [made_fresh none (by omega)] at here
  rintro (⟨_,setup⟩ | ⟨i,_,same⟩)
  · omega
  · omega

end

theorem Bare.growing (bare : Bare L next.mem d) (served : Served s next) (calls : next.calls = s.calls + 65)
    (length : free.length + 65 = n) : (∀ i < 512, tableOf next.mem d i = none) ∧ Growing s n 65 next.mem d 0 0 next free := by
  have none : ∀ i < 512, tableOf next.mem d i = Option.none := fun i small => by
    have other : KernelTable i = false := by simp [KernelTable]; omega
    have lacks := bare.tables (i := i) (by omega)
    rw [other] at lacks
    cases found : tableOf next.mem d i with
    | none => rfl
    | some t => rw [found] at lacks; cases lacks
  have count : made 65 next.mem d 0 0 = 65 := made_fresh none (by omega)
  have nothing : ∀ i, ¬ Reached 0 0 i := fun i reached => by unfold Reached at reached; omega
  refine ⟨none,.refl,fun _ => by simp [nothing],fun _ _ => rfl,served.fails,by rw [count]; exact calls,fun early => ?_,by omega⟩
  exact served.worked (by omega) (by omega)

end Counting
end Xv6.Vm
