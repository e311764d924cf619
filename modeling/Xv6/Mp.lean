import Xv6.Lib.Bytes

namespace Xv6.Mp

open Bytes

-- mp.c from the configuration table on. Its bytes are counted from the start
-- of the header; the IMCR ports at the end of mpinit are left out.
def NCPU : Nat := 8

structure Machine where
  ismp : Bool
  ncpu : Nat
  bcpu : Nat
  lapic : Nat
  ioapicid : UInt8
  -- The stores into cpus: the index and the id written there.
  cpus : List (Nat × UInt8)

def boot : Machine := ⟨false,0,0,0,0,[]⟩

def sum (table : Bytes.Store) (len : Nat) : UInt8 := (List.range len).foldl (fun s i => s+table i) 0

def length (table : Bytes.Store) : Nat := ld16 table 4

def mpconfig (table : Bytes.Store) : Bool :=
  (List.range 4).map table == [80,67,77,80] && (table 6 == 1 || table 6 == 4) && sum table (length table) == 0

-- One turn of the loop: where p is next, and the state.
def entry (table : Bytes.Store) (p : Nat) (s : Machine) : Nat × Machine :=
  if table p = 0 then
    (p+20,{ s with
      ismp := s.ismp && s.ncpu == (table (p+1)).toNat
      bcpu := if table (p+3) &&& 2 ≠ 0 then s.ncpu else s.bcpu
      cpus := (s.ncpu,.ofNat s.ncpu) :: s.cpus
      ncpu := s.ncpu+1 })
  else if table p = 2 then (p+8,{ s with ioapicid := table (p+1) })
  else if table p ≤ 4 then (p+8,s)
  else (p,{ s with ismp := false })

def entryLoop (table : Bytes.Store) : Nat → Nat → Machine → Option Machine
  | 0,_,_ => none
  | fuel+1,p,s =>
    if p < length table then
      let next := entry table p s
      entryLoop table fuel next.1 next.2
    else some s

def fallBack (s : Machine) : Machine := if s.ismp then s else { s with ncpu := 1, lapic := 0, ioapicid := 0 }

def mpinit (table : Bytes.Store) (fuel : Nat) (s : Machine) : Option Machine :=
  if mpconfig table then
    (entryLoop table fuel 44 { s with bcpu := 0, ismp := true, lapic := ld32 table 36 }).map fallBack
  else some { s with bcpu := 0 }

-- The types of the entries from p on, as far as their sizes are known.
def size (type : UInt8) : Nat := if type = 0 then 20 else 8

def types (table : Bytes.Store) (p : Nat) : List UInt8 :=
  if p < length table then
    if table p ≤ 4 then table p :: types table (p+size (table p)) else [table p]
  else []
termination_by length table-p
decreasing_by unfold size; split <;> omega

structure Started (table : Bytes.Store) (s : Machine) : Prop where
  indexes : ∀ store ∈ s.cpus, store.1 < NCPU
  unknown : (∃ t ∈ types table 44, ¬ t ≤ 4) → s.ismp = false ∧ s.ncpu = 1 ∧ s.lapic = 0 ∧ s.ioapicid = 0

-- Every index below ncpu has been stored to, and no other.
def Counted (s : Machine) : Prop := ∀ i, (∃ id, (i,id) ∈ s.cpus) ↔ i < s.ncpu

theorem Counted.inside (counted : Counted s) : (∀ store ∈ s.cpus, store.1 < NCPU) ↔ s.ncpu ≤ NCPU := by
  constructor
  · intro inside
    by_contra more
    obtain ⟨id,stored⟩ := (counted NCPU).mpr (by omega)
    exact Nat.lt_irrefl _ (inside _ stored)
  · intro few store stored
    exact Nat.lt_of_lt_of_le ((counted _).mp ⟨_,stored⟩) few

theorem entry_counted (counted : Counted s) :
    Counted (entry table p s).2 ∧ (entry table p s).2.ncpu = s.ncpu+if table p = 0 then 1 else 0 := by
  unfold entry
  split
  · refine ⟨fun i => ?_,rfl⟩
    simp only [List.mem_cons,Prod.mk.injEq,exists_or,counted i,exists_and_left,exists_eq,and_true]
    omega
  split
  · exact ⟨counted,rfl⟩
  split
  · exact ⟨counted,rfl⟩
  · exact ⟨counted,rfl⟩

theorem entry_known (known : table p ≤ 4) : (entry table p s).1 = p+size (table p) := by
  unfold entry size
  split
  · rfl
  split
  · rfl
  · rfl

-- An unknown type leaves p where it is.
theorem entry_unknown (unknown : ¬ table p ≤ 4) : (entry table p s).1 = p := by
  unfold entry
  split
  · rename_i zero
    exact absurd (by rw [zero]; decide) unknown
  split
  · rename_i two
    exact absurd (by rw [two]; decide) unknown
  · rfl

-- With known entries the loop ends, at the same state for all fuel from some on.
theorem entryLoop_known (known : ∀ t ∈ types table p, t ≤ 4) (counted : Counted s) :
    ∃ turns t, (∀ fuel, entryLoop table fuel p s = if turns < fuel then some t else none) ∧
      Counted t ∧ t.ncpu = s.ncpu+(types table p).count 0 := by
  fun_induction types table p generalizing s with
  | case1 p inside fine ih =>
    obtain ⟨later,more⟩ := @entry_counted _ table p counted
    obtain ⟨turns,t,ends,ok,total⟩ := ih (fun t member => known t (.tail _ member)) later
    refine ⟨turns+1,t,fun fuel => ?_,ok,?_⟩
    · cases fuel with
      | zero => rfl
      | succ fuel =>
        rw [entryLoop,if_pos inside]
        simp only [entry_known fine,ends,Nat.add_lt_add_iff_right]
    · rw [total,more,List.count_cons]
      simp only [beq_iff_eq]
      omega
  | case2 p inside unknown => exact absurd (known _ (List.mem_singleton_self _)) unknown
  | case3 p outside =>
    refine ⟨0,s,fun fuel => ?_,counted,rfl⟩
    cases fuel with
    | zero => rfl
    | succ fuel => rw [entryLoop,if_neg outside,if_pos (Nat.succ_pos fuel)]

-- The loop meets an unknown entry again and again.
theorem entryLoop_unknown (unknown : ∃ t ∈ types table p, ¬ t ≤ 4) (fuel : Nat) : entryLoop table fuel p s = none := by
  induction fuel generalizing p s with
  | zero => rfl
  | succ fuel ih =>
    have here := unknown
    rw [types] at here
    split at here
    · rename_i inside
      rw [entryLoop,if_pos inside]
      apply ih
      split at here
      · rename_i fine
        obtain ⟨t,member,above⟩ := here
        rw [entry_known fine]
        rcases List.mem_cons.mp member with rfl | later
        · exact absurd fine above
        · exact ⟨t,later,above⟩
      · rename_i above
        rw [entry_unknown above]
        exact unknown
    · simp at here

theorem fallBack_cpus (s : Machine) : (fallBack s).cpus = s.cpus := by
  unfold fallBack
  split
  · rfl
  · rfl

theorem mpinit_stuck (config : mpconfig table = true) (unknown : ∃ t ∈ types table 44, ¬ t ≤ 4) (fuel : Nat) : mpinit table fuel s = none := by
  rw [mpinit,if_pos config,entryLoop_unknown unknown]
  rfl

-- mpinit ends, inside cpus, for exactly the tables with known entries only, at
-- most NCPU of them processors.
theorem mpinit_ends (table : Bytes.Store) (config : mpconfig table = true) :
    (∃ fuel s, mpinit table fuel boot = some s ∧ Started table s) ↔
      (∀ t ∈ types table 44, t ≤ 4) ∧ (types table 44).count 0 ≤ NCPU := by
  by_cases known : ∀ t ∈ types table 44, t ≤ 4
  · obtain ⟨turns,s,ends,counted,total⟩ :=
      entryLoop_known (s := { boot with ismp := true, lapic := ld32 table 36 }) known (fun i => by simp [boot])
    have inside := counted.inside
    rw [total,← fallBack_cpus s] at inside
    have run : ∀ fuel, mpinit table fuel boot = if turns < fuel then some (fallBack s) else none := by
      intro fuel
      have same : mpinit table fuel boot = (entryLoop table fuel 44 { boot with ismp := true, lapic := ld32 table 36 }).map fallBack := if_pos config
      rw [same,ends]
      split
      · rfl
      · rfl
    constructor
    · rintro ⟨fuel,t,result,fine⟩
      rw [run] at result
      split at result
      · cases result
        refine ⟨known,?_⟩
        have few := inside.mp fine.indexes
        simpa [boot] using few
      · cases result
    · rintro ⟨_,few⟩
      refine ⟨turns+1,fallBack s,by rw [run,if_pos (Nat.lt_succ_self _)],inside.mpr (by simpa [boot] using few),?_⟩
      rintro ⟨t,member,above⟩
      exact absurd (known t member) above
  · push Not at known
    obtain ⟨t,member,above⟩ := known
    constructor
    · rintro ⟨fuel,s,result,_⟩
      rw [mpinit_stuck config ⟨t,member,above⟩] at result
      cases result
    · rintro ⟨all,_⟩
      exact absurd (all t member) (above)

-- A header and its entries, and the table of one processor or of one entry of type 5.
def tableOf (bytes : List UInt8) : Bytes.Store := fun i => bytes.getD i 0

def onlyCpu : Bytes.Store := tableOf ([80,67,77,80,64,0,1,140] ++ List.replicate 38 0 ++ [1,2])

theorem mpinit_ends_one : mpconfig onlyCpu = true ∧ ∃ fuel s, mpinit onlyCpu fuel boot = some s ∧ Started onlyCpu s :=
  ⟨by decide +kernel,(mpinit_ends onlyCpu (by decide +kernel)).mpr (by decide +kernel)⟩

def typeFive : Bytes.Store := tableOf ([80,67,77,80,45,0,1,157] ++ List.replicate 36 0 ++ [5])

theorem mpinit_ends_never : mpconfig typeFive = true ∧ ∀ fuel, mpinit typeFive fuel boot = none :=
  ⟨by decide +kernel,mpinit_stuck (by decide +kernel) (by decide +kernel)⟩

end Xv6.Mp
