import Mathlib.Data.List.Sort
import Xv6.Lib.Bubble
import Xv6.Shell.Distance

namespace Xv6.Shell
open Edit

-- sh.c: fixcmd. The two arrays cmdlistdis and cmdlistflag are sorted together.

abbrev Name := List UInt8

structure Ranked where
  dis : Nat → Nat
  flag : Nat → Nat

def Ranked.swap (r : Ranked) (j : Nat) : Ranked := ⟨Bubble.swapped r.dis j,Bubble.swapped r.flag j⟩

-- The inner loop after j turns, and the outer one after i.
def sortPass (r : Ranked) : Nat → Ranked
  | 0 => r
  | j+1 => if (sortPass r j).dis j > (sortPass r j).dis (j+1) then (sortPass r j).swap j else sortPass r j

def sortRanked (cmdlistlen : Nat) (r : Ranked) : Nat → Ranked
  | 0 => r
  | i+1 => sortPass (sortRanked cmdlistlen r i) (cmdlistlen-1-i)

def printFrom (errorcmd : Name) (cmdlist : List Name) (r : Ranked) : Nat → Nat → List Name
  | _,0 => []
  | i,k+1 =>
    if r.dis i ≥ errorcmd.length ∨ r.dis i ≥ (cmdlist.getD (r.flag i) []).length + 1 then []
    else cmdlist.getD (r.flag i) [] :: printFrom errorcmd cmdlist r (i+1) k

-- The commands printed, and whether the closing line is. The grids are what malloc gives in each
-- call of stringdistance.
def fixcmd (dp : Nat → Grid) (errorcmd : Name) (cmdlist : List Name) : List Name × Bool :=
  let cmdlistlen := cmdlist.length
  let r : Ranked := ⟨fun i => stringdistance (dp i) errorcmd (cmdlist.getD i []),fun i => i⟩
  let r := sortRanked cmdlistlen r (cmdlistlen-1)
  let commands := printFrom errorcmd cmdlist r 0 cmdlistlen
  (commands,!commands.isEmpty)

def Close (errorcmd c : Name) : Bool := dist errorcmd c < errorcmd.length && dist errorcmd c ≤ c.length

structure Suggested (errorcmd : Name) (cmdlist commands : List Name) : Prop where
  exact : commands.Perm (cmdlist.filter (Close errorcmd))
  sorted : commands.Pairwise fun c d => dist errorcmd c ≤ dist errorcmd d

section
variable {errorcmd : Name} {cmdlist : List Name} {r : Ranked} {n : Nat}

def Ranked.entry (r : Ranked) (j : Nat) : Nat × Nat := (r.dis j,r.flag j)

theorem Ranked.entry_swap (r : Ranked) (j : Nat) : (r.swap j).entry = Bubble.swapped r.entry j := by
  funext a
  simp only [Ranked.entry,Ranked.swap,Bubble.swapped]
  split_ifs <;> rfl

theorem entry_pass (r : Ranked) (j : Nat) : (sortPass r j).entry = Bubble.pass Prod.fst r.entry j := by
  induction j with
  | zero => rfl
  | succ j ih =>
    rw [sortPass,Bubble.pass,Bubble.compare,← ih]
    split
    · rename_i wrong
      exact (Ranked.entry_swap ..).trans (if_pos wrong).symm
    · rename_i right
      exact (if_neg right).symm

theorem entry_sort (n : Nat) (r : Ranked) (i : Nat) : (sortRanked n r i).entry = Bubble.sort Prod.fst n r.entry i := by
  induction i with
  | zero => rfl
  | succ i ih => rw [sortRanked,Bubble.sort,entry_pass,ih]

def Ahead (p q : Nat × Nat) : Prop := p.1 < q.1 ∨ p.1 = q.1 ∧ p.2 < q.2

def entries (r : Ranked) (n : Nat) : List (Nat × Nat) := (List.range n).map r.entry

theorem sorted_ahead (marked : r.flag = id) : (entries (sortRanked n r (n-1)) n).Pairwise Ahead := by
  have stable : Bubble.Stable Prod.fst Prod.snd n r.entry := fun a b less _ _ => by
    simp only [Ranked.entry,marked]
    exact less
  unfold entries
  rw [List.pairwise_map,entry_sort]
  refine List.Pairwise.imp_of_mem ?_ List.pairwise_lt_range
  intro a b _ member less
  have inside := List.mem_range.mp member
  have sorted := Bubble.sort_sorted Prod.fst n r.entry less inside
  have kept := Bubble.sort_keeps (Bubble.stable_swapping _ _ n) stable (n-1) (by omega) a b less inside
  rcases Nat.lt_or_eq_of_le sorted with lower | same
  · exact .inl lower
  · exact .inr ⟨same,kept same⟩

theorem sorted_perm (marked : r.flag = id) : (entries r n).Perm (entries (sortRanked n r (n-1)) n) := by
  have nodup : (entries r n).Nodup := by
    refine List.Nodup.map (fun a b same => ?_) List.nodup_range
    have flags := congrArg Prod.snd same
    simpa only [Ranked.entry,marked,id] using flags
  have subset : entries r n ⊆ entries (sortRanked n r (n-1)) n := by
    intro x member
    obtain ⟨i,small,rfl⟩ := List.mem_map.mp member
    have inside := List.mem_range.mp small
    obtain ⟨a,low,found⟩ := Bubble.sort_keeps (Bubble.present_swapping Prod.fst n (r.entry i)) ⟨i,inside,rfl⟩ (n-1) (by omega)
    refine List.mem_map.mpr ⟨a,List.mem_range.mpr low,?_⟩
    rw [entry_sort]
    exact found
  refine (List.subperm_of_subset nodup subset).perm_of_length_le ?_
  simp only [entries,List.length_map,List.length_range,Nat.le_refl]

def passes (errorcmd : Name) (cmdlist : List Name) (p : Nat × Nat) : Bool :=
  p.1 < errorcmd.length && p.1 ≤ (cmdlist.getD p.2 []).length

theorem passes_iff {p : Nat × Nat} : passes errorcmd cmdlist p = true ↔ p.1 < errorcmd.length ∧ p.1 ≤ (cmdlist.getD p.2 []).length := by
  simp only [passes,Bool.and_eq_true,decide_eq_true_eq]

theorem printFrom_eq (errorcmd : Name) (cmdlist : List Name) (r : Ranked) (k : Nat) : ∀ i, printFrom errorcmd cmdlist r i k =
    (((List.range' i k).map r.entry).takeWhile (passes errorcmd cmdlist)).map fun p => cmdlist.getD p.2 [] := by
  induction k with
  | zero => exact fun i => rfl
  | succ k ih =>
    intro i
    rw [printFrom,List.range'_succ,List.map_cons,List.takeWhile_cons]
    by_cases far : r.dis i ≥ errorcmd.length ∨ r.dis i ≥ (cmdlist.getD (r.flag i) []).length + 1
    · have rejected : ¬ passes errorcmd cmdlist (r.entry i) = true := by
        simp only [passes_iff,Ranked.entry]
        omega
      rw [if_pos far,if_neg rejected]
      rfl
    have accepted : passes errorcmd cmdlist (r.entry i) = true := by
      simp only [passes_iff,Ranked.entry]
      omega
    rw [if_neg far,if_pos accepted,List.map_cons,← ih]
    rfl

theorem takeWhile_all {l : List α} {R : α → α → Prop} (ok : α → Bool) (asymmetric : ∀ p q, R p q → ¬ R q p) (ordered : l.Pairwise R) :
    (l.takeWhile ok).length = (l.filter ok).length ↔ ∀ p ∈ l, ∀ q ∈ l, ok p = false → ok q = true → ¬ R p q := by
  induction l with
  | nil => exact ⟨fun _ p none => absurd none (List.not_mem_nil),fun _ => rfl⟩
  | cons x l ih =>
    obtain ⟨first,rest⟩ := List.pairwise_cons.mp ordered
    cases accepted : ok x with
    | true =>
      rw [List.takeWhile_cons_of_pos accepted,List.filter_cons_of_pos accepted,List.length_cons,List.length_cons,Nat.add_right_cancel_iff,ih rest]
      constructor
      · intro none p memberP q memberQ bad good ahead
        rcases List.mem_cons.mp memberP with rfl | inP
        · rw [accepted] at bad
          cases bad
        · rcases List.mem_cons.mp memberQ with rfl | inQ
          · exact asymmetric _ _ ahead (first p inP)
          · exact none p inP q inQ bad good ahead
      · exact fun none p inP q inQ => none p (.tail _ inP) q (.tail _ inQ)
    | false =>
      have stop : ¬ ok x = true := by simp only [accepted,Bool.false_eq_true,not_false_eq_true]
      rw [List.takeWhile_cons_of_neg stop,List.filter_cons_of_neg stop,List.length_nil,eq_comm,List.length_eq_zero_iff,List.filter_eq_nil_iff]
      constructor
      · intro none p memberP q memberQ bad good
        rcases List.mem_cons.mp memberQ with rfl | inQ
        · exact absurd good stop
        · exact absurd good (none q inQ)
      · exact fun none q inQ good => none x (.head _) q (.tail _ inQ) accepted good (first q inQ)

theorem takeWhile_filter {l : List α} {ok : α → Bool} (same : (l.takeWhile ok).length = (l.filter ok).length) : l.takeWhile ok = l.filter ok := by
  have shorter : (l.takeWhile ok).Sublist (l.filter ok) := by
    have kept : (l.takeWhile ok).filter ok = l.takeWhile ok := List.filter_eq_self.mpr (List.all_eq_true.mp List.all_takeWhile)
    rw [← kept]
    exact (List.takeWhile_sublist ok).filter ok
  exact shorter.eq_of_length same

end

-- A rejected command that is nearer than |errorcmd|, ahead of one that is to be printed.
def Hidden (errorcmd : Name) (cmdlist : List Name) : Prop :=
  ∃ i j, i < cmdlist.length ∧ j < cmdlist.length ∧
    (cmdlist.getD i []).length < dist errorcmd (cmdlist.getD i []) ∧ Close errorcmd (cmdlist.getD j []) = true ∧
    (dist errorcmd (cmdlist.getD i []) < dist errorcmd (cmdlist.getD j []) ∨
      dist errorcmd (cmdlist.getD i []) = dist errorcmd (cmdlist.getD j []) ∧ i < j)

section
variable (dp : Nat → Grid) (errorcmd : Name) (cmdlist : List Name)

def ranked : Ranked := ⟨fun i => stringdistance (dp i) errorcmd (cmdlist.getD i []),fun i => i⟩

def inOrder : List (Nat × Nat) := entries (sortRanked cmdlist.length (ranked dp errorcmd cmdlist) (cmdlist.length-1)) cmdlist.length

theorem fixcmd_commands : (fixcmd dp errorcmd cmdlist).1 =
    ((inOrder dp errorcmd cmdlist).takeWhile (passes errorcmd cmdlist)).map fun p => cmdlist.getD p.2 [] := by
  unfold fixcmd inOrder entries
  rw [List.range_eq_range']
  exact printFrom_eq ..

theorem mem_inOrder : p ∈ inOrder dp errorcmd cmdlist ↔ ∃ i < cmdlist.length, p = (dist errorcmd (cmdlist.getD i []),i) := by
  rw [inOrder,← (sorted_perm rfl).mem_iff,entries,List.mem_map]
  simp only [List.mem_range,Ranked.entry,ranked,stringdistance_eq,eq_comm]

theorem listing_filter : ((inOrder dp errorcmd cmdlist).filter (passes errorcmd cmdlist)).map (fun p => cmdlist.getD p.2 []) |>.Perm
    (cmdlist.filter (Close errorcmd)) := by
  have listing : (List.range cmdlist.length).map (fun i => cmdlist.getD i []) = cmdlist := by
    refine List.ext_getElem (by simp only [List.length_map,List.length_range]) fun i low high => ?_
    simp only [List.getElem_map,List.getElem_range,List.getD_eq_getElem?_getD,List.getElem?_eq_getElem high,Option.getD_some]
  have perm := ((sorted_perm (r := ranked dp errorcmd cmdlist) (n := cmdlist.length) rfl).filter (passes errorcmd cmdlist)).map fun p => cmdlist.getD p.2 []
  refine perm.symm.trans (List.Perm.of_eq ?_)
  rw [entries,List.filter_map,List.map_map]
  conv_rhs => rw [← listing,List.filter_map]
  refine congrArg _ (List.filter_congr fun i _ => ?_)
  simp only [Function.comp,passes,Close,Ranked.entry,ranked,stringdistance_eq]

theorem passes_of (i : Nat) : passes errorcmd cmdlist (dist errorcmd (cmdlist.getD i []),i) = Close errorcmd (cmdlist.getD i []) := rfl

theorem hidden_iff : (∀ p ∈ inOrder dp errorcmd cmdlist, ∀ q ∈ inOrder dp errorcmd cmdlist,
    passes errorcmd cmdlist p = false → passes errorcmd cmdlist q = true → ¬ Ahead p q) ↔ ¬ Hidden errorcmd cmdlist := by
  constructor
  · rintro none ⟨i,j,inI,inJ,short,close,ahead⟩
    refine none _ ((mem_inOrder dp ..).mpr ⟨i,inI,rfl⟩) _ ((mem_inOrder dp ..).mpr ⟨j,inJ,rfl⟩) ?_ close ahead
    simp only [passes_of,Close,Bool.and_eq_false_iff,decide_eq_false_iff_not]
    omega
  · intro open_ p memberP q memberQ bad good ahead
    obtain ⟨i,inI,rfl⟩ := (mem_inOrder dp ..).mp memberP
    obtain ⟨j,inJ,rfl⟩ := (mem_inOrder dp ..).mp memberQ
    refine open_ ⟨i,j,inI,inJ,?_,good,ahead⟩
    simp only [passes_of,Close,Bool.and_eq_false_iff,Bool.and_eq_true,decide_eq_false_iff_not,decide_eq_true_eq] at bad good
    simp only [Ahead] at ahead
    omega

theorem commands_sorted : (fixcmd dp errorcmd cmdlist).1.Pairwise fun c d => dist errorcmd c ≤ dist errorcmd d := by
  rw [fixcmd_commands,List.pairwise_map]
  have ordered := (sorted_ahead (r := ranked dp errorcmd cmdlist) (n := cmdlist.length) rfl).sublist (List.takeWhile_sublist (passes errorcmd cmdlist))
  refine ordered.imp_of_mem fun {p q} memberP memberQ ahead => ?_
  obtain ⟨i,_,rfl⟩ := (mem_inOrder dp ..).mp ((List.takeWhile_sublist _).subset memberP)
  obtain ⟨j,_,rfl⟩ := (mem_inOrder dp ..).mp ((List.takeWhile_sublist _).subset memberQ)
  exact ahead.elim Nat.le_of_lt fun same => Nat.le_of_eq same.1

theorem suggested_iff : Suggested errorcmd cmdlist (fixcmd dp errorcmd cmdlist).1 ↔ ¬ Hidden errorcmd cmdlist := by
  have asymmetric : ∀ p q : Nat × Nat, Ahead p q → ¬ Ahead q p := fun p q ahead back => by
    unfold Ahead at ahead back
    omega
  have ordered : (inOrder dp errorcmd cmdlist).Pairwise Ahead := sorted_ahead rfl
  rw [← hidden_iff dp,← takeWhile_all _ asymmetric ordered]
  constructor
  · intro suggested
    have same := (suggested.exact.trans (listing_filter dp errorcmd cmdlist).symm).length_eq
    rw [fixcmd_commands,List.length_map,List.length_map] at same
    exact same
  · intro same
    refine ⟨?_,commands_sorted dp errorcmd cmdlist⟩
    rw [fixcmd_commands,takeWhile_filter same]
    exact listing_filter dp errorcmd cmdlist

end

theorem Suggested.unique (one : Suggested e l a) (two : Suggested e m b) (same : l.Perm m) : a.Perm b ∧ a.map (dist e) = b.map (dist e) := by
  have perm : a.Perm b := one.exact.trans ((same.filter _).trans two.exact.symm)
  refine ⟨perm,(perm.map (dist e)).eq_of_pairwise (fun _ _ _ _ => Nat.le_antisymm) ?_ ?_⟩
  · exact List.pairwise_map.mpr one.sorted
  · exact List.pairwise_map.mpr two.sorted

-- The suggestions are complete exactly on the listings that hide none, and on two orders of one
-- listing they then differ only in the order among equal distances.
theorem fixcmd_complete (dp dq : Nat → Grid) (errorcmd : Name) (cmdlist : List Name) :
    (Suggested errorcmd cmdlist (fixcmd dp errorcmd cmdlist).1 ↔ ¬ Hidden errorcmd cmdlist) ∧
    ∀ other, cmdlist.Perm other → ¬ Hidden errorcmd cmdlist → ¬ Hidden errorcmd other →
      (fixcmd dp errorcmd cmdlist).1.Perm (fixcmd dq errorcmd other).1 ∧
      (fixcmd dp errorcmd cmdlist).1.map (dist errorcmd) = (fixcmd dq errorcmd other).1.map (dist errorcmd) := by
  refine ⟨suggested_iff dp errorcmd cmdlist,?_⟩
  intro other perm one two
  exact ((suggested_iff dp errorcmd cmdlist).mpr one).unique ((suggested_iff dq errorcmd other).mpr two) perm

-- abcd is typed where d and xyzd can be run: d is three edits away and too short for that, and
-- hides xyzd, as near and long enough, unless the listing has it first.
theorem suggestion_hidden :
    ¬ Suggested [97,98,99,100] [[100],[120,121,122,100]] (fixcmd (fun _ _ _ => 0) [97,98,99,100] [[100],[120,121,122,100]]).1 ∧
    (fixcmd (fun _ _ _ => 0) [97,98,99,100] [[100],[120,121,122,100]]).1 = [] ∧
    (fixcmd (fun _ _ _ => 0) [97,98,99,100] [[120,121,122,100],[100]]).1 = [[120,121,122,100]] := by
  have close : Close [97,98,99,100] [120,121,122,100] = true := by
    unfold Close
    rw [← stringdistance_eq (fun _ _ => 0)]
    decide +kernel
  have printed : (fixcmd (fun _ _ _ => 0) [97,98,99,100] [[100],[120,121,122,100]]).1 = [] := by decide +kernel
  refine ⟨fun suggested => ?_,printed,by decide +kernel⟩
  have missing : [120,121,122,100] ∈ (fixcmd (fun _ _ _ => 0) [97,98,99,100] [[100],[120,121,122,100]]).1 :=
    suggested.exact.mem_iff.mpr (List.mem_filter.mpr ⟨by decide,close⟩)
  rw [printed] at missing
  cases missing

end Xv6.Shell
