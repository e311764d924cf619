import Xv6.Vm.Custody
import Mathlib.Data.List.Nodup
import Mathlib.Data.List.Perm.Subperm

namespace Xv6.Vm
open Function (update update_eq_self update_idem update_of_ne update_self)
open Bytes Exec

-- What the allocator and the page-table walks do to the custody of pages.

structure Quiet (s next : Machine) : Prop where
  fails : next.fails = s.fails
  grown : next.grown = s.grown
  loaded : next.loaded = s.loaded
  unmapped : next.unmapped = s.unmapped

theorem Quiet.refl (s : Machine) : Quiet s s := ⟨rfl,rfl,rfl,rfl⟩

theorem Quiet.trans (one : Quiet s next) (two : Quiet next last) : Quiet s last :=
  ⟨two.fails.trans one.fails,two.grown.trans one.grown,two.loaded.trans one.loaded,two.unmapped.trans one.unmapped⟩

section Steps
variable {α : Type} (E : Panic → Machine → Prop) (s : Machine)

theorem sat_load (a : Nat) (Q : Nat → Machine → Prop) : Sat (load a) s E Q ↔ Q (ld32 s.mem a) s := by
  rw [load,sat_get_bind,sat_pure]

theorem sat_load_bind (a : Nat) (f : Nat → M α) (Q : α → Machine → Prop) :
    Sat (load a >>= f) s E Q ↔ Sat (f (ld32 s.mem a)) s E Q := by
  rw [sat_bind,sat_load]

theorem sat_store (a v : Nat) (Q : Unit → Machine → Prop) :
    Sat (store a v) s E Q ↔ Q () { s with mem := st32 s.mem a v } := by
  rw [store,sat_modify]

theorem sat_store_bind (a v : Nat) (f : Unit → M α) (Q : α → Machine → Prop) :
    Sat (store a v >>= f) s E Q ↔ Sat (f ()) { s with mem := st32 s.mem a v } E Q := by
  rw [sat_bind,sat_store]

theorem sat_memset_bind (p : Nat) (c : UInt8) (f : Unit → M α) (Q : α → Machine → Prop) :
    Sat (memset p c >>= f) s E Q ↔ Sat (f ()) { s with mem := fill s.mem p 4096 c } E Q := by
  rw [memset,sat_modify_bind]
end Steps

section Allocator
variable {L : Layout} {s : Machine} {o : Owners}

theorem Ok.forget (ok : Ok L s o) (own : Tag → Option Nat) (dirs : Space → Option Nat)
    (fewer : ∀ t p, own t = some p → o.own t = some p) (less : ∀ a d, dirs a = some d → o.dirs a = some d) :
    Ok L s ⟨own,dirs,o.free⟩ :=
  ⟨ok.custody.forget own dirs fewer less,ok.alternating,ok.freed⟩

theorem Ok.drop (ok : Ok L s o) (t : Tag) : Ok L s ⟨update o.own t none,o.dirs,o.free⟩ :=
  ok.forget _ _ (fun _ _ own => (update_none own).2) fun _ _ dir => dir

theorem Ok.write (ok : Ok L s o) (loose : Loose s.mem o q) (n : Bytes.Store)
    (others : ∀ p, p % 4096 = 0 → p ≠ q → SamePage s.mem n p) : Ok L { s with mem := n } o :=
  ⟨ok.custody.write loose others,ok.alternating,ok.freed⟩

theorem kalloc_spec (ok : Ok L s o) (_ : o.own t = none) (E : Panic → Machine → Prop) :
    Sat kalloc s E fun r next => Quiet s next ∧ next.mem = s.mem ∧ next.calls = s.calls+1 ∧
      match r with
      | none => (s.fails s.calls = true ∨ o.free = []) ∧ Ok L next o
      | some p => s.fails s.calls = false ∧ ∃ rest, o.free = p :: rest ∧
          Ok L next ⟨update o.own t (some p),o.dirs,rest⟩ := by
  have chain := ok.custody.chain
  unfold kalloc
  rw [sat_get_bind]
  split
  · rename_i failed
    rw [sat_modify_bind,sat_pure]
    refine ⟨⟨rfl,rfl,rfl,rfl⟩,rfl,rfl,failed.imp id fun empty => ?_,ok.custody,ok.alternating,ok.freed⟩
    cases list : o.free with
    | nil => rfl
    | cons p rest => rw [list] at chain; have := chain.1; omega
  rename_i going
  rw [sat_modify_bind,sat_pure]
  have free : s.fails s.calls = false := by
    cases flag : s.fails s.calls with
    | false => rfl
    | true => exact absurd (.inl flag) going
  cases list : o.free with
  | nil => rw [list] at chain; exact absurd (.inr chain) going
  | cons p rest =>
    rw [list] at chain
    have page : s.freelist - 2147483648 = p := by have := chain.1; omega
    rw [page]
    refine ⟨⟨rfl,rfl,rfl,rfl⟩,rfl,rfl,free,rest,rfl,ok.custody.take list,ok.alternating,?_⟩
    intro q freed
    simp only [lastFreed] at freed
    split at freed
    · cases freed
    · rename_i other
      have member := ok.freed freed
      rw [list] at member
      exact (List.mem_cons.mp member).resolve_left fun same => other same.symm

def junk (m : Bytes.Store) (p head : Nat) : Bytes.Store := st32 (fill m p 4096 1) p head

theorem junk_others (m : Bytes.Store) (p head : Nat) (aligned : p % 4096 = 0) :
    ∀ q, q % 4096 = 0 → q ≠ p → SamePage m (junk m p head) q := by
  intro q page other x low high
  rw [junk,st32,copy_out _ _ (by omega),fill,copy_out _ _ (by omega)]

def released (s : Machine) (p : Nat) : Machine :=
  { s with mem := junk s.mem p s.freelist, freelist := p+2147483648, events := .free p :: s.events }

theorem kfree_managed (managed : Managed L p) (s : Machine) (E : Panic → Machine → Prop) (Q : Unit → Machine → Prop) :
    Sat (kfree L p) s E Q ↔ Q () (released s p) := by
  obtain ⟨aligned,low,top⟩ := managed
  have passes : ¬ (p % 4096 ≠ 0 ∨ p < L.kend ∨ 234881024 ≤ p) := by omega
  unfold kfree
  rw [if_neg passes,sat_memset_bind,sat_get_bind,sat_store_bind,sat_modify]
  exact Iff.rfl

theorem released_quiet (s : Machine) (p : Nat) : Quiet s (released s p) := ⟨rfl,rfl,rfl,rfl⟩

theorem Ok.release (ok : Ok L s o) (managed : Managed L p) (unheld : ∀ u, ¬ Holds s.mem o u p) :
    Ok L (released s p) ⟨o.own,o.dirs,p :: o.free⟩ := by
  have head : s.freelist < 4294967296 := by
    have chain := ok.custody.chain
    cases list : o.free with
    | nil => rw [list] at chain; rw [show s.freelist = 0 from chain]; decide
    | cons q rest =>
      rw [list] at chain
      have first := (ok.custody.managed (by rw [Holds,list]; exact (.head _) ..)).2.2
      rw [chain.1]; omega
  have linked : ld32 (junk s.mem p s.freelist) p = s.freelist := by
    rw [junk,ld32_st32,Nat.mod_eq_of_lt head]
  refine ⟨ok.custody.give managed unheld (junk_others s.mem p s.freelist managed.1) linked,⟨?_,ok.alternating⟩,?_⟩
  · cases flag : lastFreed p s.events with
    | false => rfl
    | true => exact absurd (ok.freed flag) (unheld .free)
  · intro q freed
    simp only [released,lastFreed] at freed
    split at freed
    · rename_i same; rw [← same]; exact .head _
    · exact .tail _ (ok.freed freed)

theorem Ok.unheld_of_own (ok : Ok L s o) (mine : o.own t = some p) (u : Use) :
    ¬ Holds s.mem ⟨update o.own t none,o.dirs,o.free⟩ u p := by
  intro use
  have old : Holds s.mem o u p := .of_fewer (fun _ _ own => (update_none own).2) (fun _ _ dir => dir) use
  cases ok.custody.exclusive (show Holds s.mem o (.own t) p from mine) old
  exact own_gone use

theorem Ok.release_own (ok : Ok L s o) (mine : o.own t = some p) :
    Managed L p ∧ Ok L (released s p) ⟨update o.own t none,o.dirs,p :: o.free⟩ :=
  ⟨ok.custody.managed (u := .own t) mine,
   (ok.drop t).release (ok.custody.managed (u := .own t) mine) (ok.unheld_of_own mine)⟩

theorem Ok.pin (ok : Ok L s o) (managed : Managed L p) (unheld : ¬ Held s.mem o p) (t : Tag) :
    Ok L s ⟨update o.own t (some p),o.dirs,o.free⟩ := by
  have held := ok.custody
  have back : ∀ {u q}, Holds s.mem ⟨update o.own t (some p),o.dirs,o.free⟩ u q →
      (u = .own t ∧ q = p) ∨ (u ≠ .own t ∧ q ≠ p ∧ Holds s.mem o u q) := by
    intro u q use
    have old : u ≠ .own t → Holds s.mem o u q := by
      intro other
      cases u with
      | own k =>
        have away : k ≠ t := fun same => other (by rw [same])
        exact (update_of_ne away _ _).symm.trans use
      | _ => exact use
    by_cases here : u = .own t
    · subst here
      have same : update o.own t (some p) t = some q := use
      rw [update_self] at same
      exact .inl ⟨rfl,(Option.some.inj same).symm⟩
    · exact .inr ⟨here,fun same => unheld ⟨u,same ▸ old here⟩,old here⟩
  refine ⟨⟨held.chain,held.nodup,fun one two => ?_,fun one => ?_,held.kernel,held.blank⟩,ok.alternating,ok.freed⟩
  · rcases back one with ⟨rfl,rfl⟩ | ⟨_,ne,old⟩
    · rcases back two with ⟨rfl,_⟩ | ⟨_,ne,_⟩
      · rfl
      · exact absurd rfl ne
    · rcases back two with ⟨rfl,rfl⟩ | ⟨_,_,old'⟩
      · exact absurd rfl ne
      · exact held.exclusive old old'
  · rcases back one with ⟨rfl,rfl⟩ | ⟨_,_,old⟩
    · exact managed
    · exact held.managed old

theorem Ok.unpin (ok : Ok L s ⟨update own t (some p),dirs,free⟩) (vacant : own t = none) :
    Ok L s ⟨own,dirs,free⟩ ∧ ¬ Held s.mem ⟨own,dirs,free⟩ p := by
  have restored := update_back (p := p) vacant
  have dropped := ok.drop t
  have unheld := ok.unheld_of_own (update_self t (some p) own)
  rw [restored] at dropped unheld
  exact ⟨dropped,fun ⟨u,use⟩ => unheld u use⟩

theorem Ok.release_held (ok : Ok L s o) (mine : o.own t = some p) :
    SameView s.mem (released s p).mem o.dirs ∧
    ∀ q, Held s.mem o q → Held (released s p).mem ⟨update o.own t none,o.dirs,p :: o.free⟩ q := by
  have managed := ok.custody.managed (u := .own t) mine
  have view := (ok.custody.loose_view (ok.custody.loose_own mine) (junk_others s.mem p s.freelist managed.1)).1
  refine ⟨view,fun q ⟨u,use⟩ => ?_⟩
  have now := (view.holds).mpr use
  cases u with
  | free => exact ⟨.free,.tail _ use⟩
  | own k =>
    by_cases here : k = t
    · subst here
      have same : p = q := Option.some.inj (mine.symm.trans use)
      exact ⟨.free,same ▸ List.mem_cons_self ..⟩
    · exact ⟨.own k,(update_of_ne here _ _).trans use⟩
  | dir b => exact ⟨.dir b,now⟩
  | table b i => exact ⟨.table b i,now⟩
  | user b v => exact ⟨.user b v,now⟩

theorem chain_unique {free other : List Nat} (one : Chain m head free) (two : Chain m head other) : free = other := by
  induction free generalizing head other with
  | nil =>
    cases other with
    | nil => rfl
    | cons q rest => have zero : head = 0 := one; have := two.1; omega
  | cons p rest ih =>
    cases other with
    | nil => have zero : head = 0 := two; have := one.1; omega
    | cons q more =>
      have same : p = q := by have := one.1; have := two.1; omega
      subst same
      rw [ih one.2 two.2]

end Allocator

section Counting

def absent (m : Bytes.Store) (d : Nat) : Nat := (List.range 1024).countP fun i => (tableOf m d i).isNone

theorem absent_le (m : Bytes.Store) (d : Nat) : absent m d ≤ 1024 := by
  have bound := List.countP_le_length (p := fun i => (tableOf m d i).isNone) (l := List.range 1024)
  rwa [List.length_range] at bound

theorem countP_flip {l : List Nat} {P Q : Nat → Bool} (nodup : l.Nodup) (member : i ∈ l) (was : P i = true) (now : Q i = false)
    (same : ∀ j ∈ l, j ≠ i → Q j = P j) : l.countP Q + 1 = l.countP P := by
  induction l with
  | nil => cases member
  | cons head rest ih =>
    rw [List.nodup_cons] at nodup
    by_cases first : head = i
    · subst first
      have tail : rest.countP Q = rest.countP P := by
        apply List.countP_congr
        intro j inside
        rw [same j (List.mem_cons_of_mem _ inside) fun equal => nodup.1 (equal ▸ inside)]
      simp [was,now,tail]
    · have later : i ∈ rest := (List.mem_cons.mp member).resolve_left fun equal => first equal.symm
      have tail := ih nodup.2 later fun j inside => same j (.tail _ inside)
      rw [List.countP_cons,List.countP_cons,same head (List.mem_cons_self ..) first]
      omega

theorem absent_same (same : ∀ i < 1024, tableOf n d i = tableOf m d i) : absent n d = absent m d := by
  apply List.countP_congr
  intro i inside
  rw [same i (List.mem_range.mp inside)]

theorem absent_attach (small : i < 1024) (was : tableOf m d i = none) (now : tableOf n d i = some t)
    (same : ∀ j < 1024, j ≠ i → tableOf n d j = tableOf m d j) : absent n d + 1 = absent m d := by
  apply countP_flip List.nodup_range (List.mem_range.mpr small)
  · simp [was]
  · simp [now]
  · intro j inside other
    rw [same j (List.mem_range.mp inside) other]

theorem absent_pos (small : i < 1024) (was : tableOf m d i = none) : 0 < absent m d := by
  apply List.countP_pos_iff.mpr
  exact ⟨i,List.mem_range.mpr small,by simp [was]⟩

def newTable (m n : Bytes.Store) (d i : Nat) : Option Nat :=
  match tableOf m d i with
  | none => tableOf n d i
  | some _ => none

def newTables (m n : Bytes.Store) (d : Nat) : List Nat := (List.range 1024).filterMap (newTable m n d)

theorem newTable_eq_some : newTable m n d i = some q ↔ tableOf m d i = none ∧ tableOf n d i = some q := by
  unfold newTable
  cases tableOf m d i with
  | none => simp
  | some t => simp

theorem newTables_length (kept : ∀ i q, i < 1024 → tableOf m d i = some q → tableOf n d i = some q) :
    (newTables m n d).length + absent n d = absent m d := by
  have each : ∀ l : List Nat, (∀ i ∈ l, i < 1024) → (l.filterMap (newTable m n d)).length +
      l.countP (fun i => (tableOf n d i).isNone) = l.countP fun i => (tableOf m d i).isNone := by
    intro l
    induction l with
    | nil => exact fun _ => rfl
    | cons i rest ih =>
      intro inside
      have tail := ih fun j member => inside j (.tail _ member)
      rw [List.filterMap_cons,List.countP_cons,List.countP_cons]
      cases was : tableOf m d i with
      | none =>
        have is_new : newTable m n d i = tableOf n d i := by rw [newTable,was]
        rw [is_new]
        cases now : tableOf n d i with
        | none => simp only [Option.isNone_none,if_true]; omega
        | some q => simp only [Option.isNone_none,Option.isNone_some,if_true,Bool.false_eq_true,if_false,List.length_cons]; omega
      | some q =>
        have is_old : newTable m n d i = none := by rw [newTable,was]
        rw [is_old,kept i q (inside i (List.mem_cons_self ..)) was]
        simp only [Option.isNone_some,Bool.false_eq_true,if_false]; omega
  exact each _ fun i => List.mem_range.mp

end Counting

section Walk
variable {L : Layout} {s : Machine} {o : Owners} {a : Space} {d : Nat}

-- Work on the tables of one address space: new tables come off the free list,
-- and outside the directory, its tables and those pages memory is as before.
structure Tables (L : Layout) (o : Owners) (d : Nat) (s next : Machine) (o' : Owners) : Prop where
  ok : Ok L next o'
  dirs : o'.dirs = o.dirs
  quiet : Quiet s next
  free : ∀ q ∈ o'.free, q ∈ o.free
  frame : q % 4096 = 0 → q ∉ o.free → (∀ i < 1024, tableOf s.mem d i ≠ some q) → q ≠ d → SamePage s.mem next.mem q
  kept : i < 1024 → tableOf s.mem d i = some q → tableOf next.mem d i = some q
  found : i < 1024 → tableOf next.mem d i = some q → tableOf s.mem d i = some q ∨ q ∈ o.free
  count : absent next.mem d + o.free.length = absent s.mem d + o'.free.length

theorem Tables.refl (ok : Ok L s o) (d : Nat) : Tables L o d s s o :=
  ⟨ok,rfl,.refl s,fun _ free => free,fun _ _ _ _ _ _ _ => rfl,fun _ found => found,fun _ found => .inl found,rfl⟩

theorem Tables.trans (one : Tables L o d s next o') (two : Tables L o' d next last o'') : Tables L o d s last o'' where
  ok := two.ok
  dirs := two.dirs.trans one.dirs
  quiet := one.quiet.trans two.quiet
  free q member := one.free q (two.free q member)
  frame := by
    intro q page notFree notTable notDir
    apply (one.frame page notFree notTable notDir).trans
    refine two.frame page (fun member => notFree (one.free q member)) (fun i small at_i => ?_) notDir
    rcases one.found small at_i with old | member
    · exact notTable i small old
    · exact notFree member
  kept small at_i := two.kept small (one.kept small at_i)
  found small at_i := by
    rcases two.found small at_i with old | member
    · exact one.found small old
    · exact .inr (one.free _ member)
  count := by have := one.count; have := two.count; omega

theorem frame_view (ok : Ok L s o) (dir : o.dirs a = some d)
    (frame : ∀ q, q % 4096 = 0 → q ∉ o.free → (∀ i < 1024, tableOf s.mem d i ≠ some q) → q ≠ d → SamePage s.mem n q) :
    SameView s.mem n (update o.dirs a none) := by
  have held := ok.custody
  refine others_view fun u q use outside _ notFree => ?_
  refine frame q (held.managed use).1 (fun free => notFree ?_) (fun i small found => outside ?_) fun same => outside ?_
  · exact held.exclusive use (show Holds s.mem o .free q from free)
  · rw [held.exclusive use (w := .table a i) ⟨d,dir,small,found⟩]; rfl
  · rw [held.exclusive use (show Holds s.mem o (.dir a) q from same ▸ dir)]; rfl

theorem Tables.view (done : Tables L o d s next o') (ok : Ok L s o) (dir : o.dirs a = some d) :
    SameView s.mem next.mem (update o.dirs a none) :=
  frame_view ok dir fun _ => done.frame

theorem free_held (now : Ok L next o') (dir : o'.dirs a = some d) (extra : List Nat) (distinct : extra.Nodup)
    (fewer : ∀ q ∈ o'.free, q ∈ o.free) (kept : ∀ i q, i < 1024 → tableOf s.mem d i = some q → tableOf next.mem d i = some q)
    (found : ∀ i q, i < 1024 → tableOf next.mem d i = some q → tableOf s.mem d i = some q ∨ q ∈ o.free)
    (taken : ∀ q ∈ extra, q ∈ o.free ∧ ∃ u, Holds next.mem o' u q ∧ u ≠ .free ∧ ∀ i, u ≠ .table a i)
    (count : absent next.mem d + o.free.length = absent s.mem d + o'.free.length + extra.length) (free : p ∈ o.free) :
    Held next.mem o' p := by
  have held := now.custody
  have tables : ∀ q ∈ newTables s.mem next.mem d, q ∈ o.free ∧ ∃ i, Holds next.mem o' (.table a i) q := by
    intro q member
    obtain ⟨i,small,is_new⟩ := List.mem_filterMap.mp member
    obtain ⟨was,at_i⟩ := newTable_eq_some.mp is_new
    have small := List.mem_range.mp small
    refine ⟨(found i q small at_i).resolve_left fun old => ?_,i,d,dir,small,at_i⟩
    rw [was] at old; cases old
  have separate : (newTables s.mem next.mem d).Nodup := by
    refine List.Pairwise.filterMap _ ?_ (List.Pairwise.and_mem.mp (List.nodup_range))
    rintro i j ⟨one,two,other⟩ q at_i r at_j rfl
    have use : ∀ k, k ∈ List.range 1024 → newTable s.mem next.mem d k = some q → Holds next.mem o' (.table a k) q :=
      fun k small is_new => ⟨d,dir,List.mem_range.mp small,(newTable_eq_some.mp is_new).2⟩
    exact other (Use.table.inj (held.exclusive (use i one at_i) (use j two at_j))).2
  have nodup : (extra ++ (newTables s.mem next.mem d ++ o'.free)).Nodup := by
    rw [List.nodup_append',List.nodup_append']
    refine ⟨distinct,⟨separate,held.nodup,fun q table free => ?_⟩,fun q mine later => ?_⟩
    · obtain ⟨_,i,use⟩ := tables q table
      cases held.exclusive use (show Holds next.mem o' .free q from free)
    · obtain ⟨_,u,use,notFree,notTable⟩ := taken q mine
      rcases List.mem_append.mp later with table | free
      · obtain ⟨_,i,use'⟩ := tables q table
        exact notTable i (held.exclusive use use')
      · exact notFree (held.exclusive use (show Holds next.mem o' .free q from free))
  have subset : (extra ++ (newTables s.mem next.mem d ++ o'.free)) ⊆ o.free := by
    intro q member
    rcases List.mem_append.mp member with mine | later
    · exact (taken q mine).1
    · rcases List.mem_append.mp later with table | free
      · exact (tables q table).1
      · exact fewer q free
  have lengths := newTables_length kept
  have same := (List.subperm_of_subset nodup subset).perm_of_length_le (by rw [List.length_append,List.length_append]; omega)
  rcases List.mem_append.mp (same.mem_iff.mpr free) with mine | later
  · obtain ⟨_,u,use,_⟩ := taken p mine
    exact ⟨u,use⟩
  · rcases List.mem_append.mp later with table | free
    · obtain ⟨_,i,use⟩ := tables p table
      exact ⟨.table a i,use⟩
    · exact ⟨.free,free⟩

theorem Tables.saved (done : Tables L o d s next o') (ok : Ok L s o) (dir : o.dirs a = some d)
    (own : ∀ t p, o.own t = some p → Held next.mem o' p)
    (users : ∀ v < 524288, Present (pteOf s.mem d v) → Held next.mem o' (PTE_ADDR (pteOf s.mem d v))) :
    Saved a s.mem o next.mem o' := by
  have dir' : o'.dirs a = some d := by rw [done.dirs]; exact dir
  refine .of_space (fun b _ => by rw [done.dirs]) (done.view ok dir) (fun p use => ?_) own fun e there => ?_
  · exact free_held done.ok dir' [] List.nodup_nil done.free (fun i q => done.kept) (fun i q => done.found)
      (fun q no => by cases no) (by rw [List.length_nil,Nat.add_zero]; exact done.count) use
  · cases dir.symm.trans there with
    | refl => exact ⟨⟨.dir a,dir'⟩,fun i p small found => ⟨.table a i,d,dir',small,done.kept small found⟩,users⟩

theorem PDX_page (va : Nat) (small : va < 4294967296) : PDX va = va/4096/1024 := by unfold PDX; omega
theorem PTX_page (va : Nat) : PTX va = va/4096%1024 := rfl

theorem walkpgdir_look (d va : Nat) (small : va < 4294967296) (s : Machine) (E : Panic → Machine → Prop)
    (Q : Option Nat → Machine → Prop) :
    Sat (walkpgdir d va false) s E Q ↔ Q ((tableOf s.mem d (va/4096/1024)).map (· + 4*(va/4096%1024))) s := by
  unfold walkpgdir tableOf
  rw [sat_load_bind,PDX_page va small,PTX_page]
  by_cases present : Present (ld32 s.mem (d + 4*(va/4096/1024)))
  · rw [if_pos present,if_pos present,sat_pure]; exact Iff.rfl
  · rw [if_neg present,if_neg present,if_neg (by decide),sat_pure]; exact Iff.rfl

theorem fill_zero (m : Bytes.Store) (p : Nat) : ZeroPage (fill m p 4096 0) p :=
  fun _ low high => copy_in _ _ low high

theorem walkpgdir_alloc (ok : Ok L s o) (dir : o.dirs a = some d) (vacant : o.own t = none)
    (small : va < 4294967296) (E : Panic → Machine → Prop) :
    Sat (walkpgdir d va true) s E fun r next => ∃ o', Tables L o d s next o' ∧ o'.own = o.own ∧
      (∀ v < 1048576, pteOf next.mem d v = pteOf s.mem d v) ∧
      (∀ i < 1024, i ≠ va/4096/1024 → tableOf next.mem d i = tableOf s.mem d i) ∧
      match r with
      | none => tableOf next.mem d (va/4096/1024) = none ∧ (s.fails s.calls = true ∨ o'.free = []) ∧ o'.free = o.free
      | some x => next.calls + o'.free.length = s.calls + o.free.length ∧
          ∃ table, tableOf next.mem d (va/4096/1024) = some table ∧ x = table + 4*(va/4096%1024) := by
  have index : va/4096/1024 < 1024 := by omega
  unfold walkpgdir
  rw [sat_load_bind,PDX_page va small,PTX_page]
  by_cases present : Present (ld32 s.mem (d + 4*(va/4096/1024)))
  · rw [if_pos present,sat_pure]
    refine ⟨o,.refl ok d,rfl,fun _ _ => rfl,fun _ _ _ => rfl,rfl,PTE_ADDR (ld32 s.mem (d + 4*(va/4096/1024))),?_,rfl⟩
    unfold tableOf; rw [if_pos present]
  have none : tableOf s.mem d (va/4096/1024) = none := by unfold tableOf; rw [if_neg present]
  rw [if_neg present,if_pos rfl]
  apply (kalloc_spec ok vacant E).bind
  rintro r got ⟨quiet,mem,calls,result⟩
  cases r with
  | none =>
    obtain ⟨why,ok'⟩ := result
    refine .done ⟨o,⟨ok',rfl,quiet,fun _ free => free,?_,?_,?_,by rw [mem]⟩,rfl,by rw [mem]; exact fun _ _ => rfl,
      by rw [mem]; exact fun _ _ _ => rfl,by rw [mem]; exact none,why,rfl⟩
    · intro q _ _ _ _ x _ _; rw [mem]
    · intro i q _ found; rwa [mem]
    · intro i q _ found; left; rwa [mem] at found
  | some p =>
    obtain ⟨_,rest,list,ok'⟩ := result
    rw [sat_memset_bind,sat_store_bind,sat_pure]
    have mine := update_self t (some p) o.own
    have managed := ok'.custody.managed (u := .own t) mine
    have page := managed.1
    have d_page := (ok.custody.managed (u := .dir a) dir).1
    have away := fill_away got.mem page
    have cleared := ok'.write (ok'.custody.loose_own mine) (fill got.mem p 4096 0) away
    have d_other : d ≠ p := by
      rintro rfl
      cases ok'.custody.exclusive (show Holds got.mem _ (.own t) d from mine) (show Holds got.mem _ (.dir a) d from dir)
    have still : ∀ i < 1024, tableOf (fill got.mem p 4096 0) d i = tableOf s.mem d i := fun i small => by
      rw [tableOf_same (away d d_page d_other) small,mem]
    have lacks : tableOf (fill got.mem p 4096 0) d (va/4096/1024) = Option.none := by rw [still _ index]; exact none
    have attached := cleared.custody.attach dir index lacks mine (fill_zero got.mem p)
    have view := cleared.custody.attach_view dir index lacks mine (fill_zero got.mem p) _ rfl
    obtain ⟨now,tables,ptes⟩ := view
    have restored := update_back (p := p) vacant
    have member : p ∈ o.free := by rw [list]; exact .head _
    have same : ∀ i < 1024, i ≠ va/4096/1024 →
        tableOf (st32 (fill got.mem p 4096 0) (d+4*(va/4096/1024)) (p ||| 7)) d i = tableOf s.mem d i := by
      intro i small other
      rw [tables a d i dir small (by simpa using other)]
      exact still i small
    refine ⟨⟨o.own,o.dirs,rest⟩,⟨⟨?_,ok'.alternating,ok'.freed⟩,rfl,⟨quiet.fails,quiet.grown,quiet.loaded,quiet.unmapped⟩,
      ?_,?_,?_,?_,?_⟩,rfl,?_,same,?_,p,now,rfl⟩
    · rw [← restored]; exact attached
    · intro q inside; rw [list]; exact .tail _ inside
    · intro q aligned notFree notTable notDir
      have other : q ≠ p := fun equal => notFree (equal ▸ member)
      have first : SamePage s.mem (fill got.mem p 4096 0) q := by rw [← mem]; exact away q aligned other
      have second : SamePage (fill got.mem p 4096 0) (st32 (fill got.mem p 4096 0) (d+4*(va/4096/1024)) (p ||| 7)) q :=
        samePage_copy _ (by omega) aligned d_page notDir
      exact first.trans second
    · intro i q small found
      by_cases at_i : i = va/4096/1024
      · rw [at_i,none] at found; cases found
      · rw [same i small at_i]; exact found
    · intro i q small found
      by_cases at_i : i = va/4096/1024
      · subst at_i
        have equal : some p = some q := now.symm.trans found
        cases equal
        exact .inr member
      · left; rw [← same i small at_i]; exact found
    · have fewer := absent_attach index none now same
      show absent (st32 _ _ _) d + o.free.length = absent s.mem d + rest.length
      rw [list,List.length_cons]; omega
    · intro v inside
      rw [ptes a d v dir inside]
      have untouched : ∀ q, tableOf got.mem d (v/1024) = some q → SamePage got.mem (fill got.mem p 4096 0) q := by
        intro q found
        have use : Holds got.mem ⟨update o.own t (some p),o.dirs,rest⟩ (.table a (v/1024)) q :=
          ⟨d,dir,by omega,found⟩
        refine away q (ok'.custody.managed use).1 ?_
        rintro rfl
        cases ok'.custody.exclusive use (show Holds got.mem _ (.own t) q from mine)
      rw [pteOf_same (away d d_page d_other) inside untouched,mem]
    · show got.calls + rest.length = s.calls + o.free.length
      rw [calls,list,List.length_cons]; omega

end Walk
end Xv6.Vm
