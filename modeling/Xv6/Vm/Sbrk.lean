import Xv6.Vm.Ranges

namespace Xv6.Vm
open Bytes Exec

-- sbrk as its caller sees it: sizes are unsigned, the argument is signed, and 0 is the
-- error value of both allocuvm and deallocuvm.

section Bytes
variable {L : Layout} {s next : Machine} {o : Owners} {a : Space} {d oldsz newsz : Nat}

theorem userByte_same (entry : pteOf n d (x/4096) = pteOf m d (x/4096)) (page : SamePage m n (PTE_ADDR (pteOf m d (x/4096)))) :
    userByte n d x = userByte m d x := by
  unfold userByte
  rw [entry]
  exact page _ (by omega) (by omega)

theorem Ok.user_page (ok : Ok L s o) (dir : o.dirs a = some d) (small : v < 524288) (present : Present (pteOf s.mem d v)) :
    PTE_ADDR (pteOf s.mem d v) % 4096 = 0 ∧ PTE_ADDR (pteOf s.mem d v) ∉ o.free ∧ PTE_ADDR (pteOf s.mem d v) ≠ d ∧
    (∀ i < 1024, tableOf s.mem d i ≠ some (PTE_ADDR (pteOf s.mem d v))) ∧
    ∀ x < 524288, x ≠ v → Present (pteOf s.mem d x) → PTE_ADDR (pteOf s.mem d x) ≠ PTE_ADDR (pteOf s.mem d v) := by
  have use : Holds s.mem o (.user a v) (PTE_ADDR (pteOf s.mem d v)) := ⟨d,dir,small,present,rfl⟩
  have held := ok.custody
  refine ⟨(held.managed use).1,fun free => ?_,fun same => ?_,fun i bound found => ?_,fun x bound other there same => ?_⟩
  · cases held.exclusive use (show Holds s.mem o .free _ from free)
  · cases held.exclusive use (show Holds s.mem o (.dir a) _ from dir.trans (congrArg some same.symm))
  · cases held.exclusive use (show Holds s.mem o (.table a i) _ from ⟨d,dir,bound,found⟩)
  · cases held.exclusive (show Holds s.mem o (.user a x) _ from ⟨d,dir,bound,there,same⟩) use
    exact other rfl

theorem Allocs.page (alloc : Allocs L o a d oldsz newsz s r next) (ok : Ok L s o) (dir : o.dirs a = some d) (clean : Clean s.mem d oldsz)
    (small : v < 524288) (present : Present (pteOf s.mem d v)) : SamePage s.mem next.mem (PTE_ADDR (pteOf s.mem d v)) := by
  obtain ⟨page,notFree,notDir,noTable,_⟩ := ok.user_page dir small present
  exact alloc.frame page notFree noTable notDir fun _ x bound above there => absurd there (clean x bound above)

theorem Sweeps.page (sweeps : Sweeps L o a d v oldsz s next) (ok : Ok L s o) (dir : o.dirs a = some d) (top : oldsz ≤ 2147483648)
    (small : x < 524288) (present : Present (pteOf s.mem d x)) (outside : ¬ Swept s.mem d v oldsz x) :
    SamePage s.mem next.mem (PTE_ADDR (pteOf s.mem d x)) := by
  obtain ⟨page,_,_,noTable,apart⟩ := ok.user_page dir small present
  refine sweeps.frame page noTable fun y swept there => apart y ?_ (fun same => outside (same ▸ swept)) there
  have := swept.2.1; omega

end Bytes

section Sbrk
variable {L : Layout} {s next : System} {p : Nat} {n : Int}

structure SbrkExact (s next : System) (p : Nat) (n : Int) : Prop where
  size : ((next.procs p).sz : Int) = (s.procs p).sz + n
  below : (next.procs p).sz < 2147483648
  pgdir : (next.procs p).pgdir = (s.procs p).pgdir
  mapped : x < 524288 → (Present (pteOf next.vm.mem (s.procs p).pgdir x) ↔ 4096*x < PGROUNDUP (next.procs p).sz)
  kept : x < (s.procs p).sz → x < (next.procs p).sz → userByte next.vm.mem (s.procs p).pgdir x = userByte s.vm.mem (s.procs p).pgdir x
  zero : (s.procs p).sz ≤ x → x < (next.procs p).sz → userByte next.vm.mem (s.procs p).pgdir x = 0

structure SbrkUndone (s next : System) (p : Nat) : Prop where
  proc : next.procs p = s.procs p
  mapped : x < 1048576 → pteOf next.vm.mem (s.procs p).pgdir x = pteOf s.vm.mem (s.procs p).pgdir x
  kept : x < (s.procs p).sz → userByte next.vm.mem (s.procs p).pgdir x = userByte s.vm.mem (s.procs p).pgdir x

def SbrkRight (s next : System) (p : Nat) (n r : Int) : Prop :=
  (r = (s.procs p).sz ∧ SbrkExact s next p n) ∨ (r = -1 ∧ SbrkUndone s next p)

structure Sized (L : Layout) (s : System) (free : List Nat) (p : Nat) : Prop where
  ok : Ok L s.vm (owners s free)
  live : (s.procs p).state.Live
  size : (s.procs p).sz < 2147483648
  below : 4096*x < (s.procs p).sz → Present (pteOf s.vm.mem (s.procs p).pgdir x)
  clean : Clean s.vm.mem (s.procs p).pgdir (s.procs p).sz

theorem Sized.dir (sized : Sized L s free p) : (owners s free).dirs (.proc p) = some (s.procs p).pgdir :=
  dirs_live sized.live

theorem Sized.pgdir_pos (sized : Sized L s free p) : (s.procs p).pgdir ≠ 0 := fun zero => by
  have managed := sized.ok.custody.managed (u := .dir (.proc p)) sized.dir
  have := managed.2.1
  have := L.text
  have := L.image
  omega

def resized (s : System) (p sz : Nat) (vm : Machine) : System :=
  if sz = 0 then { s with vm := vm } else { s with vm := vm, procs := Function.update s.procs p { s.procs p with sz := sz } }

theorem sysSbrk_moves (sized : Sized L s free p) (moves : n ≠ 0)
    (run : Sat (if 0 < n then allocuvm L (s.procs p).pgdir (s.procs p).sz (((s.procs p).sz + n).emod 4294967296).toNat
      else deallocuvm L (s.procs p).pgdir (s.procs p).sz (((s.procs p).sz + n).emod 4294967296).toNat) s.vm (fun _ _ => False) P) :
    Sat (sysSbrk L p n) s (fun _ _ => False) fun r next => ∃ sz vm, P sz vm ∧ r = (if sz = 0 then -1 else ((s.procs p).sz : Int)) ∧
      next = resized s p sz vm := by
  have pgdir := sized.pgdir_pos
  -- the process table is switched to the new size, if there is one
  have finish : ∀ sz vm, P sz vm → Sat ((if sz = 0 then pure (-1) else do
      setProc p fun proc => { proc with sz := sz }
      switchuvm p
      return 0 : K Int) >>= fun r => if r < 0 then pure (-1) else pure ((s.procs p).sz : Int)) { s with vm := vm } (fun _ _ => False)
      fun r next => ∃ sz vm, P sz vm ∧ r = (if sz = 0 then -1 else ((s.procs p).sz : Int)) ∧ next = resized s p sz vm := by
    intro sz vm post
    by_cases zero : sz = 0
    · rw [if_pos zero,sat_pure_bind,if_pos (by decide),sat_pure]
      exact ⟨sz,vm,post,by rw [if_pos zero],by rw [resized,if_pos zero]⟩
    rw [if_neg zero]
    unfold setProc switchuvm
    simp only [sat_bind,sat_modify,sat_get,Function.update_self]
    rw [if_neg pgdir]
    simp only [sat_pure]
    exact .done ⟨sz,vm,post,by rw [if_neg zero],by rw [resized,if_neg zero]⟩
  unfold sysSbrk growproc
  rw [sat_get_bind,sat_bind,sat_get_bind]
  by_cases grows : 0 < n
  · rw [if_pos grows] at run ⊢
    refine sat_onVm_bind run fun sz vm post => ?_
    exact (sat_bind ..).mp (finish sz vm post)
  · rw [if_neg grows] at run ⊢
    rw [if_pos (by omega)]
    refine sat_onVm_bind run fun sz vm post => ?_
    exact (sat_bind ..).mp (finish sz vm post)

theorem resized_vm (s : System) (p sz : Nat) (vm : Machine) : (resized s p sz vm).vm = vm := by
  unfold resized; split <;> rfl

theorem resized_failed (s : System) (p : Nat) (vm : Machine) : (resized s p 0 vm).procs p = s.procs p := rfl

theorem resized_proc (s : System) (p : Nat) (vm : Machine) (some_size : sz ≠ 0) :
    (resized s p sz vm).procs p = { s.procs p with sz := sz } := by
  rw [resized,if_neg some_size]; exact Function.update_self ..

theorem Sized.undone (sized : Sized L s free p)
    (alloc : Allocs L (owners s free) (.proc p) (s.procs p).pgdir (s.procs p).sz newsz s.vm 0 vm) : SbrkUndone s (resized s p 0 vm) p := by
  have size := sized.size
  have dir := sized.dir
  have entries : ∀ x < 1048576, pteOf vm.mem (s.procs p).pgdir x = pteOf s.vm.mem (s.procs p).pgdir x := by
    intro x bound
    obtain ⟨cleared,same⟩ := alloc.undone rfl (start_aligned fun _ => sized.below) bound
    by_cases inside : newsz < 2147483648 ∧ (s.procs p).sz ≤ 4096*x ∧ 4096*x < newsz
    · rw [cleared inside.1 inside.2.1 inside.2.2,sized.ok.custody.blank dir (by omega) (sized.clean x (by omega) inside.2.1)]
    · exact same (by omega)
  refine ⟨resized_failed s p vm,fun {x} bound => ?_,fun {x} low => ?_⟩
  · rw [resized_vm]; exact entries x bound
  · exact userByte_same (entries _ (by omega)) (alloc.page sized.ok dir sized.clean (by omega) (sized.below (by omega)))

section Grown
variable {vm : Machine} {newsz r : Nat}

section
variable (sized : Sized L s free p) (alloc : Allocs L (owners s free) (.proc p) (s.procs p).pgdir (s.procs p).sz newsz s.vm r vm) (success : r ≠ 0)
include sized alloc success

theorem Sized.kept (old : x < PGROUNDUP (s.procs p).sz) : userByte vm.mem (s.procs p).pgdir x = userByte s.vm.mem (s.procs p).pgdir x := by
  have size := sized.size
  have up := PGROUNDUP_eq (n := (s.procs p).sz) (by omega)
  exact userByte_same (alloc.outside success (by omega) (.inl (by omega)))
    (alloc.page sized.ok sized.dir sized.clean (by omega) (sized.below (by omega)))

theorem Sized.grown (sum : (newsz : Int) = (s.procs p).sz + n) (grows : (s.procs p).sz < newsz)
    (all : AllMapped s.vm vm (s.procs p).pgdir (s.procs p).sz newsz)
    (stale : ∀ x, (s.procs p).sz ≤ x → x < newsz → x < PGROUNDUP (s.procs p).sz → userByte s.vm.mem (s.procs p).pgdir x = 0) :
    SbrkExact s (resized s p r vm) p n := by
  have size := sized.size
  obtain ⟨reached,below⟩ := alloc.size success
  obtain rfl : r = newsz := by omega
  have up := PGROUNDUP_eq (n := (s.procs p).sz) (by omega)
  have up' := PGROUNDUP_eq (n := r) (by omega)
  have proc := resized_proc s p vm success
  refine ⟨by rw [proc]; exact sum,by rw [proc]; exact below,by rw [proc],fun {x} small => ?_,fun {x} old _ => ?_,fun {x} low high => ?_⟩
  · rw [resized_vm,proc]
    show _ ↔ 4096*x < PGROUNDUP r
    by_cases old : 4096*x < (s.procs p).sz
    · rw [all.others (by omega) (.inl (by omega))]
      exact ⟨fun _ => by omega,fun _ => sized.below old⟩
    · by_cases new : 4096*x < r
      · exact ⟨fun _ => by omega,fun _ => (all.mapped (by omega) new).1⟩
      · rw [all.others (by omega) (.inr (by omega))]
        exact ⟨fun present => absurd present (sized.clean x small (by omega)),fun no => by omega⟩
  · rw [resized_vm]; exact sized.kept alloc success (by omega)
  · rw [proc] at high
    rw [resized_vm]
    by_cases old : x < PGROUNDUP (s.procs p).sz
    · rw [sized.kept alloc success old]; exact stale x low high old
    · obtain ⟨_,_,_,zero⟩ := all.mapped (x := x/4096) (by omega) (by have : x < r := high; omega)
      exact zero _ (by omega) (by omega)

end

end Grown

theorem sbrk_grows (sized : Sized L s free p) (grows : 0 < n) (word : n < 2147483648) :
    ∃ r next, sysSbrk L p n s = (.ok r,next) ∧ (r = -1 → SbrkRight s next p n r) ∧ (r ≠ -1 → (SbrkRight s next p n r ↔
      ¬ FirstRefused s.vm free.length
          (TableCall 0 s.vm.mem (s.procs p).pgdir (((s.procs p).sz+4095)/4096) ((s.procs p).sz+n.toNat)) ∧
      ∀ x, (s.procs p).sz ≤ x → x < (s.procs p).sz+n.toNat → x < PGROUNDUP (s.procs p).sz → userByte s.vm.mem (s.procs p).pgdir x = 0)) := by
  have size := sized.size
  have dir := sized.dir
  have target : (((s.procs p).sz + n).emod 4294967296).toNat = (s.procs p).sz+n.toNat := by
    rw [show ((s.procs p).sz : Int) + n = ((s.procs p).sz+n.toNat : Nat) by omega]
    show (((s.procs p).sz+n.toNat : Nat) % (4294967296 : Int)).toNat = _
    omega
  have run := sysSbrk_moves sized (show n ≠ 0 by omega) (by
    rw [if_pos grows,target]
    exact allocuvm_clean sized.ok dir (idle_owners s free) sized.clean size)
  obtain ⟨r,next,ran,size',vm,⟨alloc,counts⟩,rfl,rfl⟩ := run.returns
  refine ⟨_,_,ran,fun failed => ?_,fun success => ?_⟩
  · have zero : size' = 0 := by
      by_contra some_size
      rw [if_neg some_size] at failed; omega
    subst zero
    exact .inr ⟨rfl,sized.undone alloc⟩
  · have some_size : size' ≠ 0 := fun zero => success (by rw [if_pos zero])
    rw [if_neg some_size]
    have proc := resized_proc s p vm some_size
    obtain ⟨reached,below⟩ := alloc.size some_size
    have iff := alloc.allMapped_iff dir (by omega) (counts (by omega)) some_size
    refine ⟨?_,fun ⟨fine,stale⟩ => .inl ⟨rfl,sized.grown alloc some_size (by omega) (by omega) (iff.mpr fine) stale⟩⟩
    rintro (⟨_,right⟩ | ⟨minus,_⟩)
    · have up := PGROUNDUP_eq (n := size') (by omega)
      refine ⟨iff.mp ?_,fun x low high old => ?_⟩
      · refine alloc.allMapped dir some_size (by omega) (not_not.mp fun lost => ?_)
        obtain ⟨x,_,high,missing⟩ := alloc.gap some_size lost
        have mapped := right.mapped (x := x) (by omega)
        rw [resized_vm,proc] at mapped
        exact missing (mapped.mpr (show 4096*x < PGROUNDUP size' by omega))
      · have zero := right.zero low (by rw [proc]; show x < size'; omega)
        rw [resized_vm,sized.kept alloc some_size old] at zero
        exact zero
    · omega

section Shrunk
variable {vm : Machine} {newsz : Nat}

theorem Sized.swept_iff (sized : Sized L s free p) :
    Swept s.vm.mem (s.procs p).pgdir v (s.procs p).sz x ↔ v ≤ x ∧ 4096*x < (s.procs p).sz := by
  refine ⟨fun swept => ⟨swept.1,swept.2.1⟩,fun ⟨low,high⟩ => .of_aligned (.inr fun missing => ?_) low high⟩
  have there := table_of_present (sized.below (x := v) (by omega))
  rw [missing] at there; cases there

theorem Sized.shrunk (sized : Sized L s free p)
    (sweeps : Sweeps L (owners s free) (.proc p) (s.procs p).pgdir ((newsz+4095)/4096) (s.procs p).sz s.vm vm)
    (sum : (newsz : Int) = (s.procs p).sz + n) (less : newsz < (s.procs p).sz) (positive : newsz ≠ 0) :
    SbrkExact s (resized s p newsz vm) p n := by
  have size := sized.size
  have proc := resized_proc s p vm positive
  have up := PGROUNDUP_eq (n := newsz) (by omega)
  have stays : ∀ x < 1048576, 4096*x < newsz ∨ (s.procs p).sz ≤ 4096*x →
      pteOf vm.mem (s.procs p).pgdir x = pteOf s.vm.mem (s.procs p).pgdir x := fun x bound away =>
    sweeps.outside bound fun swept => by have := sized.swept_iff.mp swept; omega
  refine ⟨by rw [proc]; exact sum,by rw [proc]; exact Nat.lt_trans less size,by rw [proc],fun {x} small => ?_,fun {x} old new => ?_,
    fun {x} low high => ?_⟩
  · rw [resized_vm,proc]
    show _ ↔ 4096*x < PGROUNDUP newsz
    by_cases kept : 4096*x < newsz
    · rw [stays x (by omega) (.inl kept)]
      exact ⟨fun _ => by omega,fun _ => sized.below (by omega)⟩
    by_cases gone : 4096*x < (s.procs p).sz
    · rw [sweeps.inside (sized.swept_iff.mpr ⟨by omega,gone⟩)]
      exact ⟨fun no => (by cases no),fun no => by omega⟩
    · rw [stays x (by omega) (.inr (by omega))]
      exact ⟨fun present => absurd present (sized.clean x small (by omega)),fun no => by omega⟩
  · rw [proc] at new
    have new' : x < newsz := new
    rw [resized_vm]
    refine userByte_same (stays _ (by omega) (.inl (by omega))) (sweeps.page sized.ok sized.dir (by omega) (by omega)
      (sized.below (by omega)) fun swept => ?_)
    have := sized.swept_iff.mp swept; omega
  · rw [proc] at high
    have high' : x < newsz := high
    omega

end Shrunk

theorem sbrk_shrinks (sized : Sized L s free p) (shrinks : n < 0) (word : -2147483648 ≤ n) :
    ∃ r next, sysSbrk L p n s = (.ok r,next) ∧ (SbrkRight s next p n r ↔ 0 < (s.procs p).sz + n ∨ (s.procs p).sz = 0) := by
  have size := sized.size
  have dir := sized.dir
  generalize target : (((s.procs p).sz + n).emod 4294967296).toNat = newsz
  have wrap : (0 ≤ (s.procs p).sz + n ∧ (newsz : Int) = (s.procs p).sz + n) ∨
      ((s.procs p).sz + n < 0 ∧ 2147483648 ≤ newsz ∧ newsz < 4294967296) := by
    have : (((s.procs p).sz + n) % 4294967296).toNat = newsz := target
    omega
  have run := sysSbrk_moves sized (show n ≠ 0 by omega) (by
    rw [if_neg (by omega),target]
    exact deallocuvm_spec sized.ok dir (show (s.procs p).sz ≤ 2147483648 by omega))
  obtain ⟨r,next,ran,size',vm,⟨result,sweeps⟩,rfl,rfl⟩ := run.returns
  refine ⟨_,_,ran,?_⟩
  rcases wrap with ⟨positive,sum⟩ | ⟨negative,high,_⟩
  · rw [Nat.min_eq_right (by omega)] at result
    subst result
    by_cases zero : size' = 0
    · -- everything was freed, and -1 is the answer
      subst zero
      refine ⟨?_,fun no => by omega⟩
      rintro (⟨minus,_⟩ | ⟨_,undone⟩)
      · omega
      have gone := sweeps.inside (sized.swept_iff.mpr ⟨.refl,by omega⟩)
      have there := sized.below (x := 0) (by omega)
      have same := undone.mapped (x := 0) (by decide)
      rw [resized_vm] at same
      rw [← same,gone] at there
      cases there
    · rw [if_neg zero]
      exact ⟨fun _ => .inl (by omega),fun _ => .inl ⟨rfl,sized.shrunk sweeps sum (by omega) zero⟩⟩
  · -- the sum wrapped to a size that is no smaller
    rw [Nat.min_eq_left (by omega)] at result
    subst result
    have stays : ∀ x < 1048576, pteOf vm.mem (s.procs p).pgdir x = pteOf s.vm.mem (s.procs p).pgdir x := fun x bound =>
      sweeps.outside bound fun swept => by have := sized.swept_iff.mp swept; omega
    by_cases zero : (s.procs p).sz = 0
    · refine ⟨fun _ => .inr zero,fun _ => .inr ⟨by rw [if_pos zero],?_⟩⟩
      rw [zero]
      exact ⟨resized_failed s p vm,fun {x} bound => by rw [resized_vm]; exact stays x bound,fun {x} low => by omega⟩
    refine ⟨?_,fun no => by omega⟩
    rintro (⟨_,right⟩ | ⟨minus,_⟩)
    · have wrong := right.size
      rw [resized_proc s p vm zero] at wrong
      have : ((s.procs p).sz : Int) = (s.procs p).sz + n := wrong
      omega
    · omega

theorem sbrk_rests (sized : Sized L s free p) : sysSbrk L p 0 s = (.ok ((s.procs p).sz : Int),s) ∧ SbrkRight s s p 0 (s.procs p).sz := by
  have size := sized.size
  have up := PGROUNDUP_eq (n := (s.procs p).sz) (by omega)
  refine ⟨?_,.inl ⟨rfl,by omega,size,rfl,fun {x} small => ?_,fun _ _ => rfl,fun {x} low high => by omega⟩⟩
  · have run : Sat (sysSbrk L p 0) s (fun _ _ => False) fun r next => r = ((s.procs p).sz : Int) ∧ next = s := by
      unfold sysSbrk growproc switchuvm
      simp only [sat_bind,sat_get]
      rw [if_neg (by decide),if_neg (by decide)]
      simp only [sat_bind,sat_get]
      rw [if_neg sized.pgdir_pos]
      simp only [sat_pure]
      exact .done ⟨rfl,rfl⟩
    obtain ⟨_,_,ran,rfl,rfl⟩ := run.returns
    exact ran
  · by_cases low : 4096*x < (s.procs p).sz
    · exact ⟨fun _ => by omega,fun _ => sized.below low⟩
    · exact ⟨fun present => absurd present (sized.clean x small (by omega)),fun no => by omega⟩

-- sbrk is right about a shrinking size that stays positive and about every growth that
-- fails. Growth that succeeds is right when the first call of kalloc that fails is not
-- one for a table, and what the last page held above the old size is zero.
theorem sbrk_exact (L : Layout) (s : System) (free : List Nat) (p : Nat) (n : Int) (sized : Sized L s free p)
    (word : -2147483648 ≤ n ∧ n < 2147483648) : ∃ r next, sysSbrk L p n s = (.ok r,next) ∧
      (n = 0 → SbrkRight s next p n r) ∧
      (n < 0 → (SbrkRight s next p n r ↔ 0 < (s.procs p).sz + n ∨ (s.procs p).sz = 0)) ∧
      (0 < n → r = -1 → SbrkRight s next p n r) ∧
      (0 < n → r ≠ -1 → (SbrkRight s next p n r ↔
        ¬ FirstRefused s.vm free.length
            (TableCall 0 s.vm.mem (s.procs p).pgdir (((s.procs p).sz+4095)/4096) ((s.procs p).sz+n.toNat)) ∧
        ∀ x, (s.procs p).sz ≤ x → x < (s.procs p).sz+n.toNat → x < PGROUNDUP (s.procs p).sz →
          userByte s.vm.mem (s.procs p).pgdir x = 0)) := by
  rcases Int.lt_trichotomy n 0 with shrinks | rfl | grows
  · obtain ⟨r,next,ran,iff⟩ := sbrk_shrinks sized shrinks word.1
    exact ⟨r,next,ran,fun no => by omega,fun _ => iff,fun no => by omega,fun no => by omega⟩
  · obtain ⟨ran,right⟩ := sbrk_rests sized
    exact ⟨_,_,ran,fun _ => right,fun no => by omega,fun no => by omega,fun no => by omega⟩
  · obtain ⟨r,next,ran,failed,success⟩ := sbrk_grows sized grows word.2
    exact ⟨r,next,ran,fun no => by omega,fun no => by omega,fun _ => failed,fun _ => success⟩

end Sbrk

theorem boot_sized (fails : Nat → Bool) (late : ∀ k, fails k = true → 133 < k) : ∃ s free,
    main smallKernel [] (powerOn (fun _ => 0) fails) = (.ok (),s) ∧ Sized smallKernel s free 0 ∧ (s.procs 0).sz = 4096 ∧
    s.vm.fails = fails ∧ 56000 ≤ free.length := by
  obtain ⟨s,ran,_,same,booted⟩ := boots fails late
  obtain ⟨free,pages,many⟩ := booted.free
  obtain ⟨u,page,entry⟩ := booted.code
  have size := booted.size
  refine ⟨s,free,ran,⟨pages,by rw [booted.runs]; decide,by omega,fun {x} low => ?_,by rw [size]; exact booted.clean⟩,size,same,many⟩
  obtain rfl : x = 0 := by omega
  exact (entry_parts page (by decide) _ entry).1

theorem sbrk_frees_and_fails : ∃ s next, main smallKernel [] (powerOn (fun _ => 0) fun _ => false) = (.ok (),s) ∧
    sysSbrk smallKernel 0 (-4096) s = (.ok (-1),next) ∧
    Present (pteOf s.vm.mem (s.procs 0).pgdir 0) ∧ ¬ Present (pteOf next.vm.mem (s.procs 0).pgdir 0) := by
  obtain ⟨s,free,ran,sized,size,_⟩ := boot_sized (fun _ => false) fun k no => by cases no
  have run := sysSbrk_moves sized (show (-4096 : Int) ≠ 0 by decide) (by
    rw [if_neg (by decide),show ((((s.procs 0).sz : Int) + -4096).emod 4294967296).toNat = 0 by rw [size]; decide]
    exact deallocuvm_spec sized.ok sized.dir (show (s.procs 0).sz ≤ 2147483648 by omega))
  obtain ⟨_,_,ran',size',vm,⟨result,sweeps⟩,rfl,rfl⟩ := run.returns
  obtain rfl : size' = 0 := by omega
  refine ⟨s,_,ran,ran',sized.below (by omega),?_⟩
  rw [resized_vm,sweeps.inside (sized.swept_iff.mpr ⟨Nat.zero_le _,by omega⟩)]
  decide

theorem sbrk_shrinks_first : ∃ s free, Sized smallKernel s free 0 ∧ ∃ r next,
    sysSbrk smallKernel 0 (-96) s = (.ok r,next) ∧ SbrkRight s next 0 (-96) r := by
  obtain ⟨s,free,ran,sized,size,_⟩ := boot_sized (fun _ => false) fun k no => by cases no
  obtain ⟨r,next,ran',_,shrinks,_⟩ := sbrk_exact smallKernel s free 0 (-96) sized (by decide)
  exact ⟨s,free,sized,r,next,ran',(shrinks (by decide)).mpr (.inl (by omega))⟩

end Xv6.Vm
