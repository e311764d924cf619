import Xv6.Vm.Boot

namespace Xv6.Vm
open Bytes Exec

-- What allocuvm and deallocuvm promise about a range of pages.

section Ranges
variable {L : Layout} {s next : Machine} {o : Owners} {a : Space} {d oldsz newsz : Nat}

structure AllMapped (s next : Machine) (d oldsz newsz : Nat) : Prop where
  mapped : PGROUNDUP oldsz ≤ 4096*x → 4096*x < newsz → Present (pteOf next.mem d x) ∧ Writable (pteOf next.mem d x) ∧
    UserBit (pteOf next.mem d x) ∧ ZeroPage next.mem (PTE_ADDR (pteOf next.mem d x))
  distinct : PGROUNDUP oldsz ≤ 4096*x → 4096*x < newsz → y < 524288 → Present (pteOf next.mem d y) → y ≠ x →
    PTE_ADDR (pteOf next.mem d y) ≠ PTE_ADDR (pteOf next.mem d x)
  others : x < 1048576 → 4096*x < PGROUNDUP oldsz ∨ newsz ≤ 4096*x → pteOf next.mem d x = pteOf s.mem d x

theorem Allocs.allMapped (alloc : Allocs L o a d oldsz newsz s r next) (dir : o.dirs a = some d) (success : r ≠ 0) (grow : oldsz ≤ newsz)
    (same : next.unmapped = s.unmapped) : AllMapped s next d oldsz newsz := by
  obtain ⟨size,top⟩ := alloc.size success
  have up := PGROUNDUP_eq (n := oldsz) (by omega)
  have range := fun x => alloc.range (x := x) success same
  refine ⟨fun {x} low high => ?_,fun {x y} low high small present other => ?_,fun bound away => alloc.outside success bound (by omega)⟩
  · obtain ⟨⟨present,user,_⟩,writable,zero⟩ := range x low high
    exact ⟨present,writable,user,zero⟩
  · obtain ⟨⟨present',_,_⟩,_,_⟩ := range x low high
    obtain ⟨free,ok,_,_⟩ := alloc.ok
    intro shared
    have one : Holds next.mem ⟨o.own,o.dirs,free⟩ (.user a x) (PTE_ADDR (pteOf next.mem d x)) := ⟨d,dir,by omega,present',rfl⟩
    have two : Holds next.mem ⟨o.own,o.dirs,free⟩ (.user a y) (PTE_ADDR (pteOf next.mem d x)) := ⟨d,dir,small,present,shared⟩
    cases ok.custody.exclusive two one
    exact other rfl

theorem start_aligned (below : ∀ x, 4096*x < oldsz → Present (pteOf m d x)) :
    (oldsz+4095)/4096%1024 = 0 ∨ tableOf m d ((oldsz+4095)/4096/1024) ≠ none := by
  by_cases first : (oldsz+4095)/4096%1024 = 0
  · exact .inl first
  right
  have there := table_of_present (below ((oldsz+4095)/4096-1) (by omega))
  rw [show ((oldsz+4095)/4096-1)/1024 = (oldsz+4095)/4096/1024 by omega] at there
  intro missing
  rw [missing] at there; cases there

theorem allocuvm_clean (ok : Ok L s o) (dir : o.dirs a = some d) (idle : Idle o) (clean : Clean s.mem d oldsz) (low : oldsz < 2147483648) :
    Sat (allocuvm L d oldsz newsz) s (fun _ _ => False) fun r next => Allocs L o a d oldsz newsz s r next ∧
      (newsz < 2147483648 → Counts L o d oldsz newsz s o.free.length 0 s.mem ((oldsz+4095)/4096) ((oldsz+4095)/4096) s r next) :=
  ((allocuvm_spec ok dir idle low).and (allocuvm_counts ok dir idle low (growing_here s d ((oldsz+4095)/4096) o.free))).stops
    (fun _ _ ⟨⟨_,x,small,above,present⟩,_⟩ => clean x small above present)

theorem Allocs.allMapped_iff (alloc : Allocs L o a d oldsz newsz s r next) (dir : o.dirs a = some d) (grow : oldsz ≤ newsz)
    (counts : Counts L o d oldsz newsz s o.free.length 0 s.mem ((oldsz+4095)/4096) ((oldsz+4095)/4096) s r next) (success : r ≠ 0) :
    AllMapped s next d oldsz newsz ↔ ¬ FirstRefused s o.free.length (TableCall 0 s.mem d ((oldsz+4095)/4096) newsz) := by
  have up : PGROUNDUP oldsz = 4096*((oldsz+4095)/4096) := by have := alloc.size success; unfold PGROUNDUP w32; omega
  obtain ⟨lost,kept⟩ := counts
  refine ⟨fun all refused => ?_,fun fine => alloc.allMapped dir success grow (not_not.mp fun differs => fine (lost differs).1)⟩
  by_cases same : next.unmapped = s.unmapped
  · -- every call up to the last page was served, that for the table among them
    obtain ⟨free,ok,_,_⟩ := alloc.ok
    have growing := (kept same).2 success free ok
    obtain ⟨j,⟨v,low,inside,opens,rfl⟩,is_refused,_⟩ := refused
    have top := alloc.size success
    have step : made 0 s.mem d ((oldsz+4095)/4096) (v+1) = made 0 s.mem d ((oldsz+4095)/4096) v + 2 := made_opens low (by omega) opens
    have last : made 0 s.mem d ((oldsz+4095)/4096) (v+1) ≤
        made 0 s.mem d ((oldsz+4095)/4096) (max ((oldsz+4095)/4096) ((newsz+4095)/4096)) := made_le (by omega) (by omega) (by omega)
    exact growing.unrefused (by omega) is_refused
  · obtain ⟨x,low,high,missing⟩ := alloc.gap success same
    exact missing (all.mapped low high).1

-- What allocuvm answers can be relied on unless the first call of kalloc that fails is
-- one for a table.
theorem allocuvm_success (L : Layout) (s : Machine) (o : Owners) (a : Space) (d oldsz newsz : Nat) (ok : Ok L s o) (dir : o.dirs a = some d)
    (idle : Idle o) (below : ∀ x, 4096*x < oldsz → Present (pteOf s.mem d x)) (clean : Clean s.mem d oldsz) (grow : oldsz ≤ newsz)
    (top : newsz < 2147483648) :
    ∃ r next, allocuvm L d oldsz newsz s = (.ok r,next) ∧ (r = 0 ∨ r = newsz) ∧
      (r = 0 → ∀ x, PGROUNDUP oldsz ≤ 4096*x → 4096*x < newsz → ¬ Present (pteOf next.mem d x)) ∧
      (r = newsz → 0 < newsz →
        (AllMapped s next d oldsz newsz ↔ ¬ FirstRefused s o.free.length (TableCall 0 s.mem d ((oldsz+4095)/4096) newsz))) := by
  have up := PGROUNDUP_eq (n := oldsz) (by omega)
  obtain ⟨r,next,ran,alloc,counts⟩ := (allocuvm_clean ok dir idle clean (by omega) : Sat (allocuvm L d oldsz newsz) s _ _).returns
  refine ⟨r,next,ran,?_,fun zero x low high => ?_,fun success positive => alloc.allMapped_iff dir grow (counts top) (by omega)⟩
  · by_cases zero : r = 0
    · exact .inl zero
    · have := alloc.size zero; omega
  · rw [(alloc.undone zero (start_aligned below) (by omega)).1 top (by omega) high]; decide

structure FreesRange (s next : Machine) (d oldsz newsz : Nat) : Prop where
  unmapped : PGROUNDUP newsz ≤ 4096*x → 4096*x < oldsz → ¬ Present (pteOf next.mem d x)
  once : ∃ gone : List Nat, next.events = gone.map .free ++ s.events ∧ ∀ x, PGROUNDUP newsz ≤ 4096*x → 4096*x < oldsz →
    Present (pteOf s.mem d x) → gone.count (PTE_ADDR (pteOf s.mem d x)) = 1
  others : x < 1048576 → 4096*x < PGROUNDUP newsz ∨ oldsz ≤ 4096*x → pteOf next.mem d x = pteOf s.mem d x

theorem Sweeps.freesRange (sweeps : Sweeps L o a d v oldsz s next) (start : PGROUNDUP newsz = 4096*v) (top : oldsz ≤ 2147483648)
    (reached : ∀ x, PGROUNDUP newsz ≤ 4096*x → 4096*x < oldsz → Skipped s.mem d v x → ¬ Present (pteOf s.mem d x)) :
    FreesRange s next d oldsz newsz := by
  obtain ⟨gone,events,distinct,members⟩ := sweeps.frees
  have swept : ∀ x, PGROUNDUP newsz ≤ 4096*x → 4096*x < oldsz → Present (pteOf s.mem d x) → Swept s.mem d v oldsz x :=
    fun x low high present => ⟨by omega,high,fun skipped => reached x low high skipped present⟩
  refine ⟨fun {x} low high => ?_,⟨gone,events,fun x low high present => ?_⟩,fun {x} bound away => ?_⟩
  · by_cases present : Present (pteOf s.mem d x)
    · rw [sweeps.inside (swept x low high present)]; decide
    · by_cases is_swept : Swept s.mem d v oldsz x
      · rw [sweeps.inside is_swept]; decide
      · rw [sweeps.outside (by omega) is_swept]; exact present
  · exact List.count_eq_one_of_mem distinct ((members _).mpr ⟨x,swept x low high present,present,rfl⟩)
  · refine sweeps.outside bound fun is_swept => ?_
    have := is_swept.1; have := is_swept.2.1; omega

-- The walk jumps by a whole table from wherever it finds one missing: it frees the range
-- exactly when no mapped page lies among those it jumps past.
theorem deallocuvm_frees (L : Layout) (s : Machine) (o : Owners) (a : Space) (d oldsz newsz : Nat) (ok : Ok L s o) (dir : o.dirs a = some d)
    (less : newsz < oldsz) (top : oldsz ≤ 2147483648) :
    ∃ next, deallocuvm L d oldsz newsz s = (.ok newsz,next) ∧ (FreesRange s next d oldsz newsz ↔
      ∀ x, PGROUNDUP newsz ≤ 4096*x → 4096*x < oldsz → Skipped s.mem d (PGROUNDUP newsz/4096) x → ¬ Present (pteOf s.mem d x)) := by
  have up := PGROUNDUP_eq (n := newsz) (by omega)
  have page : PGROUNDUP newsz/4096 = (newsz+4095)/4096 := by omega
  obtain ⟨r,next,ran,result,sweeps⟩ := (deallocuvm_spec ok dir top : Sat (deallocuvm L d oldsz newsz) s _ _).returns
  refine ⟨next,by rw [ran,result,Nat.min_eq_right (Nat.le_of_lt less)],fun frees x low high skipped present => ?_,fun reached => ?_⟩
  · rw [page] at skipped
    have stays := sweeps.outside (show x < 1048576 by omega) fun swept => swept.2.2 skipped
    exact frees.unmapped low high (by rw [stays]; exact present)
  · rw [page] at reached
    exact sweeps.freesRange up top reached

end Ranges

theorem boot_space (fails : Nat → Bool) (late : ∀ k, fails k = true → 133 < k) : ∃ s free,
    main smallKernel [] (powerOn (fun _ => 0) fails) = (.ok (),s) ∧ Ok smallKernel s.vm (owners s free) ∧
    (owners s free).dirs .kernel = some s.kpgdir ∧ Idle (owners s free) ∧ Bare smallKernel s.vm.mem s.kpgdir ∧
    s.vm.fails = fails ∧ s.vm.calls = 133 ∧ 56000 ≤ free.length := by
  obtain ⟨s,ran,_,same,booted⟩ := boots fails late
  obtain ⟨free,pages,many⟩ := booted.free
  exact ⟨s,free,ran,pages,rfl,idle_owners s free,booted.kernel,same,booted.calls,many⟩

theorem Bare.clean (bare : Bare L m d) (sz : Nat) : Clean m d sz := fun x small _ present => by
  rw [bare.user small] at present; cases present

-- kalloc fails once, for the table of page 0: allocuvm answers 4096, and page 0 is not mapped.
theorem allocuvm_unmapped_success : ∃ s next, main smallKernel [] (powerOn (fun _ => 0) fun k => k == 134) = (.ok (),s) ∧
    allocuvm smallKernel s.kpgdir 0 4096 s.vm = (.ok 4096,next) ∧ ¬ Present (pteOf next.mem s.kpgdir 0) := by
  obtain ⟨s,free,ran,ok,dir,idle,bare,fails,calls,many⟩ := boot_space (fun k => k == 134) fun k flag => by
    rw [show k = 134 from by simpa using flag]; decide
  have lacks : tableOf s.vm.mem s.kpgdir (0/1024) = none := Option.isNone_iff_eq_none.mp (bare.tables (i := 0) (by decide))
  have some_left : (owners s free).free ≠ [] := fun (none : free = []) => by rw [none,List.length_nil] at many; omega
  have run : Sat (allocuvm smallKernel s.kpgdir 0 4096) s.vm (fun _ _ => False) fun r next => r = 4096 ∧
      tableOf next.mem s.kpgdir 0 = none := by
    unfold allocuvm
    rw [if_neg (by decide),if_neg (by decide),show PGROUNDUP 0 = 4096*0 by decide]
    refine (allocLoop_refused (v := 0) ok dir idle (by decide) lacks (by rw [fails,calls]; decide) (by rw [fails,calls]; decide) some_left).post ?_
    rintro r next ⟨rfl,_,_,tables,_⟩
    exact ⟨rfl,(tables 0 (by decide)).trans lacks⟩
  obtain ⟨_,next,ran',rfl,missing⟩ := run.returns
  refine ⟨s,next,ran,ran',?_⟩
  rw [show pteOf next.mem s.kpgdir 0 = 0 by unfold pteOf; rw [show 0/1024 = 0 from rfl,missing]]
  decide

theorem allocuvm_one (ok : Ok L s o) (dir : o.dirs a = some d) (idle : Idle o) (bare : Bare L s.mem d) (small : v+1 < 524288)
    (never : ∀ k, s.fails k = false) (many : 2 ≤ o.free.length) :
    Sat (allocuvm L d (4096*v) (4096*(v+1))) s (fun _ _ => False) fun r next => r = 4096*(v+1) ∧ (∃ free, Ok L next ⟨o.own,o.dirs,free⟩) ∧
      AllMapped s next d (4096*v) (4096*(v+1)) ∧ ∀ i < v/1024, tableOf next.mem d i = none := by
  have page : (4096*v+4095)/4096 = v := by omega
  have start := made_here 0 s.mem d v
  refine (allocuvm_clean ok dir idle (bare.clean _) (by omega)).post ?_
  rintro r next ⟨alloc,counts⟩
  obtain ⟨lost,kept⟩ := counts (by omega)
  rw [page] at lost kept
  have fine : ¬ FirstRefused s o.free.length (TableCall 0 s.mem d v (4096*(v+1))) := by
    rintro ⟨j,⟨x,low,high,_,rfl⟩,flag | few,_⟩
    · rw [never] at flag; cases flag
    · rw [show x = v by omega,start] at few; omega
  have same : next.unmapped = s.unmapped := not_not.mp fun differs => fine (lost differs).1
  obtain ⟨free,ok',_,_⟩ := alloc.ok
  have success : r ≠ 0 := fun zero => by
    obtain ⟨⟨j,⟨x,low,high,at_x⟩,flag | few,_⟩,_⟩ := (kept same).1 zero (by omega)
    · rw [never] at flag; cases flag
    · rw [show x = v by omega,start] at at_x; omega
  refine ⟨by have := alloc.size success; omega,⟨free,ok'⟩,alloc.allMapped dir success (by omega) same,fun i low => ?_⟩
  refine ((kept same).2 success free ok').tables (by omega) |>.mpr ⟨?_,fun reached => by have := reached.1; omega⟩
  exact Option.isNone_iff_eq_none.mp (by rw [bare.tables (by omega)]; simp [KernelTable]; omega)

theorem allocuvm_first_page : ∃ s free, Ok smallKernel s.vm (owners s free) ∧ ∃ r next,
    allocuvm smallKernel s.kpgdir 0 4096 s.vm = (.ok r,next) ∧ (r = 4096 → AllMapped s.vm next s.kpgdir 0 4096) := by
  obtain ⟨s,free,ran,ok,dir,idle,bare,fails,calls,many⟩ := boot_space (fun _ => false) fun k no => by cases no
  obtain ⟨r,next,ran',_,_,success⟩ := allocuvm_success smallKernel s.vm (owners s free) .kernel s.kpgdir 0 4096 ok dir idle
    (fun x low => by omega) (bare.clean 0) (by decide) (by decide)
  refine ⟨s,free,ok,r,next,ran',fun all => (success all (by decide)).mpr ?_⟩
  have start := made_here 0 s.vm.mem s.kpgdir 0
  rintro ⟨j,⟨v,_,inside,_,rfl⟩,flag | few,_⟩
  · rw [fails] at flag; cases flag
  · have few' : free.length ≤ made 0 s.vm.mem s.kpgdir 0 v + 1 := few
    rw [show v = 0 by omega,start] at few'; omega

-- One page is mapped in the second table, at a slot below the one in the first where the
-- walk starts. The first table is missing, so the walk jumps past the page.
theorem deallocuvm_skips_page : ∃ s mid next, main smallKernel [] (powerOn (fun _ => 0) fun _ => false) = (.ok (),s) ∧
    allocuvm smallKernel s.kpgdir (4096*1028) (4096*1029) s.vm = (.ok (4096*1029),mid) ∧
    deallocuvm smallKernel s.kpgdir (4096*1029) (4096*8) mid = (.ok (4096*8),next) ∧
    Present (pteOf mid.mem s.kpgdir 1028) ∧ pteOf next.mem s.kpgdir 1028 = pteOf mid.mem s.kpgdir 1028 := by
  obtain ⟨s,free,ran,ok,dir,idle,bare,fails,calls,many⟩ := boot_space (fun _ => false) fun k no => by cases no
  obtain ⟨_,mid,ran_mid,rfl,⟨free',ok_mid⟩,all,tables⟩ := (allocuvm_one (v := 1028) ok dir idle bare (by decide) (fun k => by rw [fails])
    (show 2 ≤ free.length by omega)).returns
  have run : Sat (deallocuvm smallKernel s.kpgdir (4096*1029) (4096*8)) mid (fun _ _ => False) _ :=
    deallocuvm_spec (a := .kernel) ok_mid dir (by decide)
  obtain ⟨_,next,ran_next,rfl,sweeps⟩ := run.returns
  refine ⟨s,mid,next,ran,ran_mid,ran_next,(all.mapped (by decide) (by decide)).1,sweeps.outside (by decide) fun swept => swept.2.2 ?_⟩
  refine ⟨by decide,by decide,fun i _ high => tables i ?_⟩
  omega

theorem deallocuvm_first_page : ∃ (s : System) (mid next : Machine), Present (pteOf mid.mem s.kpgdir 0) ∧
    deallocuvm smallKernel s.kpgdir 4096 0 mid = (.ok 0,next) ∧ FreesRange mid next s.kpgdir 4096 0 := by
  obtain ⟨s,free,ran,ok,dir,idle,bare,fails,calls,many⟩ := boot_space (fun _ => false) fun k no => by cases no
  obtain ⟨_,mid,ran_mid,rfl,⟨free',ok_mid⟩,all,tables⟩ := (allocuvm_one (v := 0) ok dir idle bare (by decide) (fun k => by rw [fails])
    (show 2 ≤ free.length by omega)).returns
  obtain ⟨next,ran_next,frees⟩ := deallocuvm_frees smallKernel mid _ .kernel s.kpgdir 4096 0 ok_mid dir (by decide) (by decide)
  refine ⟨s,mid,next,(all.mapped (by decide) (by decide)).1,ran_next,frees.mpr fun x low high skipped => ?_⟩
  have := skipped.1
  omega

end Xv6.Vm
