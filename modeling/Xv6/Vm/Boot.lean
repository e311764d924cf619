import Xv6.Vm.Calls

namespace Xv6.Vm
open Function (update update_eq_self update_idem update_of_ne update_self)
open Bytes Exec

-- From power-on to the first process.

section Boot
variable {L : Layout}

theorem freerange_spec (top : vend ≤ 234881024) (fuel : Nat) : ∀ {s : Machine} {o : Owners} {p : Nat}, Ok L s o →
    p % 4096 = 0 → L.kend ≤ p → (∀ u q, Holds s.mem o u q → q < p) →
    Sat (freerange L vend fuel p) s (fun _ _ => False) fun _ next => Quiet s next ∧ next.calls = s.calls ∧
      (∀ q, q % 4096 = 0 → q < p → SamePage s.mem next.mem q) ∧
      ∃ free, Ok L next ⟨o.own,o.dirs,free⟩ ∧
        (∀ u q, Holds next.mem ⟨o.own,o.dirs,free⟩ u q → Holds s.mem o u q ∨ q+4096 ≤ vend) ∧
        (vend ≤ p+4096*fuel → free.length = o.free.length + (vend-p)/4096) := by
  induction fuel with
  | zero =>
    intro s o p ok _ _ _
    exact .done ⟨.refl s,rfl,fun _ _ _ _ _ _ => rfl,o.free,ok,fun _ _ use => .inl use,fun enough => by
      rw [show vend-p = 0 by omega]; rfl⟩
  | succ fuel ih =>
    intro s o p ok page low below
    unfold freerange
    by_cases more : p+4096 ≤ vend
    · have managed : Managed L p := ⟨page,low,by omega⟩
      have unheld : ∀ u, ¬ Holds s.mem o u p := fun u use => absurd (below u p use) (Nat.lt_irrefl p)
      have others := junk_others s.mem p s.freelist page
      have uses : ∀ u q, Holds (released s p).mem ⟨o.own,o.dirs,p :: o.free⟩ u q → Holds s.mem o u q ∨ q = p := fun u q use =>
        (ok.custody.give_uses unheld others use).elim (fun first => .inr first.2) fun old => .inl old.2
      rw [if_pos more,sat_bind,kfree_managed managed]
      refine (ih (ok.release managed unheld) (by omega) (by omega) fun u q use => ?_).mono (fun _ _ no => no) ?_
      · rcases uses u q use with old | rfl
        · have := below u q old; omega
        · omega
      rintro _ next ⟨quiet,calls,frame,free,ok',held,count⟩
      refine ⟨(released_quiet s p).trans quiet,calls,fun q aligned under => ?_,free,ok',fun u q use => ?_,fun enough => ?_⟩
      · exact (others q aligned (by omega)).trans (frame q aligned (by omega))
      · rcases held u q use with mid | under
        · exact (uses u q mid).imp id fun same => by omega
        · exact .inr under
      · rw [count (by omega),List.length_cons]; omega
    · rw [if_neg more,sat_pure]
      exact ⟨.refl s,rfl,fun _ _ _ _ _ _ => rfl,o.free,ok,fun _ _ use => .inl use,fun _ => by
        rw [show (vend-p)/4096 = 0 by omega]; rfl⟩

theorem nobody_holds (mem : Bytes.Store) (u : Use) (p : Nat) : ¬ Holds mem ⟨fun _ => none,fun _ => none,[]⟩ u p := by
  intro use
  cases u with
  | free => cases use
  | own t => cases use
  | dir a => cases use
  | table a i => obtain ⟨d,dir,_⟩ := use; cases dir
  | user a v => obtain ⟨d,dir,_⟩ := use; cases dir

theorem ok_powerOn (mem : Bytes.Store) (fails : Nat → Bool) : Ok L (powerOn mem fails).vm ⟨fun _ => none,fun _ => none,[]⟩ := by
  have nobody := nobody_holds mem
  refine ⟨⟨rfl,List.nodup_nil,fun one _ => (nobody _ _ one).elim,fun one => (nobody _ _ one).elim,fun dir => ?_,fun dir => ?_⟩,
    trivial,fun freed => ?_⟩
  · cases dir
  · cases dir
  · cases freed

theorem inituvm_spec (ok : Ok L s o) (dir : o.dirs a = some d) (idle : Idle o) (bare : ∀ v < 524288, pteOf s.mem d v = 0)
    (lacks : tableOf s.mem d 0 = none) :
    Sat (inituvm d code) s (fun _ _ => s.fails s.calls = true ∨ o.free = [] ∨ 4096 ≤ code.length) fun _ next =>
      Quiet s next ∧ (∀ b e, b ≠ a → o.dirs b = some e → (∀ i < 1024, tableOf next.mem e i = tableOf s.mem e i) ∧
        ∀ v < 1048576, pteOf next.mem e v = pteOf s.mem e v) ∧ Clean next.mem d 4096 ∧
      ∃ free, Ok L next ⟨o.own,o.dirs,free⟩ ∧
        ((∀ k, s.fails k = true → s.calls+2 < k) → 3 ≤ o.free.length →
          free.length + 2 = o.free.length ∧ next.calls = s.calls+2 ∧ ∃ u, u % 4096 = 0 ∧ pteOf next.mem d 0 = u ||| 6 ||| 1) := by
  unfold inituvm
  by_cases long : 4096 ≤ code.length
  · rw [if_pos long,sat_stop]; exact .inr (.inr long)
  rw [if_neg long]
  apply (kalloc_spec ok (idle 0) _).bind
  rintro r got ⟨quiet,mem,calls,result⟩
  cases r with
  | none => exact (sat_stop ..).mpr (result.1.imp id .inl)
  | some p =>
    obtain ⟨_,rest,list,ok'⟩ := result
    rw [sat_memset_bind]
    have mine := update_self (Tag.temp 0) (some p) o.own
    have taken := copy_taken (a := a) ok' idle mem list fun _ => 0
    have page := taken.managed.1
    have cleared : Ok L { got with mem := fill got.mem p 4096 0 } _ := taken.ok
    have vacant := idle.second p
    have restored := update_back (p := p) (idle 0)
    have blank : pteOf (fill got.mem p 4096 0) d 0 = 0 := (taken.view.pte dir (by decide)).trans (bare 0 (by decide))
    have lacks' : tableOf (fill got.mem p 4096 0) d 0 = none := (taken.view.table dir (by decide)).trans lacks
    have run := mappages_user (k := .temp 0) (t := .temp 1) (f := 6) (v := 0) cleared dir vacant mine
      (by decide) (by decide)
    refine Sat.bind (run.stops (fun e next post => ?_)) ?_
    · obtain ⟨_,_,present⟩ := post
      rw [blank] at present
      exact absurd present (by decide)
    rintro r next ⟨o',done,others,tables,failed,mapped⟩
    have dirs : o'.dirs = o.dirs := done.dirs
    have count : absent next.mem d + rest.length = absent (fill got.mem p 4096 0) d + o'.free.length := done.count
    -- the page, mapped or lost, is no table and not free
    have settled : Ok L next ⟨o.own,o.dirs,o'.free⟩ ∧ Loose next.mem ⟨o.own,o.dirs,o'.free⟩ p := by
      cases r with
      | true =>
        obtain ⟨own,at_0,_⟩ := mapped rfl
        have full : o' = ⟨o.own,o.dirs,o'.free⟩ := by rw [← own.trans restored,← dirs]
        have done' : Ok L next ⟨o.own,o.dirs,o'.free⟩ := full ▸ done.ok
        obtain ⟨present,addr,_⟩ := entry_parts page (by decide) _ at_0
        exact ⟨done',done'.custody.loose_user ⟨d,dir,by decide,present,addr⟩⟩
      | false =>
        obtain ⟨own,_,_⟩ := failed rfl
        obtain ⟨small,unheld⟩ := done.lost idle own
        exact ⟨small,fun free => unheld ⟨.free,free⟩,fun b dir => unheld ⟨.dir b,dir⟩,fun _ _ table => unheld ⟨_,table⟩⟩
    obtain ⟨ok_next,loose_next⟩ := settled
    obtain ⟨poked,last⟩ := poke ok_next loose_next page (x := 0) (n := code.length) (by omega) fun i => code.getD i 0
    rw [Nat.add_zero] at poked last
    rw [sat_modify]
    refine ⟨quiet.trans ⟨done.quiet.fails,done.quiet.grown,done.quiet.loaded,done.quiet.unmapped⟩,fun b e other there => ?_,
      fun v small above => ?_,o'.free,poked,fun good plenty => ?_⟩
    · have others := done.view cleared dir
      have apart := (update_of_ne other none o.dirs).trans there
      refine ⟨fun i small => ?_,fun v small => ?_⟩
      · rw [last.table there small,others.table apart small]; exact taken.view.table there small
      · rw [last.pte there small,others.pte apart small]; exact taken.view.pte there small
    · rw [last.pte dir (by omega),others v (by omega) (by omega),
        show pteOf (fill got.mem p 4096 0) d v = 0 from (taken.view.pte dir (by omega)).trans (bare v small)]
      decide
    · have near : absent next.mem d = absent (fill got.mem p 4096 0) d ∧ tableOf next.mem d 0 = none ∨
          absent next.mem d + 1 = absent (fill got.mem p 4096 0) d := by
        cases now : tableOf next.mem d 0 with
        | none =>
          refine .inl ⟨absent_same fun i small => ?_,rfl⟩
          by_cases first : i = 0
          · rw [first,now,lacks']
          · exact tables i small first
        | some t => exact .inr (absent_attach (by decide) lacks' now fun j small other => tables j small other)
      rw [list,List.length_cons] at plenty ⊢
      cases r with
      | false =>
        obtain ⟨_,_,why⟩ := failed rfl
        rcases why with ⟨k,flag,at_k⟩ | ⟨empty,_⟩
        · have late := good k (by rw [← quiet.fails]; exact flag)
          have at_k' : k + o'.free.length = got.calls + rest.length := at_k
          omega
        · rw [empty] at count
          simp only [List.length_nil] at count
          omega
      | true =>
        obtain ⟨_,at_0,counted,_⟩ := mapped rfl
        have counted' : next.calls + o'.free.length = got.calls + rest.length := counted
        obtain ⟨present,_⟩ := entry_parts page (by decide) _ at_0
        rcases near with ⟨_,missing⟩ | fewer
        · have there := table_of_present present
          rw [show 0/1024 = 0 from rfl,missing] at there
          cases there
        · refine ⟨by omega,by show next.calls = _; omega,p,page,?_⟩
          rw [last.pte dir (by decide)]; exact at_0

theorem Bare.same (bare : Bare L m d) (tables : ∀ i < 1024, tableOf n d i = tableOf m d i)
    (ptes : ∀ v < 1048576, pteOf n d v = pteOf m d v) : Bare L n d := by
  refine ⟨fun {v} small => ?_,fun {i} small => ?_,fun {q} small => ?_⟩
  · rw [ptes v (by omega)]; exact bare.user small
  · rw [tables i small]; exact bare.tables small
  · rw [ptes _ (by omega)]; exact bare.ram small

theorem Custody.view_of_free (held : Custody L m head o) (frame : ∀ q, q % 4096 = 0 → q ∉ o.free → SamePage m n q) :
    SameView m n o.dirs := by
  refine view_of_pages (fun a d dir => ?_) fun a i t table => ?_
  · refine frame d (held.managed (u := .dir a) dir).1 fun free => ?_
    cases held.exclusive (show Holds m o (.dir a) d from dir) (show Holds m o .free d from free)
  · refine frame t (held.managed table).1 fun free => ?_
    cases held.exclusive table (show Holds m o .free t from free)

-- The first process is there, with one page of memory, and memory to spare.
structure Booted (L : Layout) (calls few : Nat) (s : System) : Prop where
  calls : s.vm.calls = calls
  runs : (s.procs 0).state = .runnable
  size : (s.procs 0).sz = 4096
  kernel : Bare L s.vm.mem s.kpgdir
  code : ∃ u, u % 4096 = 0 ∧ pteOf s.vm.mem (s.procs 0).pgdir 0 = u ||| 6 ||| 1
  clean : Clean s.vm.mem (s.procs 0).pgdir 4096
  free : ∃ free, Ok L s.vm (owners s free) ∧ few ≤ free.length

theorem owners_spawn {s : System} (proc : Proc) (live : proc.state.Live) (vm : Machine) (init n : Nat) (free : List Nat) :
    owners { s with vm := vm, initproc := init, nextpid := n, procs := update s.procs i proc } free =
      ⟨update (ownOf s) (.kstack i) (some proc.kstack),update (dirsOf s) (.proc i) (some proc.pgdir),free⟩ := by
  have own := ownOf_setProc s i proc
  have dirs := dirsOf_setProc s i proc
  rw [if_pos live] at own dirs
  show Owners.mk (ownOf { s with procs := update s.procs i proc }) (dirsOf { s with procs := update s.procs i proc }) free = _
  rw [own,dirs]

theorem userinit_spec {s : System} (ok : SysOk L s) (pages : Ok L s.vm (owners s free)) (first : firstUnused s = some 0)
    (kernel : Bare L s.vm.mem s.kpgdir) (code : List UInt8) :
    Sat (userinit L code) s (fun _ _ => (∃ k ≤ s.vm.calls+68, s.vm.fails k = true) ∨ free.length < 69 ∨ 4096 ≤ code.length)
      fun _ next => SysOk L next ∧ Quiet s.vm next.vm ∧
        ((∀ k, s.vm.fails k = true → s.vm.calls+68 < k) → 69 ≤ free.length → Booted L (s.vm.calls+68) (free.length-68) next) := by
  refine Sat.bind ((allocproc_spec ok pages).never) fun r mid post => ?_
  cases r with
  | none =>
    refine (sat_stop ..).mpr ?_
    rcases post.1 with flag | empty | none
    · exact .inl ⟨_,by omega,flag⟩
    · rw [empty]; exact .inr (.inl (by decide))
    · rw [first] at none; cases none
  | some i =>
    obtain ⟨at_0,k,rest,list,unused,vm,pid,n,rfl,quiet,mem,calls,taken⟩ := post
    obtain rfl : 0 = i := Option.some.inj (first.symm.trans at_0)
    have idle : Idle ⟨update (ownOf s) (.kstack 0) (some k),dirsOf s,rest⟩ := by
      intro j
      show update (ownOf s) (.kstack 0) (some k) (.temp j) = none
      rw [update_of_ne (by simp)]; rfl
    have length : free.length = rest.length+1 := by rw [list]; rfl
    refine (sat_modify_bind ..).mpr (sat_onVm_bind (setupkvm_spec (a := .proc 0) taken (idle 0) (dirs_unused unused)) ?_)
    rintro r vm' ⟨quiet',frame,result⟩
    cases r with
    | none =>
      refine (sat_stop ..).mpr ?_
      rcases result.1 with ⟨j,flag,_,near⟩ | few
      · have near' : j ≤ vm.calls+65 := near
        exact .inl ⟨j,by omega,by rw [← quiet.fails]; exact flag⟩
      · have few' : rest.length < 66 := few
        exact .inr (.inl (by omega))
    | some d =>
      obtain ⟨_,bare,free',_,fewer,calls',ok',_⟩ := result
      have fewer' : free'.length + 65 = rest.length := fewer
      have calls₂ : vm'.calls = vm.calls+65 := calls'
      have fails₂ : vm'.fails = s.vm.fails := quiet'.fails.trans quiet.fails
      have dir : update (dirsOf s) (.proc 0) (some d) (.proc 0) = some d := update_self ..
      have lacks : tableOf vm'.mem d 0 = none := by
        have none := bare.tables (i := 0) (by decide)
        exact Option.isNone_iff_eq_none.mp none
      refine (sat_modify_bind ..).mpr ((sat_bind ..).mpr ((sat_onVm ..).mpr ?_))
      refine (inituvm_spec (a := .proc 0) ok' dir idle (fun v small => bare.user small) lacks).mono ?_ ?_
      · rintro e last (flag | empty | long)
        · refine .inl ⟨vm'.calls,by omega,?_⟩
          rw [← fails₂]; exact flag
        · refine .inr (.inl ?_)
          have empty' : free' = [] := empty
          rw [empty'] at fewer'
          simp only [List.length_nil] at fewer'
          omega
        · exact .inr (.inr long)
      · rintro _ vm'' ⟨quiet'',spaces,clean,free'',ok'',details⟩
        refine (sat_modify ..).mpr ?_
        dsimp only
        rw [update_idem,update_idem,update_self,update_self]
        have runs : (Procstate.runnable).Live := by decide
        have quiet_all : Quiet s.vm vm'' := quiet.trans (quiet'.trans quiet'')
        refine ⟨⟨⟨⟨free'',?_⟩,ok.pagesOk.files⟩,sizes_setProc ok 0 _ fun _ => by dsimp only; decide⟩,quiet_all,fun good plenty => ?_⟩
        · rw [owners_spawn _ runs]; exact ok''
        · obtain ⟨count,calls₃,entry⟩ := details (fun j flag => by have := good j (by rw [← fails₂]; exact flag); omega) (by
            show 3 ≤ free'.length; omega)
          have count' : free''.length + 2 = free'.length := count
          -- the kernel's own directory saw neither step
          have kdir : dirsOf s .kernel = some s.kpgdir := rfl
          have view : SameView s.vm.mem vm'.mem (dirsOf s) := by
            rw [← mem]; exact taken.custody.view_of_free frame
          obtain ⟨tables,ptes⟩ := spaces .kernel s.kpgdir (by simp) (by
            show update (dirsOf s) (.proc 0) (some d) .kernel = _
            rw [update_of_ne (by simp)]; exact kdir)
          have mid : Bare L vm'.mem s.kpgdir := kernel.same (fun _ small => view.table kdir small) fun _ small => view.pte kdir small
          refine ⟨by show vm''.calls = _; omega,?_,?_,?_,?_,?_,free'',?_,by omega⟩
          · dsimp only; rw [update_self]
          · dsimp only; rw [update_self]
          · exact mid.same tables ptes
          · dsimp only; rw [update_self]; exact entry
          · dsimp only; rw [update_self]; exact clean
          · rw [owners_spawn _ runs]; exact ok''

theorem sysOk_bare (pages : Ok L vm ⟨fun _ => none,update (fun _ => none) .kernel (some d),free⟩) (mem : Bytes.Store)
    (fails : Nat → Bool) : Ok L vm (owners { powerOn mem fails with vm := vm, kpgdir := d } free) ∧
      SysOk L { powerOn mem fails with vm := vm, kpgdir := d } := by
  have dead : ¬ (Procstate.unused).Live := by decide
  have own : ownOf { powerOn mem fails with vm := vm, kpgdir := d } = fun _ => none := by
    funext t
    cases t with
    | kstack i => simp [ownOf,powerOn,zeroProc,dead]
    | pipe p => rfl
    | temp k => rfl
  have dirs : dirsOf { powerOn mem fails with vm := vm, kpgdir := d } = update (fun _ => none) .kernel (some d) := by
    funext a
    cases a with
    | kernel => rfl
    | fresh => rfl
    | proc i => simp [dirsOf,powerOn,zeroProc,dead]
  have ok : Ok L vm (owners { powerOn mem fails with vm := vm, kpgdir := d } free) := by
    rw [owners,own,dirs]; exact pages
  refine ⟨ok,⟨⟨free,ok⟩,⟨fun _ => rfl,fun no => ?_,fun _ no => ?_⟩⟩,fun live => absurd live dead⟩
  · cases no
  · cases no

theorem main_spec (L : Layout) (code : List UInt8) (mem : Bytes.Store) (fails : Nat → Bool) :
    Sat (main L code) (powerOn mem fails)
      (fun _ _ => (∃ k ≤ 133, fails k = true) ∨ 3923968 < L.kend ∨ 4096 ≤ code.length)
      fun _ s => SysOk L s ∧ s.vm.fails = fails ∧
        ((∀ k, fails k = true → 133 < k) → L.kend ≤ 3923968 → Booted L 133 56000 s) := by
  have fits := L.fits
  have image := L.image
  have round : PGROUNDUP L.kend % 4096 = 0 ∧ L.kend ≤ PGROUNDUP L.kend ∧ PGROUNDUP L.kend < L.kend+4096 := by
    unfold PGROUNDUP w32; omega
  have start := ok_powerOn (L := L) mem fails
  have nobody := nobody_holds mem
  refine sat_onVm_bind (freerange_spec (by decide) 57344 start round.1 round.2.1
    fun u q use => (nobody u q use).elim) ?_
  rintro _ vm ⟨quiet,calls,_,free,ok,held,count⟩
  have length : free.length = (4194304 - PGROUNDUP L.kend)/4096 := by
    have counted := count (by omega)
    simpa using counted
  refine sat_onVm_bind (setupkvm_spec (a := .kernel) (t := .temp 0) ok rfl rfl) ?_
  rintro r vm' ⟨quiet',frame,result⟩
  cases r with
  | none =>
    refine (sat_stop ..).mpr ?_
    rcases result.1 with ⟨k,flag,_,near⟩ | few
    · have near' : k ≤ vm.calls+65 := near
      have zero : vm.calls = 0 := calls
      exact .inl ⟨k,by omega,by rw [← show vm.fails = fails from quiet.fails]; exact flag⟩
    · have few' : free.length < 66 := few
      exact .inr (.inl (by omega))
  | some d =>
    obtain ⟨⟨d_free,new_tables⟩,bare,free',was_free,fewer,calls',ok',_⟩ := result
    have low : ∀ q ∈ free, q+4096 ≤ 4194304 := fun q inside => (held .free q inside).resolve_left (nobody .free q)
    have above : L.kend ≤ d := (ok.custody.managed (u := .free) d_free).2.1
    have d_low := low d d_free
    have only : ∀ a e, update (fun _ => none) Space.kernel (some d) a = some e → e = d := by
      intro a e dir
      by_cases here : a = .kernel
      · subst here; rw [update_self] at dir; exact (Option.some.inj dir).symm
      · rw [update_of_ne here] at dir; cases dir
    refine (sat_modify_bind ..).mpr (sat_onVm_bind (freerange_spec (by decide) 57344 ok' (by decide) (by omega) ?_) ?_)
    · intro u q use
      cases u with
      | free => have := low q (was_free q use); omega
      | own t => cases use
      | dir a => rw [only a q use]; omega
      | table a i =>
        obtain ⟨e,dir,small,found⟩ := use
        rw [only a e dir] at found
        have := low q (new_tables i q small found)
        omega
      | user a v =>
        obtain ⟨e,dir,small,present,_⟩ := use
        rw [only a e dir] at present
        have none : pteOf vm'.mem d v = 0 := bare.user small
        rw [none] at present
        exact absurd present (by decide)
    rintro _ vm'' ⟨quiet'',calls'',frame',free'',ok'',_,count''⟩
    obtain ⟨pages,sysOk⟩ := sysOk_bare ok'' mem fails
    have d_page : SamePage vm'.mem vm''.mem d :=
      frame' d (ok.custody.managed (u := .free) d_free).1 (by omega)
    have bare' : Bare L vm''.mem d := by
      refine bare.same (fun i small => tableOf_same d_page small) fun v small => pteOf_same d_page small fun t found => ?_
      have inside := new_tables _ t (by omega) found
      have under := low t inside
      exact frame' t (ok.custody.managed (u := .free) inside).1 (by omega)
    have calls₂ : vm''.calls = 65 := by
      have one : vm.calls = 0 := calls
      have two : vm'.calls = vm.calls+65 := calls'
      have three : vm''.calls = vm'.calls := calls''
      omega
    have fails₂ : vm''.fails = fails := quiet''.fails.trans (quiet'.fails.trans quiet.fails)
    have length₂ : free''.length = free'.length + 56320 := count'' (by decide)
    refine (userinit_spec sysOk pages rfl bare' code).mono ?_ ?_
    · rintro e last (⟨k,near,flag⟩ | few | long)
      · have near' : k ≤ vm''.calls+68 := near
        exact .inl ⟨k,by omega,by rw [← fails₂]; exact flag⟩
      · omega
      · exact .inr (.inr long)
    rintro _ last ⟨ok_last,quiet_last,details⟩
    refine ⟨ok_last,quiet_last.fails.trans fails₂,fun good _ => ?_⟩
    have booted := details (fun k flag => by
      have late := good k (by rw [← fails₂]; exact flag)
      show vm''.calls+68 < k
      omega) (by omega)
    obtain ⟨left,ok_left,many⟩ := booted.free
    have calls_last : last.vm.calls = vm''.calls+68 := booted.calls
    exact ⟨by omega,booted.runs,booted.size,booted.kernel,booted.code,booted.clean,left,ok_left,by omega⟩

end Boot

def smallKernel : Layout := ⟨1077248,1114112,by decide,by decide,by decide,by decide⟩

theorem boots (fails : Nat → Bool) (late : ∀ k, fails k = true → 133 < k) :
    ∃ s, main smallKernel [] (powerOn (fun _ => 0) fails) = (.ok (),s) ∧ SysOk smallKernel s ∧ s.vm.fails = fails ∧
      Booted smallKernel 133 56000 s := by
  have small : smallKernel.kend ≤ 3923968 := by decide
  have total := (main_spec smallKernel [] (fun _ => 0) fails).stops (F := fun _ _ => False) (fun _ _ why => by
      rcases why with ⟨k,near,flag⟩ | large | long
      · have := late k flag; omega
      · omega
      · exact absurd long (by decide))
  obtain ⟨_,s,ran,ok,same,booted⟩ := total.returns
  exact ⟨s,ran,ok,same,booted late small⟩

end Xv6.Vm
