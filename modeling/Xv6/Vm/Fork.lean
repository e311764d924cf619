import Xv6.Vm.Sbrk

namespace Xv6.Vm
open Function (update update_of_ne update_self)
open Bytes Exec

-- copyuvm makes a copy: the same bytes and flags at the same addresses, in pages of
-- its own.

section Copies
variable {L : Layout} {s : Machine} {o : Owners} {a b : Space} {d pgdir sz : Nat}

structure Twin (s next : Machine) (free : List Nat) (pgdir d x : Nat) : Prop where
  there : Present (pteOf s.mem pgdir x)
  flags : PTE_FLAGS (pteOf next.mem d x) = PTE_FLAGS (pteOf s.mem pgdir x)
  bytes : i < 4096 → next.mem (PTE_ADDR (pteOf next.mem d x)+i) = s.mem (PTE_ADDR (pteOf s.mem pgdir x)+i)
  fresh : PTE_ADDR (pteOf next.mem d x) ∈ free

theorem Twin.present (twin : Twin s next free pgdir d x) : Present (pteOf next.mem d x) := by
  have flags := twin.flags
  have there := twin.there
  unfold PTE_FLAGS at flags
  unfold Present at *
  omega

structure Copied (o : Owners) (pgdir d sz v : Nat) (s next : Machine) : Prop where
  pages : v ≤ x → 4096*x < sz → Twin s next o.free pgdir d x
  others : x < 1048576 → x < v ∨ sz ≤ 4096*x → pteOf next.mem d x = pteOf s.mem d x
  frame : q % 4096 = 0 → q ∉ o.free → (∀ i < 1024, tableOf s.mem d i ≠ some q) → q ≠ d → SamePage s.mem next.mem q

theorem Copied.nothing (done : sz ≤ 4096*v) : Copied o pgdir d sz v s s :=
  ⟨fun low inside => by omega,fun _ _ => rfl,fun _ _ _ _ _ _ _ => rfl⟩

section
variable (ok : Ok L s o) (dir : o.dirs a = some d) (parent : o.dirs b = some pgdir)
include ok dir parent

theorem Ok.other_page (small : x < 524288)
    (present : Present (pteOf s.mem pgdir x)) : PTE_ADDR (pteOf s.mem pgdir x) % 4096 = 0 ∧ PTE_ADDR (pteOf s.mem pgdir x) ∉ o.free ∧
    PTE_ADDR (pteOf s.mem pgdir x) ≠ d ∧ ∀ i < 1024, tableOf s.mem d i ≠ some (PTE_ADDR (pteOf s.mem pgdir x)) := by
  obtain ⟨page,notFree,_,_,_⟩ := ok.user_page parent small present
  have use : Holds s.mem o (.user b x) (PTE_ADDR (pteOf s.mem pgdir x)) := ⟨pgdir,parent,small,present,rfl⟩
  refine ⟨page,notFree,fun same => ?_,fun i bound found => ?_⟩
  · cases ok.custody.exclusive use (show Holds s.mem o (.dir a) _ from dir.trans (congrArg some same.symm))
  · cases ok.custody.exclusive use (show Holds s.mem o (.table a i) _ from ⟨d,dir,bound,found⟩)

theorem Copied.turn (other : b ≠ a) (top : sz ≤ 2147483648)
    (inside : 4096*v < sz) (present : Present (pteOf s.mem pgdir v))
    (tried : Tried L o a d v p rest s got (fun x => s.mem (PTE_ADDR (pteOf s.mem pgdir v)+x)) next o')
    (ok_next : Ok L next ⟨o.own,o.dirs,o'.free⟩) (saved : Saved a s.mem o next.mem ⟨o.own,o.dirs,o'.free⟩)
    (entry : pteOf next.mem d v = p ||| PTE_FLAGS (pteOf s.mem pgdir v) ||| 1)
    (later : Copied ⟨o.own,o.dirs,o'.free⟩ pgdir d sz (v+1) next last) : Copied o pgdir d sz v s last := by
  have p_page := (ok.custody.managed (u := .free) tried.taken.page).1
  have flags : PTE_FLAGS (pteOf s.mem pgdir v) < 4096 := by unfold PTE_FLAGS; omega
  have dir' := (update_of_ne other none o.dirs).trans parent
  have entries : ∀ x < 1048576, x ≠ v → pteOf next.mem d x = pteOf s.mem d x := fun x bound away =>
    (tried.others x bound away).trans (tried.taken.view.pte dir bound)
  refine ⟨fun {x} low below => ?_,fun {x} bound away => ?_,fun {q} page notFree noTable notDir => ?_⟩
  · by_cases here : x = v
    · subst here
      have at_x : pteOf last.mem d x = p ||| PTE_FLAGS (pteOf s.mem pgdir x) ||| 1 := by
        rw [later.others (by omega) (.inl (by omega))]; exact entry
      obtain ⟨here,addr,_⟩ := entry_parts p_page flags _ entry
      obtain ⟨_,addr',_⟩ := entry_parts p_page flags _ at_x
      refine ⟨present,?_,fun {i} bound => ?_,?_⟩
      · rw [at_x,entry_eq p_page flags]
        unfold PTE_FLAGS Present at *
        omega
      · -- from here on nobody touches the page
        obtain ⟨_,notFree,notDir,noTable,_⟩ := ok_next.user_page dir (show x < 524288 by omega) here
        rw [addr] at notFree notDir noTable
        rw [addr',later.frame p_page notFree noTable notDir (p+i) (by omega) (by omega)]
        rw [tried.taken.bytes tried.done dir (p+i) (by omega) (by omega),copy_in _ _ (by omega) (by omega),Nat.add_sub_cancel_left]
      · rw [addr']; exact tried.taken.page
    · have twin := later.pages (by omega) below
      have same : pteOf next.mem pgdir x = pteOf s.mem pgdir x := saved.view.pte dir' (by omega)
      have there := twin.there
      have twin_flags := twin.flags
      have twin_bytes := fun i => twin.bytes (i := i)
      rw [same] at there twin_flags twin_bytes
      obtain ⟨page,notFree,notDir,noTable⟩ := ok.other_page dir parent (by omega) there
      have frame := tried.taken.frame tried.done dir tried.mem page notFree noTable notDir
      refine ⟨there,twin_flags,fun {i} bound => ?_,tried.taken.fewer tried.done _ twin.fresh⟩
      rw [twin_bytes i bound]
      exact frame _ (by omega) (by omega)
  · rw [later.others bound (by omega)]
    exact entries x bound (by omega)
  · refine (tried.taken.frame tried.done dir tried.mem page notFree noTable notDir).trans
      (later.frame page (fun member => notFree (tried.taken.fewer tried.done q member)) (fun i bound found => ?_) notDir)
    exact (tried.taken.found tried.done dir bound found).elim (noTable i bound) notFree

end

theorem copyLoop_copies (top : sz ≤ 2147483648) (other : b ≠ a) (fuel : Nat) : ∀ {s : Machine} {o : Owners} {v : Nat}, Ok L s o →
    o.dirs a = some d → o.dirs b = some pgdir → Idle o → sz ≤ 4096*(v+fuel) →
    Sat (copyLoop L pgdir d sz fuel (4096*v)) s
      (fun _ _ => ∃ x, v ≤ x ∧ 4096*x < sz ∧ (¬ Present (pteOf s.mem pgdir x) ∨ Present (pteOf s.mem d x)))
      fun r next => r = none ∨ (r = some d ∧ (∃ free, Ok L next ⟨o.own,o.dirs,free⟩ ∧ Saved a s.mem o next.mem ⟨o.own,o.dirs,free⟩) ∧
        Copied o pgdir d sz v s next) := by
  induction fuel with
  | zero =>
    intro s o v ok dir parent idle enough
    unfold copyLoop
    rw [sat_pure]
    exact .inr ⟨rfl,⟨o.free,ok,.refl a _ _⟩,.nothing (by omega)⟩
  | succ fuel ih =>
    intro s o v ok dir parent idle enough
    by_cases inside : 4096*v < sz
    · have small : v < 524288 := by omega
      have dir' := (update_of_ne other none o.dirs).trans parent
      refine copyLoop_turn ok dir idle small inside (fun _ _ why => ⟨v,.refl,inside,why⟩) ?_ ?_ ?_
      · intro got quiet mem ok' why
        refine Sat.bind ((freevm_spec ok' dir idle).never) fun _ _ _ => ?_
        exact .done (.inl rfl)
      · intro p rest got src next o' tried own _ _ _
        obtain ⟨dropped,_⟩ := tried.done.lost idle own
        refine Sat.bind ((freevm_spec dropped dir idle).never) fun _ _ _ => ?_
        exact .done (.inl rfl)
      · intro p rest got next o' present tried ok_next saved entry _ _
        refine (ih ok_next dir parent idle (by omega)).mono ?_ ?_
        · rintro _ _ ⟨x,low,below,why⟩
          refine ⟨x,by omega,below,why.imp (fun absent => ?_) fun there => ?_⟩
          · rw [saved.view.pte dir' (by omega)] at absent; exact absent
          · rw [(tried.others x (by omega) (by omega)).trans (tried.taken.view.pte dir (by omega))] at there; exact there
        · rintro r last (none | ⟨result,⟨free,ok_last,saved'⟩,later⟩)
          · exact .inl none
          · exact .inr ⟨result,⟨free,ok_last,saved.trans saved'⟩,.turn ok dir parent other top inside present tried ok_next saved entry later⟩
    · unfold copyLoop
      rw [if_neg inside,sat_pure]
      exact .inr ⟨rfl,⟨o.free,ok,.refl a _ _⟩,.nothing (by omega)⟩

theorem mappages_remap (ok : Ok L s o) (dir : o.dirs a = some d) (vacant : o.own t = none) (small : v < 1048576)
    (present : Present (pteOf s.mem d v)) (p f : Nat) : Sat (mappages d (4096*v) 4096 p f) s (fun _ _ => True) fun _ _ => False := by
  have page : 4096*v/4096 = v := by omega
  have first := PGROUNDDOWN_page v
  unfold mappages
  rw [first]
  refine Sat.bind (walkpgdir_alloc ok dir vacant (by omega) _) ?_
  rintro r next ⟨o',done,_,ptes,_,result⟩
  rw [page] at result
  have still : Present (pteOf next.mem d v) := by rw [ptes v small]; exact present
  cases r with
  | none =>
    have there := table_of_present still
    rw [result.1] at there; cases there
  | some x =>
    obtain ⟨_,table,found,rfl⟩ := result
    rw [sat_load_bind,pteOf_table found,if_pos still]
    exact (sat_stop ..).mpr trivial

theorem copyLoop_tall (ok : Ok L s o) (dir : o.dirs a = some d) (idle : Idle o) (tall : 2147483648 < sz)
    (kernel : Present (pteOf s.mem d 524288)) :
    Sat (copyLoop L pgdir d sz (fuel+1) (4096*524288)) s (fun _ _ => True) fun r _ => r = none := by
  unfold copyLoop
  rw [if_pos tall,sat_bind,walkpgdir_look _ _ (by decide)]
  cases table : tableOf s.mem pgdir (4096*524288/4096/1024) with
  | none => exact (sat_stop ..).mpr trivial
  | some t =>
    simp only [Option.map_some]
    rw [sat_load_bind]
    generalize ld32 s.mem (t+4*(4096*524288/4096%1024)) = w
    by_cases present : Present w
    · rw [if_pos present]
      refine Sat.bind (kalloc_spec ok (idle 0) _) ?_
      rintro r got ⟨quiet,mem,calls,result⟩
      cases r with
      | none =>
        refine Sat.bind ((freevm_spec result.2 dir idle).never) fun _ _ _ => ?_
        exact .done rfl
      | some p =>
        obtain ⟨_,rest,list,ok'⟩ := result
        rw [sat_modify_bind]
        generalize src_eq : (fun x => got.mem (PTE_ADDR w+x)) = src
        have taken : Taken L o a p rest s got src := copy_taken ok' idle mem list src
        have vacant := idle.second p
        refine Sat.bind (mappages_remap (t := .temp 1) taken.ok dir vacant (by decide) ?_ p _) fun _ _ no => no.elim
        rw [taken.view.pte dir (by decide)]; exact kernel
    · rw [if_neg present]; exact (sat_stop ..).mpr trivial

theorem copyLoop_never (tall : 2147483648 < sz) (fuel : Nat) : ∀ {s : Machine} {o : Owners} {v : Nat}, Ok L s o →
    o.dirs a = some d → Idle o → v ≤ 524288 → 524288 < v+fuel → Present (pteOf s.mem d 524288) →
    Sat (copyLoop L pgdir d sz fuel (4096*v)) s (fun _ _ => True) fun r _ => r = none := by
  induction fuel with
  | zero => intro s o v _ _ _ low enough; omega
  | succ fuel ih =>
    intro s o v ok dir idle low enough kernel
    by_cases last : v = 524288
    · rw [last]; exact copyLoop_tall ok dir idle tall kernel
    have gives_up : ∀ {t : Machine} {free : List Nat}, Ok L t ⟨o.own,o.dirs,free⟩ →
        Sat (freevm L d >>= fun _ => pure (none : Option Nat)) t (fun _ _ => True) fun r _ => r = none := fun ok' =>
      Sat.bind ((freevm_spec ok' dir idle).never) fun _ _ _ => .done rfl
    refine copyLoop_turn ok dir idle (by omega) (by omega) (fun _ _ _ => trivial) (fun got _ _ ok' _ => gives_up ok') ?_ ?_
    · intro p rest got src next o' tried own _ _ _
      exact gives_up (tried.done.lost idle own).1
    · intro p rest got next o' _ tried ok_next _ _ _ _
      refine ih ok_next dir idle (by omega) (by omega) ?_
      rw [tried.others 524288 (by decide) (by omega),tried.taken.view.pte dir (by decide)]; exact kernel

-- What fork relies on. The parent's directory, tables and pages are none of those that
-- were free, so nothing of it has changed.
structure Forked (L : Layout) (o : Owners) (s : Machine) (pgdir d sz : Nat) (next : Machine) : Prop where
  pages : 4096*x < sz → Twin s next o.free pgdir d x
  distinct : 4096*x < sz → 4096*y < sz → x ≠ y → PTE_ADDR (pteOf next.mem d x) ≠ PTE_ADDR (pteOf next.mem d y)
  apart : 4096*x < sz → y < 524288 → Present (pteOf s.mem pgdir y) → PTE_ADDR (pteOf next.mem d x) ≠ PTE_ADDR (pteOf s.mem pgdir y)
  above : x < 524288 → sz ≤ 4096*x → ¬ Present (pteOf next.mem d x)
  kernel : ∃ mid, setupkvm L s = (.ok (some d),mid) ∧ ∀ x, 524288 ≤ x → x < 1048576 → pteOf next.mem d x = pteOf mid.mem d x
  entries : x < 1048576 → pteOf next.mem pgdir x = pteOf s.mem pgdir x
  frame : q % 4096 = 0 → q ∉ o.free → SamePage s.mem next.mem q

theorem Copied.forked (ok : Ok L s o) (parent : o.dirs b = some pgdir) (other : b ≠ a) (top : sz ≤ 2147483648)
    (ran : setupkvm L s = (.ok (some d),mid)) (frame : ∀ q, q % 4096 = 0 → q ∉ o.free → SamePage s.mem mid.mem q)
    (was_free : d ∈ o.free ∧ ∀ i q, i < 1024 → tableOf mid.mem d i = some q → q ∈ o.free) (bare : Bare L mid.mem d)
    (fewer : ∀ q ∈ free, q ∈ o.free)
    (ok_next : Ok L next ⟨o.own,update o.dirs a (some d),later⟩)
    (saved : Saved a s.mem o next.mem ⟨o.own,update o.dirs a (some d),later⟩)
    (copied : Copied ⟨o.own,update o.dirs a (some d),free⟩ pgdir d sz 0 mid next) : Forked L o s pgdir d sz next := by
  have dir : update o.dirs a (some d) a = some d := update_self ..
  have parent' := (update_of_ne other none o.dirs).trans parent
  have view : SameView s.mem mid.mem o.dirs := ok.custody.view_of_free frame
  have twin : ∀ x, 4096*x < sz → Twin s next o.free pgdir d x := fun x below => by
    have twin := copied.pages (Nat.zero_le _) below
    have same : pteOf mid.mem pgdir x = pteOf s.mem pgdir x := view.pte parent (by omega)
    have there := twin.there
    have flags := twin.flags
    have bytes := fun i => twin.bytes (i := i)
    rw [same] at there flags bytes
    obtain ⟨page,notFree,_⟩ := ok.user_page parent (by omega) there
    refine ⟨there,flags,fun {i} bound => ?_,fewer _ twin.fresh⟩
    rw [bytes i bound]
    exact frame _ page notFree _ (by omega) (by omega)
  refine ⟨fun {x} => twin x,fun {x y} low low' differ same => ?_,fun {x y} low small there same => ?_,fun {x} small high => ?_,
    ⟨mid,ran,fun x low high => copied.others high (.inr (by omega))⟩,fun bound => saved.view.pte parent' bound,fun {q} page notFree => ?_⟩
  · have one : Holds next.mem ⟨o.own,update o.dirs a (some d),later⟩ (.user a x) (PTE_ADDR (pteOf next.mem d y)) :=
      ⟨d,dir,by omega,(twin x low).present,same⟩
    have two : Holds next.mem ⟨o.own,update o.dirs a (some d),later⟩ (.user a y) (PTE_ADDR (pteOf next.mem d y)) :=
      ⟨d,dir,by omega,(twin y low').present,rfl⟩
    cases ok_next.custody.exclusive one two
    exact differ rfl
  · obtain ⟨_,notFree,_⟩ := ok.user_page parent small there
    exact notFree (by rw [← same]; exact (twin x low).fresh)
  · rw [copied.others (by omega) (.inr high),bare.user small]; decide
  · refine (frame q page notFree).trans (copied.frame page (fun member => notFree (fewer q member)) (fun i bound found => ?_) fun same => ?_)
    · exact notFree (was_free.2 i q bound found)
    · exact notFree (same ▸ was_free.1)

theorem copyuvm_copies (ok : Ok L s o) (idle : Idle o) (vacant : o.dirs a = none) (parent : o.dirs b = some pgdir) :
    Sat (copyuvm L pgdir sz) s (fun _ _ => 2147483648 < sz ∨ ∃ x, 4096*x < sz ∧ ¬ Present (pteOf s.mem pgdir x))
      fun r next => ∀ d, r = some d → Forked L o s pgdir d sz next := by
  have other : b ≠ a := fun same => by rw [same,vacant] at parent; cases parent
  refine Sat.bind ((setupkvm_spec ok (idle 0) vacant).ran.never) ?_
  rintro r mid ⟨ran,quiet,frame,result⟩
  cases r with
  | none => exact .done fun d no => (by cases no)
  | some d =>
    obtain ⟨was_free,bare,free,fewer,_,_,ok_mid,saved⟩ := result
    have dir : update o.dirs a (some d) a = some d := update_self ..
    have parent' : update o.dirs a (some d) b = some pgdir := (update_of_ne other _ _).trans parent
    have start : 0 = 4096*0 := rfl
    rw [start]
    by_cases tall : 2147483648 < sz
    · refine (copyLoop_never tall 1048576 ok_mid dir idle (by decide) (by decide) (bare.ram (q := 0) (by decide)).1).mono
        (fun _ _ _ => .inl tall) fun r next none e some_dir => ?_
      rw [none] at some_dir; cases some_dir
    have view : SameView s.mem mid.mem o.dirs := ok.custody.view_of_free frame
    refine (copyLoop_copies (by omega) other 1048576 ok_mid dir parent' idle (by omega)).mono ?_ ?_
    · rintro _ _ ⟨x,_,below,absent | there⟩
      · rw [view.pte parent (by omega)] at absent
        exact .inr ⟨x,below,absent⟩
      · rw [bare.user (by omega)] at there; cases there
    · rintro r next (none | ⟨result,⟨later,ok_next,saved'⟩,copied⟩) e some_dir
      · rw [none] at some_dir; cases some_dir
      · cases result.symm.trans some_dir
        exact copied.forked ok parent other (by omega) ran frame was_free bare fewer ok_next (saved.trans saved')

theorem copyuvm_served (ok : Ok L s o) (idle : Idle o) (vacant : o.dirs a = none) (top : sz ≤ 2147483648) (never : ∀ k, s.fails k = false)
    (many : 67 + 2*((sz+4095)/4096) ≤ o.free.length) : Sat (copyuvm L pgdir sz) s (fun _ _ => True) fun r _ => r ≠ none := by
  have served : ∀ {P : Nat → Prop}, FirstRefused s o.free.length P → ∃ j, P j ∧ o.free.length ≤ j := by
    rintro P ⟨j,call,flag | few,_⟩
    · rw [never] at flag; cases flag
    · exact ⟨j,call,few⟩
  refine Sat.bind (((setupkvm_spec ok (idle 0) vacant).and (setupkvm_asked L s)).stops (fun _ _ no => no.1.elim)) ?_
  rintro r mid ⟨⟨quiet,_,result⟩,asked⟩
  cases r with
  | none =>
    rcases result.1 with ⟨k,flag,_⟩ | few
    · rw [never] at flag; cases flag
    · omega
  | some d =>
    obtain ⟨_,bare,free,_,length,calls,ok_mid,_⟩ := result
    obtain ⟨none,growing⟩ := bare.growing (asked.served (by simp)) calls length
    refine (copyLoop_spec (v := 0) 1048576 ok_mid (update_self ..) idle top).post ?_
    rintro r next ⟨_,result⟩
    cases r with
    | some e => simp
    | none =>
      obtain ⟨_,_,given⟩ := result
      rcases given _ _ _ _ growing with ⟨refused,_⟩ | ⟨refused,_⟩
      · obtain ⟨j,⟨v,_,inside,at_v⟩,few⟩ := served refused
        rw [made_fresh none (by omega)] at at_v; omega
      · obtain ⟨j,⟨v,_,inside,_,at_v⟩,few⟩ := served refused
        rw [made_fresh none (by omega)] at at_v; omega

-- A directory that copyuvm returns is a copy of the parent's address space.
theorem copyuvm_forks (L : Layout) (s : Machine) (o : Owners) (a b : Space) (pgdir sz : Nat) (ok : Ok L s o) (idle : Idle o)
    (vacant : o.dirs a = none) (parent : o.dirs b = some pgdir) (d : Nat) (next : Machine)
    (ran : copyuvm L pgdir sz s = (.ok (some d),next)) : Forked L o s pgdir d sz next :=
  (copyuvm_copies ok idle vacant parent).returned ran d rfl

end Copies

-- The first process is copied after main.
theorem copyuvm_forks_first : ∃ s free d next, Sized smallKernel s free 0 ∧
    copyuvm smallKernel (s.procs 0).pgdir 4096 s.vm = (.ok (some d),next) ∧
    Forked smallKernel (owners s free) s.vm (s.procs 0).pgdir d 4096 next := by
  obtain ⟨s,free,_,sized,size,fails,many⟩ := boot_sized (fun _ => false) fun k no => by cases no
  have run := ((copyuvm_copies (a := .fresh) sized.ok (idle_owners s free) rfl sized.dir).and
    (copyuvm_served (a := .fresh) sized.ok (idle_owners s free) rfl (show 4096 ≤ 2147483648 by decide) (fun k => by rw [fails])
      (show 69 ≤ free.length by omega))).stops (F := fun _ _ => False) (fun _ _ ⟨why,_⟩ => ?_)
  · obtain ⟨r,next,ran,_,got⟩ := run.returns
    cases r with
    | none => exact absurd rfl got
    | some d =>
      exact ⟨s,free,d,next,sized,ran,copyuvm_forks smallKernel s.vm (owners s free) .fresh (.proc 0) (s.procs 0).pgdir 4096 sized.ok
        (idle_owners s free) rfl sized.dir d next ran⟩
  · rcases why with tall | ⟨x,below,absent⟩
    · exact absurd tall (by decide)
    · exact absent (sized.below (by omega))

end Xv6.Vm
