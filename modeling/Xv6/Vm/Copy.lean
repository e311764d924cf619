import Xv6.Vm.Grow

namespace Xv6.Vm
open Function (update update_eq_self update_idem update_of_ne update_self)
open Bytes Exec

-- A copy of an address space: copyuvm.

section Copy
variable {L : Layout} {s : Machine} {o : Owners} {a : Space} {d : Nat}

-- What copyuvm leaves of a new address space that it gives up: nothing, where a page
-- was refused; and where a table was, the page that was to be mapped in it is lost.
def GivenUp (start : Machine) (n base : Nat) (m : Bytes.Store) (d sz : Nat) (a : Space) (before : Bytes.Store) (o : Owners)
    (next : Bytes.Store) (o' : Owners) : Prop :=
  (FirstRefused start n (PageCall base m d 0 sz) ∧ Saved a before o next o') ∨
  (FirstRefused start n (TableCall base m d 0 sz) ∧ ((∀ p ∈ o.free, o.own (.pipe p) = none) → ∃ p ∈ o.free, ¬ Held next o' p))

section Taken
variable {src : Bytes.Store} {got next : Machine} {rest : List Nat} {o' : Owners} {p v : Nat} (taken : Taken L o a p rest s got src)
  (done : Tables L ⟨update o.own (.temp 0) (some p),o.dirs,rest⟩ d { got with mem := copy got.mem p 4096 src } next o')
  (dir : o.dirs a = some d) (small : v < 524288)
include taken done dir small

theorem Taken.mapped (idle : Idle o) (flags : f < 4096) (others : ∀ x < 1048576, x ≠ v → pteOf next.mem d x = pteOf (copy got.mem p 4096 src) d x)
    (own : o'.own = update (update o.own (.temp 0) (some p)) (.temp 0) none)
    (entry : pteOf next.mem d v = p ||| f ||| 1) (was : ¬ Present (pteOf (copy got.mem p 4096 src) d v)) :
    Ok L next ⟨o.own,o.dirs,o'.free⟩ ∧ Saved a s.mem o next.mem ⟨o.own,o.dirs,o'.free⟩ := by
  have restored := update_back (p := p) (idle 0)
  have dirs : o'.dirs = o.dirs := done.dirs
  have full : o' = ⟨o.own,o.dirs,o'.free⟩ := by rw [← restored,← own,← dirs]
  rw [← full]
  have mine := update_self (Tag.temp 0) (some p) o.own
  obtain ⟨present,addr,_⟩ := entry_parts taken.managed.1 flags _ entry
  refine ⟨done.ok,taken.saved.trans (done.saved taken.ok dir (fun k q held => ?_) fun x bound there => ?_)⟩
  · by_cases here : k = .temp 0
    · subst here
      cases mine.symm.trans held with
      | refl => exact ⟨.user a v,d,by rw [dirs]; exact dir,small,present,addr⟩
    · exact ⟨.own k,by rw [Holds,own]; exact (update_of_ne here _ _).trans held⟩
  · have other : x ≠ v := fun same => was (same ▸ there)
    exact ⟨.user a x,d,by rw [dirs]; exact dir,bound,by rw [others x (by omega) other]; exact ⟨there,rfl⟩⟩

theorem Taken.growing (growing : Growing start n base m d first v s o.free)
    (tables : ∀ i < 1024, i ≠ v/1024 → tableOf next.mem d i = tableOf (copy got.mem p 4096 src) d i)
    (others : ∀ x < 1048576, x ≠ v → pteOf next.mem d x = pteOf (copy got.mem p 4096 src) d x)
    (present : Present (pteOf next.mem d v)) (served : Served s next) (calls : got.calls = s.calls+1)
    (count : next.calls + o'.free.length = got.calls + rest.length) :
    Growing start n base m d first (v+1) next o'.free := by
  have length : o.free.length = rest.length+1 := by rw [taken.list,List.length_cons]
  have there := table_of_present present
  cases here : tableOf next.mem d (v/1024) with
  | none => rw [here] at there; cases there
  | some t =>
    refine growing.advance (by omega) here (fun i bound other => (tables i bound other).trans (taken.view.table dir bound)) (fun was => ?_)
      (fun x bound other => (others x bound other).trans (taken.view.pte dir bound)) served (taken.count done dir) (by omega)
    cases old : tableOf s.mem d (v/1024) with
    | none => exact absurd old was
    | some q => exact taken.kept done dir (by omega) old

theorem Taken.refused (growing : Growing start n base m d first v s o.free) (inside : 4096*v < sz) (works : s.fails s.calls = false)
    (calls : got.calls = s.calls+1) (same : got.fails = s.fails)
    (missing : tableOf next.mem d (v/1024) = none) (unchanged : o'.free = rest)
    (why : OutOfPages { got with mem := copy got.mem p 4096 src } next d rest o'.free) :
    FirstRefused start n (TableCall base m d first sz) := by
  have length : o.free.length = rest.length+1 := by rw [taken.list,List.length_cons]
  refine growing.refused (by omega) inside (taken.missed done dir small missing) works (by rw [taken.list]; simp) ?_
  rcases why with ⟨k,flag,at_k⟩ | ⟨empty,_⟩
  · have at_k : k + o'.free.length = got.calls + rest.length := at_k
    have flag : got.fails k = true := flag
    rw [unchanged] at at_k
    rw [← same,show s.calls+1 = k by omega]; exact .inl flag
  · rw [← unchanged,empty,List.length_nil] at length
    exact .inr (by omega)

end Taken

structure Tried (L : Layout) (o : Owners) (a : Space) (d v p : Nat) (rest : List Nat) (s got : Machine) (src : Bytes.Store)
    (next : Machine) (o' : Owners) : Prop where
  quiet : Quiet s got
  mem : got.mem = s.mem
  calls : got.calls = s.calls+1
  works : s.fails s.calls = false
  taken : Taken L o a p rest s got src
  done : Tables L ⟨Function.update o.own (.temp 0) (some p),o.dirs,rest⟩ d { got with mem := copy got.mem p 4096 src } next o'
  others : ∀ x < 1048576, x ≠ v → pteOf next.mem d x = pteOf (copy got.mem p 4096 src) d x
  tables : ∀ i < 1024, i ≠ v/1024 → tableOf next.mem d i = tableOf (copy got.mem p 4096 src) d i

theorem Tried.all_quiet (tried : Tried L o a d v p rest s got src next o') : Quiet s next :=
  tried.quiet.trans ⟨tried.done.quiet.fails,tried.done.quiet.grown,tried.done.quiet.loaded,tried.done.quiet.unmapped⟩

theorem copyLoop_turn {E : Panic → Machine → Prop} {Q : Option Nat → Machine → Prop} (ok : Ok L s o) (dir : o.dirs a = some d) (idle : Idle o)
    (small : v < 524288) (inside : 4096*v < sz)
    (stops : ∀ e next, ¬ Present (pteOf s.mem pgdir v) ∨ Present (pteOf s.mem d v) → E e next)
    (full : ∀ got, Quiet s got → got.mem = s.mem → Ok L got o → (s.fails s.calls = true ∨ o.free = []) →
      Sat (freevm L d >>= fun _ => pure none) got E Q)
    (lost : ∀ p rest got src next o', Tried L o a d v p rest s got src next o' → o'.own = update o.own (.temp 0) (some p) →
      OutOfPages { got with mem := copy got.mem p 4096 src } next d rest o'.free → tableOf next.mem d (v/1024) = none → o'.free = rest →
      Sat (freevm L d >>= fun _ => pure none) next E Q)
    (goes : ∀ p rest got next o', Present (pteOf s.mem pgdir v) →
      Tried L o a d v p rest s got (fun x => s.mem (PTE_ADDR (pteOf s.mem pgdir v)+x)) next o' →
      Ok L next ⟨o.own,o.dirs,o'.free⟩ → Saved a s.mem o next.mem ⟨o.own,o.dirs,o'.free⟩ →
      pteOf next.mem d v = p ||| PTE_FLAGS (pteOf s.mem pgdir v) ||| 1 → next.calls + o'.free.length = got.calls + rest.length →
      Served s next → Sat (copyLoop L pgdir d sz fuel (4096*(v+1))) next E Q) :
    Sat (copyLoop L pgdir d sz (fuel+1) (4096*v)) s E Q := by
  have next_page := w32_page (v := v) (by omega)
  unfold copyLoop
  rw [if_pos inside,sat_bind,walkpgdir_look _ _ (by omega),show 4096*v/4096 = v by omega]
  cases table : tableOf s.mem pgdir (v/1024) with
  | none =>
    have zero : pteOf s.mem pgdir v = 0 := by unfold pteOf; rw [table]
    exact (sat_stop ..).mpr (stops _ _ (.inl (by rw [zero]; decide)))
  | some t =>
    simp only [Option.map_some]
    rw [sat_load_bind,pteOf_table table]
    generalize w_eq : pteOf s.mem pgdir v = w at goes stops
    by_cases present : Present w
    · rw [if_pos present]
      refine Sat.bind (((kalloc_spec ok (idle 0) (fun _ _ => False)).and (kalloc_asked s)).stops (fun e next no => no.1.elim)) ?_
      rintro r got ⟨⟨quiet,mem,calls,result⟩,asked⟩
      cases r with
      | none => exact full got quiet mem result.2 result.1
      | some p =>
        obtain ⟨works,rest,list,ok'⟩ := result
        rw [sat_modify_bind,mem]
        generalize src_eq : (fun x => s.mem (PTE_ADDR w+x)) = src at goes
        have taken : Taken L o a p rest s got src := copy_taken ok' idle mem list src
        have vacant := idle.second p
        have flags : PTE_FLAGS w < 4096 := by unfold PTE_FLAGS; omega
        have mine := update_self (Tag.temp 0) (some p) o.own
        have ok_copy := taken.ok
        rw [mem] at ok_copy
        refine Sat.bind (((mappages_user (k := .temp 0) (t := .temp 1) ok_copy dir vacant mine small flags).and
          (mapLoop_asked _ _ _ _ _ _ _)).stops (fun e next ⟨⟨_,_,there⟩,_⟩ => stops e next (.inr ?_))) ?_
        · have view := taken.view.pte dir (show v < 1048576 by omega)
          rw [mem] at view
          rw [← view]; exact there
        rintro r next ⟨⟨o',done,others,tables,failed,mapped⟩,asked'⟩
        rw [← mem] at done others tables failed mapped asked'
        have tried : Tried L o a d v p rest s got src next o' := ⟨quiet,mem,calls,works,taken,done,others,tables⟩
        cases r with
        | true =>
          obtain ⟨own,entry,count,was⟩ := mapped rfl
          obtain ⟨ok_next,saved⟩ := taken.mapped done dir small idle flags others own entry was
          rw [if_pos rfl,next_page]
          have served := ((asked.trans (by simp) (asked_inert.mem got (copy got.mem p 4096 src))).trans trivial asked').served rfl
          exact goes p rest got next o' present tried ok_next saved entry count served
        | false =>
          obtain ⟨own,_,why,missing,unchanged⟩ := failed rfl
          rw [if_neg (by simp)]
          exact lost p rest got src next o' tried own why missing unchanged
    · rw [if_neg present]; exact (sat_stop ..).mpr (stops _ _ (.inl present))

theorem copyLoop_spec (fuel : Nat) : ∀ {s : Machine} {o : Owners} {v : Nat}, Ok L s o → o.dirs a = some d → Idle o →
    sz ≤ 2147483648 →
    Sat (copyLoop L pgdir d sz fuel (4096*v)) s (fun _ _ => True) fun r next => Quiet s next ∧
      match r with
      | none => ∃ free, Ok L next ⟨o.own,update o.dirs a none,free⟩ ∧
          ∀ start n base m, Growing start n base m d 0 v s o.free →
            GivenUp start n base m d sz a s.mem o next.mem ⟨o.own,update o.dirs a none,free⟩
      | some e => e = d ∧ ∃ free, Ok L next ⟨o.own,o.dirs,free⟩ ∧ Saved a s.mem o next.mem ⟨o.own,o.dirs,free⟩ := by
  induction fuel with
  | zero =>
    intro s o v ok dir idle top
    exact .done ⟨.refl s,rfl,o.free,ok,.refl a _ _⟩
  | succ fuel ih =>
    intro s o v ok dir idle top
    by_cases inside : 4096*v < sz
    · have small : v < 524288 := by omega
      refine copyLoop_turn ok dir idle small inside (fun _ _ _ => trivial) ?_ ?_ ?_
      · -- out of memory: what was built so far goes back
        intro got quiet mem ok' why
        apply ((freevm_spec ok' dir idle).stops (fun _ _ _ => trivial)).bind
        rintro _ next ⟨quiet',⟨free,freed,saved⟩,_⟩
        rw [sat_pure]
        rw [mem] at saved
        exact ⟨quiet.trans quiet',free,freed,fun _ _ _ _ growing => .inl ⟨growing.full inside why,saved⟩⟩
      · intro p rest got src next o' tried own why missing unchanged
        obtain ⟨dropped,unheld⟩ := tried.done.lost idle own
        have pinned := dropped.pin tried.taken.managed unheld (.pipe p)
        have idle' : Idle ⟨update o.own (.pipe p) (some p),o.dirs,o'.free⟩ := fun k => by
          show update o.own (.pipe p) (some p) (.temp k) = none
          rw [update_of_ne (by simp)]; exact idle k
        refine Sat.bind (((freevm_spec dropped dir idle).and (freevm_spec pinned dir idle')).stops
          (fun _ _ _ => trivial)) ?_
        rintro _ last ⟨⟨quiet'',⟨free,freed,_⟩,_⟩,⟨_,⟨free',freed',_⟩,_⟩⟩
        refine .done ⟨tried.all_quiet.trans quiet'',free,freed,fun start n base m growing => .inr ⟨?_,fun vacancies => ?_⟩⟩
        · exact tried.taken.refused tried.done dir small growing inside tried.works tried.calls tried.quiet.fails missing unchanged why
        · obtain ⟨ok_last,gone⟩ := freed'.unpin (vacancies p tried.taken.page)
          have same : free = free' := chain_unique freed.custody.chain ok_last.custody.chain
          rw [same]
          exact ⟨p,tried.taken.page,gone⟩
      · intro p rest got next o' _ tried ok_next saved entry count served
        refine (ih ok_next dir idle top).post ?_
        rintro r last ⟨quiet'',result⟩
        refine ⟨tried.all_quiet.trans quiet'',?_⟩
        cases r with
        | some e =>
          obtain ⟨same,free,ok_last,saved'⟩ := result
          exact ⟨same,free,ok_last,saved.trans saved'⟩
        | none =>
          obtain ⟨free,ok_last,given⟩ := result
          refine ⟨free,ok_last,fun start n base m growing => ?_⟩
          have present' : Present (pteOf next.mem d v) := by rw [entry,or_one]; unfold Present; omega
          have later := tried.taken.growing tried.done dir small growing tried.tables tried.others present' served tried.calls count
          rcases given start n base m later with ⟨refused,saved'⟩ | ⟨refused,lost⟩
          · exact .inl ⟨refused,saved.trans saved'⟩
          · refine .inr ⟨refused,fun vacancies => ?_⟩
            obtain ⟨q,member,unheld⟩ := lost fun q member => vacancies q (tried.taken.fewer tried.done q member)
            exact ⟨q,tried.taken.fewer tried.done q member,unheld⟩
    · unfold copyLoop
      rw [if_neg inside,sat_pure]
      exact ⟨.refl s,rfl,o.free,ok,.refl a _ _⟩

theorem copyuvm_spec (ok : Ok L s o) (vacant : o.dirs a = none) (idle : Idle o) (top : sz ≤ 2147483648) :
    Sat (copyuvm L pgdir sz) s (fun _ _ => True) fun r next => Quiet s next ∧
      match r with
      | none => ∃ free, Ok L next ⟨o.own,o.dirs,free⟩ ∧
          ((FirstRefused s o.free.length (fun j => ¬ FreshTable sz j) ∧ Saved a s.mem o next.mem ⟨o.own,o.dirs,free⟩) ∨
            (FirstRefused s o.free.length (FreshTable sz) ∧ ((∀ p ∈ o.free, o.own (.pipe p) = none) →
              ∃ p ∈ o.free, ¬ Held next.mem ⟨o.own,o.dirs,free⟩ p)))
      | some d => ∃ free, Ok L next ⟨o.own,update o.dirs a (some d),free⟩ ∧
          Saved a s.mem o next.mem ⟨o.own,update o.dirs a (some d),free⟩ := by
  refine Sat.bind (((setupkvm_spec ok (idle 0) vacant).and (setupkvm_asked L s)).stops
    (fun _ _ no => no.1.elim)) ?_
  rintro r mid ⟨⟨quiet,_,result⟩,asked⟩
  cases r with
  | none =>
    obtain ⟨_,free,_,ok',unset⟩ := result
    refine .done ⟨quiet,free,ok',?_⟩
    rcases unset with ⟨refused,rfl,mem⟩ | ⟨refused,lost⟩
    · rw [mem]
      refine .inl ⟨⟨0,?_,refused,fun j no => by omega⟩,.refl a _ _⟩
      rintro (⟨_,_⟩ | ⟨i,_,same⟩) <;> omega
    · exact .inr ⟨refused.imp fun j => .inl,fun _ => lost⟩
  | some d =>
    obtain ⟨_,bare,free,fewer,length,calls,ok',saved⟩ := result
    have dir : update o.dirs a (some d) a = some d := update_self ..
    refine (copyLoop_spec (v := 0) 1048576 ok' dir idle top).post ?_
    rintro r next ⟨quiet',result⟩
    refine ⟨quiet.trans quiet',?_⟩
    cases r with
    | some e =>
      obtain ⟨rfl,free',ok'',saved'⟩ := result
      exact ⟨free',ok'',saved.trans saved'⟩
    | none =>
      obtain ⟨free',ok'',given⟩ := result
      have restored := update_back (p := d) vacant
      rw [restored] at ok'' given
      refine ⟨free',ok'',?_⟩
      obtain ⟨none,growing⟩ := bare.growing (asked.served (by simp)) calls length
      rcases given _ _ _ _ growing with ⟨refused,saved'⟩ | ⟨refused,lost⟩
      · exact .inl ⟨refused.imp fun j => PageCall.not_fresh none top,saved.trans saved'⟩
      · refine .inr ⟨refused.imp fun j => TableCall.fresh none top,fun vacancies => ?_⟩
        obtain ⟨p,member,unheld⟩ := lost fun p member => vacancies p (fewer p member)
        exact ⟨p,fewer p member,unheld⟩

end Copy
end Xv6.Vm
