import Xv6.Vm.Shrink

namespace Xv6.Vm
open Function (update update_eq_self update_idem update_of_ne update_self)
open Bytes Exec

-- Taking pages for the user's half: allocuvm.

section Grow
variable {L : Layout} {s : Machine} {o : Owners} {a : Space} {d : Nat}

def UserEntry (s : Machine) (d v : Nat) : Prop :=
  Present (pteOf s.mem d v) ∧ UserBit (pteOf s.mem d v) ∧ PTE_ADDR (pteOf s.mem d v) ∈ s.grown

-- The record of a run that took pages: nothing was loaded, what was taken or went
-- unmapped before is still on record, and what was taken since had been free.
structure Grows (free : List Nat) (s next : Machine) : Prop where
  fails : next.fails = s.fails
  loaded : next.loaded = s.loaded
  grown : ∀ p ∈ s.grown, p ∈ next.grown
  taken : ∀ p ∈ next.grown, p ∈ s.grown ∨ p ∈ free
  unmapped : ∃ more, next.unmapped = more ++ s.unmapped

theorem Quiet.grows (quiet : Quiet s next) : Grows free s next :=
  ⟨quiet.fails,quiet.loaded,fun p old => by rw [quiet.grown]; exact old,
   fun p now => .inl (by rw [← quiet.grown]; exact now),[],quiet.unmapped⟩

theorem Grows.trans (one : Grows free s next) (two : Grows less next last) (fewer : ∀ q ∈ less, q ∈ free) :
    Grows free s last := by
  obtain ⟨more,first⟩ := one.unmapped
  obtain ⟨extra,second⟩ := two.unmapped
  refine ⟨two.fails.trans one.fails,two.loaded.trans one.loaded,fun p old => two.grown p (one.grown p old),fun p now => ?_,
    extra++more,by rw [second,first,List.append_assoc]⟩
  rcases two.taken p now with old | was_free
  · exact one.taken p old
  · exact .inr (fewer p was_free)

theorem Grows.settled (one : Grows free s next) (two : Grows less next last) (same : last.unmapped = s.unmapped) :
    next.unmapped = s.unmapped ∧ last.unmapped = next.unmapped := by
  obtain ⟨more,first⟩ := one.unmapped
  obtain ⟨extra,second⟩ := two.unmapped
  exact suffix_settled first second same

-- One turn of allocuvm: page p was taken for virtual page v, and mapped if a
-- table could be had.
structure Took (L : Layout) (o : Owners) (d v p : Nat) (mapped : Bool) (s next : Machine) (free : List Nat) : Prop where
  ok : Ok L next ⟨o.own,o.dirs,free⟩
  fails : next.fails = s.fails
  loaded : next.loaded = s.loaded
  grown : next.grown = p :: s.grown
  unmapped : next.unmapped = if mapped then s.unmapped else p :: s.unmapped
  page : p ∈ o.free
  fewer : ∀ q ∈ free, q ∈ o.free
  entry : pteOf next.mem d v = if mapped then p ||| 6 ||| 1 else pteOf s.mem d v
  others : x < 1048576 → x ≠ v → pteOf next.mem d x = pteOf s.mem d x
  tables : i < 1024 → i ≠ v/1024 → tableOf next.mem d i = tableOf s.mem d i
  kept : i < 1024 → tableOf s.mem d i = some q → tableOf next.mem d i = some q
  found : i < 1024 → tableOf next.mem d i = some q → tableOf s.mem d i = some q ∨ q ∈ o.free
  frame : q % 4096 = 0 → q ∉ o.free → (∀ i < 1024, tableOf s.mem d i ≠ some q) → q ≠ d → SamePage s.mem next.mem q
  count : absent next.mem d + o.free.length = absent s.mem d + free.length + 1
  -- a mapping fails when the call of kalloc for the table is made to fail, or no page is left
  calls : if mapped then next.calls + free.length = s.calls + o.free.length
    else (∃ k, s.fails k = true ∧ k + free.length = s.calls + o.free.length) ∨ free = []

-- What the turn asked kalloc for. Where the table was refused nobody holds the page
-- any more.
structure Turn (L : Layout) (o : Owners) (d v p : Nat) (mapped : Bool) (s next : Machine) (free : List Nat) : Prop where
  served : mapped = true → ¬ Present (pteOf s.mem d v) ∧ Served s next ∧ ZeroPage next.mem p
  missed : mapped = false → tableOf s.mem d (v/1024) = none ∧ s.fails s.calls = false ∧
    (s.fails (s.calls+1) = true ∨ o.free.length ≤ 1) ∧ Managed L p ∧ ¬ Held next.mem ⟨o.own,o.dirs,free⟩ p

theorem Ok.named (ok : Ok L s o) (mine : o.own k = some q) (dir : o.dirs a = some d) :
    q % 4096 = 0 ∧ q ∉ o.free ∧ q ≠ d ∧ (∀ i < 1024, tableOf s.mem d i ≠ some q) ∧
    ∀ v < 524288, Present (pteOf s.mem d v) → PTE_ADDR (pteOf s.mem d v) ≠ q := by
  have use : Holds s.mem o (.own k) q := mine
  have held := ok.custody
  refine ⟨(held.managed use).1,fun free => ?_,fun same => ?_,fun i small found => ?_,fun v small present same => ?_⟩
  · cases held.exclusive use (show Holds s.mem o .free q from free)
  · cases held.exclusive use (show Holds s.mem o (.dir a) q from same ▸ dir)
  · cases held.exclusive use (show Holds s.mem o (.table a i) q from ⟨d,dir,small,found⟩)
  · cases held.exclusive use (show Holds s.mem o (.user a v) q from ⟨d,dir,small,present,same⟩)

-- A turn of a loop up to the mapping: page p with what was put in it.
structure Taken (L : Layout) (o : Owners) (a : Space) (p : Nat) (rest : List Nat) (s got : Machine) (src : Bytes.Store) : Prop where
  list : o.free = p :: rest
  ok : Ok L { got with mem := copy got.mem p 4096 src } ⟨Function.update o.own (.temp 0) (some p),o.dirs,rest⟩
  view : SameView s.mem (copy got.mem p 4096 src) o.dirs
  saved : Saved a s.mem o (copy got.mem p 4096 src) ⟨Function.update o.own (.temp 0) (some p),o.dirs,rest⟩

theorem copy_taken (ok : Ok L got ⟨update o.own (.temp 0) (some p),o.dirs,rest⟩) (idle : Idle o) (mem : got.mem = s.mem)
    (list : o.free = p :: rest) (src : Bytes.Store) :
    Taken L o a p rest s got src := by
  have mine := update_self (Tag.temp 0) (some p) o.own
  have page := (ok.custody.managed (u := .own (.temp 0)) mine).1
  have away : ∀ q, q % 4096 = 0 → q ≠ p → SamePage got.mem (copy got.mem p 4096 src) q :=
    fun q aligned other x low high => copy_out _ _ (by omega)
  have loose := ok.custody.loose_own (t := .temp 0) mine
  have view : SameView s.mem (copy got.mem p 4096 src) o.dirs := by rw [← mem]; exact (ok.custody.loose_view loose away).1
  exact ⟨list,ok.write loose _ away,view,.take a list (idle 0) view⟩

section Taken
variable {src : Bytes.Store} {got next : Machine} {rest : List Nat} {o' : Owners} {p : Nat} (taken : Taken L o a p rest s got src)
include taken

theorem Taken.page : p ∈ o.free := taken.list ▸ List.mem_cons_self

theorem Taken.managed : Managed L p := by
  have mine := update_self (Tag.temp 0) (some p) o.own
  exact taken.ok.custody.managed (u := .own (.temp 0)) mine

variable (done : Tables L ⟨update o.own (.temp 0) (some p),o.dirs,rest⟩ d { got with mem := copy got.mem p 4096 src } next o')
include done

omit taken in
theorem Tables.lost (idle : Idle o) (own : o'.own = update o.own (.temp 0) (some p)) :
    Ok L next ⟨o.own,o.dirs,o'.free⟩ ∧ ¬ Held next.mem ⟨o.own,o.dirs,o'.free⟩ p := by
  have ok : Ok L next ⟨update o.own (.temp 0) (some p),o.dirs,o'.free⟩ := by
    rw [← own,← show o'.dirs = o.dirs from done.dirs]; exact done.ok
  exact ok.unpin (idle 0)

theorem Taken.fewer : ∀ q ∈ o'.free, q ∈ o.free := fun q member => taken.list ▸ List.mem_cons_of_mem p (done.free q member)

variable (dir : o.dirs a = some d)
include dir

theorem Taken.kept (small : i < 1024) (was : tableOf s.mem d i = some q) : tableOf next.mem d i = some q :=
  done.kept small ((taken.view.table dir small).trans was)

theorem Taken.found (small : i < 1024) (now : tableOf next.mem d i = some q) : tableOf s.mem d i = some q ∨ q ∈ o.free :=
  (done.found small now).imp (fun old => (taken.view.table dir small).symm.trans old) fun member => taken.list ▸ List.mem_cons_of_mem p member

theorem Taken.frame (mem : got.mem = s.mem) (page : q % 4096 = 0) (notFree : q ∉ o.free)
    (noTable : ∀ i < 1024, tableOf s.mem d i ≠ some q) (notDir : q ≠ d) : SamePage s.mem next.mem q := by
  have aligned := taken.managed.1
  have other : q ≠ p := fun same => notFree (same ▸ taken.page)
  have copied : SamePage s.mem (copy got.mem p 4096 src) q := by
    rw [mem]
    exact fun x low high => copy_out _ _ (by omega)
  refine copied.trans (done.frame page (fun member => notFree ?_) (fun i bound found => noTable i bound ?_) notDir)
  · exact taken.list ▸ List.mem_cons_of_mem p member
  · exact (taken.view.table dir bound).symm.trans found

theorem Taken.bytes : SamePage (copy got.mem p 4096 src) next.mem p := by
  obtain ⟨page,notFree,notDir,noTable,_⟩ := Ok.named (k := .temp 0) taken.ok (update_self (Tag.temp 0) (some p) o.own) dir
  exact done.frame page notFree noTable notDir

theorem Taken.count : absent next.mem d + o.free.length = absent s.mem d + o'.free.length + 1 := by
  have absents : absent next.mem d + rest.length = absent (copy got.mem p 4096 src) d + o'.free.length := done.count
  rw [absent_same fun i => taken.view.table dir] at absents
  rw [taken.list,List.length_cons]
  omega

-- The table was refused, so it was not there before.
theorem Taken.missed (small : v < 524288) (missing : tableOf next.mem d (v/1024) = none) : tableOf s.mem d (v/1024) = none := by
  cases was : tableOf s.mem d (v/1024) with
  | none => rfl
  | some q => rw [taken.kept done dir (by omega) was] at missing; cases missing

end Taken

theorem allocLoop_turn {Q : Nat → Machine → Prop} {E : Panic → Machine → Prop}
    (ok : Ok L s o) (dir : o.dirs a = some d) (idle : Idle o) (small : v < 524288) (inside : 4096*v < newsz)
    (stops : ∀ next, Grows o.free s next → next.unmapped = s.unmapped → Present (pteOf s.mem d v) → E .remap next)
    (full : ∀ next, Quiet s next → next.mem = s.mem → Ok L next o → (s.fails s.calls = true ∨ o.free = []) →
      Sat (deallocuvm L d newsz oldsz >>= fun _ => pure 0) next E Q)
    (goes : ∀ next free p mapped, Took L o d v p mapped s next free → Turn L o d v p mapped s next free →
      Sat (allocLoop L d oldsz newsz fuel (4096*(v+1))) next E Q) :
    Sat (allocLoop L d oldsz newsz (fuel+1) (4096*v)) s E Q := by
  have next_page := w32_page (v := v) (by omega)
  unfold allocLoop
  rw [if_pos inside]
  refine Sat.bind (((kalloc_spec ok (idle 0) fun _ _ => False).and (kalloc_asked s)).stops (fun _ _ no => no.1.elim)) ?_
  rintro r got ⟨⟨quiet,mem,calls,result⟩,asked⟩
  cases r with
  | none => exact full got quiet mem result.2 result.1
  | some p =>
    obtain ⟨works,rest,list,ok'⟩ := result
    rw [sat_modify_bind,sat_memset_bind]
    have mine := update_self (Tag.temp 0) (some p) o.own
    have counted : Ok L { got with grown := p :: got.grown } _ := ⟨ok'.custody,ok'.alternating,ok'.freed⟩
    have taken := copy_taken (a := a) counted idle mem list fun _ => 0
    have member := taken.page
    have ptes₀ : ∀ x < 1048576, pteOf (fill got.mem p 4096 0) d x = pteOf s.mem d x := fun x => taken.view.pte dir
    have cleared := taken.ok
    have vacant := idle.second p
    have run := (mappages_user (k := .temp 0) (t := .temp 1) (f := 6) cleared dir vacant mine small
      (by decide)).and (mapLoop_asked _ _ _ _ _ _ _)
    refine Sat.bind (run.stops ?_) ?_
    · rintro e next ⟨⟨rfl,quiet',present⟩,_⟩
      have grows : Grows o.free got { got with grown := p :: got.grown, mem := fill got.mem p 4096 0 } :=
        ⟨rfl,rfl,fun q old => List.mem_cons_of_mem _ old,
         fun q now => (List.mem_cons.mp now).elim (fun same => .inr (same ▸ member)) .inl,[],rfl⟩
      have all : ∀ q ∈ o.free, q ∈ o.free := fun _ inside => inside
      refine stops next (quiet.grows.trans (grows.trans quiet'.grows all) all) (quiet'.unmapped.trans quiet.unmapped) ?_
      rw [← ptes₀ v (by omega)]; exact present
    · rintro r next ⟨⟨o',done,others,tables,failed,mapped⟩,asked'⟩
      have dirs : o'.dirs = o.dirs := done.dirs
      have length : o.free.length = rest.length+1 := by rw [list,List.length_cons]
      have kept := fun i q => taken.kept (i := i) (q := q) done dir
      have found := fun i q => taken.found (i := i) (q := q) done dir
      have frame := fun q => taken.frame (q := q) done dir mem
      have count := taken.count done dir
      cases r with
      | true =>
        obtain ⟨own,at_v,counted,was⟩ := mapped rfl
        have counted' : next.calls + o'.free.length = got.calls + rest.length := counted
        have own' : o'.own = o.own := own.trans (update_back (idle 0))
        have full' : o' = ⟨o.own,o.dirs,o'.free⟩ := by rw [← own',← dirs]
        rw [if_pos rfl,next_page]
        refine goes next o'.free p true ⟨full' ▸ done.ok,done.quiet.fails.trans quiet.fails,done.quiet.loaded.trans quiet.loaded,
          ?_,?_,member,taken.fewer done,at_v,fun {x} inside other => (others x inside other).trans (ptes₀ x inside),
          fun {i} inside other => (tables i inside other).trans (taken.view.table dir inside),fun {i q} => kept i q,fun {i q} => found i q,
          fun {q} => frame q,count,?_⟩ ⟨fun _ => ⟨by rw [← ptes₀ v (by omega)]; exact was,?_,?_⟩,by simp⟩
        · rw [done.quiet.grown]; show p :: got.grown = _; rw [quiet.grown]
        · rw [if_pos rfl,done.quiet.unmapped]; exact quiet.unmapped
        · rw [if_pos rfl]; omega
        · have kept : Served got { got with grown := p :: got.grown, mem := fill got.mem p 4096 0 } :=
            ⟨rfl,.refl,(Served.refl got).worked,rfl⟩
          exact ((asked.served (by simp)).trans kept).trans (asked'.served rfl)
        · exact fun x low high => (taken.bytes done dir x low high).trans (fill_zero got.mem p x low high)
      | false =>
        obtain ⟨own,at_v,why,missing,unchanged⟩ := failed rfl
        obtain ⟨dropped,unheld⟩ := done.lost idle own
        have all_left : o'.free = rest := unchanged
        rw [if_neg (by simp),sat_modify_bind,next_page]
        refine goes _ o'.free p false ⟨⟨dropped.custody,dropped.alternating,dropped.freed⟩,done.quiet.fails.trans quiet.fails,
          done.quiet.loaded.trans quiet.loaded,?_,?_,member,taken.fewer done,?_,fun {x} inside other => (others x inside other).trans (ptes₀ x inside),
          fun {i} inside other => (tables i inside other).trans (taken.view.table dir inside),fun {i q} => kept i q,fun {i q} => found i q,
          fun {q} => frame q,count,?_⟩
          ⟨by simp,fun _ => ⟨taken.missed done dir small missing,works,?_,taken.managed,unheld⟩⟩
        · rw [done.quiet.grown]; show p :: got.grown = _; rw [quiet.grown]
        · rw [if_neg (by simp)]; show p :: next.unmapped = _; rw [done.quiet.unmapped]; show p :: got.unmapped = _; rw [quiet.unmapped]
        · rw [if_neg (by simp)]; show pteOf next.mem d v = _; rw [at_v]; exact ptes₀ v (by omega)
        · rcases why with ⟨k,flag,at_k⟩ | left
          · have at_k' : k + o'.free.length = got.calls + rest.length := at_k
            refine .inl ⟨k,?_,by omega⟩
            rw [← quiet.fails]; exact flag
          · exact .inr left.1
        · rcases why with ⟨k,flag,at_k⟩ | ⟨empty,_⟩
          · have at_k : k + o'.free.length = got.calls + rest.length := at_k
            have flag : got.fails k = true := flag
            rw [all_left] at at_k
            refine .inl ?_
            rw [← quiet.fails,show s.calls+1 = k by omega]; exact flag
          · refine .inr ?_
            rw [← all_left,empty,List.length_nil] at length; omega

theorem Took.grows (took : Took L o d v p mapped s next free) : Grows o.free s next := by
  refine ⟨took.fails,took.loaded,fun q old => by rw [took.grown]; exact .tail _ old,fun q now => ?_,?_⟩
  · rw [took.grown] at now
    exact (List.mem_cons.mp now).elim (fun same => .inr (same ▸ took.page)) .inl
  · rw [took.unmapped]
    cases mapped with
    | true => exact ⟨[],rfl⟩
    | false => exact ⟨[p],rfl⟩

theorem Took.saved (took : Took L o d v p true s next free) (ok : Ok L s o) (dir : o.dirs a = some d) (small : v < 524288)
    (was : ¬ Present (pteOf s.mem d v)) : Saved a s.mem o next.mem ⟨o.own,o.dirs,free⟩ := by
  have entry : pteOf next.mem d v = p ||| 6 ||| 1 := took.entry
  obtain ⟨present,addr,_⟩ := entry_parts (ok.custody.managed (u := .free) took.page).1 (by decide) _ entry
  have mapped : Holds next.mem ⟨o.own,o.dirs,free⟩ (.user a v) p := ⟨d,dir,small,present,addr⟩
  refine .of_space (fun _ _ => rfl) (frame_view ok dir fun _ => took.frame) (fun q use => ?_) (fun t q use => ⟨.own t,use⟩) fun e there => ?_
  · refine free_held took.ok dir [p] (List.nodup_singleton p) took.fewer (fun i q => took.kept) (fun i q => took.found)
      (fun q is_p => ?_) took.count use
    rw [List.mem_singleton.mp is_p]
    exact ⟨took.page,.user a v,mapped,by simp,by simp⟩
  · cases dir.symm.trans there
    refine ⟨⟨.dir a,dir⟩,fun i q bound found => ⟨.table a i,d,dir,bound,took.kept bound found⟩,fun x bound present => ?_⟩
    have other : x ≠ v := fun same => was (same ▸ present)
    exact ⟨.user a x,d,dir,bound,by rw [took.others (by omega) other]; exact ⟨present,rfl⟩⟩

-- Where the loop of allocuvm, having come to page v, ends. It returns 0 when it ran out
-- of memory, and then the range is as good as empty again. When it returns newsz the
-- entries outside the range are as before; and when it mapped every page it took, the
-- range is mapped to zeroed pages it took and no page got lost.
structure Alloc (L : Layout) (o : Owners) (a : Space) (d oldsz newsz v : Nat) (s : Machine) (r : Nat) (next : Machine) : Prop where
  grows : Grows o.free s next
  result : r = 0 ∨ r = newsz
  ok : ∃ free, Ok L next ⟨o.own,o.dirs,free⟩ ∧ (r ≠ 0 → ∀ q ∈ free, q ∈ o.free) ∧
    (next.unmapped = s.unmapped → Saved a s.mem o next.mem ⟨o.own,o.dirs,free⟩)
  outside : r ≠ 0 → x < 1048576 → x < v ∨ newsz ≤ 4096*x → pteOf next.mem d x = pteOf s.mem d x
  range : r ≠ 0 → next.unmapped = s.unmapped → v ≤ x → 4096*x < newsz → UserEntry next d x ∧ Writable (pteOf next.mem d x) ∧
    ZeroPage next.mem (PTE_ADDR (pteOf next.mem d x))
  gap : r ≠ 0 → next.unmapped ≠ s.unmapped → ∃ x, v ≤ x ∧ 4096*x < newsz ∧ ¬ Present (pteOf next.mem d x)
  undone : r = 0 → (oldsz+4095)/4096 ≤ v → (oldsz+4095)/4096%1024 = 0 ∨ tableOf s.mem d ((oldsz+4095)/4096/1024) ≠ none → x < 1048576 →
    ((oldsz+4095)/4096 ≤ x → 4096*x < newsz → pteOf next.mem d x = 0) ∧
    (x < (oldsz+4095)/4096 ∨ newsz ≤ 4096*x → pteOf next.mem d x = pteOf s.mem d x)
  tables : i < 1024 → tableOf s.mem d i = some q → tableOf next.mem d i = some q
  frame : q % 4096 = 0 → q ∉ o.free → (∀ i < 1024, tableOf s.mem d i ≠ some q) → q ≠ d →
    (r = 0 → ∀ x < 524288, (oldsz+4095)/4096 ≤ x → Present (pteOf s.mem d x) → PTE_ADDR (pteOf s.mem d x) ≠ q) →
    SamePage s.mem next.mem q

theorem Alloc.here (ok : Ok L s o) (a : Space) (d oldsz : Nat) (done : newsz ≤ 4096*v) : Alloc L o a d oldsz newsz v s newsz s where
  grows := (Quiet.refl s).grows
  result := .inr rfl
  ok := ⟨o.free,ok,fun _ _ inside => inside,fun _ => .refl a _ _⟩
  outside _ _ _ := rfl
  range _ _ low inside := by omega
  gap _ no := absurd rfl no
  undone zero _ _ _ := ⟨fun _ inside => by omega,fun _ => rfl⟩
  tables _ found := found
  frame _ _ _ _ _ _ _ _ := rfl

theorem Alloc.full (quiet : Quiet s next) (mem : next.mem = s.mem) (top : newsz ≤ 2147483648)
    (sweeps : Sweeps L o a d ((oldsz+4095)/4096) newsz next last) : Alloc L o a d oldsz newsz v s 0 last := by
  obtain ⟨free,shrunk,saved⟩ := sweeps.done
  have inside := @sweeps.inside
  have outside := @sweeps.outside
  have frame := @sweeps.frame
  rw [mem] at saved inside outside frame
  refine ⟨(quiet.trans shrunk.quiet).grows,.inl rfl,⟨free,shrunk.ok,fun no => absurd rfl no,fun _ => saved⟩,fun no => absurd rfl no,
    fun no => absurd rfl no,fun no => absurd rfl no,fun {x} _ _ start small => ⟨fun low below => ?_,fun away => ?_⟩,fun {i q} bound found => ?_,
    fun {q} page _ noTable _ noPage => ?_⟩
  · exact inside (.of_aligned start low below)
  · exact outside (by omega) fun swept => by have := swept.1; have := swept.2.1; omega
  · rw [shrunk.tables bound,mem]; exact found
  · refine frame page noTable fun x swept present => noPage rfl x ?_ swept.1 present
    have := swept.2.1; omega

theorem Alloc.turn (ok : Ok L s o) (dir : o.dirs a = some d) (small : v < 524288) (inside : 4096*v < newsz)
    (took : Took L o d v p mapped s next free) (turn : Turn L o d v p mapped s next free)
    (rest : Alloc L ⟨o.own,o.dirs,free⟩ a d oldsz newsz (v+1) next r last) : Alloc L o a d oldsz newsz v s r last := by
  have managed := ok.custody.managed (u := .free) took.page
  -- nothing went unmapped at the end, so this page was mapped
  have settled : last.unmapped = s.unmapped → last.unmapped = next.unmapped ∧ mapped = true := by
    intro nothing
    obtain ⟨first,since⟩ := took.grows.settled rest.grows nothing
    rw [took.unmapped] at first
    cases mapped with
    | false => exact absurd (congrArg List.length first) (by simp)
    | true => exact ⟨since,rfl⟩
  have not_page : ∀ q, q ∉ o.free → q ≠ p := fun q notFree same => notFree (same ▸ took.page)
  refine ⟨took.grows.trans rest.grows took.fewer,rest.result,?_,fun {x} success bound away => ?_,fun {x} success nothing low below => ?_,
    fun success lost => ?_,fun {x} zero low start bound => ?_,fun {i q} bound found => rest.tables bound (took.kept bound found),
    fun {q} page notFree noTable notDir noPage => ?_⟩
  · obtain ⟨free',ok',fewer,saved⟩ := rest.ok
    refine ⟨free',ok',fun success q member => took.fewer q (fewer success q member),fun nothing => ?_⟩
    obtain ⟨since,rfl⟩ := settled nothing
    exact (took.saved ok dir small (turn.served rfl).1).trans (saved since)
  · rw [rest.outside success bound (by omega)]
    exact took.others bound (by omega)
  · obtain ⟨since,rfl⟩ := settled nothing
    by_cases here : x = v
    · subst here
      have entry : pteOf next.mem d x = p ||| 6 ||| 1 := took.entry
      have at_x : pteOf last.mem d x = p ||| 6 ||| 1 := by rw [rest.outside success (by omega) (by omega)]; exact entry
      obtain ⟨present,addr,user,_⟩ := entry_parts managed.1 (show 6 < 4096 by decide) _ entry
      obtain ⟨present',addr',user',_⟩ := entry_parts managed.1 (show 6 < 4096 by decide) _ at_x
      have writable : Writable (pteOf last.mem d x) := by
        rw [at_x,entry_eq managed.1 (by decide)]
        have := managed.1
        unfold Writable; omega
      refine ⟨⟨present',user'.mpr (by decide),?_⟩,writable,?_⟩
      · rw [addr']
        exact rest.grows.grown p (by rw [took.grown]; exact (.head _) ..)
      · -- nobody else touches the page from here on
        have use : Holds next.mem ⟨o.own,o.dirs,free⟩ (.user a x) p := ⟨d,dir,small,present,addr⟩
        have apart := fun u => took.ok.custody.exclusive (u := u) (w := .user a x) (p := p)
        have same : SamePage next.mem last.mem p := by
          refine rest.frame managed.1 (fun member => ?_) (fun i bound found => ?_) (fun is_dir => ?_) fun no => absurd no success
          · cases apart .free member use
          · cases apart (.table a i) ⟨d,dir,bound,found⟩ use
          · cases apart (.dir a) (is_dir ▸ dir) use
        rw [addr']
        exact fun y low high => (same y low high).trans ((turn.served rfl).2.2 y low high)
    · exact rest.range success since (by omega) below
  · cases mapped with
    | true =>
      have unmapped : next.unmapped = s.unmapped := took.unmapped
      obtain ⟨x,low,below,missing⟩ := rest.gap success (by rw [unmapped]; exact lost)
      exact ⟨x,by omega,below,missing⟩
    | false =>
      -- the entry of this page was zero and stays so
      refine ⟨v,.refl,inside,?_⟩
      have entry : pteOf next.mem d v = pteOf s.mem d v := took.entry
      have zero : pteOf s.mem d v = 0 := by unfold pteOf; rw [(turn.missed rfl).1]
      rw [rest.outside success (by omega) (by omega),entry,zero]; decide
  · have start' : (oldsz+4095)/4096%1024 = 0 ∨ tableOf next.mem d ((oldsz+4095)/4096/1024) ≠ none := by
      refine start.imp id fun there => ?_
      cases found : tableOf s.mem d ((oldsz+4095)/4096/1024) with
      | none => exact absurd found there
      | some q => rw [took.kept (by omega) found]; simp
    obtain ⟨cleared,same⟩ := rest.undone zero (by omega) start' bound
    exact ⟨cleared,fun away => (same away).trans (took.others (by omega) (by omega))⟩
  · refine (took.frame page notFree noTable notDir).trans
      (rest.frame page (fun member => notFree (took.fewer q member)) (fun i bound found => ?_) notDir fun zero x bound low present => ?_)
    · rcases took.found bound found with old | member
      · exact noTable i bound old
      · exact notFree member
    by_cases here : x = v
    · subst here
      have entry := took.entry
      cases mapped with
      | true =>
        rw [(entry_parts managed.1 (show 6 < 4096 by decide) _ entry).2.1]
        exact (not_page q notFree).symm
      | false =>
        rw [entry] at present ⊢
        exact noPage zero x bound low present
    · rw [took.others (by omega) here] at present ⊢
      exact noPage zero x bound low present

theorem allocLoop_spec (fuel : Nat) : ∀ {s : Machine} {o : Owners} {v : Nat}, Ok L s o → o.dirs a = some d → Idle o →
    newsz < 2147483648 → v ≤ 524288 → newsz ≤ 4096*(v+fuel) →
    Sat (allocLoop L d oldsz newsz fuel (4096*v)) s
      (fun _ next => Grows o.free s next ∧ ∃ x, v ≤ x ∧ 4096*x < newsz ∧ Present (pteOf s.mem d x))
      fun r next => Alloc L o a d oldsz newsz v s r next := by
  induction fuel with
  | zero =>
    intro s o v ok dir idle top high enough
    unfold allocLoop
    rw [sat_pure]
    exact .here ok a d oldsz (by omega)
  | succ fuel ih =>
    intro s o v ok dir idle top high enough
    by_cases inside : 4096*v < newsz
    · refine allocLoop_turn ok dir idle (by omega) inside
        (fun next grows _ present => ⟨grows,v,.refl,inside,present⟩) ?_ ?_
      · intro next quiet mem ok' _
        apply ((deallocuvm_spec ok' dir (by omega)).never).bind
        rintro _ last ⟨_,sweeps⟩
        rw [sat_pure]
        exact .full quiet mem (by omega) sweeps
      intro next free p mapped took turn
      refine (ih took.ok dir idle top (by omega) (by omega)).mono ?_ fun r last rest => .turn ok dir (by omega) inside took turn rest
      rintro e last ⟨grows,x,low,below,present⟩
      refine ⟨took.grows.trans grows took.fewer,x,by omega,below,?_⟩
      rwa [← took.others (by omega) (by omega)]
    · unfold allocLoop
      rw [if_neg inside,sat_pure]
      exact .here ok a d oldsz (by omega)

theorem Took.growing (took : Took L o d v p true s next free) (turn : Turn L o d v p true s next free)
    (growing : Growing start n base m d first v s o.free) (small : v < 524288) (page : p % 4096 = 0) :
    Growing start n base m d first (v+1) next free := by
  obtain ⟨present,_⟩ := entry_parts page (show 6 < 4096 by decide) _ took.entry
  have there := table_of_present present
  cases here : tableOf next.mem d (v/1024) with
  | none => rw [here] at there; cases there
  | some t =>
    refine growing.advance (by omega) here (fun i bound => took.tables bound) (fun was => ?_) (fun x bound => took.others bound)
      (turn.served rfl).2.1 took.count took.calls
    cases old : tableOf s.mem d (v/1024) with
    | none => exact absurd old was
    | some q => exact took.kept (by omega) old

theorem allocLoop_leaves (ok : Ok L s o) (dir : o.dirs a = some d) (idle : Idle o) (top : newsz < 2147483648) (high : v ≤ 524288)
    (enough : newsz ≤ 4096*(v+fuel)) (managed : Managed L p) (unheld : ¬ Held s.mem o p) :
    Sat (allocLoop L d oldsz newsz fuel (4096*v)) s (fun _ _ => True) fun _ next => o.own (.pipe p) = none →
      ∀ free, Ok L next ⟨o.own,o.dirs,free⟩ → ¬ Held next.mem ⟨o.own,o.dirs,free⟩ p := by
  have idle' : Idle ⟨update o.own (.pipe p) (some p),o.dirs,o.free⟩ := fun k => by
    show update o.own (.pipe p) (some p) (.temp k) = none
    rw [update_of_ne (by simp)]; exact idle k
  refine (allocLoop_spec fuel (ok.pin managed unheld (.pipe p)) dir idle' top high enough).mono (fun _ _ _ => trivial) ?_
  intro r next alloc vacant free' ok'
  obtain ⟨free,pinned,_⟩ := alloc.ok
  obtain ⟨ok_next,gone⟩ := pinned.unpin vacant
  have same : free = free' := chain_unique ok_next.custody.chain ok'.custody.chain
  rw [← same]; exact gone

def Restored (d oldsz first : Nat) (m n : Bytes.Store) : Prop :=
  (oldsz+4095)/4096 = first → (∀ x < 524288, first ≤ x → pteOf m d x = 0) → ∀ x < 524288, pteOf n d x = pteOf m d x

theorem deallocuvm_restores (growing : Growing start n base m d first v before free) (mem : s.mem = before.mem) (ok : Ok L s o)
    (dir : o.dirs a = some d) (top : newsz ≤ 2147483648) (inside : 4096*v < newsz) :
    Sat (deallocuvm L d newsz oldsz) s (fun _ _ => False) fun _ next => Restored d oldsz first m next.mem := by
  refine (deallocuvm_spec ok dir top).post ?_
  rintro _ next ⟨_,sweeps⟩ starts blank x small
  obtain ⟨free,shrunk,_⟩ := sweeps.done
  have low := growing.low
  have entries := growing.entries (x := x) (by omega)
  have tables := growing.tables (i := first/1024)
  rw [← mem] at entries tables
  by_cases outside : 4096*x < oldsz ∨ newsz ≤ 4096*x
  · rw [sweeps.outside (by omega) fun swept => by have := swept.1; have := swept.2.1; omega]
    exact entries (by omega)
  rw [blank x small (by omega)]
  by_cases here : x < v
  · refine sweeps.inside (.of_aligned (.inr ?_) (by omega) (by omega))
    rw [starts]
    exact fun missing => ((tables (by omega)).mp missing).2 ⟨by omega,by omega,by omega⟩
  · have zero : pteOf s.mem d x = 0 := (entries (by omega)).trans (blank x small (by omega))
    rcases shrunk.entries (v := x) (by omega) with same | gone
    · rw [same]; exact zero
    · exact gone

-- Every page that went unmapped is one whose table was refused, and was lost. With
-- none, the loop failed for want of a page or is where the count says.
def Counts (L : Layout) (o : Owners) (d oldsz newsz : Nat) (start : Machine) (n base : Nat) (m : Bytes.Store) (first v : Nat)
    (s : Machine) (r : Nat) (next : Machine) : Prop :=
  (next.unmapped ≠ s.unmapped → FirstRefused start n (TableCall base m d first newsz) ∧
    ((∀ p ∈ o.free, o.own (.pipe p) = none) →
      ∃ p ∈ o.free, ∀ free, Ok L next ⟨o.own,o.dirs,free⟩ → ¬ Held next.mem ⟨o.own,o.dirs,free⟩ p)) ∧
  (next.unmapped = s.unmapped →
    (r = 0 → newsz ≠ 0 → FirstRefused start n (PageCall base m d first newsz) ∧ Restored d oldsz first m next.mem) ∧
    (r ≠ 0 → ∀ free, Ok L next ⟨o.own,o.dirs,free⟩ → Growing start n base m d first (max v ((newsz+4095)/4096)) next free))

theorem Growing.counts_here (growing : Growing start n base m d first v s o.free) (ok : Ok L s o) (done : newsz ≤ 4096*v)
    (result : r = 0 → newsz = 0) : Counts L o d oldsz newsz start n base m first v s r s := by
  refine ⟨fun no => absurd rfl no,fun _ => ⟨fun zero positive => absurd (result zero) positive,fun _ free ok' => ?_⟩⟩
  have same : o.free = free := chain_unique ok.custody.chain ok'.custody.chain
  rw [← same,show max v ((newsz+4095)/4096) = v by omega]
  exact growing

theorem allocLoop_counts (fuel : Nat) : ∀ {s : Machine} {o : Owners} {v : Nat}, Ok L s o → o.dirs a = some d → Idle o →
    newsz < 2147483648 → v ≤ 524288 → newsz ≤ 4096*(v+fuel) → Growing start n base m d first v s o.free →
    Sat (allocLoop L d oldsz newsz fuel (4096*v)) s
      (fun _ next => next.unmapped ≠ s.unmapped → FirstRefused start n (TableCall base m d first newsz))
      (Counts L o d oldsz newsz start n base m first v s) := by
  induction fuel with
  | zero =>
    intro s o v ok dir idle top high enough growing
    unfold allocLoop
    rw [sat_pure]
    exact growing.counts_here ok (by omega) id
  | succ fuel ih =>
    intro s o v ok dir idle top high enough growing
    by_cases inside : 4096*v < newsz
    · refine allocLoop_turn ok dir idle (by omega) inside (fun next _ same _ no => absurd same no) ?_ ?_
      · intro next quiet mem ok' why
        refine Sat.bind (((deallocuvm_spec ok' dir (by omega)).and (deallocuvm_restores growing mem ok' dir (by omega) inside)).stops
          (fun _ _ no => no.1.elim)) ?_
        rintro _ last ⟨⟨_,sweeps⟩,restored⟩
        obtain ⟨free,shrunk,_⟩ := sweeps.done
        exact .done ⟨fun no => absurd (shrunk.quiet.unmapped.trans quiet.unmapped) no,
          fun _ => ⟨fun _ _ => ⟨growing.full inside why,restored⟩,fun no => absurd rfl no⟩⟩
      · intro next free p mapped took turn
        have managed := ok.custody.managed (u := .free) took.page
        have unmapped := took.unmapped
        cases mapped with
        | true =>
          rw [if_pos rfl] at unmapped
          refine (ih took.ok dir idle top (by omega) (by omega) (took.growing turn growing (by omega) managed.1)).mono ?_ ?_
          · rw [← unmapped]; exact fun _ _ told => told
          rintro r last ⟨lost,settled⟩
          rw [unmapped] at lost settled
          refine ⟨fun differs => ⟨(lost differs).1,fun vacant => ?_⟩,fun same => ⟨(settled same).1,fun success less ok' => ?_⟩⟩
          · obtain ⟨q,member,gone⟩ := (lost differs).2 fun q member => vacant q (took.fewer q member)
            exact ⟨q,took.fewer q member,gone⟩
          · rw [show max v ((newsz+4095)/4096) = max (v+1) ((newsz+4095)/4096) by omega]
            exact (settled same).2 success less ok'
        | false =>
          obtain ⟨missing,works,why,_,unheld⟩ := turn.missed rfl
          have refused := growing.refused (by omega) inside missing works (List.ne_nil_of_mem took.page) why
          refine ((allocLoop_spec fuel took.ok dir idle top (by omega) (by omega)).and
            (allocLoop_leaves took.ok dir idle top (by omega) (by omega) managed unheld)).mono (fun _ _ _ _ => refused) ?_
          rintro r last ⟨alloc,gone⟩
          refine ⟨fun _ => ⟨refused,fun vacant => ⟨p,took.page,gone (vacant p took.page)⟩⟩,fun same => ?_⟩
          exact absurd (took.grows.settled alloc.grows same).1 (by rw [unmapped]; simp)
    · unfold allocLoop
      rw [if_neg inside,sat_pure]
      exact growing.counts_here ok (by omega) id

theorem allocLoop_refused (ok : Ok L s o) (dir : o.dirs a = some d) (idle : Idle o) (small : v < 524288)
    (lacks : tableOf s.mem d (v/1024) = none) (works : s.fails s.calls = false) (refused : s.fails (s.calls+1) = true)
    (plenty : o.free ≠ []) :
    Sat (allocLoop L d oldsz (4096*(v+1)) (fuel+2) (4096*v)) s (fun _ _ => False) fun r next => r = 4096*(v+1) ∧
      ∃ free, Ok L next ⟨o.own,o.dirs,free⟩ ∧ (∀ i < 1024, tableOf next.mem d i = tableOf s.mem d i) ∧
        ∀ k q, o.own k = some q → SamePage s.mem next.mem q := by
  have next_page := w32_page (v := v) (by omega)
  have first := PGROUNDDOWN_page v
  have index : 4096*v/4096 = v := by omega
  unfold allocLoop
  rw [if_pos (by omega)]
  refine Sat.bind (kalloc_spec ok (idle 0) _) ?_
  rintro r got ⟨quiet,mem,calls,result⟩
  cases r with
  | none =>
    rcases result.1 with flag | empty
    · rw [works] at flag; cases flag
    · exact absurd empty plenty
  | some p =>
    obtain ⟨_,rest,list,ok'⟩ := result
    rw [sat_modify_bind,sat_memset_bind]
    have taken := copy_taken (a := a) ok' idle mem list fun _ => 0
    have cleared := taken.ok.drop (.temp 0)
    rw [update_back (idle 0)] at cleared
    have tables : ∀ i < 1024, tableOf (fill got.mem p 4096 0) d i = tableOf s.mem d i := fun i => taken.view.table dir
    have still : tableOf (fill got.mem p 4096 0) d (v/1024) = none := by rw [tables _ (by omega)]; exact lacks
    have not_present : ¬ Present (ld32 (fill got.mem p 4096 0) (d+4*(v/1024))) := by
      intro present
      unfold tableOf at still
      rw [if_pos present] at still
      cases still
    have fails : got.fails got.calls = true := by rw [quiet.fails,calls]; exact refused
    -- mappages stops at the table
    unfold mappages
    rw [first]
    unfold mapLoop walkpgdir
    rw [PDX_page _ (by omega),index]
    simp only [sat_bind,sat_load]
    rw [if_neg not_present,if_pos trivial]
    unfold kalloc
    simp only [sat_bind,sat_get]
    rw [if_pos (.inl fails)]
    simp only [sat_bind,sat_modify,sat_pure]
    rw [if_neg (by simp)]
    simp only [sat_bind,sat_modify]
    unfold allocLoop
    rw [if_neg (by omega),sat_pure]
    refine ⟨rfl,rest,⟨cleared.custody,cleared.alternating,cleared.freed⟩,tables,fun k q held => ?_⟩
    obtain ⟨aligned,notFree,_⟩ := ok.named held dir
    rw [← mem]
    exact fill_away got.mem taken.managed.1 q aligned fun same => notFree (same ▸ taken.page)

structure Allocs (L : Layout) (o : Owners) (a : Space) (d oldsz newsz : Nat) (s : Machine) (r : Nat) (next : Machine) : Prop where
  grows : Grows o.free s next
  ok : ∃ free, Ok L next ⟨o.own,o.dirs,free⟩ ∧ (r ≠ 0 → ∀ q ∈ free, q ∈ o.free) ∧
    (next.unmapped = s.unmapped → Saved a s.mem o next.mem ⟨o.own,o.dirs,free⟩)
  size : r ≠ 0 → r = max oldsz newsz ∧ r < 2147483648
  outside : r ≠ 0 → x < 1048576 → 4096*x < oldsz ∨ r ≤ 4096*x → pteOf next.mem d x = pteOf s.mem d x
  range : r ≠ 0 → next.unmapped = s.unmapped → PGROUNDUP oldsz ≤ 4096*x → 4096*x < newsz → UserEntry next d x ∧
    Writable (pteOf next.mem d x) ∧ ZeroPage next.mem (PTE_ADDR (pteOf next.mem d x))
  gap : r ≠ 0 → next.unmapped ≠ s.unmapped → ∃ x, PGROUNDUP oldsz ≤ 4096*x ∧ 4096*x < newsz ∧ ¬ Present (pteOf next.mem d x)
  undone : r = 0 → (oldsz+4095)/4096%1024 = 0 ∨ tableOf s.mem d ((oldsz+4095)/4096/1024) ≠ none → x < 1048576 →
    (newsz < 2147483648 → oldsz ≤ 4096*x → 4096*x < newsz → pteOf next.mem d x = 0) ∧
    (4096*x < oldsz ∨ newsz ≤ 4096*x ∨ 2147483648 ≤ newsz → pteOf next.mem d x = pteOf s.mem d x)
  tables : i < 1024 → tableOf s.mem d i = some q → tableOf next.mem d i = some q
  frame : q % 4096 = 0 → q ∉ o.free → (∀ i < 1024, tableOf s.mem d i ≠ some q) → q ≠ d →
    (r = 0 → ∀ x < 524288, oldsz ≤ 4096*x → Present (pteOf s.mem d x) → PTE_ADDR (pteOf s.mem d x) ≠ q) →
    SamePage s.mem next.mem q

section
variable (ok : Ok L s o) (dir : o.dirs a = some d) (idle : Idle o) (old_word : oldsz < 2147483648)
include ok dir idle old_word

theorem allocuvm_spec :
    Sat (allocuvm L d oldsz newsz) s
      (fun _ next => Grows o.free s next ∧ ∃ x < 524288, oldsz ≤ 4096*x ∧ Present (pteOf s.mem d x))
      fun r next => Allocs L o a d oldsz newsz s r next := by
  have start := PGROUNDUP_eq (n := oldsz) (by omega)
  have unchanged : ∀ r, ∃ free, Ok L s ⟨o.own,o.dirs,free⟩ ∧ (r ≠ 0 → ∀ q ∈ free, q ∈ o.free) ∧
      (s.unmapped = s.unmapped → Saved a s.mem o s.mem ⟨o.own,o.dirs,free⟩) :=
    fun r => ⟨o.free,ok,fun _ _ inside => inside,fun _ => .refl a _ _⟩
  unfold allocuvm
  by_cases tall : 2147483648 ≤ newsz
  · rw [if_pos tall,sat_pure]
    exact ⟨(Quiet.refl s).grows,unchanged 0,fun no => absurd rfl no,fun no => absurd rfl no,fun no => absurd rfl no,fun no => absurd rfl no,
      fun _ _ _ => ⟨fun low => absurd tall (by omega),fun _ => rfl⟩,fun _ found => found,fun _ _ _ _ _ _ _ _ => rfl⟩
  rw [if_neg tall]
  by_cases shrinks : newsz < oldsz
  · rw [if_pos shrinks,sat_pure]
    refine ⟨(Quiet.refl s).grows,unchanged oldsz,fun _ => ⟨by omega,old_word⟩,fun _ _ _ => rfl,fun _ _ low high => ?_,
      fun _ no => absurd rfl no,fun _ _ _ => ⟨fun _ low high => by omega,fun _ => rfl⟩,fun _ found => found,fun _ _ _ _ _ _ _ _ => rfl⟩
    omega
  rw [if_neg shrinks,start]
  refine (allocLoop_spec 1048576 ok dir idle (by omega) (by omega) (by omega)).mono ?_ ?_
  · rintro e next ⟨grows,x,low,below,present⟩
    exact ⟨grows,x,by omega,by omega,present⟩
  intro r next alloc
  have result := alloc.result
  refine ⟨alloc.grows,alloc.ok,fun success => ⟨by omega,by omega⟩,fun success bound away => alloc.outside success bound (by omega),
    fun success nothing low high => alloc.range success nothing (by omega) high,fun success lost => ?_,
    fun {x} zero aligned small => ?_,alloc.tables,fun page notFree noTable notDir noPage => alloc.frame page notFree noTable notDir fun zero x small low => noPage zero x small (by omega)⟩
  · obtain ⟨x,low,below,missing⟩ := alloc.gap success lost
    exact ⟨x,by omega,below,missing⟩
  obtain ⟨cleared,same⟩ := alloc.undone zero .refl aligned small
  exact ⟨fun _ low high => cleared (by omega) high,fun away => same (by omega)⟩

theorem allocuvm_counts (growing : Growing start n base m d first ((oldsz+4095)/4096) s o.free) :
    Sat (allocuvm L d oldsz newsz) s
      (fun _ next => next.unmapped ≠ s.unmapped → FirstRefused start n (TableCall base m d first newsz))
      fun r next => newsz < 2147483648 → Counts L o d oldsz newsz start n base m first ((oldsz+4095)/4096) s r next := by
  unfold allocuvm
  by_cases tall : 2147483648 ≤ newsz
  · rw [if_pos tall,sat_pure]
    exact fun low => absurd tall (by omega)
  have start := PGROUNDUP_eq (n := oldsz) (by omega)
  rw [if_neg tall]
  by_cases shrinks : newsz < oldsz
  · rw [if_pos shrinks,sat_pure]
    exact fun _ => growing.counts_here ok (by omega) (by omega)
  · rw [if_neg shrinks,start]
    exact (allocLoop_counts 1048576 ok dir idle (by omega) (by omega) (by omega) growing).post
      fun _ _ counts _ => counts

end

theorem grown_range (below : ∀ x, 4096*x < oldsz → UserEntry s d x) (grows : Grows free s next) (old_word : oldsz < 2147483648)
    (range : ∀ x, PGROUNDUP oldsz ≤ 4096*x → 4096*x < newsz → UserEntry next d x)
    (same : ∀ x < 1048576, 4096*x < oldsz → pteOf next.mem d x = pteOf s.mem d x) :
    ∀ x, 4096*x < max oldsz newsz → UserEntry next d x := by
  intro x bound
  by_cases old : 4096*x < oldsz
  · obtain ⟨present,user,taken⟩ := below x old
    unfold UserEntry
    rw [same x (by omega) old]
    exact ⟨present,user,grows.grown _ taken⟩
  · refine range x ?_ (by omega)
    unfold PGROUNDUP w32; omega

end Grow

end Xv6.Vm
