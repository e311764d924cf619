import Xv6.Vm.Isolation

namespace Xv6.Vm
open Bytes Exec

-- Two ways for exec to write where it must not.

-- An ELF file with one readable program header: LOAD of filesz bytes, vaddr and
-- memsz as given.
def elfBytes (phnum vaddr filesz memsz : Nat) : List UInt8 :=
  wordBytes 1179403647 ++ List.replicate 24 0 ++ wordBytes 52 ++ List.replicate 12 0 ++ wordBytes phnum ++ List.replicate 4 0 ++
  wordBytes 1 ++ wordBytes 84 ++ wordBytes vaddr ++ wordBytes 0 ++ wordBytes filesz ++ wordBytes memsz ++ List.replicate 8 0

def elfFile (phnum vaddr filesz memsz : Nat) : File :=
  ⟨88,fun i => (elfBytes phnum vaddr filesz memsz).getD i 0⟩

-- Two program headers, the second cut off by the end of the file: one page is
-- allocated, four bytes go to virtual page v, and exec gives up.
structure OneLoad (f : File) (v memsz : Nat) : Prop where
  elf : ¬ (f.readi 0 52).getD 4294967295 < 52
  magic : f.magic = 1179403647
  phoff : f.phoff = 52
  phnum : f.phnum = 2
  first : f.readi 52 32 = some 32
  header : f.proghdr 52 = ⟨1,84,4096*v,4,memsz⟩
  bytes : f.readi 84 4 = some 4
  second : f.readi 84 32 ≠ some 32

section Segment
variable {L : Layout} {s : Machine} {o : Owners} {d : Nat} {f : File}

-- A turn at a blank page that kalloc serves.
theorem allocLoop_takes {Q : Nat → Machine → Prop} (ok : Ok L s o) (dir : o.dirs a = some d) (idle : Idle o) (small : v < 524288)
    (inside : 4096*v < newsz) (blank : ¬ Present (pteOf s.mem d v)) (works : s.fails s.calls ≠ true) (plenty : 0 < o.free.length)
    (goes : ∀ next free p mapped, Took L o d v p mapped s next free →
      Sat (allocLoop L d oldsz newsz fuel (4096*(v+1))) next (fun _ _ => False) Q) :
    Sat (allocLoop L d oldsz newsz (fuel+1) (4096*v)) s (fun _ _ => False) Q := by
  refine allocLoop_turn ok dir idle small inside (fun _ _ _ present => blank present) ?_ fun next free p mapped took _ => goes next free p mapped took
  rintro next _ _ _ (flag | empty)
  · exact absurd flag works
  · rw [empty] at plenty; cases plenty

theorem allocuvm_page (ok : Ok L s o) (dir : o.dirs a = some d) (idle : Idle o) (absent : ¬ Present (pteOf s.mem d 0))
    (works : s.fails s.calls = false) (plenty : o.free ≠ []) :
    Sat (allocuvm L d 0 4096) s (fun _ _ => False) fun r next => r = 4096 ∧
      ∃ free p mapped, Took L o d 0 p mapped s next free := by
  have start : PGROUNDUP 0 = 4096*0 := by decide
  unfold allocuvm
  rw [if_neg (by decide),if_neg (by decide),start]
  refine allocLoop_takes ok dir idle (by decide) (by decide) absent (by rw [works]; simp) (List.length_pos_iff.mpr plenty) ?_
  intro next free p mapped took
  unfold allocLoop
  rw [if_neg (by decide),sat_pure]
  exact ⟨rfl,free,p,mapped,took⟩

theorem loaduvm_page (file : OneLoad f v memsz) (small : v < 1048576) (present : Present (pteOf s.mem d v))
    (entry : PTE_ADDR (pteOf s.mem d v) = q) (reached : kernelPage L s.mem cur q = some q) :
    Sat (loaduvm L cur d (4096*v) f 84 4) s (fun _ _ => False) fun r next => r = true ∧
      next = filled s q 4 fun t => f.byte (84+t) := by
  have address : w32 (4096*v+0) = 4096*v := by unfold w32; omega
  have index : 4096*v/4096 = v := by omega
  have offset : w32 (84+0) = 84 := by decide
  have got : f.readi 84 (min (4-0) 4096) = some (3+1) := file.bytes
  unfold loaduvm
  rw [if_neg (by omega)]
  unfold loadLoop
  rw [if_pos (by decide),address,sat_bind,walkpgdir_look _ _ (by omega),index]
  cases table : tableOf s.mem d (v/1024) with
  | none =>
    have there := table_of_present present
    rw [table] at there; cases there
  | some t =>
    simp only [Option.map_some]
    rw [sat_load_bind,pteOf_table table,entry,offset,got]
    unfold kmove
    simp only [sat_bind,sat_get,reached,sat_modify,sat_pure]
    rw [if_pos (by decide)]
    unfold loadLoop
    rw [if_neg (by decide),sat_pure]
    exact ⟨rfl,rfl⟩

theorem oneLoad_run (file : OneLoad f v memsz) (sum : w32 (4096*v+memsz) = 4096) (fits : 4 ≤ memsz)
    (target : v = 0 ∨ ∃ k, v = 524288+k ∧ L.data ≤ 4096*k ∧ 4096*k < L.kend)
    (ok : Ok L s o) (idle : Idle o) (vacant : o.dirs .fresh = none) (never : ∀ k, s.fails k = false)
    (plenty : 2000 ≤ o.free.length) (cur : Nat) :
    Sat (execImage L cur f []) s (fun _ _ => False) fun r next => r = none ∧ next.unmapped = s.unmapped ∧
      ∃ p ∈ o.free, next.grown = [p] ∧ next.loaded = [if v = 0 then p else 4096*(v-524288)] := by
  have begun : Ok L { s with grown := [], loaded := [] } o := ⟨ok.custody,ok.alternating,ok.freed⟩
  have top := L.fits
  unfold execImage
  rw [sat_modify_bind,if_neg file.elf,if_neg (by rw [file.magic]; decide)]
  refine Sat.bind (setupkvm_spec begun (idle 0) vacant) ?_
  rintro r mid ⟨quiet,_,result⟩
  cases r with
  | none =>
    rcases result.1 with ⟨k,flag,_⟩ | few
    · have no : s.fails k = true := flag
      rw [never k] at no; cases no
    · omega
  | some d =>
    obtain ⟨_,bare,free,was_free,fewer,_,ok_mid,_⟩ := result
    have dir : Function.update o.dirs .fresh (some d) .fresh = some d := Function.update_self ..
    have works : ∀ k, mid.fails k = false := by rw [quiet.fails]; exact never
    have some_left : free ≠ [] := by
      rintro rfl
      simp only [List.length_nil] at fewer
      omega
    dsimp only
    rw [file.phoff,file.phnum]
    unfold segLoop
    rw [if_neg (fun no => no file.first),file.header]
    dsimp only
    rw [if_neg (by decide),if_neg (by omega),sum]
    refine (sat_bind ..).mpr (Sat.bind (allocuvm_page (a := .fresh) ok_mid dir idle (by rw [bare.user (by decide)]; decide)
      (works _) some_left) ?_)
    rintro r next ⟨rfl,free',p,mapped,took⟩
    have p_managed : Managed L p := ok_mid.custody.managed (u := .free) took.page
    -- with pages to spare and no failing call the page is mapped
    have is_mapped : mapped = true := by
      cases flag : mapped with
      | true => rfl
      | false =>
        have why := took.calls
        rw [flag,if_neg (by simp)] at why
        rcases why with ⟨k,fail,_⟩ | empty
        · rw [works k] at fail; cases fail
        · have count := took.count
          rw [bare.absent,empty] at count
          simp only [List.length_nil] at count
          omega
    subst is_mapped
    have entry : pteOf next.mem d 0 = p ||| 6 ||| 1 := took.entry
    -- the entry of v: the page just taken, or one of the kernel's own
    have behind : v < 1048576 ∧ Present (pteOf next.mem d v) ∧
        PTE_ADDR (pteOf next.mem d v) = (if v = 0 then p else 4096*(v-524288)) ∧
        kernelPage L next.mem cur (if v = 0 then p else 4096*(v-524288)) = some (if v = 0 then p else 4096*(v-524288)) ∧
        Loose next.mem ⟨o.own,Function.update o.dirs .fresh (some d),free'⟩ (if v = 0 then p else 4096*(v-524288)) := by
      rcases target with rfl | ⟨k,rfl,low,high⟩
      · obtain ⟨present,addr,_⟩ := entry_parts p_managed.1 (by decide) _ entry
        have loose := took.ok.custody.loose_user (a := .fresh) ⟨d,dir,by decide,present,addr⟩
        rw [if_pos rfl]
        exact ⟨by decide,present,addr,kernelPage_managed p_managed _ _,loose⟩
      have ram := bare.ram (q := k) (by omega)
      have same := took.others (x := 524288+k) (by omega) (by omega)
      have unmanaged : ¬ Managed L (4096*k) := fun managed => by have := managed.2.1; omega
      have page : kernelPage L next.mem cur (4096*k) = some (4096*k) := by
        have below : 4096*k < 2147483648 := by omega
        have data : 4096*k < 234881024 ∧ ¬ (1048576 ≤ 4096*k ∧ 4096*k < L.data) := by omega
        unfold kernelPage
        rw [if_pos below,if_pos data]
      rw [if_neg (by omega),same,show 524288+k-524288 = k by omega]
      exact ⟨by omega,ram.1,ram.2,page,took.ok.custody.loose_unmanaged unmanaged⟩
    obtain ⟨small,present,addr,reached,loose⟩ := behind
    have q_page : (if v = 0 then p else 4096*(v-524288)) % 4096 = 0 := by
      have := p_managed.1
      split <;> omega
    generalize q_eq : (if v = 0 then p else 4096*(v-524288)) = q at addr reached loose q_page
    rw [if_neg (by decide)]
    refine Sat.bind (loaduvm_page file small present addr reached) ?_
    rintro _ _ ⟨rfl,rfl⟩
    rw [if_pos rfl]
    unfold segLoop
    rw [show w32 (52+32) = 84 by decide,if_pos file.second,sat_pure]
    have poked := (poke took.ok loose q_page (x := 0) (n := 4) (by decide) fun t => f.byte (84+t)).1
    have ok_filled : Ok L (filled next q 4 fun t => f.byte (84+t)) ⟨o.own,Function.update o.dirs .fresh (some d),free'⟩ :=
      ⟨poked.custody,poked.alternating,poked.freed⟩
    refine Sat.bind (freevm_spec (a := .fresh) ok_filled dir idle) ?_
    rintro _ last ⟨quiet',_,_⟩
    refine .done ⟨rfl,?_,p,was_free p took.page,?_,?_⟩
    · rw [quiet'.unmapped]; exact took.unmapped.trans quiet.unmapped
    · rw [quiet'.grown]; exact took.grown.trans (by rw [quiet.grown])
    · rw [quiet'.loaded]
      show q :: next.loaded = _
      rw [took.loaded,quiet.loaded,q_eq]

end Segment

-- vaddr is the kernel's data, and vaddr + memsz wraps to one page.
def wrapFile : File := elfFile 2 2148560896 4 2146410496

theorem wrapFile_load : OneLoad wrapFile 524551 2146410496 :=
  ⟨by decide +kernel,by decide +kernel,by decide +kernel,by decide +kernel,by decide,by decide +kernel,by decide,by decide⟩

end Xv6.Vm
