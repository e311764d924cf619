import Xv6.Vm.Breach
import Xv6.Vm.Args

namespace Xv6.Vm
open Function (update update_self)
open Bytes Exec

-- The stack page of a new image is the first page of its table, and no page is
-- left for the table: allocuvm goes on as if the page were mapped, and copyout
-- follows a null pointer to a word that the old image chose.

section Fill
variable {L : Layout} {s next : Machine} {o : Owners} {a : Space} {d : Nat}

section
variable (took : Took L o d v p mapped s next free)
include took

-- With no failure due and a page left over, the page is mapped.
theorem Took.served (late : ∀ k, s.fails k = true → s.calls+o.free.length < k+free.length)
    (left : 0 < free.length) : mapped = true ∧ next.calls+free.length = s.calls+o.free.length := by
  have calls := took.calls
  cases mapped with
  | true =>
    exact ⟨rfl,calls⟩
  | false =>
    rcases calls with ⟨k,flag,at_k⟩ | empty
    · have := late k flag; omega
    · rw [empty] at left; cases left

theorem Took.settle_table (table : tableOf s.mem d (v/1024) = some t)
    (late : ∀ k, s.fails k = true → s.calls+1 < k) (plenty : 2 ≤ o.free.length) :
    next.calls = s.calls+1 ∧ free.length+1 = o.free.length ∧ ∀ i < 1024, tableOf next.mem d i = tableOf s.mem d i := by
  have tables : ∀ i < 1024, tableOf next.mem d i = tableOf s.mem d i := by
    intro i inside
    by_cases here : i = v/1024
    · rw [here,table]; exact took.kept (by omega) table
    · exact took.tables inside here
  have count := took.count
  rw [absent_same tables] at count
  have calls := (took.served (fun k flag => by have := late k flag; omega) (by omega)).2
  exact ⟨by omega,by omega,tables⟩

theorem Took.settle_new (lacks : tableOf s.mem d (v/1024) = none)
    (small : v < 524288) (late : ∀ k, s.fails k = true → s.calls+2 < k) (plenty : 3 ≤ o.free.length) :
    next.calls = s.calls+2 ∧ free.length+2 = o.free.length ∧ ∃ t, tableOf next.mem d (v/1024) = some t := by
  have count := took.count
  cases now : tableOf next.mem d (v/1024) with
  | none =>
    have tables : ∀ i < 1024, tableOf next.mem d i = tableOf s.mem d i := by
      intro i inside
      by_cases here : i = v/1024
      · rw [here,lacks,now]
      · exact took.tables inside here
    rw [absent_same tables] at count
    obtain ⟨rfl,_⟩ := took.served (fun k flag => by have := late k flag; omega) (by omega)
    have entry : pteOf next.mem d v = p ||| 6 ||| 1 := took.entry
    have zero : pteOf next.mem d v = 0 := by unfold pteOf; rw [now]
    have odd := or_one (p ||| 6)
    omega
  | some t =>
    have fewer := absent_attach (by omega) lacks now fun j inside other => took.tables inside other
    have calls := (took.served (fun k flag => by have := late k flag; omega) (by omega)).2
    exact ⟨by omega,by omega,t,rfl⟩

end

-- A stretch of pages mapped one after the other; what is held by name stays.
structure Stretch (L : Layout) (o : Owners) (d lo n cost : Nat) (s next : Machine) (free : List Nat) : Prop where
  ok : Ok L next ⟨o.own,o.dirs,free⟩
  fails : next.fails = s.fails
  calls : next.calls = s.calls+cost
  left : free.length+cost = o.free.length
  tables : i < 1024 → i ≠ lo/1024 → tableOf next.mem d i = tableOf s.mem d i
  table : ∃ t, tableOf next.mem d (lo/1024) = some t
  others : x < 1048576 → (x < lo ∨ lo+n ≤ x) → pteOf next.mem d x = pteOf s.mem d x
  named : o.own k = some q → SamePage s.mem next.mem q

theorem Took.stretch (took : Took L o d v p mapped s next free) (ok : Ok L s o) (dir : o.dirs a = some d)
    (calls : next.calls = s.calls+cost) (left : free.length+cost = o.free.length)
    (table : ∃ t, tableOf next.mem d (v/1024) = some t) : Stretch L o d v 1 cost s next free where
  ok := took.ok
  fails := took.fails
  calls := calls
  left := left
  tables := took.tables
  table := table
  others inside away := took.others inside (by omega)
  named mine := by
    obtain ⟨page,notFree,notDir,noTable,_⟩ := ok.named mine dir
    exact took.frame page notFree noTable notDir

theorem Stretch.trans (one : Stretch L o d v n cost s next free) (two : Stretch L ⟨o.own,o.dirs,free⟩ d (v+n) k more next last less)
    (same : (v+n)/1024 = v/1024) : Stretch L o d v (n+k) (cost+more) s last less where
  ok := two.ok
  fails := two.fails.trans one.fails
  calls := by rw [two.calls,one.calls]; omega
  left := by have := two.left; have := one.left; dsimp only at *; omega
  tables inside other := (two.tables inside (by rw [same]; exact other)).trans (one.tables inside other)
  table := by rw [← same]; exact two.table
  others inside away := (two.others inside (by omega)).trans (one.others inside (by omega))
  named mine := (one.named mine).trans (two.named mine)

theorem allocLoop_fill (n : Nat) : ∀ {s : Machine} {o : Owners} {v fuel : Nat}, Ok L s o → o.dirs a = some d → Idle o →
    (∃ t, tableOf s.mem d (v/1024) = some t) → (v+n)/1024 = v/1024 → v+n < 524288 →
    (∀ x, v ≤ x → x < v+n → ¬ Present (pteOf s.mem d x)) → (∀ k, s.fails k = true → s.calls+n < k) →
    n < o.free.length → n < fuel →
    Sat (allocLoop L d oldsz (4096*(v+n)) fuel (4096*v)) s (fun _ _ => False) fun r next => r = 4096*(v+n) ∧
      ∃ free, Stretch L o d v n n s next free := by
  induction n with
  | zero =>
    intro s o v fuel ok _ _ table _ _ _ _ _ enough
    obtain ⟨fuel,rfl⟩ : ∃ f, fuel = f+1 := ⟨fuel-1,by omega⟩
    unfold allocLoop
    rw [if_neg (by omega),sat_pure]
    exact ⟨rfl,o.free,ok,rfl,rfl,rfl,fun _ _ => rfl,table,fun _ _ => rfl,fun _ _ _ _ => rfl⟩
  | succ n ih =>
    intro s o v fuel ok dir idle table same small bare late plenty enough
    obtain ⟨fuel,rfl⟩ : ∃ f, fuel = f+1 := ⟨fuel-1,by omega⟩
    obtain ⟨t,table⟩ := table
    refine allocLoop_takes ok dir idle (by omega) (by omega) (bare v (by omega) (by omega)) (fun flag => by have := late _ flag; omega) (by omega) ?_
    intro next free p mapped took
    obtain ⟨calls,left,tables⟩ := took.settle_table table (fun k flag => by have := late k flag; omega) (by omega)
    have table' : tableOf next.mem d (v/1024) = some t := by rw [tables _ (by omega)]; exact table
    have first := took.stretch ok dir calls left ⟨t,table'⟩
    have later := @ih _ ⟨o.own,o.dirs,free⟩ (v+1) fuel took.ok dir idle
      ⟨t,by rw [show (v+1)/1024 = v/1024 by omega]; exact table'⟩ (by omega) (by omega)
      (fun x low high => by rw [took.others (by omega) (by omega)]; exact bare x (by omega) (by omega))
      (fun k flag => by rw [took.fails] at flag; have := late k flag; omega) (by show n < free.length; omega) (by omega)
    rw [show v+1+n = v+(n+1) by omega] at later
    refine later.post ?_
    rintro r last ⟨rfl,less,rest⟩
    have whole := first.trans rest (by omega)
    rw [show 1+n = n+1 by omega] at whole
    exact ⟨rfl,less,whole⟩

theorem allocuvm_image (ok : Ok L s o) (dir : o.dirs a = some d) (idle : Idle o) (bare : Bare L s.mem d)
    (late : ∀ k, s.fails k = true → s.calls+1024 < k) (plenty : 1025 ≤ o.free.length) :
    Sat (allocuvm L d 0 (4096*1023)) s (fun _ _ => False) fun r next => r = 4096*1023 ∧
      ∃ free, Stretch L o d 0 1023 1024 s next free := by
  have start : PGROUNDUP 0 = 4096*0 := by decide
  have blank : ∀ x < 524288, ¬ Present (pteOf s.mem d x) := fun x small => by rw [bare.user small]; decide
  have lacks : tableOf s.mem d (0/1024) = none := Option.isNone_iff_eq_none.mp (bare.tables (by decide))
  unfold allocuvm
  rw [if_neg (by decide),if_neg (by decide),start]
  refine allocLoop_takes ok dir idle (by decide) (by decide) (blank 0 (by decide)) (fun flag => by have := late _ flag; omega) (by omega) ?_
  intro next free p mapped took
  obtain ⟨calls,left,table⟩ := took.settle_new lacks (by decide) (fun k flag => by have := late k flag; omega) (by omega)
  have first := took.stretch ok dir calls left table
  refine (allocLoop_fill 1022 (v := 1) took.ok dir idle table (by decide) (by decide)
    (fun x low high => by rw [took.others (by omega) (by omega)]; exact blank x (by omega))
    (fun k flag => by rw [took.fails] at flag; have := late k flag; omega) (by show 1022 < free.length; omega) (by decide)).post ?_
  rintro r last ⟨rfl,less,rest⟩
  exact ⟨rfl,less,first.trans rest (by decide)⟩

section
variable (ok : Ok L s o) (dir : o.dirs a = some d) (idle : Idle o) (table : tableOf s.mem d 0 = some t) (lacks : tableOf s.mem d 1 = none)
  (blank : ¬ Present (pteOf s.mem d 1023)) (late : ∀ k, s.fails k = true ↔ k = s.calls+2) (plenty : 3 ≤ o.free.length)
include ok dir idle table lacks blank late plenty

theorem allocuvm_stack :
    Sat (allocuvm L d (4096*1023) (4096*1025)) s (fun _ _ => False) fun r next => r = 4096*1025 ∧
      ∃ free, Ok L next ⟨o.own,o.dirs,free⟩ ∧ (∃ t, tableOf next.mem d 0 = some t) ∧ tableOf next.mem d 1 = none ∧
        ∀ k q, o.own k = some q → SamePage s.mem next.mem q := by
  have start : PGROUNDUP (4096*1023) = 4096*1023 := by decide
  unfold allocuvm
  rw [if_neg (by decide),if_neg (by decide),start]
  refine allocLoop_takes ok dir idle (by decide) (by decide) blank (fun flag => by have := (late _).mp flag; omega) (by omega) ?_
  intro next free p mapped took
  obtain ⟨calls,left,tables⟩ := took.settle_table table
    (fun k flag => by have := (late k).mp flag; omega) (by omega)
  have works : next.fails next.calls = false := by
    cases flag : next.fails next.calls with
    | false => rfl
    | true => rw [took.fails] at flag; have := (late _).mp flag; omega
  have refused : next.fails (next.calls+1) = true := by rw [took.fails]; exact (late _).mpr (by omega)
  have lacks' : tableOf next.mem d (1024/1024) = none := by rw [tables _ (by decide)]; exact lacks
  refine (allocLoop_refused took.ok dir idle (by decide) lacks' works refused ?_).post ?_
  · rintro (rfl : free = [])
    simp only [List.length_nil] at left
    omega
  · rintro r last ⟨rfl,less,ok_last,same,named⟩
    refine ⟨rfl,less,ok_last,⟨t,?_⟩,(same 1 (by decide)).trans lacks',fun k q mine => ?_⟩
    · rw [same 0 (by decide),tables 0 (by decide)]; exact table
    · exact ((took.stretch ok dir calls left ⟨t,by rw [tables _ (by decide)]; exact table⟩).named mine).trans (named k q mine)

-- The pages held by name stay as they were while the guard page is made.
theorem stack_guarded :
    Sat (allocuvm L d (4096*1023) (4096*1025)) s (fun _ _ => False) fun r mid => r = 4096*1025 ∧
      Sat (clearpteu d (4096*1023)) mid (fun _ _ => False) fun _ next => ∃ free, Ok L next ⟨o.own,o.dirs,free⟩ ∧
        (∃ t, tableOf next.mem d 0 = some t) ∧ tableOf next.mem d 1 = none ∧ ¬ UserBit (pteOf next.mem d 1023) ∧
        ∀ k q, o.own k = some q → SamePage s.mem next.mem q := by
  refine (allocuvm_stack ok dir idle table lacks blank late plenty).post ?_
  rintro _ mid ⟨rfl,free,ok_mid,⟨t,table⟩,lacks,named⟩
  refine ⟨rfl,((clearpteu_spec ok_mid dir (by decide)).stops fun _ _ none => ?_).post ?_⟩
  · rw [show 1023/1024 = 0 by decide,table] at none; cases none
  rintro _ next ⟨_,cleared,tables,⟨hidden,_⟩,_,frame⟩
  refine ⟨free,cleared,⟨t,(tables 0 (by decide)).trans table⟩,(tables 1 (by decide)).trans lacks,hidden,fun k q mine => ?_⟩
  obtain ⟨page,_,_,noTable,_⟩ := ok_mid.named mine dir
  exact (named k q mine).trans (frame q page noTable)

end
end Fill

section Copy
variable {L : Layout} {s : Machine} {cur d t u : Nat}

structure Planted (m : Bytes.Store) (cur t u : Nat) : Prop where
  table : tableOf m cur 0 = some t
  entry : Present (pteOf m cur 0) ∧ PTE_ADDR (pteOf m cur 0) = u
  word : ld32 m u = t ||| 6 ||| 1

theorem nullWord_planted (planted : Planted s.mem cur t u) : Sat (nullWord cur) s (fun _ _ => False) fun w next =>
    w = t ||| 6 ||| 1 ∧ next = s := by
  have table := planted.table
  have entry := planted.entry
  have word : ld32 s.mem t = pteOf s.mem cur 0 := pteOf_table (v := 0) table
  unfold tableOf at table
  split at table
  · rename_i present
    have addr : PTE_ADDR (ld32 s.mem cur) = t := Option.some.inj table
    unfold nullWord
    rw [sat_load_bind,sat_load_bind,addr,word,if_pos ⟨present,entry.1⟩,sat_load,entry.2,planted.word]
    exact ⟨rfl,rfl⟩
  · cases table

theorem copyout_null (bytes : List UInt8) (managed : Managed L t) (planted : Planted s.mem cur t u) (lacks : tableOf s.mem d 1 = none)
    (inside : o+bytes.length ≤ 4096) (some_bytes : 0 < bytes.length) :
    Sat (copyout L cur d (4096*1024+o) bytes) s (fun _ _ => False) fun r next => r = true ∧
      next = { s with mem := copy s.mem (t+o) bytes.length fun i => bytes.getD i 0 } := by
  obtain ⟨fuel,length⟩ : ∃ f, bytes.length = f+1 := ⟨bytes.length-1,by omega⟩
  have down : PGROUNDDOWN (4096*1024+o) = 4096*1024 := by unfold PGROUNDDOWN; omega
  have offset : 4096*1024+o-4096*1024 = o := by omega
  have all : min (4096-o) bytes.length = bytes.length := by omega
  have top := managed.2.2
  obtain ⟨present,addr,user,_⟩ := entry_parts managed.1 (by decide) (t ||| 6 ||| 1) rfl
  have reached := kernelPage_managed managed s.mem cur
  unfold copyout
  rw [length]
  unfold copyoutLoop
  rw [if_neg (by omega)]
  dsimp only
  rw [down,offset,all]
  unfold uva2ka derefPte
  rw [sat_bind,sat_bind,sat_bind,walkpgdir_look _ _ (by decide),show 4096*1024/4096/1024 = 1 by decide,lacks]
  refine (nullWord_planted planted).post ?_
  rintro w next ⟨rfl,rfl⟩
  rw [if_neg (not_not_intro present),if_neg (not_not_intro (user.mpr (by decide))),addr,if_neg (by omega),sat_pure]
  unfold kmove
  simp only [sat_bind,sat_get,reached,sat_modify,sat_pure]
  rw [List.drop_length]
  cases fuel with
  | zero =>
    exact .done ⟨rfl,by rw [length]⟩
  | succ fuel =>
    unfold copyoutLoop
    exact .done ⟨rfl,by rw [length]⟩

theorem copyout_guard (table : tableOf s.mem d 0 = some t) (hidden : ¬ UserBit (pteOf s.mem d 1023)) (cur : Nat)
    (some_bytes : 0 < bytes.length) :
    Sat (copyout L cur d (4096*1024-16) bytes) s (fun _ _ => False) fun r next => r = false ∧ next = s := by
  obtain ⟨fuel,length⟩ : ∃ f, bytes.length = f+1 := ⟨bytes.length-1,by omega⟩
  unfold copyout
  rw [length]
  unfold copyoutLoop
  rw [if_neg (by omega)]
  rw [show PGROUNDDOWN (4096*1024-16) = 4096*1023 by decide]
  unfold uva2ka derefPte
  rw [sat_bind,sat_bind,sat_bind,walkpgdir_look _ _ (by decide),show 4096*1023/4096/1024 = 0 by decide,table]
  simp only [Option.map_some]
  rw [show 4096*1023/4096%1024 = 1023%1024 by decide,sat_load,pteOf_table (v := 1023) table]
  by_cases present : Present (pteOf s.mem d 1023)
  · rw [if_neg (not_not_intro present),if_pos hidden,sat_pure]
    exact .done ⟨rfl,rfl⟩
  · rw [if_pos present,sat_pure]
    exact .done ⟨rfl,rfl⟩

theorem Planted.same (planted : Planted m cur t u) (cur_same : SamePage m n cur) (t_same : SamePage m n t)
    (u_same : SamePage m n u) : Planted n cur t u := by
  have entry : pteOf n cur 0 = pteOf m cur 0 := by
    refine pteOf_same cur_same (by decide) fun x found => ?_
    cases planted.table.symm.trans found
    exact t_same
  refine ⟨by rw [tableOf_same cur_same (by decide)]; exact planted.table,by rw [entry]; exact planted.entry,?_⟩
  rw [u_same.ld32 (by omega) (by omega)]; exact planted.word

theorem Planted.write (planted : Planted m cur t u) (cur_page : cur % 4096 = 0) (t_page : t % 4096 = 0) (u_page : u % 4096 = 0)
    (cur_other : cur ≠ t) (u_other : u ≠ t) (low : 4 ≤ o) (inside : o+n ≤ 4096) (src : Bytes.Store) :
    Planted (copy m (t+o) n src) cur t u := by
  have cur_same : SamePage m (copy m (t+o) n src) cur := samePage_copy src inside cur_page t_page cur_other
  have u_same : SamePage m (copy m (t+o) n src) u := samePage_copy src inside u_page t_page u_other
  have table : tableOf (copy m (t+o) n src) cur 0 = some t := by
    rw [tableOf_same cur_same (by decide)]; exact planted.table
  have entry : pteOf (copy m (t+o) n src) cur 0 = pteOf m cur 0 := by
    rw [← pteOf_table (v := 0) table,← pteOf_table (v := 0) planted.table]
    exact ld32_copy_out _ _ (by omega)
  refine ⟨table,by rw [entry]; exact planted.entry,?_⟩
  rw [u_same.ld32 (by omega) (by omega)]; exact planted.word

end Copy

-- The first string, with its NUL, is the word 0x107007: the kernel's first data
-- page, present, writable and the user's. The second fills the page down to its
-- third word, so that the pointers behind it fall into the guard page.
def hostileArgs : List (List UInt8) := [[7,112,16],List.replicate 4083 2]

def hollowFile : File := elfFile 1 0 0 4190208

theorem hollowFile_header : ¬ (hollowFile.readi 0 52).getD 4294967295 < 52 ∧ hollowFile.magic = 1179403647 ∧
    hollowFile.phoff = 52 ∧ hollowFile.phnum = 1 ∧ hollowFile.readi 52 32 = some 32 ∧
    hollowFile.proghdr 52 = ⟨1,84,0,0,4190208⟩ := by decide +kernel

section Hostile
variable {L : Layout} {s : Machine} {o : Owners} {cur d t u : Nat}

theorem hostile_args (managed : Managed L t) (planted : Planted s.mem cur t u) (cur_page : cur % 4096 = 0)
    (u_page : u % 4096 = 0) (d_page : d % 4096 = 0) (cur_other : cur ≠ t) (u_other : u ≠ t) (d_other : d ≠ t)
    (lacks : tableOf s.mem d 1 = none) :
    Sat (argLoop L cur d hostileArgs 0 (4096*1025) []) s (fun _ _ => False) fun r next =>
      (∃ ptrs, r = some (4096*1024+8,ptrs)) ∧ ld32 next.mem (t+4092) = 1077255 ∧
      ∃ m, next = { s with mem := m } ∧ ∀ q, q % 4096 = 0 → q ≠ t → SamePage s.mem m q := by
  have t_page := managed.1
  have first : w32 (4096*1025 + 4294967296 - (3+1)) / 4 * 4 = 4096*1024+4092 := by decide
  have second : w32 (4096*1024+4092 + 4294967296 - (4083+1)) / 4 * 4 = 4096*1024+8 := by decide
  have length : (List.replicate 4083 (2 : UInt8)).length = 4083 := List.length_replicate
  unfold hostileArgs
  generalize List.replicate 4083 (2 : UInt8) = pad at length
  unfold argLoop
  rw [show ([7,112,16] : List UInt8).length = 3 from rfl,first]
  refine Sat.bind (copyout_null ([7,112,16] ++ [0]) (o := 4092) managed planted lacks (by decide) (by decide)) ?_
  rintro _ _ ⟨rfl,rfl⟩
  unfold argLoop
  rw [length,second]
  have planted' := planted.write cur_page t_page u_page cur_other u_other (o := 4092) (n := 4) (by decide) (by decide)
    fun i => ([7,112,16] ++ [0] : List UInt8).getD i 0
  have d_same : SamePage s.mem (copy s.mem (t+4092) 4 fun i => ([7,112,16] ++ [0] : List UInt8).getD i 0) d :=
    samePage_copy _ (by decide) d_page t_page d_other
  have lacks' : tableOf (copy s.mem (t+4092) 4 fun i => ([7,112,16] ++ [0] : List UInt8).getD i 0) d 1 = none := by
    rw [tableOf_same d_same (by decide)]; exact lacks
  have long : (pad ++ [0]).length = 4084 := by rw [List.length_append,length]; rfl
  refine Sat.bind (copyout_null (pad ++ [0]) managed planted' lacks' (by rw [long]; decide) (by rw [long]; decide)) ?_
  rintro _ _ ⟨rfl,rfl⟩
  refine .done ⟨⟨_,rfl⟩,?_,_,rfl,fun q page other => ?_⟩
  · rw [long,ld32_copy_out _ _ (by omega)]
    have word : ∀ x < 4, ([7,112,16] ++ [0] : List UInt8).getD x 0 = byteOf 1077255 x := by decide
    refine ld32_bytes (v := 1077255) fun x small => ?_
    show copy s.mem (t+4092) 4 (fun i => ([7,112,16] ++ [0] : List UInt8).getD i 0) (t+4092+x) = _
    rw [copy_in _ _ (by omega) (by omega),show t+4092+x-(t+4092) = x by omega]
    exact word x small
  have one : SamePage s.mem (copy s.mem (t+4092) 4 fun i => ([7,112,16] ++ [0] : List UInt8).getD i 0) q :=
    samePage_copy _ (by decide) page t_page other
  refine one.trans ?_
  rw [long]
  exact samePage_copy _ (by decide) page t_page other

section
variable (ok : Ok L s o) (dir : o.dirs a = some d) (idle : Idle o) (planted : Planted s.mem cur t u) (at_cur : o.own (.pipe 0) = some cur)
  (at_t : o.own (.pipe 1) = some t) (at_u : o.own (.pipe 2) = some u) (table : ∃ t, tableOf s.mem d 0 = some t)
  (lacks : tableOf s.mem d 1 = none) (blank : ¬ Present (pteOf s.mem d 1023)) (late : ∀ k, s.fails k = true ↔ k = s.calls+2)
  (plenty : 3 ≤ o.free.length)
include ok dir idle planted at_cur at_t at_u table lacks blank late plenty

theorem hostile_stack :
    Sat (execStack L cur d eip 4190208 hostileArgs) s (fun _ _ => False) fun r next =>
      r = none ∧ SamePage s.mem next.mem cur ∧ ld32 next.mem (t+4092) = 1077255 := by
  obtain ⟨t₀,table⟩ := table
  have managed := ok.custody.managed (u := .own (.pipe 1)) at_t
  have d_page := (ok.custody.managed (u := .dir a) dir).1
  have cur_other : cur ≠ t := fun same => by
    cases ok.custody.exclusive (show Holds s.mem o (.own (.pipe 0)) t from same ▸ at_cur) (show Holds s.mem o (.own (.pipe 1)) t from at_t)
  have u_other : u ≠ t := fun same => by
    cases ok.custody.exclusive (show Holds s.mem o (.own (.pipe 2)) t from same ▸ at_u) (show Holds s.mem o (.own (.pipe 1)) t from at_t)
  obtain ⟨cur_page,_⟩ := ok.named at_cur dir
  obtain ⟨u_page,_⟩ := ok.named at_u dir
  obtain ⟨t_page,_,d_other,_⟩ := ok.named at_t dir
  unfold execStack
  dsimp only
  refine Sat.bind (stack_guarded ok dir idle table lacks blank late plenty) ?_
  rintro _ mid ⟨rfl,guarded⟩
  refine Sat.bind guarded ?_
  rintro _ clear ⟨free,ok_clear,⟨t₁,table⟩,lacks,hidden,still⟩
  have planted_clear := planted.same (still _ _ at_cur) (still _ _ at_t) (still _ _ at_u)
  refine Sat.bind (hostile_args managed planted_clear cur_page u_page d_page cur_other u_other d_other.symm lacks) ?_
  rintro r args ⟨⟨ptrs,rfl⟩,word,m,rfl,others⟩
  dsimp only at word ⊢
  -- the new directory and its tables were not written
  have ok_args : Ok L { clear with mem := m } ⟨o.own,o.dirs,free⟩ := ok_clear.write (ok_clear.custody.loose_own at_t) m others
  have view : SameView clear.mem m o.dirs := (ok_clear.custody.loose_view (ok_clear.custody.loose_own at_t) others).1
  have esp : w32 (4096*1024+8 + 4294967296 - (3+hostileArgs.length+1)*4) = 4096*1024-16 := by decide
  have bytes : 0 < (ustack hostileArgs.length (4096*1024+8) ptrs).length := by rw [ustack_length]; omega
  rw [esp]
  refine Sat.bind (copyout_guard (by rw [view.table dir (by decide)]; exact table)
    (by rw [view.pte dir (by decide)]; exact hidden) cur bytes) ?_
  rintro _ _ ⟨rfl,rfl⟩
  refine Sat.bind (freevm_spec ok_args dir idle) ?_
  rintro _ last ⟨_,_,frame'⟩
  have kept : ∀ k q, o.own k = some q → SamePage m last.mem q := fun k q mine => by
    obtain ⟨page,_,notDir,noTable,noUser⟩ := ok_args.named mine dir
    exact frame' q page notDir noTable noUser
  refine .done ⟨rfl,?_,?_⟩
  · exact ((still _ _ at_cur).trans (others cur cur_page cur_other)).trans (kept _ _ at_cur)
  · rw [(kept _ _ at_t).ld32 (by omega) (by omega)]; exact word

-- Without arguments only the words of ustack go through the null pointer. They fit, and
-- exec reports success though the stack page is not there.
theorem null_stack :
    Sat (execStack L cur d eip 4190208 []) s (fun _ _ => False) fun r next =>
      ∃ image, r = some image ∧ image.sz = 4096*1025 ∧ ¬ Present (pteOf next.mem image.pgdir 1024) := by
  obtain ⟨t₀,table⟩ := table
  have managed := ok.custody.managed (u := .own (.pipe 1)) at_t
  obtain ⟨_,_,d_other,_⟩ := ok.named at_t dir
  have d_page := (ok.custody.managed (u := .dir a) dir).1
  unfold execStack
  dsimp only
  refine Sat.bind (stack_guarded ok dir idle table lacks blank late plenty) ?_
  rintro _ mid ⟨rfl,guarded⟩
  refine Sat.bind guarded ?_
  rintro _ clear ⟨free,_,_,lacks,_,still⟩
  unfold argLoop
  rw [sat_pure_bind]
  dsimp only
  have length := ustack_length ([] : List (List UInt8)).length (4096*1025) []
  generalize ustack ([] : List (List UInt8)).length (4096*1025) [] = bytes at length
  have length' : bytes.length = 16 := length
  have wrote := copyout_null bytes (o := 4080) managed (planted.same (still _ _ at_cur) (still _ _ at_t) (still _ _ at_u)) lacks
    (by omega) (by omega)
  refine wrote.bind ?_
  rintro _ _ ⟨rfl,rfl⟩
  rw [if_pos rfl,sat_pure]
  refine ⟨_,rfl,rfl,?_⟩
  have missing : tableOf (copy clear.mem (t+4080) bytes.length fun i => bytes.getD i 0) d 1 = none := by
    rw [tableOf_same (samePage_copy _ (by omega) d_page managed.1 d_other.symm) (by decide)]; exact lacks
  have zero : pteOf (copy clear.mem (t+4080) bytes.length fun i => bytes.getD i 0) d 1024 = 0 := by
    unfold pteOf
    rw [show 1024/1024 = 1 from rfl,missing]
  rw [zero]
  decide

end

theorem loaduvm_hollow (f : File) (cur d off : Nat) :
    Sat (loaduvm L cur d 0 f off 0) s (fun _ _ => False) fun r next => r = true ∧ next = s := by
  unfold loaduvm loadLoop
  exact .done ⟨rfl,rfl⟩

section
variable (ok : Ok L s o) (idle : Idle o) (vacant : o.dirs .fresh = none) (planted : Planted s.mem cur t u) (at_cur : o.own (.pipe 0) = some cur)
  (at_t : o.own (.pipe 1) = some t) (at_u : o.own (.pipe 2) = some u) (late : ∀ k, s.fails k = true ↔ k = s.calls+1091)
  (plenty : 2000 ≤ o.free.length)
include ok idle vacant planted at_cur at_t at_u late plenty

theorem hollow_rule {Q : Option Image → Machine → Prop}
    (goes : ∀ d free next, Ok L next ⟨o.own,update o.dirs .fresh (some d),free⟩ → Planted next.mem cur t u →
      (∀ k q, o.own k = some q → SamePage s.mem next.mem q) → (∃ t, tableOf next.mem d 0 = some t) → tableOf next.mem d 1 = none →
      ¬ Present (pteOf next.mem d 1023) → (∀ k, next.fails k = true ↔ k = next.calls+2) → 3 ≤ free.length →
      Sat (execStack L cur d hollowFile.entry 4190208 argv) next (fun _ _ => False) Q) :
    Sat (execImage L cur hollowFile argv) s (fun _ _ => False) Q := by
  obtain ⟨elf,magic,phoff,phnum,first,header⟩ := hollowFile_header
  have begun : Ok L { s with grown := [], loaded := [] } o := ⟨ok.custody,ok.alternating,ok.freed⟩
  unfold execImage
  rw [sat_modify_bind,if_neg elf,if_neg (by rw [magic]; decide)]
  refine Sat.bind (setupkvm_spec begun (idle 0) vacant) ?_
  rintro r mid ⟨quiet,frame,result⟩
  cases r with
  | none =>
    rcases result.1 with ⟨k,flag,_,near⟩ | few
    · have at_k := (late k).mp flag
      have near' : k ≤ s.calls+65 := near
      omega
    · omega
  | some d =>
    obtain ⟨_,bare,free,_,fewer,calls,ok_mid,_⟩ := result
    have calls' : mid.calls = s.calls+65 := calls
    have fails : mid.fails = s.fails := quiet.fails
    have dir : update o.dirs .fresh (some d) .fresh = some d := update_self ..
    have kept : ∀ k q, o.own k = some q → SamePage s.mem mid.mem q := fun k q mine =>
      frame q (ok.custody.managed (u := .own k) mine).1 (ok.custody.loose_own mine).1
    dsimp only
    unfold segLoop
    refine (sat_bind ..).mpr (Sat.bind (allocuvm_image (a := .fresh) ok_mid dir idle bare
      (fun k flag => by rw [fails] at flag; have := (late k).mp flag; omega) (by show 1025 ≤ free.length; omega)) ?_)
    rintro r next ⟨rfl,free',stretch⟩
    have left : free'.length+1024 = free.length := stretch.left
    have still : ∀ k q, o.own k = some q → SamePage s.mem next.mem q := fun k q mine => (kept k q mine).trans (stretch.named mine)
    have lacks : tableOf next.mem d 1 = none := by
      rw [stretch.tables (by decide) (by decide)]
      exact Option.isNone_iff_eq_none.mp (bare.tables (by decide))
    have blank : ¬ Present (pteOf next.mem d 1023) := by
      rw [stretch.others (by decide) (by decide),bare.user (by decide)]; decide
    refine Sat.bind (loaduvm_hollow _ _ _ _) ?_
    rintro _ last ⟨rfl,rfl⟩
    refine .done (goes d free' last stretch.ok (planted.same (still _ _ at_cur) (still _ _ at_t) (still _ _ at_u)) still
      stretch.table lacks blank (fun k => ?_) (by omega))
    rw [stretch.fails,fails,late k,stretch.calls,calls']

theorem hostile_exec :
    Sat (execImage L cur hollowFile hostileArgs) s (fun _ _ => False) fun r next =>
      r = none ∧ SamePage s.mem next.mem cur ∧ ld32 next.mem (t+4092) = 1077255 := by
  refine hollow_rule ok idle vacant planted at_cur at_t at_u late plenty ?_
  intro d free next ok_next planted_next still table lacks blank late' three
  have dir : update o.dirs .fresh (some d) .fresh = some d := update_self ..
  refine (hostile_stack (a := .fresh) ok_next dir idle planted_next at_cur at_t at_u table lacks blank late' three).post ?_
  rintro r last ⟨rfl,same,word⟩
  exact ⟨rfl,(still _ _ at_cur).trans same,word⟩

end

end Hostile

section Store
variable {L : Layout} {s : System}

theorem store_runs (small : x < 4096) (entry : pteOf s.vm.mem (s.procs p).pgdir 0 = u ||| 6 ||| 1) (page : u % 4096 = 0) (b : UInt8) :
    Sat (run L p (.store x b)) s (fun _ _ => False) fun _ next =>
      next = { s with vm := { s.vm with mem := copy s.vm.mem (u+x) 1 fun _ => b } } := by
  obtain ⟨present,addr,user,_⟩ := entry_parts page (by decide) _ entry
  have writable : Writable (pteOf s.vm.mem (s.procs p).pgdir 0) := by
    rw [entry,entry_eq page (by decide)]
    unfold Writable
    omega
  have word : w32 x = x := by unfold w32; omega
  have index : x/4096/1024 = 0 ∧ x/4096%1024 = 0 ∧ x%4096 = x := by omega
  show Sat (Prog.get >>= fun s => onVm (poke1 true (s.procs p).pgdir (w32 x) b)) s _ _
  rw [sat_get_bind,sat_onVm,word]
  unfold poke1
  rw [sat_bind,walkpgdir_look _ _ (by omega),index.1,index.2.1]
  cases table : tableOf s.vm.mem (s.procs p).pgdir 0 with
  | none =>
    have there := table_of_present present
    rw [show 0/1024 = 0 from rfl,table] at there
    cases there
  | some t =>
    simp only [Option.map_some]
    have at_0 : ld32 s.vm.mem (t+4*0) = pteOf s.vm.mem (s.procs p).pgdir 0 := pteOf_table (v := 0) table
    rw [sat_load_bind,at_0,if_pos ⟨present,writable,fun _ => user.mpr (by decide)⟩,sat_modify,addr,index.2.2]

theorem stores_run (page : u % 4096 = 0) (bytes : List UInt8) : ∀ {s : System} {x : Nat}, Run L code mem fails AnyStep s →
    (s.procs p).state = .runnable → Ok L s.vm (owners s free) → pteOf s.vm.mem (s.procs p).pgdir 0 = u ||| 6 ||| 1 →
    x+bytes.length ≤ 4096 →
    ∃ m, Run L code mem fails AnyStep { s with vm := { s.vm with mem := m } } ∧ Ok L { s.vm with mem := m } (owners s free) ∧
      SameView s.vm.mem m (dirsOf s) ∧ (∀ i < bytes.length, m (u+x+i) = bytes.getD i 0) ∧ ∀ y < u+x, m y = s.vm.mem y := by
  induction bytes with
  | nil => exact fun {s x} reached _ ok _ _ => ⟨s.vm.mem,reached,ok,.refl _ _,by simp,fun _ _ => rfl⟩
  | cons b rest ih =>
    intro s x reached runs ok entry inside
    rw [List.length_cons] at inside
    have live : (s.procs p).state.Live := by rw [runs]; decide
    have dir : (owners s free).dirs (.proc p) = some (s.procs p).pgdir := dirs_live live
    obtain ⟨present,addr,_⟩ := entry_parts page (by decide) _ entry
    have loose := ok.custody.loose_user ⟨_,dir,by decide,present,addr⟩
    obtain ⟨ok',view⟩ := poke ok loose page (x := x) (n := 1) (by omega) fun _ => b
    obtain ⟨_,_,ran,rfl⟩ := (store_runs (x := x) (by omega) entry page b).returns
    have reached' := reached.call runs (c := .store x b) trivial ran trivial
    obtain ⟨m,run_m,ok_m,view_m,bytes_m,low_m⟩ := ih (x := x+1) reached' runs ok'
      (by show pteOf (copy _ _ _ _) _ 0 = _; rw [view.pte dir (by decide)]; exact entry) (by omega)
    refine ⟨m,run_m,ok_m,view.trans view_m,fun i small => ?_,fun y under => ?_⟩
    · cases i with
      | zero =>
        rw [Nat.add_zero,low_m (u+x) (by omega)]
        exact copy_in s.vm.mem (fun _ => b) .refl (Nat.lt_succ_self _)
      | succ i =>
        rw [show u+x+(i+1) = u+(x+1)+i by omega,bytes_m i (by rw [List.length_cons] at small; omega)]
        rfl
    · rw [low_m y (by omega)]
      exact copy_out s.vm.mem (fun _ => b) (.inl under)

end Store

def hostileTags (cur t u : Nat) : Tag → Option Nat
  | .pipe 0 => some cur
  | .pipe 1 => some t
  | .pipe 2 => some u
  | _ => none

theorem Ok.pinned {s : Machine} (ok : Ok L s o) (dir : o.dirs a = some cur) (table : tableOf s.mem cur 0 = some t)
    (entry : Present (pteOf s.mem cur 0) ∧ PTE_ADDR (pteOf s.mem cur 0) = u) :
    Ok L s ⟨hostileTags cur t u,update o.dirs a none,o.free⟩ := by
  let origin : Tag → Use
    | .pipe 0 => .dir a
    | .pipe 1 => .table a 0
    | _ => .user a 0
  have only : ∀ k p, hostileTags cur t u k = some p →
      (k = .pipe 0 ∧ p = cur) ∨ (k = .pipe 1 ∧ p = t) ∨ (k = .pipe 2 ∧ p = u) := by
    intro k p mine
    unfold hostileTags at mine
    split at mine
    · exact .inl ⟨rfl,(Option.some.inj mine).symm⟩
    · exact .inr (.inl ⟨rfl,(Option.some.inj mine).symm⟩)
    · exact .inr (.inr ⟨rfl,(Option.some.inj mine).symm⟩)
    · cases mine
  refine ⟨ok.custody.pin _ origin (fun {k p} mine => ?_) (fun {j k p} one two same => ?_) (fun {k p} mine => ?_),ok.alternating,ok.freed⟩
  · rcases only k p mine with ⟨rfl,rfl⟩ | ⟨rfl,rfl⟩ | ⟨rfl,rfl⟩
    · exact dir
    · exact ⟨cur,dir,by decide,table⟩
    · exact ⟨cur,dir,by decide,entry⟩
  · rcases only j p one with ⟨rfl,_⟩ | ⟨rfl,_⟩ | ⟨rfl,_⟩ <;> rcases only k p two with ⟨rfl,_⟩ | ⟨rfl,_⟩ | ⟨rfl,_⟩ <;>
      first | rfl | cases same
  · rcases only k p mine with ⟨rfl,_⟩ | ⟨rfl,_⟩ | ⟨rfl,_⟩ <;> exact .inr rfl

theorem hostile_admissible : (Call.exec (some hollowFile) hostileArgs).Admissible := by
  obtain ⟨_,_,phoff,phnum,_,header⟩ := hollowFile_header
  refine ⟨fun g file j inside _ => ?_,by decide +kernel⟩
  obtain rfl : hollowFile = g := Option.some.inj file
  obtain rfl : j = 0 := by omega
  decide

-- kalloc fails once, for the table of the stack page. The first process has stored the
-- address of its own page table at address 0.
theorem planted_boot : ∃ s free t u m, Run smallKernel [] (fun _ => 0) (fun k => k == 1224) AnyStep { s with vm := { s.vm with mem := m } } ∧
    (s.procs 0).state = .runnable ∧ dirsOf s (.proc 0) = some (s.procs 0).pgdir ∧ Planted m (s.procs 0).pgdir t u ∧
    Ok smallKernel { s.vm with mem := m } ⟨hostileTags (s.procs 0).pgdir t u,update (dirsOf s) (.proc 0) none,free⟩ ∧
    (∀ k, s.vm.fails k = true ↔ k = s.vm.calls+1091) ∧ 2000 ≤ free.length := by
  obtain ⟨s,started,_,fails,booted⟩ := boots (fun k => k == 1224) fun k flag => by
    rw [show k = 1224 from by simpa using flag]; decide
  obtain ⟨free,pages,many⟩ := booted.free
  obtain ⟨u,page,entry⟩ := booted.code
  have live : (s.procs 0).state.Live := by rw [booted.runs]; decide
  have dir := dirs_live live
  obtain ⟨present,addr,_⟩ := entry_parts page (by decide) _ entry
  cases table : tableOf s.vm.mem (s.procs 0).pgdir 0 with
  | none =>
    have there := table_of_present present
    rw [show 0/1024 = 0 from rfl,table] at there
    cases there
  | some t =>
    -- four bytes, the address of the page table among them
    obtain ⟨m,reached,ok,view,bytes,_⟩ := stores_run page (wordBytes (t ||| 6 ||| 1)) (.boot started) booted.runs pages entry
      (by show 0+4 ≤ 4096; decide)
    have table_m : tableOf m (s.procs 0).pgdir 0 = some t := by rw [view.table dir (by decide)]; exact table
    have entry_m : pteOf m (s.procs 0).pgdir 0 = pteOf s.vm.mem (s.procs 0).pgdir 0 := view.pte dir (by decide)
    have t_managed := pages.custody.managed (u := .table (.proc 0) 0) ⟨_,dir,by decide,table⟩
    have small : t ||| 6 ||| 1 < 4294967296 := by
      have := (entry_parts t_managed.1 (f := 6) (by decide) _ rfl).2.2.2
      have := t_managed.2.2
      omega
    have word : ld32 m u = t ||| 6 ||| 1 := by
      rw [← Nat.mod_eq_of_lt small]
      refine ld32_bytes fun i inside => ?_
      rw [← Nat.add_zero u,bytes i inside]
      obtain rfl | rfl | rfl | rfl : i = 0 ∨ i = 1 ∨ i = 2 ∨ i = 3 := by omega
      all_goals rfl
    have planted : Planted m (s.procs 0).pgdir t u := ⟨table_m,by rw [entry_m]; exact ⟨present,addr⟩,word⟩
    have calls : s.vm.calls = 133 := booted.calls
    exact ⟨s,free,t,u,m,reached,booted.runs,dir,planted,ok.pinned dir table_m planted.entry,
      fun k => by rw [fails,calls]; simp,by omega⟩

end Xv6.Vm
