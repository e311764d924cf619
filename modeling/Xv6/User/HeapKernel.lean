import Xv6.User.HeapRuns
import Xv6.Vm.Sbrk

namespace Xv6.User.Umalloc
open Bytes Circular Extents Exec Runs

-- malloc over the sbrk of the kernel, and sizes near the end of the word.

-- growproc as it moves the size of the process; given tells whether there were pages enough. none is -1.
def growproc (sz : Nat) (n : Int) (given : Bool) : Option Nat :=
  let newsz := ((sz+n) % 4294967296).toNat
  if n = 0 then some sz
  else
    let size :=
      if 0 < n then
        if 2147483648 ≤ newsz then 0 else if newsz < sz then sz else if given then newsz else 0
      else if sz ≤ newsz then sz else newsz
    if size = 0 then none else some size

theorem sysSbrk_sizes {L : Vm.Layout} {s : Vm.System} (sized : Vm.Sized L s pages p) (word : -2147483648 ≤ n ∧ n < 2147483648) :
    ∃ r next given, Vm.sysSbrk L p n s = (.ok r,next) ∧ match growproc (s.procs p).sz n given with
      | none => r = -1 ∧ (next.procs p).sz = (s.procs p).sz
      | some size => r = (s.procs p).sz ∧ (next.procs p).sz = size := by
  have bound := sized.size
  by_cases rests : n = 0
  · subst rests
    exact ⟨_,_,true,(Vm.sbrk_rests sized).1,rfl,rfl⟩
  have resized : ∀ size vm, match (if size = 0 then none else some size) with
      | none => (if size = 0 then -1 else ((s.procs p).sz : Int)) = -1 ∧ ((Vm.resized s p size vm).procs p).sz = (s.procs p).sz
      | some size' => (if size = 0 then -1 else ((s.procs p).sz : Int)) = (s.procs p).sz ∧ ((Vm.resized s p size vm).procs p).sz = size' := by
    intro size vm
    by_cases zero : size = 0
    · subst zero
      exact ⟨rfl,rfl⟩
    · rw [if_neg zero,if_neg zero,Vm.resized_proc s p vm zero]
      exact ⟨rfl,rfl⟩
  have target : (((s.procs p).sz : Int)+n).emod 4294967296 = ((s.procs p).sz+n) % 4294967296 := rfl
  by_cases grows : 0 < n
  · have run := Vm.sysSbrk_moves sized rests (by
      rw [if_pos grows]
      exact Vm.allocuvm_clean sized.ok sized.dir (Vm.idle_owners s pages) sized.clean bound)
    obtain ⟨r,next,ran,size,vm,⟨alloc,_⟩,rfl,rfl⟩ := run.returns
    refine ⟨_,_,decide (size ≠ 0),ran,?_⟩
    have made : growproc (s.procs p).sz n (decide (size ≠ 0)) = if size = 0 then none else some size := by
      have sum : (((s.procs p).sz+n) % 4294967296).toNat = (s.procs p).sz+n.toNat := by omega
      unfold growproc
      rw [if_neg rests,if_pos grows,sum]
      rw [if_neg (show ¬ (s.procs p).sz+n.toNat < (s.procs p).sz by omega)]
      by_cases zero : size = 0
      · subst zero
        split
        · rfl
        · rfl
      obtain ⟨reached,below⟩ := alloc.size zero
      rw [target,sum] at reached
      rw [if_neg (show ¬ 2147483648 ≤ (s.procs p).sz+n.toNat by omega),if_pos (decide_eq_true zero),
        if_neg (show (s.procs p).sz+n.toNat ≠ 0 by omega),if_neg zero]
      congr 1
      omega
    rw [made]
    exact resized size vm
  · have run := Vm.sysSbrk_moves sized rests (by
      rw [if_neg grows]
      exact Vm.deallocuvm_spec sized.ok sized.dir (show (s.procs p).sz ≤ 2147483648 by omega))
    obtain ⟨r,next,ran,size,vm,⟨result,_⟩,rfl,rfl⟩ := run.returns
    refine ⟨_,_,true,ran,?_⟩
    have made : growproc (s.procs p).sz n true = if size = 0 then none else some size := by
      unfold growproc
      rw [if_neg rests,if_neg grows,result,target]
      split
      · rw [Nat.min_eq_left (by omega)]
      · rw [Nat.min_eq_right (by omega)]
    rw [made]
    exact resized size vm

def asInt (n : Nat) : Int := if n < 2147483648 then n else n-4294967296

-- The process as sbrk changes it, with what kalloc is going to answer.
structure Kernel where
  sz : Nat
  answers : List Bool
  log : List (Nat × Nat)

def kernel : Host Kernel where
  sbrk k n :=
    match growproc k.sz (asInt n) (k.answers.headD false) with
    | none => (none,{ k with answers := k.answers.tail })
    | some sz => (some k.sz,{ sz := sz, answers := k.answers.tail, log := (k.sz,n) :: k.log })
  log := Kernel.log

structure Process (base : Nat) (s : System Kernel) : Prop where
  kept : Kept kernel base s
  low : 0 < base
  static : base+8 ≤ s.heap.os.sz
  size : s.heap.os.sz < 2147483648
  below : ∀ r ∈ s.heap.os.log, r.1+r.2 ≤ s.heap.os.sz

section
variable {k : Kernel} {s : System Kernel}

theorem growproc_grows {sz n : Nat} (positive : 0 < n) (small : n < 2147483648) (size : sz < 2147483648) (given : Bool) :
    growproc sz n given = if sz+n < 2147483648 ∧ given = true then some (sz+n) else none := by
  have sum : (((sz : Int)+n) % 4294967296).toNat = sz+n := by omega
  unfold growproc
  rw [if_neg (show ¬ (n : Int) = 0 by omega),sum,if_pos (show (0 : Int) < n by omega),if_neg (show ¬ sz+n < sz by omega)]
  cases given with
  | false => simp
  | true =>
    by_cases room : sz+n < 2147483648
    · rw [if_neg (show ¬ 2147483648 ≤ sz+n by omega),if_pos rfl,if_neg (show sz+n ≠ 0 by omega),if_pos ⟨room,rfl⟩]
    · rw [if_pos (show 2147483648 ≤ sz+n by omega),if_pos rfl,if_neg fun both => room both.1]

theorem kernel_grows (positive : 0 < n) (small : n < 2147483648) (size : k.sz < 2147483648) :
    kernel.sbrk k n = (none,{ k with answers := k.answers.tail }) ∨
      kernel.sbrk k n = (some k.sz,⟨k.sz+n,k.answers.tail,(k.sz,n) :: k.log⟩) ∧ k.sz+n < 2147483648 := by
  have int : asInt n = n := if_pos small
  have grown := growproc_grows positive small size (k.answers.headD false)
  dsimp only [kernel]
  rw [int,grown]
  by_cases room : k.sz+n < 2147483648 ∧ k.answers.headD false = true
  · rw [if_pos room]
    exact .inr ⟨rfl,room.1⟩
  · rw [if_neg room]
    exact .inl rfl

theorem kernel_fresh (positive : 0 < n) (small : n < 2147483648) (static : base+8 ≤ k.sz) (size : k.sz < 2147483648) (below : ∀ r ∈ k.log, r.1+r.2 ≤ k.sz) :
    Fresh kernel base k n := by
  unfold Fresh
  rcases kernel_grows positive small size with failed | ⟨done,_⟩
  · rw [failed]
    rfl
  · rw [done]
    exact ⟨rfl,static,by omega,below⟩

end

-- What holds of the system behind sbrk, and is kept by sbrk, holds after malloc.
section
variable {σ : Type} {host : Host σ} {I : σ → Prop} {s last : State σ}

theorem free_os (ran : free fuel s ap = some last) : last.os = s.os := by
  unfold free at ran
  dsimp only at ran
  split at ran
  · cases ran
  · cases ran
    rfl

theorem morecore_os (keeps : ∀ os, I os → I (host.sbrk os (wanted n*8 % 4294967296)).2) (here : I s.os)
    (ran : morecore host fuel s n = some (r,last)) : I last.os := by
  have after := keeps s.os here
  cases given : host.sbrk s.os (wanted n*8 % 4294967296) with
  | mk answer os =>
    rw [given] at after
    cases answer with
    | none =>
      rw [morecore_fails fuel given] at ran
      cases ran
      exact after
    | some a =>
      rw [morecore_gives given] at ran
      obtain ⟨next,freed,same⟩ := Option.map_eq_some_iff.mp ran
      cases same
      rw [free_os freed]
      exact after

theorem take_os (n : Nat) (s : State σ) (prevp p : Nat) : (take n s prevp p).2.os = s.os := by
  unfold take
  split
  · rfl
  · rfl

theorem search_os (keeps : ∀ os, I os → I (host.sbrk os (wanted n*8 % 4294967296)).2) : ∀ fuel {s : State σ} {prevp p}, I s.os →
    search host n fuel s prevp p = some (r,last) → I last.os := by
  intro fuel
  induction fuel with
  | zero =>
    intro s prevp p _ ran
    cases ran
  | succ fuel ih =>
    intro s prevp p here ran
    rw [search] at ran
    split at ran
    · rw [Option.some.injEq] at ran
      have same := take_os n s prevp p
      rw [ran] at same
      rw [same]
      exact here
    split at ran
    · cases more : morecore host fuel s n with
      | none =>
        rw [more] at ran
        cases ran
      | some answer =>
        rw [more] at ran
        have after := morecore_os keeps here (show morecore host fuel s n = some (answer.1,answer.2) from more)
        obtain ⟨p,next⟩ := answer
        cases p with
        | zero =>
          cases ran
          exact after
        | succ p => exact ih after ran
    · exact ih here ran

theorem malloc_os (keeps : ∀ os, I os → I (host.sbrk os (wanted (units nbytes)*8 % 4294967296)).2) (here : I s.os)
    (ran : Returns (fun fuel => malloc host base fuel s nbytes) (r,last)) : I last.os := by
  obtain ⟨most,ran⟩ := ran
  refine search_os keeps most ?_ (ran most .refl)
  unfold start
  split
  · exact here
  · exact here

end

theorem malloc_within {s : System Kernel} (process : Process base s) (small : nbytes ≤ 2147483632)
    (ran : Returns (fun fuel => malloc kernel base fuel s.heap nbytes) (r,heap)) (some : r ≠ 0) : r+nbytes ≤ heap.os.sz := by
  obtain ⟨_,positive,bound⟩ := units_room small
  have fresh := kernel_fresh positive bound process.static process.size process.below
  have word : base < 4294967296 := by
    have := process.static
    have := process.size
    omega
  obtain ⟨r',heap',also,after⟩ := process.kept.malloc process.low word small fresh
  cases ran.unique also
  rw [if_neg some] at after
  have asked : wanted (units nbytes)*8 % 4294967296 = wanted (units nbytes)*8 := Nat.mod_eq_of_lt (by omega)
  obtain ⟨_,below⟩ : heap.os.sz < 2147483648 ∧ ∀ r ∈ heap.os.log, r.1+r.2 ≤ heap.os.sz := by
    refine malloc_os (I := fun k => k.sz < 2147483648 ∧ ∀ r ∈ k.log, r.1+r.2 ≤ k.sz) (fun k ⟨size,below⟩ => ?_) ⟨process.size,process.below⟩ ran
    rw [asked]
    rcases kernel_grows positive bound size with failed | ⟨done,room⟩
    · rw [failed]
      exact ⟨size,below⟩
    rw [done]
    refine ⟨room,fun r member => ?_⟩
    rcases List.mem_cons.mp member with rfl | old
    · exact Nat.le_refl _
    · exact Nat.le_trans (below r old) (Nat.le_add_right ..)
  have whole := after.integrity
  have room := whole.room (r,nbytes) (.head _)
  have filled : 0 < (block heap.mem r).len := by
    have : r+nbytes ≤ (block heap.mem r).stop 8 := room.2
    have : (block heap.mem r).stop 8 = r-8+8*(block heap.mem r).len := rfl
    have : 8 ≤ r := room.1
    omega
  have inside : 0 ≤ (block heap.mem r).start ∧ (block heap.mem r).stop 8 ≤ heap.os.sz := units_bound filled fun u member =>
    ⟨Nat.zero_le _,unitsOf_below below (whole.inside (r,nbytes) (.head _) u member)⟩
  exact Nat.le_trans room.2 inside.2

theorem search_first {σ : Type} (host : Host σ) (s : State σ) (base n : Nat) {os : σ} (null : s.freep = 0) (low : 0 < base) (above : base+8 ≤ a) (high : a+8 < 4294967296)
    (some : 0 < n) (given : host.sbrk s.os (wanted n*8 % 4294967296) = (Option.some a,os)) (word : wanted n < 4294967296)
    (apart : add a (wanted n) ≠ base) : ∃ last : State σ, last.os = os ∧
      Returns (fun fuel => search host n fuel (start base s) (start base s).freep (ptr (start base s).mem (start base s).freep))
        (add (add a (wanted n-n)) 1,last) := by
  have enough : n ≤ wanted n := by
    unfold wanted
    split
    · omega
    · omega
  -- the ring of the static header, with the new block marked
  obtain ⟨mem,made⟩ : ∃ mem, mem = setSize (setPtr s.mem base base) base 0 := ⟨_,rfl⟩
  have self : ptr mem base = base := by rw [made,ptr_setSize,ptr_setPtr (by omega)]
  have zero : size mem base = 0 := by rw [made,size_setSize (by decide)]
  obtain ⟨mem₁,marked⟩ : ∃ mem₁, mem₁ = setSize mem a (wanted n) := ⟨_,rfl⟩
  have self₁ : ptr mem₁ base = base := by rw [marked,(setSize_elsewhere _ _ _).ptr (.inl above),self]
  have zero₁ : size mem₁ base = 0 := by rw [marked,(setSize_elsewhere _ _ _).size (.inl above),zero]
  have whole : size mem₁ a = wanted n := by rw [marked,size_setSize word]
  -- the block goes behind the header
  have up : linkUp mem₁ base a = setPtr mem₁ a base := by rw [linkUp,whole,self₁,if_neg apart]
  have down : linkDown (setPtr mem₁ a base) base a = setPtr (setPtr mem₁ a base) base a := by
    rw [linkDown,link,(setPtr_elsewhere _ _ _).size (.inl above),zero₁,if_neg]
    show (base+8*0) % 4294967296 ≠ a
    omega
  obtain ⟨mem₂,linked⟩ : ∃ mem₂, mem₂ = setPtr (setPtr mem₁ a base) base a := ⟨_,rfl⟩
  have next : ptr mem₂ base = a := by rw [linked,ptr_setPtr (by omega)]
  have there : size mem₂ a = wanted n := by rw [linked,(setPtr_elsewhere _ _ _).size (.inr above),size_setPtr,whole]
  have freed : ∀ fuel, free (fuel+1) ⟨mem₁,base,os⟩ (add a 1) = Option.some ⟨mem₂,base,os⟩ := fun fuel => by
    have block : back (add a 1) = a := by
      unfold back add
      omega
    have sought : seek (ptr mem₁) a (fuel+1) base = Option.some base := by
      rw [seek,self₁,if_neg (by omega),if_pos ⟨Nat.le_refl _,.inl (by omega)⟩]
    rw [free,block,sought]
    dsimp only
    rw [up,down,linked]
  have more : ∀ fuel, morecore host (fuel+1) ⟨mem,base,s.os⟩ n = Option.some (base,⟨mem₂,base,os⟩) := fun fuel => by
    rw [morecore_gives (s := ⟨mem,base,s.os⟩) given]
    rw [← marked,freed]
    rfl
  have begun : start base s = ⟨mem,base,s.os⟩ := by rw [start,if_pos null,made]
  have result : (take n ⟨mem₂,base,os⟩ base a).1 = add (add a (wanted n-n)) 1 := by
    unfold take
    rw [there]
    split
    · rename_i same
      rw [same,Nat.sub_self]
      show add a 1 = add ((a+8*0) % 4294967296) 1
      rw [Nat.mul_zero,Nat.add_zero,Nat.mod_eq_of_lt (by omega)]
    · dsimp only
      rw [size_setSize (by omega)]
  refine ⟨(take n ⟨mem₂,base,os⟩ base a).2,take_os _ _ _ _,2,fun fuel two => ?_⟩
  obtain ⟨fuel,rfl⟩ : ∃ k, fuel = k+2 := ⟨fuel-2,by omega⟩
  obtain ⟨b,rfl⟩ : ∃ b, base = b+1 := ⟨base-1,by omega⟩
  dsimp only
  rw [begun,← result,self,search,if_neg (by rw [zero]; omega),if_pos rfl,more]
  show search host n (fuel+1) ⟨mem₂,b+1,os⟩ (b+1) (ptr mem₂ (b+1)) = _
  rw [next,search,if_pos (by rw [there]; exact enough)]

theorem malloc_short (large : 2147483632 < nbytes) (word : nbytes < 4294967296) : ∃ base s r heap, Process base s ∧
    Returns (fun fuel => malloc kernel base fuel s.heap nbytes) (r,heap) ∧ r ≠ 0 ∧ heap.os.sz < r+nbytes := by
  have some : 0 < units nbytes := Nat.succ_pos _
  by_cases wraps : 4294967296 ≤ nbytes+7
  · -- the sum wraps, and one unit is looked for
    have one : units nbytes = 1 := by
      unfold units
      omega
    have given : kernel.sbrk ⟨4096,[true],[]⟩ (wanted (units nbytes)*8 % 4294967296) = (Option.some 4096,⟨36864,[],[(4096,32768)]⟩) := by
      rw [one]
      rfl
    obtain ⟨last,os,ran⟩ := search_first kernel ⟨fun _ => 0,0,⟨4096,[true],[]⟩⟩ 1028 (units nbytes) rfl (by decide) (by decide) (by decide) some given
      (by rw [one]; decide) (by rw [one]; decide)
    refine ⟨1028,⟨⟨fun _ => 0,0,⟨4096,[true],[]⟩⟩,[]⟩,_,last,⟨.inl ⟨rfl,rfl,rfl⟩,by decide,by decide,by decide,fun r no => (by cases no)⟩,ran,?_,?_⟩
    · rw [one]
      decide
    · rw [os,one]
      show 36864 < 36864+nbytes
      omega
  · -- sbrk is given a negative int, or zero
    have bounds : 268435456 ≤ units nbytes ∧ units nbytes ≤ 536870912 := by
      unfold units
      omega
    have all : wanted (units nbytes) = units nbytes := if_neg (by omega)
    obtain ⟨sz,sizes,small⟩ : ∃ sz : Nat, (sz = 2048 ∨ sz = 12280) ∧ (units nbytes*8+sz < 4294967296 ∨ sz = 12280 ∧ 4294965248 ≤ units nbytes*8) := by
      by_cases far : units nbytes*8+2048 < 4294967296
      · exact ⟨2048,.inl rfl,.inl far⟩
      · exact ⟨12280,.inr rfl,.inr ⟨rfl,by omega⟩⟩
    obtain ⟨less,grown,fewer⟩ : ∃ less, growproc sz (asInt (units nbytes*8 % 4294967296)) false = Option.some less ∧ less ≤ sz := by
      unfold growproc asInt
      by_cases rests : units nbytes = 536870912
      · rw [rests]
        exact ⟨sz,rfl,.refl⟩
      rw [Nat.mod_eq_of_lt (show units nbytes*8 < 4294967296 by omega),if_neg (show ¬ units nbytes*8 < 2147483648 by omega),
        if_neg (show ¬ ((units nbytes*8 : Nat) : Int)-4294967296 = 0 by omega),if_neg (show ¬ (0 : Int) < ((units nbytes*8 : Nat) : Int)-4294967296 by omega)]
      split
      · rw [if_neg (show sz ≠ 0 by omega)]
        exact ⟨sz,rfl,.refl⟩
      · rw [if_neg (by omega)]
        exact ⟨_,rfl,by omega⟩
    have given : kernel.sbrk ⟨sz,[],[]⟩ (wanted (units nbytes)*8 % 4294967296) = (Option.some sz,⟨less,[],[(sz,units nbytes*8 % 4294967296)]⟩) := by
      rw [all]
      dsimp only [kernel]
      rw [List.headD_nil,grown]
      rfl
    have away : add sz (wanted (units nbytes)) ≠ 1028 := by
      rw [all]
      unfold add
      omega
    obtain ⟨last,os,ran⟩ := search_first kernel ⟨fun _ => 0,0,⟨sz,[],[]⟩⟩ 1028 (units nbytes) rfl (by decide) (show 1028+8 ≤ sz by omega) (by omega) some given
      (by omega) away
    rw [all,Nat.sub_self] at ran
    have pointer : add (add sz 0) 1 = sz+8 := by
      unfold add
      omega
    rw [pointer] at ran
    refine ⟨1028,⟨⟨fun _ => 0,0,⟨sz,[],[]⟩⟩,[]⟩,_,last,⟨.inl ⟨rfl,rfl,rfl⟩,by decide,?_,?_,fun r no => (by cases no)⟩,ran,by omega,?_⟩
    · show 1028+8 ≤ sz
      omega
    · show sz < 2147483648
      omega
    · rw [os]
      show less < sz+8+nbytes
      omega

-- Exactly for these sizes a pointer means memory.
theorem malloc_honest (word : nbytes < 4294967296) : (∀ base s r heap, Process base s →
      Returns (fun fuel => malloc kernel base fuel s.heap nbytes) (r,heap) → r ≠ 0 → r+nbytes ≤ heap.os.sz) ↔ nbytes ≤ 2147483632 := by
  constructor
  · intro honest
    by_contra large
    obtain ⟨base,s,r,heap,process,ran,some,short⟩ := malloc_short (Nat.lt_of_not_le large) word
    exact absurd (honest base s r heap process ran some) (Nat.not_le_of_lt short)
  · intro small base s r heap process ran some
    exact malloc_within process small ran some

theorem malloc_honest_page : 4096 ≤ 2147483632 ∧ ∀ base s r heap, Process base s →
    Returns (fun fuel => malloc kernel base fuel s.heap 4096) (r,heap) → r ≠ 0 → r+4096 ≤ heap.os.sz :=
  ⟨by decide,(malloc_honest (by decide)).mpr (by decide)⟩

-- malloc(-1) is a pointer to the very end of the memory.
theorem malloc_gives_nothing : ∃ s heap, Process 1028 s ∧ Returns (fun fuel => malloc kernel 1028 fuel s.heap 4294967295) (36864,heap) ∧
    heap.os.sz = 36864 := by
  have given : kernel.sbrk ⟨4096,[true],[]⟩ (wanted (units 4294967295)*8 % 4294967296) = (some 4096,⟨36864,[],[(4096,32768)]⟩) := rfl
  obtain ⟨last,os,ran⟩ := search_first kernel ⟨fun _ => 0,0,⟨4096,[true],[]⟩⟩ 1028 (units 4294967295) rfl (by decide) (by decide) (by decide)
    (by decide) given (by decide) (by decide)
  exact ⟨⟨⟨fun _ => 0,0,⟨4096,[true],[]⟩⟩,[]⟩,last,⟨.inl ⟨rfl,rfl,rfl⟩,by decide,by decide,by decide,fun r no => (by cases no)⟩,ran,by rw [os]⟩

end Xv6.User.Umalloc
