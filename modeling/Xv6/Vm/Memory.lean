import Xv6.Lib.Bytes
import Xv6.Lib.Exec

namespace Xv6.Vm
open Bytes Exec

-- Physical memory and the page tables kept in it (kalloc.c, vm.c). Pages are
-- named by their physical address; the kernel reaches page pa at pa + KERNBASE.
-- KERNBASE is 2147483648, PHYSTOP 234881024, EXTMEM 1048576, DEVSPACE 4261412864
-- and PGSIZE 4096; they stay numerals because every use of them is arithmetic.

structure Layout where
  data : Nat
  kend : Nat
  aligned : data % 4096 = 0
  text : 1048576 < data
  image : data < kend
  fits : kend < 234881024

inductive Panic where
  | kfree | remap | phystopTooHigh | inituvm | inituvmKalloc | loaduvmAligned | loaduvmExist | freevm
  | clearpteu | copyuvmPte | copyuvmPage | switchuvm | userinit | initExiting | filedup | fileclose
  -- an access of the kernel itself through an address that is not mapped
  | pageFault
  deriving DecidableEq, Repr

inductive Event where
  | alloc (page : Nat)
  | free (page : Nat)
  deriving DecidableEq, Repr

-- fails k makes the k-th call of kalloc fail, whatever is free. The history of
-- calls is kept newest first; grown and loaded are the pages that allocuvm took
-- and that loaduvm copied file bytes into since the last exec began, unmapped
-- those that allocuvm took and whose mapping failed.
structure Machine where
  mem : Bytes.Store
  freelist : Nat
  fails : Nat → Bool
  calls : Nat
  events : List Event
  grown : List Nat
  loaded : List Nat
  unmapped : List Nat

abbrev M := Prog Machine Panic

def w32 (a : Nat) : Nat := a % 4294967296

def PDX (va : Nat) : Nat := va / 4194304 % 1024
def PTX (va : Nat) : Nat := va / 4096 % 1024
def PGROUNDUP (sz : Nat) : Nat := w32 (sz+4095) / 4096 * 4096
def PGROUNDDOWN (a : Nat) : Nat := a / 4096 * 4096
def PTE_ADDR (pte : Nat) : Nat := pte / 4096 * 4096
def PTE_FLAGS (pte : Nat) : Nat := pte % 4096
-- PTE_P, PTE_W and PTE_U are the bits 1, 2 and 4.
def Present (pte : Nat) : Prop := pte % 2 = 1
def Writable (pte : Nat) : Prop := pte / 2 % 2 = 1
def UserBit (pte : Nat) : Prop := pte / 4 % 2 = 1

instance : Decidable (Present pte) := inferInstanceAs (Decidable (_ = _))
instance : Decidable (Writable pte) := inferInstanceAs (Decidable (_ = _))
instance : Decidable (UserBit pte) := inferInstanceAs (Decidable (_ = _))

theorem PGROUNDUP_eq (small : n < 4294963201) : PGROUNDUP n = 4096*((n+4095)/4096) := by unfold PGROUNDUP w32; omega

theorem PGROUNDDOWN_page (v : Nat) : PGROUNDDOWN (4096*v) = 4096*v := by unfold PGROUNDDOWN; omega

theorem w32_page (small : v < 1048575) : w32 (4096*v+4096) = 4096*(v+1) := by unfold w32; omega

def load (a : Nat) : M Nat := do return ld32 (← Prog.get).mem a
def store (a v : Nat) : M Unit := Prog.modify fun s => { s with mem := st32 s.mem a v }
def memset (pa : Nat) (c : UInt8) : M Unit := Prog.modify fun s => { s with mem := fill s.mem pa 4096 c }

-- The list is threaded through the free pages themselves: the first word of each
-- is the kernel address of the next.
def kalloc : M (Option Nat) := do
  let s ← Prog.get
  if s.fails s.calls ∨ s.freelist = 0 then
    Prog.modify fun s => { s with calls := s.calls+1 }
    return none
  else
    let r := s.freelist - 2147483648
    Prog.modify fun s => { s with
      freelist := ld32 s.mem r, calls := s.calls+1, events := .alloc r :: s.events }
    return some r

def kfree (L : Layout) (pa : Nat) : M Unit := do
  if pa % 4096 ≠ 0 ∨ pa < L.kend ∨ 234881024 ≤ pa then
    Prog.stop .kfree
  else
    memset pa 1
    let s ← Prog.get
    store pa s.freelist
    Prog.modify fun s => { s with freelist := pa+2147483648, events := .free pa :: s.events }

def walkpgdir (pgdir va : Nat) (alloc : Bool) : M (Option Nat) := do
  let pde ← load (pgdir + 4 * PDX va)
  if Present pde then
    return some (PTE_ADDR pde + 4 * PTX va)
  else if alloc then
    match ← kalloc with
    | none => return none
    | some pgtab =>
      memset pgtab 0
      store (pgdir + 4 * PDX va) (pgtab ||| 7)
      return some (pgtab + 4 * PTX va)
  else
    return none

-- At most 2^20 pages lie between a and last, so the fuel is never used up.
def mapLoop (pgdir last perm : Nat) : Nat → Nat → Nat → M Bool
  | 0, _, _ => return true
  | fuel+1, a, pa => do
    match ← walkpgdir pgdir a true with
    | none => return false
    | some pte =>
      if Present (← load pte) then
        Prog.stop .remap
      else
        store pte (pa ||| perm ||| 1)
        if a = last then return true
        else mapLoop pgdir last perm fuel (w32 (a+4096)) (w32 (pa+4096))

def mappages (pgdir va size pa perm : Nat) : M Bool :=
  mapLoop pgdir (PGROUNDDOWN (w32 (va+size+4294967295))) perm 1048576 (PGROUNDDOWN va) pa

structure Kmap where
  virt : Nat
  physStart : Nat
  physEnd : Nat
  perm : Nat

def kmap (L : Layout) : List Kmap :=
  [⟨2147483648,0,1048576,2⟩,
   ⟨2148532224,1048576,L.data,0⟩,
   ⟨L.data+2147483648,L.data,234881024,2⟩,
   ⟨4261412864,4261412864,0,2⟩]

def mapAll (pgdir : Nat) : List Kmap → M Bool
  | [] => return true
  | k :: rest => do
    if ← mappages pgdir k.virt (w32 (k.physEnd + 4294967296 - k.physStart)) k.physStart k.perm then
      mapAll pgdir rest
    else
      return false

-- The check of PHYSTOP against DEVSPACE is on constants and never fires.
def setupkvm (L : Layout) : M (Option Nat) := do
  match ← kalloc with
  | none => return none
  | some pgdir =>
    memset pgdir 0
    if ← mapAll pgdir (kmap L) then return some pgdir
    else return none

def deallocLoop (L : Layout) (pgdir oldsz : Nat) : Nat → Nat → M Unit
  | 0, _ => return ()
  | fuel+1, a => do
    if a < oldsz then
      match ← walkpgdir pgdir a false with
      | none => deallocLoop L pgdir oldsz fuel (w32 (a + 1023*4096 + 4096))
      | some pte =>
        let w ← load pte
        if Present w then
          if PTE_ADDR w = 0 then
            Prog.stop .kfree
          else
            kfree L (PTE_ADDR w)
            store pte 0
            deallocLoop L pgdir oldsz fuel (w32 (a+4096))
        else
          deallocLoop L pgdir oldsz fuel (w32 (a+4096))
    else
      return ()

def deallocuvm (L : Layout) (pgdir oldsz newsz : Nat) : M Nat := do
  if oldsz ≤ newsz then
    return oldsz
  else
    deallocLoop L pgdir oldsz 1048576 (PGROUNDUP newsz)
    return newsz

-- The source does not look at what mappages answers: both branches go on alike.
def allocLoop (L : Layout) (pgdir oldsz newsz : Nat) : Nat → Nat → M Nat
  | 0, _ => return newsz
  | fuel+1, a => do
    if a < newsz then
      match ← kalloc with
      | none =>
        let _ ← deallocuvm L pgdir newsz oldsz
        return 0
      | some mem =>
        Prog.modify fun s => { s with grown := mem :: s.grown }
        memset mem 0
        if ← mappages pgdir a 4096 mem 6 then
          allocLoop L pgdir oldsz newsz fuel (w32 (a+4096))
        else
          Prog.modify fun s => { s with unmapped := mem :: s.unmapped }
          allocLoop L pgdir oldsz newsz fuel (w32 (a+4096))
    else
      return newsz

def allocuvm (L : Layout) (pgdir oldsz newsz : Nat) : M Nat := do
  if 2147483648 ≤ newsz then
    return 0
  else if newsz < oldsz then
    return oldsz
  else
    allocLoop L pgdir oldsz newsz 1048576 (PGROUNDUP oldsz)

def freeTables (L : Layout) (pgdir : Nat) : Nat → M Unit
  | 0 => return ()
  | left+1 => do
    let pde ← load (pgdir + 4 * (1023-left))
    if Present pde then
      kfree L (PTE_ADDR pde)
      freeTables L pgdir left
    else
      freeTables L pgdir left

def freevm (L : Layout) (pgdir : Nat) : M Unit := do
  if pgdir = 0 then
    Prog.stop .freevm
  else
    let _ ← deallocuvm L pgdir 2147483648 0
    freeTables L pgdir 1024
    kfree L pgdir

def clearpteu (pgdir uva : Nat) : M Unit := do
  match ← walkpgdir pgdir uva false with
  | none => Prog.stop .clearpteu
  | some pte =>
    let w ← load pte
    store pte (if UserBit w then w-4 else w)

def inituvm (pgdir : Nat) (code : List UInt8) : M Unit := do
  if 4096 ≤ code.length then
    Prog.stop .inituvm
  else
    match ← kalloc with
    -- memset on a null page: nothing is mapped at address 0 at that time.
    | none => Prog.stop .inituvmKalloc
    | some mem =>
      memset mem 0
      let _ ← mappages pgdir 0 4096 mem 6
      Prog.modify fun s => { s with mem := copy s.mem mem code.length fun i => code.getD i 0 }

def copyLoop (L : Layout) (pgdir d sz : Nat) : Nat → Nat → M (Option Nat)
  | 0, _ => return some d
  | fuel+1, i => do
    if i < sz then
      match ← walkpgdir pgdir i false with
      | none => Prog.stop .copyuvmPte
      | some pte =>
        let w ← load pte
        if Present w then
          match ← kalloc with
          | none =>
            freevm L d
            return none
          | some mem =>
            Prog.modify fun s => { s with mem := copy s.mem mem 4096 fun o => s.mem (PTE_ADDR w + o) }
            if ← mappages d i 4096 mem (PTE_FLAGS w) then
              copyLoop L pgdir d sz fuel (w32 (i+4096))
            else
              -- the page just taken is mapped nowhere and is not given back
              freevm L d
              return none
        else
          Prog.stop .copyuvmPage
    else
      return some d

def copyuvm (L : Layout) (pgdir sz : Nat) : M (Option Nat) := do
  match ← setupkvm L with
  | none => return none
  | some d => copyLoop L pgdir d sz 1048576 0

-- The page that the kernel address p2v(pa) stands for while pgdir is loaded:
-- memory below PHYSTOP (text is read only), the devices, or, where the sum with
-- KERNBASE wraps, user memory of the process that runs.
def kernelPage (L : Layout) (m : Bytes.Store) (pgdir pa : Nat) : Option Nat :=
  if pa < 2147483648 then
    if pa < 234881024 ∧ ¬ (1048576 ≤ pa ∧ pa < L.data) then some pa
    else if 2113929216 ≤ pa then some (pa+2147483648)
    else none
  else
    let pde := ld32 m (pgdir + 4 * PDX (pa-2147483648))
    let pte := ld32 m (PTE_ADDR pde + 4 * PTX (pa-2147483648))
    if Present pde ∧ Present pte ∧ Writable pte then some (PTE_ADDR pte) else none

-- memmove of n bytes to p2v(pa)+o, inside one page; answers the page written.
def kmove (L : Layout) (cur pa o n : Nat) (src : Bytes.Store) : M Nat := do
  match kernelPage L (← Prog.get).mem cur pa with
  | none => Prog.stop .pageFault
  | some page =>
    Prog.modify fun s => { s with mem := copy s.mem (page+o) n src }
    return page

-- The word at user address 0, which is what a null pte is dereferenced to.
def nullWord (cur : Nat) : M Nat := do
  let pde ← load cur
  let pte ← load (PTE_ADDR pde)
  if Present pde ∧ Present pte then load (PTE_ADDR pte) else Prog.stop .pageFault

-- *walkpgdir(pgdir, uva, 0), without a test for the null pointer.
def derefPte (cur pgdir uva : Nat) : M Nat := do
  match ← walkpgdir pgdir uva false with
  | none => nullWord cur
  | some pte => load pte

def uva2ka (cur pgdir uva : Nat) : M (Option Nat) := do
  let w ← derefPte cur pgdir uva
  if ¬ Present w then return none
  else if ¬ UserBit w then return none
  else if PTE_ADDR w = 2147483648 then return none
  else return some (PTE_ADDR w)

def copyoutLoop (L : Layout) (cur pgdir : Nat) : Nat → Nat → List UInt8 → M Bool
  | 0, _, _ => return true
  | fuel+1, va, bytes => do
    if bytes.length = 0 then
      return true
    else
      let va0 := PGROUNDDOWN va
      match ← uva2ka cur pgdir va0 with
      | none => return false
      | some pa0 =>
        let n := min (4096 - (va-va0)) bytes.length
        let _ ← kmove L cur pa0 (va-va0) n fun i => bytes.getD i 0
        copyoutLoop L cur pgdir fuel (w32 (va0+4096)) (bytes.drop n)

def copyout (L : Layout) (cur pgdir va : Nat) (bytes : List UInt8) : M Bool :=
  copyoutLoop L cur pgdir bytes.length va bytes

-- The contents of the inode that exec reads, as readi of fs.c gives them.
structure File where
  size : Nat
  byte : Bytes.Store

def File.readi (f : File) (off n : Nat) : Option Nat :=
  if f.size < off ∨ w32 (off+n) < off then none
  else if f.size < w32 (off+n) then some (f.size-off)
  else some n

def loadLoop (L : Layout) (cur pgdir addr : Nat) (f : File) (offset sz : Nat) : Nat → Nat → M Bool
  | 0, _ => return true
  | fuel+1, i => do
    if i < sz then
      match ← walkpgdir pgdir (w32 (addr+i)) false with
      | none => Prog.stop .loaduvmExist
      | some pte =>
        let pa := PTE_ADDR (← load pte)
        let n := min (sz-i) 4096
        match f.readi (w32 (offset+i)) n with
        | none => return false
        | some 0 => return false
        | some (more+1) =>
          let page ← kmove L cur pa 0 (more+1) fun t => f.byte (w32 (offset+i) + t)
          Prog.modify fun s => { s with loaded := page :: s.loaded }
          if more+1 = n then loadLoop L cur pgdir addr f offset sz fuel (w32 (i+4096))
          else return false
    else
      return true

def loaduvm (L : Layout) (cur pgdir addr : Nat) (f : File) (offset sz : Nat) : M Bool := do
  if addr % 4096 ≠ 0 then
    Prog.stop .loaduvmAligned
  else
    loadLoop L cur pgdir addr f offset sz 1048576 0

end Xv6.Vm
