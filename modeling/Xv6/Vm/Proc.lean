import Xv6.Vm.Exec

namespace Xv6.Vm
open Bytes Exec

-- Processes and the calls that move pages (proc.c, exec.c, pipe.c, sysproc.c,
-- sysfile.c, main.c). A call runs to its end without being interleaved; what the
-- calls do to inodes and to the registers other than eip and esp is left out.

inductive Procstate where
  | unused | embryo | sleeping | runnable | running | zombie
  deriving DecidableEq, Repr

structure Proc where
  state : Procstate
  pid : Nat
  parent : Option Nat
  killed : Bool
  pgdir : Nat
  kstack : Nat
  sz : Nat
  eip : Nat
  esp : Nat
  ofile : Nat → Option Nat

inductive FdType where
  | none | pipe | inode
  deriving DecidableEq, Repr

structure FileObj where
  type : FdType
  ref : Nat
  writable : Bool
  pipe : Nat

-- The two flags of struct pipe; the rest of it stays in its page.
structure Ends where
  readopen : Bool
  writeopen : Bool

structure System where
  vm : Machine
  kpgdir : Nat
  procs : Nat → Proc
  initproc : Nat
  nextpid : Nat
  files : Nat → FileObj
  pipes : Nat → Option Ends

abbrev K := Prog System Panic

def onVm (m : M α) : K α := fun s =>
  match m s.vm with
  | (.ok a,vm) => (.ok a,{ s with vm := vm })
  | (.error e,vm) => (.error e,{ s with vm := vm })

def setProc (i : Nat) (f : Proc → Proc) : K Unit :=
  Prog.modify fun s => { s with procs := Function.update s.procs i (f (s.procs i)) }

def setFile (j : Nat) (f : FileObj → FileObj) : K Unit :=
  Prog.modify fun s => { s with files := Function.update s.files j (f (s.files j)) }

def firstBelow (n : Nat) (test : Nat → Bool) : Option Nat := (List.range n).find? test

def filealloc : K (Option Nat) := do
  let s ← Prog.get
  match firstBelow 100 fun j => (s.files j).ref = 0 with
  | none => return none
  | some j =>
    setFile j fun f => { f with ref := 1 }
    return some j

def filedup (j : Nat) : K Unit := do
  if ((← Prog.get).files j).ref < 1 then Prog.stop .filedup
  else setFile j fun f => { f with ref := f.ref+1 }

def pipeclose (L : Layout) (p : Nat) (writable : Bool) : K Unit := do
  match (← Prog.get).pipes p with
  -- a pipe that is gone: its page would be read after it was freed
  | none => Prog.stop .pageFault
  | some ends =>
    let ends : Ends := if writable then { ends with writeopen := false } else { ends with readopen := false }
    if ends.readopen = false ∧ ends.writeopen = false then
      Prog.modify fun s => { s with pipes := Function.update s.pipes p none }
      onVm (kfree L p)
    else
      Prog.modify fun s => { s with pipes := Function.update s.pipes p (some ends) }

def fileclose (L : Layout) (j : Nat) : K Unit := do
  let f := (← Prog.get).files j
  if f.ref < 1 then
    Prog.stop .fileclose
  else if 0 < f.ref-1 then
    setFile j fun f => { f with ref := f.ref-1 }
  else
    setFile j fun f => { f with ref := 0, type := .none }
    match f.type with
    | .pipe => pipeclose L f.pipe f.writable
    | _ => return ()

def pipealloc (L : Layout) : K (Option (Nat × Nat)) := do
  match ← filealloc with
  | none => return none
  | some f0 =>
    match ← filealloc with
    | none =>
      fileclose L f0
      return none
    | some f1 =>
      match ← onVm kalloc with
      | none =>
        fileclose L f0
        fileclose L f1
        return none
      | some p =>
        Prog.modify fun s => { s with pipes := Function.update s.pipes p (some ⟨true,true⟩) }
        setFile f0 fun f => { f with type := .pipe, writable := false, pipe := p }
        setFile f1 fun f => { f with type := .pipe, writable := true, pipe := p }
        return some (f0,f1)

def fdalloc (p j : Nat) : K (Option Nat) := do
  let s ← Prog.get
  match firstBelow 16 fun fd => (s.procs p).ofile fd = none with
  | none => return none
  | some fd =>
    setProc p fun proc => { proc with ofile := Function.update proc.ofile fd (some j) }
    return some fd

-- A store by the kernel or the user through the page table of the process.
def poke1 (user : Bool) (pgdir va : Nat) (b : UInt8) : M Unit := do
  match ← walkpgdir pgdir va false with
  | none => Prog.stop .pageFault
  | some pte =>
    let w ← load pte
    if Present w ∧ Writable w ∧ (user = true → UserBit w) then
      Prog.modify fun s => { s with mem := copy s.mem (PTE_ADDR w + va%4096) 1 fun _ => b }
    else
      Prog.stop .pageFault

def pokeAll (pgdir : Nat) : Nat → List UInt8 → M Unit
  | _, [] => return ()
  | va, b :: rest => do
    poke1 false pgdir va b
    pokeAll pgdir (w32 (va+1)) rest

def sysPipe (L : Layout) (p fd : Nat) : K Int := do
  let proc := (← Prog.get).procs p
  if proc.sz ≤ fd ∨ proc.sz < w32 (fd+8) then
    return -1
  else
    match ← pipealloc L with
    | none => return -1
    | some (rf,wf) =>
      match ← fdalloc p rf with
      | none =>
        fileclose L rf
        fileclose L wf
        return -1
      | some fd0 =>
        match ← fdalloc p wf with
        | none =>
          setProc p fun proc => { proc with ofile := Function.update proc.ofile fd0 none }
          fileclose L rf
          fileclose L wf
          return -1
        | some fd1 =>
          onVm (pokeAll proc.pgdir fd (wordBytes fd0 ++ wordBytes fd1))
          return 0

def allocproc : K (Option Nat) := do
  let s ← Prog.get
  match firstBelow 64 fun i => (s.procs i).state = .unused with
  | none => return none
  | some i =>
    Prog.modify fun s => { s with nextpid := s.nextpid+1 }
    setProc i fun proc => { proc with state := .embryo, pid := s.nextpid }
    match ← onVm kalloc with
    | none =>
      setProc i fun proc => { proc with state := .unused, kstack := 0 }
      return none
    | some k =>
      setProc i fun proc => { proc with kstack := k }
      return some i

def dupFiles (np : Nat) (ofile : Nat → Option Nat) : List Nat → K Unit
  | [] => return ()
  | fd :: rest => do
    match ofile fd with
    | none => dupFiles np ofile rest
    | some j =>
      filedup j
      setProc np fun proc => { proc with ofile := Function.update proc.ofile fd (some j) }
      dupFiles np ofile rest

def fork (L : Layout) (p : Nat) : K Int := do
  match ← allocproc with
  | none => return -1
  | some np =>
    let proc := (← Prog.get).procs p
    match ← onVm (copyuvm L proc.pgdir proc.sz) with
    | none =>
      onVm (kfree L ((← Prog.get).procs np).kstack)
      setProc np fun child => { child with pgdir := 0, kstack := 0, state := .unused }
      return -1
    | some d =>
      setProc np fun child => { child with pgdir := d, sz := proc.sz, parent := some p, eip := proc.eip, esp := proc.esp }
      dupFiles np proc.ofile (List.range 16)
      setProc np fun child => { child with state := .runnable }
      return ((← Prog.get).procs np).pid

-- Only its check is modelled: the registers it loads are the process's own.
def switchuvm (p : Nat) : K Unit := do
  if ((← Prog.get).procs p).pgdir = 0 then Prog.stop .switchuvm
  else return ()

-- n is the argument of sbrk, a signed word.
def growproc (L : Layout) (p : Nat) (n : Int) : K Int := do
  let proc := (← Prog.get).procs p
  let target := ((proc.sz : Int) + n).emod 4294967296 |>.toNat
  if 0 < n then
    let sz ← onVm (allocuvm L proc.pgdir proc.sz target)
    if sz = 0 then return -1
    else
      setProc p fun proc => { proc with sz := sz }
      switchuvm p
      return 0
  else if n < 0 then
    let sz ← onVm (deallocuvm L proc.pgdir proc.sz target)
    if sz = 0 then return -1
    else
      setProc p fun proc => { proc with sz := sz }
      switchuvm p
      return 0
  else
    switchuvm p
    return 0

def sysSbrk (L : Layout) (p : Nat) (n : Int) : K Int := do
  let addr := ((← Prog.get).procs p).sz
  if (← growproc L p n) < 0 then return -1
  else return addr

def closeFiles (L : Layout) (p : Nat) : List Nat → K Unit
  | [] => return ()
  | fd :: rest => do
    match ((← Prog.get).procs p).ofile fd with
    | none => closeFiles L p rest
    | some j =>
      fileclose L j
      setProc p fun proc => { proc with ofile := Function.update proc.ofile fd none }
      closeFiles L p rest

def exit (L : Layout) (p : Nat) : K Unit := do
  if p = (← Prog.get).initproc then
    Prog.stop .initExiting
  else
    closeFiles L p (List.range 16)
    -- children pass to init
    Prog.modify fun s => { s with procs := fun i =>
      if i < 64 ∧ (s.procs i).parent = some p then { s.procs i with parent := some s.initproc } else s.procs i }
    setProc p fun proc => { proc with state := .zombie }

def wait (L : Layout) (p : Nat) : K (Option Int) := do
  let s ← Prog.get
  match firstBelow 64 fun i => (s.procs i).parent = some p ∧ (s.procs i).state = .zombie with
  | some i =>
    onVm (kfree L (s.procs i).kstack)
    onVm (freevm L (s.procs i).pgdir)
    setProc i fun proc => { proc with kstack := 0, state := .unused, pid := 0, parent := none, killed := false }
    return some (s.procs i).pid
  | none =>
    if (firstBelow 64 fun i => (s.procs i).parent = some p) = none ∨ (s.procs p).killed then return some (-1)
    else return none

def exec (L : Layout) (p : Nat) (f : Option File) (argv : List (List UInt8)) : K Int := do
  match f with
  | none => return -1
  | some f =>
    let old := ((← Prog.get).procs p).pgdir
    match ← onVm (execImage L old f argv) with
    | none => return -1
    | some image =>
      setProc p fun proc => { proc with pgdir := image.pgdir, sz := image.sz, eip := image.eip, esp := image.esp }
      switchuvm p
      onVm (freevm L old)
      return 0

-- kinit1 and kinit2 hand the pages from a on to kfree.
def freerange (L : Layout) (vend : Nat) : Nat → Nat → M Unit
  | 0, _ => return ()
  | fuel+1, p => do
    if p+4096 ≤ vend then
      kfree L p
      freerange L vend fuel (p+4096)
    else
      return ()

def userinit (L : Layout) (code : List UInt8) : K Unit := do
  match ← allocproc with
  -- a null process is dereferenced
  | none => Prog.stop .pageFault
  | some i =>
    Prog.modify fun s => { s with initproc := i }
    match ← onVm (setupkvm L) with
    | none => Prog.stop .userinit
    | some d =>
      setProc i fun proc => { proc with pgdir := d }
      onVm (inituvm d code)
      setProc i fun proc => { proc with sz := 4096, esp := 4096, eip := 0, state := .runnable }

-- main: memory, the kernel's own page table, the first process. The tables start
-- out zeroed.
def main (L : Layout) (code : List UInt8) : K Unit := do
  onVm (freerange L 4194304 57344 (PGROUNDUP L.kend))
  match ← onVm (setupkvm L) with
  -- kvmalloc would load a null directory
  | none => Prog.stop .pageFault
  | some d =>
    Prog.modify fun s => { s with kpgdir := d }
    onVm (freerange L 234881024 57344 4194304)
    userinit L code

def zeroProc : Proc := ⟨.unused,0,none,false,0,0,0,0,0,fun _ => none⟩

def powerOn (mem : Bytes.Store) (fails : Nat → Bool) : System :=
  ⟨⟨mem,0,fails,0,[],[],[],[]⟩,0,fun _ => zeroProc,0,1,fun _ => ⟨.none,0,false,0⟩,fun _ => none⟩

inductive Call where
  | fork
  | exec (f : Option File) (argv : List (List UInt8))
  | sbrk (n : Int)
  | pipe (fd : Nat)
  | exit
  | wait
  -- the user's code stores a byte
  | store (va : Nat) (b : UInt8)

def run (L : Layout) (p : Nat) : Call → K Unit
  | .fork => do let _ ← fork L p
  | .exec f argv => do let _ ← exec L p f argv
  | .sbrk n => do let _ ← sysSbrk L p n
  | .pipe fd => do let _ ← sysPipe L p fd
  | .exit => exit L p
  | .wait => do let _ ← wait L p
  | .store va b => do
    let pgdir := ((← Prog.get).procs p).pgdir
    onVm (poke1 true pgdir (w32 va) b)

end Xv6.Vm
