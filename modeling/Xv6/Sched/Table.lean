import Mathlib.Algebra.GroupWithZero.Nat
import Xv6.Lib.Runs
import Xv6.Vm.Proc
import Mathlib.Data.List.Induction

namespace Xv6.Sched
open Vm (Procstate)

-- The process table (proc.c) with its calls cut where ptable.lock is free: each
-- section that holds the lock is one step, and so is each store that fork and
-- allocproc make to a slot without it. The kernel stack, the page directory and the
-- open files of a slot are left out.

abbrev ProcPtr := Fin 64

instance nproc_pos : NeZero 64 := ⟨by decide⟩

inductive Chan where
  | proc (p : ProcPtr)
  | other (address : Nat)
  deriving DecidableEq

structure Slot where
  state : Procstate
  pid : Nat
  parent : Option ProcPtr
  chan : Option Chan
  killed : Bool
  deriving DecidableEq

-- How far a process is in the calls that take more than one step: in fork after
-- allocproc took np, in fork after np->parent was set, in wait after the first scan.
inductive Place where
  | outside
  | forking (np : ProcPtr)
  | linked (np : ProcPtr)
  | waiting
  deriving DecidableEq

structure Ptable where
  proc : ProcPtr → Slot
  place : ProcPtr → Place
  nextpid : Nat
  initproc : ProcPtr

def firstProc (test : ProcPtr → Bool) : Option ProcPtr := (List.finRange 64).find? test

theorem firstProc_some {test : ProcPtr → Bool} (found : firstProc test = some i) : test i = true :=
  List.find?_some found

theorem firstProc_none {test : ProcPtr → Bool} (missing : firstProc test = none) (i : ProcPtr) : test i = false := by
  have all := List.find?_eq_none.mp missing i (List.mem_finRange i)
  simpa using all

namespace Ptable

def setSlot (s : Ptable) (i : ProcPtr) (f : Slot → Slot) : Ptable :=
  { s with proc := Function.update s.proc i (f (s.proc i)) }

def setPlace (s : Ptable) (p : ProcPtr) (place : Place) : Ptable :=
  { s with place := Function.update s.place p place }

-- A channel of none is the null address, on which nobody sleeps.
def wakeup1 (s : Ptable) (chan : Option Chan) : Ptable :=
  { s with proc := fun i =>
      if (s.proc i).state = .sleeping ∧ (s.proc i).chan = chan then { s.proc i with state := .runnable } else s.proc i }

def sleep (s : Ptable) (p : ProcPtr) (chan : Chan) : Ptable :=
  s.setSlot p fun slot => { slot with chan := some chan, state := .sleeping }

def firstUnused (s : Ptable) : Option ProcPtr := firstProc fun i => (s.proc i).state = .unused

-- nextpid is an int: its bits wrap at 2^32.
def allocproc (s : Ptable) (np : ProcPtr) : Ptable :=
  { s.setSlot np fun slot => { slot with state := .embryo, pid := s.nextpid } with nextpid := (s.nextpid+1) % 4294967296 }

def abandon (p : ProcPtr) (s : Ptable) (i : ProcPtr) : Ptable :=
  if (s.proc i).parent = some p then
    let passed := s.setSlot i fun slot => { slot with parent := some s.initproc }
    if (s.proc i).state = .zombie then passed.wakeup1 (some (.proc s.initproc)) else passed
  else s

def exit (s : Ptable) (p : ProcPtr) : Ptable :=
  ((List.finRange 64).foldl (abandon p) (s.wakeup1 ((s.proc p).parent.map .proc))).setSlot p
    fun slot => { slot with state := .zombie }

def zombieChild (s : Ptable) (p : ProcPtr) : Option ProcPtr :=
  firstProc fun i => (s.proc i).parent = some p ∧ (s.proc i).state = .zombie

def havekids (s : Ptable) (p : ProcPtr) : Bool := (firstProc fun i => (s.proc i).parent = some p).isSome

def reap (s : Ptable) (i : ProcPtr) : Ptable :=
  s.setSlot i fun slot => { slot with state := .unused, pid := 0, parent := none, killed := false }

-- The slot that kill stops at, and its two stores there.
def target (s : Ptable) (pid : Nat) : Option ProcPtr := firstProc fun i => (s.proc i).pid = pid

def kill (s : Ptable) (pid : Nat) : Ptable × Int :=
  match s.target pid with
  | none => (s,-1)
  | some i =>
    (s.setSlot i fun slot =>
      { slot with killed := true, state := if slot.state = .sleeping then .runnable else slot.state },0)

end Ptable

namespace Ptable
variable {s : Ptable}

@[simp, grind =] theorem setSlot_proc (s : Ptable) (i j : ProcPtr) (f : Slot → Slot) :
    (s.setSlot i f).proc j = if j = i then f (s.proc i) else s.proc j := by
  simp only [setSlot,Function.update_apply]

@[simp, grind =] theorem setSlot_place (s : Ptable) (i p : ProcPtr) (f : Slot → Slot) :
    (s.setSlot i f).place p = s.place p := rfl
@[simp, grind =] theorem setSlot_nextpid (s : Ptable) (i : ProcPtr) (f : Slot → Slot) :
    (s.setSlot i f).nextpid = s.nextpid := rfl
@[simp, grind =] theorem setSlot_initproc (s : Ptable) (i : ProcPtr) (f : Slot → Slot) :
    (s.setSlot i f).initproc = s.initproc := rfl

@[simp, grind =] theorem setPlace_place (s : Ptable) (p q : ProcPtr) (place : Place) :
    (s.setPlace p place).place q = if q = p then place else s.place q := by
  simp only [setPlace,Function.update_apply]

@[simp, grind =] theorem setPlace_proc (s : Ptable) (p i : ProcPtr) (place : Place) :
    (s.setPlace p place).proc i = s.proc i := rfl
@[simp, grind =] theorem setPlace_nextpid (s : Ptable) (p : ProcPtr) (place : Place) :
    (s.setPlace p place).nextpid = s.nextpid := rfl
@[simp, grind =] theorem setPlace_initproc (s : Ptable) (p : ProcPtr) (place : Place) :
    (s.setPlace p place).initproc = s.initproc := rfl

@[grind =] theorem wakeup1_proc (s : Ptable) (chan : Option Chan) (i : ProcPtr) : (s.wakeup1 chan).proc i =
    if (s.proc i).state = .sleeping ∧ (s.proc i).chan = chan then { s.proc i with state := .runnable } else s.proc i := rfl
@[simp, grind =] theorem wakeup1_place (s : Ptable) (chan : Option Chan) (p : ProcPtr) :
    (s.wakeup1 chan).place p = s.place p := rfl
@[simp, grind =] theorem wakeup1_nextpid (s : Ptable) (chan : Option Chan) : (s.wakeup1 chan).nextpid = s.nextpid := rfl
@[simp, grind =] theorem wakeup1_initproc (s : Ptable) (chan : Option Chan) : (s.wakeup1 chan).initproc = s.initproc := rfl

@[simp, grind =] theorem allocproc_proc (s : Ptable) (np i : ProcPtr) : (s.allocproc np).proc i =
    if i = np then { s.proc np with state := .embryo, pid := s.nextpid } else s.proc i := by
  simp only [allocproc,setSlot,Function.update_apply]
@[simp, grind =] theorem allocproc_place (s : Ptable) (np p : ProcPtr) : (s.allocproc np).place p = s.place p := rfl
@[simp, grind =] theorem allocproc_nextpid (s : Ptable) (np : ProcPtr) :
    (s.allocproc np).nextpid = (s.nextpid+1) % 4294967296 := rfl
@[simp, grind =] theorem allocproc_initproc (s : Ptable) (np : ProcPtr) : (s.allocproc np).initproc = s.initproc := rfl

theorem wakeup1_heard (asleep : ((s.wakeup1 chan).proc q).state = .sleeping) : (s.proc q).chan ≠ chan := by
  grind -linarith

-- What the loop of exit leaves of a table once it has passed the given slots: states
-- move from SLEEPING to RUNNABLE only, and init has been told of dead children.
structure Passed (p : ProcPtr) (seen : ProcPtr → Prop) (s t : Ptable) : Prop where
  pid : ∀ i, (t.proc i).pid = (s.proc i).pid
  chan : ∀ i, (t.proc i).chan = (s.proc i).chan
  killed : ∀ i, (t.proc i).killed = (s.proc i).killed
  state : ∀ i, (t.proc i).state = (s.proc i).state ∨ (s.proc i).state = .sleeping ∧ (t.proc i).state = .runnable
  moved : ∀ i, seen i → (s.proc i).parent = some p → (t.proc i).parent = some s.initproc
  kept : ∀ i, ¬ seen i ∨ (s.proc i).parent ≠ some p → (t.proc i).parent = (s.proc i).parent
  told : ∀ i q, seen i → (s.proc i).parent = some p → (s.proc i).state = .zombie → (t.proc q).state = .sleeping →
    (s.proc q).chan ≠ some (.proc s.initproc)
  place : ∀ p, t.place p = s.place p
  nextpid : t.nextpid = s.nextpid
  initproc : t.initproc = s.initproc

theorem Passed.refl (p : ProcPtr) (s : Ptable) : Passed p (fun _ => False) s s := by
  constructor <;> grind -linarith

theorem abandon_passed {p : ProcPtr} {seen : ProcPtr → Prop} (passed : Passed p seen s t) (i : ProcPtr) :
    Passed p (fun j => seen j ∨ j = i) s (abandon p t i) := by
  obtain ⟨pid,chan,killed,state,moved,kept,told,place,nextpid,initproc⟩ := passed
  unfold abandon
  split
  · split <;> constructor <;> grind -linarith
  · constructor <;> grind -linarith

theorem abandonAll_passed (p : ProcPtr) (s : Ptable) (slots : List ProcPtr) :
    Passed p (· ∈ slots) s (slots.foldl (abandon p) s) := by
  induction slots using List.reverseRecOn with
  | nil => simpa using Passed.refl p s
  | append_singleton slots i ih => simpa [List.foldl_append] using abandon_passed ih i

structure Exited (p : ProcPtr) (s t : Ptable) : Prop where
  pid : ∀ i, (t.proc i).pid = (s.proc i).pid
  chan : ∀ i, (t.proc i).chan = (s.proc i).chan
  killed : ∀ i, (t.proc i).killed = (s.proc i).killed
  dead : (t.proc p).state = .zombie
  state : ∀ i, i ≠ p → (t.proc i).state = (s.proc i).state ∨ (s.proc i).state = .sleeping ∧ (t.proc i).state = .runnable
  parent : ∀ i, (t.proc i).parent = if (s.proc i).parent = some p then some s.initproc else (s.proc i).parent
  reported : ∀ q, (s.proc p).parent = some q → (t.proc q).state = .sleeping → (s.proc q).chan ≠ some (.proc q)
  told : ∀ i q, (s.proc i).parent = some p → (s.proc i).state = .zombie → (t.proc q).state = .sleeping →
    (s.proc q).chan ≠ some (.proc s.initproc)
  place : ∀ p, t.place p = s.place p
  nextpid : t.nextpid = s.nextpid
  initproc : t.initproc = s.initproc

theorem exit_spec (s : Ptable) (p : ProcPtr) : Exited p s (s.exit p) := by
  have woken : ∀ q, (s.proc p).parent = some q → ∀ r, ((s.wakeup1 ((s.proc p).parent.map .proc)).proc r).state = .sleeping →
      (s.proc r).chan ≠ some (.proc q) := by
    intro q child r asleep
    have unheard := wakeup1_heard asleep
    simpa [child] using unheard
  obtain ⟨pid,chan,killed,state,moved,kept,told,place,nextpid,initproc⟩ :=
    abandonAll_passed p (s.wakeup1 ((s.proc p).parent.map .proc)) (List.finRange 64)
  unfold exit
  generalize (List.finRange 64).foldl (abandon p) (s.wakeup1 ((s.proc p).parent.map .proc)) = t at *
  constructor <;> grind -linarith

end Ptable

-- The steps by the process that makes them, with what its call returns; forked,
-- exited and waited carry pids.
inductive Event where
  | schedule (p : ProcPtr) | yield (p : ProcPtr)
  | sleep (p : ProcPtr) (chan : Chan) | wakeup (chan : Chan)
  | forkFull (p : ProcPtr) | forkTake (p np : ProcPtr) | forkFail (p np : ProcPtr) | forkLink (p np : ProcPtr)
  | forked (p np : ProcPtr) (parent child : Nat)
  | exited (p : ProcPtr) (pid : Nat)
  | waited (p : ProcPtr) (pid : Nat) | waitFail (p : ProcPtr) | waitSleep (p : ProcPtr)
  | kill (p : ProcPtr) (pid : Nat) (result : Int)
  deriving DecidableEq

def Ptable.At (s : Ptable) (p : ProcPtr) (place : Place) : Prop := (s.proc p).state = .running ∧ s.place p = place

def Ptable.Scans (s : Ptable) (p : ProcPtr) : Prop := s.At p .outside ∨ s.At p .waiting

inductive Step : Ptable → Event → Ptable → Prop where
  | schedule : (s.proc p).state = .runnable → Step s (.schedule p) (s.setSlot p fun slot => { slot with state := .running })
  | yield : (s.proc p).state = .running → Step s (.yield p) (s.setSlot p fun slot => { slot with state := .runnable })
  -- The other calls of the kernel sleep and wake up as they like.
  | sleep : s.At p .outside → Step s (.sleep p chan) (s.sleep p chan)
  | wakeup : Step s (.wakeup chan) (s.wakeup1 (some chan))
  | forkFull : s.At p .outside → s.firstUnused = none → Step s (.forkFull p) s
  | forkTake : s.At p .outside → s.firstUnused = some np →
      Step s (.forkTake p np) ((s.allocproc np).setPlace p (.forking np))
  -- kalloc or copyuvm has failed.
  | forkFail : s.At p (.forking np) →
      Step s (.forkFail p np) ((s.setSlot np fun slot => { slot with state := .unused }).setPlace p .outside)
  | forkLink : s.At p (.forking np) →
      Step s (.forkLink p np) ((s.setSlot np fun slot => { slot with parent := some p }).setPlace p (.linked np))
  | forked : s.At p (.linked np) →
      Step s (.forked p np (s.proc p).pid (s.proc np).pid)
        ((s.setSlot np fun slot => { slot with state := .runnable }).setPlace p .outside)
  -- init panics instead.
  | exited : s.At p .outside → p ≠ s.initproc → Step s (.exited p (s.proc p).pid) (s.exit p)
  -- wait scans when it is called and each time it is woken.
  | waited : s.Scans p → s.zombieChild p = some i →
      Step s (.waited p (s.proc i).pid) ((s.reap i).setPlace p .outside)
  | waitFail : s.Scans p → s.zombieChild p = none →
      s.havekids p = false ∨ (s.proc p).killed = true → Step s (.waitFail p) (s.setPlace p .outside)
  | waitSleep : s.Scans p → s.zombieChild p = none →
      s.havekids p = true → (s.proc p).killed = false → Step s (.waitSleep p) ((s.sleep p (.proc p)).setPlace p .waiting)
  | kill : s.At p .outside → Step s (.kill p pid (s.kill pid).2) (s.kill pid).1

-- After userinit: slot 0 holds initproc, the rest of the table is zero.
def bootSlot : Slot := ⟨.unused,0,none,none,false⟩

def boot : Ptable where
  proc i := if i = 0 then { bootSlot with state := .runnable, pid := 1 } else bootSlot
  place _ := .outside
  nextpid := 2
  initproc := 0

end Xv6.Sched
