import Xv6.Sched.Pair

namespace Xv6.Sched
open Vm (Procstate)

-- The CPUs over the process table: scheduler, sched, the context switches between them
-- and ptable.lock, which one side of a switch takes and the other gives back.

-- Where a CPU is. In locked, leaving and running it executes a process; the lock is
-- held everywhere but in idle and running.
inductive Pos where
  | idle        -- in scheduler, before acquire
  | scan        -- in the loop of scheduler
  | picked      -- proc is set
  | loaded      -- switchuvm is done
  | marked      -- p->state is RUNNING
  | locked      -- in the process, with the lock
  | running     -- in the process, without the lock
  | leaving     -- the process has changed its state and calls sched
  | returned    -- back in scheduler
  | unloaded    -- switchkvm is done
  | interrupt   -- in an interrupt handler that came in idle, with the lock
  deriving DecidableEq

structure Cpu where
  proc : Option ProcPtr
  stack : Option ProcPtr   -- whose kernel stack it runs on, none for that of scheduler
  cr3 : Option ProcPtr     -- whose page directory is loaded, none for kpgdir
  pos : Pos
  cursor : Nat             -- the slot that p of scheduler points to

structure Cores where
  table : Ptable
  cpu : Nat → Cpu
  lock : Option Nat

def Cores.setCpu (s : Cores) (c : Nat) (f : Cpu → Cpu) : Cores := { s with cpu := Function.update s.cpu c (f (s.cpu c)) }

-- Who makes a step of the table, and where: in a section that ends with release, in
-- one that ends in sched, or by a store outside of the lock.
def Event.sectionBy : Event → Option ProcPtr
  | .forkFull p | .forkTake p _ | .waited p _ | .waitFail p | .kill p _ _ => some p
  | _ => none

def Event.leaveBy : Event → Option ProcPtr
  | .yield p | .sleep p _ | .exited p _ | .waitSleep p => some p
  | _ => none

def Event.storeBy : Event → Option ProcPtr
  | .forkFail p _ | .forkLink p _ | .forked p _ _ _ => some p
  | _ => none

inductive Move where
  | acquire (c : Nat) | release (c : Nat)
  | act (c : Nat) (event : Event) | wakeup (c : Nat) (chan : Chan) | leave (c : Nat) (event : Event) | store (c : Nat) (event : Event)
  | swtchOut (c : Nat) | switchkvm (c : Nat) | clear (c : Nat)
  | enter (c : Nat) | pass (c : Nat) | pick (c : Nat) (p : ProcPtr) | switchuvm (c : Nat) | mark (c : Nat) (p : ProcPtr)
  | swtchIn (c : Nat) | done (c : Nat)
  | interrupt (c : Nat) | handled (c : Nat)

inductive CpuStep : Cores → Move → Cores → Prop where
  | acquire : (s.cpu c).pos = .running → s.lock = none →
      CpuStep s (.acquire c) { s.setCpu c fun k => { k with pos := .locked } with lock := some c }
  | release : (s.cpu c).pos = .locked →
      CpuStep s (.release c) { s.setCpu c fun k => { k with pos := .running } with lock := none }
  | act : (s.cpu c).pos = .locked → event.sectionBy = (s.cpu c).stack → Step s.table event next →
      CpuStep s (.act c event) { s with table := next }
  | wakeup : (s.cpu c).pos = .locked ∨ (s.cpu c).pos = .interrupt →
      CpuStep s (.wakeup c chan) { s with table := s.table.wakeup1 (some chan) }
  | leave : (s.cpu c).pos = .locked → event.leaveBy = (s.cpu c).stack → Step s.table event next →
      CpuStep s (.leave c event) { s.setCpu c fun k => { k with pos := .leaving } with table := next }
  | store : (s.cpu c).pos = .running → event.storeBy = (s.cpu c).stack → Step s.table event next →
      CpuStep s (.store c event) { s with table := next }
  | swtchOut : (s.cpu c).pos = .leaving →
      CpuStep s (.swtchOut c) (s.setCpu c fun k => { k with stack := none, pos := .returned })
  | switchkvm : (s.cpu c).pos = .returned → CpuStep s (.switchkvm c) (s.setCpu c fun k => { k with cr3 := none, pos := .unloaded })
  | clear : (s.cpu c).pos = .unloaded →
      CpuStep s (.clear c) (s.setCpu c fun k => { k with proc := none, pos := .scan, cursor := k.cursor+1 })
  | enter : (s.cpu c).pos = .idle → s.lock = none →
      CpuStep s (.enter c) { s.setCpu c fun k => { k with pos := .scan, cursor := 0 } with lock := some c }
  | pass : (s.cpu c).pos = .scan → (s.cpu c).cursor = p.val → (s.table.proc p).state ≠ .runnable →
      CpuStep s (.pass c) (s.setCpu c fun k => { k with cursor := k.cursor+1 })
  | pick : (s.cpu c).pos = .scan → (s.cpu c).cursor = p.val → (s.table.proc p).state = .runnable →
      CpuStep s (.pick c p) (s.setCpu c fun k => { k with proc := some p, pos := .picked })
  | switchuvm : (s.cpu c).pos = .picked → CpuStep s (.switchuvm c) (s.setCpu c fun k => { k with cr3 := k.proc, pos := .loaded })
  | mark : (s.cpu c).pos = .loaded → (s.cpu c).proc = some p →
      CpuStep s (.mark c p) { s.setCpu c fun k => { k with pos := .marked } with
        table := s.table.setSlot p fun slot => { slot with state := .running } }
  | swtchIn : (s.cpu c).pos = .marked → CpuStep s (.swtchIn c) (s.setCpu c fun k => { k with stack := k.proc, pos := .locked })
  | done : (s.cpu c).pos = .scan → (s.cpu c).cursor = 64 →
      CpuStep s (.done c) { s.setCpu c fun k => { k with pos := .idle } with lock := none }
  | interrupt : (s.cpu c).pos = .idle → s.lock = none →
      CpuStep s (.interrupt c) { s.setCpu c fun k => { k with pos := .interrupt } with lock := some c }
  | handled : (s.cpu c).pos = .interrupt →
      CpuStep s (.handled c) { s.setCpu c fun k => { k with pos := .idle } with lock := none }

def coresOn : Cores where
  table := boot
  cpu _ := ⟨none,none,none,.idle,0⟩
  lock := none

def Pos.holds : Pos → Bool
  | .idle | .running => false
  | _ => true

-- What the fields of a CPU are at each position, and the state of its process.
@[grind] def Shape (table : Ptable) (k : Cpu) : Prop :=
  match k.pos with
  | .idle | .interrupt | .scan => k.proc = none ∧ k.stack = none ∧ k.cr3 = none
  | .picked => ∃ p, k.proc = some p ∧ k.stack = none ∧ k.cr3 = none ∧ (table.proc p).state = .runnable
  | .loaded => ∃ p, k.proc = some p ∧ k.stack = none ∧ k.cr3 = some p ∧ (table.proc p).state = .runnable
  | .marked => ∃ p, k.proc = some p ∧ k.stack = none ∧ k.cr3 = some p ∧ (table.proc p).state = .running
  | .locked | .running => ∃ p, k.proc = some p ∧ k.stack = some p ∧ k.cr3 = some p ∧ (table.proc p).state = .running
  | .leaving => ∃ p, k.proc = some p ∧ k.stack = some p ∧ k.cr3 = some p ∧ Off (table.proc p).state
  | .returned => ∃ p, k.proc = some p ∧ k.stack = none ∧ k.cr3 = some p ∧ Off (table.proc p).state
  | .unloaded => ∃ p, k.proc = some p ∧ k.stack = none ∧ k.cr3 = none ∧ Off (table.proc p).state
where
  Off (state : Procstate) : Prop := state = .runnable ∨ state = .sleeping ∨ state = .zombie

structure OneEach (s : Cores) : Prop where
  family : Family s.table
  holder : ∀ c, s.lock = some c ↔ (s.cpu c).pos.holds = true
  shape : ∀ c, Shape s.table (s.cpu c)
  sole : ∀ c d p, (s.cpu c).proc = some p → (s.cpu d).proc = some p → c = d
  covered : ∀ p, (s.table.proc p).state = .running → ∃ c, (s.cpu c).proc = some p

section
variable {s : Cores} {old new : Ptable}

theorem section_running (step : Step old event new) (by_p : event.sectionBy = some p) (q : ProcPtr) :
    (new.proc q).state = .running ↔ (old.proc q).state = .running := by
  cases step with
  | forkFull => rfl
  | forkTake at_call free => have := firstUnused_state free; grind -linarith
  | waited scans found => have := zombieChild_some found; grind -linarith [Ptable.reap]
  | waitFail => rfl
  | kill =>
    unfold Ptable.kill
    split <;> grind -linarith
  | schedule | yield | sleep | wakeup | forkFail | forkLink | forked | exited | waitSleep => cases by_p

theorem leave_running (step : Step old event new) (by_p : event.leaveBy = some p) :
    Shape.Off (new.proc p).state ∧ ∀ q, q ≠ p → ((new.proc q).state = .running ↔ (old.proc q).state = .running) := by
  cases step with
  | yield => cases by_p; grind -linarith [Shape.Off]
  | sleep => cases by_p; grind -linarith [Shape.Off,Ptable.sleep]
  | exited =>
    cases by_p
    obtain ⟨_,_,_,dead,state,_⟩ := old.exit_spec p
    grind -linarith [Shape.Off]
  | waitSleep => cases by_p; grind -linarith [Shape.Off,Ptable.sleep]
  | schedule | wakeup | forkFull | forkTake | forkFail | forkLink | forked | waited | waitFail | kill => cases by_p

theorem store_states (family : Family old) (step : Step old event new) (by_p : event.storeBy = some p) (q : ProcPtr) :
    (new.proc q).state = (old.proc q).state ∨ (old.proc q).state = .embryo ∧ (new.proc q).state ≠ .running := by
  cases step with
  | forkFail at_call => have := family.making; grind -linarith [Ptable.At]
  | forkLink at_call => grind -linarith
  | forked at_call => have := family.made; grind -linarith [Ptable.At]
  | schedule | yield | sleep | wakeup | forkFull | forkTake | exited | waited | waitFail | waitSleep | kill => cases by_p

theorem Shape.keep (shape : Shape old k) (same : ∀ q, (old.proc q).state ≠ .embryo → (new.proc q).state = (old.proc q).state) :
    Shape new k := by
  cases pos : k.pos <;> simp only [Shape,pos] at shape ⊢ <;> grind -linarith [Shape.Off]

theorem OneEach.move (inv : OneEach s) (k : Cpu) (same : k.proc = (s.cpu c).proc) (shape : Shape s.table k)
    (handed : (l = s.lock ∧ k.pos.holds = (s.cpu c).pos.holds) ∨
      (l = some c ∧ s.lock = none ∧ k.pos.holds = true) ∨ (l = none ∧ (s.cpu c).pos.holds = true ∧ k.pos.holds = false)) :
    OneEach ⟨s.table,Function.update s.cpu c k,l⟩ := by
  obtain ⟨family,holder,shapes,sole,covered⟩ := inv
  refine ⟨family,?_,?_,?_,?_⟩ <;> simp only [Function.update_apply]
  · grind -linarith
  · grind -linarith
  · grind -linarith
  · grind -linarith

theorem OneEach.other (inv : OneEach s) (here : (s.cpu c).pos.holds = true) (d : Nat) (apart : d ≠ c) :
    (s.cpu d).pos = .idle ∨ (s.cpu d).pos = .running := by
  have free : (s.cpu d).pos.holds ≠ true := by have := inv.holder; grind -linarith
  cases pos : (s.cpu d).pos <;> simp_all [Pos.holds]

theorem OneEach.inProcess (inv : OneEach s) (c : Nat) (here : (s.cpu c).pos = .locked ∨ (s.cpu c).pos = .running) :
    ∃ p, (s.cpu c).proc = some p ∧ (s.cpu c).stack = some p ∧ (s.cpu c).cr3 = some p ∧ (s.table.proc p).state = .running := by
  have shape := inv.shape c
  rcases here with here | here <;> simpa only [Shape,here] using shape

theorem OneEach.act (inv : OneEach s) (here : (s.cpu c).pos.holds = true) (k : Cpu) (same : k.proc = (s.cpu c).proc)
    (held : k.pos.holds = true) (family : Family new) (shape : Shape new k)
    (others : ∀ q, k.proc ≠ some q → ((new.proc q).state = .running ↔ (s.table.proc q).state = .running)) :
    OneEach ⟨new,Function.update s.cpu c k,s.lock⟩ := by
  have apart := inv.other here
  obtain ⟨_,holder,shapes,sole,covered⟩ := inv
  refine ⟨family,?_,?_,?_,?_⟩ <;> simp only [Function.update_apply]
  · grind -linarith
  · intro d
    split
    · exact shape
    · rename_i other
      obtain idle | running := apart d other
      · have := shapes d; grind -linarith
      · have := shapes d; grind -linarith
  · grind -linarith
  · intro p running
    by_cases own : k.proc = some p
    · exact ⟨c,by rw [if_pos rfl,own]⟩
    · obtain ⟨d,there⟩ := covered p ((others p own).mp running)
      exact ⟨d,by grind -linarith⟩

theorem update_self (s : Cores) (c : Nat) : Function.update s.cpu c (s.cpu c) = s.cpu := Function.update_eq_self c s.cpu

theorem step_oneEach (inv : OneEach s) (step : CpuStep s event t) : OneEach t := by
  have shapes := inv.shape
  cases step with
  | @acquire s c here free =>
    refine inv.move { s.cpu c with pos := .locked } rfl ?_ (.inr (.inl ⟨rfl,free,rfl⟩))
    have := shapes c; grind -linarith
  | @release s c here =>
    refine inv.move { s.cpu c with pos := .running } rfl ?_ (.inr (.inr ⟨rfl,by rw [here]; rfl,rfl⟩))
    have := shapes c; grind -linarith
  | @act event next s c here by_p step =>
    obtain ⟨p,proc,stack,cr3,running⟩ := inv.inProcess c (.inl here)
    rw [stack] at by_p
    have states := section_running step by_p
    have held : (s.cpu c).pos.holds = true := by rw [here]; rfl
    have kept := inv.act held (s.cpu c) rfl held (step_family inv.family step) (by grind -linarith) fun q _ => states q
    rwa [update_self] at kept
  | @wakeup s c chan here =>
    have states : ∀ q, ((s.table.wakeup1 (some chan)).proc q).state = .running ↔ (s.table.proc q).state = .running := by grind -linarith
    have held : (s.cpu c).pos.holds = true := by rcases here with here | here <;> rw [here] <;> rfl
    have kept := inv.act held (s.cpu c) rfl held (step_family inv.family .wakeup) (by have := shapes c; grind -linarith) fun q _ => states q
    rwa [update_self] at kept
  | @leave event next s c here by_p step =>
    obtain ⟨p,proc,stack,cr3,running⟩ := inv.inProcess c (.inl here)
    rw [stack] at by_p
    obtain ⟨off,states⟩ := leave_running step by_p
    have held : (s.cpu c).pos.holds = true := by rw [here]; rfl
    exact inv.act held { s.cpu c with pos := .leaving } rfl rfl (step_family inv.family step) (by grind -linarith) fun q other =>
      states q (by grind -linarith)
  | @store event next s c here by_p step =>
    obtain ⟨p,proc,stack,cr3,running⟩ := inv.inProcess c (.inr here)
    rw [stack] at by_p
    have states := store_states inv.family step by_p
    exact ⟨step_family inv.family step,inv.holder,fun d => (shapes d).keep (by grind -linarith),inv.sole,fun q now => inv.covered q (by grind -linarith)⟩
  | @swtchOut s c here =>
    refine inv.move { s.cpu c with stack := none, pos := .returned } rfl ?_ (.inl ⟨rfl,by rw [here]; rfl⟩)
    have := shapes c; grind -linarith
  | @switchkvm s c here =>
    refine inv.move { s.cpu c with cr3 := none, pos := .unloaded } rfl ?_ (.inl ⟨rfl,by rw [here]; rfl⟩)
    have := shapes c; grind -linarith
  | @clear s c here =>
    have := shapes c
    obtain ⟨family,holder,_,sole,covered⟩ := inv
    refine ⟨family,?_,?_,?_,?_⟩ <;> simp only [Cores.setCpu,Function.update_apply]
    · grind -linarith [Pos.holds]
    · grind -linarith
    · grind -linarith
    · grind -linarith [Shape.Off]
  | @enter s c here free =>
    refine inv.move { s.cpu c with pos := .scan, cursor := 0 } rfl ?_ (.inr (.inl ⟨rfl,free,rfl⟩))
    have := shapes c; grind -linarith
  | @pass s c p here at_p idle =>
    refine inv.move { s.cpu c with cursor := (s.cpu c).cursor+1 } rfl ?_ (.inl ⟨rfl,rfl⟩)
    have := shapes c; grind -linarith
  | @pick s c p here at_p ready =>
    -- A runnable process is not the current one of any CPU: the others run theirs.
    have apart := inv.other (by rw [here]; rfl)
    have := shapes c
    have unpicked : ∀ d, (s.cpu d).proc ≠ some p := by
      intro d taken
      by_cases same : d = c
      · grind -linarith
      · have := shapes d
        have := apart d same
        grind -linarith
    obtain ⟨family,holder,_,sole,covered⟩ := inv
    refine ⟨family,?_,?_,?_,?_⟩ <;> simp only [Cores.setCpu,Function.update_apply]
    · grind -linarith [Pos.holds]
    · grind -linarith
    · grind -linarith
    · grind -linarith
  | @switchuvm s c here =>
    refine inv.move { s.cpu c with cr3 := (s.cpu c).proc, pos := .loaded } rfl ?_ (.inl ⟨rfl,by rw [here]; rfl⟩)
    have := shapes c; grind -linarith
  | @mark p s c here proc =>
    have ready : (s.table.proc p).state = .runnable := by have := shapes c; grind -linarith
    exact inv.act (by rw [here]; rfl) { s.cpu c with pos := .marked } rfl rfl (step_family inv.family (.schedule ready))
      (by have := shapes c; grind -linarith) fun q other => by grind -linarith
  | @swtchIn s c here =>
    refine inv.move { s.cpu c with stack := (s.cpu c).proc, pos := .locked } rfl ?_ (.inl ⟨rfl,by rw [here]; rfl⟩)
    have := shapes c; grind -linarith
  | @done s c here end_ =>
    refine inv.move { s.cpu c with pos := .idle } rfl ?_ (.inr (.inr ⟨rfl,by rw [here]; rfl,rfl⟩))
    have := shapes c; grind -linarith
  | @interrupt s c here free =>
    refine inv.move { s.cpu c with pos := .interrupt } rfl ?_ (.inr (.inl ⟨rfl,free,rfl⟩))
    have := shapes c; grind -linarith
  | @handled s c here =>
    refine inv.move { s.cpu c with pos := .idle } rfl ?_ (.inr (.inr ⟨rfl,by rw [here]; rfl,rfl⟩))
    have := shapes c; grind -linarith

theorem coresOn_oneEach : OneEach coresOn := by
  refine ⟨boot_family,?_,?_,?_,?_⟩
  · intro c; simp [coresOn,Pos.holds]
  · intro c; exact ⟨rfl,rfl,rfl⟩
  · intro c d p taken; cases taken
  · intro p running
    by_cases zero : p = 0 <;> simp [coresOn,boot,bootSlot,zero] at running

theorem run_oneEach (run : Runs.Run (· = coresOn) CpuStep events s) : OneEach s :=
  run.invariant (fun _ began => began ▸ coresOn_oneEach) fun _ _ _ => step_oneEach

theorem reap_off (inv : OneEach s) (step : CpuStep s (.act c (.waited p pid)) t) (dead : (s.table.proc i).state = .zombie)
    (d : Nat) : (s.cpu d).stack ≠ some i ∧ (s.cpu d).cr3 ≠ some i := by
  cases step with
  | act here by_p step =>
    have apart := inv.other (by rw [here]; rfl)
    have shape := inv.shape d
    by_cases same : d = c
    · subst same; grind -linarith
    · have := apart d same; grind -linarith

-- On every run of any number of CPUs, from the point where they all call scheduler.
theorem one_cpu_each (run : Runs.Run (· = coresOn) CpuStep events s) :
    (s.lock = none → ∀ p, (s.table.proc p).state = .running ↔ ∃! c, (s.cpu c).proc = some p) ∧
    (s.lock = none → ∀ c p, (s.cpu c).stack = some p → (s.table.proc p).state = .running) ∧
    (∀ c p pid next i, CpuStep s (.act c (.waited p pid)) next → (s.table.proc i).state = .zombie →
      (next.table.proc i).state = .unused → ∀ d, (s.cpu d).stack ≠ some i ∧ (s.cpu d).cr3 ≠ some i) := by
  have inv := run_oneEach run
  have unlocked : s.lock = none → ∀ c, (s.cpu c).pos = .idle ∨ (s.cpu c).pos = .running := by
    intro free c
    have open_ : (s.cpu c).pos.holds ≠ true := by have := inv.holder c; grind -linarith
    cases pos : (s.cpu c).pos <;> simp_all [Pos.holds]
  refine ⟨fun free p => ⟨fun running => ?_,?_⟩,fun free c p on => ?_,fun c p pid next i step dead _ => reap_off inv step dead⟩
  · obtain ⟨c,there⟩ := inv.covered p running
    exact ⟨c,there,fun d also => inv.sole d c p also there⟩
  · rintro ⟨c,there,-⟩
    have := unlocked free c
    have := inv.shape c
    grind -linarith
  · have := unlocked free c
    have := inv.shape c
    grind -linarith

end

theorem one_cpu_runs_init : ∃ events s, Runs.Run (· = coresOn) CpuStep events s ∧ s.lock = none ∧
    (s.table.proc 0).state = .running ∧ ∃! c, (s.cpu c).proc = some 0 := by
  have picked : Runs.Run (· = coresOn) CpuStep [.pick 0 0,.enter 0] _ := .step (.step (.start rfl) (.enter rfl rfl)) (.pick rfl rfl rfl)
  have marked : Runs.Run (· = coresOn) CpuStep [.mark 0 0,.switchuvm 0,.pick 0 0,.enter 0] _ :=
    .step (.step picked (.switchuvm rfl)) (.mark rfl rfl)
  have released : Runs.Run (· = coresOn) CpuStep [.release 0,.swtchIn 0,.mark 0 0,.switchuvm 0,.pick 0 0,.enter 0] _ :=
    .step (.step marked (.swtchIn rfl)) (.release rfl)
  exact ⟨_,_,released,rfl,rfl,((one_cpu_each released).1 rfl 0).mp rfl⟩

end Xv6.Sched
