import Xv6.Sched.Table

namespace Xv6.Sched
open Vm (Procstate)

-- exit and wait over whole runs of the process table.

@[grind] def Alive (state : Procstate) : Prop := state = .sleeping ∨ state = .runnable ∨ state = .running

@[grind] def Place.child : Place → Option ProcPtr
  | .forking np => some np
  | .linked np => some np
  | _ => none

-- What holds of the table whenever ptable.lock is free.
structure Family (s : Ptable) : Prop where
  parented : ∀ i q, (s.proc i).parent = some q → (s.proc i).state ≠ .unused ∧ Alive (s.proc q).state ∧ q ≠ i
  inside : ∀ p, s.place p ≠ .outside → Alive (s.proc p).state
  making : ∀ p np, s.place p = .forking np → (s.proc np).state = .embryo ∧ (s.proc np).parent = none
  made : ∀ p np, s.place p = .linked np → (s.proc np).state = .embryo ∧ (s.proc np).parent = some p
  sole : ∀ p q np, (s.place p).child = some np → (s.place q).child = some np → p = q
  asleep : ∀ p, s.place p = .waiting → (s.proc p).state = .sleeping → (s.proc p).chan = some (.proc p)
  heard : ∀ p i, s.place p = .waiting → (s.proc p).state = .sleeping → (s.proc i).parent = some p → (s.proc i).state ≠ .zombie
  init : Alive (s.proc s.initproc).state ∧ (s.proc s.initproc).parent = none

structure Pids (s : Ptable) : Prop where
  distinct : ∀ i j, (s.proc i).state ≠ .unused → (s.proc j).state ≠ .unused → (s.proc i).pid = (s.proc j).pid → i = j
  below : ∀ i, (s.proc i).state ≠ .unused → (s.proc i).pid < s.nextpid

theorem boot_family : Family boot := by
  constructor <;> grind -linarith [boot,bootSlot]

theorem boot_pids : Pids boot := by
  constructor <;> grind -linarith [boot,bootSlot]

structure Drift (s t : Ptable) : Prop where
  pid : ∀ i, (t.proc i).pid = (s.proc i).pid
  parent : ∀ i, (t.proc i).parent = (s.proc i).parent
  state : ∀ i, (t.proc i).state = (s.proc i).state ∨ Alive (s.proc i).state ∧ Alive (t.proc i).state
  place : ∀ p, t.place p = s.place p ∨ Alive (s.proc p).state ∧ (s.place p).child = none ∧ (t.place p).child = none
  nextpid : t.nextpid = s.nextpid
  initproc : t.initproc = s.initproc
  asleep : ∀ p, t.place p = .waiting → (t.proc p).state = .sleeping → (t.proc p).chan = some (.proc p) ∧
    (s.place p = .waiting ∧ (s.proc p).state = .sleeping ∨ ∀ i, (s.proc i).parent = some p → (s.proc i).state ≠ .zombie)

theorem Drift.family (family : Family s) (drift : Drift s t) : Family t := by
  obtain ⟨_,parent,state,place,_,initproc,slept⟩ := drift
  obtain ⟨parented,inside,making,made,sole,asleep,heard,init⟩ := family
  constructor <;> grind -linarith

theorem zombieChild_none {s : Ptable} (none : s.zombieChild p = none) (i : ProcPtr) (child : (s.proc i).parent = some p) :
    (s.proc i).state ≠ .zombie := by
  have missed := firstProc_none none i
  grind -linarith

theorem zombieChild_some {s : Ptable} (found : s.zombieChild p = some i) :
    (s.proc i).parent = some p ∧ (s.proc i).state = .zombie := by
  simpa using firstProc_some found

-- The steps that are no part of a fork, an exit or a wait that finds a child.
def Event.quiet : Event → Bool
  | .forkTake _ _ | .forkFail _ _ | .forkLink _ _ | .forked _ _ _ _ | .exited _ _ | .waited _ _ => false
  | _ => true

theorem quiet_drift (asleep : ∀ p, s.place p = .waiting → (s.proc p).state = .sleeping → (s.proc p).chan = some (.proc p))
    (step : Step s event t) (quiet : event.quiet = true) : Drift s t := by
  cases step with
  | schedule ready => constructor <;> grind -linarith
  | yield running => constructor <;> grind -linarith
  | sleep at_call => unfold Ptable.sleep; constructor <;> grind -linarith [Ptable.At]
  | wakeup => constructor <;> grind -linarith
  | forkFull => constructor <;> grind -linarith
  | forkTake | forkFail | forkLink | forked | exited | waited => simp [Event.quiet] at quiet
  | waitFail scans none => constructor <;> grind -linarith [Ptable.Scans,Ptable.At]
  | waitSleep scans none =>
    have deaf := zombieChild_none none
    unfold Ptable.sleep
    constructor <;> grind -linarith [Ptable.Scans,Ptable.At]
  | kill =>
    unfold Ptable.kill
    split <;> constructor <;> grind -linarith

section
variable {s t : Ptable}

theorem Family.embryo (family : Family s) (taken : (s.place p).child = some np) : (s.proc np).state = .embryo := by
  cases place : s.place p with
  | outside => simp [place,Place.child] at taken
  | waiting => simp [place,Place.child] at taken
  | forking child =>
    obtain rfl : child = np := by simpa [place,Place.child] using taken
    exact (family.making p child place).1
  | linked child =>
    obtain rfl : child = np := by simpa [place,Place.child] using taken
    exact (family.made p child place).1

theorem firstUnused_state (free : s.firstUnused = some np) : (s.proc np).state = .unused := by
  simpa using firstProc_some free

section
variable (family : Family s)
include family

theorem forkTake_family (at_call : s.At p .outside) (free : s.firstUnused = some np) :
    Family ((s.allocproc np).setPlace p (.forking np)) := by
  have unused := firstUnused_state free
  obtain ⟨running,out⟩ := at_call
  have orphan : (s.proc np).parent = none :=
    Option.eq_none_iff_forall_ne_some.mpr fun q child => (family.parented np q child).1 unused
  have untaken : ∀ q, (s.place q).child ≠ some np := by
    intro q taken
    have embryo := family.embryo taken
    rw [unused] at embryo
    cases embryo
  obtain ⟨parented,inside,making,made,sole,asleep,heard,init⟩ := family
  constructor <;> grind -linarith

theorem embryo_family (running : (s.proc p).state = .running) (taken : (s.place p).child = some np)
    (may : ((f (s.proc np)).state = .unused ∧ (f (s.proc np)).parent = none ∧ place = .outside) ∨
      ((f (s.proc np)).state = .embryo ∧ (f (s.proc np)).parent = some p ∧ place = .linked np) ∨
      ((f (s.proc np)).state = .runnable ∧ (f (s.proc np)).parent = some p ∧ place = .outside)) :
    Family ((s.setSlot np f).setPlace p place) := by
  have embryo := family.embryo taken
  have only : ∀ q, q ≠ p → (s.place q).child ≠ some np := by have := family.sole; grind -linarith
  generalize made : f (s.proc np) = slot at *
  obtain ⟨parented,inside,making,made,sole,asleep,heard,init⟩ := family
  constructor <;> grind -linarith

theorem exit_family (at_call : s.At p .outside) (other : p ≠ s.initproc) : Family (s.exit p) := by
  obtain ⟨running,out⟩ := at_call
  obtain ⟨_,chan,_,dead,state,parent,reported,told,place,_,initproc⟩ := s.exit_spec p
  generalize s.exit p = t at *
  obtain ⟨parented,inside,making,made,sole,asleep,heard,init⟩ := family
  constructor <;> grind -linarith

theorem reap_family (found : s.zombieChild p = some i) : Family ((s.reap i).setPlace p .outside) := by
  obtain ⟨child,dead⟩ := zombieChild_some found
  unfold Ptable.reap
  obtain ⟨parented,inside,making,made,sole,asleep,heard,init⟩ := family
  constructor <;> grind -linarith

theorem step_family (step : Step s event t) : Family t := by
  cases quiet : event.quiet with
  | true => exact (quiet_drift family.asleep step quiet).family family
  | false =>
    cases step with
    | forkTake at_call free => exact forkTake_family family at_call free
    | @forkFail _ p np at_call =>
      have taken : (s.place p).child = some np := by rw [at_call.2]; rfl
      exact embryo_family family at_call.1 taken (.inl ⟨rfl,(family.making p np at_call.2).2,rfl⟩)
    | @forkLink _ p np at_call =>
      have taken : (s.place p).child = some np := by rw [at_call.2]; rfl
      exact embryo_family family at_call.1 taken (.inr (.inl ⟨family.embryo taken,rfl,rfl⟩))
    | @forked _ p np at_call =>
      have taken : (s.place p).child = some np := by rw [at_call.2]; rfl
      exact embryo_family family at_call.1 taken (.inr (.inr ⟨rfl,(family.made p np at_call.2).2,rfl⟩))
    | exited at_call other => exact exit_family family at_call other
    | waited scans found => exact reap_family family found
    | schedule | yield | sleep | wakeup | forkFull | waitFail | waitSleep | kill => simp [Event.quiet] at quiet

end

theorem Pids.keep (pids : Pids s) (same : ∀ i, (t.proc i).state ≠ .unused → (s.proc i).state ≠ .unused ∧ (t.proc i).pid = (s.proc i).pid)
    (next : t.nextpid = s.nextpid) : Pids t := by
  obtain ⟨distinct,below⟩ := pids
  constructor <;> grind -linarith

theorem step_pids (family : Family s) (pids : Pids s) (step : Step s event t) (room : s.nextpid+1 < 4294967296) : Pids t := by
  cases quiet : event.quiet with
  | true =>
    obtain ⟨pid,_,state,_,nextpid,_,_⟩ := quiet_drift family.asleep step quiet
    exact pids.keep (by grind -linarith) nextpid
  | false =>
    cases step with
    | forkTake at_call free =>
      have next : (s.nextpid+1) % 4294967296 = s.nextpid+1 := Nat.mod_eq_of_lt room
      obtain ⟨distinct,below⟩ := pids
      constructor <;> grind -linarith
    | forkFail at_call => exact pids.keep (by grind -linarith) rfl
    | forkLink at_call => exact pids.keep (by grind -linarith) rfl
    | forked at_call =>
      have made := family.made
      exact pids.keep (by grind -linarith [Ptable.At]) rfl
    | exited at_call other =>
      rename_i p
      obtain ⟨pid,_,_,dead,state,_,_,_,_,nextpid,_⟩ := s.exit_spec p
      exact pids.keep (by grind -linarith [Ptable.At]) nextpid
    | waited scans found => exact pids.keep (by grind -linarith [Ptable.reap]) rfl
    | schedule | yield | sleep | wakeup | forkFull | waitFail | waitSleep | kill => simp [Event.quiet] at quiet

end

def Event.takes : Event → Bool
  | .forkTake _ _ => true
  | _ => false

def Event.report : Event → Option Nat
  | .waited _ pid => some pid
  | _ => none

def forks (events : List Event) : Nat := events.countP Event.takes

def reports (events : List Event) : List Nat := events.filterMap Event.report

-- What the past of a run says of the table it has led to.
structure Ledger (events : List Event) (s : Ptable) : Prop where
  next : s.nextpid = forks events + 2
  exits : ∀ p pid, .exited p pid ∈ events → pid < s.nextpid ∧ ∀ i, (s.proc i).pid = pid → ¬ Alive (s.proc i).state ∧ (s.proc i).state ≠ .embryo
  bodies : ∀ i, (s.proc i).state = .zombie → ∃ p, .exited p (s.proc i).pid ∈ events
  waits : ∀ pid ∈ reports events, pid < s.nextpid ∧ (∀ i, (s.proc i).pid = pid → (s.proc i).state = .unused) ∧
    ∃ p, .exited p pid ∈ events
  once : (reports events).Nodup
  births : ∀ p np parent child, .forked p np parent child ∈ events → child < s.nextpid ∧ ∀ i, (s.proc i).state ≠ .unused →
    (s.proc i).pid = child → (s.proc i).state ≠ .embryo ∧
      ((s.proc i).parent = some s.initproc ∨ ∃ q, (s.proc i).parent = some q ∧ (s.proc q).pid = parent)

theorem boot_ledger : Ledger [] boot := by
  constructor <;> grind -linarith [boot,bootSlot,forks,reports]

theorem Drift.ledger (ledger : Ledger events s) (drift : Drift s t) (quiet : event.quiet = true) :
    Ledger (event :: events) t := by
  obtain ⟨pid,parent,state,place,nextpid,initproc,slept⟩ := drift
  have takes : event.takes = false := by cases event <;> simp_all [Event.quiet,Event.takes]
  have report : event.report = none := by cases event <;> simp_all [Event.quiet,Event.report]
  have exits : ∀ p pid, .exited p pid ≠ event := by rintro p pid rfl; simp [Event.quiet] at quiet
  have births : ∀ p np a b, .forked p np a b ≠ event := by rintro p np a b rfl; simp [Event.quiet] at quiet
  have same : reports (event :: events) = reports events := List.filterMap_cons_none report
  obtain ⟨counted,exits,bodies,waits,once,births⟩ := ledger
  constructor
  case next => simpa [forks,takes,nextpid] using counted
  all_goals grind -linarith

section
variable {s : Ptable} {events : List Event}

theorem forkTake_ledger (family : Family s) (ledger : Ledger events s) (free : s.firstUnused = some np)
    (room : s.nextpid+1 < 4294967296) :
    Ledger (.forkTake p np :: events) ((s.allocproc np).setPlace p (.forking np)) := by
  have unused := firstUnused_state free
  have next : (s.nextpid+1) % 4294967296 = s.nextpid+1 := Nat.mod_eq_of_lt room
  have same : reports (.forkTake p np :: events) = reports events := rfl
  clear free room
  obtain ⟨counted,exits,bodies,waits,once,births⟩ := ledger
  constructor
  case next =>
    simp only [forks,List.countP_cons,Event.takes,if_true] at counted ⊢
    grind -linarith
  case births => have := family.parented; clear waits bodies exits; grind -linarith
  all_goals grind -linarith

theorem embryo_ledger (family : Family s) (ledger : Ledger events s) (taken : (s.place p).child = some np)
    (event : Event) (named : event = .forkFail p np ∨ event = .forkLink p np)
    (same : (f (s.proc np)).pid = (s.proc np).pid)
    (may : (f (s.proc np)).state = .unused ∨ (f (s.proc np)).state = .embryo) :
    Ledger (event :: events) ((s.setSlot np f).setPlace p place) := by
  have embryo := family.embryo taken
  have unreported : reports (event :: events) = reports events := by
    rcases named with rfl | rfl <;> rfl
  generalize made : f (s.proc np) = slot at *
  obtain ⟨counted,exits,bodies,waits,once,births⟩ := ledger
  constructor
  case next => rcases named with rfl | rfl <;> simpa [forks,Event.takes] using counted
  all_goals grind -linarith

theorem forked_ledger (family : Family s) (pids : Pids s) (ledger : Ledger events s) (at_call : s.At p (.linked np)) :
    Ledger (.forked p np (s.proc p).pid (s.proc np).pid :: events)
      ((s.setSlot np fun slot => { slot with state := .runnable }).setPlace p .outside) := by
  obtain ⟨running,place⟩ := at_call
  obtain ⟨embryo,child⟩ := family.made p np place
  have below := pids.below np (by rw [embryo]; decide)
  have unreported : reports (.forked p np (s.proc p).pid (s.proc np).pid :: events) = reports events := rfl
  obtain ⟨counted,exits,bodies,waits,once,births⟩ := ledger
  constructor
  case next => simpa [forks,Event.takes] using counted
  all_goals grind -linarith [pids.distinct]

theorem exit_ledger (pids : Pids s) (ledger : Ledger events s) (at_call : s.At p .outside) :
    Ledger (.exited p (s.proc p).pid :: events) (s.exit p) := by
  obtain ⟨running,out⟩ := at_call
  obtain ⟨pid,chan,_,dead,state,parent,reported,told,place,nextpid,initproc⟩ := s.exit_spec p
  have below := pids.below p (by rw [running]; decide)
  have unreported : reports (.exited p (s.proc p).pid :: events) = reports events := rfl
  generalize s.exit p = t at *
  obtain ⟨counted,exits,bodies,waits,once,births⟩ := ledger
  constructor
  case next => simpa [forks,Event.takes,nextpid] using counted
  all_goals grind -linarith [pids.distinct]

theorem reap_ledger (family : Family s) (pids : Pids s) (ledger : Ledger events s) (found : s.zombieChild p = some i) :
    Ledger (.waited p (s.proc i).pid :: events) ((s.reap i).setPlace p .outside) := by
  obtain ⟨child,dead⟩ := zombieChild_some found
  have below := pids.below i (by rw [dead]; decide)
  have reported : reports (.waited p (s.proc i).pid :: events) = (s.proc i).pid :: reports events := rfl
  unfold Ptable.reap
  constructor
  case next => simpa [forks,Event.takes] using ledger.next
  case exits => have := ledger.exits; grind -linarith
  case bodies => have := ledger.bodies; grind -linarith
  case waits => rw [reported]; have := ledger.waits; have := ledger.bodies; have := pids.distinct; grind -linarith
  case once =>
    rw [reported,List.nodup_cons]
    refine ⟨fun again => ?_,ledger.once⟩
    have unused := (ledger.waits _ again).2.1 i rfl
    rw [dead] at unused
    cases unused
  case births =>
    intro q np parent pid born
    obtain ⟨old,slots⟩ := ledger.births q np parent pid (by simpa using born)
    refine ⟨old,fun j live same => ?_⟩
    have other : j ≠ i := by rintro rfl; simp at live
    simp only [Ptable.setPlace_proc,Ptable.setSlot_proc,if_neg other] at live same ⊢
    refine ⟨(slots j live same).1,(slots j live same).2.imp id ?_⟩
    rintro ⟨r,above,mother⟩
    -- The parent lives, so it is not the slot that was reaped.
    have alive := (family.parented j r above).2.1
    exact ⟨r,above,by grind -linarith⟩

theorem step_ledger (family : Family s) (pids : Pids s) (ledger : Ledger events s) (step : Step s event t)
    (room : s.nextpid+1 < 4294967296) : Ledger (event :: events) t := by
  cases quiet : event.quiet with
  | true => exact (quiet_drift family.asleep step quiet).ledger ledger quiet
  | false =>
    cases step with
    | forkTake at_call free => exact forkTake_ledger family ledger free room
    | @forkFail _ p np at_call =>
      have taken : (s.place p).child = some np := by rw [at_call.2]; rfl
      exact embryo_ledger family ledger taken _ (.inl rfl) rfl (.inl rfl)
    | @forkLink _ p np at_call =>
      have taken : (s.place p).child = some np := by rw [at_call.2]; rfl
      exact embryo_ledger family ledger taken _ (.inr rfl) rfl (.inr (family.embryo taken))
    | forked at_call => exact forked_ledger family pids ledger at_call
    | exited at_call other => exact exit_ledger pids ledger at_call
    | waited scans found => exact reap_ledger family pids ledger found
    | schedule | yield | sleep | wakeup | forkFull | waitFail | waitSleep | kill => simp [Event.quiet] at quiet

end

theorem forks_cons (events : List Event) (event : Event) : forks events ≤ forks (event :: events) :=
  (List.sublist_cons_self event events).countP_le

theorem run_keeps (run : Runs.Run (· = boot) Step events s) (few : forks events < 2147483648) :
    Family s ∧ Pids s ∧ Ledger events s := by
  refine run.traced (I := fun events s => forks events < 2147483648 → Family s ∧ Pids s ∧ Ledger events s) ?_ ?_ few
  · rintro s rfl _
    exact ⟨boot_family,boot_pids,boot_ledger⟩
  intro events s event next held step few
  have fewer := Nat.lt_of_le_of_lt (forks_cons events event) few
  obtain ⟨family,pids,ledger⟩ := held fewer
  have room : s.nextpid+1 < 4294967296 := by rw [ledger.next]; omega
  exact ⟨step_family family step,step_pids family pids step room,step_ledger family pids ledger step room⟩

theorem zombie_leaves (step : Step s event next) (dead : (s.proc i).state = .zombie) (gone : (next.proc i).state ≠ .zombie)
    (family : Family s) : ∃ p, (s.proc i).parent = some p ∧ event = .waited p (s.proc i).pid := by
  cases quiet : event.quiet with
  | true =>
    have drift := (quiet_drift family.asleep step quiet).state i
    grind -linarith
  | false =>
    cases step with
    | forkTake at_call free =>
      have unused := firstUnused_state free
      grind -linarith
    | forkFail at_call => have := family.making; grind -linarith [Ptable.At]
    | forkLink at_call => grind -linarith
    | forked at_call => have := family.made; grind -linarith [Ptable.At]
    | exited at_call other =>
      rename_i p
      have := (s.exit_spec p).state
      have := (s.exit_spec p).dead
      grind -linarith
    | waited scans found =>
      have child := zombieChild_some found
      grind -linarith [Ptable.reap]
    | schedule | yield | sleep | wakeup | forkFull | waitFail | waitSleep | kill => simp [Event.quiet] at quiet

theorem waited_zombie (step : Step s (.waited p pid) next) :
    ∃ i, (s.proc i).state = .zombie ∧ (s.proc i).parent = some p ∧ (s.proc i).pid = pid := by
  cases step with
  | waited scans found =>
    obtain ⟨child,dead⟩ := zombieChild_some found
    exact ⟨_,dead,child,rfl⟩

theorem waitFail_reason (step : Step s (.waitFail p) next) :
    (∀ i, (s.proc i).parent ≠ some p) ∨ (s.proc p).killed = true := by
  cases step with
  | waitFail scans none reason =>
    refine reason.imp (fun childless i child => ?_) id
    cases found : firstProc fun i => (s.proc i).parent = some p with
    | none => simpa [child] using firstProc_none found i
    | some j => simp [Ptable.havekids,found] at childless

-- exit and wait pair up over every run from boot with fewer than 2^31 forks.
theorem exit_wait_pair (run : Runs.Run (· = boot) Step events s) (few : forks events < 2147483648) :
    (∀ i j, (s.proc i).state ≠ .unused → (s.proc j).state ≠ .unused → (s.proc i).pid = (s.proc j).pid → i = j) ∧
    (∀ p np parent i q, .forked p np parent (s.proc i).pid ∈ events → (s.proc i).state ≠ .unused → .exited q parent ∈ events →
      (s.proc i).parent = some s.initproc) ∧
    (∀ event next i, Step s event next → (s.proc i).state = .zombie → (next.proc i).state ≠ .zombie →
      ∃ p, (s.proc i).parent = some p ∧ event = .waited p (s.proc i).pid) ∧
    (∀ p pid next, Step s (.waited p pid) next →
      ∃ i, (s.proc i).state = .zombie ∧ (s.proc i).parent = some p ∧ (s.proc i).pid = pid) ∧
    (reports events).Nodup ∧ (∀ pid ∈ reports events, ∃ p, .exited p pid ∈ events) ∧
    (∀ p next, Step s (.waitFail p) next → (∀ i, (s.proc i).parent ≠ some p) ∨ (s.proc p).killed = true) ∧
    (∀ p i, s.place p = .waiting → (s.proc p).state = .sleeping → (s.proc i).parent = some p → (s.proc i).state ≠ .zombie) := by
  obtain ⟨family,pids,ledger⟩ := run_keeps run few
  refine ⟨pids.distinct,?_,fun _ _ _ step dead gone => zombie_leaves step dead gone family,fun _ _ _ => waited_zombie,
    ledger.once,fun pid reported => (ledger.waits pid reported).2.2,fun _ _ => waitFail_reason,family.heard⟩
  intro p np parent i q born live died
  obtain adopted | ⟨r,child,mother⟩ := ((ledger.births p np parent _ born).2 i live rfl).2
  · exact adopted
  · -- A parent that is still linked lives, and has not exited.
    exact absurd (family.parented i r child).2.1 ((ledger.exits q parent died).2 r mother).1

set_option maxRecDepth 4000 in
theorem exit_wait_once : ∃ events s, Runs.Run (· = boot) Step events s ∧ forks events = 1 ∧ reports events = [2] ∧
    (s.proc 1).state = .unused ∧ (reports events).Nodup := by
  have forked : Runs.Run (· = boot) Step [.forked 0 1 1 2,.forkLink 0 1,.forkTake 0 1,.schedule 0] _ :=
    .step (.step (.step (.step (.start rfl) (.schedule rfl)) (.forkTake ⟨rfl,rfl⟩ rfl)) (.forkLink ⟨rfl,rfl⟩)) (.forked ⟨rfl,rfl⟩)
  have reaped := Runs.Run.step (.step (.step forked (.schedule (p := 1) rfl)) (.exited (p := 1) ⟨rfl,rfl⟩ (by decide)))
    (.waited (p := 0) (i := 1) (.inl ⟨rfl,rfl⟩) (by rfl))
  exact ⟨_,_,reaped,rfl,rfl,rfl,(exit_wait_pair reaped (by decide)).2.2.2.2.1⟩

end Xv6.Sched
