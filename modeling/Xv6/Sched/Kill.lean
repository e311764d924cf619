import Xv6.Sched.Pair

namespace Xv6.Sched
open Runs

-- What kill should do, and what a fork should start with. The two laws of one step.
structure KillLaw (s : Ptable) (event : Event) (next : Ptable) : Prop where
  aimed : ∀ p pid result, event = .kill p pid result → ∀ i, next.proc i ≠ s.proc i →
    (s.proc i).state ≠ .unused ∧ (s.proc i).pid = pid
  missed : ∀ p pid result, event = .kill p pid result → (∀ i, (s.proc i).state ≠ .unused → (s.proc i).pid ≠ pid) → result = -1
  fresh : ∀ p np parent child, event = .forked p np parent child → (next.proc np).killed = false

-- The slot that a kill stops at holds a process, not the leavings of one or a child
-- that its fork has not finished.
def Aimed (s : Ptable) : Event → Prop
  | .kill _ pid _ => ∀ i, s.target pid = some i → (s.proc i).state ≠ .unused ∧ (s.proc i).state ≠ .embryo
  | _ => True

section
variable {s next : Ptable} {event : Event} {events : List Event}

theorem kill_effect (i : ProcPtr) (changed : ((s.kill pid).1.proc i) ≠ s.proc i) : s.target pid = some i := by
  unfold Ptable.kill at changed
  split at changed
  · exact absurd rfl changed
  · grind -linarith

theorem target_pid (found : s.target pid = some i) : (s.proc i).pid = pid := by
  simpa using firstProc_some found

theorem kill_result : (s.kill pid).2 = if s.target pid = none then -1 else 0 := by
  unfold Ptable.kill
  cases s.target pid <;> rfl

def Unmarked (s : Ptable) : Prop := ∀ i, (s.proc i).state = .unused ∨ (s.proc i).state = .embryo → (s.proc i).killed = false

theorem step_unmarked (family : Family s) (unmarked : Unmarked s) (moved : Only Aimed Step s event next) : Unmarked next := by
  obtain ⟨fine,step⟩ := moved
  unfold Unmarked at *
  cases step with
  | schedule ready => grind -linarith
  | yield running => grind -linarith
  | sleep at_call => grind -linarith [Ptable.sleep]
  | wakeup => grind -linarith
  | forkFull => exact unmarked
  | forkTake at_call free => have := firstUnused_state free; grind -linarith
  | forkFail at_call => have := family.making; grind -linarith [Ptable.At]
  | forkLink at_call => grind -linarith
  | forked at_call => grind -linarith
  | exited at_call other =>
    rename_i p
    obtain ⟨_,_,killed,dead,state,_⟩ := s.exit_spec p
    grind -linarith
  | waited scans found => grind -linarith [Ptable.reap]
  | waitFail => exact unmarked
  | waitSleep => grind -linarith [Ptable.sleep]
  | kill at_call =>
    rename_i p pid
    intro i new
    by_cases changed : (s.kill pid).1.proc i = s.proc i
    · rw [changed] at new ⊢; exact unmarked i new
    -- The slot that changed is the target, which is in use before and after.
    have hit := kill_effect i changed
    have live := fine i hit
    simp only [Ptable.kill,hit] at new
    grind -linarith

-- In every run whose kills stop at no unused or half-made slot, every kill and every
-- fork keeps to the law.
theorem kills_hit_target (run : Run (· = boot) (Only Aimed Step) events s) (moved : Only Aimed Step s event next) :
    KillLaw s event next := by
  have kept : Family s ∧ Unmarked s := run.invariant (I := fun s => Family s ∧ Unmarked s)
    (by rintro s rfl; exact ⟨boot_family,fun i _ => by by_cases zero : i = 0 <;> simp [boot,bootSlot,zero]⟩)
    fun _ _ _ held moved => ⟨step_family held.1 moved.2,step_unmarked held.1 held.2 moved⟩
  obtain ⟨fine,step⟩ := moved
  constructor
  case aimed =>
    rintro p pid result rfl i changed
    cases step with
    | kill =>
      have hit := kill_effect i changed
      exact ⟨(fine i hit).1,target_pid hit⟩
  case missed =>
    rintro p pid result rfl nobody
    cases step with
    | kill =>
      rw [kill_result,if_pos]
      exact Option.eq_none_iff_forall_ne_some.mpr fun i hit => nobody i (fine i hit).1 (target_pid hit)
  case fresh =>
    rintro p np parent child rfl
    cases step with
    | forked at_call => simpa using kept.2 np (.inr (kept.1.made p np at_call.2).1)

end

def initRuns : Ptable := boot.setSlot 0 fun slot => { slot with state := .running }

theorem initRuns_run (fine : Ptable → Event → Prop) (may : fine boot (.schedule 0)) :
    Run (· = boot) (Only fine Step) [.schedule 0] initRuns :=
  .step (.start rfl) ⟨may,.schedule rfl⟩

theorem kills_hit_init : Run (· = boot) (Only Aimed Step) [.schedule 0] initRuns ∧
    Only Aimed Step initRuns (.kill 0 1 0) (initRuns.kill 1).1 ∧ ((initRuns.kill 1).1.proc 0).killed = true ∧
    KillLaw initRuns (.kill 0 1 0) (initRuns.kill 1).1 := by
  have run : Run (· = boot) (Only Aimed Step) [.schedule 0] initRuns := initRuns_run _ trivial
  have moved : Only Aimed Step initRuns (.kill 0 1 0) (initRuns.kill 1).1 := by
    refine ⟨fun i hit => ?_,.kill ⟨rfl,rfl⟩⟩
    obtain rfl : 0 = i := Option.some.inj hit
    decide
  exact ⟨run,moved,rfl,kills_hit_target run moved⟩

-- init calls kill(0), which marks slot 1, the first of the unused ones, and returns 0.
-- The child that init then forks into slot 1 starts killed.
theorem kill_zero_marks_child : Run (· = boot) Step [.schedule 0] initRuns ∧
    Step initRuns (.kill 0 0 0) (initRuns.kill 0).1 ∧
    (∀ i, (initRuns.proc i).state ≠ .unused → (initRuns.proc i).pid ≠ 0) ∧
    (initRuns.proc 1).state = .unused ∧ (initRuns.kill 0).1.proc 1 ≠ initRuns.proc 1 ∧
    ∃ t next, Run (· = boot) Step [.forkLink 0 1,.forkTake 0 1,.kill 0 0 0,.schedule 0] t ∧
      Step t (.forked 0 1 1 2) next ∧ (next.proc 1).state = .runnable ∧ (next.proc 1).killed = true := by
  have run : Run (· = boot) Step [.schedule 0] initRuns := (initRuns_run (fun _ _ => True) trivial).whole
  have kill : Step initRuns (.kill 0 0 0) (initRuns.kill 0).1 := .kill ⟨rfl,rfl⟩
  have linked : Run (· = boot) Step [.forkLink 0 1,.forkTake 0 1,.kill 0 0 0,.schedule 0] _ :=
    .step (.step (.step run kill) (.forkTake ⟨rfl,rfl⟩ rfl)) (.forkLink ⟨rfl,rfl⟩)
  exact ⟨run,kill,by decide,rfl,by decide,_,_,linked,.forked ⟨rfl,rfl⟩,rfl,rfl⟩

end Xv6.Sched
