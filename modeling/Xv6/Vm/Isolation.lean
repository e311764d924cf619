import Xv6.Vm.Boot

namespace Xv6.Vm
open Bytes Exec

-- Runs of the system and what keeps the address spaces apart in them.

-- The files and arguments that exec is asked about: load segments start on a page
-- and end below KERNBASE, the strings take less than a page.
def Call.Admissible : Call → Prop
  | .exec f argv => (∀ g ∈ f, ∀ j < g.phnum, (g.proghdr (w32 (g.phoff+32*j))).type = 1 →
      (g.proghdr (w32 (g.phoff+32*j))).vaddr % 4096 = 0 ∧
      (g.proghdr (w32 (g.phoff+32*j))).vaddr + (g.proghdr (w32 (g.phoff+32*j))).memsz < 2147483648) ∧ argBytes argv < 4096
  | _ => True

-- main has returned, and processes that run have made calls in any order, each
-- returning without a panic. Steps says which calls are let in.
inductive Run (L : Layout) (code : List UInt8) (mem : Bytes.Store) (fails : Nat → Bool) (Steps : System → Call → System → Prop) :
    System → Prop where
  | boot : main L code (powerOn mem fails) = (.ok (),s) → Run L code mem fails Steps s
  | call : Run L code mem fails Steps s → (s.procs p).state = .runnable → c.Admissible → run L p c s = (.ok (),next) →
      Steps s c next → Run L code mem fails Steps next

def AnyStep (_ : System) (_ : Call) (_ : System) : Prop := True

-- No mapping that allocuvm asks for fails in the middle of exec.
def ExecMaps (s : System) (c : Call) (next : System) : Prop :=
  match c with
  | .exec _ _ => next.vm.unmapped = s.vm.unmapped
  | _ => True

-- Every page has at most one use, where the free list is read off memory; pages
-- that user code can reach are its own; no page is freed twice in a row.
structure Isolated (L : Layout) (s : System) : Prop where
  pages : ∃ free, Chain s.vm.mem s.vm.freelist free ∧ free.Nodup ∧
    (∀ u w p, Holds s.vm.mem (owners s free) u p → Holds s.vm.mem (owners s free) w p → u = w) ∧
    ∀ a d v, dirsOf s a = some d → v < 1048576 → Present (pteOf s.vm.mem d v) → UserBit (pteOf s.vm.mem d v) →
      Managed L (PTE_ADDR (pteOf s.vm.mem d v)) ∧ Holds s.vm.mem (owners s free) (.user a v) (PTE_ADDR (pteOf s.vm.mem d v))
  freed : ∀ newer between older p, s.vm.events = newer ++ .free p :: (between ++ .free p :: older) → .alloc p ∈ between

section Invariant
variable {L : Layout} {s next : System}

theorem alternating_suffix {newer : List Event} (alternating : Alternating (newer ++ older)) : Alternating older := by
  induction newer with
  | nil => exact alternating
  | cons event rest ih =>
    cases event with
    | alloc q => exact ih alternating
    | free q => exact ih alternating.2

theorem lastFreed_between {between : List Event} (not_last : lastFreed p (between ++ .free p :: older) = false) :
    .alloc p ∈ between := by
  induction between with
  | nil => simp [lastFreed] at not_last
  | cons event rest ih =>
    cases event with
    | alloc q =>
      by_cases same : q = p
      · rw [same]; exact .head _
      · rw [List.cons_append,lastFreed,if_neg same] at not_last
        exact .tail _ (ih not_last)
    | free q =>
      by_cases same : q = p
      · rw [List.cons_append,lastFreed,if_pos same] at not_last; cases not_last
      · rw [List.cons_append,lastFreed,if_neg same] at not_last
        exact .tail _ (ih not_last)

theorem SysOk.isolated (ok : SysOk L s) : Isolated L s := by
  obtain ⟨free,pages⟩ := ok.pagesOk.pages
  have held := pages.custody
  refine ⟨⟨free,held.chain,held.nodup,fun u w p => held.exclusive,fun a d v dir small present user => ?_⟩,
    fun newer between older p events => ?_⟩
  · have low : v < 524288 := by
      by_contra high
      exact held.kernel dir (by omega) small present user
    have use : Holds s.vm.mem (owners s free) (.user a v) (PTE_ADDR (pteOf s.vm.mem d v)) := ⟨d,dir,low,present,rfl⟩
    exact ⟨held.managed use,use⟩
  · have alternating := pages.alternating
    rw [events] at alternating
    exact lastFreed_between (alternating_suffix alternating).1

theorem Call.Admissible.unwrapped {f : Option File} {argv : List (List UInt8)} (admissible : (Call.exec f argv).Admissible) :
    ∀ g ∈ f, ∀ j < g.phnum, (g.proghdr (w32 (g.phoff+32*j))).Unwrapped := by
  intro g file j inside load _
  have := (admissible.1 g file j inside load).2
  omega

-- One call of a live process.
theorem call_preserves (ok : SysOk L s) (live : (s.procs p).state.Live) (c : Call) (admissible : c.Admissible) :
    Gives (run L p c) s fun _ next => ExecMaps s c next → SysOk L next := by
  cases c with
  | fork => exact (fork_spec ok live).bind fun _ _ post => gives_pure _ fun _ => post
  | exec f argv => exact (exec_spec ok live admissible.unwrapped admissible.2).bind fun _ _ post => gives_pure _ post
  | sbrk n => exact (sysSbrk_spec ok live n).bind fun _ _ post => gives_pure _ fun _ => post
  | pipe fd => exact (sysPipe_spec ok live fd).bind fun _ _ post => gives_pure _ fun _ => post
  | exit => exact (exit_spec ok live).post fun _ _ post _ => post
  | wait => exact (wait_spec ok p).bind fun _ _ post => gives_pure _ fun _ => post
  | store va b => exact (store_spec ok live va b).post fun _ _ post _ => post

theorem run_preserves (reached : Run L code mem fails ExecMaps s) : SysOk L s := by
  induction reached with
  | boot started => exact ((main_spec L code mem fails).returned started).1
  | @call s p c next _ runs admissible made mapped ih =>
    have live : (s.procs p).state.Live := by rw [runs]; decide
    exact (call_preserves ih live c admissible).returned made mapped

end Invariant

end Xv6.Vm
