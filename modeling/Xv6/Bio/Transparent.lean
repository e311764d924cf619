import Xv6.Bio.Outline

namespace Xv6.Bio
open Threads

-- The clients' protocol. A sector is used on a drive, a buffer only by its holder, and
-- not released with changes that were neither written nor logged; log_write only in the
-- caller's own transaction.
def Allowed (s : Cache) (p : Nat) : Call → Prop
  | .bread dev _ => dev < 2
  | .change b _ | .bwrite b => s.holder b = some p
  | .logWrite b => s.holder b = some p ∧ s.logBusy = some p
  | .brelse b => s.holder b = some p ∧ (s.buf b).flux = false
  | .begin => True
  | .commit => s.logBusy = some p

-- Clients keep off the log's own blocks, log the log's device only, and do not write past
-- the log a sector that the running transaction has logged.
def Apart (lay : Layout) (s : Cache) : Call → Prop
  | .bread dev sector => ¬ lay.Inside dev sector
  | .bwrite b => (s.buf b).dev = lay.dev → (s.buf b).sector ∉ s.lh
  | .logWrite b => (s.buf b).dev = lay.dev
  | _ => True

instance (lay : Layout) (dev x : Nat) : Decidable (lay.Inside dev x) := inferInstanceAs (Decidable (_ ∧ _ ∧ _))

instance (s : Cache) (p : Nat) : DecidablePred (Allowed s p)
  | .bread .. => inferInstanceAs (Decidable (_ < _))
  | .change .. | .bwrite _ | .commit => inferInstanceAs (Decidable (_ = _))
  | .logWrite _ | .brelse _ => inferInstanceAs (Decidable (_ ∧ _))
  | .begin => .isTrue trivial

instance (lay : Layout) (s : Cache) : DecidablePred (Apart lay s)
  | .bread .. => inferInstanceAs (Decidable (¬ _))
  | .bwrite _ => inferInstanceAs (Decidable (_ → _))
  | .logWrite _ => inferInstanceAs (Decidable (_ = _))
  | .change .. | .brelse _ | .begin | .commit => .isTrue trivial

def Begins (lay : Layout) (fine : Cache → Call → Prop) (s : Cache) (p : Nat) (_ : Option Got) (code : Prog (Option Got)) : Prop :=
  ∃ call, Allowed s p call ∧ fine s call ∧ code = call.code lay

abbrev System := Sys Cache Nat Op Res (Option Got)

-- binit, and a log that initlog has recovered.
structure Start (s : System) : Prop where
  code : ∀ p, s.code p = .ret none
  buf : ∀ b, (s.shared.buf b).busy = false ∧ (s.shared.buf b).valid = false ∧ (s.shared.buf b).dirty = false ∧ (s.shared.buf b).flux = false
  dev : ∀ b, (s.shared.buf b).dev = 4294967295
  bcache : s.shared.bcache = (List.range 10).reverse
  queue : s.shared.idequeue = []
  log : s.shared.logBusy = none ∧ s.shared.lh = []
  holder : ∀ b, s.shared.holder b = none
  last : s.shared.last = s.shared.disk

def Step (lay : Layout) (fine : Cache → Call → Prop) : System → Event Nat → System → Prop :=
  Threads.Step exec (Begins lay fine) fun s t => s.ideintr = some t

structure Ready (lay : Layout) (got : Option Got) (v : View) : Prop where
  quiet : v.io = none
  own : ∀ b r, v.own b = some r → r.valid = true ∧ ¬ lay.Inside r.dev r.sector
  trans : ∀ tr, v.trans = some tr → tr.Fits lay ∧ tr.installed = 0 ∧ tr.committed = false ∧ tr.adding = none
  got : ∀ g, got = some g → ∃ r, v.own g.b = some r ∧ r.At g.dev g.sector

section
variable {lay : Layout} {v w : View} {p : Nat}

theorem Ready.put (ready : Ready lay back v) (mine : v.own b = some r) (own : w.own = (v.put b r').own)
    (same : r'.valid = true ∧ r'.dev = r.dev ∧ r'.sector = r.sector) (io : w.io = v.io)
    (trans : ∀ tr, w.trans = some tr → tr.Fits lay ∧ tr.installed = 0 ∧ tr.committed = false ∧ tr.adding = none) : Ready lay none w := by
  refine ⟨io.trans ready.quiet,fun c rec has => ?_,trans,by simp⟩
  rw [own,put_own] at has
  split at has
  · cases has
    rw [same.2.1,same.2.2]
    exact ⟨same.1,(ready.own b r mine).2⟩
  · exact ready.own c rec has

theorem call_meets {s : Cache} (acc : Account lay s views tr) (ready : Ready lay back (views p)) (allowed : Allowed s p call)
    (apart : Apart lay s call) :
    ∃ next, Inv lay s (Function.update views p next) ∧ Does lay p (call.code lay) next (Ready lay) := by
  have same : Inv lay s (Function.update views p (views p)) := by rw [Function.update_eq_self]; exact ⟨tr,acc⟩
  have holds : ∀ b, s.holder b = some p → ∃ r, (views p).own b = some r ∧ r.valid = true ∧ ¬ lay.Inside r.dev r.sector ∧ s.buf b = r := by
    intro b held
    obtain ⟨r,mine⟩ := Option.ne_none_iff_exists'.mp ((acc.held.holder b p).mp held)
    exact ⟨r,mine,(ready.own b r mine).1,(ready.own b r mine).2,(acc.at_hand mine ready.quiet).1⟩
  have busy : s.logBusy = some p → (views p).trans = some tr := fun mine => by rw [acc.logged.trans,if_pos mine]
  cases call with
  | bread dev sector =>
    refine ⟨_,same,?_⟩
    refine (does_bread ready.quiet allowed fun within => absurd within apart).bind fun (b : Nat) w ⟨r,unheld,at_,valid,still,went⟩ => ?_
    subst went
    refine ⟨ready.quiet,fun c rec has => ?_,ready.trans,fun g eq => ?_⟩
    · simp only [put_own] at has
      split at has
      · cases has
        rw [at_.1,at_.2]
        exact ⟨valid,apart⟩
      · exact ready.own c rec has
    · cases eq
      exact ⟨r,Function.update_self ..,at_⟩
  | change b data =>
    obtain ⟨r,mine,valid,out,_⟩ := holds b allowed
    refine ⟨_,same,?_⟩
    refine (does_change mine ready.quiet valid fun at_ => out at_.header).next fun _ => ?_
    exact ready.put mine rfl ⟨valid,rfl,rfl⟩ rfl ready.trans
  | bwrite b =>
    obtain ⟨r,mine,valid,out,known⟩ := holds b allowed
    refine ⟨{ views p with plain := some b },⟨tr,?_⟩,?_⟩
    · refine acc.plan mine (fun home member => apart (by rw [known]; exact home) ?_) ready.quiet
      rw [known,acc.logged.lh]
      exact List.mem_of_mem_drop member
    · refine (does_bwrite_out (by exact mine) (by exact ready.quiet) valid rfl out).next fun _ => ?_
      exact ready.put mine rfl ⟨valid,rfl,rfl⟩ rfl ready.trans
  | logWrite b =>
    obtain ⟨r,mine,valid,out,known⟩ := holds b allowed.1
    have trans := busy allowed.2
    obtain ⟨fits,early⟩ := ready.trans tr trans
    have home : r.dev = lay.dev := known ▸ apart
    refine ⟨_,same,?_⟩
    refine (does_logWrite mine ready.quiet valid home out trans fits early).bind fun _ w ⟨tr',fits,early,went⟩ => ?_
    subst went
    exact ready.put mine rfl ⟨valid,rfl,rfl⟩ rfl fun tr eq => by cases eq; exact ⟨fits,early⟩
  | brelse b =>
    obtain ⟨r,mine,valid,out,known⟩ := holds b allowed.1
    refine ⟨_,same,?_⟩
    refine (does_release mine ready.quiet valid (known ▸ allowed.2) (fun tr trans => (ready.trans tr trans).2.2.2)).next fun _ => ?_
    refine ⟨ready.quiet,fun c rec has => ?_,ready.trans,by simp⟩
    simp only [Function.update_apply] at has
    split at has
    · cases has
    · exact ready.own c rec has
  | begin =>
    refine ⟨_,same,?_⟩
    refine does_begin.bind fun _ w ⟨logged,went⟩ => ?_
    subst went
    refine ⟨ready.quiet,ready.own,fun tr eq => ?_,by simp⟩
    cases eq
    exact ⟨⟨by simp,by simp,by simp,by simp⟩,rfl,rfl,rfl⟩
  | commit =>
    have trans := busy allowed
    obtain ⟨fits,early⟩ := ready.trans tr trans
    refine ⟨_,same,?_⟩
    refine (does_commitTrans ready.quiet trans fits early fun b r mine => (ready.own b r mine).2).bind fun _ w ⟨plain,went⟩ => ?_
    subst went
    exact ⟨ready.quiet,ready.own,by simp,by simp⟩

theorem Start.account {s : System} (start : Start s) :
    Account lay s.shared (fun _ => ⟨fun _ => none,none,none,none⟩) ⟨[],fun i => s.shared.disk lay.dev (lay.start+i+1),0,none,false⟩ := by
  obtain ⟨_,buf,dev,bcache,queue,log,holder,last⟩ := start
  have live : ∀ b, ¬ (s.shared.buf b).Live := by simp [Buf.Live,buf]
  refine ⟨?_,?_,?_,?_⟩
  · constructor <;> simp [holder,buf,queue]
  · constructor <;> simp [live,dev]
  · constructor <;> simp [buf,last]
  · have fits : Trans.Fits ⟨[],fun i => s.shared.disk lay.dev (lay.start+i+1),0,none,false⟩ lay := ⟨by simp,by simp,by simp,by simp⟩
    constructor <;> simp [buf,log,fits]

theorem run_account (run : Runs.Run Start (Step lay (Apart lay)) events s) :
    ∃ views tr, Account lay s.shared views tr ∧ ∀ p, Does lay p (s.code p) (views p) (Ready lay) := by
  have meets : ∃ views, Inv lay s.shared views ∧ ∀ p, Does lay p (s.code p) (views p) (Ready lay) := by
    refine Threads.Run.meets run ?_ ?_ ?_
    · intro s start
      refine ⟨fun _ => ⟨fun _ => none,none,none,none⟩,⟨_,start.account⟩,fun p => ?_⟩
      rw [start.code p]
      exact ⟨rfl,by simp,by simp,by simp⟩
    · rintro s views p got code ⟨tr,acc⟩ ready ⟨call,allowed,apart,rfl⟩
      exact call_meets acc ready allowed apart
    · rintro s views t ⟨tr,acc⟩ ran
      exact ⟨tr,acc.intr ran⟩
  obtain ⟨views,⟨tr,acc⟩,rest⟩ := meets
  exact ⟨views,tr,acc,rest⟩

-- Whatever the clients do and whichever buffers are recycled: a sector is in one buffer at
-- most, and a bread that has returned found what a client stored last. Until the header on
-- the disk names it, what was logged stays in its buffer, and while no transaction is
-- running the buffers that nobody holds are clean and agree with the disk.
theorem cache_transparent (run : Runs.Run Start (Step lay (Apart lay)) events s) :
    (∀ b c, (s.shared.buf b).Live → (s.shared.buf c).Live → (s.shared.buf b).At (s.shared.buf c).dev (s.shared.buf c).sector → b = c) ∧
    (∀ p g, s.code p = .ret (some g) → (s.shared.buf g.b).At g.dev g.sector ∧ s.shared.holder g.b = some p ∧
      (s.shared.buf g.b).valid = true ∧ (s.shared.buf g.b).data = s.shared.last g.dev g.sector) ∧
    (∀ x ∈ s.shared.lh, Store.headN (s.shared.disk lay.dev lay.start) ≠ s.shared.lh.length →
      ∃ b, (s.shared.buf b).At lay.dev x ∧ ((s.shared.buf b).valid = true ∧ (s.shared.buf b).dirty = true ∨ (s.shared.buf b).busy = true)) ∧
    (s.shared.logBusy = none → ∀ b, (s.shared.buf b).busy = false → (s.shared.buf b).dirty = false ∧
      ((s.shared.buf b).valid = true → (s.shared.buf b).data = s.shared.disk (s.shared.buf b).dev (s.shared.buf b).sector)) := by
  obtain ⟨views,tr,acc,meets⟩ := run_account run
  refine ⟨acc.keys.unique,fun p g returned => ?_,fun x member pending => ?_,fun idle b free => ?_⟩
  · have ready := meets p
    rw [returned] at ready
    obtain ⟨r,mine,at_⟩ := ready.got g rfl
    obtain ⟨known,_,_⟩ := acc.at_hand mine ready.quiet
    obtain ⟨valid,out⟩ := ready.own g.b r mine
    have data := acc.contents.data g.b (known ▸ valid) (known ▸ out)
    rw [known] at data ⊢
    rw [at_.1,at_.2] at data
    exact ⟨at_,(acc.held.holder g.b p).mpr (by simp [mine]),valid,data⟩
  · have early : tr.committed = false := by
      by_contra committed
      rw [acc.logged.lh] at pending
      exact pending (acc.logged.head (by simpa using committed)).1
    have start : tr.installed = 0 := by
      by_contra some
      have := acc.logged.committed (Nat.pos_of_ne_zero some)
      rw [early] at this
      cases this
    rw [acc.logged.lh] at member
    by_cases adding : tr.adding = some x
    · obtain ⟨p,b,r,_,has,valid,there⟩ := acc.logged.adding x adding
      have busy : (s.shared.buf b).busy = true := by
        rw [acc.held.busy,(acc.held.holder b p).mpr (by simp [has])]
        rfl
      have key := acc.held.key has
      exact ⟨b,⟨key.1.trans there.1,key.2.trans there.2⟩,.inr busy⟩
    · obtain ⟨b,valid,dirty,there⟩ := acc.logged.pinned x (by rw [start]; exact member) adding
      exact ⟨b,there,.inl ⟨valid,dirty⟩⟩
  · have empty : tr.lh = [] := by rw [← acc.logged.lh]; exact acc.logged.idle idle
    have still : (s.shared.buf b).flux = false := by have := acc.contents.flux b; grind -linarith
    have clean : (s.shared.buf b).dirty = false := by
      by_contra dirty
      have := acc.contents.marked b still (by simpa using dirty)
      simp [empty] at this
    exact ⟨clean,fun valid => acc.contents.settled b valid still clean⟩

end

def initial : System where
  shared :=
    { buf := fun _ => ⟨4294967295,0,false,false,false,Block.zero,false⟩
      bcache := (List.range 10).reverse
      idequeue := []
      disk := fun _ _ => Block.zero
      logBusy := none
      lh := []
      holder := fun _ => none
      last := fun _ _ => Block.zero }
  code _ := .ret none

theorem initial_start : Start initial where
  code _ := rfl
  buf _ := ⟨rfl,rfl,rfl,rfl⟩
  dev _ := rfl
  bcache := rfl
  queue := rfl
  log := ⟨rfl,rfl⟩
  holder _ := rfl
  last := rfl

def layout : Layout := ⟨1014,10,1,by decide,by decide⟩

def replay (fine : Cache → Call → Bool) : List (Move Nat Call) → System → Option System :=
  play exec (Call.code layout) (fun s p call => Allowed s p call && fine s call) Cache.ideintr

theorem replay_run {fine : Cache → Call → Bool} (moves : List (Move Nat Call)) (played : replay fine moves initial = some s) :
    ∃ events, Runs.Run Start (Step layout fun s call => fine s call = true) events s := by
  refine Run.play moves (fun s p a call may => ?_) (fun s t ran => ran) (.start initial_start) played
  simp only [Bool.and_eq_true,decide_eq_true_eq] at may
  exact ⟨call,may.1,may.2,rfl⟩

abbrev Moves := List (Move Nat Call)

-- A bread that misses, one that hits, a bwrite.
def miss (p : Nat) : List (Move Nat Call) := [.act p,.act p,.act p,.env,.act p]
def hit (p : Nat) : List (Move Nat Call) := [.act p,.act p]
def wrote (p : Nat) : List (Move Nat Call) := [.act p,.act p,.env,.act p]

-- Process 1 logs sector 5 with ones and releases it.
def logs : List (Move Nat Call) :=
  ([.call 1 .begin,.act 1,.call 1 (.bread 1 5)] : Moves) ++ miss 1 ++
  ([.call 1 (.change 0 fun _ => 1),.act 1,.call 1 (.logWrite 0),.act 1,.act 1,.act 1] : Moves) ++ miss 1 ++ ([.act 1,.act 1] : Moves) ++
  wrote 1 ++ ([.act 1,.act 1,.act 1,.call 1 (.brelse 0),.act 1] : Moves)

-- Process 2 stores twos there and writes them itself.
def overwrites : List (Move Nat Call) :=
  ([.call 2 (.bread 1 5)] : Moves) ++ hit 2 ++ ([.call 2 (.change 0 fun _ => 2),.act 2,.call 2 (.bwrite 0)] : Moves) ++ wrote 2 ++
  ([.call 2 (.brelse 0),.act 2] : Moves)

def commits : List (Move Nat Call) :=
  ([.call 1 .commit,.act 1] : Moves) ++ miss 1 ++ ([.act 1,.act 1,.act 1] : Moves) ++ wrote 1 ++ ([.act 1,.act 1] : Moves) ++
  hit 1 ++ hit 1 ++ ([.act 1,.act 1] : Moves) ++ wrote 1 ++ ([.act 1,.act 1,.act 1] : Moves) ++
  hit 1 ++ ([.act 1,.act 1,.act 1] : Moves) ++ wrote 1 ++ ([.act 1,.act 1] : Moves)

def reads : List (Move Nat Call) := [.call 2 (.bread 1 5)] ++ hit 2

-- The logged ones go home over the twos, so what comes back is not what was stored last.
theorem logged_sector_overwritten : ∃ events s, Runs.Run Start (Step layout fun _ _ => True) events s ∧
    ∃ g, s.code 2 = .ret (some g) ∧ (s.shared.buf g.b).data ≠ s.shared.last g.dev g.sector ∧
      s.shared.disk g.dev g.sector ≠ s.shared.last g.dev g.sector := by
  have ends : ((replay (fun _ _ => true) (logs ++ overwrites ++ commits ++ reads) initial).bind fun s => match s.code 2 with
      | .ret (some g) => some ((s.shared.buf g.b).data 0,s.shared.disk g.dev g.sector 0,s.shared.last g.dev g.sector 0)
      | _ => none) = some (1,1,2) := by decide +kernel
  obtain ⟨s,played,found⟩ := Option.bind_eq_some_iff.mp ends
  obtain ⟨events,run⟩ := replay_run _ played
  simp only at run
  split at found
  · rename_i g returned
    simp only [Option.some.injEq,Prod.mk.injEq] at found
    obtain ⟨data,disk,last⟩ := found
    refine ⟨events,s,run,g,returned,fun same => ?_,fun same => ?_⟩
    · rw [same,last] at data
      exact absurd data (by decide)
    · rw [same,last] at disk
      exact absurd disk (by decide)
  · cases found

-- Process 2 reads what process 1 logged, and again when it is home.
theorem cache_transparent_logged : ∃ events s, Runs.Run Start (Step layout (Apart layout)) events s ∧ s.shared.logBusy = none ∧
    ∃ g, s.code 2 = .ret (some g) ∧ (s.shared.buf g.b).data = s.shared.last g.dev g.sector ∧ (s.shared.buf g.b).data 0 = 1 := by
  have ends : ((replay (fun s call => Apart layout s call) (logs ++ commits ++ reads) initial).bind fun s => match s.code 2 with
      | .ret (some g) => some (s.shared.logBusy,(s.shared.buf g.b).data 0)
      | _ => none) = some (none,1) := by decide +kernel
  obtain ⟨s,played,found⟩ := Option.bind_eq_some_iff.mp ends
  obtain ⟨events,run⟩ := replay_run _ played
  simp only [decide_eq_true_eq] at run
  split at found
  · rename_i g returned
    simp only [Option.some.injEq,Prod.mk.injEq] at found
    exact ⟨events,s,run,found.1,g,returned,((cache_transparent run).2.1 2 g returned).2.2.2,found.2⟩
  · cases found

end Xv6.Bio
