import Xv6.Lib.SleepLock
import Xv6.Lib.Runs
import Mathlib.Data.List.Basic

namespace Xv6.Locks
open Function (update update_apply update_eq_self)
open Runs

-- The three sleep locks of the file system (bio.c, ide.c, fs.c, log.c): B_BUSY of a
-- buffer, I_BUSY of an inode, log.busy. Each stretch under a spinlock, up to its release
-- or to a sleep, is one step. The contents of buffers and inodes are left out, and so is
-- nlink: whether an iput finds no links is open.

inductive Lock where
  | buf (b : Nat)
  | inode (i : Nat)
  | log
  deriving DecidableEq

structure Buf where
  dev : Nat
  sector : Nat
  busy : Bool
  valid : Bool
  dirty : Bool

structure Inode where
  dev : Nat
  inum : Nat
  ref : Nat
  busy : Bool
  valid : Bool

inductive Task where
  | bget (dev sector : Nat)
  | iderw (b : Nat)
  | ilock (i : Nat)
  | beginTrans

-- Pointers to inodes belong to owners: a local variable of a call, a working directory,
-- a struct file. ref counts those in refs, and one more for a freeing iput. pin says by
-- which owner's pointer a process locks an inode. A process that locks has its pointer
-- for as long as it locks, and a pointer is dropped by nobody else meanwhile.
structure State where
  buf : Nat → Buf
  bcache : List Nat
  idequeue : List Nat
  inode : Nat → Inode
  logBusy : Bool
  task : Nat → Option Task
  asleep : Nat → Option Lock
  held : Nat → Lock → Bool
  freeing : Nat → Option Nat
  refs : List (Nat × Nat)
  pin : Nat → Nat → Option Nat

namespace State

def setBuf (s : State) (b : Nat) (f : Buf → Buf) : State := { s with buf := Function.update s.buf b (f (s.buf b)) }
def setInode (s : State) (i : Nat) (f : Inode → Inode) : State := { s with inode := Function.update s.inode i (f (s.inode i)) }
def setTask (s : State) (p : Nat) (task : Option Task) : State := { s with task := Function.update s.task p task }
def setHeld (s : State) (p : Nat) (lock : Lock) (holds : Bool) : State :=
  { s with held := Function.update s.held p (Function.update (s.held p) lock holds) }
def setPin (s : State) (p i : Nat) (owner : Option Nat) : State :=
  { s with pin := Function.update s.pin p (Function.update (s.pin p) i owner) }
def sleep (s : State) (p : Nat) (lock : Lock) : State := { s with asleep := Function.update s.asleep p (some lock) }
def wakeup (s : State) (lock : Lock) : State := { s with asleep := Sleep.wakeup s.asleep lock }

def touch (s : State) (b : Nat) : State := { s with bcache := b :: s.bcache.erase b }
def setQueue (s : State) (queue : List Nat) : State := { s with idequeue := queue }
def setRefs (s : State) (refs : List (Nat × Nat)) : State := { s with refs := refs }
def setFreeing (s : State) (p : Nat) (i : Option Nat) : State := { s with freeing := Function.update s.freeing p i }
def setLog (s : State) (busy : Bool) : State := { s with logBusy := busy }

-- The scans of bget, from head.next and from head.prev.
def cached (s : State) (dev sector : Nat) : Option Nat :=
  s.bcache.find? fun b => (s.buf b).dev = dev ∧ (s.buf b).sector = sector
def victim (s : State) : Option Nat :=
  s.bcache.reverse.find? fun b => (s.buf b).busy = false ∧ (s.buf b).dirty = false

def ready (s : State) (b : Nat) : Bool := (s.buf b).valid && !(s.buf b).dirty

-- The scan of iget, with its result for a cached inode and for an empty slot.
def icached (s : State) (dev inum : Nat) : Option Nat :=
  (List.range 50).find? fun i => 0 < (s.inode i).ref ∧ (s.inode i).dev = dev ∧ (s.inode i).inum = inum
def iempty (s : State) : Option Nat := (List.range 50).find? fun i => (s.inode i).ref = 0

end State

inductive Event where
  | call (p : Nat) | bget (p b : Nat) | brelse (p b : Nat) | dirty (p b : Nat) | iderw (p b : Nat) | ideintr (b : Nat)
  | iget (owner i : Nat) | idup (owner i : Nat) | ilock (p i : Nat) | valid (p i : Nat) | iunlock (p i : Nat)
  | iput (p i : Nat) | freed (p i : Nat)
  | beginTrans (p : Nat) | commitTrans (p : Nat)
  | kill (p : Nat) | wakeup (lock : Lock)

-- Nobody locks inode i by the pointer of this owner, or the owner has another one.
def Droppable (s : State) (owner i : Nat) : Prop :=
  (owner,i) ∈ s.refs ∧ ((∃ p, s.pin p i = some owner) → (owner,i) ∈ s.refs.erase (owner,i))

inductive Step : State → Event → State → Prop where
  | callBget : s.task p = none → Step s (.call p) (s.setTask p (some (.bget dev sector)))
  | bgetTake : s.task p = some (.bget dev sector) → s.asleep p = none → s.cached dev sector = some b → (s.buf b).busy = false →
      Step s (.bget p b) (((s.setBuf b fun buf => { buf with busy := true }).setHeld p (.buf b) true).setTask p none)
  | bgetSleep : s.task p = some (.bget dev sector) → s.asleep p = none → s.cached dev sector = some b → (s.buf b).busy = true →
      Step s (.bget p b) (s.sleep p (.buf b))
  | bgetRecycle : s.task p = some (.bget dev sector) → s.asleep p = none → s.cached dev sector = none → s.victim = some b →
      Step s (.bget p b) (((s.setBuf b fun _ => ⟨dev,sector,true,false,false⟩).setHeld p (.buf b) true).setTask p none)
  | brelse : s.task p = none → s.held p (.buf b) = true →
      Step s (.brelse p b) ((((s.touch b).setBuf b fun buf => { buf with busy := false }).setHeld p (.buf b) false).wakeup (.buf b))
  -- bwrite and log_write mark a buffer.
  | dirty : s.task p = none → s.held p (.buf b) = true → Step s (.dirty p b) (s.setBuf b fun buf => { buf with dirty := true })
  | iderw : s.task p = none → s.held p (.buf b) = true → s.ready b = false →
      Step s (.iderw p b) (((s.setQueue (s.idequeue ++ [b])).setTask p (some (.iderw b))).sleep p (.buf b))
  | iderwSleep : s.task p = some (.iderw b) → s.asleep p = none → s.ready b = false → Step s (.iderw p b) (s.sleep p (.buf b))
  | iderwDone : s.task p = some (.iderw b) → s.asleep p = none → s.ready b = true → Step s (.iderw p b) (s.setTask p none)
  | ideintr : s.idequeue = b :: queue →
      Step s (.ideintr b) (((s.setQueue queue).setBuf b fun buf => { buf with valid := true, dirty := false }).wakeup (.buf b))
  | iget : s.icached dev inum = some i →
      Step s (.iget owner i) ((s.setInode i fun inode => { inode with ref := inode.ref+1 }).setRefs ((owner,i) :: s.refs))
  | igetRecycle : s.icached dev inum = none → s.iempty = some i →
      Step s (.iget owner i) ((s.setInode i fun _ => ⟨dev,inum,1,false,false⟩).setRefs ((owner,i) :: s.refs))
  | idup : (other,i) ∈ s.refs →
      Step s (.idup owner i) ((s.setInode i fun inode => { inode with ref := inode.ref+1 }).setRefs ((owner,i) :: s.refs))
  | callIlock : s.task p = none → s.pin p i = none → (owner,i) ∈ s.refs →
      Step s (.call p) ((s.setTask p (some (.ilock i))).setPin p i (some owner))
  -- A second ilock of an inode that the process has locked, for which it waits in vain.
  | callRelock : s.task p = none → s.pin p i ≠ none → Step s (.call p) (s.setTask p (some (.ilock i)))
  | ilockSleep : s.task p = some (.ilock i) → s.asleep p = none → (s.inode i).busy = true → Step s (.ilock p i) (s.sleep p (.inode i))
  | ilock : s.task p = some (.ilock i) → s.asleep p = none → (s.inode i).busy = false →
      Step s (.ilock p i) (((s.setInode i fun inode => { inode with busy := true }).setHeld p (.inode i) true).setTask p none)
  | valid : s.held p (.inode i) = true → Step s (.valid p i) (s.setInode i fun inode => { inode with valid := true })
  | iunlock : s.task p = none → s.held p (.inode i) = true →
      Step s (.iunlock p i) ((((s.setInode i fun inode => { inode with busy := false }).setHeld p (.inode i) false).setPin p i none).wakeup
        (.inode i))
  | iput : s.task p = none → Droppable s owner i →
      Step s (.iput p i) ((s.setInode i fun inode => { inode with ref := inode.ref-1 }).setRefs (s.refs.erase (owner,i)))
  -- The iput of a last reference to an inode without links. With I_BUSY set it panics.
  | iputFree : s.task p = none → s.freeing p = none → Droppable s owner i → (s.inode i).ref = 1 → (s.inode i).valid = true →
      (s.inode i).busy = false →
      Step s (.iput p i) (((s.setInode i fun inode => { inode with busy := true }).setRefs (s.refs.erase (owner,i))).setFreeing p (some i))
  | freed : s.task p = none → s.freeing p = some i →
      Step s (.freed p i) (((s.setInode i fun inode => { inode with busy := false, valid := false, ref := inode.ref-1 }).setFreeing
        p none).wakeup (.inode i))
  | callBegin : s.task p = none → Step s (.call p) (s.setTask p (some .beginTrans))
  | beginSleep : s.task p = some .beginTrans → s.asleep p = none → s.logBusy = true → Step s (.beginTrans p) (s.sleep p .log)
  | beginTrans : s.task p = some .beginTrans → s.asleep p = none → s.logBusy = false →
      Step s (.beginTrans p) (((s.setLog true).setHeld p .log true).setTask p none)
  | commitTrans : s.task p = none → s.held p .log = true →
      Step s (.commitTrans p) (((s.setLog false).setHeld p .log false).wakeup .log)
  | kill : Step s (.kill p) { s with asleep := Function.update s.asleep p none }
  | wakeup : Step s (.wakeup lock) (s.wakeup lock)

structure Start (s : State) : Prop where
  bcache : s.bcache = (List.range 10).reverse
  buf : ∀ b, (s.buf b).busy = false
  inode : ∀ i, (s.inode i).busy = false ∧ (s.inode i).ref = 0
  log : s.logBusy = false
  asleep : ∀ p, s.asleep p = none
  held : ∀ p lock, s.held p lock = false
  task : ∀ p, s.task p = none
  freeing : ∀ p, s.freeing p = none
  refs : s.refs = []
  pin : ∀ p i, s.pin p i = none

def State.flag (s : State) : Lock → Bool
  | .buf b => (s.buf b).busy
  | .inode i => (s.inode i).busy
  | .log => s.logBusy

def Holds (s : State) (p : Nat) (lock : Lock) : Prop :=
  s.held p lock = true ∨ ∃ i, s.freeing p = some i ∧ lock = .inode i

def State.count (s : State) (i : Nat) : Nat := s.refs.countP fun ref => ref.2 == i

def Tally (s : State) (i : Nat) : Prop :=
  (∀ p, s.freeing p = some i → (s.inode i).ref = s.count i + 1) ∧
    ((∀ p, s.freeing p ≠ some i) → (s.inode i).ref = s.count i)

structure Kept (s : State) : Prop where
  sound : SleepLock.Sound s.flag (Holds s) s.asleep
  pinned : ∀ p i owner, s.pin p i = some owner → (owner,i) ∈ s.refs
  locked : ∀ p i, s.held p (.inode i) = true → s.pin p i ≠ none
  waiting : ∀ p i, s.task p = some (.ilock i) → s.pin p i ≠ none
  driving : ∀ p b, s.task p = some (.iderw b) → s.held p (.buf b) = true
  -- iput takes I_BUSY without ilock.
  apart : ∀ p i, s.freeing p = some i → s.held p (.inode i) = false
  tally : ∀ i, Tally s i

section
variable {s t : State}

theorem Kept.unlocked (kept : Kept s) (empty : (s.inode i).ref = 0) : (s.inode i).busy = false := by
  -- A holder has a pointer that ref counts, or is the one that ref counts beside refs.
  by_contra set
  have set : s.flag (.inode i) = true := by simpa [State.flag] using set
  obtain ⟨p,taken | ⟨j,freeing,same⟩⟩ := kept.sound.owned _ set
  · obtain ⟨owner,pin⟩ := Option.ne_none_iff_exists'.mp (kept.locked p i taken)
    have member := kept.pinned p i owner pin
    have positive : 0 < s.count i := List.countP_pos_iff.mpr ⟨(owner,i),member,by simp⟩
    have tally := kept.tally i
    grind -linarith [Tally]
  · cases same
    have := (kept.tally i).1 p freeing
    omega

@[simp] theorem flag_setBuf : (s.setBuf b f).flag = update s.flag (.buf b) (f (s.buf b)).busy := by
  funext lock
  cases lock <;> simp only [State.flag,State.setBuf,update_apply,Lock.buf.injEq,reduceCtorEq,if_false]
  split <;> rfl

@[simp] theorem flag_setInode : (s.setInode i f).flag = update s.flag (.inode i) (f (s.inode i)).busy := by
  funext lock
  cases lock <;> simp only [State.flag,State.setInode,update_apply,Lock.inode.injEq,reduceCtorEq,if_false]
  split <;> rfl

@[simp] theorem flag_setLog : (s.setLog busy).flag = update s.flag .log busy := by
  funext lock
  cases lock <;> simp [State.flag,State.setLog]

@[simp] theorem flag_touch : (s.touch b).flag = s.flag := rfl
@[simp] theorem flag_setQueue : (s.setQueue queue).flag = s.flag := rfl
@[simp] theorem flag_setRefs : (s.setRefs refs).flag = s.flag := rfl
@[simp] theorem flag_setFreeing : (s.setFreeing p i).flag = s.flag := rfl
@[simp] theorem flag_setHeld : (s.setHeld p lock v).flag = s.flag := rfl
@[simp] theorem flag_setPin : (s.setPin p i owner).flag = s.flag := rfl
@[simp] theorem flag_setTask : (s.setTask p task).flag = s.flag := rfl
@[simp] theorem flag_sleep : (s.sleep p lock).flag = s.flag := rfl
@[simp] theorem flag_wakeup : (s.wakeup lock).flag = s.flag := rfl

theorem flag_buf (s : State) (b : Nat) : update s.flag (.buf b) (s.buf b).busy = s.flag :=
  update_eq_self (.buf b) s.flag

theorem flag_inode (s : State) (i : Nat) : update s.flag (.inode i) (s.inode i).busy = s.flag :=
  update_eq_self (.inode i) s.flag

@[simp, grind =] theorem held_setHeld : (s.setHeld p lock v).held q l = if q = p ∧ l = lock then v else s.held q l := by
  by_cases same : q = p
  · subst same; simp [State.setHeld,update_apply]
  · simp [State.setHeld,same]

@[simp, grind =] theorem pin_setPin : (s.setPin p i owner).pin q j = if q = p ∧ j = i then owner else s.pin q j := by
  by_cases same : q = p
  · subst same; simp [State.setPin,update_apply]
  · simp [State.setPin,same]

-- What a step does to a lock, by the lock's flag and holders before and after.

theorem Kept.stays (kept : Kept s) (flags : t.flag = s.flag) (owners : t.held = s.held ∧ t.freeing = s.freeing)
    (sleepers : ∀ p r, t.asleep p = some r → s.asleep p = some r) : SleepLock.Sound t.flag (Holds t) t.asleep := by
  refine (kept.sound.wake sleepers).congr (congrFun flags) (fun p r => ?_) (fun _ => rfl)
  rw [Holds,Holds,owners.1,owners.2]

theorem Kept.waits (kept : Kept s) (lock : Lock) (flags : t.flag = s.flag) (owners : t.held = s.held ∧ t.freeing = s.freeing)
    (sleepers : t.asleep = update s.asleep p (some lock)) (set : s.flag lock = true) :
    SleepLock.Sound t.flag (Holds t) t.asleep := by
  refine (kept.sound.sleep set p).congr (congrFun flags) (fun p r => ?_) (congrFun sleepers)
  rw [Holds,Holds,owners.1,owners.2]

theorem Kept.takes (kept : Kept s) (lock : Lock) (free : s.flag lock = false) (flags : t.flag = update s.flag lock true)
    (owners : t.held = (s.setHeld p lock true).held ∧ t.freeing = s.freeing) (sleepers : t.asleep = s.asleep) :
    SleepLock.Sound t.flag (Holds t) t.asleep := by
  refine (kept.sound.take free p).congr (congrFun flags) (fun q l => ?_) (congrFun sleepers)
  simp only [Holds,owners.1,owners.2,held_setHeld]
  grind -linarith

theorem Kept.gives (kept : Kept s) (taken : s.held p lock = true) (flags : t.flag = update s.flag lock false)
    (owners : t.held = (s.setHeld p lock false).held ∧ t.freeing = s.freeing) (sleepers : t.asleep = Sleep.wakeup s.asleep lock) :
    SleepLock.Sound t.flag (Holds t) t.asleep := by
  refine (kept.sound.release lock).congr (congrFun flags) (fun q l => ?_) (congrFun sleepers)
  -- By exclusion only p held the lock.
  have once := kept.sound.once p q lock (.inl taken)
  have apart := kept.apart
  simp only [Holds,owners.1,owners.2,held_setHeld] at once ⊢
  grind -linarith

theorem step_sound (kept : Kept s) (step : Step s event t) : SleepLock.Sound t.flag (Holds t) t.asleep := by
  have sound := kept.sound
  cases step with
  | callBget | callBegin | callIlock | callRelock | iderwDone => exact sound
  | bgetTake task awake cached free => exact kept.takes (.buf _) free (by simp) ⟨rfl,rfl⟩ rfl
  | bgetRecycle task awake missed victim =>
    have free := List.find?_some victim
    simp only [decide_eq_true_eq] at free
    exact kept.takes (.buf _) free.1 (by simp) ⟨rfl,rfl⟩ rfl
  | bgetSleep task awake cached set => exact kept.waits (.buf _) rfl ⟨rfl,rfl⟩ rfl set
  | brelse task taken => exact kept.gives taken (by simp) ⟨rfl,rfl⟩ rfl
  | dirty task taken => exact kept.stays (by simp [flag_buf]) ⟨rfl,rfl⟩ fun _ _ slept => slept
  | iderw task taken unready => exact kept.waits (.buf _) rfl ⟨rfl,rfl⟩ rfl (sound.flagged _ _ (.inl taken))
  | iderwSleep task awake unready => exact kept.waits (.buf _) rfl ⟨rfl,rfl⟩ rfl (sound.flagged _ _ (.inl (kept.driving _ _ task)))
  | ideintr queue =>
    refine kept.stays ?_ ⟨rfl,rfl⟩ fun _ _ slept => (Sleep.wakeup_some.mp slept).1
    rw [flag_wakeup,flag_setBuf]
    exact flag_buf _ _
  | iget | idup | valid | iput => exact kept.stays (by simp [flag_inode]) ⟨rfl,rfl⟩ fun _ _ slept => slept
  | igetRecycle missed empty =>
    have unused := List.find?_some empty
    have free := kept.unlocked (of_decide_eq_true unused)
    exact kept.stays (by simp [← free,flag_inode]) ⟨rfl,rfl⟩ fun _ _ slept => slept
  | ilockSleep task awake set => exact kept.waits (.inode _) rfl ⟨rfl,rfl⟩ rfl set
  | ilock task awake free => exact kept.takes (.inode _) free (by simp) ⟨rfl,rfl⟩ rfl
  | iunlock task taken => exact kept.gives taken (by simp) ⟨rfl,rfl⟩ rfl
  | @iputFree _ _ i p task idle drop one valid free =>
    have taken := sound.take (r := Lock.inode i) free p
    refine taken.congr (fun r => ?_) (fun q l => ?_) (fun _ => rfl)
    · simp
    · simp only [Holds,State.setInode,State.setFreeing,State.setRefs,update_apply]
      grind -linarith
  | freed task freeing =>
    rename_i i p
    have once := fun q => sound.once p q (.inode i) (.inr ⟨i,freeing,rfl⟩)
    have apart := kept.apart p i freeing
    refine (sound.release (.inode i)).congr (fun r => ?_) (fun q l => ?_) (fun _ => rfl)
    · simp
    · simp only [Holds,State.setInode,State.setFreeing,State.wakeup,update_apply] at once ⊢
      grind -linarith
  | beginSleep task awake set => exact kept.waits .log rfl ⟨rfl,rfl⟩ rfl set
  | beginTrans task awake free => exact kept.takes .log free (by simp) ⟨rfl,rfl⟩ rfl
  | commitTrans task taken => exact kept.gives taken (by simp) ⟨rfl,rfl⟩ rfl
  | kill =>
    refine sound.wake fun q r slept => ?_
    grind -linarith [update_apply]
  | wakeup => exact sound.wake fun p r slept => (Sleep.wakeup_some.mp slept).1

-- ref counts the pointers.

theorem count_cons : (s.setRefs ((owner,i) :: s.refs)).count j = s.count j + if j = i then 1 else 0 := by
  by_cases same : i = j
  · simp [State.count,State.setRefs,same]
  · have other : j ≠ i := fun eq => same eq.symm
    simp [State.count,State.setRefs,same,other]

theorem count_erase (member : (owner,i) ∈ s.refs) :
    (s.setRefs (s.refs.erase (owner,i))).count j + (if j = i then 1 else 0) = s.count j := by
  have perm := (List.perm_cons_erase member).countP_eq fun ref => ref.2 == j
  rw [List.countP_cons] at perm
  grind -linarith [State.count,State.setRefs]

theorem Kept.pinned_drop (kept : Kept s) (drop : Droppable s owner i) (pin : s.pin p j = some o) :
    (o,j) ∈ s.refs.erase (owner,i) := by
  have member := kept.pinned p j o pin
  by_cases same : (o,j) = (owner,i)
  · cases same
    exact drop.2 ⟨p,pin⟩
  · exact (List.mem_erase_of_ne same).mpr member

section
variable (kept : Kept s) (step : Step s event t)
include kept step

theorem step_pinned : ∀ p i owner, t.pin p i = some owner → (owner,i) ∈ t.refs := by
  have pinned := kept.pinned
  cases step with
  | callIlock task unpinned member =>
    intro q j o pin
    rw [pin_setPin] at pin
    split at pin
    · rename_i same
      obtain ⟨⟨_,rfl⟩,⟨_⟩⟩ := And.intro same pin
      exact member
    · exact pinned q j o pin
  | iunlock =>
    intro q j o pin
    have before : s.pin q j = some o := by
      simp only [State.wakeup,pin_setPin] at pin
      split at pin
      · cases pin
      · exact pin
    exact pinned q j o before
  | iget | igetRecycle | idup => exact fun p i owner pin => List.mem_cons_of_mem _ (pinned p i owner pin)
  | iput task drop => exact fun _ _ _ pin => kept.pinned_drop drop pin
  | iputFree task idle drop one valid free => exact fun _ _ _ pin => kept.pinned_drop drop pin
  | _ => exact pinned

theorem step_locked :
    ∀ p i, t.held p (.inode i) = true → t.pin p i ≠ none := by
  have locked := kept.locked
  have waiting := kept.waiting
  cases step with
  | bgetTake | bgetRecycle | brelse | callIlock | ilock | iunlock | beginTrans | commitTrans =>
    simp only [State.setHeld,State.setPin,State.setBuf,State.setInode,State.setTask,State.wakeup,State.touch,State.setLog,
      update_apply,ite_apply]
    grind -linarith
  | _ => exact locked

theorem step_waiting :
    ∀ p i, t.task p = some (.ilock i) → t.pin p i ≠ none := by
  have waiting := kept.waiting
  cases step with
  | callBget | bgetTake | bgetRecycle | iderw | iderwDone | callIlock | callRelock | ilock | iunlock | callBegin | beginTrans =>
    simp only [State.setHeld,State.setPin,State.setBuf,State.setInode,State.setTask,State.sleep,State.wakeup,State.setQueue,
      State.setLog,update_apply,ite_apply]
    grind -linarith
  | _ => exact waiting

theorem step_driving :
    ∀ p b, t.task p = some (.iderw b) → t.held p (.buf b) = true := by
  have driving := kept.driving
  cases step with
  | callBget | bgetTake | bgetRecycle | brelse | iderw | iderwDone | callIlock | callRelock | ilock | iunlock | callBegin
  | beginTrans | commitTrans =>
    simp only [State.setHeld,State.setPin,State.setBuf,State.setInode,State.setTask,State.sleep,State.wakeup,State.touch,State.setQueue,
      State.setLog,update_apply,ite_apply]
    grind -linarith
  | _ => exact driving

theorem step_apart :
    ∀ p i, t.freeing p = some i → t.held p (.inode i) = false := by
  have apart := kept.apart
  cases step with
  | bgetTake | bgetRecycle | brelse | iunlock | freed | beginTrans | commitTrans =>
    simp only [State.setHeld,State.setPin,State.setBuf,State.setInode,State.setTask,State.wakeup,State.touch,State.setFreeing,
      State.setLog,update_apply,ite_apply]
    grind -linarith
  | ilock task awake free =>
    intro q j freeing
    have set := kept.sound.flagged q (.inode j) (.inr ⟨j,freeing,rfl⟩)
    have before := apart q j freeing
    simp only [State.flag] at set
    simp only [State.setTask,held_setHeld,State.setInode]
    grind -linarith
  | iputFree task idle drop one valid free =>
    intro q j freeing
    by_contra taken
    have set := fun r => kept.sound.flagged q (.inode r)
    simp only [State.flag,Holds] at set
    simp only [State.setFreeing,State.setInode,State.setRefs,update_apply] at freeing taken
    grind -linarith
  | _ => exact apart

end

theorem Tally.same (tally : Tally s i) (freeing : t.freeing = s.freeing) (refs : t.refs = s.refs)
    (ref : (t.inode i).ref = (s.inode i).ref) : Tally t i := by
  have count : t.count i = s.count i := by rw [State.count,refs,State.count]
  simpa only [Tally,freeing,ref,count] using tally

theorem Tally.cons (tally : Tally s j) (freeing : t.freeing = s.freeing) (refs : t.refs = (owner,i) :: s.refs)
    (ref : (t.inode j).ref = (s.inode j).ref + if j = i then 1 else 0) : Tally t j := by
  have count := @count_cons s owner i j
  simp only [State.count,State.setRefs,Tally,freeing,ref,refs] at count tally ⊢
  grind -linarith

theorem Tally.erase (tally : Tally s j) (freeing : t.freeing = s.freeing) (member : (owner,i) ∈ s.refs)
    (refs : t.refs = s.refs.erase (owner,i)) (ref : (t.inode j).ref = (s.inode j).ref - if j = i then 1 else 0) : Tally t j := by
  have count := @count_erase s owner i j member
  simp only [State.count,State.setRefs,Tally,freeing,ref,refs] at count tally ⊢
  grind -linarith

theorem ref_setInode : ((s.setInode i f).inode j).ref = if j = i then (f (s.inode i)).ref else (s.inode j).ref := by
  simp only [State.setInode,update_apply]
  split <;> rfl

theorem step_tally (kept : Kept s) (step : Step s event t) : ∀ i, Tally t i := by
  intro j
  have tally : Tally s j := kept.tally j
  cases step with
  | iget cached => exact tally.cons rfl rfl (by rw [State.setRefs,ref_setInode]; grind -linarith)
  | idup member => exact tally.cons rfl rfl (by rw [State.setRefs,ref_setInode]; grind -linarith)
  | igetRecycle missed empty =>
    have unused := List.find?_some empty
    exact tally.cons rfl rfl (by rw [State.setRefs,ref_setInode]; grind -linarith)
  | iput task drop => exact tally.erase rfl drop.1 rfl (by rw [State.setRefs,ref_setInode]; grind -linarith)
  | ilock | iunlock | valid => exact tally.same rfl rfl (by simp only [State.setTask,State.setHeld,State.setPin,State.wakeup,ref_setInode]; grind -linarith)
  | iputFree task idle drop one valid free =>
    rename_i owner i p
    -- Nobody else frees the inode, for its flag was clear.
    have count := @count_erase s owner i j drop.1
    simp only [Tally,State.count,State.setFreeing,State.setRefs,ref_setInode,update_apply] at count tally ⊢
    simp only [State.setInode]
    grind -linarith
  | freed task freeing =>
    rename_i i p
    have once : ∀ q, s.freeing q = some i → q = p := fun q other =>
      kept.sound.once q p (.inode i) (.inr ⟨i,other,rfl⟩) (.inr ⟨i,freeing,rfl⟩)
    simp only [Tally,State.count,State.setFreeing,State.wakeup,ref_setInode,update_apply] at tally ⊢
    simp only [State.setInode]
    grind -linarith
  | _ => exact tally.same rfl rfl rfl

theorem step_kept (kept : Kept s) (step : Step s event t) : Kept t where
  sound := step_sound kept step
  pinned := step_pinned kept step
  locked := step_locked kept step
  waiting := step_waiting kept step
  driving := step_driving kept step
  apart := step_apart kept step
  tally := step_tally kept step

theorem Start.kept (start : Start s) : Kept s := by
  have held : ∀ p lock, ¬ Holds s p lock := fun p lock holds => by
    simp [Holds,start.held,start.freeing] at holds
  have flag : ∀ lock, s.flag lock = false := fun lock => by
    cases lock with
    | buf b => exact start.buf b
    | inode i => exact (start.inode i).1
    | log => exact start.log
  exact {
    sound := {
      once := fun p _ lock taken => absurd taken (held p lock)
      flagged := fun p lock taken => absurd taken (held p lock)
      owned := fun lock set => by simp [flag] at set
      heard := fun p _ slept => by simp [start.asleep p] at slept }
    pinned := fun p i _ pin => by simp [start.pin p i] at pin
    locked := fun p i taken => by simp [start.held] at taken
    waiting := fun p i task => by simp [start.task p] at task
    driving := fun p b task => by simp [start.task p] at task
    apart := fun p i _ => start.held p (.inode i)
    tally := fun i => by simp [Tally,State.count,start.freeing,start.refs,(start.inode i).2] }

-- Whatever the interleaving: one holder for each flag that is set, none for one that is
-- clear, and nobody asleep on a clear one.
theorem sleep_locks (run : Run Start Step events s) :
    (∀ p q lock, Holds s p lock → Holds s q lock → p = q) ∧ (∀ lock, s.flag lock = true ↔ ∃ p, Holds s p lock) ∧
      ∀ p lock, s.asleep p = some lock → s.flag lock = true := by
  have kept := run.invariant (fun _ start => start.kept) fun _ _ _ kept step => step_kept kept step
  refine ⟨kept.sound.once,fun lock => ⟨kept.sound.owned lock,?_⟩,kept.sound.heard⟩
  rintro ⟨p,taken⟩
  exact kept.sound.flagged p lock taken

end

def initial : State where
  buf _ := ⟨4294967295,0,false,false,false⟩
  bcache := (List.range 10).reverse
  idequeue := []
  inode _ := ⟨0,0,0,false,false⟩
  logBusy := false
  task _ := none
  asleep _ := none
  held _ _ := false
  freeing _ := none
  refs := []
  pin _ _ := none

-- Two processes read one sector: the second finds the first's buffer busy.
theorem sleep_locks_contended : ∃ events s, Run Start Step events s ∧ s.asleep 2 = some (.buf 0) ∧ s.flag (.buf 0) = true := by
  have start : Start initial := by constructor <;> intros <;> first | rfl | exact ⟨rfl,rfl⟩
  have called : Run Start Step [.call 1] (initial.setTask 1 (some (.bget 1 5))) := .step (.start start) (.callBget rfl)
  have taken : Run Start Step [.bget 1 0,.call 1] _ := .step called (.bgetRecycle (p := 1) rfl rfl (by decide) (by decide))
  have again : Run Start Step [.call 2,.bget 1 0,.call 1] (State.setTask _ 2 (some (.bget 1 5))) := .step taken (.callBget rfl)
  have waits : Run Start Step [.bget 2 0,.call 2,.bget 1 0,.call 1] _ := .step again (.bgetSleep (p := 2) rfl rfl (by decide) rfl)
  exact ⟨_,_,waits,rfl,(sleep_locks waits).2.2 2 _ rfl⟩

end Xv6.Locks
