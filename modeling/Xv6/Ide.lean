import Xv6.Disk
import Xv6.Lib.Linked
import Xv6.Lib.Runs
import Xv6.Lib.Sleep

namespace Xv6.Ide
open Function (update update_eq_self update_of_ne update_self)
open Runs Linked

-- ide.c, with the processes that call iderw, the disk and its interrupts. What a call
-- does from acquire(&idelock), or from the return of sleep, to release or to the next
-- sleep is one step.

structure Buf where
  busy : Bool
  valid : Bool
  dirty : Bool
  dev : Nat
  sector : Nat
  qnext : Option Nat
  data : Block

-- The drive and the 28 bits of the sector number that idestart puts out.
def Buf.place (b : Buf) : Nat × Nat := (b.dev % 2,b.sector % 268435456)

inductive Command where
  | read
  | write (data : Block)

-- The device has no command, executes one, or has executed it and raised its interrupt;
-- data is then the contents of the sector.
inductive Device where
  | idle
  | busy (place : Nat × Nat) (command : Command)
  | done (data : Block)

inductive Panic where
  | notBusy | nothingToDo | noDisk1
  deriving DecidableEq

-- A call of iderw that has not returned: wrote is b->data at the time of the call if b was
-- dirty then; queued says that the buffer has been appended.
structure Call where
  buf : Nat
  wrote : Option Block
  queued : Bool

-- holder says which process has set B_BUSY. The last five fields are a record only: the
-- requests appended, started and completed, the sector when the last request of a buffer
-- was completed, and whether so far no two buffers were held for one sector, as bget sees to.
structure State where
  buf : Nat → Buf
  idequeue : Option Nat
  havedisk1 : Bool
  device : Device
  disk : Nat × Nat → Block
  holder : Nat → Option Nat
  call : Nat → Option Call
  asleep : Nat → Option Nat
  panic : Option Panic
  appended : List Nat
  started : List Nat
  completed : List Nat
  answer : Nat → Block
  alone : Prop

def State.setBuf (s : State) (b : Nat) (new : Buf) : State := { s with buf := Function.update s.buf b new }

@[simp] theorem State.setBuf_self (s : State) (b : Nat) (new : Buf) : (s.setBuf b new).buf b = new := update_self ..

theorem State.setBuf_other (s : State) (new : Buf) (other : c ≠ b) : (s.setBuf b new).buf c = s.buf c :=
  update_of_ne other _ _

def State.qnext (s : State) (b : Nat) : Option Nat := (s.buf b).qnext

-- *pp = b
def State.setLink (s : State) (b : Nat) : Link Nat → State
  | .head => { s with idequeue := some b }
  | .next c => s.setBuf c { s.buf c with qnext := some b }

def Buf.command (b : Buf) : Command := if b.dirty then .write b.data else .read

def idestart (s : State) (b : Nat) : State :=
  { s with device := .busy (s.buf b).place (s.buf b).command, started := s.started ++ [b] }

def Device.data : Device → Block
  | .done data => data
  | _ => .zero

-- The handler once it has taken b off the queue; idewait(1) reports no error.
def finish (s : State) (b : Nat) : State :=
  let old := s.buf b
  let s := s.setBuf b { old with data := if old.dirty then old.data else s.device.data, valid := true, dirty := false }
  { s with device := .idle, asleep := Sleep.wakeup s.asleep b, completed := s.completed ++ [b],
           answer := Function.update s.answer b (s.disk old.place) }

def ideintr (s : State) : State :=
  match s.idequeue with
  | none => s
  | some b =>
    let s := finish { s with idequeue := s.qnext b } b
    match s.idequeue with
    | none => s
    | some next => idestart s next

-- iderw up to acquire.
def iderwEnter (s : State) (p b : Nat) : State :=
  let old := s.buf b
  if ¬ old.busy then { s with panic := some .notBusy }
  else if old.valid ∧ ¬ old.dirty then { s with panic := some .nothingToDo }
  else if old.dev ≠ 0 ∧ ¬ s.havedisk1 then { s with panic := some .noDisk1 }
  else { s with call := Function.update s.call p (some ⟨b,if old.dirty then some old.data else none,false⟩) }

-- The loop at the end of iderw: whether the call returns, or else sleeps on b.
def iderwWait (s : State) (p b : Nat) : State × Bool :=
  if (s.buf b).valid ∧ ¬ (s.buf b).dirty then ({ s with call := Function.update s.call p none },true)
  else ({ s with asleep := Function.update s.asleep p (some b) },false)

-- b goes to the end of the queue; none if the walk to the end takes more than fuel links.
def iderwAppend (fuel : Nat) (s : State) (p b : Nat) (wrote : Option Block) : Option State :=
  let s := s.setBuf b { s.buf b with qnext := none }
  match lastLink s.idequeue s.qnext fuel .head with
  | none => none
  | some pp =>
    let s := s.setLink b pp
    let s := { s with appended := s.appended ++ [b], call := Function.update s.call p (some ⟨b,wrote,true⟩) }
    some (if s.idequeue = some b then idestart s b else s)

def State.execute (s : State) (place : Nat × Nat) : Command → State
  | .read => { s with device := .done (s.disk place) }
  | .write data => { s with device := .done data, disk := Function.update s.disk place data }

inductive Event where
  | acquire (p b : Nat) | change (p b : Nat) | release (p b : Nat)
  | enter (p b : Nat) | returned (p b : Nat) | slept (p b : Nat) | rouse (p : Nat)
  | execute | interrupt

-- Buffers are taken, changed and given back as bget, the callers of bread and brelse do. A
-- process may be woken for reasons of its own.
inductive Step : State → Event → State → Prop where
  | acquire : s.panic = none → s.holder b = none → new.busy = true → new.qnext = s.qnext b →
      Step s (.acquire p b) { s.setBuf b new with
        holder := Function.update s.holder b (some p),
        alone := s.alone ∧ ∀ c, c ≠ b → s.holder c ≠ none → (s.buf c).place ≠ new.place }
  | change : s.panic = none → s.holder b = some p → s.call p = none →
      Step s (.change p b) (s.setBuf b { s.buf b with valid := valid, dirty := dirty, data := data })
  | release : s.panic = none → s.holder b = some p → s.call p = none →
      Step s (.release p b) { s.setBuf b { s.buf b with busy := false } with holder := Function.update s.holder b none }
  | enter : s.panic = none → s.holder b = some p ∨ s.holder b = none → s.call p = none → Step s (.enter p b) (iderwEnter s p b)
  | append : s.panic = none → s.call p = some ⟨b,wrote,false⟩ → iderwAppend fuel s p b wrote = some mid →
      iderwWait mid p b = (next,returns) → Step s (if returns then .returned p b else .slept p b) next
  | wait : s.panic = none → s.call p = some ⟨b,wrote,true⟩ → s.asleep p = none → iderwWait s p b = (next,returns) →
      Step s (if returns then .returned p b else .slept p b) next
  | rouse : s.panic = none → Step s (.rouse p) { s with asleep := Function.update s.asleep p none }
  | execute : s.panic = none → s.device = .busy place command → Step s .execute (s.execute place command)
  | interrupt : s.panic = none → s.device = .done data → Step s .interrupt (ideintr s)
  | spurious : s.panic = none → s.idequeue = none → Step s .interrupt (ideintr s)

structure Start (s : State) : Prop where
  idequeue : s.idequeue = none
  device : s.device = .idle
  holder : ∀ b, s.holder b = none
  busy : ∀ b, (s.buf b).busy = false
  call : ∀ p, s.call p = none
  asleep : ∀ p, s.asleep p = none
  panic : s.panic = none
  appended : s.appended = []
  started : s.started = []
  completed : s.completed = []

section
variable {s next : State} {q : List Nat}

structure Pending (b : Buf) (c : Call) : Prop where
  todo : b.valid = false ∨ b.dirty = true
  wrote : c.wrote = if b.dirty then some b.data else none

structure Served (b : Buf) (answer : Block) (c : Call) : Prop where
  valid : b.valid = true
  clean : b.dirty = false
  data : b.data = answer
  wrote : ∀ data, c.wrote = some data → b.data = data

def Serves (s : State) : List Nat → Prop
  | [] => s.device = .idle
  | b :: _ => s.device = .busy (s.buf b).place (s.buf b).command ∨
      ∃ data, s.device = .done data ∧ s.disk (s.buf b).place = data ∧ ((s.buf b).dirty = true → (s.buf b).data = data)

structure Inv (s : State) (q : List Nat) : Prop where
  chained : Chained s.qnext s.idequeue q
  nodup : q.Nodup
  device : Serves s q
  waiting : ∀ b ∈ q, ∃ p wrote, s.call p = some ⟨b,wrote,true⟩
  holder : ∀ p c, s.call p = some c → s.holder c.buf = some p
  fresh : ∀ p c, s.call p = some c → c.queued = false → c.buf ∉ q
  pending : ∀ p c, s.call p = some c → c.queued = false ∨ c.buf ∈ q → Pending (s.buf c.buf) c
  served : ∀ p c, s.call p = some c → c.queued = true → c.buf ∉ q → Served (s.buf c.buf) (s.answer c.buf) c
  sector : s.alone → ∀ p c, s.call p = some c → c.queued = true → c.buf ∉ q → s.disk (s.buf c.buf).place = (s.buf c.buf).data
  asleep : ∀ p b, s.asleep p = some b → b ∈ q ∧ ∃ wrote, s.call p = some ⟨b,wrote,true⟩
  appended : s.appended = s.completed ++ q
  started : s.started = s.completed ++ q.take 1
  busy : ∀ b, (s.buf b).busy = (s.holder b).isSome
  alone : s.alone → ∀ b c, b ≠ c → s.holder b ≠ none → s.holder c ≠ none → (s.buf b).place ≠ (s.buf c).place

theorem Start.inv (start : Start s) : Inv s [] where
  chained := by rw [start.idequeue]; exact .nil
  nodup := .nil
  device := start.device
  waiting := by simp
  holder := by simp [start.call]
  fresh := by simp
  pending := by simp [start.call]
  served := by simp [start.call]
  sector := by simp [start.call]
  asleep := by simp [start.asleep]
  appended := by rw [start.appended,start.completed]; rfl
  started := by rw [start.started,start.completed]; rfl
  busy b := by rw [start.busy,start.holder]; rfl
  alone := by simp [start.holder]

theorem Inv.idle (inv : Inv s q) (free : ∀ p c, s.call p = some c → c.buf ≠ b) : b ∉ q := by
  intro member
  obtain ⟨p,wrote,calls⟩ := inv.waiting b member
  exact free p _ calls rfl

theorem Inv.touch (inv : Inv s q) (new : Buf) (holder : Option Nat) (ok : Prop) (free : ∀ p c, s.call p = some c → c.buf ≠ b)
    (busy : new.busy = holder.isSome) (older : ok → s.alone)
    (apart : ok → holder ≠ none → ∀ c, c ≠ b → s.holder c ≠ none → (s.buf c).place ≠ new.place) :
    Inv { s.setBuf b new with holder := update s.holder b holder, alone := ok } q := by
  have out := inv.idle free
  have called : ∀ p c, s.call p = some c → (s.setBuf b new).buf c.buf = s.buf c.buf :=
    fun p c calls => s.setBuf_other new (free p c calls)
  refine { inv with chained := ?chained, device := ?device, holder := ?holder, pending := ?pending,
                    served := ?served, sector := ?sector, busy := ?busy, alone := ?alone }
  case chained =>
    refine inv.chained.congr fun c member => ?_
    show ((s.setBuf b new).buf c).qnext = (s.buf c).qnext
    rw [s.setBuf_other new]
    rintro rfl
    exact out member
  case device =>
    cases q with
    | nil => exact inv.device
    | cons c rest =>
      have same : (s.setBuf b new).buf c = s.buf c := s.setBuf_other new (by rintro rfl; exact out (by simp))
      have serves := inv.device
      simp only [Serves] at serves ⊢
      rw [same]
      exact serves
  case holder =>
    intro p c calls
    show update s.holder b holder c.buf = some p
    rw [update_of_ne (free p c calls)]
    exact inv.holder p c calls
  case pending =>
    intro p c calls
    rw [called p c calls]
    exact inv.pending p c calls
  case served =>
    intro p c calls
    rw [called p c calls]
    exact inv.served p c calls
  case sector =>
    intro alone p c calls
    rw [called p c calls]
    exact inv.sector (older alone) p c calls
  case busy =>
    intro c
    show ((s.setBuf b new).buf c).busy = (update s.holder b holder c).isSome
    by_cases here : c = b
    · subst here
      rw [State.setBuf_self,update_self,busy]
    · rw [s.setBuf_other new here,update_of_ne here]
      exact inv.busy c
  case alone =>
    intro alone c d other
    show update s.holder b holder c ≠ none → update s.holder b holder d ≠ none →
      ((s.setBuf b new).buf c).place ≠ ((s.setBuf b new).buf d).place
    by_cases first : c = b
    · subst first
      rw [update_self,update_of_ne other.symm,State.setBuf_self,s.setBuf_other new other.symm]
      exact fun mine yours => (apart alone mine d other.symm yours).symm
    rw [update_of_ne first,s.setBuf_other new first]
    by_cases second : d = b
    · subst second
      rw [update_self,State.setBuf_self]
      exact fun yours mine => apart alone mine c first yours
    · rw [update_of_ne second,s.setBuf_other new second]
      exact inv.alone (older alone) c d other

theorem Inv.free (inv : Inv s q) (free : s.holder b = none ∨ ∃ p, s.holder b = some p ∧ s.call p = none) :
    ∀ p c, s.call p = some c → c.buf ≠ b := by
  rintro p c calls rfl
  have holder := inv.holder p c calls
  rcases free with none | ⟨p',held,none⟩
  · rw [none] at holder; cases holder
  · rw [held] at holder
    cases holder
    rw [none] at calls
    cases calls

theorem update_some {α : Type} {f : Nat → Option α} {new : Option α} {c : α} (called : update f p new p' = some c) :
    (p' ≠ p ∧ f p' = some c) ∨ (p' = p ∧ new = some c) := by
  by_cases here : p' = p
  · subst here
    rw [update_self] at called
    exact .inr ⟨rfl,called⟩
  · rw [update_of_ne here] at called
    exact .inl ⟨here,called⟩

-- Only the calls change: those of the queue stay, and a new one has its buffer to itself.
theorem Inv.recall (inv : Inv s q) (still : ∀ p c wrote, c ∈ q → s.call p = some ⟨c,wrote,true⟩ → call p = some ⟨c,wrote,true⟩)
    (each : ∀ p c, call p = some c → s.call p = some c ∨ (s.holder c.buf = some p ∧ c.queued = false ∧ c.buf ∉ q ∧ Pending (s.buf c.buf) c)) :
    Inv { s with call := call } q := by
  -- A new call is not queued yet.
  have queued : ∀ p c, call p = some c → c.queued = true → s.call p = some c := by
    intro p c called queued
    rcases each p c called with old | ⟨_,new,_⟩
    · exact old
    · rw [new] at queued
      cases queued
  refine { inv with waiting := ?waiting, holder := ?holder, fresh := ?fresh, pending := ?pending,
                    served := ?served, sector := ?sector, asleep := ?asleep }
  case waiting =>
    intro c member
    obtain ⟨p,wrote,called⟩ := inv.waiting c member
    exact ⟨p,wrote,still p c wrote member called⟩
  case asleep =>
    intro p c asleep
    obtain ⟨member,wrote,called⟩ := inv.asleep p c asleep
    exact ⟨member,wrote,still p c wrote member called⟩
  case holder =>
    intro p c called
    rcases each p c called with old | ⟨mine,_⟩
    · exact inv.holder p c old
    · exact mine
  case fresh =>
    intro p c called unqueued
    rcases each p c called with old | ⟨_,_,out,_⟩
    · exact inv.fresh p c old unqueued
    · exact out
  case pending =>
    intro p c called todo
    rcases each p c called with old | ⟨_,_,_,pending⟩
    · exact inv.pending p c old todo
    · exact pending
  case served => exact fun p c called now => inv.served p c (queued p c called now) now
  case sector => exact fun alone p c called now => inv.sector alone p c (queued p c called now) now

theorem enter_inv (inv : Inv s q) (held : s.holder b = some p ∨ s.holder b = none) (none : s.call p = none) :
    Inv (iderwEnter s p b) q := by
  unfold iderwEnter
  dsimp only
  split
  · exact { inv with }
  split
  · exact { inv with }
  split
  · exact { inv with }
  rename_i busy todo _
  have mine : s.holder b = some p := by
    rcases held with some | free
    · exact some
    · have := inv.busy b
      rw [free] at this
      exact absurd (not_not.mp busy) (by rw [this]; decide)
  have free := inv.free (.inr ⟨p,mine,none⟩)
  refine inv.recall (fun p' c w member called => ?_) fun p' c called => ?_
  · rw [update_of_ne ?_]
    · exact called
    · rintro rfl
      rw [none] at called
      cases called
  obtain ⟨_,old⟩ | ⟨rfl,⟨⟩⟩ := update_some called
  · exact .inl old
  refine .inr ⟨mine,rfl,inv.idle free,?_,rfl⟩
  by_cases valid : (s.buf b).valid = true
  · by_cases dirty : (s.buf b).dirty = true
    · exact .inr dirty
    · exact absurd ⟨valid,dirty⟩ todo
  · exact .inl (by simpa using valid)

theorem Inv.gone (inv : Inv s q) (calls : s.call p = some c) (valid : (s.buf c.buf).valid = true) (clean : ¬ (s.buf c.buf).dirty = true) :
    c.buf ∉ q := by
  intro member
  rcases (inv.pending p c calls (.inr member)).todo with invalid | dirty
  · rw [valid] at invalid
    cases invalid
  · exact clean dirty

theorem wait_inv (inv : Inv s q) (calls : s.call p = some ⟨b,wrote,true⟩) (ran : iderwWait s p b = (next,returns)) : Inv next q := by
  unfold iderwWait at ran
  split at ran
  · rename_i returns
    obtain ⟨rfl,-⟩ := Prod.mk.inj ran
    have gone : b ∉ q := inv.gone calls returns.1 returns.2
    refine inv.recall (fun p' c w member called => ?_) fun p' c called => .inl ?_
    · rw [update_of_ne ?_]
      · exact called
      · rintro rfl
        rw [calls] at called
        cases called
        exact gone member
    · obtain ⟨_,old⟩ | ⟨_,⟨⟩⟩ := update_some called
      exact old
  · rename_i more
    obtain ⟨rfl,-⟩ := Prod.mk.inj ran
    refine { inv with asleep := fun p' c asleep => ?_ }
    obtain ⟨_,old⟩ | ⟨rfl,⟨⟩⟩ := update_some asleep
    · exact inv.asleep p' c old
    · refine ⟨?_,wrote,calls⟩
      by_contra gone
      have served := inv.served p' _ calls rfl gone
      exact more ⟨served.valid,by rw [served.clean]; decide⟩

theorem execute_inv (inv : Inv s q) (device : s.device = .busy place command) : Inv (s.execute place command) q := by
  cases q with
  | nil =>
    have idle : s.device = .idle := inv.device
    rw [device] at idle
    cases idle
  | cons b rest =>
    have running : place = (s.buf b).place ∧ command = (s.buf b).command := by
      rcases inv.device with busy | ⟨data,done,_⟩
      · rw [device] at busy
        cases busy
        exact ⟨rfl,rfl⟩
      · rw [device] at done
        cases done
    obtain ⟨rfl,rfl⟩ := running
    obtain ⟨p,wrote,calls⟩ := inv.waiting b (by simp)
    have held := inv.holder p _ calls
    unfold Buf.command
    by_cases dirty : (s.buf b).dirty = true
    · rw [if_pos dirty]
      refine { inv with device := .inr ⟨_,rfl,update_self ..,fun _ => rfl⟩, sector := fun alone p' c called queued gone => ?_ }
      have other : (s.buf c.buf).place ≠ (s.buf b).place :=
        inv.alone alone c.buf b (by rintro rfl; exact gone (by simp)) (by rw [inv.holder p' c called]; simp) (by rw [held]; simp)
      show update s.disk _ _ (s.buf c.buf).place = _
      rw [update_of_ne other]
      exact inv.sector alone p' c called queued gone
    · rw [if_neg dirty]
      exact { inv with device := .inr ⟨_,rfl,rfl,fun wrong => absurd wrong dirty⟩ }

theorem finish_inv (inv : Inv s (b :: rest)) (done : s.device = .done data) {next : State} (device : Device)
    (eq : next = { finish { s with idequeue := s.qnext b } b with device := device, started := s.completed ++ [b] ++ rest.take 1 })
    (serves : Serves next rest) : Inv next rest := by
  have first : b ∉ rest := (List.nodup_cons.mp inv.nodup).1
  have other : ∀ c, c ≠ b → next.buf c = s.buf c := fun c ne => by rw [eq]; exact update_of_ne ne _ _
  have later : ∀ c ∈ rest, c ≠ b := by
    rintro c member rfl
    exact first member
  obtain ⟨sector,written⟩ : s.disk (s.buf b).place = data ∧ ((s.buf b).dirty = true → (s.buf b).data = data) := by
    rcases inv.device with busy | ⟨d,finished,same,written⟩
    · rw [done] at busy
      cases busy
    · rw [done] at finished
      cases finished
      exact ⟨same,written⟩
  have here : next.buf b = { s.buf b with data := data, valid := true, dirty := false } := by
    have own : next.buf b =
        { s.buf b with data := if (s.buf b).dirty then (s.buf b).data else s.device.data, valid := true, dirty := false } := by
      rw [eq]
      exact update_self ..
    have data_eq : (if (s.buf b).dirty then (s.buf b).data else s.device.data) = data := by
      split
      · rename_i dirty
        exact written dirty
      · rw [done]
        rfl
    rw [own,data_eq]
  have calls : next.call = s.call := by rw [eq]; rfl
  have holders : next.holder = s.holder := by rw [eq]; rfl
  have disk : next.disk = s.disk := by rw [eq]; rfl
  have alone : next.alone = s.alone := by rw [eq]; rfl
  have answer : next.answer = update s.answer b data := by rw [eq,← sector]; rfl
  have place : ∀ c, (next.buf c).place = (s.buf c).place := fun c => by
    by_cases same : c = b
    · rw [same,here]; rfl
    · rw [other c same]
  have queued : ∀ p c, s.call p = some c → c.queued = true → c.buf ∉ rest → c.buf = b ∨ c.buf ∉ b :: rest := by
    intro p c _ _ gone
    by_cases same : c.buf = b
    · exact .inl same
    · exact .inr (by simp [same,gone])
  refine ⟨?chained,(List.nodup_cons.mp inv.nodup).2,serves,?waiting,?holder,?fresh,?pending,?served,?sector,?asleep,?appended,?started,
    ?busy,?alone⟩
  case chained =>
    have idequeue : next.idequeue = s.qnext b := by rw [eq]; rfl
    rw [idequeue]
    refine inv.chained.tail.congr fun c member => ?_
    show (next.buf c).qnext = (s.buf c).qnext
    rw [other c (later c member)]
  case waiting =>
    rw [calls]
    exact fun c member => inv.waiting c (by simp [member])
  case holder =>
    rw [calls,holders]
    exact inv.holder
  case fresh =>
    rw [calls]
    exact fun p c called new member => inv.fresh p c called new (by simp [member])
  case pending =>
    rw [calls]
    intro p c called new
    have apart : c.buf ≠ b := by
      rcases new with new | member
      · rintro same
        exact inv.fresh p c called new (by simp [same])
      · exact later _ member
    rw [other _ apart]
    exact inv.pending p c called (new.imp_right fun member => by simp [member])
  case served =>
    rw [calls,answer]
    intro p c called que gone
    rcases queued p c called que gone with same | gone
    · have pending := inv.pending p c called (.inr (by simp [same]))
      rw [same] at pending ⊢
      rw [here,update_self]
      refine ⟨rfl,rfl,rfl,fun d wrote => ?_⟩
      rw [pending.wrote] at wrote
      split at wrote
      · rename_i dirty
        rw [← written dirty]
        exact Option.some.inj wrote
      · cases wrote
    · have apart : c.buf ≠ b := fun same => gone (by simp [same])
      rw [other _ apart,update_of_ne apart]
      exact inv.served p c called que gone
  case sector =>
    rw [calls,alone,disk]
    intro ok p c called que gone
    rcases queued p c called que gone with same | gone
    · rw [same,here]
      exact sector
    · rw [other _ fun same => gone (by simp [same])]
      exact inv.sector ok p c called que gone
  case asleep =>
    rw [calls]
    intro p c asleep
    have woken : next.asleep = Sleep.wakeup s.asleep b := by rw [eq]; rfl
    rw [woken,Sleep.wakeup_some] at asleep
    obtain ⟨member,wrote,called⟩ := inv.asleep p c asleep.1
    refine ⟨?_,wrote,called⟩
    rcases List.mem_cons.mp member with same | member
    · exact absurd same asleep.2
    · exact member
  case appended =>
    have same : next.appended = s.appended := by rw [eq]; rfl
    have completed : next.completed = s.completed ++ [b] := by rw [eq]; rfl
    rw [same,completed,inv.appended,List.append_assoc]
    rfl
  case started =>
    have completed : next.completed = s.completed ++ [b] := by rw [eq]; rfl
    have started : next.started = s.completed ++ [b] ++ rest.take 1 := by rw [eq]
    rw [completed,started]
  case busy =>
    rw [holders]
    intro c
    rw [← inv.busy c]
    by_cases same : c = b
    · rw [same,here]
    · rw [other c same]
  case alone =>
    rw [alone,holders]
    intro ok c d
    rw [place,place]
    exact inv.alone ok c d

theorem interrupt_inv (inv : Inv s q) (done : s.device = .done data) : ∃ rest, Inv (ideintr s) rest := by
  cases q with
  | nil =>
    have idle : s.device = .idle := inv.device
    rw [done] at idle
    cases idle
  | cons b rest =>
    have head : s.idequeue = some b := inv.chained.head_eq
    have tail : s.qnext b = rest.head? := inv.chained.tail.head_eq
    have started := inv.started
    simp only [List.take_succ_cons,List.take_zero] at started
    refine ⟨rest,?_⟩
    unfold ideintr
    simp only [head]
    cases rest with
    | nil =>
      have none : (finish { s with idequeue := s.qnext b } b).idequeue = none := tail
      simp only [none]
      refine finish_inv inv done .idle ?_ rfl
      rw [List.take_nil,List.append_nil,← started]
      rfl
    | cons c rest =>
      have some : (finish { s with idequeue := s.qnext b } b).idequeue = some c := tail
      simp only [some]
      refine finish_inv inv done (idestart (finish { s with idequeue := s.qnext b } b) c).device ?_ (.inl rfl)
      have logged : (finish { s with idequeue := s.qnext b } b).started = s.completed ++ [b] := started
      rw [idestart,logged]
      rfl

def State.linked (s : State) (b : Nat) (pp : Link Nat) : State := (s.setBuf b { s.buf b with qnext := none }).setLink b pp

theorem linked_buf (s : State) (b : Nat) (pp : Link Nat) (c : Nat) : ∃ n, (s.linked b pp).buf c = { s.buf c with qnext := n } := by
  have first : ∃ n, (s.setBuf b { s.buf b with qnext := none }).buf c = { s.buf c with qnext := n } := by
    by_cases here : c = b
    · subst here
      exact ⟨none,State.setBuf_self ..⟩
    · exact ⟨(s.buf c).qnext,s.setBuf_other _ here⟩
  cases pp with
  | head => exact first
  | next d =>
    by_cases here : c = d
    · subst here
      obtain ⟨n,eq⟩ := first
      refine ⟨some b,?_⟩
      show ((s.setBuf b _).setBuf c _).buf c = _
      rw [State.setBuf_self,eq]
    · obtain ⟨n,eq⟩ := first
      exact ⟨n,(State.setBuf_other _ _ here).trans eq⟩

theorem Inv.unlinked (inv : Inv s q) (new : b ∉ q) : Chained (s.setBuf b { s.buf b with qnext := none }).qnext s.idequeue q := by
  refine inv.chained.congr fun c member => ?_
  show ((s.setBuf b _).buf c).qnext = (s.buf c).qnext
  rw [s.setBuf_other]
  rintro rfl
  exact new member

theorem linked_chained (inv : Inv s q) (new : b ∉ q)
    (ended : lastLink s.idequeue (s.setBuf b { s.buf b with qnext := none }).qnext fuel .head = some pp) :
    Chained (s.linked b pp).qnext (s.linked b pp).idequeue (q ++ [b]) := by
  have unlinked := inv.unlinked new
  have last : (s.setBuf b { s.buf b with qnext := none }).qnext b = none := by
    rw [State.qnext,State.setBuf_self]
  have longer := unlinked.append new inv.nodup last
  have walk : Chained _ (target s.idequeue (s.setBuf b { s.buf b with qnext := none }).qnext .head) q := unlinked
  rw [← lastLink_end walk ended] at longer
  cases pp with
  | head => exact longer
  | next c =>
    have table : (s.linked b (.next c)).qnext = update (s.setBuf b { s.buf b with qnext := none }).qnext c (some b) := by
      funext d
      by_cases here : d = c
      · subst here
        rw [update_self,State.qnext]
        show (((s.setBuf b _).setBuf d _).buf d).qnext = _
        rw [State.setBuf_self]
      · rw [update_of_ne here,State.qnext]
        show (((s.setBuf b _).setBuf c _).buf d).qnext = _
        rw [State.setBuf_other _ _ here]
        rfl
    rw [table]
    exact longer

structure Linked (s next : State) (p b : Nat) (wrote : Option Block) : Prop where
  buf : ∀ c, ∃ n, next.buf c = { s.buf c with qnext := n }
  call : next.call = Function.update s.call p (some ⟨b,wrote,true⟩)
  holder : next.holder = s.holder
  disk : next.disk = s.disk
  asleep : next.asleep = s.asleep
  answer : next.answer = s.answer
  alone : next.alone = s.alone
  completed : next.completed = s.completed
  appended : next.appended = s.appended ++ [b]

theorem iderwAppend_cases (ran : iderwAppend fuel s p b wrote = some next) :
    ∃ pp, lastLink s.idequeue (s.setBuf b { s.buf b with qnext := none }).qnext fuel .head = some pp ∧ Linked s next p b wrote ∧
      next.idequeue = (s.linked b pp).idequeue ∧ next.qnext = (s.linked b pp).qnext ∧
      (next.idequeue = some b → next.device = .busy (next.buf b).place (next.buf b).command ∧ next.started = s.started ++ [b]) ∧
      (next.idequeue ≠ some b → next.device = s.device ∧ next.started = s.started) := by
  unfold iderwAppend at ran
  dsimp only at ran
  split at ran
  · cases ran
  rename_i pp ended
  refine ⟨pp,ended,?_⟩
  have bufs := linked_buf s b pp
  obtain rfl := Option.some.inj ran
  by_cases first : (s.linked b pp).idequeue = some b
  · rw [if_pos (by exact first)]
    cases pp <;> exact ⟨⟨bufs,rfl,rfl,rfl,rfl,rfl,rfl,rfl,rfl⟩,rfl,rfl,fun _ => ⟨rfl,rfl⟩,fun other => absurd first other⟩
  · rw [if_neg (by exact first)]
    cases pp <;> exact ⟨⟨bufs,rfl,rfl,rfl,rfl,rfl,rfl,rfl,rfl⟩,rfl,rfl,fun same => absurd same first,fun _ => ⟨rfl,rfl⟩⟩

theorem append_inv (inv : Inv s q) (calls : s.call p = some ⟨b,wrote,false⟩) (ran : iderwAppend fuel s p b wrote = some next) :
    Inv next (q ++ [b]) ∧ next.call p = some ⟨b,wrote,true⟩ := by
  have new : b ∉ q := inv.fresh p _ calls rfl
  obtain ⟨pp,ended,linked,head,table,starts,stays⟩ := iderwAppend_cases ran
  have chained := linked_chained inv new ended
  rw [← head,← table] at chained
  have first := chained.head_eq
  have others : ∀ p' c w, c ∈ q → s.call p' = some ⟨c,w,true⟩ → next.call p' = some ⟨c,w,true⟩ := by
    intro p' c w member called
    rw [linked.call,update_of_ne ?_]
    · exact called
    · rintro rfl
      rw [calls] at called
      cases called
  have apart : ∀ p' c, p' ≠ p → s.call p' = some c → c.buf ≠ b := by
    intro p' c different old same
    have one := inv.holder p' c old
    rw [same,inv.holder p _ calls] at one
    exact different (Option.some.inj one).symm
  have serves : Serves next (q ++ [b]) ∧ next.started = next.completed ++ (q ++ [b]).take 1 := by
    have started := inv.started
    cases q with
    | nil =>
      obtain ⟨device,again⟩ := starts first
      refine ⟨.inl device,?_⟩
      rw [again,started,linked.completed,List.take_nil,List.append_nil]
      rfl
    | cons c rest =>
      have other : next.idequeue ≠ some b := by
        rw [first]
        rintro same
        exact new (by simp [Option.some.inj same])
      obtain ⟨device,again⟩ := stays other
      obtain ⟨n,same⟩ := linked.buf c
      refine ⟨?_,by rw [again,started,linked.completed]; rfl⟩
      have serves := inv.device
      simp only [Serves,List.cons_append] at serves ⊢
      rw [device,linked.disk,same]
      exact serves
  refine ⟨⟨chained,?nodup,serves.1,?waiting,?holder,?fresh,?pending,?served,?sector,?asleep,?appended,serves.2,?busy,?alone⟩,
    by rw [linked.call,update_self]⟩
  case nodup => exact List.nodup_append.mpr ⟨inv.nodup,by simp,by
    rintro c member d last rfl
    exact new (List.mem_singleton.mp last ▸ member)⟩
  case waiting =>
    intro c member
    rcases List.mem_append.mp member with member | last
    · obtain ⟨p',w,called⟩ := inv.waiting c member
      exact ⟨p',w,others p' c w member called⟩
    · rw [List.mem_singleton.mp last]
      exact ⟨p,wrote,by rw [linked.call,update_self]⟩
  case holder =>
    intro p' c called
    rw [linked.call] at called
    rw [linked.holder]
    obtain ⟨_,old⟩ | ⟨rfl,⟨⟩⟩ := update_some called
    · exact inv.holder p' c old
    · have mine : s.holder b = some p' := inv.holder p' _ calls
      exact mine
  case fresh =>
    intro p' c called unqueued
    rw [linked.call] at called
    obtain ⟨different,old⟩ | ⟨rfl,⟨⟩⟩ := update_some called
    · simp [inv.fresh p' c old unqueued,apart p' c different old]
    · cases unqueued
  case pending =>
    intro p' c called todo
    rw [linked.call] at called
    obtain ⟨n,same⟩ := linked.buf c.buf
    rw [same]
    obtain ⟨different,old⟩ | ⟨rfl,⟨⟩⟩ := update_some called
    · have := inv.pending p' c old (todo.imp_right fun member => by simpa [apart p' c different old] using member)
      exact ⟨this.todo,this.wrote⟩
    · have := inv.pending p' _ calls (.inl rfl)
      exact ⟨this.todo,this.wrote⟩
  case served =>
    intro p' c called queued gone
    rw [linked.call] at called
    obtain ⟨n,same⟩ := linked.buf c.buf
    rw [same,linked.answer]
    obtain ⟨_,old⟩ | ⟨rfl,⟨⟩⟩ := update_some called
    · have := inv.served p' c old queued fun member => gone (by simp [member])
      exact ⟨this.valid,this.clean,this.data,this.wrote⟩
    · exact absurd (by simp) gone
  case sector =>
    intro alone p' c called queued gone
    rw [linked.call] at called
    obtain ⟨n,same⟩ := linked.buf c.buf
    rw [same,linked.disk]
    obtain ⟨_,old⟩ | ⟨rfl,⟨⟩⟩ := update_some called
    · exact inv.sector (linked.alone ▸ alone) p' c old queued fun member => gone (by simp [member])
    · exact absurd (by simp) gone
  case asleep =>
    intro p' c asleep
    rw [linked.asleep] at asleep
    obtain ⟨member,w,called⟩ := inv.asleep p' c asleep
    exact ⟨by simp [member],w,others p' c w member called⟩
  case appended => rw [linked.appended,linked.completed,inv.appended,List.append_assoc]
  case busy =>
    intro c
    obtain ⟨n,same⟩ := linked.buf c
    rw [same,linked.holder]
    exact inv.busy c
  case alone =>
    rw [linked.alone,linked.holder]
    intro ok c d
    obtain ⟨n,one⟩ := linked.buf c
    obtain ⟨m,two⟩ := linked.buf d
    rw [one,two]
    exact inv.alone ok c d

theorem step_inv (inv : Inv s q) (step : Step s event next) : ∃ q, Inv next q := by
  cases step with
  | acquire running none busy qnext =>
    rename_i p b new
    exact ⟨q,inv.touch new (some p) (s.alone ∧ ∀ c, c ≠ b → s.holder c ≠ .none → (s.buf c).place ≠ new.place)
      (inv.free (.inl none)) busy And.left fun ok _ => ok.2⟩
  | change running held none =>
    rename_i p b valid dirty data
    have free := inv.free (.inr ⟨p,held,none⟩)
    have busy : (s.buf b).busy = (s.holder b).isSome := inv.busy b
    have same := inv.touch { s.buf b with valid := valid, dirty := dirty, data := data } (s.holder b) s.alone free busy id
      fun ok some c other held => inv.alone ok c b other held some
    rw [update_eq_self] at same
    exact ⟨q,same⟩
  | release running held none =>
    rename_i p b
    exact ⟨q,inv.touch { s.buf b with busy := false } .none s.alone (inv.free (.inr ⟨p,held,none⟩)) rfl id fun _ none => absurd rfl none⟩
  | enter running held none => exact ⟨q,enter_inv inv held none⟩
  | append running calls ran waits =>
    obtain ⟨linked,again⟩ := append_inv inv calls ran
    exact ⟨_,wait_inv linked again waits⟩
  | wait running calls awake waits => exact ⟨q,wait_inv inv calls waits⟩
  | rouse running =>
    rename_i p
    refine ⟨q,{ inv with asleep := fun p' b asleep => ?_ }⟩
    obtain ⟨_,old⟩ | ⟨_,⟨⟩⟩ := update_some asleep
    exact inv.asleep p' b old
  | execute running device => exact ⟨q,execute_inv inv device⟩
  | interrupt running done => exact interrupt_inv inv done
  | spurious running none =>
    have same : ideintr s = s := by
      unfold ideintr
      rw [none]
    rw [same]
    exact ⟨q,inv⟩

-- The queue q in a state: distinct buffers, of which the first is the one request that the
-- device was given; all requests before them are completed, in the order of their arrival.
structure InOrder (s : State) (q : List Nat) : Prop where
  chained : Chained s.qnext s.idequeue q
  distinct : q.Nodup
  appended : s.appended = s.completed ++ q
  started : s.started = s.completed ++ q.take 1
  device : Serves s q
  asleep : ∀ p b, s.asleep p = some b → b ∈ q

-- The return of a call. The sector is the one when the request was completed, and still is
-- so as long as no two buffers are held for it.
structure Answered (s : State) (p b : Nat) (next : State) : Prop where
  valid : (next.buf b).valid = true
  clean : (next.buf b).dirty = false
  data : (next.buf b).data = next.answer b
  wrote : ∀ data queued, s.call p = some ⟨b,some data,queued⟩ → next.answer b = data
  sector : next.alone → next.disk (next.buf b).place = (next.buf b).data

theorem wait_answered (inv : Inv s q) (calls : s.call p = some ⟨b,wrote,true⟩) (ran : iderwWait s p b = (next,true)) :
    Answered s p b next ∧ b ∉ q := by
  unfold iderwWait at ran
  split at ran
  · rename_i returns
    obtain ⟨rfl,-⟩ := Prod.mk.inj ran
    have gone : b ∉ q := inv.gone calls returns.1 returns.2
    have served := inv.served p _ calls rfl gone
    refine ⟨⟨served.valid,served.clean,served.data,fun data queued called => ?_,fun alone => inv.sector alone p _ calls rfl gone⟩,gone⟩
    rw [calls] at called
    cases called
    rw [← served.data]
    exact served.wrote data rfl
  · cases (Prod.mk.inj ran).2

theorem iderwAppend_some (inv : Inv s q) (calls : s.call p = some ⟨b,wrote,false⟩) :
    ∃ fuel next, iderwAppend fuel s p b wrote = some next := by
  have new : b ∉ q := inv.fresh p _ calls rfl
  have walk : Chained _ (target s.idequeue (s.setBuf b { s.buf b with qnext := none }).qnext .head) q := inv.unlinked new
  have ended := lastLink_some walk
  refine ⟨q.length+1,?_⟩
  unfold iderwAppend
  dsimp only
  rw [show (s.setBuf b { s.buf b with qnext := none }).idequeue = s.idequeue from rfl,ended]
  exact ⟨_,rfl⟩

theorem iderw_serves (run : Run Start Step events s) :
    (∃ q, InOrder s q) ∧ (∀ p b wrote, s.call p = some ⟨b,wrote,false⟩ → ∃ fuel next, iderwAppend fuel s p b wrote = some next) ∧
      ∀ p b next, Step s (.returned p b) next → Answered s p b next := by
  obtain ⟨q,inv⟩ := run.invariant (I := fun s => ∃ q, Inv s q) (fun s start => ⟨[],start.inv⟩)
    fun s event next ⟨q,inv⟩ step => step_inv inv step
  refine ⟨⟨q,inv.chained,inv.nodup,inv.appended,inv.started,inv.device,fun p b asleep => (inv.asleep p b asleep).1⟩,
    fun p b wrote calls => iderwAppend_some inv calls,fun p b next step => ?_⟩
  generalize label : Event.returned p b = event at step
  cases step with
  | append running calls ran waits =>
    rename_i returns
    cases returns with
    | false => cases label
    | true =>
      cases label
      obtain ⟨linked,again⟩ := append_inv inv calls ran
      exact absurd (by simp) (wait_answered linked again waits).2
  | wait running calls awake waits =>
    rename_i returns wrote
    cases returns with
    | false => cases label
    | true =>
      cases label
      exact (wait_answered inv calls waits).1
  | _ => cases label

def powerOn : State where
  buf _ := ⟨false,false,false,0,5,none,.zero⟩
  idequeue := none
  havedisk1 := false
  device := .idle
  disk place := .ofStore fun _ => UInt8.ofNat place.2
  holder _ := none
  call _ := none
  asleep _ := none
  panic := none
  appended := []
  started := []
  completed := []
  answer _ := .zero
  alone := True

theorem powerOn_start : Start powerOn := ⟨rfl,rfl,fun _ => rfl,fun _ => rfl,fun _ => rfl,fun _ => rfl,rfl,rfl,rfl,rfl⟩

def heldFive : State :=
  { powerOn.setBuf 0 ⟨true,false,false,0,5,none,.zero⟩ with
    holder := Function.update powerOn.holder 0 (some 0),
    alone := powerOn.alone ∧ ∀ c, c ≠ 0 → powerOn.holder c ≠ none → (powerOn.buf c).place ≠ (0,5) }

def queuedFive : State := (iderwWait ((iderwAppend 1 (iderwEnter heldFive 0 0) 0 0 none).getD heldFive) 0 0).1

def servedFive : State := ideintr (queuedFive.execute (0,5) .read)

theorem iderw_serves_read : ∃ events s next, Run Start Step events s ∧ Step s (.returned 0 0) next ∧
    (next.buf 0).data = .ofStore fun _ => 5 := by
  have taken : Step powerOn (.acquire 0 0) heldFive := .acquire rfl rfl rfl rfl
  have entered : Step heldFive (.enter 0 0) (iderwEnter heldFive 0 0) := .enter rfl (.inl rfl) rfl
  have appended : Step (iderwEnter heldFive 0 0) (if false then .returned 0 0 else .slept 0 0) queuedFive :=
    .append rfl rfl (show iderwAppend 1 (iderwEnter heldFive 0 0) 0 0 none = some _ from rfl) rfl
  have executed : Step queuedFive .execute (queuedFive.execute (0,5) .read) := .execute rfl rfl
  have interrupted : Step (queuedFive.execute (0,5) .read) .interrupt servedFive := .interrupt rfl
    (show _ = Device.done (.ofStore fun _ => 5) from rfl)
  have returned : Step servedFive (if true then .returned 0 0 else .slept 0 0) (iderwWait servedFive 0 0).1 := .wait rfl rfl rfl rfl
  have run := ((((Run.start powerOn_start).step taken).step entered).step appended |>.step executed).step interrupted
  refine ⟨_,_,_,run,returned,?_⟩
  have answered := (iderw_serves run).2.2 0 0 _ returned
  exact (answered.sector ⟨trivial,fun c _ held => absurd rfl held⟩).symm

end
end Xv6.Ide
