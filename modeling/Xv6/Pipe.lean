import Mathlib
import Xv6.Lib.Ring
import Xv6.Lib.Runs
import Xv6.Lib.Sleep

namespace Xv6.Pipes
open Function (update update_of_ne update_self)
open Runs

-- A pipe (pipe.c) and the processes that use it. A call is cut where it gives up
-- p->lock: each stretch from acquire, or from the return of sleep, to release or to the
-- next sleep is one step.

structure Pipe where
  data : Nat → UInt8
  nread : Nat
  nwrite : Nat
  readopen : Bool
  writeopen : Bool

inductive Chan where
  | nread | nwrite
  deriving DecidableEq

-- A call that has not returned. A call of pipewrite draws a ticket; bytes is what addr
-- points to, rest what is still to be stored.
inductive Call where
  | write (ticket : Nat) (n : Int) (bytes rest : List UInt8)
  | read (n : Int)

structure State where
  pipe : Pipe
  call : Nat → Option Call
  asleep : Nat → Option Chan
  killed : Nat → Bool
  calls : Nat

-- The counters are uint.
def Pipe.full (p : Pipe) : Bool := p.nwrite = (p.nread + 512) % 4294967296

def Pipe.put (p : Pipe) (b : UInt8) : Pipe :=
  { p with data := Function.update p.data (p.nwrite % 512) b, nwrite := (p.nwrite + 1) % 4294967296 }

def Pipe.next (p : Pipe) : UInt8 := p.data (p.nread % 512)

def Pipe.drop (p : Pipe) : Pipe := { p with nread := (p.nread + 1) % 4294967296 }

-- The stores of pipewrite up to the point where the pipe is full, and what is left.
def pipewriteLoop : List UInt8 → Pipe → Pipe × List UInt8
  | [],p => (p,[])
  | b :: rest,p => if p.full then (p,b :: rest) else pipewriteLoop rest (p.put b)

def pipereadLoop : Nat → Pipe → Pipe × List UInt8
  | 0,p => (p,[])
  | n+1,p =>
    if p.nread = p.nwrite then (p,[]) else
      let (after,bytes) := pipereadLoop n p.drop
      (after,p.next :: bytes)

def State.wakeup (s : State) (c : Chan) : State := { s with asleep := Sleep.wakeup s.asleep c }

def State.sleep (s : State) (p : Nat) (c : Chan) (call : Call) : State :=
  { s with asleep := Function.update s.asleep p (some c), call := Function.update s.call p (some call) }

def State.finish (s : State) (p : Nat) : State := { s with call := Function.update s.call p none }

-- One stretch of pipewrite: the state after it, the bytes it stored and, unless it went
-- to sleep, what the call returns.
def pipewrite (s : State) (p ticket : Nat) (n : Int) (bytes rest : List UInt8) : State × List UInt8 × Option Int :=
  let (pipe,left) := pipewriteLoop rest s.pipe
  let moved := rest.take (rest.length - left.length)
  let s := { s with pipe := pipe }
  if left = [] then ((s.wakeup .nread).finish p,moved,some n)
  else if pipe.readopen = false ∨ s.killed p = true then (s.finish p,moved,some (-1))
  else ((s.wakeup .nread).sleep p .nwrite (.write ticket n bytes left),moved,none)

def piperead (s : State) (p : Nat) (n : Int) : State × List UInt8 × Option Int :=
  if s.pipe.nread = s.pipe.nwrite ∧ s.pipe.writeopen = true then
    if s.killed p = true then (s.finish p,[],some (-1)) else (s.sleep p .nread (.read n),[],none)
  else
    let (pipe,moved) := pipereadLoop n.toNat s.pipe
    (({ s with pipe := pipe }.wakeup .nwrite).finish p,moved,some moved.length)

def pipeclose (s : State) (writable : Bool) : State :=
  if writable then { s with pipe := { s.pipe with writeopen := false } }.wakeup .nread
  else { s with pipe := { s.pipe with readopen := false } }.wakeup .nwrite

inductive Event where
  | begin (p : Nat)
  | wrote (p ticket : Nat) (moved : List UInt8) (result : Option Int)
  | read (p : Nat) (n : Int) (moved : List UInt8) (result : Option Int)
  | close (writable : Bool) | kill (p : Nat) | mark (p : Nat) | wakeup (c : Chan)

inductive Step : State → Event → State → Prop where
  | beginWrite : s.call p = none → bytes.length = n.toNat →
      Step s (.begin p) { s with call := Function.update s.call p (some (.write s.calls n bytes bytes)), calls := s.calls+1 }
  | beginRead : s.call p = none → Step s (.begin p) { s with call := Function.update s.call p (some (.read n)) }
  | write : s.call p = some (.write ticket n bytes rest) → s.asleep p = none → pipewrite s p ticket n bytes rest = (next,moved,result) →
      Step s (.wrote p ticket moved result) next
  | read : s.call p = some (.read n) → s.asleep p = none → piperead s p n = (next,moved,result) →
      Step s (.read p n moved result) next
  | close : Step s (.close writable) (pipeclose s writable)
  -- kill marks a process and wakes it. One that comes between the check of proc->killed
  -- and the sleep only marks.
  | kill : Step s (.kill p) { s with killed := Function.update s.killed p true, asleep := Function.update s.asleep p none }
  | mark : Step s (.mark p) { s with killed := Function.update s.killed p true }
  | wakeup : Step s (.wakeup c) (s.wakeup c)

structure Fresh (s : State) : Prop where
  nread : s.pipe.nread = 0
  nwrite : s.pipe.nwrite = 0
  readopen : s.pipe.readopen = true
  writeopen : s.pipe.writeopen = true
  call : ∀ p, s.call p = none
  asleep : ∀ p, s.asleep p = none

def Pipe.unread (p : Pipe) : List UInt8 := Ring.contents 512 4294967296 p.data p.nread p.nwrite

def Pipe.used (p : Pipe) : Nat := Ring.count 4294967296 p.nread p.nwrite

structure Pipe.Sized (p : Pipe) : Prop where
  nread : p.nread < 4294967296
  nwrite : p.nwrite < 4294967296
  used : p.used ≤ 512

section
variable {p : Pipe}

theorem Pipe.unread_length (p : Pipe) : p.unread.length = p.used := Ring.contents_length _

theorem Pipe.full_iff (sized : p.Sized) : p.full = true ↔ p.used = 512 := by
  simp only [full,decide_eq_true_eq]
  exact Ring.count_eq_iff sized.nread sized.nwrite (by decide)

theorem Pipe.empty_iff (sized : p.Sized) : p.nread = p.nwrite ↔ p.unread = [] := by
  rw [← List.length_eq_zero_iff,unread_length,used,← Ring.count_eq_iff sized.nread sized.nwrite (by decide),Nat.add_zero,
    Nat.mod_eq_of_lt sized.nread]
  exact eq_comm

theorem Pipe.put_spec (sized : p.Sized) (room : ¬ p.full = true) (b : UInt8) :
    (p.put b).Sized ∧ (p.put b).unread = p.unread ++ [b] := by
  have fewer : p.used < 512 := Nat.lt_of_le_of_ne sized.used fun same => room ((full_iff sized).mpr same)
  have space : Ring.count 4294967296 p.nread p.nwrite + 1 < 4294967296 := by unfold used at fewer; omega
  refine ⟨⟨sized.nread,Nat.mod_lt _ (by decide),?_⟩,?_⟩
  · have counted : (p.put b).used = p.used+1 := Ring.count_put sized.nread sized.nwrite space
    omega
  · exact Ring.contents_put (by decide) sized.nread sized.nwrite fewer _ _ (by decide)

theorem Pipe.drop_spec (sized : p.Sized) (some : p.nread ≠ p.nwrite) :
    p.drop.Sized ∧ p.unread = p.next :: p.drop.unread := by
  have more : 0 < p.used := by
    rw [← unread_length,List.length_pos_iff]
    exact fun empty => some ((empty_iff sized).mpr empty)
  refine ⟨⟨Nat.mod_lt _ (by decide),sized.nwrite,?_⟩,?_⟩
  · have counted : p.drop.used = p.used-1 := Ring.count_take sized.nread sized.nwrite more
    have := sized.used
    omega
  · exact Ring.contents_take (by decide) sized.nread sized.nwrite more _

structure Stored (p : Pipe) (rest : List UInt8) (after : Pipe) (left : List UInt8) : Prop where
  sized : after.Sized
  split : ∃ moved, rest = moved ++ left ∧ after.unread = p.unread ++ moved
  full : left ≠ [] → after.full = true
  readopen : after.readopen = p.readopen
  writeopen : after.writeopen = p.writeopen

theorem pipewriteLoop_spec (rest : List UInt8) (sized : p.Sized) :
    Stored p rest (pipewriteLoop rest p).1 (pipewriteLoop rest p).2 := by
  induction rest generalizing p with
  | nil => exact ⟨sized,⟨[],by simp [pipewriteLoop]⟩,by simp [pipewriteLoop],rfl,rfl⟩
  | cons b rest ih =>
    unfold pipewriteLoop
    split
    · rename_i full
      exact ⟨sized,⟨[],by simp⟩,fun _ => full,rfl,rfl⟩
    rename_i room
    obtain ⟨putSized,putUnread⟩ := Pipe.put_spec sized room b
    obtain ⟨after,⟨moved,rfl_rest,unread⟩,full,readopen,writeopen⟩ := ih putSized
    refine ⟨after,⟨b :: moved,?_,?_⟩,full,readopen,writeopen⟩
    · rw [List.cons_append,← rfl_rest]
    · rw [unread,putUnread,List.append_assoc,List.singleton_append]

structure Taken (p : Pipe) (n : Nat) (after : Pipe) (moved : List UInt8) : Prop where
  sized : after.Sized
  split : p.unread = moved ++ after.unread
  some : n ≠ 0 → moved = [] → p.unread = []
  readopen : after.readopen = p.readopen
  writeopen : after.writeopen = p.writeopen

theorem pipereadLoop_spec (n : Nat) (sized : p.Sized) : Taken p n (pipereadLoop n p).1 (pipereadLoop n p).2 := by
  induction n generalizing p with
  | zero => exact ⟨sized,rfl,by simp,rfl,rfl⟩
  | succ n ih =>
    unfold pipereadLoop
    split
    · rename_i empty
      exact ⟨sized,rfl,fun _ _ => (Pipe.empty_iff sized).mp empty,rfl,rfl⟩
    · rename_i some
      obtain ⟨dropSized,dropUnread⟩ := Pipe.drop_spec sized some
      obtain ⟨after,split,_,readopen,writeopen⟩ := ih dropSized
      exact ⟨after,by rw [dropUnread,split]; rfl,by simp,readopen,writeopen⟩

end

theorem pipewrite_cases {s : State} (ran : pipewrite s p ticket n bytes rest = (next,moved,result)) (sized : s.pipe.Sized) :
    ∃ pipe left, Stored s.pipe rest pipe left ∧ rest = moved ++ left ∧ pipe.unread = s.pipe.unread ++ moved ∧
      ((left = [] ∧ result = some n ∧ next = ({ s with pipe := pipe }.wakeup .nread).finish p) ∨
       (left ≠ [] ∧ (s.pipe.readopen = false ∨ s.killed p = true) ∧ result = some (-1) ∧
          next = { s with pipe := pipe }.finish p) ∨
       (left ≠ [] ∧ s.pipe.readopen = true ∧ s.killed p = false ∧ result = none ∧
          next = ({ s with pipe := pipe }.wakeup .nread).sleep p .nwrite (.write ticket n bytes left))) := by
  have spec := pipewriteLoop_spec rest sized
  unfold pipewrite at ran
  generalize pipewriteLoop rest s.pipe = looped at ran spec
  obtain ⟨pipe,left⟩ := looped
  dsimp only at ran spec
  obtain ⟨first,split,unread⟩ := spec.split
  have moved_eq : rest.take (rest.length - left.length) = first := by simp [split]
  rw [moved_eq] at ran
  refine ⟨pipe,left,spec,?_⟩
  split at ran
  · rename_i none
    obtain ⟨rfl,rfl,rfl⟩ := by simpa using ran
    exact ⟨split,unread,.inl ⟨none,rfl,rfl⟩⟩
  rename_i some
  split at ran
  · rename_i gone
    rw [spec.readopen] at gone
    obtain ⟨rfl,rfl,rfl⟩ := by simpa using ran
    exact ⟨split,unread,.inr (.inl ⟨some,gone,rfl,rfl⟩)⟩
  rename_i there
  rw [spec.readopen] at there
  obtain ⟨rfl,rfl,rfl⟩ := by simpa using ran
  have stays : s.pipe.readopen = true ∧ s.killed p = false := by simpa using there
  exact ⟨split,unread,.inr (.inr ⟨some,stays.1,stays.2,rfl,rfl⟩)⟩

theorem piperead_cases {s : State} (ran : piperead s p n = (next,moved,result)) (sized : s.pipe.Sized) :
    (s.pipe.unread = [] ∧ s.pipe.writeopen = true ∧ moved = [] ∧
      ((result = some (-1) ∧ next = s.finish p) ∨ (result = none ∧ next = s.sleep p .nread (.read n)))) ∨
    (¬ (s.pipe.unread = [] ∧ s.pipe.writeopen = true) ∧ ∃ pipe, Taken s.pipe n.toNat pipe moved ∧
      result = some (moved.length : Int) ∧ next = ({ s with pipe := pipe }.wakeup .nwrite).finish p) := by
  have spec := pipereadLoop_spec n.toNat sized
  unfold piperead at ran
  simp only [Pipe.empty_iff sized] at ran
  split at ran
  · rename_i empty
    refine .inl ⟨empty.1,empty.2,?_⟩
    split at ran
    · obtain ⟨rfl,rfl,rfl⟩ := by simpa using ran
      exact ⟨rfl,.inl ⟨rfl,rfl⟩⟩
    · obtain ⟨rfl,rfl,rfl⟩ := by simpa using ran
      exact ⟨rfl,.inr ⟨rfl,rfl⟩⟩
  · rename_i ready
    generalize pipereadLoop n.toNat s.pipe = looped at ran spec
    obtain ⟨pipe,bytes⟩ := looped
    obtain ⟨rfl,rfl,rfl⟩ := by simpa using ran
    exact .inr ⟨ready,pipe,spec,rfl,rfl⟩

-- The bytes stored and taken in a run so far, in order, stored ones with the ticket of
-- their call.
def Event.stored : Event → List (Nat × UInt8)
  | .wrote _ ticket moved _ => moved.map fun b => (ticket,b)
  | _ => []

def Event.taken : Event → List UInt8
  | .read _ _ moved _ => moved
  | _ => []

def stored : List Event → List (Nat × UInt8)
  | [] => []
  | event :: events => stored events ++ event.stored

def taken : List Event → List UInt8
  | [] => []
  | event :: events => taken events ++ event.taken

def storedBy (ticket : Nat) (events : List Event) : List UInt8 :=
  ((stored events).filter fun entry => entry.1 = ticket).map Prod.snd

structure Flow (events : List Event) (s : State) : Prop where
  sized : s.pipe.Sized
  stream : taken events ++ s.pipe.unread = (stored events).map Prod.snd
  calls : ∀ p ticket n bytes rest, s.call p = some (.write ticket n bytes rest) →
    ticket < s.calls ∧ bytes.length = n.toNat ∧ storedBy ticket events ++ rest = bytes
  alone : ∀ p q ticket m n a b c d, s.call p = some (.write ticket m a b) → s.call q = some (.write ticket n c d) → p = q
  past : ∀ entry ∈ stored events, entry.1 < s.calls

theorem Flow.keep (flow : Flow events s) (silent : event.stored = []) (sized : next.pipe.Sized)
    (unread : s.pipe.unread = event.taken ++ next.pipe.unread) (calls : next.calls = s.calls)
    (call : ∀ p ticket n bytes rest, next.call p = some (.write ticket n bytes rest) → s.call p = some (.write ticket n bytes rest)) :
    Flow (event :: events) next := by
  have same : stored (event :: events) = stored events := by simp [stored,silent]
  have by_same : ∀ ticket, storedBy ticket (event :: events) = storedBy ticket events := by simp [storedBy,same]
  refine ⟨sized,?_,?_,?_,?_⟩
  · rw [taken,same,List.append_assoc,← unread]; exact flow.stream
  · intro p ticket n bytes rest running
    rw [by_same,calls]
    exact flow.calls p ticket n bytes rest (call _ _ _ _ _ running)
  · intro p q ticket m n a b c d one two
    exact flow.alone p q ticket m n a b c d (call _ _ _ _ _ one) (call _ _ _ _ _ two)
  · rw [same,calls]; exact flow.past

theorem storedBy_wrote (p ticket : Nat) (moved : List UInt8) (result : Option Int) (events : List Event) :
    storedBy ticket (.wrote p ticket moved result :: events) = storedBy ticket events ++ moved := by
  simp [storedBy,stored,Event.stored,List.filter_append,List.filter_map,Function.comp_def]

theorem storedBy_other (p : Nat) {ticket other : Nat} (apart : other ≠ ticket) (moved : List UInt8) (result : Option Int)
    (events : List Event) : storedBy other (.wrote p ticket moved result :: events) = storedBy other events := by
  simp [storedBy,stored,Event.stored,List.filter_append,List.filter_map,Function.comp_def,apart.symm]

section
variable {s next : State} {events : List Event}

theorem write_flow (flow : Flow events s) (running : s.call p = some (.write ticket n bytes rest))
    (ran : pipewrite s p ticket n bytes rest = (next,moved,result)) : Flow (.wrote p ticket moved result :: events) next := by
  obtain ⟨pipe,left,spec,split,unread,ends⟩ := pipewrite_cases ran flow.sized
  have shape : next.pipe = pipe ∧ next.calls = s.calls ∧ (∀ q, q ≠ p → next.call q = s.call q) ∧
      (next.call p = none ∨ next.call p = some (.write ticket n bytes left)) := by
    obtain ⟨-,-,rfl⟩ | ⟨-,-,-,rfl⟩ | ⟨-,-,-,-,rfl⟩ := ends
    · exact ⟨rfl,rfl,fun q other => update_of_ne other _ _,.inl (update_self ..)⟩
    · exact ⟨rfl,rfl,fun q other => update_of_ne other _ _,.inl (update_self ..)⟩
    · exact ⟨rfl,rfl,fun q other => update_of_ne other _ _,.inr (update_self ..)⟩
  obtain ⟨piped,counted,others,own⟩ := shape
  obtain ⟨drawn,sized,whole⟩ := flow.calls p ticket n bytes rest running
  -- No other call has the ticket of this one.
  have apart : ∀ q other m a b, q ≠ p → next.call q = some (.write other m a b) → s.call q = some (.write other m a b) ∧ other ≠ ticket := by
    intro q other m a b elsewhere there
    rw [others q elsewhere] at there
    exact ⟨there,fun same => elsewhere (flow.alone q p ticket m n a b bytes rest (same ▸ there) running)⟩
  have here : ∀ other m a b, next.call p = some (.write other m a b) → other = ticket ∧ m = n ∧ a = bytes ∧ b = left := by
    intro other m a b there
    rcases own with none | some
    · rw [none] at there; cases there
    · rw [some] at there; cases there; exact ⟨rfl,rfl,rfl,rfl⟩
  refine ⟨piped ▸ spec.sized,?_,?_,?_,?_⟩
  · rw [piped,unread]
    simp only [stored,taken,Event.stored,Event.taken,List.append_nil,List.map_append,List.map_map,Function.comp_def,List.map_id']
    rw [← flow.stream,List.append_assoc]
  · intro q other m a b there
    rw [counted]
    by_cases same : q = p
    · subst same
      obtain ⟨rfl,rfl,rfl,rfl⟩ := here _ _ _ _ there
      rw [storedBy_wrote,List.append_assoc,← split]
      exact ⟨drawn,sized,whole⟩
    · obtain ⟨before,other_ticket⟩ := apart _ _ _ _ _ same there
      rw [storedBy_other p other_ticket]
      exact flow.calls _ _ _ _ _ before
  · intro q r other m k a b c d one two
    by_cases sameQ : q = p
    · by_cases sameR : r = p
      · rw [sameQ,sameR]
      · subst sameQ
        exact absurd (here _ _ _ _ one).1 (apart _ _ _ _ _ sameR two).2
    · by_cases sameR : r = p
      · subst sameR
        exact absurd (here _ _ _ _ two).1 (apart _ _ _ _ _ sameQ one).2
      · exact flow.alone _ _ _ _ _ _ _ _ _ (apart _ _ _ _ _ sameQ one).1 (apart _ _ _ _ _ sameR two).1
  · intro entry mem
    rw [counted]
    simp only [stored,Event.stored,List.mem_append,List.mem_map] at mem
    obtain old | ⟨b,-,rfl⟩ := mem
    · exact flow.past entry old
    · exact drawn

theorem finish_call (there : (s.finish p).call q = some call) : s.call q = some call := by
  by_cases same : q = p <;> simp_all [State.finish]

theorem read_flow (flow : Flow events s) (ran : piperead s p n = (next,moved,result)) :
    Flow (.read p n moved result :: events) next := by
  obtain ⟨-,-,rfl,⟨-,rfl⟩ | ⟨-,rfl⟩⟩ | ⟨-,pipe,spec,-,rfl⟩ := piperead_cases ran flow.sized
  · exact flow.keep rfl flow.sized rfl rfl fun _ _ _ _ _ => finish_call
  · exact flow.keep rfl flow.sized rfl rfl fun q _ _ _ _ there => by
      by_cases same : q = p <;> simp_all [State.sleep]
  · exact flow.keep rfl spec.sized spec.split rfl fun q _ _ _ _ there => (finish_call there : s.call q = _)

theorem begin_flow (flow : Flow events s) (idle : s.call p = none) (sized : bytes.length = n.toNat) :
    Flow (.begin p :: events)
      { s with call := update s.call p (some (.write s.calls n bytes bytes)), calls := s.calls+1 } := by
  have unused : storedBy s.calls events = [] := by
    simp only [storedBy,List.map_eq_nil_iff,List.filter_eq_nil_iff,decide_eq_true_eq]
    exact fun entry mem => Nat.ne_of_lt (flow.past entry mem)
  have same : stored (.begin p :: events) = stored events := by simp [stored,Event.stored]
  have by_same : ∀ ticket, storedBy ticket (.begin p :: events) = storedBy ticket events := by simp [storedBy,same]
  refine ⟨flow.sized,?_,?_,?_,?_⟩
  · rw [same]; simpa [taken,Event.taken] using flow.stream
  · intro q ticket m a b there
    rw [by_same]
    by_cases here : q = p
    · subst here
      simp only [update_self,Option.some.injEq,Call.write.injEq] at there
      obtain ⟨rfl,rfl,rfl,rfl⟩ := there
      exact ⟨Nat.lt_succ_self _,sized,by rw [unused]; rfl⟩
    · simp only [update_of_ne here] at there
      obtain ⟨drawn,rest⟩ := flow.calls _ _ _ _ _ there
      exact ⟨Nat.lt_succ_of_lt drawn,rest⟩
  · intro q r ticket m k a b c d one two
    -- The new ticket is larger than those of the calls that run.
    by_cases hereQ : q = p <;> by_cases hereR : r = p
    · rw [hereQ,hereR]
    · subst hereQ
      simp only [update_self,update_of_ne hereR,Option.some.injEq,Call.write.injEq] at one two
      have drawn := (flow.calls _ _ _ _ _ two).1
      omega
    · subst hereR
      simp only [update_self,update_of_ne hereQ,Option.some.injEq,Call.write.injEq] at one two
      have drawn := (flow.calls _ _ _ _ _ one).1
      omega
    · simp only [update_of_ne hereQ,update_of_ne hereR] at one two
      exact flow.alone _ _ _ _ _ _ _ _ _ one two
  · rw [same]
    exact fun entry mem => Nat.lt_succ_of_lt (flow.past entry mem)

theorem step_flow (flow : Flow events s) (step : Step s event next) : Flow (event :: events) next := by
  cases step with
  | beginWrite idle sized => exact begin_flow flow idle sized
  | @beginRead p n idle =>
    exact flow.keep rfl flow.sized rfl rfl fun q _ _ _ _ there => by by_cases same : q = p <;> simp_all
  | write running awake ran => exact write_flow flow running ran
  | read running awake ran => exact read_flow flow ran
  | @close writable =>
    cases writable
    · exact flow.keep rfl ⟨flow.sized.nread,flow.sized.nwrite,flow.sized.used⟩ rfl rfl fun _ _ _ _ _ there => there
    · exact flow.keep rfl ⟨flow.sized.nread,flow.sized.nwrite,flow.sized.used⟩ rfl rfl fun _ _ _ _ _ there => there
  | kill => exact flow.keep rfl flow.sized rfl rfl fun _ _ _ _ _ there => there
  | mark => exact flow.keep rfl flow.sized rfl rfl fun _ _ _ _ _ there => there
  | wakeup => exact flow.keep rfl flow.sized rfl rfl fun _ _ _ _ _ there => there

theorem fresh_flow (fresh : Fresh s) : Flow [] s := by
  have none : Ring.count 4294967296 s.pipe.nread s.pipe.nwrite = 0 := by rw [fresh.nread,fresh.nwrite]; rfl
  refine ⟨⟨by rw [fresh.nread]; decide,by rw [fresh.nwrite]; decide,by rw [Pipe.used,none]; decide⟩,?_,?_,?_,?_⟩
  · rw [Pipe.unread,Ring.contents,none]; rfl
  · intro p ticket n bytes rest there; rw [fresh.call p] at there; cases there
  · intro p q ticket m n a b c d there; rw [fresh.call p] at there; cases there
  · intro entry mem; cases mem

theorem run_flow (run : Run Fresh Step events s) : Flow events s :=
  run.traced (fun _ => fresh_flow) fun _ _ _ _ => step_flow

theorem wrote_all (flow : Flow events s) (running : s.call p = some (.write ticket n bytes rest)) (whole : 0 ≤ n)
    (step : Step s (.wrote p ticket moved (some n)) next) :
    bytes.length = n.toNat ∧ storedBy ticket (.wrote p ticket moved (some n) :: events) = bytes := by
  obtain ⟨_,sized,done⟩ := flow.calls p ticket n bytes rest running
  cases step with
  | write there awake ran =>
    rw [running] at there
    cases there
    obtain ⟨pipe,left,-,split,-,⟨rfl,-,-⟩ | ⟨-,-,failed,-⟩ | ⟨-,-,-,asleep,-⟩⟩ := pipewrite_cases ran flow.sized
    · rw [storedBy_wrote,← done,split,List.append_nil]
      exact ⟨by rw [← sized,← done,split,List.append_nil],rfl⟩
    · cases failed; omega
    · cases asleep

theorem read_zero (flow : Flow events s) (positive : 0 < n) (step : Step s (.read p n moved (some 0)) next) :
    taken (.read p n moved (some 0) :: events) = (stored (.read p n moved (some 0) :: events)).map Prod.snd ∧
      next.pipe.writeopen = false := by
  cases step with
  | read there awake ran =>
    obtain ⟨-,-,-,⟨failed,-⟩ | ⟨asleep,-⟩⟩ | ⟨ready,pipe,spec,counted,rfl⟩ := piperead_cases ran flow.sized
    · cases failed
    · cases asleep
    · have none : moved = [] := List.length_eq_zero_iff.mp (by have := Option.some.inj counted; omega)
      have empty := spec.some (by omega) none
      subst none
      refine ⟨?_,?_⟩
      · have stream := flow.stream
        rw [empty,List.append_nil] at stream
        simpa [taken,Event.taken,stored,Event.stored] using stream
      · show pipe.writeopen = false
        rw [spec.writeopen]
        simpa using fun open_ => ready ⟨empty,open_⟩

-- A pipe is a FIFO channel in every run, wrapped counters included.
theorem pipe_fifo (run : Run Fresh Step events s) :
    (s.pipe.nwrite + (4294967296 - s.pipe.nread)) % 4294967296 ≤ 512 ∧
    taken events ++ s.pipe.unread = (stored events).map Prod.snd ∧
    (∀ p ticket n bytes rest moved next, s.call p = some (.write ticket n bytes rest) → 0 ≤ n →
      Step s (.wrote p ticket moved (some n)) next →
      bytes.length = n.toNat ∧ storedBy ticket (.wrote p ticket moved (some n) :: events) = bytes) ∧
    (∀ p n moved next, 0 < n → Step s (.read p n moved (some 0)) next →
      taken (.read p n moved (some 0) :: events) = (stored (.read p n moved (some 0) :: events)).map Prod.snd ∧
        next.pipe.writeopen = false) := by
  have flow := run_flow run
  exact ⟨flow.sized.used,flow.stream,fun _ _ _ _ _ _ _ running whole step => wrote_all flow running whole step,
    fun _ _ _ _ positive step => read_zero flow positive step⟩

end

def quiet : State := ⟨⟨fun _ => 0,0,0,true,true⟩,fun _ => none,fun _ => none,fun _ => false,0⟩

theorem quiet_fresh : Fresh quiet := ⟨rfl,rfl,rfl,rfl,fun _ => rfl,fun _ => rfl⟩

theorem pipe_fifo_byte : ∃ s, Run Fresh Step [.wrote 0 0 [7] (some 1),.begin 0] s ∧ [] ++ s.pipe.unread = [7] := by
  have one : [(7 : UInt8)].length = (1 : Int).toNat := rfl
  have begun : Run Fresh Step [.begin 0] _ := .step (.start quiet_fresh) (.beginWrite rfl one)
  have wrote : Run Fresh Step [.wrote 0 0 [7] (some 1),.begin 0] _ := .step begun (.write rfl rfl rfl)
  exact ⟨_,wrote,(pipe_fifo wrote).2.1⟩

structure Heard (s : State) : Prop where
  reader : ∀ p, s.asleep p = some .nread → s.pipe.nread = s.pipe.nwrite ∧ s.pipe.writeopen = true
  writer : ∀ p, s.asleep p = some .nwrite → s.pipe.full = true ∧ s.pipe.readopen = true

-- A pipewrite that is going to give up has more bytes than there is room for, in a pipe
-- that is not full, while a reader sleeps.
def Strands (s : State) (p : Nat) (rest : List UInt8) : Prop :=
  (s.pipe.readopen = false ∨ s.killed p = true) ∧ s.pipe.used < 512 ∧ 512 < s.pipe.used + rest.length ∧
    ∃ q, s.asleep q = some .nread

def Minded (s : State) : Event → Prop
  | .wrote p _ _ _ => ∀ ticket n bytes rest, s.call p = some (.write ticket n bytes rest) → ¬ Strands s p rest
  | _ => True

section
variable {s next : State} {events : List Event}

theorem write_heard (sized : s.pipe.Sized) (heard : Heard s) (minded : ¬ Strands s p rest)
    (ran : pipewrite s p ticket n bytes rest = (next,moved,result)) : Heard next := by
  obtain ⟨pipe,left,spec,split,unread,ends⟩ := pipewrite_cases ran sized
  have lengths : pipe.used = s.pipe.used + moved.length := by
    rw [← Pipe.unread_length,← Pipe.unread_length,unread,List.length_append]
  -- Whoever sleeps for room keeps sleeping: a full pipe takes nothing.
  have writer : ∀ q, s.asleep q = some .nwrite → pipe.full = true ∧ pipe.readopen = true := by
    intro q slept
    obtain ⟨full,readopen⟩ := heard.writer q slept
    rw [Pipe.full_iff sized] at full
    rw [Pipe.full_iff spec.sized,spec.readopen]
    have bound := spec.sized.used
    exact ⟨by omega,readopen⟩
  obtain ⟨-,-,rfl⟩ | ⟨more,gone,-,rfl⟩ | ⟨more,readopen,-,-,rfl⟩ := ends
  · refine ⟨fun q slept => ?_,fun q slept => writer q (Sleep.wakeup_some.mp slept).1⟩
    exact absurd rfl (Sleep.wakeup_some.mp slept).2
  · refine ⟨fun q slept => ?_,writer⟩
    have empty := (Pipe.empty_iff sized).mp (heard.reader q slept).1
    have none : s.pipe.used = 0 := by rw [← Pipe.unread_length,empty]; rfl
    have full := (Pipe.full_iff spec.sized).mp (spec.full more)
    have some := List.length_pos_iff.mpr more
    have total : rest.length = moved.length + left.length := by rw [split,List.length_append]
    exact absurd ⟨gone,by omega,by omega,q,slept⟩ minded
  · have full := spec.full more
    refine ⟨fun q slept => ?_,fun q slept => ?_⟩
    · by_cases same : q = p
      · subst same; simp [State.sleep] at slept
      · simp [State.sleep,State.wakeup,update_of_ne same] at slept
    · by_cases same : q = p
      · exact ⟨full,by show pipe.readopen = true; rw [spec.readopen]; exact readopen⟩
      · simp only [State.sleep,State.wakeup,update_of_ne same,Sleep.wakeup_some] at slept
        exact writer q slept.1

theorem read_heard (sized : s.pipe.Sized) (heard : Heard s) (ran : piperead s p n = (next,moved,result)) : Heard next := by
  obtain ⟨empty,writeopen,-,⟨-,rfl⟩ | ⟨-,rfl⟩⟩ | ⟨ready,pipe,spec,-,rfl⟩ := piperead_cases ran sized
  · exact ⟨heard.reader,heard.writer⟩
  · refine ⟨fun q slept => ?_,fun q slept => ?_⟩
    · exact ⟨(Pipe.empty_iff sized).mpr empty,writeopen⟩
    · by_cases same : q = p
      · subst same; simp [State.sleep] at slept
      · simp only [State.sleep,update_of_ne same] at slept
        exact heard.writer q slept
  · refine ⟨fun q slept => ?_,fun q slept => ?_⟩
    · -- A reader sleeps on an empty pipe with a writer only, and this one went on.
      obtain ⟨none,writeopen⟩ := heard.reader q (Sleep.wakeup_some.mp slept).1
      exact absurd ⟨(Pipe.empty_iff sized).mp none,writeopen⟩ ready
    · exact absurd rfl (Sleep.wakeup_some.mp slept).2

theorem step_heard (flow : Flow events s) (heard : Heard s) (moved : Only Minded Step s event next) : Heard next := by
  obtain ⟨minded,step⟩ := moved
  cases step with
  | beginWrite => exact ⟨heard.reader,heard.writer⟩
  | beginRead => exact ⟨heard.reader,heard.writer⟩
  | write running awake ran => exact write_heard flow.sized heard (minded _ _ _ _ running) ran
  | read running awake ran => exact read_heard flow.sized heard ran
  | @close writable =>
    cases writable
    · refine ⟨fun q slept => heard.reader q (Sleep.wakeup_some.mp slept).1,fun q slept => ?_⟩
      exact absurd rfl (Sleep.wakeup_some.mp slept).2
    · refine ⟨fun q slept => ?_,fun q slept => heard.writer q (Sleep.wakeup_some.mp slept).1⟩
      exact absurd rfl (Sleep.wakeup_some.mp slept).2
  | @kill p =>
    refine ⟨fun q slept => heard.reader q ?_,fun q slept => heard.writer q ?_⟩
    · by_cases same : q = p <;> simp_all
    · by_cases same : q = p <;> simp_all
  | mark => exact ⟨heard.reader,heard.writer⟩
  | wakeup =>
    exact ⟨fun q slept => heard.reader q (Sleep.wakeup_some.mp slept).1,fun q slept => heard.writer q (Sleep.wakeup_some.mp slept).1⟩

-- No sleeper is stranded in a run none of whose pipewrites gives up over a sleeping
-- reader after storing bytes.
theorem sleepers_heard (run : Run Fresh (Only Minded Step) events s) : Heard s := by
  have kept : Flow events s ∧ Heard s := run.traced (I := fun events s => Flow events s ∧ Heard s)
    (fun s fresh => ⟨fresh_flow fresh,by simp [fresh.asleep],by simp [fresh.asleep]⟩)
    fun _ _ _ _ held moved => ⟨step_flow held.1 moved.2,step_heard held.1 held.2 moved⟩
  exact kept.2

end

theorem sleepers_heard_reader : ∃ s, Run Fresh (Only Minded Step) [.read 1 1 [] none,.begin 1] s ∧ s.asleep 1 = some .nread ∧ Heard s := by
  have begun : Run Fresh (Only Minded Step) [.begin 1] _ := .step (.start quiet_fresh) ⟨trivial,.beginRead (n := 1) rfl⟩
  have slept : Run Fresh (Only Minded Step) [.read 1 1 [] none,.begin 1] _ := .step begun ⟨trivial,.read rfl rfl rfl⟩
  exact ⟨_,slept,rfl,sleepers_heard slept⟩

-- Process 1 sleeps in piperead. Process 0 writes 513 bytes and is killed meanwhile: it
-- stores 512 of them, finds the pipe full and returns -1 without a wakeup.
theorem killed_writer_strands : ∃ s moved next, Run Fresh Step [.kill 0,.begin 0,.read 1 1 [] none,.begin 1] s ∧
    Step s (.wrote 0 0 moved (some (-1))) next ∧ next.asleep 1 = some .nread ∧ next.pipe.nread ≠ next.pipe.nwrite := by
  let bytes : List UInt8 := List.replicate 513 0
  obtain ⟨s,run,call,awake,reader,killed⟩ : ∃ s, Run Fresh Step [.kill 0,.begin 0,.read 1 1 [] none,.begin 1] s ∧
      s.call 0 = some (.write 0 513 bytes bytes) ∧ s.asleep 0 = none ∧ s.asleep 1 = some .nread ∧ s.killed 0 = true := by
    have begun : Run Fresh Step [.begin 1] _ := .step (.start quiet_fresh) (.beginRead (n := 1) rfl)
    have slept : Run Fresh Step [.read 1 1 [] none,.begin 1] _ := .step begun (.read rfl rfl rfl)
    exact ⟨_,.step (.step slept (.beginWrite rfl (List.length_replicate ..))) .kill,rfl,rfl,rfl,rfl⟩
  have flow := run_flow run
  rcases ran : pipewrite s 0 0 513 bytes bytes with ⟨next,moved,result⟩
  obtain ⟨pipe,left,spec,split,unread,ends⟩ := pipewrite_cases ran flow.sized
  have more : left ≠ [] := by
    intro none
    have lengths := congrArg List.length unread
    rw [none,List.append_nil] at split
    rw [Pipe.unread_length,List.length_append,← split,List.length_replicate] at lengths
    have bound := spec.sized.used
    omega
  obtain ⟨none,-,-⟩ | ⟨-,-,rfl,rfl⟩ | ⟨-,-,alive,-⟩ := ends
  · exact absurd none more
  · refine ⟨s,moved,_,run,.write call awake ran,reader,?_⟩
    · show pipe.nread ≠ pipe.nwrite
      intro empty
      have full := (Pipe.full_iff spec.sized).mp (spec.full more)
      rw [← Pipe.unread_length,(Pipe.empty_iff spec.sized).mp empty] at full
      cases full
  · rw [killed] at alive; cases alive

end Xv6.Pipes
