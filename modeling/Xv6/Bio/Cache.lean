import Xv6.Log
import Xv6.Lib.Threads

namespace Xv6.Bio
open Threads

-- bio.c, ide.c and log.c over buffers with contents, used by any number of processes. The
-- sections under bcache.lock, idelock and log.lock are single operations, and so is each
-- access to a buffer by its holder. A panic is an operation that nobody can execute.

structure Buf where
  dev : Nat
  sector : Nat
  busy : Bool
  valid : Bool
  dirty : Bool
  data : Block
  -- Not in the source: its holder changed it and has not yet written or logged it.
  flux : Bool

-- log.start, log.size and log.dev, fixed by initlog.
structure Layout where
  start : Nat
  size : Nat
  dev : Nat
  header : 0 < size
  drive : dev < 2

-- log.busy comes with the process that set it, and two fields that no code reads: who has
-- each buffer busy, and what was stored last for each sector by a client.
structure Cache where
  buf : Nat → Buf
  bcache : List Nat
  idequeue : List Nat
  disk : Nat → Nat → Block
  logBusy : Option Nat
  lh : List Nat
  holder : Nat → Option Nat
  last : Nat → Nat → Block

inductive Op where
  | bget (dev sector : Nat) | brelse (b : Nat)
  | key (b : Nat) | valid (b : Nat) | load (b : Nat) | store (b : Nat) (data : Block) | change (b : Nat) (data : Block)
  | dirty (b : Nat) | pin (b : Nat) | iderw (b : Nat) | done (b : Nat)
  | begin | busy | head | setHead (lh : List Nat) | finish | panic

def Res : Op → Type
  | .bget .. => Nat
  | .key _ => Nat × Nat
  | .valid _ | .busy => Bool
  | .load _ => Block
  | .head => List Nat
  | _ => Unit

namespace Cache

def setBuf (s : Cache) (b : Nat) (f : Buf → Buf) : Cache := { s with buf := Function.update s.buf b (f (s.buf b)) }
def setHolder (s : Cache) (b : Nat) (p : Option Nat) : Cache := { s with holder := Function.update s.holder b p }

-- The two scans of bget, from head.next and from head.prev.
def cached (s : Cache) (dev sector : Nat) : Option Nat :=
  s.bcache.find? fun b => (s.buf b).dev = dev ∧ (s.buf b).sector = sector
def victim (s : Cache) : Option Nat :=
  s.bcache.reverse.find? fun b => (s.buf b).busy = false ∧ (s.buf b).dirty = false

def bget (s : Cache) (p dev sector : Nat) : Option (Nat × Cache) :=
  match s.cached dev sector with
  | some b => if (s.buf b).busy then none else some (b,(s.setBuf b fun buf => { buf with busy := true }).setHolder b (some p))
  | none => match s.victim with
    | none => none
    | some b => some (b,(s.setBuf b fun buf => ⟨dev,sector,true,false,false,buf.data,false⟩).setHolder b (some p))

def setDisk (s : Cache) (dev sector : Nat) (data : Block) : Cache :=
  { s with disk := Function.update s.disk dev (Function.update (s.disk dev) sector data) }
def setLast (s : Cache) (dev sector : Nat) (data : Block) : Cache :=
  { s with last := Function.update s.last dev (Function.update (s.last dev) sector data) }

def served (s : Cache) (b : Nat) : Buf :=
  let buf := s.buf b
  { buf with valid := true, dirty := false, data := if buf.dirty then buf.data else s.disk buf.dev buf.sector }

def ideintr (s : Cache) : Option Cache :=
  match s.idequeue with
  | [] => none
  | b :: queue =>
    let buf := s.served b
    some (({ s with idequeue := queue }.setDisk buf.dev buf.sector buf.data).setBuf b fun _ => buf)

end Cache

def exec (p : Nat) : (o : Op) → Cache → Option (Res o × Cache)
  | .bget dev sector,s => s.bget p dev sector
  | .brelse b,s => if (s.buf b).busy then
      some ((),({ s with bcache := b :: s.bcache.erase b }.setBuf b fun buf => { buf with busy := false }).setHolder b none) else none
  | .key b,s => some (((s.buf b).dev,(s.buf b).sector),s)
  | .valid b,s => some ((s.buf b).valid,s)
  | .load b,s => some ((s.buf b).data,s)
  | .store b data,s => some ((),s.setBuf b fun buf => { buf with data := data, flux := true })
  | .change b data,s =>
      some ((),(s.setBuf b fun buf => { buf with data := data, flux := true }).setLast (s.buf b).dev (s.buf b).sector data)
  | .dirty b,s => some ((),s.setBuf b fun buf => { buf with dirty := true, flux := true })
  | .pin b,s => some ((),s.setBuf b fun buf => { buf with dirty := true, flux := false })
  | .iderw b,s => if (s.buf b).busy ∧ ¬ ((s.buf b).valid ∧ ¬ (s.buf b).dirty) then
      some ((),{ s with idequeue := s.idequeue ++ [b] }) else none
  | .done b,s => if (s.buf b).valid ∧ ¬ (s.buf b).dirty then some ((),s.setBuf b fun buf => { buf with flux := false }) else none
  | .begin,s => if s.logBusy = none then some ((),{ s with logBusy := some p }) else none
  | .busy,s => some (s.logBusy.isSome,s)
  | .head,s => some (s.lh,s)
  | .setHead lh,s => some ((),{ s with lh := lh })
  | .finish,s => some ((),{ s with logBusy := none })
  | .panic,_ => none

abbrev Prog := Code Op Res

def act (o : Op) : Prog (Res o) := Code.call o

def iderw (b : Nat) : Prog Unit := do
  act (.iderw b)
  act (.done b)

def bread (dev sector : Nat) : Prog Nat := do
  let b : Nat ← act (.bget dev sector)
  let valid : Bool ← act (.valid b)
  if !valid then iderw b
  return b

def bwrite (b : Nat) : Prog Unit := do
  act (.dirty b)
  iderw b

def brelse (b : Nat) : Prog Unit := act (.brelse b)

section
variable (lay : Layout)

def writeHead : Prog Unit := do
  let b ← bread lay.dev lay.start
  let lh : List Nat ← act .head
  let hb : Block ← act (.load b)
  act (.store b (Store.putHead hb lh))
  bwrite b
  brelse b

def installFrom : Nat → List Nat → Prog Unit
  | _,[] => pure ()
  | tail,x::xs => do
    let lbuf ← bread lay.dev (lay.start+tail+1)
    let dbuf ← bread lay.dev x
    let data : Block ← act (.load lbuf)
    act (.store dbuf data)
    bwrite dbuf
    brelse lbuf
    brelse dbuf
    installFrom (tail+1) xs

def installTrans : Prog Unit := do
  let lh : List Nat ← act .head
  installFrom lay 0 lh

def commitTrans : Prog Unit := do
  let lh : List Nat ← act .head
  if 0 < lh.length then
    writeHead lay
    installTrans lay
    act (.setHead [])
    writeHead lay
  act .finish

def logWrite (b : Nat) : Prog Unit := do
  let lh : List Nat ← act .head
  if LOGSIZE ≤ lh.length ∨ lay.size-1 ≤ lh.length then act .panic
  let busy : Bool ← act .busy
  if !busy then act .panic
  let key : Nat × Nat ← act (.key b)
  let i := lh.idxOf key.2
  let lbuf ← bread key.1 (lay.start+i+1)
  let data : Block ← act (.load b)
  act (.store lbuf data)
  bwrite lbuf
  brelse lbuf
  if i = lh.length then act (.setHead (lh ++ [key.2]))
  act (.pin b)

-- What clients do with buffers. A bread hands out the buffer for its sector.
inductive Call where
  | bread (dev sector : Nat) | change (b : Nat) (data : Block) | bwrite (b : Nat) | logWrite (b : Nat) | brelse (b : Nat)
  | begin | commit

structure Got where
  dev : Nat
  sector : Nat
  b : Nat

def Call.code : Call → Prog (Option Got)
  | .bread dev sector => do
    let b ← Bio.bread dev sector
    return some ⟨dev,sector,b⟩
  | .change b data => do
    act (.change b data)
    return none
  | .bwrite b => do
    Bio.bwrite b
    return none
  | .logWrite b => do
    Bio.logWrite lay b
    return none
  | .brelse b => do
    Bio.brelse b
    return none
  | .begin => do
    act .begin
    return none
  | .commit => do
    commitTrans lay
    return none

end

end Xv6.Bio
