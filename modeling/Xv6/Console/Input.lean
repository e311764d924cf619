import Mathlib.Algebra.GroupWithZero.Nat
import Mathlib.Logic.Function.Basic

namespace Xv6.Console

-- console.c: the input side. The counters are 32-bit words; tab_loc, last_tab_loc and blanks are
-- ints that are compared with them, with -1 for none. The echo on the screen is left out.

abbrev Word := BitVec 32

def inputBuf : Nat := 128

structure Text (size : Nat) where
  chars : List UInt8
  short : chars.length < size
  solid : 0 ∉ chars

instance slots_pos : NeZero 32 := ⟨by decide⟩

-- hs and ec where they are in bounds.
structure History where
  len : Nat
  start : Fin 32
  current : Fin 32
  history : Fin 32 → Text 128

structure Commands where
  len : Nat
  few : len ≤ 128
  commands : Nat → Text 64

inductive Status where
  | shell | editor | cat | other
deriving DecidableEq, Repr

structure Input where
  -- input, with the bytes in front of buf that a negative index reads
  lock : Nat → UInt8
  buf : Nat → UInt8
  r : Word
  w : Word
  e : Word
  tabLoc : Word
  constantTab : Int
  lastTabLoc : Word
  blanks : Nat → Word
  blankLen : Nat
  firstInput : Bool
  first : Bool
  hs : History
  ec : Commands
  programStatus : Status

namespace Input
variable (s : Input)

-- input.buf[input.e++ % INPUT_BUF] = c
def put (c : UInt8) : Input := { s with buf := Function.update s.buf (s.e.toNat % inputBuf) c, e := s.e+1 }

def insert (cs : List UInt8) : Input := cs.foldl put s

-- The memset clears 32 bytes.
def initBlank : Input :=
  if s.firstInput then
    { s with firstInput := false, blankLen := 1, blanks := fun i => if i = 0 then s.w else if i < 8 then 0 else s.blanks i }
  else s

-- input.buf[i % INPUT_BUF] for an int i.
def bufAt (i : Word) : UInt8 :=
  let k := Int.tmod i.toInt inputBuf
  if 0 ≤ k then s.buf k.toNat else s.lock (-k).toNat

-- The string in buffer; the loop compares i with input.e as unsigned.
def typed : List UInt8 :=
  if s.tabLoc.toNat < s.e.toNat then
    ((List.range (s.e - s.tabLoc).toNat).map fun i => s.bufAt (s.tabLoc + BitVec.ofNat 32 i)).takeWhile (· ≠ 0)
  else []

def search (ec : Commands) (p : List UInt8) (k : Nat) : Option Nat :=
  (List.range' k (ec.len - k)).find? fun i => p.isPrefixOf (ec.commands i).chars

def complete (i : Nat) : Input := { s with constantTab := i }.insert ((s.ec.commands i).chars.drop s.typed.length)

-- It calls itself once at most, with constant_tab = -1. The bound is that of buffer.
def checkPrefix : Option Input :=
  if (s.e - s.tabLoc).toNat ≥ inputBuf then none
  else match search s.ec s.typed (s.constantTab+1).toNat with
    | some i => some (s.complete i)
    | none =>
      if s.constantTab+1 = 0 then some { s with constantTab := 0 }
      else match search s.ec s.typed 0 with
        | some i => some (s.complete i)
        | none => some { s with constantTab := 0 }

-- The cases of consoleintr.

def killFrom (buf : Nat → UInt8) (w : Word) : Nat → Word → Word
  | 0,e => e
  | n+1,e => if e ≠ w ∧ buf ((e-1).toNat % inputBuf) ≠ 10 then killFrom buf w n (e-1) else e

def killLine : Input := { s with e := killFrom s.buf s.w (s.e - s.w).toNat s.e }

-- blanks[blank_len-1] is looked at on a line that is not empty.
def backspace : Option Input :=
  let s := { s with constantTab := -1 }
  if s.e ≠ s.w then
    if s.blankLen = 0 ∨ 32 < s.blankLen then none
    else if s.e = s.blanks (s.blankLen-1) then
      if s.blankLen = 1 then none
      else some { s with
        blanks := Function.update s.blanks (s.blankLen-1) 0,
        blankLen := s.blankLen-1,
        tabLoc := s.blanks (s.blankLen-2),
        e := s.e-1 }
    else some { s with e := s.e-1 }
  else some s

-- ESC and Ctrl-S: the text is a line of its own.
def command (cs : List UInt8) : Input :=
  let s := { s with firstInput := true, w := s.e }.insert cs
  { s with w := s.e, tabLoc := s.e }

-- The line is erased to where the last completion began.
def tab : Option Input :=
  let s := s.initBlank
  let s := if s.tabLoc = -1 then { s with tabLoc := s.w, lastTabLoc := 0 } else s
  let s := if s.constantTab ≠ -1 then { s with e := s.lastTabLoc } else { s with lastTabLoc := s.e }
  s.checkPrefix

def recalled (current : Fin 32) : Input :=
  { s with hs := { s.hs with current := current } }.insert (s.hs.history current).chars

def older : Fin 32 :=
  if s.hs.len ≥ 32 then
    if s.hs.current ≠ s.hs.start + 1 then s.hs.current - 1 else s.hs.current
  else if s.hs.current.val > 0 then s.hs.current - 1 else s.hs.current

def newer : Fin 32 :=
  if s.hs.len ≥ 32 then
    if s.hs.current ≠ s.hs.start then s.hs.current + 1 else s.hs.current
  else if s.hs.current < s.hs.start then s.hs.current + 1 else s.hs.current

def up : Input :=
  let s := { s with constantTab := -1, e := s.w }
  if s.first then { s.recalled s.hs.current with first := false }
  else s.recalled s.older

def down : Input :=
  let s := { s with constantTab := -1, e := s.w }
  if s.hs.current = s.hs.start then { s with first := true }
  else s.recalled s.newer

def commit (c : Nat) : Input :=
  if c = 10 ∨ c = 4 ∨ s.e = s.r + 128 then { s with firstInput := true, w := s.e, tabLoc := s.e } else s

def blank (c : Nat) : Option Input :=
  if c = 32 then
    if s.blankLen < 32 then some { s with blankLen := s.blankLen+1, blanks := Function.update s.blanks s.blankLen s.e, tabLoc := s.e }
    else none
  else some s

def char (c : Nat) : Option Input :=
  if c ≠ 0 ∧ (s.e - s.r).toNat < inputBuf then
    let c := if c = 13 then 10 else c
    (({ s.initBlank with constantTab := -1 }.put (UInt8.ofNat c)).blank c).map fun s : Input => s.commit c
  else some s

def escape : Input :=
  match s.programStatus with
  | .shell | .cat => s.command [69,83,67,10]
  | .editor => s.command [101,120,105,116,10]
  | .other => s

def save : Input :=
  match s.programStatus with
  | .editor => s.command [115,97,118,101,10]
  | _ => s

def tabKey : Option Input :=
  match s.programStatus with
  | .shell => s.tab
  | .cat | .editor => some (s.insert [32,32,32,32])
  | .other => some s

def shellOnly (f : Input → Input) : Input := if s.programStatus = .shell then f s else s

-- One turn of the loop of consoleintr; none is an access out of bounds.
def consoleintr (c : Nat) : Option Input :=
  if c = 16 then some s
  else if c = 21 then some s.killLine
  else if c = 8 ∨ c = 127 then s.backspace
  else if c = 27 then some s.escape
  else if c = 19 then some s.save
  else if c = 9 then s.tabKey
  else if c = 226 then some (s.shellOnly up)
  else if c = 227 then some (s.shellOnly down)
  else if c = 228 ∨ c = 229 then some s
  else s.char c

end Input

-- consoleread from its beginning, or from where it sleeps, until it returns or sleeps: with n bytes
-- still wanted, and those it has. The answer is true where it returns.
def consoleread (target : Nat) : Nat → Input → List UInt8 → Input × List UInt8 × Bool
  | 0,s,got => (s,got,true)
  | n+1,s,got =>
    if s.r = s.w then (s,got,false)
    else
      let c := s.buf (s.r.toNat % inputBuf)
      let s := { s with r := s.r+1 }
      if c = 4 then (if n+1 < target then { s with r := s.r-1 } else s,got,true)
      else if c = 10 then (s,got ++ [c],true)
      else consoleread target n s (got ++ [c])

end Xv6.Console
