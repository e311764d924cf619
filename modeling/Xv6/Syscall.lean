import Xv6.Disk
import Xv6.Lib.Chunks

namespace Xv6
open Bytes

-- syscall.c and the callers of argptr, as far as user addresses go. Every
-- function gives the user addresses the kernel touches, in order.
def KERNBASE : Nat := 2147483648
def w32 (x : Nat) : Nat := x % 4294967296
def sgn (x : Nat) : Int := if x < 2147483648 then x else (x : Int) - 4294967296

structure User where
  mem : Bytes.Store
  sz : Nat
  esp : Nat
  low : sz ≤ 2147483648

namespace User

def fetchint (u : User) (addr : Nat) : Option Nat :=
  if u.sz ≤ addr ∨ u.sz < w32 (addr+4) then none else some (ld32 u.mem addr)

def argint (u : User) (n : Nat) : Option Nat := u.fetchint (w32 (u.esp + 4 + 4*n))

-- (uint)i + size: the signed size is converted to unsigned before the sum.
def argptr (u : User) (n : Nat) (size : Int) : Option Nat := do
  let i ← u.argint n
  if u.sz ≤ i ∨ u.sz < (((i : Int) + size) % 4294967296).toNat then none else some i

end User

-- What stands behind a descriptor: a pipe with the bytes it will deliver or
-- take before the call ends, or an inode. `keys` is what the console hands out,
-- none standing for a kill while the reader sleeps.
inductive Behind where
  | pipe (bytes : Nat)
  | inode (type major size : Nat) (keys : List (Option UInt8))

structure OpenFile where
  readable : Bool
  writable : Bool
  behind : Behind
  off : Nat

def T_DIR : Nat := 1
def T_FILE : Nat := 2
def T_DEV : Nat := 3
def CONSOLE : Nat := 1
def NOFILE : Nat := 16

def span (a n : Nat) : List Nat := (List.range n).map fun j => w32 (a+j)

def consoleread : List (Option UInt8) → Nat → Nat
  | _,0 => 0
  | [],_ => 0
  | none::_,_ => 0
  | some c::keys,n+1 => if c = 4 then 0 else if c = 10 then 1 else consoleread keys n + 1

-- The copy loop of readi. bmap panics past MAXFILE blocks, which ends the copy.
def readiLoop (dst : Nat) : List (Nat × Nat) → List Nat
  | [] => []
  | (off,m)::rest => if off/512 < 140 then span dst m ++ readiLoop (dst+m) rest else []

def readiStores (type major size : Nat) (keys : List (Option UInt8)) (dst off n : Nat) : List Nat :=
  if type = T_DEV then
    if major = CONSOLE then span dst (consoleread keys (sgn n).toNat) else []
  else if size < off ∨ w32 (off+n) < off then []
  else readiLoop dst (Chunks.chunks 512 off (if size < w32 (off+n) then size-off else n))

def filereadStores (f : OpenFile) (addr : Nat) (n : Int) : List Nat :=
  if !f.readable then [] else
  match f.behind with
  | .pipe bytes => span addr (min n.toNat bytes)
  | .inode type major size keys => readiStores type major size keys addr f.off (n % 4294967296).toNat

-- writei's loop reads its source in the same pieces.
def writeiLoop (src : Nat) : List (Nat × Nat) → List Nat
  | [] => []
  | (_,m)::rest => span src m ++ writeiLoop (src+m) rest

def writeiLoads (type major size : Nat) (src off n : Nat) : List Nat × Bool :=
  if type = T_DEV then
    if major = CONSOLE then (span src n,true) else ([],false)
  else if size < off ∨ w32 (off+n) < off ∨ 71680 < w32 (off+n) then ([],false)
  else (writeiLoop src (Chunks.chunks 512 off n),true)

-- filewrite's while loop, at most 1536 bytes a transaction. Each turn writes at
-- least one byte, so n turns are enough.
def filewriteLoop (type major : Nat) : Nat → Nat → Nat → Nat → Nat → List Nat
  | 0,_,_,_,_ => []
  | fuel+1,size,addr,off,left =>
    if left = 0 then [] else
      let m := min left 1536
      let (loads,ok) := writeiLoads type major size addr off m
      if ok then loads ++ filewriteLoop type major fuel (max size (off+m)) (addr+m) (w32 (off+m)) (left-m)
      else loads

def filewriteLoads (f : OpenFile) (addr : Nat) (n : Int) : List Nat :=
  if !f.writable then [] else
  match f.behind with
  | .pipe bytes => span addr (min n.toNat bytes)
  | .inode type major size _ => filewriteLoop type major n.toNat size addr f.off n.toNat

def argfd (u : User) (ofile : Nat → Option OpenFile) (n : Nat) : Option OpenFile := do
  let fd ← u.argint n
  if sgn fd < 0 ∨ NOFILE ≤ fd then none else ofile fd

-- struct stat is 20 bytes with two holes; stati fills the five fields.
def filestatStores (f : OpenFile) (st : Nat) : List Nat :=
  match f.behind with
  | .pipe _ => []
  | .inode .. => span (st+4) 4 ++ span (st+8) 4 ++ span st 2 ++ span (st+12) 2 ++ span (st+16) 4

-- strlen and strncpy of a user string: every byte up to and with the first NUL.
def StringAt (mem : Bytes.Store) (a x : Nat) : Prop :=
  ∃ j, x = w32 (a+j) ∧ ∀ k < j, mem (w32 (a+k)) ≠ 0

-- The callers of argptr. The last three ignore its result; what they touch
-- counts here when it was 0.
inductive Call where
  | read | write | fstat | pipe | test | setHistory | setExeCmd

-- sizeof and the offset and stride of the string table, per structure.
def historySize : Nat := 4108
def execmdSize : Nat := 8196

def Touches (u : User) (ofile : Nat → Option OpenFile) : Call → Nat → Prop
  | .read,x => ∃ f n p, argfd u ofile 0 = some f ∧ u.argint 2 = some n ∧
      u.argptr 1 (sgn n) = some p ∧ x ∈ filereadStores f p (sgn n)
  | .write,x => ∃ f n p, argfd u ofile 0 = some f ∧ u.argint 2 = some n ∧
      u.argptr 1 (sgn n) = some p ∧ x ∈ filewriteLoads f p (sgn n)
  | .fstat,x => ∃ f p, argfd u ofile 0 = some f ∧ u.argptr 1 20 = some p ∧ x ∈ filestatStores f p
  | .pipe,x => ∃ p, u.argptr 0 8 = some p ∧ x ∈ span p 8
  | .test,x => ∃ p, u.argptr 0 132 = some p ∧ x ∈ span p 4
  | .setHistory,x => ∃ p, u.argptr 0 historySize = some p ∧ (x ∈ span p 12 ∨
      ∃ i : Nat, (i : Int) < sgn (ld32 u.mem p) ∧ StringAt u.mem (p+12+128*i) x)
  | .setExeCmd,x => ∃ p, u.argptr 0 execmdSize = some p ∧ (x ∈ span p 4 ∨
      ∃ i : Nat, (i : Int) < sgn (ld32 u.mem p) ∧ StringAt u.mem (p+4+64*i) x)

end Xv6
