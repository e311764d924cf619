import Xv6.Fs.Read
import Xv6.Lib.Exec
import Xv6.Log

namespace Xv6.Fs.Core
open Bytes Exec

-- fs.c for one process at a time, over the log, the inode cache and the table of open files.
-- The file system is that of ROOTDEV.

-- An entry of icache.inode, with the copy of the disk inode.
structure Inode where
  inum : Nat
  ref : Nat
  busy : Bool
  valid : Bool
  din : Dinode

-- What a device driver answers to a read of n bytes and to a write; none is -1.
structure Device where
  read : Option (Nat → Option (List UInt8))
  write : Option (List UInt8 → Option Nat)

inductive FdType where
  | none | pipe | inode
  deriving DecidableEq, Repr

structure File where
  type : FdType
  ref : Nat
  readable : Bool
  writable : Bool
  ip : Nat
  off : Nat

-- held are the sectors whose buffers the process has busy. commits records which sectors
-- each transaction has logged.
structure State where
  log : Xv6.Store
  held : List Nat
  icache : Nat → Inode
  devsw : Nat → Device
  ftable : Nat → File
  commits : List (List Nat)

abbrev M := Prog State Stop

def panic (what : Panic) : M α := Prog.stop (.panic what)

def setInode (ip : Nat) (f : Inode → Inode) : M Unit :=
  Prog.modify fun s => { s with icache := Function.update s.icache ip (f (s.icache ip)) }

-- A process that waits for a buffer of its own sleeps for ever.
def bread (b : Nat) : M Block := do
  let s ← Prog.get
  if b ∈ s.held then Prog.stop .sleeps
  else
    Prog.modify fun s => { s with held := b :: s.held }
    return s.log.bread b

def brelse (b : Nat) : M Unit := Prog.modify fun s => { s with held := s.held.erase b }

-- The block of the log that log_write reads and writes.
def logBlock (log : Xv6.Store) (b : Nat) : Nat := log.start+log.lh.idxOf b+1

def logWrite (b : Nat) (data : Block) : M Unit := do
  let s ← Prog.get
  match s.log.logWrite b data with
  | .error e => Prog.stop e
  | .ok log =>
    if logBlock s.log b ∈ s.held then Prog.stop .sleeps
    else Prog.modify fun s => { s with log := log }

def beginTrans : M Unit := do
  let s ← Prog.get
  match s.log.beginTrans with
  | .error e => Prog.stop e
  | .ok log => Prog.modify fun s => { s with log := log }

-- install_trans has a block of the log and its home at the same time.
def commitTrans : M Unit := do
  let s ← Prog.get
  if ∃ b ∈ s.log.lh, b = logBlock s.log b then Prog.stop .sleeps
  else Prog.modify fun s => { s with log := s.log.commitTrans, commits := s.log.lh :: s.commits }

structure Superblock where
  size : Nat
  nblocks : Nat
  ninodes : Nat
  nlog : Nat
  deriving DecidableEq, Repr

def Superblock.load (b : Block) : Superblock := ⟨ld32 b.byte 0,ld32 b.byte 4,ld32 b.byte 8,ld32 b.byte 12⟩

def readsb : M Superblock := do
  let bp ← bread 1
  brelse 1
  return .load bp

def bzero (bno : Nat) : M Unit := do
  let _ ← bread bno
  logWrite bno .zero
  brelse bno

def setBit (bp : Block) (bi : Nat) : Block :=
  .ofStore (Function.update bp.byte (bi/8) (bp.byte (bi/8) ||| 1 <<< UInt8.ofNat (bi%8)))
def clearBit (bp : Block) (bi : Nat) : Block :=
  .ofStore (Function.update bp.byte (bi/8) (bp.byte (bi/8) &&& ~~~ (1 <<< UInt8.ofNat (bi%8))))

-- The loop over the bitmap blocks, and inside of it the first clear bit.
def ballocFrom (sb : Superblock) : List Nat → M Nat
  | [] => panic .ballocOutOfBlocks
  | b :: rest => do
    let bp ← bread (BBLOCK b sb.ninodes)
    match (List.range (min 4096 (sb.size-b))).find? fun bi => !bitSet bp bi with
    | none =>
      brelse (BBLOCK b sb.ninodes)
      ballocFrom sb rest
    | some bi =>
      logWrite (BBLOCK b sb.ninodes) (setBit bp bi)
      brelse (BBLOCK b sb.ninodes)
      bzero (b+bi)
      return b+bi

def balloc : M Nat := do
  let sb ← readsb
  ballocFrom sb ((List.range ((sb.size+4095)/4096)).map fun k => 4096*k)

def bfree (b : Nat) : M Unit := do
  let sb ← readsb
  let bp ← bread (BBLOCK b sb.ninodes)
  if !bitSet bp (b%4096) then panic .freeingFreeBlock
  else
    logWrite (BBLOCK b sb.ninodes) (clearBit bp (b%4096))
    brelse (BBLOCK b sb.ninodes)

def iget (inum : Nat) : M Nat := do
  let s ← Prog.get
  match (List.range 50).find? fun i => 0 < (s.icache i).ref ∧ (s.icache i).inum = inum with
  | some ip =>
    setInode ip fun i => { i with ref := i.ref+1 }
    return ip
  | none =>
    match (List.range 50).find? fun i => (s.icache i).ref = 0 with
    | none => panic .igetNoInodes
    | some ip =>
      setInode ip fun i => { i with inum := inum, ref := 1, busy := false, valid := false }
      return ip

def iallocFrom (type : Nat) : List Nat → M Nat
  | [] => panic .iallocNoInodes
  | inum :: rest => do
    let bp ← bread (IBLOCK inum)
    if (Dinode.load bp (64*(inum%8))).type = 0 then
      logWrite (IBLOCK inum) (Dinode.store bp (64*(inum%8)) { Dinode.zero with type := type })
      brelse (IBLOCK inum)
      iget inum
    else
      brelse (IBLOCK inum)
      iallocFrom type rest

def ialloc (type : Nat) : M Nat := do
  let sb ← readsb
  iallocFrom type ((List.range (sb.ninodes-1)).map fun i => i+1)

def inode (ip : Nat) : M Inode := do
  let s ← Prog.get
  return s.icache ip

def iupdate (ip : Nat) : M Unit := do
  let i ← inode ip
  let bp ← bread (IBLOCK i.inum)
  logWrite (IBLOCK i.inum) (Dinode.store bp (64*(i.inum%8)) i.din)
  brelse (IBLOCK i.inum)

def idup (ip : Nat) : M Nat := do
  setInode ip fun i => { i with ref := i.ref+1 }
  return ip

def ilock (ip : Nat) : M Unit := do
  let i ← inode ip
  if i.ref < 1 then panic .ilock
  else if i.busy then Prog.stop .sleeps
  else
    setInode ip fun i => { i with busy := true }
    if !i.valid then
      let bp ← bread (IBLOCK i.inum)
      brelse (IBLOCK i.inum)
      setInode ip fun j => { j with din := .load bp (64*(i.inum%8)), valid := true }
      if (Dinode.load bp (64*(i.inum%8))).type = 0 then panic .ilockNoType

def iunlock (ip : Nat) : M Unit := do
  let i ← inode ip
  if !i.busy ∨ i.ref < 1 then panic .iunlock
  else setInode ip fun i => { i with busy := false }

-- The block for bn, allocated if there is none; and the indirect block before it.
def withIndirect (ip : Nat) : M Nat := do
  let i ← inode ip
  if i.din.addrs 12 = 0 then
    let addr ← balloc
    setInode ip fun i => { i with din := i.din.setAddr 12 addr }
    return addr
  else return i.din.addrs 12

-- a[bn] of the indirect block.
def indirect (ind bn : Nat) : M Nat := do
  let bp ← bread ind
  if ld32 bp.byte (4*bn) = 0 then
    let addr ← balloc
    logWrite ind (.ofStore (st32 bp.byte (4*bn) addr))
    brelse ind
    return addr
  else
    brelse ind
    return ld32 bp.byte (4*bn)

def bmap (ip bn : Nat) : M Nat := do
  if bn < 12 then
    let i ← inode ip
    if i.din.addrs bn = 0 then
      let addr ← balloc
      setInode ip fun i => { i with din := i.din.setAddr bn addr }
      return addr
    else return i.din.addrs bn
  else if bn-12 < 128 then
    let ind ← withIndirect ip
    indirect ind (bn-12)
  else panic .bmapOutOfRange

def freeDirect (ip : Nat) : List Nat → M Unit
  | [] => return ()
  | k :: rest => do
    let i ← inode ip
    if i.din.addrs k ≠ 0 then
      bfree (i.din.addrs k)
      setInode ip fun i => { i with din := i.din.setAddr k 0 }
    freeDirect ip rest

def freeIndirect (a : Block) : List Nat → M Unit
  | [] => return ()
  | j :: rest => do
    if ld32 a.byte (4*j) ≠ 0 then bfree (ld32 a.byte (4*j))
    freeIndirect a rest

def itrunc (ip : Nat) : M Unit := do
  freeDirect ip (List.range 12)
  let i ← inode ip
  if i.din.addrs 12 ≠ 0 then
    let bp ← bread (i.din.addrs 12)
    freeIndirect bp (List.range 128)
    brelse (i.din.addrs 12)
    bfree (i.din.addrs 12)
    setInode ip fun i => { i with din := i.din.setAddr 12 0 }
  setInode ip fun i => { i with din := i.din.sized 0 }
  iupdate ip

def iput (ip : Nat) : M Unit := do
  let i ← inode ip
  if i.ref = 1 ∧ i.valid ∧ i.din.nlink = 0 then
    if i.busy then panic .iputBusy
    setInode ip fun i => { i with busy := true }
    itrunc ip
    setInode ip fun i => { i with din := { i.din with type := 0 } }
    iupdate ip
    setInode ip fun i => { i with busy := false, valid := false }
  setInode ip fun i => { i with ref := i.ref-1 }

def iunlockput (ip : Nat) : M Unit := do
  iunlock ip
  iput ip

def readiLoop (ip : Nat) : List (Nat × Nat) → M (List UInt8)
  | [] => return []
  | (off,m) :: rest => do
    let b ← bmap ip (off/512)
    let bp ← bread b
    brelse b
    let more ← readiLoop ip rest
    return (List.range m).map (fun t => bp.byte (off%512+t)) ++ more

-- The major number is a short: from 32768 on it is negative. NDEV is 10.
def readi (ip off n : Nat) : M (Option (List UInt8)) := do
  let i ← inode ip
  if i.din.type = 3 then
    let s ← Prog.get
    if 10 ≤ i.din.major then return none
    else match (s.devsw i.din.major).read with
      | none => return none
      | some read => return read n
  else if i.din.size < off ∨ (off+n) % 4294967296 < off then return none
  else
    let bytes ← readiLoop ip (Chunks.chunks 512 off (if i.din.size < (off+n) % 4294967296 then i.din.size-off else n))
    return some bytes

def writeiLoop (ip : Nat) (src : Bytes.Store) : List (Nat × Nat) → Nat → M Unit
  | [],_ => return ()
  | (off,m) :: rest,done => do
    let b ← bmap ip (off/512)
    let bp ← bread b
    logWrite b (.ofStore (copy bp.byte (off%512) m fun t => src (done+t)))
    brelse b
    writeiLoop ip src rest (done+m)

def writei (ip : Nat) (src : Bytes.Store) (off n : Nat) : M (Option Nat) := do
  let i ← inode ip
  if i.din.type = 3 then
    let s ← Prog.get
    if 10 ≤ i.din.major then return none
    else match (s.devsw i.din.major).write with
      | none => return none
      | some write => return write ((List.range n).map src)
  else if i.din.size < off ∨ (off+n) % 4294967296 < off then return none
  else if 71680 < (off+n) % 4294967296 then return none
  else
    writeiLoop ip src (Chunks.chunks 512 off n) 0
    if 0 < n ∧ i.din.size < off+n then
      setInode ip fun i => { i with din := i.din.sized (off+n) }
      iupdate ip
    return some n

def readEntry (dp off : Nat) : M (List UInt8) := do
  match ← readi dp off 16 with
  | none => panic .dirlinkRead
  | some de => if de.length ≠ 16 then panic .dirlinkRead else return de

def dirlookupFrom (dp : Nat) (name : Bytes.Store) : List Nat → M (Option (Nat × Nat))
  | [] => return none
  | off :: rest => do
    let de ← readEntry dp off
    if ld16 (cstring de) 0 = 0 then dirlookupFrom dp name rest
    else if namecmp name fun t => cstring de (2+t) then
      let ip ← iget (ld16 (cstring de) 0)
      return some (ip,off)
    else dirlookupFrom dp name rest

def offsets (size : Nat) : List Nat := (List.range ((size+15)/16)).map fun k => 16*k

def dirlookup (dp : Nat) (name : Bytes.Store) : M (Option (Nat × Nat)) := do
  let d ← inode dp
  if d.din.type ≠ 1 then panic .dirlookupNotDir
  else dirlookupFrom dp name (offsets d.din.size)

def emptyFrom (dp : Nat) (last : Nat) : List Nat → M Nat
  | [] => return last
  | off :: rest => do
    let de ← readEntry dp off
    if ld16 (cstring de) 0 = 0 then return off
    else emptyFrom dp last rest

-- n bytes: those of t, from its NUL on NULs.
def strncpy : Nat → Bytes.Store → List UInt8
  | 0,_ => []
  | n+1,t => if t 0 = 0 then List.replicate (n+1) 0 else t 0 :: strncpy n fun i => t (i+1)

def dirlink (dp : Nat) (name : Bytes.Store) (inum : Nat) : M Bool := do
  match ← dirlookup dp name with
  | some (ip,_) =>
    iput ip
    return false
  | none =>
    let d ← inode dp
    let off ← emptyFrom dp (16*((d.din.size+15)/16)) (offsets d.din.size)
    let r ← writei dp (entryBytes inum (strncpy 14 name)) off 16
    if r ≠ some 16 then panic .dirlink
    else return true

-- A path is the bytes from a pointer on; past the last one there is a NUL.
def skipSlashes : List UInt8 → List UInt8
  | [] => []
  | c :: path => if c = 47 then skipSlashes path else c :: path

-- The bytes up to '/' or NUL, and what is left.
def element : List UInt8 → List UInt8 × List UInt8
  | [] => ([],[])
  | c :: path => if c ≠ 47 ∧ c ≠ 0 then (c :: (element path).1,(element path).2) else ([],c :: path)

def skipelem (path : List UInt8) (name : Bytes.Store) : Option (List UInt8 × Bytes.Store) :=
  let path := skipSlashes path
  if path.headD 0 = 0 then none
  else
    let s := (element path).1
    let name := if 14 ≤ s.length then copy name 0 14 (cstring s)
      else Function.update (copy name 0 s.length (cstring s)) s.length 0
    some (skipSlashes (element path).2,name)

theorem skipSlashes_length (path : List UInt8) : (skipSlashes path).length ≤ path.length := by
  induction path with
  | nil => exact Nat.le_refl _
  | cons c path ih =>
    rw [skipSlashes]
    split
    · exact Nat.le_succ_of_le ih
    · exact Nat.le_refl _

theorem skipSlashes_head (start : skipSlashes path = c :: rest) : c ≠ 47 := by
  induction path with
  | nil => cases start
  | cons d path ih =>
    rw [skipSlashes] at start
    split at start
    · exact ih start
    · rename_i other
      cases start
      exact other

theorem element_length (path : List UInt8) : (element path).1.length + (element path).2.length = path.length := by
  induction path with
  | nil => rfl
  | cons c path ih =>
    rw [element]
    split
    · simp only [List.length_cons]; omega
    · simp

theorem skipelem_shorter (found : skipelem path name = some (rest,after)) : rest.length < path.length := by
  unfold skipelem at found
  dsimp only at found
  split at found
  · cases found
  rename_i some
  simp only [Option.some.injEq,Prod.mk.injEq] at found
  have short := skipSlashes_length path
  have left := skipSlashes_length (element (skipSlashes path)).2
  have whole := element_length (skipSlashes path)
  have taken : (element (skipSlashes path)).1 ≠ [] := by
    cases start : skipSlashes path with
    | nil => rw [start] at some; exact absurd rfl some
    | cons c later =>
      rw [start] at some
      rw [element,if_pos ⟨skipSlashes_head start,some⟩]
      exact List.cons_ne_nil _ _
  have positive := List.length_pos_iff.mpr taken
  rw [← found.1]
  omega

-- namex from ip on; what nameiparent leaves in name comes along.
def namexFrom (nameiparent : Bool) (ip : Nat) (path : List UInt8) (name : Bytes.Store) : M (Option Nat × Bytes.Store) :=
  match _found : skipelem path name with
  | none => do
    if nameiparent then
      iput ip
      return (none,name)
    else return (some ip,name)
  | some (rest,name) => do
    ilock ip
    let i ← inode ip
    if i.din.type ≠ 1 then
      iunlockput ip
      return (none,name)
    else if nameiparent ∧ rest.headD 0 = 0 then
      iunlock ip
      return (some ip,name)
    else
      match ← dirlookup ip name with
      | none =>
        iunlockput ip
        return (none,name)
      | some (next,_) =>
        iunlockput ip
        namexFrom nameiparent next rest name
termination_by path.length
decreasing_by exact skipelem_shorter _found

def namex (cwd : Nat) (path : List UInt8) (nameiparent : Bool) (name : Bytes.Store) : M (Option Nat × Bytes.Store) := do
  let ip ← if path.headD 0 = 47 then iget ROOTINO else idup cwd
  namexFrom nameiparent ip path name

-- name is an array on the stack, with anything in it.
def namei (cwd : Nat) (path : List UInt8) (name : Bytes.Store) : M (Option Nat) := do
  let (ip,_) ← namex cwd path false name
  return ip

def nameiparent (cwd : Nat) (path : List UInt8) (name : Bytes.Store) : M (Option Nat × Bytes.Store) := namex cwd path true name

end Xv6.Fs.Core
