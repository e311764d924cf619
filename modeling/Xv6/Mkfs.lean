import Xv6.Fs.Blocks
import Xv6.Lib.Chunks
import Xv6.Lib.Exec

namespace Xv6.Mkfs
open Bytes Exec Fs

-- mkfs.c. The globals are nblocks = 985, nlog = 10, ninodes = 200 and size = 1024, so that
-- bitblocks is 1, the metadata take the first 29 blocks and the log the last 10.

-- How mkfs ends early: exit(1), or an assertion that does not hold.
inductive Exit where
  | one
  | assert
  deriving DecidableEq, Repr

-- The image has len sectors. The last three fields record which blocks and inode numbers
-- were handed out and which sectors winode wrote.
structure State where
  img : Disk
  len : Nat
  freeblock : Nat
  usedblocks : Nat
  freeinode : Nat
  blocks : List Nat
  inums : List Nat
  inodeWrites : List Nat

abbrev M := Prog State Exit

-- A sector past the end makes the image longer.
def wsect (sec : Nat) (buf : Block) : M Unit :=
  Prog.modify fun s => { s with img := Function.update s.img sec buf, len := max s.len (sec+1) }

-- A sector past the end cannot be read.
def rsect (sec : Nat) : M Block := do
  let s ← Prog.get
  if sec < s.len then return s.img sec else Prog.stop .one

def i2b (inum : Nat) : Nat := inum/8 + 2

def winode (inum : Nat) (ip : Dinode) : M Unit := do
  let buf ← rsect (i2b inum)
  Prog.modify fun s => { s with inodeWrites := i2b inum :: s.inodeWrites }
  wsect (i2b inum) (Dinode.store buf (64*(inum%8)) ip)

def rinode (inum : Nat) : M Dinode := do
  let buf ← rsect (i2b inum)
  return Dinode.load buf (64*(inum%8))

def ialloc (type : Nat) : M Nat := do
  let inum := (← Prog.get).freeinode
  Prog.modify fun s => { s with freeinode := s.freeinode+1, inums := inum :: s.inums }
  winode inum ⟨type,0,0,1,0,fun _ => 0⟩
  return inum

-- freeblock++ and usedblocks++.
def takeBlock : M Nat := do
  let b := (← Prog.get).freeblock
  Prog.modify fun s => { s with freeblock := s.freeblock+1, usedblocks := s.usedblocks+1, blocks := b :: s.blocks }
  return b

def withIndirect (din : Dinode) : M Dinode := do
  if din.addrs 12 = 0 then
    let b ← takeBlock
    return din.setAddr 12 b
  else
    return din

def fileBlock (din : Dinode) (fbn : Nat) : M (Nat × Dinode) := do
  if fbn < 12 then
    if din.addrs fbn = 0 then
      let b ← takeBlock
      return (b,din.setAddr fbn b)
    else
      return (din.addrs fbn,din)
  else
    let din ← withIndirect din
    let indirect ← rsect (din.addrs 12)
    if ld32 indirect.byte (4*(fbn-12)) = 0 then
      let b ← takeBlock
      wsect (din.addrs 12) (.ofStore (st32 indirect.byte (4*(fbn-12)) b))
      return (b,din)
    else
      return (ld32 indirect.byte (4*(fbn-12)),din)

-- The while loop of iappend, over the pieces that it cuts [off, off+n) into; at counts the
-- bytes of xp that are done.
def appendLoop (xp : Bytes.Store) : List (Nat × Nat) → Nat → Dinode → M Dinode
  | [],_,din => return din
  | (off,n1) :: rest,done,din => do
    if 140 ≤ off/512 then
      Prog.stop .assert
    else
      let (x,din) ← fileBlock din (off/512)
      let buf ← rsect x
      wsect x (.ofStore (copy buf.byte (off - off/512*512) n1 fun t => xp (done+t)))
      appendLoop xp rest (done+n1) din

def iappend (inum : Nat) (xp : Bytes.Store) (n : Nat) : M Unit := do
  let din ← rinode inum
  let last ← appendLoop xp (Chunks.chunks 512 din.size n) 0 din
  winode inum { last with size := din.size+n }

-- The first used bits of the bitmap.
def setBit (m : Bytes.Store) (i : Nat) : Bytes.Store :=
  Function.update m (i/8) (m (i/8) ||| 1 <<< UInt8.ofNat (i%8))

def bitmap (used : Nat) : Bytes.Store := (List.range used).foldl setBit fun _ => 0

def balloc (used : Nat) : M Unit := do
  if 4096 ≤ used then Prog.stop .assert
  else wsect 28 (.ofStore (bitmap used))

structure HostFile where
  name : List UInt8
  data : List UInt8
  text : 0 ∉ name

def HostFile.shown (f : HostFile) : List UInt8 := if f.name.head? = some 95 then f.name.tail else f.name

-- read(fd, buf, 512) until it returns 0.
def copyData (inum : Nat) (data : List UInt8) : List (Nat × Nat) → M Unit
  | [] => return ()
  | (off,cc) :: rest => do
    iappend inum (fun t => data.getD (off+t) 0) cc
    copyData inum data rest

def addFiles (rootino : Nat) : List HostFile → M Unit
  | [] => return ()
  | f :: rest => do
    if 47 ∈ f.name then
      Prog.stop .assert
    else
      let inum ← ialloc 2
      iappend rootino (entryBytes inum (f.shown.take 14)) 16
      copyData inum f.data (Chunks.chunks 512 0 f.data.length)
      addFiles rootino rest

def zeroSectors : List Nat → M Unit
  | [] => return ()
  | i :: rest => do
    wsect i .zero
    zeroSectors rest

def superblock : Bytes.Store := st32 (st32 (st32 (st32 (fun _ => 0) 0 1024) 4 985) 8 200) 12 10

def main (files : List HostFile) : M Unit := do
  zeroSectors (List.range 1024)
  wsect 1 (.ofStore superblock)
  let rootino ← ialloc 1
  if rootino ≠ 1 then
    Prog.stop .assert
  else
    iappend rootino (entryBytes rootino [46]) 16
    iappend rootino (entryBytes rootino [46,46]) 16
    addFiles rootino files
    let din ← rinode rootino
    winode rootino { din with size := (din.size/512+1)*512 }
    balloc (← Prog.get).usedblocks

-- The image file is truncated on opening.
def start : State := ⟨fun _ => .zero,0,29,29,1,[],[],[]⟩

end Xv6.Mkfs
