import Xv6.Vm.Memory

namespace Xv6.Vm
open Bytes Exec

-- exec.c up to the point where the new image is committed. cur is the page
-- directory the kernel runs on meanwhile, the one of the old image. The locks and
-- references of the inode are left to the file system's model.

-- The fields of struct elfhdr and struct proghdr that exec reads.
def File.magic (f : File) : Nat := ld32 f.byte 0
def File.entry (f : File) : Nat := ld32 f.byte 24
def File.phoff (f : File) : Nat := ld32 f.byte 28
def File.phnum (f : File) : Nat := ld16 f.byte 44

structure Proghdr where
  type : Nat
  off : Nat
  vaddr : Nat
  filesz : Nat
  memsz : Nat
  deriving DecidableEq, Repr

def File.proghdr (f : File) (off : Nat) : Proghdr :=
  ⟨ld32 f.byte off,ld32 f.byte (off+4),ld32 f.byte (off+8),ld32 f.byte (off+16),ld32 f.byte (off+20)⟩

def segLoop (L : Layout) (cur pgdir : Nat) (f : File) : Nat → Nat → Nat → M (Option Nat)
  | 0, _, sz => return some sz
  | left+1, off, sz => do
    if f.readi off 32 ≠ some 32 then
      return none
    else
      let ph := f.proghdr off
      if ph.type ≠ 1 then
        segLoop L cur pgdir f left (w32 (off+32)) sz
      else if ph.memsz < ph.filesz then
        return none
      else
        let sz ← allocuvm L pgdir sz (w32 (ph.vaddr+ph.memsz))
        if sz = 0 then
          return none
        else if ← loaduvm L cur pgdir ph.vaddr f ph.off ph.filesz then
          segLoop L cur pgdir f left (w32 (off+32)) sz
        else
          return none

-- Argument strings come without their closing NUL.
def argLoop (L : Layout) (cur pgdir : Nat) : List (List UInt8) → Nat → Nat → List Nat → M (Option (Nat × List Nat))
  | [], _, sp, ptrs => return some (sp,ptrs)
  | arg :: rest, argc, sp, ptrs => do
    if 32 ≤ argc then
      return none
    else
      let sp := w32 (sp + 4294967296 - (arg.length+1)) / 4 * 4
      if ← copyout L cur pgdir sp (arg ++ [0]) then
        argLoop L cur pgdir rest (argc+1) sp (ptrs ++ [sp])
      else
        return none

def wordBytes (w : Nat) : List UInt8 := [byteOf w 0,byteOf w 1,byteOf w 2,byteOf w 3]

-- The fake return pc, argc, the argv pointer, the pointers and a null.
def ustack (argc sp : Nat) (ptrs : List Nat) : List UInt8 :=
  ([4294967295,argc,w32 (sp + 4294967296 - (argc+1)*4)] ++ ptrs ++ [0]).flatMap wordBytes

structure Image where
  pgdir : Nat
  sz : Nat
  eip : Nat
  esp : Nat

def bad (L : Layout) (pgdir : Nat) : M (Option Image) := do
  freevm L pgdir
  return none

def execStack (L : Layout) (cur pgdir eip sz : Nat) (argv : List (List UInt8)) : M (Option Image) := do
  let base := PGROUNDUP sz
  let top ← allocuvm L pgdir base (w32 (base+8192))
  if top = 0 then
    bad L pgdir
  else
    clearpteu pgdir (w32 (top + 4294967296 - 8192))
    match ← argLoop L cur pgdir argv 0 top [] with
    | none => bad L pgdir
    | some (sp,ptrs) =>
      let esp := w32 (sp + 4294967296 - (3+argv.length+1)*4)
      if ← copyout L cur pgdir esp (ustack argv.length sp ptrs) then
        return some ⟨pgdir,top,eip,esp⟩
      else
        bad L pgdir

-- readi answering -1 compares as the largest unsigned number.
def execImage (L : Layout) (cur : Nat) (f : File) (argv : List (List UInt8)) : M (Option Image) := do
  Prog.modify fun s => { s with grown := [], loaded := [] }
  if (f.readi 0 52).getD 4294967295 < 52 then
    return none
  else if f.magic ≠ 1179403647 then
    return none
  else
    match ← setupkvm L with
    | none => return none
    | some pgdir =>
      match ← segLoop L cur pgdir f f.phnum f.phoff 0 with
      | none => bad L pgdir
      | some sz => execStack L cur pgdir f.entry sz argv

end Xv6.Vm
