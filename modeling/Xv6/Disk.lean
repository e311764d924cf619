import Xv6.Lib.Bytes
import Xv6.Lib.Writes

namespace Xv6
open Bytes

-- Constants of param.h and fs.h that the model compares against. The block
-- size BSIZE is 512 and stays a numeral: every use of it is arithmetic.
def LOGSIZE : Nat := 10
def ROOTINO : Nat := 1

-- Where the kernel stops. Each panic carries the source's own occasion; sleeping
-- is not a failure, the caller is resumed once the flag it waits for clears.
inductive Panic where
  | tooBigTransaction | writeOutsideTrans
  | ballocOutOfBlocks | freeingFreeBlock
  | iallocNoInodes | igetNoInodes | ilock | ilockNoType | iunlock | iputBusy
  | bmapOutOfRange | dirlookupNotDir | dirlinkRead | dirlink
  | isdiremptyReadi | unlinkNlink | unlinkWritei | createDots | createDirlink
  | filedup | fileclose | fileread | filewrite | shortFilewrite | initExiting
  deriving DecidableEq, Repr

inductive Stop where
  | panic (what : Panic)
  | sleeps
  deriving DecidableEq, Repr

-- One sector's worth of bytes. Reads past the end give 0 and are never made.
def Block := Fin 512 → UInt8

namespace Block
def byte (b : Block) : Store := fun i => if inside : i < 512 then b ⟨i,inside⟩ else 0
def ofStore (m : Store) : Block := fun i => m i
def zero : Block := fun _ => 0

theorem byte_ofStore (m : Store) (inside : i < 512) : (ofStore m).byte i = m i := by
  simp [byte,ofStore,inside]

theorem byte_zero (i : Nat) : zero.byte i = 0 := by
  unfold byte; split <;> rfl

theorem ld32_ofStore (m : Store) (inside : o+4 ≤ 512) : ld32 (ofStore m).byte o = ld32 m o :=
  ld32_congr fun t small => byte_ofStore m (by omega)

theorem ld32_zero (o : Nat) : ld32 zero.byte o = 0 :=
  Bytes.ld32_zero fun t _ => byte_zero (o+t)
end Block

abbrev Disk := Nat → Block

end Xv6
