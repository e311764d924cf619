import Xv6.Disk

namespace Xv6.Fs
open Bytes

-- fs.h. BSIZE is 512, NDIRECT 12, NINDIRECT 128, MAXFILE 140, IPB 8 and DIRSIZ 14; a
-- dinode takes 64 bytes, a dirent 16.
structure Dinode where
  type : Nat
  major : Nat
  minor : Nat
  nlink : Nat
  size : Nat
  addrs : Nat → Nat

def IBLOCK (i : Nat) : Nat := i/8 + 2
def BBLOCK (b ninodes : Nat) : Nat := b/4096 + ninodes/8 + 3

namespace Dinode

def zero : Dinode := ⟨0,0,0,0,0,fun _ => 0⟩

def setAddr (d : Dinode) (i a : Nat) : Dinode := { d with addrs := Function.update d.addrs i a }

-- Four shorts, the size, and the thirteen addresses.
def bytes (d : Dinode) : Bytes.Store := fun t =>
  if t < 2 then byteOf d.type t
  else if t < 4 then byteOf d.major (t-2)
  else if t < 6 then byteOf d.minor (t-4)
  else if t < 8 then byteOf d.nlink (t-6)
  else if t < 12 then byteOf d.size (t-8)
  else byteOf (d.addrs ((t-12)/4)) ((t-12)%4)

def load (b : Block) (o : Nat) : Dinode where
  type := ld16 b.byte o
  major := ld16 b.byte (o+2)
  minor := ld16 b.byte (o+4)
  nlink := ld16 b.byte (o+6)
  size := ld32 b.byte (o+8)
  addrs i := if i < 13 then ld32 b.byte (o+12+4*i) else 0

def store (b : Block) (o : Nat) (d : Dinode) : Block := .ofStore (copy b.byte o 64 d.bytes)

structure Fits (d : Dinode) : Prop where
  type : d.type < 65536
  major : d.major < 65536
  minor : d.minor < 65536
  nlink : d.nlink < 65536
  size : d.size < 4294967296
  addrs : ∀ i, d.addrs i < 4294967296
  few : ∀ i, 13 ≤ i → d.addrs i = 0

theorem zero_fits : zero.Fits := ⟨by decide,by decide,by decide,by decide,by decide,fun _ => by simp [zero],fun _ _ => rfl⟩

theorem Fits.setAddr (fits : Fits d) (small : i < 13) (word : a < 4294967296) : (d.setAddr i a).Fits where
  type := fits.type
  major := fits.major
  minor := fits.minor
  nlink := fits.nlink
  size := fits.size
  addrs j := by
    simp only [Dinode.setAddr,Function.update_apply]
    split
    · exact word
    · exact fits.addrs j
  few j high := by
    simp only [Dinode.setAddr,Function.update_apply,if_neg (show j ≠ i by omega)]
    exact fits.few j high

theorem store_byte (b : Block) (d : Dinode) (fits : o+64 ≤ 512) (inside : t < 64) : (store b o d).byte (o+t) = d.bytes t := by
  rw [store,Block.byte_ofStore _ (by omega),copy_in _ _ (by omega) (by omega)]
  congr 1
  omega

theorem load_store (b : Block) (whole : o+64 ≤ 512) (fits : Fits d) : load (store b o d) o = d := by
  have short : ∀ k v, k+2 ≤ 8 → v < 65536 → (∀ t < 2, d.bytes (k+t) = byteOf v t) → ld16 (store b o d).byte (o+k) = v := by
    intro k v low small spelled
    rw [ld16_bytes fun t two => ?_]
    · exact Nat.mod_eq_of_lt small
    · rw [Nat.add_assoc,store_byte b d whole (by omega)]
      exact spelled t two
  have word : ∀ k v, k+4 ≤ 64 → v < 4294967296 → (∀ t < 4, d.bytes (k+t) = byteOf v t) → ld32 (store b o d).byte (o+k) = v := by
    intro k v low small spelled
    rw [ld32_bytes fun t four => ?_]
    · exact Nat.mod_eq_of_lt small
    · rw [Nat.add_assoc,store_byte b d whole (by omega)]
      exact spelled t four
  have type := short 0 d.type (by omega) fits.type fun t two => by simp [bytes,two]
  have major := short 2 d.major (by omega) fits.major fun t two => by
    simp [bytes,show ¬ 2+t < 2 by omega,show 2+t < 4 by omega]
  have minor := short 4 d.minor (by omega) fits.minor fun t two => by
    simp [bytes,show ¬ 4+t < 2 by omega,show ¬ 4+t < 4 by omega,show 4+t < 6 by omega]
  have nlink := short 6 d.nlink (by omega) fits.nlink fun t two => by
    simp [bytes,show ¬ 6+t < 2 by omega,show ¬ 6+t < 4 by omega,show ¬ 6+t < 6 by omega,show 6+t < 8 by omega]
  have size := word 8 d.size (by omega) fits.size fun t four => by
    simp [bytes,show ¬ 8+t < 2 by omega,show ¬ 8+t < 4 by omega,show ¬ 8+t < 6 by omega,show ¬ 8+t < 8 by omega,show 8+t < 12 by omega]
  have addrs : ∀ i < 13, ld32 (store b o d).byte (o+(12+4*i)) = d.addrs i := by
    intro i small
    refine word (12+4*i) (d.addrs i) (by omega) (fits.addrs i) fun t four => ?_
    simp only [bytes,show ¬ 12+4*i+t < 2 by omega,show ¬ 12+4*i+t < 4 by omega,show ¬ 12+4*i+t < 6 by omega,
      show ¬ 12+4*i+t < 8 by omega,show ¬ 12+4*i+t < 12 by omega,if_false]
    congr 2
    · omega
    · omega
  cases d with
  | mk ty ma mi nl sz as =>
    simp only [load,Dinode.mk.injEq]
    refine ⟨type,major,minor,nlink,size,funext fun i => ?_⟩
    split
    · rename_i small
      rw [Nat.add_assoc]
      exact addrs i small
    · rename_i high
      exact (fits.few i (by omega)).symm

theorem load_store_other (b : Block) (d : Dinode) (whole : p+64 ≤ 512) (apart : p+64 ≤ o ∨ o+64 ≤ p) :
    load (store b o d) p = load b p := by
  have same : ∀ t < 64, (store b o d).byte (p+t) = b.byte (p+t) := by
    intro t inside
    rw [store,Block.byte_ofStore _ (by omega),copy_out _ _ (by omega)]
  have short : ∀ k, k+2 ≤ 64 → ld16 (store b o d).byte (p+k) = ld16 b.byte (p+k) := fun k low =>
    ld16_congr fun t two => by rw [Nat.add_assoc]; exact same (k+t) (by omega)
  have word : ∀ k, k+4 ≤ 64 → ld32 (store b o d).byte (p+k) = ld32 b.byte (p+k) := fun k low =>
    ld32_congr fun t four => by rw [Nat.add_assoc]; exact same (k+t) (by omega)
  simp only [load,Dinode.mk.injEq]
  refine ⟨short 0 (by omega),short 2 (by omega),short 4 (by omega),short 6 (by omega),word 8 (by omega),funext fun i => ?_⟩
  split
  · rw [Nat.add_assoc]
    exact word (12+4*i) (by omega)
  · rfl

end Dinode

def dinodeAt (disk : Disk) (i : Nat) : Dinode := .load (disk (IBLOCK i)) (64*(i%8))
def putDinode (disk : Disk) (i : Nat) (d : Dinode) : Disk :=
  Function.update disk (IBLOCK i) (Dinode.store (disk (IBLOCK i)) (64*(i%8)) d)

theorem dinodeAt_putDinode (disk : Disk) (i : Nat) (fits : d.Fits) : dinodeAt (putDinode disk i d) i = d := by
  rw [dinodeAt,putDinode,Function.update_self]
  exact Dinode.load_store _ (by omega) fits

theorem dinodeAt_putDinode_other (disk : Disk) (d : Dinode) (other : j ≠ i) :
    dinodeAt (putDinode disk i d) j = dinodeAt disk j := by
  by_cases block : IBLOCK j = IBLOCK i
  · have apart : j%8 ≠ i%8 := by
      simp only [IBLOCK] at block
      omega
    rw [dinodeAt,putDinode,block,Function.update_self,Dinode.load_store_other _ _ (by omega) (by omega),dinodeAt,block]
  · rw [dinodeAt,putDinode,Function.update_of_ne block,dinodeAt]

theorem putDinode_other (disk : Disk) (d : Dinode) (other : b ≠ IBLOCK i) : putDinode disk i d b = disk b :=
  Function.update_of_ne other _ _

theorem dinodeAt_congr (same : e (IBLOCK i) = disk (IBLOCK i)) : dinodeAt e i = dinodeAt disk i := by
  rw [dinodeAt,same,dinodeAt]

-- struct dirent: the inode number and the name, padded with NULs.
def entryBytes (inum : Nat) (name : List UInt8) : Bytes.Store := fun t =>
  if t < 2 then byteOf inum t else name.getD (t-2) 0

end Xv6.Fs
