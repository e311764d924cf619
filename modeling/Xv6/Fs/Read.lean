import Xv6.Fs.Blocks
import Xv6.Lib.Chunks

namespace Xv6.Fs
open Bytes

-- fs.c as far as it only reads: the paths on which bmap finds its block.

def bmap (disk : Disk) (ip : Dinode) (bn : Nat) : Option Nat :=
  if bn < 12 then
    if ip.addrs bn = 0 then none else some (ip.addrs bn)
  else if bn-12 < 128 then
    if ip.addrs 12 = 0 then none
    else
      let addr := ld32 (disk (ip.addrs 12)).byte (4*(bn-12))
      if addr = 0 then none else some addr
  else none

def readiLoop (disk : Disk) (ip : Dinode) : List (Nat × Nat) → Option (List UInt8)
  | [] => some []
  | (off,m) :: rest => do
    let b ← bmap disk ip (off/512)
    let more ← readiLoop disk ip rest
    return (List.range m).map (fun t => (disk b).byte (off%512+t)) ++ more

-- Of a file or directory; none also stands for -1.
def readi (disk : Disk) (ip : Dinode) (off n : Nat) : Option (List UInt8) :=
  if ip.type = 3 then none
  else if ip.size < off ∨ (off+n) % 4294967296 < off then none
  else readiLoop disk ip (Chunks.chunks 512 off (if ip.size < (off+n) % 4294967296 then ip.size-off else n))

def strncmp : Nat → Bytes.Store → Bytes.Store → Bool
  | 0,_,_ => true
  | n+1,p,q => if p 0 ≠ 0 ∧ p 0 = q 0 then strncmp n (fun t => p (t+1)) fun t => q (t+1) else p 0 = q 0

def namecmp (s t : Bytes.Store) : Bool := strncmp 14 s t

def cstring (name : List UInt8) : Bytes.Store := fun t => name.getD t 0

-- none: one of the panics. The inner answer is the inode number.
def dirlookupFrom (disk : Disk) (dp : Dinode) (name : List UInt8) : List Nat → Option (Option Nat)
  | [] => some none
  | off :: rest =>
    match readi disk dp off 16 with
    | none => none
    | some de =>
      if de.length ≠ 16 then none
      else if ld16 (cstring de) 0 = 0 then dirlookupFrom disk dp name rest
      else if namecmp (cstring name) (fun t => cstring de (2+t)) then some (some (ld16 (cstring de) 0))
      else dirlookupFrom disk dp name rest

def dirlookup (disk : Disk) (dp : Dinode) (name : List UInt8) : Option (Option Nat) :=
  if dp.type ≠ 1 then none
  else dirlookupFrom disk dp name ((List.range ((dp.size+15)/16)).map fun k => 16*k)

-- The test that balloc and bfree make.
def bitSet (bp : Block) (bi : Nat) : Bool := bp.byte (bi/8) &&& 1 <<< UInt8.ofNat (bi%8) ≠ 0

section
variable {disk : Disk} {d : Dinode}

theorem bmap_eq (small : bn < 140) (used : addrOf disk d (.data bn) ≠ 0) : bmap disk d bn = some (addrOf disk d (.data bn)) := by
  by_cases direct : bn < 12
  · simp only [addrOf,direct,if_true] at used ⊢
    simp [bmap,direct,used]
  · by_cases none : d.addrs 12 = 0
    · simp [addrOf,direct,none] at used
    · simp only [addrOf,direct,if_false,none] at used ⊢
      simp [bmap,direct,none,used,show bn-12 < 128 by omega]

theorem readiLoop_eq : ∀ off n, off+n ≤ 71680 → (∀ o, off ≤ o → o < off+n → addrOf disk d (.data (o/512)) ≠ 0) →
    readiLoop disk d (Chunks.chunks 512 off n) = some ((List.range n).map fun t => byteAt disk d (off+t)) := by
  intro off n
  induction off,n using Chunks.chunks_induct (B := 512) (by decide) with
  | zero off => intro _ _; rfl
  | step off n m some cut more ih =>
    intro top used
    rw [Chunks.chunks_step (by decide) some,← cut,readiLoop,bmap_eq (by omega) (used off (by omega) (by omega)),
      ih (by omega) fun o low high => used o (by omega) (by omega)]
    simp only [Option.bind_eq_bind,Option.bind_some,Option.pure_def,Option.some.injEq]
    have whole : n = m+(n-m) := by omega
    conv => rhs; rw [whole,List.range_add,List.map_append,List.map_map]
    congr 1
    · refine List.map_congr_left fun t member => ?_
      have small := List.mem_range.mp member
      rw [byteAt,show (off+t)/512 = off/512 by omega,show (off+t)%512 = off%512+t by omega]
    · refine List.map_congr_left fun t _ => ?_
      simp only [Function.comp_apply]
      rw [Nat.add_assoc]

theorem readi_eq (plain : d.type ≠ 3) (low : off ≤ d.size) (word : off+n < 4294967296) (top : d.size ≤ 71680)
    (used : ∀ o, off ≤ o → o < min (off+n) d.size → addrOf disk d (.data (o/512)) ≠ 0) :
    readi disk d off n = some ((List.range (min n (d.size-off))).map fun t => byteAt disk d (off+t)) := by
  rw [readi,if_neg plain,Nat.mod_eq_of_lt word,if_neg (by omega)]
  have clipped : (if d.size < off+n then d.size-off else n) = min n (d.size-off) := by split <;> omega
  rw [clipped]
  exact readiLoop_eq off _ (by omega) fun o from_ below => used o from_ (by omega)

end

theorem cstring_cons (c : UInt8) (name : List UInt8) : (fun t => cstring (c :: name) (t+1)) = cstring name := by
  funext t
  simp [cstring]

theorem strncmp_eq (n : Nat) : ∀ {a b : List UInt8}, 0 ∉ a → 0 ∉ b → (strncmp n (cstring a) (cstring b) = true ↔ a.take n = b.take n) := by
  induction n with
  | zero => intro a b _ _; simp [strncmp]
  | succ n ih =>
    intro a b one two
    cases a with
    | nil =>
      cases b with
      | nil => simp [strncmp,cstring]
      | cons c b =>
        have : c ≠ 0 := fun zero => two (by simp [zero])
        simp [strncmp,cstring,this.symm]
    | cons c a =>
      have nonzero : c ≠ 0 := fun zero => one (by simp [zero])
      cases b with
      | nil => simp [strncmp,cstring,nonzero]
      | cons e b =>
        simp only [strncmp,cstring_cons]
        by_cases same : c = e
        · subst same
          have := ih (a := a) (b := b) (fun zero => one (by simp [zero])) fun zero => two (by simp [zero])
          simp [cstring,nonzero,this]
        · simp [cstring,nonzero,same]

theorem or_and_bit (x : UInt8) (p q : Fin 8) :
    (x ||| 1 <<< UInt8.ofNat p) &&& 1 <<< UInt8.ofNat q ≠ 0 ↔ p = q ∨ x &&& 1 <<< UInt8.ofNat q ≠ 0 := by
  have single : (1 <<< UInt8.ofNat p : UInt8) &&& 1 <<< UInt8.ofNat q ≠ 0 ↔ p = q := by
    revert p q
    decide
  have spread : (x ||| 1 <<< UInt8.ofNat p) &&& 1 <<< UInt8.ofNat q =
      (x &&& 1 <<< UInt8.ofNat q) ||| (1 <<< UInt8.ofNat p &&& 1 <<< UInt8.ofNat q) := by
    apply UInt8.toBitVec_inj.mp
    ext i
    simp [Bool.and_or_distrib_right]
  rw [spread,Ne,UInt8.or_eq_zero_iff,not_and_or,or_comm]
  exact or_congr_left single

theorem bitSet_set (m : Bytes.Store) (i : Nat) (small : b < 4096) :
    bitSet (.ofStore (Function.update m (i/8) (m (i/8) ||| 1 <<< UInt8.ofNat (i%8)))) b = true ↔ b = i ∨ bitSet (.ofStore m) b = true := by
  have low : b/8 < 512 := by omega
  simp only [bitSet,Block.byte_ofStore _ low,decide_eq_true_eq]
  by_cases here : b/8 = i/8
  · rw [here,Function.update_self]
    have := or_and_bit (m (i/8)) ⟨i%8,by omega⟩ ⟨b%8,by omega⟩
    simp only [Fin.mk.injEq] at this
    rw [this]
    have : i%8 = b%8 ↔ b = i := by omega
    rw [this]
  · rw [Function.update_of_ne here]
    have : b ≠ i := fun eq => here (by rw [eq])
    simp [this]

theorem bitSet_ofStore (bp : Block) (small : b < 4096) : bitSet (.ofStore bp.byte) b = bitSet bp b := by
  unfold bitSet
  rw [Block.byte_ofStore _ (by omega)]

end Xv6.Fs
