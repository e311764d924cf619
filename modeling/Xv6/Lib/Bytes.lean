import Mathlib.Algebra.Group.Nat.Defs
import Mathlib.Logic.Function.Basic
import Mathlib.Tactic.Common

namespace Bytes

-- A byte store is a total map from addresses to bytes. Words are little
-- endian. A store past the value's width keeps the low bytes, as a cast does.
abbrev Store := Nat → UInt8

def byteOf (v t : Nat) : UInt8 := UInt8.ofNat (v / 256^t)

def ld16 (m : Store) (o : Nat) : Nat := (m o).toNat + 256 * (m (o+1)).toNat

def ld32 (m : Store) (o : Nat) : Nat :=
  (m o).toNat + 256 * (m (o+1)).toNat + 65536 * (m (o+2)).toNat + 16777216 * (m (o+3)).toNat

-- The one writer: n bytes of src land at o, everything else stays.
def copy (m : Store) (o n : Nat) (src : Store) : Store :=
  fun i => if o ≤ i ∧ i < o+n then src (i-o) else m i

def st16 (m : Store) (o v : Nat) : Store := copy m o 2 (byteOf v)
def st32 (m : Store) (o v : Nat) : Store := copy m o 4 (byteOf v)
def fill (m : Store) (o n : Nat) (c : UInt8) : Store := copy m o n (fun _ => c)

theorem byteOf_toNat (v t : Nat) : (byteOf v t).toNat = v / 256^t % 256 := by
  simp [byteOf,UInt8.toNat_ofNat']

theorem copy_in (m src : Store) (low : o ≤ i) (high : i < o+n) : copy m o n src i = src (i-o) := by
  simp [copy,low,high]

theorem copy_out (m src : Store) (out : i < o ∨ o+n ≤ i) : copy m o n src i = m i := by
  have outside : ¬ (o ≤ i ∧ i < o+n) := by omega
  simp [copy,outside]

theorem ld32_lt (m : Store) (o : Nat) : ld32 m o < 4294967296 := by
  have one := (m o).toNat_lt
  have two := (m (o+1)).toNat_lt
  have three := (m (o+2)).toNat_lt
  have four := (m (o+3)).toNat_lt
  unfold ld32; omega

theorem ld16_congr (same : ∀ t < 2, m (o+t) = p (q+t)) : ld16 m o = ld16 p q := by
  have zero := same 0 (by decide)
  have one := same 1 (by decide)
  simp only [Nat.add_zero] at zero
  simp [ld16,zero,one]

theorem ld32_congr (same : ∀ t < 4, m (o+t) = p (q+t)) : ld32 m o = ld32 p q := by
  have zero := same 0 (by decide)
  have one := same 1 (by decide)
  have two := same 2 (by decide)
  have three := same 3 (by decide)
  simp only [Nat.add_zero] at zero
  simp [ld32,zero,one,two,three]

theorem ld16_bytes (bytes : ∀ t < 2, m (o+t) = byteOf v t) : ld16 m o = v % 65536 := by
  have zero := bytes 0 (by decide)
  have one := bytes 1 (by decide)
  simp only [Nat.add_zero] at zero
  simp only [ld16,zero,one,byteOf_toNat]
  omega

theorem ld32_bytes (bytes : ∀ t < 4, m (o+t) = byteOf v t) : ld32 m o = v % 4294967296 := by
  have zero := bytes 0 (by decide)
  have one := bytes 1 (by decide)
  have two := bytes 2 (by decide)
  have three := bytes 3 (by decide)
  simp only [Nat.add_zero] at zero
  simp only [ld32,zero,one,two,three,byteOf_toNat]
  omega

theorem ld32_st32 (m : Store) (o v : Nat) : ld32 (st32 m o v) o = v % 4294967296 := by
  apply ld32_bytes
  intro t small
  rw [st32,copy_in _ _ (by omega) (by omega)]
  congr 1; omega

theorem ld32_copy_out (m src : Store) (apart : p+4 ≤ o ∨ o+n ≤ p) :
    ld32 (copy m o n src) p = ld32 m p :=
  ld32_congr fun t small => copy_out _ _ (by omega)

theorem ld32_st32_out (m : Store) (apart : p+4 ≤ o ∨ o+4 ≤ p) :
    ld32 (st32 m o v) p = ld32 m p := ld32_copy_out _ _ apart

theorem ld32_zero (zero : ∀ t < 4, m (o+t) = 0) : ld32 m o = 0 := by
  have bytes : ∀ t < 4, m (o+t) = byteOf 0 t := fun t small => by rw [zero t small]; simp [byteOf]
  simpa using ld32_bytes bytes

end Bytes
