import Xv6.Fs.Format

namespace Xv6.Fs
open Function (update update_apply update_of_ne update_self)
open Bytes

-- Which block stands where in which inode, and what the bytes of a file are.

def Dinode.sized (d : Dinode) (n : Nat) : Dinode := { d with size := n }

inductive Slot where
  | data (k : Nat)
  | ind
  deriving DecidableEq, Repr

def Slot.Valid : Slot → Prop
  | .data k => k < 140
  | .ind => True

def addrOf (disk : Disk) (d : Dinode) : Slot → Nat
  | .data k => if k < 12 then d.addrs k else if d.addrs 12 = 0 then 0 else ld32 (disk (d.addrs 12)).byte (4*(k-12))
  | .ind => d.addrs 12

def Apart (disk : Disk) (dn : Nat → Dinode) : Prop :=
  ∀ i j s t, s.Valid → t.Valid → addrOf disk (dn i) s ≠ 0 → addrOf disk (dn i) s = addrOf disk (dn j) t → i = j ∧ s = t

def Free (disk : Disk) (dn : Nat → Dinode) (b : Nat) : Prop := ∀ i s, s.Valid → addrOf disk (dn i) s ≠ b

structure Backed (disk : Disk) (d : Dinode) : Prop where
  data : ∀ k < 140, addrOf disk d (.data k) ≠ 0 ↔ 512*k < d.size
  ind : d.addrs 12 ≠ 0 ↔ 6144 < d.size
  size : d.size ≤ 71680

def byteAt (disk : Disk) (d : Dinode) (o : Nat) : UInt8 := (disk (addrOf disk d (.data (o/512)))).byte (o%512)

def contents (disk : Disk) (d : Dinode) : List UInt8 := (List.range d.size).map (byteAt disk d)

def need (n : Nat) : Nat := (n+511)/512 + if 6144 < n then 1 else 0

theorem need_mono (le : a ≤ b) : need a ≤ need b := by
  unfold need
  have one : (a+511)/512 ≤ (b+511)/512 := by omega
  by_cases high : 6144 < a
  · simp only [high,if_true,show 6144 < b by omega]
    omega
  · simp only [high,if_false]
    omega

section
variable {disk next : Disk} {dn after : Nat → Dinode} {d : Dinode} {b i : Nat}

theorem addrOf_congr (same : d.addrs 12 ≠ 0 → next (d.addrs 12) = disk (d.addrs 12)) (s : Slot) : addrOf next d s = addrOf disk d s := by
  cases s with
  | ind => rfl
  | data k =>
    by_cases none : d.addrs 12 = 0
    · simp only [addrOf,none,if_true]
    · simp only [addrOf,same none]

theorem addrOf_write (data : Block) (other : d.addrs 12 ≠ b) (s : Slot) :
    addrOf (update disk b data) d s = addrOf disk d s :=
  addrOf_congr (fun _ => update_of_ne other _ _) s

theorem Free.ind (free : Free disk dn b) (i : Nat) : (dn i).addrs 12 ≠ b := free i .ind trivial

theorem Apart.ind (apart : Apart disk dn) (small : k < 140) (used : addrOf disk (dn i) (.data k) ≠ 0) (j : Nat) :
    (dn j).addrs 12 ≠ addrOf disk (dn i) (.data k) := by
  intro same
  have := (apart i j (.data k) .ind small trivial used same.symm).2
  cases this

structure Placed (disk next : Disk) (dn after : Nat → Dinode) (i : Nat) (s : Slot) (b : Nat) : Prop where
  here : addrOf next (after i) s = b
  same : ∀ t, t.Valid → t ≠ s → addrOf next (after i) t = addrOf disk (dn i) t
  others : ∀ j t, j ≠ i → t.Valid → addrOf next (after j) t = addrOf disk (dn j) t

theorem Placed.at (placed : Placed disk next dn after i s b) (j : Nat) (valid : t.Valid) :
    addrOf next (after j) t = if j = i ∧ t = s then b else addrOf disk (dn j) t := by
  by_cases other : j = i
  · subst other
    by_cases slot : t = s
    · subst slot; simp [placed.here]
    · simp [slot,placed.same t valid slot]
  · simp [other,placed.others j t other valid]

theorem Apart.place (apart : Apart disk dn) (placed : Placed disk next dn after i s b) (free : Free disk dn b) :
    Apart next after := by
  intro j k t u one two some eq
  rw [placed.at j one] at some eq
  rw [placed.at k two] at eq
  split at eq <;> split at eq
  · rename_i first second
    exact ⟨first.1.trans second.1.symm,first.2.trans second.2.symm⟩
  · exact absurd eq.symm (free k u two)
  · exact absurd eq (free j t one)
  · rename_i first second
    rw [if_neg first] at some
    exact apart j k t u one two some eq

theorem placed_direct (small : k < 12) (data : Block) (free : Free disk dn b) :
    Placed disk (update disk b data) dn (update dn i ((dn i).setAddr k b)) i (.data k) b where
  here := by simp [addrOf,small,Dinode.setAddr]
  same t valid other := by
    rw [addrOf_write data (by simpa [Dinode.setAddr,update_apply,show (12 : Nat) ≠ k by omega] using free.ind i)]
    cases t with
    | ind => simp [addrOf,Dinode.setAddr,show (12 : Nat) ≠ k by omega]
    | data j =>
      have ne : j ≠ k := fun eq => other (by rw [eq])
      simp [addrOf,Dinode.setAddr,ne,show (12 : Nat) ≠ k by omega]
  others j t ne valid := by
    rw [update_of_ne ne,addrOf_write data (free.ind j)]

theorem placed_ind (none : (dn i).addrs 12 = 0) (free : Free disk dn b) (zero : ∀ k < 128, ld32 data.byte (4*k) = 0) :
    Placed disk (update disk b data) dn (update dn i ((dn i).setAddr 12 b)) i .ind b where
  here := by simp [addrOf,Dinode.setAddr]
  same t valid other := by
    cases t with
    | ind => exact absurd rfl other
    | data j =>
      have bound : j < 140 := valid
      by_cases direct : j < 12
      · simp [addrOf,direct,Dinode.setAddr,show j ≠ 12 by omega]
      · simp only [addrOf,direct,if_false,Dinode.setAddr,update_self,none,if_true]
        split
        · rfl
        · exact zero (j-12) (by omega)
  others j t ne valid := by
    rw [update_of_ne ne,addrOf_write data (free.ind j)]

theorem placed_indirect (high : 12 ≤ k) (bound : k < 140) (apart : Apart disk dn) (some : (dn i).addrs 12 ≠ 0) (word : b < 4294967296) :
    Placed disk (update disk ((dn i).addrs 12) (.ofStore (st32 (disk ((dn i).addrs 12)).byte (4*(k-12)) b))) dn dn i (.data k) b where
  here := by
    simp only [addrOf,if_neg (show ¬ k < 12 by omega),if_neg some,update_self]
    rw [Block.ld32_ofStore _ (by omega),ld32_st32,Nat.mod_eq_of_lt word]
  same t valid other := by
    cases t with
    | ind => rfl
    | data j =>
      have ne : j ≠ k := fun eq => other (by rw [eq])
      have small : j < 140 := valid
      by_cases direct : j < 12
      · simp only [addrOf,direct,if_true]
      · simp only [addrOf,direct,if_false,some,update_self]
        rw [Block.ld32_ofStore _ (by omega),ld32_st32_out _ (by omega)]
  others j t ne valid := by
    by_cases none : (dn j).addrs 12 = 0
    · exact addrOf_congr (fun some => absurd none some) t
    · refine addrOf_write _ (fun same => ?_) t
      exact ne (apart j i .ind .ind trivial trivial none same).1

theorem byteAt_congr (place : addrOf next e (.data (o/512)) = addrOf disk d (.data (o/512)))
    (block : next (addrOf disk d (.data (o/512))) = disk (addrOf disk d (.data (o/512)))) : byteAt next e o = byteAt disk d o := by
  rw [byteAt,place,block,byteAt]

theorem addrOf_size (disk : Disk) (d : Dinode) (n : Nat) (t : Slot) : addrOf disk (d.sized n) t = addrOf disk d t := by
  cases t <;> rfl

theorem byteAt_size (disk : Disk) (d : Dinode) (n o : Nat) : byteAt disk (d.sized n) o = byteAt disk d o := by
  rw [byteAt,addrOf_size,byteAt]

theorem byteAt_write (apart : Apart disk dn) (bound : k < 140) (used : addrOf disk (dn i) (.data k) ≠ 0) (data : Block)
    (small : o/512 < 140) (j : Nat) : byteAt (update disk (addrOf disk (dn i) (.data k)) data) (dn j) o =
      if j = i ∧ o/512 = k then data.byte (o%512) else byteAt disk (dn j) o := by
  rw [byteAt,addrOf_write data (apart.ind bound used j)]
  split
  · rename_i here
    rw [here.1,here.2,update_self]
  rename_i other
  rw [update_of_ne,byteAt]
  intro same
  obtain ⟨rfl,slot⟩ := apart i j (.data k) (.data (o/512)) bound small used same.symm
  cases slot
  exact other ⟨rfl,rfl⟩

theorem Backed.congr (backed : Backed disk d) (same : ∀ k < 140, addrOf next d (.data k) = addrOf disk d (.data k)) : Backed next d where
  data k small := by rw [same k small]; exact backed.data k small
  ind := backed.ind
  size := backed.size

theorem Backed.empty (disk : Disk) {d : Dinode} (size : d.size = 0) (addrs : ∀ k, d.addrs k = 0) : Backed disk d where
  data k bound := by simp [addrOf,addrs,size]
  ind := by simp [addrs,size]
  size := by omega

theorem Backed.extend {disk next : Disk} {d e : Dinode} (backed : Backed disk d) (some : 0 < m) (within : m ≤ 512 - d.size%512)
    (fits : d.size/512 < 140) (size : e.size = d.size+m)
    (data : ∀ k < 140, addrOf next e (.data k) ≠ 0 ↔ k = d.size/512 ∨ addrOf disk d (.data k) ≠ 0)
    (ind : e.addrs 12 ≠ 0 ↔ 12 ≤ d.size/512 ∨ d.addrs 12 ≠ 0) : Backed next e where
  data k bound := by
    rw [data k bound,backed.data k bound,size]
    omega
  ind := by
    rw [ind,backed.ind,size]
    omega
  size := by rw [size]; omega

theorem placed_iff {disk next : Disk} {dn after : Nat → Dinode} (placed : Placed disk next dn after i (.data k) b) (some : b ≠ 0) :
    ∀ j < 140, addrOf next (after i) (.data j) ≠ 0 ↔ j = k ∨ addrOf disk (dn i) (.data j) ≠ 0 := by
  intro j bound
  rw [placed.at i (t := .data j) bound]
  by_cases here : j = k
  · simp [here,some]
  · simp [here]

theorem contents_congr (size : e.size = d.size) (same : ∀ o < d.size, byteAt next e o = byteAt disk d o) : contents next e = contents disk d := by
  unfold contents
  rw [size]
  exact List.map_congr_left fun o member => same o (List.mem_range.mp member)

theorem contents_append (size : e.size = d.size+n) (old : ∀ o < d.size, byteAt next e o = byteAt disk d o)
    (new : ∀ t < n, byteAt next e (d.size+t) = src t) : contents next e = contents disk d ++ (List.range n).map src := by
  unfold contents
  rw [size,List.range_add,List.map_append,List.map_map]
  congr 1
  · exact List.map_congr_left fun o member => old o (List.mem_range.mp member)
  · exact List.map_congr_left fun t member => new t (List.mem_range.mp member)

theorem contents_splice (low : off ≤ d.size) (size : e.size = max d.size (off+n))
    (bytes : ∀ x < e.size, byteAt next e x = if off ≤ x ∧ x < off+n then src (x-off) else byteAt disk d x) :
    contents next e = (contents disk d).take off ++ (List.range n).map src ++ (contents disk d).drop (off+n) := by
  have length : (contents disk d).length = d.size := by simp [contents]
  have shape : e.size = off+n+(d.size-(off+n)) := by omega
  refine List.ext_getElem (by simp [contents]; omega) fun x one two => ?_
  have inside : x < e.size := by simpa [contents] using one
  have here : (contents next e)[x] = byteAt next e x := by simp only [contents,List.getElem_map,List.getElem_range]
  have cut : ((contents disk d).take off).length = off := by rw [List.length_take,length]; omega
  rw [here,bytes x inside]
  -- Before the new bytes, among them, behind them.
  by_cases first : x < off
  · rw [if_neg (by omega),List.getElem_append_left (by simp [cut]; omega),List.getElem_append_left (by omega),List.getElem_take]
    simp only [contents,List.getElem_map,List.getElem_range]
  by_cases second : x < off+n
  · rw [if_pos (by omega),List.getElem_append_left (by simp [cut]; omega),List.getElem_append_right (by omega)]
    simp only [List.getElem_map,List.getElem_range,cut]
  rw [if_neg (by omega),List.getElem_append_right (by simp [cut]; omega),List.getElem_drop]
  have front : ((contents disk d).take off ++ (List.range n).map src).length = off+n := by simp [cut]
  simp only [front]
  simp only [contents,List.getElem_map,List.getElem_range]
  congr 1
  omega

end
end Xv6.Fs
