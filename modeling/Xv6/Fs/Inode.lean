import Xv6.Fs.Write

namespace Xv6.Fs.Core
open Bytes Exec LogCrash

-- Transactions, and inodes that are locked in them.

section
variable {L : Layout} {s next : State} {dn : Nat → Dinode} {E : Stop → State → Prop}

theorem sat_begin (g : Unit → M α) (Q : α → State → Prop) (idle : s.log.busy = false)
    (rest : Sat (g ()) { s with log := { s.log with busy := true } } E Q) : Sat (beginTrans >>= g) s E Q := by
  have ran : s.log.beginTrans = .ok { s.log with busy := true } := by simp [Store.beginTrans,idle]
  rw [beginTrans,sat_bind,sat_get_bind,ran]
  exact (sat_modify ..).mpr rest

theorem sat_commit (g : Unit → M α) (Q : α → State → Prop) (sane : Sane L.area s.log)
    (rest : ∀ log, Sane L.area log → log.busy = false → L.view log = L.view s.log →
      Sat (g ()) { s with log := log, commits := s.log.lh :: s.commits } E Q) : Sat (commitTrans >>= g) s E Q := by
  have apart : ¬ ∃ b ∈ s.log.lh, b = logBlock s.log b := by
    rintro ⟨b,member,same⟩
    have index := List.idxOf_lt_length_iff.mpr member
    have room := sane.room
    refine outside_ne_log (sane.outside b member) (t := s.log.lh.idxOf b+1) (by omega) (same.trans ?_)
    rw [logBlock,sane.start]
    rfl
  rw [commitTrans,sat_bind,sat_get_bind,if_neg apart,sat_modify]
  obtain ⟨after,idle,same⟩ := sane.commit
  refine rest _ after idle (funext fun x => ?_)
  unfold Layout.view
  split
  · rename_i out
    exact same x out
  · rfl

structure Quiet (L : Layout) (s : State) (dn : Nat → Dinode) : Prop where
  files : Files L s dn
  idle : s.log.busy = false
  held : s.held = []

structure Cached (L : Layout) (s : State) (dn : Nat → Dinode) (ip i : Nat) : Prop where
  inum : (s.icache ip).inum = i
  small : i < L.ninodes
  ref : 0 < (s.icache ip).ref
  unlocked : (s.icache ip).busy = false
  copy : (s.icache ip).valid = true → dn i = (s.icache ip).din
  kind : (dn i).type ≠ 0

def State.locked (s : State) (ip : Nat) (d : Dinode) : State :=
  { s with icache := Function.update s.icache ip { s.icache ip with busy := true, valid := true, din := d } }

theorem sat_ilock (g : Unit → M α) (Q : α → State → Prop) (files : Files L s dn) (held : s.held = []) (cached : Cached L s dn ip i)
    (rest : Sat (g ()) (s.locked ip (dn i)) E Q) : Sat (ilock ip >>= g) s E Q := by
  have ref := cached.ref
  rw [ilock,sat_bind,sat_inode,if_neg (by omega),if_neg (by simp [cached.unlocked]),sat_setInode]
  by_cases valid : (s.icache ip).valid = true
  · rw [if_neg (by simp [valid])]
    have same : s.locked ip (dn i) = { s with icache := Function.update s.icache ip { s.icache ip with busy := true } } := by
      rw [State.locked,cached.copy valid]
      congr 2
      simp [valid]
    rw [← same]
    exact .done rest
  · rw [if_pos (by simpa using valid)]
    have out := L.outside_low (lt_data L (iblock_lt L cached.small))
    have here : Dinode.load (s.log.bread (IBLOCK (s.icache ip).inum)) (64*((s.icache ip).inum%8)) = dn i := by
      rw [cached.inum,← files.copies i cached.small,dinodeAt,L.view_outside _ out]
    refine sat_reads _ _ (by simp [held]) ?_
    rw [sat_setInode,if_neg (by rw [here]; exact cached.kind),sat_pure]
    rw [State.locked] at rest
    simpa [here] using rest

theorem sat_iunlock (g : Unit → M α) (Q : α → State → Prop) (ref : 0 < (s.icache ip).ref) (busy : (s.icache ip).busy = true)
    (rest : Sat (g ()) { s with icache := Function.update s.icache ip { s.icache ip with busy := false } } E Q) :
    Sat (iunlock ip >>= g) s E Q := by
  rw [iunlock,sat_bind,sat_inode,if_neg (by simp [busy]; omega)]
  exact (sat_modify ..).mpr rest

theorem Files.moved (files : Files L s dn) (sane : Sane L.area next.log) (held : next.held = []) (view : L.view next.log = L.view s.log) :
    Files L next dn where
  calm := ⟨sane,by simp [held]⟩
  owned := by rw [view]; exact files.owned
  backed j := by rw [view]; exact files.backed j
  copies j small := by rw [view]; exact files.copies j small

theorem pieces_le (off n : Nat) : (Chunks.chunks 512 off n).length ≤ (off%512+n+511)/512 := by
  induction off,n using Chunks.chunks_induct (B := 512) (by decide) with
  | zero off => simp [Chunks.chunks_zero]
  | step off n m some cut more ih =>
    rw [Chunks.chunks_step (by decide) some,← cut,List.length_cons]
    by_cases last : n-m = 0
    · rw [last,Chunks.chunks_zero,List.length_nil]
      omega
    · omega

-- What a transaction of a write has logged: bitmap blocks, an indirect block, the block of
-- the inode and four data blocks.
structure Logged (L : Layout) (i : Nat) (lh : List Nat) : Prop where
  distinct : lh.Nodup
  among : ∃ (x : Nat) (ys : List Nat), ys.length ≤ 4 ∧
    ∀ z ∈ lh, (∃ b < L.size, z = BBLOCK b L.ninodes) ∨ z = x ∨ z = IBLOCK i ∨ z ∈ ys

theorem Logged.nil (L : Layout) (i : Nat) : Logged L i [] := ⟨List.nodup_nil,0,[],by simp,by simp⟩

theorem Logged.length (logged : Logged L i lh) (small : L.size ≤ 4096) : lh.length ≤ 7 := by
  obtain ⟨x,ys,few,among⟩ := logged.among
  have inside : lh ⊆ (L.ninodes/8+3) :: x :: IBLOCK i :: ys := by
    intro z member
    rcases among z member with ⟨b,low,rfl⟩ | rfl | rfl | data
    · have : BBLOCK b L.ninodes = L.ninodes/8+3 := by unfold BBLOCK; omega
      simp [this]
    · simp
    · simp
    · simp [data]
  have bound := (logged.distinct.subperm inside).length_le
  simp only [List.length_cons] at bound
  omega

theorem Logged.fits {t : State} (logged : Logged L i t.log.lh) (choked : Choked L t.log) (small : L.size ≤ 4096) (ten : L.nlog = 10) : False := by
  have few := logged.length small
  have size : t.log.size = L.nlog := choked.sane.size
  rcases choked.full with full | full
  · unfold LOGSIZE at full
    omega
  · omega

end
end Xv6.Fs.Core
