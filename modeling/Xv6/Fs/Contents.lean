import Xv6.Fs.Mount

namespace Xv6.Fs.Core
open Bytes Exec LogCrash

-- Files are sequences of bytes, as long as a write fits into the log.

section
variable {L : Layout} {s next : State} {dn after : Nat → Dinode}

-- The files are in order, and the inodes in the cache are those of the disk, each in one slot.
structure Consistent (L : Layout) (s : State) (dn : Nat → Dinode) : Prop where
  files : Files L s dn
  cached : ∀ x, 0 < (s.icache x).ref → (s.icache x).valid = true → (s.icache x).inum < L.ninodes ∧ dn (s.icache x).inum = (s.icache x).din
  single : ∀ x y, 0 < (s.icache x).ref → 0 < (s.icache y).ref → (s.icache x).inum = (s.icache y).inum → x = y

-- The log has room for a write of n bytes at off: for the bitmap, the inode, the indirect block and
-- the blocks of the file.
def LogRoom (L : Layout) (log : Xv6.Store) (off n : Nat) : Prop :=
  log.lh.length + (L.size+4095)/4096 + 2 + (Chunks.chunks 512 off n).length < min LOGSIZE (L.nlog-1)

theorem LogRoom.jammed (room : LogRoom L s.log off n) : Jammed L s i (Chunks.chunks 512 off n).length fun _ _ => False := by
  intro log held icache x ys few among cap
  have inside : log.lh ⊆ s.log.lh ++ (List.range ((L.size+4095)/4096)).map (fun k => k + L.ninodes/8+3) ++ x :: IBLOCK i :: ys := by
    intro z member
    simp only [List.mem_append,List.mem_map,List.mem_range,List.mem_cons]
    rcases among z member with old | ⟨b,small,rfl⟩ | eq | eq | data
    · exact .inl (.inl old)
    · exact .inl (.inr ⟨b/4096,by omega,rfl⟩)
    · exact .inr (.inl eq)
    · exact .inr (.inr (.inl eq))
    · exact .inr (.inr (.inr data))
  have bound := (cap.sane.distinct.subperm inside).length_le
  simp only [List.length_append,List.length_map,List.length_range,List.length_cons] at bound
  have size : log.size = L.nlog := cap.sane.size
  unfold LogRoom at room
  rcases cap.full with full | full <;> omega

theorem Consistent.written (kept : Consistent L s dn) (live : 0 < (s.icache ip).ref) (valid : (s.icache ip).valid = true)
    (written : Written L s next dn after ip (s.icache ip).inum src off n) : Consistent L next after := by
  obtain ⟨small,same⟩ := kept.cached ip live valid
  obtain ⟨log,addrs,state⟩ := written.state
  have slots : ∀ x, (next.icache x).ref = (s.icache x).ref ∧ (next.icache x).valid = (s.icache x).valid ∧
      (next.icache x).inum = (s.icache x).inum ∧ (x ≠ ip → next.icache x = s.icache x) := by
    intro x
    rw [state]
    by_cases here : x = ip
    · subst here
      simp
    · simp [here]
  refine ⟨written.files,fun x used copied => ?_,fun x y one two => ?_⟩
  · obtain ⟨ref,flag,inum,other⟩ := slots x
    rw [ref] at used
    rw [flag] at copied
    by_cases here : x = ip
    · subst here
      rw [inum]
      exact ⟨small,written.at⟩
    · obtain ⟨low,copy⟩ := kept.cached x used copied
      have apart : (s.icache x).inum ≠ (s.icache ip).inum := fun eq => here (kept.single x ip used live eq)
      rw [other here,written.mine,Function.update_of_ne apart]
      exact ⟨low,copy⟩
  · rw [(slots x).1] at one
    rw [(slots y).1] at two
    rw [(slots x).2.2.1,(slots y).2.2.1]
    exact kept.single x y one two

-- What writei and readi do to a file of bytes, its offsets and lengths being 32 bits wide.
structure Refines (L : Layout) (s : State) (dn : Nat → Dinode) (ip : Nat) (src : Bytes.Store) (off n : Nat) : Prop where
  refuses : (s.icache ip).din.size < off ∨ 4294967296 ≤ off+n ∨ 71680 < off+n → writei ip src off n s = (.ok none,s)
  writes : off ≤ (s.icache ip).din.size → off+n ≤ 71680 → ∃ next after, writei ip src off n s = (.ok (some n),next) ∧ Consistent L next after ∧
    (after (s.icache ip).inum).size = max (s.icache ip).din.size (off+n) ∧
    contents (L.view next.log) (after (s.icache ip).inum) =
      (contents (L.view s.log) (s.icache ip).din).take off ++ (List.range n).map src ++ (contents (L.view s.log) (s.icache ip).din).drop (off+n) ∧
    ∀ j, j ≠ (s.icache ip).inum → contents (L.view next.log) (after j) = contents (L.view s.log) (dn j)
  reads : readi ip off n s = (.ok (if (s.icache ip).din.size < off ∨ 4294967296 ≤ off+n then none
    else some (((contents (L.view s.log) (s.icache ip).din).drop off).take n)),s)

theorem contents_slice (disk : Disk) (d : Dinode) (off n : Nat) :
    ((contents disk d).drop off).take n = (List.range (min n (d.size-off))).map fun t => byteAt disk d (off+t) := by
  refine List.ext_getElem (by simp [contents]) fun x one two => ?_
  simp [contents]

end

-- A disk with one empty file and 25 free blocks; the log is the one of mkfs.
def wideLayout : Layout := ⟨40,8,10,nlog_pos,by decide,by decide⟩

def wideInode : Dinode := ⟨2,0,0,1,0,fun _ => 0⟩

def wideInodes : Nat → Dinode := fun j => if j = 1 then wideInode else .zero

def wideDisk : Disk := fun b =>
  if b = 1 then .ofStore (st32 (st32 (st32 (st32 (fun _ => 0) 0 40) 4 25) 8 8) 12 10)
  else if b = 2 then Dinode.store .zero 64 wideInode
  else if b = 4 then .ofStore (Mkfs.bitmap 5)
  else .zero

def wideOpen : State :=
  { mount wideLayout wideDisk with
    log := { (mount wideLayout wideDisk).log with busy := true }
    icache := Function.update (mount wideLayout wideDisk).icache 0 ⟨1,1,true,true,wideInode⟩ }

theorem wide_quiet : Quiet wideLayout (mount wideLayout wideDisk) wideInodes := by
  have none : ∀ disk j t, addrOf disk (wideInodes j) t = 0 := by
    intro disk j t
    have addrs : ∀ k, (wideInodes j).addrs k = 0 := by
      intro k
      unfold wideInodes
      split <;> rfl
    cases t with
    | ind => exact addrs 12
    | data k => simp [addrOf,addrs]
  have fits : wideInode.Fits := ⟨by decide,by decide,by decide,by decide,by decide,fun _ => Nat.zero_lt_succ _,fun _ _ => rfl⟩
  refine mount_quiet (by decide +kernel) ⟨⟨by decide +kernel,by decide +kernel,?_⟩,?_,?_,?_,fun j => ?_⟩ (fun j => ?_) fun j small => ?_
  · have each : ∀ b < 5, Marked wideLayout wideDisk b := by decide +kernel
    exact fun b low => each b low
  · intro i j t u _ _ some
    exact absurd (none _ i t) some
  · intro i t _ some
    exact absurd (none _ i t) some
  · intro i t _ some
    exact absurd (none _ i t) some
  · unfold wideInodes
    split
    · exact fits
    · exact Dinode.zero_fits
  · refine Backed.empty _ ?_ ?_
    · unfold wideInodes
      split <;> rfl
    · intro k
      unfold wideInodes
      split <;> rfl
  · have few : j < 8 := small
    have block : IBLOCK j = 2 := by unfold IBLOCK; omega
    rw [dinodeAt,block]
    show Dinode.load (Dinode.store .zero 64 wideInode) (64*(j%8)) = _
    by_cases here : j = 1
    · subst here
      exact Dinode.load_store _ (by decide) fits
    · rw [Dinode.load_store_other _ _ (by omega) (by omega),Mkfs.load_zero,wideInodes,if_neg here]

theorem wideOpen_consistent : Consistent wideLayout wideOpen wideInodes := by
  have quiet := wide_quiet
  have only : ∀ x, 0 < (wideOpen.icache x).ref → x = 0 := by
    intro x used
    by_contra other
    have free : wideOpen.icache x = ⟨0,0,false,false,.zero⟩ := Function.update_of_ne other _ _
    rw [free] at used
    exact Nat.lt_irrefl _ used
  refine ⟨quiet.files.moved quiet.files.calm.sane.begin quiet.held rfl,fun x used _ => ?_,fun x y one two _ => (only x one).trans (only y two).symm⟩
  rw [only x used]
  exact ⟨by decide,rfl⟩

theorem wide_spare : need 4608 ≤ (spare wideLayout (wideLayout.view wideOpen.log)).card + need 0 := by decide +kernel

end Xv6.Fs.Core
