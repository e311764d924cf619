import Xv6.Mkfs.Image

namespace Xv6.Mkfs
open Bytes Exec Fs

-- Which parts of the image the files get into.

section
variable {α β : Type} {files : List HostFile} {s next : State}

def SameInums (s next : State) : Prop := next.freeinode = s.freeinode ∧ next.inums = s.inums

theorem SameInums.refl (s : State) : SameInums s s := ⟨rfl,rfl⟩

theorem SameInums.trans (one : SameInums s mid) (two : SameInums mid next) : SameInums s next :=
  ⟨two.1.trans one.1,two.2.trans one.2⟩

abbrev Steady (m : M α) : Prop := Keeps SameInums m

theorem steady_pure (a : α) : Steady (pure a : M α) := keeps_pure SameInums.refl a

theorem steady_stop (e : Exit) : Steady (Prog.stop e : M α) := keeps_stop SameInums.refl e

theorem steady_bind {m : M α} {f : α → M β} (first : Steady m) (rest : ∀ a, Steady (f a)) : Steady (m >>= f) :=
  first.bind SameInums.trans rest

theorem wsect_steady (sec : Nat) (buf : Block) : Steady (wsect sec buf) := keeps_modify fun _ => ⟨rfl,rfl⟩

theorem rsect_steady (sec : Nat) : Steady (rsect sec) := keeps_get fun _ => .ite (steady_pure _) (steady_stop _)

theorem winode_steady (inum : Nat) (ip : Dinode) : Steady (winode inum ip) :=
  steady_bind (rsect_steady _) fun _ => steady_bind (keeps_modify fun _ => ⟨rfl,rfl⟩) fun _ => wsect_steady _ _

theorem rinode_steady (inum : Nat) : Steady (rinode inum) := steady_bind (rsect_steady _) fun _ => steady_pure _

theorem takeBlock_steady : Steady takeBlock :=
  keeps_get fun _ => steady_bind (keeps_modify fun _ => ⟨rfl,rfl⟩) fun _ => steady_pure _

theorem withIndirect_steady (din : Dinode) : Steady (withIndirect din) :=
  .ite (steady_bind takeBlock_steady fun _ => steady_pure _) (steady_pure _)

theorem fileBlock_steady (din : Dinode) (fbn : Nat) : Steady (fileBlock din fbn) := by
  refine .ite (.ite (steady_bind takeBlock_steady fun _ => steady_pure _) (steady_pure _)) ?_
  refine steady_bind (withIndirect_steady _) fun din => steady_bind (rsect_steady _) fun indirect => .ite ?_ (steady_pure _)
  exact steady_bind takeBlock_steady fun _ => steady_bind (wsect_steady _ _) fun _ => steady_pure _

theorem appendLoop_steady (xp : Bytes.Store) (pieces : List (Nat × Nat)) : ∀ done din, Steady (appendLoop xp pieces done din) := by
  induction pieces with
  | nil => exact fun _ _ => steady_pure _
  | cons piece rest ih =>
    intro done din
    refine .ite (steady_stop _) (steady_bind (fileBlock_steady _ _) fun r => ?_)
    exact steady_bind (rsect_steady _) fun _ => steady_bind (wsect_steady _ _) fun _ => ih _ _

theorem iappend_steady (inum : Nat) (xp : Bytes.Store) (n : Nat) : Steady (iappend inum xp n) :=
  steady_bind (rinode_steady _) fun _ => steady_bind (appendLoop_steady _ _ _ _) fun _ => winode_steady _ _

theorem copyData_steady (inum : Nat) (data : List UInt8) (pieces : List (Nat × Nat)) : Steady (copyData inum data pieces) := by
  induction pieces with
  | nil => exact steady_pure _
  | cons piece rest ih => exact steady_bind (iappend_steady _ _ _) fun _ => ih

theorem zeroSectors_steady (sectors : List Nat) : Steady (zeroSectors sectors) := by
  induction sectors with
  | nil => exact steady_pure _
  | cons i rest ih => exact steady_bind (wsect_steady _ _) fun _ => ih

theorem balloc_steady (used : Nat) : Steady (balloc used) := .ite (steady_stop _) (wsect_steady _ _)

structure Numbered (s : State) (n : Nat) (next : State) : Prop where
  freeinode : next.freeinode = s.freeinode+n
  inums : ∀ i, i ∈ next.inums ↔ i ∈ s.inums ∨ s.freeinode ≤ i ∧ i < s.freeinode+n

theorem Numbered.steady (one : Numbered s n mid) (two : SameInums mid next) : Numbered s n next :=
  ⟨two.1.trans one.freeinode,fun i => by rw [two.2]; exact one.inums i⟩

theorem SameInums.numbered (one : SameInums s mid) (two : Numbered mid n next) : Numbered s n next :=
  ⟨by rw [two.freeinode,one.1],fun i => by rw [two.inums,one.1,one.2]⟩

theorem Numbered.trans (one : Numbered s m mid) (two : Numbered mid n next) : Numbered s (m+n) next where
  freeinode := by rw [two.freeinode,one.freeinode]; omega
  inums i := by
    rw [two.inums,one.inums,one.freeinode,or_assoc]
    refine or_congr_right ?_
    omega

theorem ialloc_numbered (type : Nat) (s : State) : Sat (ialloc type) s (fun _ _ => True) fun _ next => Numbered s 1 next := by
  rw [ialloc,sat_get_bind,sat_modify_bind]
  refine ((winode_steady _ _ _).mono (fun _ _ _ => trivial) fun _ _ same => same).bind fun _ next same => ?_
  apply Sat.done
  refine ⟨same.1,fun i => ?_⟩
  rw [same.2]
  rw [List.mem_cons,or_comm]
  refine or_congr_right ?_
  omega

theorem numbered_before {m : M α} {f : α → M β} (first : Steady m)
    (rest : ∀ a s, Sat (f a) s (fun _ _ => True) fun _ next => Numbered s n next) (s : State) :
    Sat (m >>= f) s (fun _ _ => True) fun _ next => Numbered s n next :=
  ((first s).mono (fun _ _ _ => trivial) fun _ _ same => same).bind fun a mid same => (rest a mid).post fun _ _ more => same.numbered more

theorem numbered_after {m : M α} {f : α → M β} {s : State} (first : Sat m s (fun _ _ => True) fun _ next => Numbered s n next)
    (rest : ∀ a, Steady (f a)) : Sat (m >>= f) s (fun _ _ => True) fun _ next => Numbered s n next :=
  first.bind fun a mid some => (rest a mid).mono (fun _ _ _ => trivial) fun _ _ same => some.steady same

theorem addFiles_numbered (rootino : Nat) (files : List HostFile) : ∀ s, Sat (addFiles rootino files) s (fun _ _ => True) fun _ next =>
    Numbered s files.length next := by
  induction files with
  | nil => exact fun s => .done ⟨rfl,fun i => (or_iff_left fun never => by simp only [List.length_nil] at never; omega).symm⟩
  | cons f rest ih =>
    intro s
    rw [addFiles]
    split
    · exact (sat_stop ..).mpr trivial
    refine (ialloc_numbered 2 s).bind fun inum mid one => ?_
    have later := numbered_before (iappend_steady rootino (entryBytes inum (f.shown.take 14)) 16) (fun _ =>
      numbered_before (copyData_steady inum f.data (Chunks.chunks 512 0 f.data.length)) fun _ => ih) mid
    refine later.post fun _ last more => ?_
    rw [List.length_cons,Nat.add_comm]
    exact one.trans more

theorem main_numbered (files : List HostFile) :
    Sat (main files) start (fun _ _ => True) fun _ next => Numbered start (1+files.length) next := by
  refine numbered_before (zeroSectors_steady _) (fun _ => numbered_before (wsect_steady _ _) fun _ s => ?_) start
  refine (ialloc_numbered 1 s).bind fun rootino mid one => ?_
  split
  · exact (sat_stop ..).mpr trivial
  have later := numbered_before (iappend_steady rootino (entryBytes rootino [46]) 16) (fun _ =>
    numbered_before (iappend_steady rootino (entryBytes rootino [46,46]) 16) fun _ s => numbered_after (addFiles_numbered rootino files s)
      fun _ => steady_bind (rinode_steady rootino) fun din => steady_bind (winode_steady rootino (din.sized ((din.size/512+1)*512)))
        fun _ => keeps_get fun s => balloc_steady s.usedblocks) mid
  exact later.post fun _ last more => one.trans more

structure Within (s : State) : Prop where
  blocks : ∀ b ∈ s.blocks, b < 1024-10
  inums : ∀ i ∈ s.inums, i < 200
  inodeWrites : ∀ x ∈ s.inodeWrites, 2 ≤ x ∧ x < 28

theorem Built.within_iff (built : Built files mid dn) (few : files.length ≤ 198) (d : Dinode) :
    Within (mid.finished d) ↔ blocksNeeded files ≤ 985 := by
  have sound := built.image.sound
  have count := built.count
  constructor
  · intro within
    by_contra beyond
    have := within.blocks 1014 ((sound.blocks 1014).mpr (by omega))
    omega
  · intro room
    refine ⟨fun b member => ?_,fun i member => ?_,fun x member => ?_⟩
    · have := (sound.blocks b).mp member
      omega
    · have := (built.inums i).mp member
      omega
    · rcases List.mem_cons.mp member with rfl | member
      · decide
      · obtain ⟨i,low,high,rfl⟩ := built.writes x member
        simp only [i2b]
        omega

theorem within_regions_iff (ran : main files start = (.ok (),s)) :
    Within s ↔ files.length ≤ 198 ∧ blocksNeeded files ≤ 985 := by
  by_cases few : files.length ≤ 198
  · obtain ⟨mid,dn,built,rfl⟩ := (main_spec files (by omega)).returned ran
    rw [built.within_iff few]
    exact (and_iff_right few).symm
  · refine iff_of_false (fun within => ?_) fun both => few both.1
    have numbered := (main_numbered files).returned ran
    have := within.inums 200 ((numbered.inums 200).mpr (.inr ⟨by decide,by simp only [start]; omega⟩))
    omega

theorem within_regions_empty : ∃ s, main [] start = (.ok (),s) ∧ Within s := by
  have returned : ∃ mid dn, Built [] mid dn ∧ main [] start = (.ok (),mid.finished ((dn 1).sized (rootSize []))) :=
    main_returns (by decide) (by simp) (by simp) (by decide)
  obtain ⟨mid,dn,_,ran⟩ := returned
  exact ⟨_,ran,(within_regions_iff ran).mpr (by decide)⟩

theorem letter_text : (0 : UInt8) ∉ [(97 : UInt8)] := by decide

def zeroFile (n : Nat) : HostFile := ⟨[97],List.replicate n 0,letter_text⟩

theorem blocksNeeded_replicate (k n : Nat) :
    blocksNeeded (List.replicate k (zeroFile n)) = k * need n + need (16*(k+2)) := by
  simp [blocksNeeded,zeroFile]

theorem main_replicate (few : k ≤ 214) (short : n ≤ 71680) (room : k * need n + need (16*(k+2)) ≤ 995) :
    ∃ mid dn, Built (List.replicate k (zeroFile n)) mid dn ∧ main (List.replicate k (zeroFile n)) start =
      (.ok (),mid.finished ((dn 1).sized (rootSize (List.replicate k (zeroFile n))))) := by
  refine main_returns (by simpa using few) (fun f member => ?_) (fun f member => ?_) (by rw [blocksNeeded_replicate]; exact room)
  · rw [List.eq_of_mem_replicate member]
    simp [zeroFile]
  · rw [List.eq_of_mem_replicate member]
    simpa [zeroFile] using short

-- Inode 200 for many files, and a block of the log for seven large ones.
theorem regions_overrun :
    (∃ s, main (List.replicate 199 (zeroFile 0)) start = (.ok (),s) ∧ 200 ∈ s.inums) ∧
    ∃ s, main (List.replicate 7 (zeroFile 71680)) start = (.ok (),s) ∧ 1014 ∈ s.blocks := by
  constructor
  · obtain ⟨mid,dn,built,ran⟩ := main_replicate (k := 199) (n := 0) (by decide) (by decide) (by decide)
    exact ⟨_,ran,(built.inums 200).mpr (by rw [List.length_replicate]; decide)⟩
  · obtain ⟨mid,dn,built,ran⟩ := main_replicate (k := 7) (n := 71680) (by decide) (by decide) (by decide)
    have count := built.count
    rw [blocksNeeded_replicate] at count
    have total : 7 * need 71680 + need (16*(7+2)) = 988 := by decide
    exact ⟨_,ran,(built.image.sound.blocks 1014).mpr (by omega)⟩

end
end Xv6.Mkfs
