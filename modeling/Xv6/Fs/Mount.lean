import Xv6.Fs.Inode
import Xv6.Mkfs.Kernel
import Mathlib.Order.Interval.Finset.Nat

namespace Xv6.Fs.Core
open Bytes Exec LogCrash

-- The kernel on an image: initlog, and empty tables.

def mount (L : Layout) (disk : Disk) : State where
  log := Store.initlog L.area.start L.area.size disk
  held := []
  icache _ := ⟨0,0,false,false,.zero⟩
  devsw _ := ⟨none,none⟩
  ftable _ := ⟨.none,0,false,false,0,0⟩
  commits := []

theorem initlog_clean (a : Area) (zero : Store.headWord (disk a.start) = 0) :
    Sane a (Store.initlog a.start a.size disk) ∧ (Store.initlog a.start a.size disk).busy = false ∧
      ∀ x, a.Outside x → (Store.initlog a.start a.size disk).bread x = disk x := by
  rw [initlog_empty a zero]
  refine ⟨⟨rfl,rfl,List.nodup_nil,by simp [Store.writeHead,Store.boot],by simp [Store.writeHead,Store.boot],Nat.zero_le _,a.header,?_,?_,fun _ => rfl⟩,rfl,
    fun x out => ?_⟩
  · intro x dirty
    refine absurd ?_ dirty
    simp [Store.writeHead,Store.bwrite,Store.boot]
  · intro t b at_t
    simp [Store.writeHead,Store.boot] at at_t
  · have away : x ≠ a.start := outside_ne_log out a.header
    simp [Store.bread,Store.writeHead,Store.bwrite,Store.boot,away]

section
variable {L : Layout} {disk next : Disk} {dn : Nat → Dinode}

section
variable (owned : Owned L disk dn) (same : ∀ x < L.size-L.nlog, next x = disk x)
include owned same

theorem Owned.places_low (j : Nat) (t : Slot) :
    addrOf next (dn j) t = addrOf disk (dn j) t :=
  addrOf_congr (fun some => same _ (owned.zone j .ind trivial some).2) t

theorem Owned.agree : Owned L next dn := by
  have order := L.order
  exact owned.carried (same 1 (by omega)) (fun x small => (marked_low (fun y low => same y (lt_data L low)) small).mpr) (owned.places_low same) owned.fits

end

theorem view_mount (zero : Store.headWord (disk L.area.start) = 0) (low : x < L.size-L.nlog) : L.view (mount L disk).log x = disk x := by
  have out := L.outside_low low
  rw [L.view_outside _ out]
  exact (initlog_clean L.area zero).2.2 x out

theorem mount_quiet (zero : Store.headWord (disk L.area.start) = 0) (owned : Owned L disk dn) (backed : ∀ j, Backed disk (dn j))
    (copies : ∀ j < L.ninodes, dinodeAt disk j = dn j) : Quiet L (mount L disk) dn := by
  have same : ∀ x < L.size-L.nlog, L.view (mount L disk).log x = disk x := fun x low => view_mount zero low
  refine ⟨⟨⟨(initlog_clean L.area zero).1,by simp [mount]⟩,owned.agree same,fun j => ?_,fun j small => ?_⟩,(initlog_clean L.area zero).2.1,rfl⟩
  · exact (backed j).congr fun k _ => owned.places_low same j _
  · rw [← copies j small]
    exact dinodeAt_congr (same _ (lt_data L (iblock_lt L small)))

end

def mkfsLayout : Layout := ⟨1024,200,10,nlog_pos,by decide,by decide⟩

section
open Mkfs
variable {files : List HostFile} {mid : Mkfs.State} {dn : Nat → Dinode}

section
variable (built : Built files mid dn)
include built

theorem marked_finished (small : b < 1024) (d : Dinode) :
    Marked mkfsLayout (mid.finished d).img b ↔ b < mid.freeblock := by
  have full := built.image.full
  have here : BBLOCK b mkfsLayout.ninodes = 28 := by
    show b/4096 + 200/8 + 3 = 28
    omega
  unfold Marked
  rw [here,Nat.mod_eq_of_lt (by omega),finished_bitmap,bitSet_bitmap _ (by omega) (by omega)]

theorem super_finished (d : Dinode) : (mid.finished d).img 1 = .ofStore superblock := by
  have early : (mid.finished d).img 1 = putDinode mid.img 1 d 1 := by
    simp only [Mkfs.State.finished]
    rw [Function.update_of_ne (by decide)]
  rw [early,putDinode_other _ _ (show (1 : Nat) ≠ IBLOCK 1 by decide),built.super]

theorem head_finished (room : blocksNeeded files ≤ 985) (d : Dinode) :
    Store.headWord ((mid.finished d).img mkfsLayout.area.start) = 0 := by
  have count := built.count
  have start : mkfsLayout.area.start = 1014 := rfl
  rw [start,finished_data (by decide),built.image.sound.blank 1014 (by omega) (by decide)]
  exact Block.ld32_zero 0

theorem backed_finished (few : files.length ≤ 198) (partway : (files.length+2)%32 ≠ 0) (d : Dinode) (j : Nat) :
    Backed (mid.finished d).img (withRoot dn (rootSize files) j) := by
  have image := built.image
  have places := fun t => image.finished_places (R := rootSize files) d j t
  by_cases root : j = 1
  · subst root
    have size := built.root.2.1
    have was := image.backed 1
    have here : withRoot dn (rootSize files) 1 = (dn 1).sized (rootSize files) := Function.update_self ..
    refine ⟨fun k small => ?_,?_,?_⟩
    · rw [places,was.data k small,here,size]
      show _ ↔ 512*k < rootSize files
      unfold rootSize
      omega
    · rw [here]
      show (dn 1).addrs 12 ≠ 0 ↔ 6144 < rootSize files
      rw [was.ind,size]
      unfold rootSize
      omega
    · rw [here]
      show rootSize files ≤ 71680
      unfold rootSize
      omega
  · have same : withRoot dn (rootSize files) j = dn j := Function.update_of_ne root _ _
    rw [same] at places ⊢
    exact (image.backed j).congr fun k _ => places _

theorem mkfs_quiet (few : files.length ≤ 198) (room : blocksNeeded files ≤ 985)
    (partway : (files.length+2)%32 ≠ 0) :
    Quiet mkfsLayout (mount mkfsLayout (mid.finished ((dn 1).sized (rootSize files))).img) (withRoot dn (rootSize files)) := by
  have image := built.image
  have sound := image.sound
  have count := built.count
  have word := rootSize_lt (show files.length ≤ 214 by omega)
  have places := fun j t => image.finished_places (R := rootSize files) ((dn 1).sized (rootSize files)) j t
  have super := super_finished built ((dn 1).sized (rootSize files))
  refine mount_quiet (head_finished built room _) ⟨⟨?_,?_,fun b low => ?_⟩,?_,fun j t valid => ?_,fun j t valid => ?_,fun j => ?_⟩ (backed_finished built few partway _)
    fun j small => ?_
  · rw [super]
    decide
  · rw [super]
    decide
  · have : mkfsLayout.data = 29 := by decide
    exact (marked_finished built (by omega) _).mpr (by omega)
  · intro j l t u one two
    rw [places,places]
    exact sound.apart j l t u one two
  · rw [places]
    intro some
    have zone := sound.zone j t valid some
    exact ⟨zone.1,show _ < 1014 by omega⟩
  · rw [places]
    intro some
    have zone := sound.zone j t valid some
    exact (marked_finished built (by omega) _).mpr zone.2
  · by_cases root : j = 1
    · subst root
      rw [withRoot,Function.update_self]
      exact { sound.fits 1 with size := word }
    · rw [withRoot,Function.update_of_ne root]
      exact sound.fits j
  · have low : j < 200 := small
    exact image.finished_dinode word (by omega)

theorem mkfs_spare (room : blocksNeeded files ≤ 985) (d : Dinode) :
    (spare mkfsLayout (mkfsLayout.view (mount mkfsLayout (mid.finished d).img).log)).card = 985-blocksNeeded files := by
  have count := built.count
  have bitmap : spare mkfsLayout (mkfsLayout.view (mount mkfsLayout (mid.finished d).img).log) = Finset.Ico mid.freeblock 1014 := by
    rw [spare_congr fun x low => view_mount (head_finished built room d) (lt_data mkfsLayout low)]
    ext b
    rw [mem_spare,Finset.mem_Ico]
    have low : mkfsLayout.size-mkfsLayout.nlog = 1014 := rfl
    rw [low]
    constructor
    · rintro ⟨small,clear⟩
      rw [marked_finished built (by omega)] at clear
      omega
    · rintro ⟨free,small⟩
      refine ⟨small,?_⟩
      rw [marked_finished built (by omega)]
      omega
  rw [bitmap,Nat.card_Ico]
  omega

end

end
def solidLayout (k : Nat) (small : k ≤ 12) : Layout := ⟨15+k,8,10,nlog_pos,by omega,by omega⟩

theorem solid_start (small : k ≤ 12) : (solidLayout k small).data = 5 := by
  have size : (solidLayout k small).size = 15+k := rfl
  have eight : (solidLayout k small).ninodes = 8 := rfl
  rw [Layout.data,size,eight]
  omega

def solidInode (k type : Nat) : Dinode := ⟨type,0,0,1,512*k,fun t => if t < k then 5+t else 0⟩

def solidInodes (k type : Nat) : Nat → Dinode := fun j => if j = 1 then solidInode k type else .zero

def solidDisk (k type : Nat) (data : Nat → Block) : Disk := fun b =>
  if b = 1 then .ofStore (st32 (st32 (st32 (st32 (fun _ => 0) 0 (15+k)) 4 k) 8 8) 12 10)
  else if b = 2 then Dinode.store .zero 64 (solidInode k type)
  else if b = 4 then .ofStore (Mkfs.bitmap (5+k))
  else if 5 ≤ b ∧ b < 5+k then data (b-5)
  else .zero

section
variable (small : k ≤ 12)
include small

theorem solid_ind (disk : Disk) (type j : Nat) : addrOf disk (solidInodes k type j) .ind = 0 := by
  by_cases here : j = 1
  · simp [addrOf,solidInodes,here,solidInode,show ¬ 12 < k by omega]
  · simp [addrOf,solidInodes,here,Dinode.zero]

theorem solid_data (disk : Disk) (type j m : Nat) :
    addrOf disk (solidInodes k type j) (.data m) = if j = 1 ∧ m < k then 5+m else 0 := by
  by_cases here : j = 1
  · by_cases direct : m < 12
    · simp [addrOf,solidInodes,here,solidInode,direct]
    · simp [addrOf,solidInodes,here,solidInode,show ¬ 12 < k by omega,show ¬ m < k by omega]
  · simp [addrOf,solidInodes,here,Dinode.zero]

theorem solid_super : Superblock.load (solidDisk k type data 1) = ⟨15+k,k,8,10⟩ := by
  have each : ∀ k < 13, Superblock.load (.ofStore (st32 (st32 (st32 (st32 (fun _ => 0) 0 (15+k)) 4 k) 8 8) 12 10)) = ⟨15+k,k,8,10⟩ := by decide
  exact each k (by omega)

theorem solid_marked (low : b < 15+k) : Marked (solidLayout k small) (solidDisk k type data) b ↔ b < 5+k := by
  have here : BBLOCK b (solidLayout k small).ninodes = 4 := by
    have eight : (solidLayout k small).ninodes = 8 := rfl
    rw [BBLOCK,eight]
    omega
  unfold Marked
  rw [here,Nat.mod_eq_of_lt (by omega)]
  exact Mkfs.bitSet_bitmap _ (by omega) (by omega)

theorem solid_fits (short : type < 65536) : (solidInode k type).Fits where
  type := short
  major := show 0 < 65536 by decide
  minor := show 0 < 65536 by decide
  nlink := show 1 < 65536 by decide
  size := show 512*k < 4294967296 by omega
  addrs t := by
    show (if t < k then 5+t else 0) < 4294967296
    split <;> omega
  few t high := if_neg (by omega)

theorem solid_copies (short : type < 65536) (low : j < 8) : dinodeAt (solidDisk k type data) j = solidInodes k type j := by
  have block : IBLOCK j = 2 := by unfold IBLOCK; omega
  rw [dinodeAt,block]
  show Dinode.load (Dinode.store .zero 64 (solidInode k type)) (64*(j%8)) = _
  by_cases here : j = 1
  · subst here
    exact Dinode.load_store _ (by decide) (solid_fits small short)
  · rw [Dinode.load_store_other _ _ (by omega) (by omega),Mkfs.load_zero,solidInodes,if_neg here]

theorem solid_quiet (short : type < 65536) (data : Nat → Block) :
    Quiet (solidLayout k small) (mount (solidLayout k small) (solidDisk k type data)) (solidInodes k type) := by
  have head : solidDisk k type data (5+k) = .zero := by
    unfold solidDisk
    rw [if_neg (by omega),if_neg (by omega),if_neg (by omega),if_neg (by omega)]
  have super : Superblock.load (solidDisk k type data 1) = ⟨15+k,k,8,10⟩ := solid_super small
  have places : ∀ j t, addrOf (solidDisk k type data) (solidInodes k type j) t ≠ 0 → ∃ m < k, j = 1 ∧ t = .data m ∧
      addrOf (solidDisk k type data) (solidInodes k type j) t = 5+m := by
    intro j t some
    cases t with
    | ind => exact absurd (solid_ind small _ type j) some
    | data m =>
      rw [solid_data small] at some ⊢
      by_cases both : j = 1 ∧ m < k
      · exact ⟨m,both.2,both.1,rfl,if_pos both⟩
      · exact absurd (if_neg both) some
  refine mount_quiet ?_ ⟨⟨?_,?_,fun b low => ?_⟩,?_,fun j t valid some => ?_,fun j t valid some => ?_,fun j => ?_⟩ (fun j => ?_)
    fun j low => solid_copies small short low
  · show Store.headWord (solidDisk k type data (15+k-10)) = 0
    rw [show 15+k-10 = 5+k by omega,head]
    exact Block.ld32_zero 0
  · rw [super]; rfl
  · rw [super]; rfl
  · rw [solid_start small] at low
    exact (solid_marked small (by omega)).mpr (by omega)
  · intro i j t u _ _ some same
    obtain ⟨m,_,rfl,rfl,one⟩ := places i t some
    obtain ⟨l,_,rfl,rfl,two⟩ := places j u (same ▸ some)
    rw [one,two] at same
    exact ⟨rfl,by congr 1; omega⟩
  · obtain ⟨m,inside,_,_,at_m⟩ := places j t some
    rw [at_m,solid_start small]
    exact ⟨by omega,show 5+m < 15+k-10 by omega⟩
  · obtain ⟨m,inside,_,_,at_m⟩ := places j t some
    rw [at_m]
    exact (solid_marked small (by omega)).mpr (by omega)
  · unfold solidInodes
    split
    · exact solid_fits small short
    · exact Dinode.zero_fits
  · refine ⟨fun m low => ?_,?_,?_⟩
    · rw [solid_data small]
      by_cases here : j = 1
      · simp only [here,solidInodes,solidInode,true_and,if_true]
        split <;> omega
      · simp [here,solidInodes,Dinode.zero]
    · have none : (solidInodes k type j).addrs 12 = 0 := solid_ind small (solidDisk k type data) type j
      rw [none]
      by_cases here : j = 1
      · simp only [here,solidInodes,solidInode,if_true]
        omega
      · simp [here,solidInodes,Dinode.zero]
    · by_cases here : j = 1
      · simp only [here,solidInodes,solidInode,if_true]
        omega
      · simp [here,solidInodes,Dinode.zero]

end

def State.openFile (s : State) (i off : Nat) : State :=
  { s with
    icache := Function.update s.icache 0 ⟨i,1,false,false,.zero⟩
    ftable := Function.update s.ftable 0 ⟨.inode,1,true,true,0,off⟩ }

theorem Quiet.openFile {s : State} (quiet : Quiet L s dn) (i off : Nat) : Quiet L (s.openFile i off) dn :=
  ⟨quiet.files.moved quiet.files.calm.sane quiet.held rfl,quiet.idle,quiet.held⟩

def oneFileOpen : State := (mount mkfsLayout (Mkfs.main [Mkfs.oneFile] Mkfs.start).2.img).openFile 2 0

theorem oneFileOpen_quiet : ∃ dn, Quiet mkfsLayout oneFileOpen dn ∧ (dn 2).type = 2 ∧ (dn 2).size = 1 ∧
    (spare mkfsLayout (mkfsLayout.view oneFileOpen.log)).card = 983 := by
  have built : ∃ mid dn, Mkfs.Built [Mkfs.oneFile] mid dn ∧
      Mkfs.main [Mkfs.oneFile] Mkfs.start = (.ok (),mid.finished ((dn 1).sized (Mkfs.rootSize [Mkfs.oneFile]))) :=
    Mkfs.main_returns (by decide) (by decide) (by decide) (by decide)
  obtain ⟨mid,dn,built,ran⟩ := built
  obtain ⟨kind,data⟩ := built.file 0 Mkfs.oneFile rfl
  have same : Mkfs.withRoot dn (Mkfs.rootSize [Mkfs.oneFile]) 2 = dn 2 := Function.update_of_ne (by decide) _ _
  have spare := mkfs_spare built (by decide) ((dn 1).sized (Mkfs.rootSize [Mkfs.oneFile]))
  have quiet := (mkfs_quiet built (by decide) (by decide) (by decide)).openFile 2 0
  unfold oneFileOpen
  rw [ran]
  refine ⟨_,quiet,by rw [same]; exact kind,?_,spare⟩
  rw [same,← Mkfs.length_contents mid.img,data]
  rfl

end Xv6.Fs.Core
