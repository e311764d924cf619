import Xv6.Mkfs.Image
import Xv6.Fs.Read

namespace Xv6.Mkfs
open Function (update_of_ne update_self)
open Bytes Exec Fs

-- The finished image in the kernel's reading.

theorem bitSet_bitmap (used : Nat) (most : used ≤ 4096) (small : b < 4096) : bitSet (.ofStore (bitmap used)) b = true ↔ b < used := by
  induction used with
  | zero =>
    simp only [bitSet,Block.byte_ofStore _ (show b/8 < 512 by omega),bitmap,List.range_zero,List.foldl_nil,UInt8.zero_and]
    simp
  | succ n ih =>
    have unfolded : bitmap (n+1) = setBit (bitmap n) n := by simp [bitmap,List.range_succ]
    rw [unfolded,setBit,bitSet_set _ _ small,ih (by omega)]
    omega

section
variable {files : List HostFile} {mid : State} {dn : Nat → Dinode} {R : Nat}

def withRoot (dn : Nat → Dinode) (R : Nat) : Nat → Dinode := Function.update dn 1 ((dn 1).sized R)

theorem finished_data (high : 29 ≤ b) (d : Dinode) : (mid.finished d).img b = mid.img b := by
  rw [State.finished]
  exact (update_of_ne (by omega) _ _).trans (putDinode_other _ _ (by simp only [IBLOCK]; omega))

theorem Image.finished_places (image : Image mid dn) (d : Dinode) (j : Nat) (t : Slot) :
    addrOf (mid.finished d).img (withRoot dn R j) t = addrOf mid.img (dn j) t := by
  have same : addrOf (mid.finished d).img (dn j) t = addrOf mid.img (dn j) t :=
    addrOf_congr (fun some => finished_data (image.sound.zone j .ind trivial some).1 d) t
  by_cases root : j = 1
  · subst root
    rw [withRoot,update_self,addrOf_size,same]
  · rw [withRoot,update_of_ne root,same]

theorem Image.finished_bytes (image : Image mid dn) (d : Dinode) (inside : o < (dn j).size) :
    byteAt (mid.finished d).img (withRoot dn R j) o = byteAt mid.img (dn j) o := by
  have slot : o/512 < 140 := by have := (image.backed j).size; omega
  have used := ((image.backed j).data (o/512) slot).mpr (by omega)
  exact byteAt_congr (image.finished_places d j _) (finished_data (image.sound.zone j (.data (o/512)) slot used).1 d)

theorem Image.finished_dinode (image : Image mid dn) (word : R < 4294967296) (low : j < 208) :
    dinodeAt (mid.finished ((dn 1).sized R)).img j = withRoot dn R j := by
  have block : dinodeAt (mid.finished ((dn 1).sized R)).img j = dinodeAt (putDinode mid.img 1 ((dn 1).sized R)) j :=
    dinodeAt_congr (update_of_ne (by simp only [IBLOCK]; omega) _ _)
  rw [block]
  by_cases root : j = 1
  · subst root
    rw [withRoot,update_self]
    exact dinodeAt_putDinode _ _ { image.sound.fits 1 with size := word }
  · rw [withRoot,update_of_ne root,dinodeAt_putDinode_other _ _ root]
    exact image.stored j (by omega)

theorem rootSize_lt (few : files.length ≤ 214) : rootSize files < 4294967296 := by
  unfold rootSize
  omega

-- Every offset below the recorded size of the root directory has its block, so that bmap
-- does not allocate.
def RootBacked (disk : Disk) : Prop := ∀ o < (dinodeAt disk 1).size, (bmap disk (dinodeAt disk 1) (o/512)).isSome

theorem bmap_isSome (disk : Disk) (d : Dinode) (bn : Nat) : (bmap disk d bn).isSome ↔ bn < 140 ∧ addrOf disk d (.data bn) ≠ 0 := by
  constructor
  · intro found
    by_cases direct : bn < 12
    · refine ⟨by omega,fun none => ?_⟩
      simp only [addrOf,direct,if_true] at none
      simp [bmap,direct,none] at found
    by_cases small : bn-12 < 128
    · refine ⟨by omega,fun none => ?_⟩
      simp only [addrOf,direct,if_false] at none
      by_cases ind : d.addrs 12 = 0
      · simp [bmap,direct,small,ind] at found
      · rw [if_neg ind] at none
        simp [bmap,direct,small,ind,none] at found
    · simp [bmap,direct,small] at found
  · rintro ⟨small,used⟩
    rw [bmap_eq small used]
    rfl

-- The size is rounded up to the next block even when the entries fill their last one.
theorem Built.rootBacked_iff (built : Built files mid dn) (few : files.length ≤ 214) :
    RootBacked (mid.finished ((dn 1).sized (rootSize files))).img ↔ (files.length+2)%32 ≠ 0 := by
  have image := built.image
  have root := image.finished_dinode (rootSize_lt few) (show 1 < 208 by decide)
  have size : (withRoot dn (rootSize files) 1).size = rootSize files := by rw [withRoot,update_self]; rfl
  have places : ∀ k < 140, addrOf (mid.finished ((dn 1).sized (rootSize files))).img (withRoot dn (rootSize files) 1) (.data k) ≠ 0 ↔
      512*k < 16*(files.length+2) := fun k small => by
    rw [image.finished_places,(image.backed 1).data k small,built.root.2.1]
  rw [RootBacked,root,size]
  unfold rootSize
  constructor
  · intro backed full
    have last := (bmap_isSome ..).mp (backed (16*(files.length+2)/512*512) (by omega))
    have := (places _ last.1).mp last.2
    omega
  · intro partway o below
    have small : o/512 < 140 := by omega
    exact (bmap_isSome ..).mpr ⟨small,(places _ small).mpr (by omega)⟩

def thirtyFiles : List HostFile := (List.finRange 30).map fun k : Fin 30 => ⟨[97+UInt8.ofNat k.val],[],by revert k; decide⟩

theorem thirty_files_built : ∃ mid dn, Built thirtyFiles mid dn ∧
    main thirtyFiles start = (.ok (),mid.finished ((dn 1).sized (rootSize thirtyFiles))) := by
  refine main_returns (by decide) (fun f member => ?_) (fun f member => ?_) (by decide)
  · obtain ⟨k,_,rfl⟩ := List.mem_map.mp member
    have letters : ∀ k : Fin 30, (47 : UInt8) ∉ [97+UInt8.ofNat k.val] := by decide
    exact letters k
  · obtain ⟨k,_,rfl⟩ := List.mem_map.mp member
    exact Nat.zero_le _

def rootEntries (files : List HostFile) : List (Nat × List UInt8) :=
  (1,[46]) :: (1,[46,46]) :: files.zipIdx.map fun (f,k) => (k+2,f.shown.take 14)

theorem rootBytes_eq (files : List HostFile) : rootBytes files = (rootEntries files).flatMap fun e => entry e.1 e.2 := by
  simp [rootBytes,rootEntries,HostFile.entry,List.flatMap_map]

theorem drop_entries (entries : List (Nat × List UInt8)) : ∀ {k : Nat} {e}, entries[k]? = some e →
    ((entries.flatMap fun e => entry e.1 e.2).drop (16*k)).take 16 = entry e.1 e.2 := by
  induction entries with
  | nil => intro k e found; simp at found
  | cons head rest ih =>
    intro k e found
    rw [List.flatMap_cons]
    have length := length_entry head.1 head.2
    cases k with
    | zero =>
      obtain rfl : head = e := by simpa using found
      rw [Nat.mul_zero,List.drop_zero,List.take_append_of_le_length (by omega),List.take_of_length_le (by omega)]
    | succ k =>
      have later : rest[k]? = some e := by simpa using found
      rw [List.drop_append,List.drop_eq_nil_of_le (by omega),List.nil_append,length,show 16*(k+1)-16 = 16*k by omega]
      exact ih later

theorem ld16_entry (name : List UInt8) (short : inum < 65536) : ld16 (cstring (entry inum name)) 0 = inum := by
  rw [ld16_bytes fun t two => ?_]
  · exact Nat.mod_eq_of_lt short
  · have inside : t < 16 := by omega
    simp [cstring,entry,entryBytes,inside,two]

theorem name_entry (inum : Nat) (small : name.length ≤ 14) : (fun t => cstring (entry inum name) (2+t)) = cstring name := by
  funext t
  by_cases inside : 2+t < 16
  · simp [cstring,entry,entryBytes,inside,show ¬ 2+t < 2 by omega]
  · simp [cstring,entry,inside,List.getElem?_eq_none (show name.length ≤ t by omega)]

theorem dirlookupFrom_eq {disk : Disk} {dp : Dinode} {name : List UInt8} (text : 0 ∉ name) (entries : List (Nat × List UInt8)) :
    ∀ {a N : Nat}, (∀ k e, entries[k]? = some e → readi disk dp (16*(a+k)) 16 = some (entry e.1 e.2)) →
      (∀ e ∈ entries, (0 < e.1 ∧ e.1 < 65536) ∧ e.2.length ≤ 14 ∧ 0 ∉ e.2) → entries.length ≤ N →
      entries.find? (fun e => name.take 14 = e.2) = some found →
      dirlookupFrom disk dp name ((List.range' a N).map fun k => 16*k) = some (some found.1) := by
  induction entries with
  | nil => intro a N _ _ _ hit; simp at hit
  | cons e rest ih =>
    intro a N there good room hit
    obtain ⟨⟨some,short⟩,small,plain⟩ := good e (by simp)
    cases N with
    | zero => simp at room
    | succ N =>
      have read := there 0 e rfl
      rw [Nat.add_zero] at read
      have same : namecmp (cstring name) (fun t => cstring (entry e.1 e.2) (2+t)) = true ↔ name.take 14 = e.2 := by
        rw [name_entry e.1 small,namecmp,strncmp_eq 14 text plain,List.take_of_length_le small]
      rw [List.range'_succ,List.map_cons,dirlookupFrom,read]
      simp only [length_entry,ld16_entry e.2 short]
      rw [if_neg (by simp),if_neg (by omega)]
      by_cases here : name.take 14 = e.2
      · rw [List.find?_cons_of_pos (by simpa using here)] at hit
        cases hit
        rw [if_pos (same.mpr here)]
      rw [List.find?_cons_of_neg (by simpa using here)] at hit
      rw [if_neg (mt same.mp here)]
      refine ih (fun k e found => ?_) (fun e member => good e (by simp [member])) (by simpa using room) hit
      have := there (k+1) e (by simpa using found)
      rwa [show a+(k+1) = a+1+k by omega] at this

theorem find_rootEntries (distinct : (files.map fun f => f.shown.take 14).Nodup)
    (proper : ∀ f ∈ files, f.shown.take 14 ≠ [46] ∧ f.shown.take 14 ≠ [46,46]) (found : files[k]? = some f) :
    (rootEntries files).find? (fun e => f.shown.take 14 = e.2) = some (k+2,f.shown.take 14) := by
  have member : f ∈ files := List.mem_of_getElem? found
  rw [rootEntries,List.find?_cons_of_neg (by simpa using (proper f member).1),List.find?_cons_of_neg (by simpa using (proper f member).2)]
  rw [List.find?_eq_some_iff_getElem]
  have inside := (List.getElem?_eq_some_iff.mp found).1
  have value := (List.getElem?_eq_some_iff.mp found).2
  refine ⟨by simp,k,by simpa using inside,by simp [value],fun j below => ?_⟩
  have other := List.pairwise_iff_getElem.mp distinct j k (by simp; omega) (by simpa using inside) below
  simp only [List.getElem_map,value] at other
  simpa using fun eq => other eq.symm

theorem finished_bitmap (d : Dinode) : (mid.finished d).img 28 = .ofStore (bitmap mid.freeblock) := by
  rw [State.finished]
  simp only [update_self]

theorem contents_slice (disk : Disk) (d : Dinode) (inside : off+m ≤ d.size) :
    (List.range m).map (fun t => byteAt disk d (off+t)) = ((contents disk d).drop off).take m := by
  have length := length_contents disk d
  apply List.ext_getElem
  · simp [length]
    omega
  · intro t one two
    simp [contents]

theorem Image.finished_readi (image : Image mid dn) (plain : (dn j).type ≠ 3) (larger : (dn j).size ≤ (withRoot dn R j).size)
    (top : (withRoot dn R j).size ≤ 71680) (word : off+n < 4294967296) (d : Dinode)
    (inside : off + min n ((withRoot dn R j).size-off) ≤ (dn j).size) :
    readi (mid.finished d).img (withRoot dn R j) off n =
      some (((contents mid.img (dn j)).drop off).take (min n ((withRoot dn R j).size-off))) := by
  have kind : (withRoot dn R j).type = (dn j).type := by
    by_cases root : j = 1
    · subst root
      rw [withRoot,update_self]
      rfl
    · rw [withRoot,update_of_ne root]
  rw [readi_eq (kind ▸ plain) (by omega) word top fun o low high => ?_,← contents_slice mid.img (dn j) inside]
  · congr 1
    refine List.map_congr_left fun t member => ?_
    have := List.mem_range.mp member
    exact image.finished_bytes d (by omega)
  · rw [image.finished_places]
    exact ((image.backed j).data (o/512) (by omega)).mpr (by omega)

theorem HostFile.shown_text (f : HostFile) : 0 ∉ f.shown := by
  unfold HostFile.shown
  split
  · exact fun member => f.text (List.mem_of_mem_tail member)
  · exact f.text

theorem rootEntries_good (few : files.length ≤ 214) :
    ∀ e ∈ rootEntries files, (0 < e.1 ∧ e.1 < 65536) ∧ e.2.length ≤ 14 ∧ 0 ∉ e.2 := by
  intro e member
  simp only [rootEntries,List.mem_cons,List.mem_map] at member
  rcases member with rfl | rfl | ⟨⟨f,k⟩,entered,rfl⟩
  · simp
  · simp
  · have inside := (List.mem_zipIdx entered).2.1
    exact ⟨⟨by omega,by simp only; omega⟩,List.length_take_le ..,fun zero => f.shown_text (List.mem_of_mem_take zero)⟩

structure Faithful (files : List HostFile) (disk : Disk) : Prop where
  once : ∀ i < 208, ∀ j < 208, ∀ s t : Slot, s.Valid → t.Valid → addrOf disk (dinodeAt disk i) s ≠ 0 →
    addrOf disk (dinodeAt disk i) s = addrOf disk (dinodeAt disk j) t → i = j ∧ s = t
  area : ∀ i < 208, ∀ t : Slot, t.Valid → addrOf disk (dinodeAt disk i) t ≠ 0 →
    29 ≤ addrOf disk (dinodeAt disk i) t ∧ addrOf disk (dinodeAt disk i) t < 1014
  bitmap : ∀ b < 1024, bitSet (disk (BBLOCK b 200)) b = true ↔
    b < 29 ∨ ∃ i < 208, ∃ t : Slot, t.Valid ∧ addrOf disk (dinodeAt disk i) t = b
  reads : ∀ f ∈ files, ∀ name, 0 ∉ name → name.take 14 = f.shown.take 14 →
    ∃ inum, dirlookup disk (dinodeAt disk 1) name = some (some inum) ∧
      ∀ n, f.data.length ≤ n → n < 4294967296 → readi disk (dinodeAt disk inum) 0 n = some f.data

section
variable (built : Built files mid dn) (few : files.length ≤ 206)
include built few

theorem Built.dirlookup_root (text : 0 ∉ name)
    (hit : (rootEntries files).find? (fun e => name.take 14 = e.2) = some found) :
    dirlookup (mid.finished ((dn 1).sized (rootSize files))).img
      (dinodeAt (mid.finished ((dn 1).sized (rootSize files))).img 1) name = some (some found.1) := by
  have size : (withRoot dn (rootSize files) 1).size = rootSize files := by rw [withRoot,update_self]; rfl
  have kind : (withRoot dn (rootSize files) 1).type = 1 := by rw [withRoot,update_self]; exact built.root.1
  have count : (rootEntries files).length = files.length+2 := by simp [rootEntries]
  have rounded : 16*(files.length+2) ≤ rootSize files := by unfold rootSize; omega
  have limit : rootSize files ≤ 71680 := by unfold rootSize; omega
  rw [dirlookup,built.image.finished_dinode (rootSize_lt (by omega)) (by decide),if_neg (not_not.mpr kind),size,List.range_eq_range']
  refine dirlookupFrom_eq text _ (fun k e entered => ?_) (rootEntries_good (by omega)) (by omega) hit
  have within : k < (rootEntries files).length := (List.getElem?_eq_some_iff.mp entered).1
  have whole := built.root.2.1
  have read := built.image.finished_readi (R := rootSize files) (by rw [built.root.1]; decide) (by omega) (by omega)
    (show 16*k+16 < 4294967296 by omega) ((dn 1).sized (rootSize files)) (by omega)
  rw [Nat.zero_add,read,built.root.2.2,rootBytes_eq,show min 16 ((withRoot dn (rootSize files) 1).size-16*k) = 16 by omega,
    drop_entries _ entered]

theorem Built.readi_file (found : files[k]? = some f) (whole : f.data.length ≤ n)
    (word : n < 4294967296) : readi (mid.finished ((dn 1).sized (rootSize files))).img
      (dinodeAt (mid.finished ((dn 1).sized (rootSize files))).img (k+2)) 0 n = some f.data := by
  obtain ⟨type,data⟩ := built.file k f found
  have same : withRoot dn (rootSize files) (k+2) = dn (k+2) := update_of_ne (by omega) _ _
  have size : (dn (k+2)).size = f.data.length := by rw [← data,length_contents]
  have top := (built.image.backed (k+2)).size
  have inside := (List.getElem?_eq_some_iff.mp found).1
  rw [built.image.finished_dinode (rootSize_lt (by omega)) (by omega),built.image.finished_readi (by rw [type]; decide)
    (Nat.le_of_eq (by rw [same])) (by rw [same]; exact top) (by omega) _ (by rw [same]; omega),data,List.drop_zero,same,
    List.take_of_length_le (by omega)]

theorem Built.bitSet_iff (small : b < 1024) :
    bitSet ((mid.finished ((dn 1).sized R)).img (BBLOCK b 200)) b = true ↔
      b < 29 ∨ ∃ i < 208, ∃ t : Slot, t.Valid ∧ addrOf mid.img (dn i) t = b := by
  have sound := built.image.sound
  rw [show BBLOCK b 200 = 28 by simp only [BBLOCK]; omega,finished_bitmap,bitSet_bitmap _ (by have := built.image.full; omega) (by omega)]
  constructor
  · intro used
    by_cases low : b < 29
    · exact .inl low
    obtain ⟨i,t,valid,eq⟩ := sound.onto b (by omega) used
    refine .inr ⟨i,?_,t,valid,eq⟩
    by_contra beyond
    rw [built.unused i (.inr (by omega))] at eq
    cases t <;> simp [addrOf,Dinode.zero] at eq <;> omega
  · have := sound.low
    rintro (low | ⟨i,inode,t,valid,eq⟩)
    · omega
    · by_cases none : b = 0
      · omega
      · have := sound.zone i t valid (by omega)
        omega

end

theorem mkfs_faithful (plain : ∀ f ∈ files, 47 ∉ f.name) (distinct : (files.map fun f => f.shown.take 14).Nodup)
    (proper : ∀ f ∈ files, f.shown.take 14 ≠ [46] ∧ f.shown.take 14 ≠ [46,46]) (short : ∀ f ∈ files, f.data.length ≤ 71680)
    (room : blocksNeeded files ≤ 985) (few : files.length+1 ≤ 200) :
    ∃ s, main files start = (.ok (),s) ∧ Faithful files s.img := by
  obtain ⟨mid,dn,built,ran⟩ := main_returns (by omega) plain short (by omega)
  have image := built.image
  have word : rootSize files < 4294967296 := rootSize_lt (by omega)
  have stored := fun j low => image.finished_dinode (j := j) word low
  have places := fun j t => image.finished_places (R := rootSize files) ((dn 1).sized (rootSize files)) j t
  refine ⟨_,ran,fun i one j two s t here there used eq => ?_,fun i low t valid used => ?_,fun b small => ?_,
    fun f member name text same => ?_⟩
  · rw [stored i one,places] at used eq
    rw [stored j two,places] at eq
    exact image.sound.apart i j s t here there used eq
  · rw [stored i low,places] at used ⊢
    have := image.sound.zone i t valid used
    have := built.count
    omega
  · rw [built.bitSet_iff (by omega) small]
    constructor
    · rintro (low | ⟨i,inode,t,valid,eq⟩)
      · exact .inl low
      · exact .inr ⟨i,inode,t,valid,by rw [stored i inode,places]; exact eq⟩
    · rintro (low | ⟨i,inode,t,valid,eq⟩)
      · exact .inl low
      · exact .inr ⟨i,inode,t,valid,by rw [stored i inode,places] at eq; exact eq⟩
  · obtain ⟨k,found⟩ := List.mem_iff_getElem?.mp member
    have inside := (List.getElem?_eq_some_iff.mp found).1
    have hit := find_rootEntries distinct proper found
    rw [← same] at hit
    exact ⟨k+2,built.dirlookup_root (by omega) text hit,fun n whole word => built.readi_file (by omega) found whole word⟩

def oneFile : HostFile := ⟨[97],[7],by decide⟩

theorem mkfs_faithful_one : ∃ s, main [oneFile] start = (.ok (),s) ∧ Faithful [oneFile] s.img :=
  mkfs_faithful (by decide) (by decide) (by decide) (by decide) (by decide) (by decide)

def dotFile : HostFile := ⟨[95,46],[],by decide⟩

theorem dot_file_shadowed : dotFile.shown = [46] ∧ ∃ s, main [dotFile] start = (.ok (),s) ∧
    dirlookup s.img (dinodeAt s.img 1) dotFile.shown = some (some 1) ∧ readi s.img (dinodeAt s.img 1) 0 512 ≠ some dotFile.data := by
  have returned : ∃ mid dn, Built [dotFile] mid dn ∧ main [dotFile] start = (.ok (),mid.finished ((dn 1).sized (rootSize [dotFile]))) :=
    main_returns (by decide) (by decide) (by decide) (by decide)
  obtain ⟨mid,dn,built,ran⟩ := returned
  have root := built.image.finished_dinode (rootSize_lt (show [dotFile].length ≤ 214 by decide)) (show 1 < 208 by decide)
  have hit : (rootEntries [dotFile]).find? (fun e => dotFile.shown.take 14 = e.2) = some (1,[46]) := by decide
  refine ⟨by decide,_,ran,built.dirlookup_root (by decide) (by decide) hit,?_⟩
  have size : (withRoot dn (rootSize [dotFile]) 1).size = 512 := by rw [withRoot,update_self]; rfl
  have kind : (withRoot dn (rootSize [dotFile]) 1).type = 1 := by rw [withRoot,update_self]; exact built.root.1
  rw [root,readi_eq (by rw [kind]; decide) (by omega) (by decide) (by omega) fun o _ high => ?_,size]
  · intro same
    have := congrArg List.length (Option.some.inj same)
    simp [dotFile] at this
  · rw [built.image.finished_places,(built.image.backed 1).data _ (by omega),built.root.2.1]
    simp only [List.length_singleton]
    omega

end
end Xv6.Mkfs
