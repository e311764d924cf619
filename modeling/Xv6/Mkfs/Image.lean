import Mathlib.Algebra.GroupWithZero.Nat
import Xv6.Mkfs.Append

namespace Xv6.Mkfs
open Function (update update_eq_self update_idem update_of_ne update_self)
open Bytes Exec Fs
open List (length_append length_singleton mem_cons)

section
variable {s next : State} {dn : Nat → Dinode} {E : Exit → State → Prop}

-- The image with its inodes. Inode numbers below 216 have their place before block 29.
structure Image (s : State) (dn : Nat → Dinode) : Prop where
  sound : Sound s dn
  backed : ∀ j, Backed s.img (dn j)
  full : s.freeblock ≤ 1024
  stored : ∀ j < 216, dinodeAt s.img j = dn j

theorem sat_rinode (small : inum < 216) (len : s.len = 1024) (Q : Dinode → State → Prop) :
    Sat (rinode inum) s E Q ↔ Q (dinodeAt s.img inum) s := by
  have inside : i2b inum < s.len := by rw [len,i2b]; omega
  rw [rinode,sat_bind,sat_rsect,if_pos inside]
  exact sat_pure ..

def State.winode (s : State) (inum : Nat) (d : Dinode) : State :=
  { s with img := putDinode s.img inum d, inodeWrites := i2b inum :: s.inodeWrites }

theorem sat_winode (small : inum < 216) (len : s.len = 1024) (d : Dinode) (Q : Unit → State → Prop) :
    Sat (winode inum d) s E Q ↔ Q () (s.winode inum d) := by
  have inside : i2b inum < s.len := by rw [len,i2b]; omega
  rw [Mkfs.winode,sat_bind,sat_rsect,if_pos inside,sat_modify_bind,sat_wsect]
  simp only [show max s.len (i2b inum+1) = s.len by omega]
  rfl

theorem low_place (zone : addrOf disk d .ind ≠ 0 → 29 ≤ addrOf disk d .ind) (small : inum < 216) (e : Dinode) (t : Slot) :
    addrOf (putDinode disk inum e) d t = addrOf disk d t := by
  refine addrOf_congr (fun some => putDinode_other _ _ ?_) t
  have := zone some
  simp only [addrOf] at this
  simp only [IBLOCK]
  omega

theorem Sound.winode (sound : Sound s dn) (small : inum < 216) (d : Dinode) : Sound (s.winode inum d) dn := by
  have low := sound.low
  refine sound.moved (fun j t => low_place (fun some => (sound.zone j .ind trivial some).1) small d t) rfl rfl rfl rfl
    (fun b high _ => ?_) sound.fits
  exact putDinode_other _ _ (by simp only [IBLOCK]; omega)

theorem byteAt_winode (sound : Sound s dn) (backed : Backed s.img (dn j)) (inside : o < (dn j).size) (small : inum < 216) (d : Dinode) :
    byteAt (putDinode s.img inum d) (dn j) o = byteAt s.img (dn j) o := by
  have slot : o/512 < 140 := by have := backed.size; omega
  have used := (backed.data (o/512) slot).mpr (by omega)
  have zone := sound.zone j (.data (o/512)) slot used
  refine byteAt_congr (low_place (fun some => (sound.zone j .ind trivial some).1) small d _) (putDinode_other _ _ ?_)
  simp only [IBLOCK]
  omega

structure Wrote (s : State) (inum : Nat) (next : State) : Prop where
  freeinode : next.freeinode = s.freeinode
  inums : next.inums = s.inums
  inodeWrites : ∀ x ∈ next.inodeWrites, x ∈ s.inodeWrites ∨ x = i2b inum
  rest : ∀ b, b < 29 → b ≠ i2b inum → next.img b = s.img b

theorem iappend_spec (image : Image s dn) (small : inum < 216) (xp : Bytes.Store) (n : Nat) :
    Sat (iappend inum xp n) s
      (fun _ _ => 71680 < (dn inum).size+n ∨ 1024 < s.freeblock + (need ((dn inum).size+n) - need (dn inum).size))
      fun _ next => ∃ d, Image next (update dn inum d) ∧ Wrote s inum next ∧
        (d.type = (dn inum).type ∧ d.nlink = (dn inum).nlink ∧ d.size = (dn inum).size+n) ∧
        next.freeblock = s.freeblock + (need ((dn inum).size+n) - need (dn inum).size) ∧
        contents next.img d = contents s.img (dn inum) ++ (List.range n).map xp ∧
        ∀ j, j ≠ inum → contents next.img (dn j) = contents s.img (dn j) := by
  obtain ⟨sound,backed,full,stored⟩ := image
  rw [iappend,sat_bind,sat_rinode small sound.len,stored inum small]
  refine (appendLoop_spec xp inum (dn inum).size n sound backed full rfl (backed inum).size).bind fun out now app => ?_
  rw [sat_winode small app.sound.len]
  have fits := app.sound.fits inum
  rw [update_self] at fits
  have bytes : ∀ j o, o < (update dn inum (out.sized ((dn inum).size+n)) j).size →
      byteAt (putDinode now.img inum (out.sized ((dn inum).size+n))) (update dn inum (out.sized ((dn inum).size+n)) j) o =
        byteAt now.img (update dn inum (out.sized ((dn inum).size+n)) j) o :=
    fun j o inside => byteAt_winode app.sound (app.backed j) inside small _
  refine ⟨out.sized ((dn inum).size+n),⟨app.sound.winode small _,fun j => ?_,app.full,fun j low => ?_⟩,?_,
    ⟨app.kept.1,app.kept.2.1,rfl⟩,app.count,?_,fun j other => ?_⟩
  · exact (app.backed j).congr fun k _ => low_place (fun some => (app.sound.zone j .ind trivial some).1) small _ _
  · by_cases here : j = inum
    · subst here
      rw [update_self]
      exact dinodeAt_putDinode _ _ fits
    · rw [update_of_ne here]
      refine (dinodeAt_putDinode_other _ _ here).trans ((dinodeAt_congr ?_).trans (stored j low))
      exact app.calm.low _ (by simp only [IBLOCK]; omega)
  · refine ⟨app.calm.freeinode,app.calm.inums,fun x member => ?_,fun b low other => ?_⟩
    · simp only [State.winode,mem_cons,app.calm.inodeWrites] at member
      tauto
    · exact (putDinode_other _ _ other).trans (app.calm.low b low)
  · have mine := bytes inum
    rw [update_self] at mine
    refine contents_append rfl (fun o inside => ?_) fun t inside => ?_
    · have old := app.old inum o inside
      rw [update_self] at old
      exact (mine o (by simp only [Dinode.sized]; omega)).trans old
    · refine (mine _ (by simp only [Dinode.sized]; omega)).trans ?_
      rw [byteAt_size,app.new t inside,Nat.zero_add]
  · refine contents_congr rfl fun o inside => ?_
    have one := bytes j o
    have two := app.old j o inside
    rw [update_of_ne other] at one two
    exact (one inside).trans two

def fresh (type : Nat) : Dinode := ⟨type,0,0,1,0,fun _ => 0⟩

theorem ialloc_spec (image : Image s dn) (small : s.freeinode < 216) (unused : dn s.freeinode = .zero) (short : type < 65536) :
    Sat (ialloc type) s E fun inum next => inum = s.freeinode ∧ Image next (update dn inum (fresh type)) ∧
      next.freeinode = s.freeinode+1 ∧ next.inums = s.freeinode :: s.inums ∧ next.freeblock = s.freeblock ∧
      (∀ x ∈ next.inodeWrites, x ∈ s.inodeWrites ∨ x = i2b inum) ∧ (∀ b, b < 29 → b ≠ i2b inum → next.img b = s.img b) ∧
      ∀ j, j ≠ inum → contents next.img (dn j) = contents s.img (dn j) := by
  obtain ⟨sound,backed,full,stored⟩ := image
  have places : ∀ j t, addrOf s.img (update dn s.freeinode (fresh type) j) t = addrOf s.img (dn j) t := by
    intro j t
    by_cases here : j = s.freeinode
    · subst here
      rw [update_self,unused]
      cases t <;> rfl
    · rw [update_of_ne here]
  have fits : (fresh type).Fits := ⟨short,by simp [fresh],by simp [fresh],by simp [fresh],by simp [fresh],fun _ => by simp [fresh],fun _ _ => rfl⟩
  rw [ialloc,sat_get_bind,sat_modify_bind,sat_bind]
  refine (sat_winode small (by exact sound.len) _ _).mpr (.done ?_)
  have ready : Sound { s with freeinode := s.freeinode+1, inums := s.freeinode :: s.inums }
      (update dn s.freeinode (fresh type)) := by
    refine sound.moved places rfl rfl rfl rfl (fun _ _ _ => rfl) fun j => ?_
    by_cases here : j = s.freeinode
    · subst here
      rw [update_self]
      exact fits
    · rw [update_of_ne here]
      exact sound.fits j
  have whole : ∀ j, Backed s.img (update dn s.freeinode (fresh type) j) := by
    intro j
    by_cases here : j = s.freeinode
    · subst here
      rw [update_self]
      exact .empty _ rfl fun _ => rfl
    · rw [update_of_ne here]
      exact backed j
  refine ⟨rfl,⟨ready.winode small _,fun j => ?_,full,fun j low => ?_⟩,rfl,rfl,rfl,fun x member => ?_,fun b low other => ?_,fun j other => ?_⟩
  · exact (whole j).congr fun k _ => low_place (fun some => (ready.zone j .ind trivial some).1) small _ _
  · by_cases here : j = s.freeinode
    · subst here
      rw [update_self]
      exact dinodeAt_putDinode _ _ fits
    · rw [update_of_ne here]
      exact (dinodeAt_putDinode_other _ _ here).trans (stored j low)
  · simp only [State.winode,mem_cons] at member
    tauto
  · exact putDinode_other _ _ other
  · exact contents_congr rfl fun o inside => byteAt_winode sound (backed j) inside small _

theorem slice (data : List UInt8) (inside : off+m ≤ data.length) : (List.range m).map (fun t => data.getD (off+t) 0) = (data.drop off).take m := by
  apply List.ext_getElem
  · simp
    omega
  · intro t one two
    simp at one
    simp [List.getElem?_eq_getElem (show off+t < data.length by omega)]

theorem copyData_spec (data : List UInt8) (small : inum < 216) : ∀ off n, ∀ {s : State} {dn : Nat → Dinode}, Image s dn →
    (dn inum).size = off → off+n = data.length →
    Sat (copyData inum data (Chunks.chunks 512 off n)) s
      (fun _ _ => 71680 < data.length ∨ 1024 < s.freeblock + (need data.length - need off))
      fun _ next => ∃ d, Image next (update dn inum d) ∧ Wrote s inum next ∧
        (d.type = (dn inum).type ∧ d.nlink = (dn inum).nlink) ∧
        next.freeblock = s.freeblock + (need data.length - need off) ∧
        contents next.img d = contents s.img (dn inum) ++ data.drop off ∧
        ∀ j, j ≠ inum → contents next.img (dn j) = contents s.img (dn j) := by
  intro off n
  induction off,n using Chunks.chunks_induct (B := 512) (by decide) with
  | zero off =>
    intro s dn image size whole
    apply Sat.done
    refine ⟨dn inum,by rw [update_eq_self]; exact image,⟨rfl,rfl,fun _ => .inl,fun _ _ _ => rfl⟩,⟨rfl,rfl⟩,?_,?_,fun _ _ => rfl⟩
    · rw [← whole]; simp
    · rw [List.drop_eq_nil_of_le (by omega),List.append_nil]
  | step off n m some cut more ih =>
    intro s dn image size whole
    rw [Chunks.chunks_step (by decide) some,← cut,copyData]
    have grows := need_mono (show off ≤ off+m by omega)
    have later := need_mono (show off+m ≤ data.length by omega)
    refine ((iappend_spec image small _ m).mono (fun _ _ beyond => ?_) fun _ now post => post).bind fun _ now post => ?_
    · rw [size] at beyond
      omega
    obtain ⟨d,image',wrote,kept,count,mine,others⟩ := post
    rw [size] at kept count
    refine (ih image' (by rw [update_self]; exact kept.2.2) (by omega)).mono (fun _ _ beyond => by omega) fun _ next post => ?_
    obtain ⟨e,image'',wrote',kept',count',mine',others'⟩ := post
    rw [update_idem] at image''
    rw [update_self] at kept' mine'
    refine ⟨e,image'',⟨wrote'.freeinode.trans wrote.freeinode,wrote'.inums.trans wrote.inums,fun x member => ?_,fun b low other => ?_⟩,
      ⟨kept'.1.trans kept.1,kept'.2.trans kept.2.1⟩,by omega,?_,fun j other => ?_⟩
    · rcases wrote'.inodeWrites x member with there | here
      · exact wrote.inodeWrites x there
      · exact .inr here
    · exact (wrote'.rest b low other).trans (wrote.rest b low other)
    · rw [mine',mine,slice data (by omega),List.append_assoc,← List.drop_drop,List.take_append_drop]
    · have := others' j other
      rw [update_of_ne other] at this
      exact this.trans (others j other)

def entry (inum : Nat) (name : List UInt8) : List UInt8 := (List.range 16).map (entryBytes inum name)

def HostFile.entry (f : HostFile) (k : Nat) : List UInt8 := Mkfs.entry (k+2) (f.shown.take 14)

def rootBytes (files : List HostFile) : List UInt8 :=
  entry 1 [46] ++ entry 1 [46,46] ++ files.zipIdx.flatMap fun (f,k) => f.entry k

theorem rootBytes_snoc (files : List HostFile) (f : HostFile) : rootBytes (files ++ [f]) = rootBytes files ++ f.entry files.length := by
  simp [rootBytes,List.zipIdx_append]

theorem length_entry (inum : Nat) (name : List UInt8) : (entry inum name).length = 16 := by simp [entry]

def blocksNeeded (files : List HostFile) : Nat := (files.map fun f => need f.data.length).sum + need (16*(files.length+2))

theorem blocksNeeded_snoc (files : List HostFile) (f : HostFile) :
    blocksNeeded (files ++ [f]) + need (16*(files.length+2)) = blocksNeeded files + need f.data.length + need (16*(files.length+3)) := by
  simp only [blocksNeeded,List.map_append,List.sum_append,List.map_cons,List.map_nil,List.sum_cons,List.sum_nil,
    length_append,length_singleton]
  rw [show files.length+1+2 = files.length+3 by omega]
  omega

theorem blocksNeeded_append (files more : List HostFile) : blocksNeeded files ≤ blocksNeeded (files ++ more) := by
  have := need_mono (show 16*(files.length+2) ≤ 16*((files ++ more).length+2) by rw [length_append]; omega)
  simp only [blocksNeeded,List.map_append,List.sum_append]
  omega

structure Built (done : List HostFile) (s : State) (dn : Nat → Dinode) : Prop where
  image : Image s dn
  freeinode : s.freeinode = done.length+2
  unused : ∀ i, i = 0 ∨ done.length+2 ≤ i → dn i = .zero
  root : (dn 1).type = 1 ∧ (dn 1).size = 16*(done.length+2) ∧ contents s.img (dn 1) = rootBytes done
  file : ∀ k f, done[k]? = some f → (dn (k+2)).type = 2 ∧ contents s.img (dn (k+2)) = f.data
  count : s.freeblock = 29 + blocksNeeded done
  inums : ∀ i, i ∈ s.inums ↔ 1 ≤ i ∧ i ≤ done.length+1
  writes : ∀ x ∈ s.inodeWrites, ∃ i, 1 ≤ i ∧ i ≤ done.length+1 ∧ x = i2b i
  super : s.img 1 = .ofStore superblock

theorem length_contents (disk : Disk) (d : Dinode) : (contents disk d).length = d.size := by simp [contents]

theorem file_spec (built : Built done s dn) (few : done.length < 214) (f : HostFile) (rest : M Unit) {Q : Unit → State → Prop}
    (goes : ∀ next after, Built (done ++ [f]) next after → Sat rest next E Q)
    (stops : ∀ e next, 71680 < f.data.length ∨ 1024 < 29 + blocksNeeded (done ++ [f]) → E e next) :
    Sat (do let inum ← ialloc 2
            iappend 1 (entryBytes inum (f.shown.take 14)) 16
            copyData inum f.data (Chunks.chunks 512 0 f.data.length)
            rest) s E Q := by
  have free := built.freeinode
  have total := blocksNeeded_snoc done f
  have grows := need_mono (show 16*(done.length+2) ≤ 16*(done.length+3) by omega)
  refine (ialloc_spec built.image (by omega) (built.unused _ (.inr (by omega))) (by decide)).bind fun inum one post => ?_
  obtain ⟨rfl,image₁,freeinode₁,inums₁,count₁,writes₁,low₁,others₁⟩ := post
  have root : update dn s.freeinode (fresh 2) 1 = dn 1 := update_of_ne (by omega) _ _
  refine ((iappend_spec image₁ (by decide) _ 16).mono (fun e next beyond => ?_) fun _ two post => post).bind fun _ two post => ?_
  · rw [root,built.root.2.1,count₁,built.count,show 16*(done.length+2)+16 = 16*(done.length+3) by omega] at beyond
    exact stops e next (by omega)
  obtain ⟨d,image₂,wrote₂,kept₂,count₂,mine₂,others₂⟩ := post
  rw [root,built.root.2.1,show 16*(done.length+2)+16 = 16*(done.length+3) by omega] at count₂ kept₂
  rw [root] at mine₂
  have file : update (update dn s.freeinode (fresh 2)) 1 d s.freeinode = fresh 2 := by
    rw [update_of_ne (by omega),update_self]
  refine ((copyData_spec f.data (by omega) 0 f.data.length image₂ (by rw [file]; rfl) (by omega)).mono
    (fun e next beyond => ?_) fun _ three post => post).bind fun _ three post => ?_
  · have : need 0 = 0 := rfl
    exact stops e next (by have := built.count; omega)
  obtain ⟨e,image₃,wrote₃,kept₃,count₃,mine₃,others₃⟩ := post
  rw [file] at kept₃ mine₃
  have first : update (update (update dn s.freeinode (fresh 2)) 1 d) s.freeinode e 1 = d := by
    rw [update_of_ne (by omega),update_self]
  refine goes three _ ⟨image₃,?_,fun i out => ?_,⟨?_,?_,?_⟩,fun k g found => ?_,?_,fun i => ?_,fun x member => ?_,?_⟩
  · rw [wrote₃.freeinode,wrote₂.freeinode,freeinode₁,free,length_append,length_singleton]
  · simp only [length_append,length_singleton] at out
    rw [update_of_ne (by omega),update_of_ne (by omega),update_of_ne (by omega)]
    exact built.unused i (by omega)
  · rw [first]
    exact kept₂.1.trans built.root.1
  · rw [first,kept₂.2.2,length_append,length_singleton]
  · have one := others₃ 1 (by omega)
    rw [update_self] at one
    rw [first,one,mine₂,others₁ 1 (by omega),built.root.2.2,rootBytes_snoc,HostFile.entry,entry,free]
  · rcases Nat.lt_or_ge k done.length with old | new
    · rw [List.getElem?_append_left old] at found
      obtain ⟨type,data⟩ := built.file k g found
      have same : update (update dn s.freeinode (fresh 2)) 1 d (k+2) = dn (k+2) := by
        rw [update_of_ne (by omega),update_of_ne (by omega)]
      have two := others₂ (k+2) (by omega)
      have three := others₃ (k+2) (by omega)
      rw [same] at three
      rw [update_of_ne (by omega)] at two
      rw [update_of_ne (by omega),same]
      exact ⟨type,three.trans (two.trans ((others₁ (k+2) (by omega)).trans data))⟩
    · obtain ⟨here,rfl⟩ : k = done.length ∧ f = g := by
        rw [List.getElem?_append_right new] at found
        have := (List.getElem?_eq_some_iff.mp found).1
        simp only [length_singleton] at this
        refine ⟨by omega,?_⟩
        rw [show k-done.length = 0 by omega] at found
        exact Option.some.inj found
      rw [here,← free,update_self]
      exact ⟨kept₃.1,by rw [mine₃]; simp [contents,fresh]⟩
  · have : need 0 = 0 := rfl
    have := built.count
    omega
  · rw [wrote₃.inums,wrote₂.inums,inums₁,mem_cons,built.inums,length_append,length_singleton,free]
    omega
  · rw [length_append,length_singleton]
    rcases wrote₃.inodeWrites x member with member | rfl
    · rcases wrote₂.inodeWrites x member with member | rfl
      · rcases writes₁ x member with member | rfl
        · obtain ⟨i,low,high,eq⟩ := built.writes x member
          exact ⟨i,low,by omega,eq⟩
        · exact ⟨_,by omega,by omega,rfl⟩
      · exact ⟨1,by omega,by omega,rfl⟩
    · exact ⟨_,by omega,by omega,rfl⟩
  · rw [wrote₃.rest 1 (by decide) (by simp only [i2b]; omega),wrote₂.rest 1 (by decide) (by decide),
      low₁ 1 (by decide) (by simp only [i2b]; omega)]
    exact built.super

theorem addFiles_spec (todo : List HostFile) : ∀ {done : List HostFile} {s : State} {dn : Nat → Dinode}, Built done s dn →
    done.length+todo.length ≤ 214 →
    Sat (addFiles 1 todo) s
      (fun _ _ => (∃ f ∈ todo, 47 ∈ f.name) ∨ (∃ f ∈ todo, 71680 < f.data.length) ∨ 1024 < 29 + blocksNeeded (done ++ todo))
      fun _ next => ∃ after, Built (done ++ todo) next after := by
  induction todo with
  | nil =>
    intro done s dn built few
    exact .done ⟨dn,by rw [List.append_nil]; exact built⟩
  | cons f rest ih =>
    intro done s dn built few
    simp only [List.length_cons] at few
    rw [addFiles]
    by_cases slash : 47 ∈ f.name
    · rw [if_pos slash]
      exact (sat_stop ..).mpr (.inl ⟨f,by simp,slash⟩)
    rw [if_neg slash]
    have whole : done ++ [f] ++ rest = done ++ f :: rest := by simp
    refine file_spec built (by omega) f _ (fun next after later => ?_) fun e next beyond => ?_
    · refine (ih later (by simp only [length_append,length_singleton]; omega)).mono (fun _ _ beyond => ?_) fun _ last built => ?_
      · rw [whole] at beyond
        rcases beyond with ⟨g,member,bad⟩ | ⟨g,member,bad⟩ | bad
        · exact .inl ⟨g,by simp [member],bad⟩
        · exact .inr (.inl ⟨g,by simp [member],bad⟩)
        · exact .inr (.inr bad)
      · rwa [whole] at built
    · have := blocksNeeded_append (done ++ [f]) rest
      rw [whole] at this
      rcases beyond with long | beyond
      · exact .inr (.inl ⟨f,by simp,long⟩)
      · exact .inr (.inr (by omega))

theorem zeroSectors_spec (sectors : List Nat) : ∀ {s : State}, s.img = (fun _ => .zero) →
    Sat (zeroSectors sectors) s E fun _ next => next.img = (fun _ => .zero) ∧ next = { s with len := next.len } ∧
      s.len ≤ next.len ∧ (∀ b ∈ sectors, b < next.len) ∧ ∀ n, s.len ≤ n → (∀ b ∈ sectors, b < n) → next.len ≤ n := by
  induction sectors with
  | nil =>
    intro s blank
    exact .done ⟨blank,rfl,.refl,by simp,fun n le _ => le⟩
  | cons i rest ih =>
    intro s blank
    have same : update s.img i .zero = s.img := by rw [blank,update_eq_self]
    rw [zeroSectors,sat_bind,sat_wsect,same]
    refine (ih (by exact blank)).mono (fun _ _ held => held) fun _ next post => ?_
    obtain ⟨img,eq,more,inside,least⟩ := post
    simp only at more eq least
    refine ⟨img,eq,by omega,fun b member => ?_,fun n low bound => least n ?_ fun b member => bound b (by simp [member])⟩
    · rcases List.mem_cons.mp member with rfl | member
      · omega
      · exact inside b member
    · have := bound i (by simp)
      omega

theorem load_zero (o : Nat) : Dinode.load .zero o = .zero := by
  have short : ∀ k, ld16 Block.zero.byte k = 0 := fun k => by simp [ld16,Block.byte_zero]
  simp only [Dinode.load,Dinode.zero,short,Block.ld32_zero,ite_self]

def State.blankImage : State :=
  { start with img := Function.update (fun _ => .zero) 1 (.ofStore superblock), len := 1024 }

theorem blankImage_image : Image State.blankImage fun _ => .zero where
  sound :=
    { len := rfl
      used := rfl
      low := by decide
      apart := by intro i j s t _ _ some; cases s <;> simp [addrOf,Dinode.zero] at some
      zone := by intro i t _ some; cases t <;> simp [addrOf,Dinode.zero] at some
      onto := by intro b low high; simp only [State.blankImage,start] at high; omega
      blank := by
        intro b high _
        simp only [State.blankImage,start] at high ⊢
        exact update_of_ne (by omega) _ _
      fits := fun _ => Dinode.zero_fits
      blocks := by
        intro b
        simp only [State.blankImage,start,List.not_mem_nil,false_iff]
        omega }
  backed _ := .empty _ rfl fun _ => rfl
  full := by decide
  stored j _ := by
    rw [dinodeAt,State.blankImage]
    simp only
    exact load_zero _

theorem dots_spec (rest : Nat → M Unit) {Q : Unit → State → Prop} (goes : ∀ next after, Built [] next after → Sat (rest 1) next E Q) :
    Sat (ialloc 1 >>= fun rootino => if rootino ≠ 1 then Prog.stop .assert else
        iappend rootino (entryBytes rootino [46]) 16 >>= fun _ => iappend rootino (entryBytes rootino [46,46]) 16 >>= fun _ => rest rootino)
      State.blankImage E Q := by
  refine (ialloc_spec blankImage_image (by decide) rfl (by decide)).bind fun inum one post => ?_
  obtain ⟨eq,image₁,freeinode₁,inums₁,count₁,writes₁,low₁,_⟩ := post
  obtain rfl : inum = 1 := eq
  have root : update (fun _ => Dinode.zero) 1 (fresh 1) 1 = fresh 1 := update_self ..
  have start : one.freeblock = 29 := count₁
  refine ((iappend_spec image₁ (by decide) _ 16).mono (fun e next beyond => ?_) fun _ two post => post).bind fun _ two post => ?_
  · rw [root,start] at beyond
    exact absurd beyond (by decide)
  obtain ⟨d,image₂,wrote₂,kept₂,count₂,mine₂,_⟩ := post
  rw [update_idem] at image₂
  have blocks₂ : two.freeblock = 30 := by rw [count₂,start]; rfl
  refine ((iappend_spec image₂ (by decide) _ 16).mono (fun e next beyond => ?_) fun _ three post => post).bind fun _ three post => ?_
  · rw [update_self,kept₂.2.2,blocks₂] at beyond
    exact absurd beyond (by decide)
  obtain ⟨e,image₃,wrote₃,kept₃,count₃,mine₃,_⟩ := post
  rw [update_self] at kept₃ mine₃ count₃
  rw [update_idem] at image₃
  refine goes three _ ⟨image₃,?_,fun i out => ?_,⟨?_,?_,?_⟩,fun k f found => by simp at found,?_,fun i => ?_,fun x member => ?_,?_⟩
  · rw [wrote₃.freeinode,wrote₂.freeinode,freeinode₁]
    rfl
  · exact update_of_ne (by omega) _ _
  · exact kept₃.1.trans kept₂.1
  · rw [update_self,kept₃.2.2,kept₂.2.2]
    rfl
  · rw [update_self,mine₃,mine₂]
    simp [contents,fresh,rootBytes,entry]
  · rw [count₃,blocks₂,kept₂.2.2]
    rfl
  · rw [wrote₃.inums,wrote₂.inums,inums₁]
    simp only [State.blankImage,Mkfs.start,List.mem_singleton,List.length_nil]
    omega
  · refine ⟨1,by omega,by simp,?_⟩
    rcases wrote₃.inodeWrites x member with member | here
    · rcases wrote₂.inodeWrites x member with member | here
      · rcases writes₁ x member with member | here
        · simp [State.blankImage,Mkfs.start] at member
        · exact here
      · exact here
    · exact here
  · rw [wrote₃.rest 1 (by decide) (by decide),wrote₂.rest 1 (by decide) (by decide),low₁ 1 (by decide) (by decide)]
    simp only [State.blankImage,update_self]

def rootSize (files : List HostFile) : Nat := (16*(files.length+2)/512+1)*512

def State.finished (s : State) (root : Dinode) : State :=
  { s.winode 1 root with img := Function.update (putDinode s.img 1 root) 28 (.ofStore (bitmap s.freeblock)) }

-- With inodes that stay clear of the data blocks, mkfs fails for want of blocks or for a
-- file that it refuses.
theorem main_spec (files : List HostFile) (few : files.length ≤ 214) :
    Sat (main files) start
      (fun _ _ => (∃ f ∈ files, 47 ∈ f.name) ∨ (∃ f ∈ files, 71680 < f.data.length) ∨ 1024 < 29 + blocksNeeded files)
      fun _ s => ∃ mid dn, Built files mid dn ∧ s = mid.finished ((dn 1).sized (rootSize files)) := by
  refine (zeroSectors_spec (List.range 1024) rfl).bind fun _ blank post => ?_
  obtain ⟨img,eq,_,inside,least⟩ := post
  have len : blank.len = 1024 := by
    have := least 1024 (by decide) fun b member => List.mem_range.mp member
    have := inside 1023 (by simp)
    omega
  rw [sat_bind,sat_wsect]
  have here : ({ blank with img := update blank.img 1 (.ofStore superblock), len := max blank.len (1+1) } : State) = State.blankImage := by
    rw [eq,len]
    rfl
  rw [here]
  refine dots_spec (fun rootino => addFiles rootino files >>= fun _ => rinode rootino >>= fun din =>
    winode rootino (din.sized ((din.size/512+1)*512)) >>= fun _ => Prog.get >>= fun s => balloc s.usedblocks) fun dots dn built => ?_
  refine ((addFiles_spec files built (by simpa using few)).mono (fun _ _ beyond => by simpa using beyond)
    fun _ mid post => post).bind fun _ mid post => ?_
  obtain ⟨dn,built⟩ := post
  have sound := built.image.sound
  rw [sat_bind,sat_rinode (by decide) sound.len,built.image.stored 1 (by decide),sat_bind,sat_winode (by decide) sound.len,sat_get_bind]
  have used : (mid.winode 1 ((dn 1).sized (((dn 1).size/512+1)*512))).usedblocks = mid.freeblock := sound.used
  rw [used,balloc,if_neg (by have := built.image.full; omega),sat_wsect]
  refine ⟨mid,dn,built,?_⟩
  rw [built.root.2.1]
  show ({ mid.winode 1 _ with img := _, len := max mid.len 29 } : State) = _
  rw [show max mid.len 29 = mid.len by have := sound.len; omega]
  rfl

theorem main_returns {files : List HostFile} (few : files.length ≤ 214) (plain : ∀ f ∈ files, 47 ∉ f.name)
    (short : ∀ f ∈ files, f.data.length ≤ 71680) (room : blocksNeeded files ≤ 995) : ∃ mid dn, Built files mid dn ∧
      main files start = (.ok (),mid.finished ((dn 1).sized (rootSize files))) := by
  have run := (main_spec files few).stops (F := fun _ _ => False) (fun _ _ beyond => ?_)
  · obtain ⟨_,s,ran,mid,dn,built,rfl⟩ := run.returns
    exact ⟨mid,dn,built,ran⟩
  rcases beyond with ⟨f,member,slash⟩ | ⟨f,member,long⟩ | beyond
  · exact plain f member slash
  · have := short f member
    omega
  · omega

end
end Xv6.Mkfs
