import Xv6.Mkfs

namespace Xv6.Mkfs
open Function (update update_apply update_eq_self update_idem update_of_ne update_self)
open Bytes Exec Fs

-- iappend: where the blocks of a file go, and what is in them.

-- The image outside of the inodes: the dinodes dn say where the blocks are, which are those
-- from 29 on, in the order in which they were handed out.
structure Sound (s : State) (dn : Nat → Dinode) : Prop where
  len : s.len = 1024
  used : s.usedblocks = s.freeblock
  low : 29 ≤ s.freeblock
  apart : Apart s.img dn
  zone : ∀ i t, t.Valid → addrOf s.img (dn i) t ≠ 0 → 29 ≤ addrOf s.img (dn i) t ∧ addrOf s.img (dn i) t < s.freeblock
  onto : ∀ b, 29 ≤ b → b < s.freeblock → ∃ i t, t.Valid ∧ addrOf s.img (dn i) t = b
  blank : ∀ b, s.freeblock ≤ b → b < 1024 → s.img b = .zero
  fits : ∀ i, (dn i).Fits
  blocks : ∀ b, b ∈ s.blocks ↔ 29 ≤ b ∧ b < s.freeblock

structure Calm (s next : State) : Prop where
  freeinode : next.freeinode = s.freeinode
  inums : next.inums = s.inums
  inodeWrites : next.inodeWrites = s.inodeWrites
  low : ∀ b < 29, next.img b = s.img b

theorem Calm.refl (s : State) : Calm s s := ⟨rfl,rfl,rfl,fun _ _ => rfl⟩

theorem Calm.trans (one : Calm s next) (two : Calm next last) : Calm s last where
  freeinode := two.freeinode.trans one.freeinode
  inums := two.inums.trans one.inums
  inodeWrites := two.inodeWrites.trans one.inodeWrites
  low b small := (two.low b small).trans (one.low b small)

def State.took (s : State) (img : Disk) : State :=
  { s with img := img, freeblock := s.freeblock+1, usedblocks := s.usedblocks+1, blocks := s.freeblock :: s.blocks }

section
variable {s next : State} {dn : Nat → Dinode} {E : Exit → State → Prop}

theorem sat_wsect (sec : Nat) (buf : Block) (Q : Unit → State → Prop) :
    Sat (wsect sec buf) s E Q ↔ Q () { s with img := update s.img sec buf, len := max s.len (sec+1) } := sat_modify ..

theorem sat_rsect (sec : Nat) (Q : Block → State → Prop) :
    Sat (rsect sec) s E Q ↔ if sec < s.len then Q (s.img sec) s else E .one s := by
  rw [rsect,sat_get_bind]
  split
  · exact sat_pure ..
  · exact sat_stop ..

theorem sat_takeBlock (Q : Nat → State → Prop) : Sat takeBlock s E Q ↔ Q s.freeblock (s.took s.img) := by
  rw [takeBlock,sat_get_bind,sat_modify_bind]
  exact sat_pure ..

theorem Sound.free (sound : Sound s dn) (high : s.freeblock ≤ b) : Free s.img dn b := by
  intro i t valid eq
  have := sound.low
  have := (sound.zone i t valid (by omega)).2
  omega

theorem Sound.place (sound : Sound s dn) {img : Disk} {after : Nat → Dinode} {i : Nat} {t : Slot}
    (placed : Placed s.img img dn after i t s.freeblock) (valid : t.Valid) (vacant : addrOf s.img (dn i) t = 0)
    (blank : ∀ b, s.freeblock < b → b < 1024 → img b = s.img b) (fits : ∀ i, (after i).Fits) :
    Sound (s.took img) after where
  len := sound.len
  used := by simp [State.took,sound.used]
  low := by have := sound.low; simp only [State.took]; omega
  apart := sound.apart.place placed (sound.free .refl)
  zone j u ok some := by
    have := sound.low
    simp only [State.took] at some ⊢
    rw [placed.at j ok] at some ⊢
    split
    · omega
    · rename_i other
      rw [if_neg other] at some
      have := sound.zone j u ok some
      omega
  onto b low high := by
    simp only [State.took] at high
    by_cases last : b = s.freeblock
    · exact ⟨i,t,valid,last ▸ placed.here⟩
    obtain ⟨j,u,ok,eq⟩ := sound.onto b low (by omega)
    refine ⟨j,u,ok,?_⟩
    show addrOf img (after j) u = b
    rw [placed.at j ok,if_neg,eq]
    rintro ⟨rfl,rfl⟩
    omega
  blank b high small := by
    simp only [State.took] at high
    exact (blank b (by omega) small).trans (sound.blank b (by omega) small)
  fits := fits
  blocks b := by
    have := sound.low
    simp only [State.took,List.mem_cons,sound.blocks]
    omega

theorem Sound.moved (sound : Sound s dn) {after : Nat → Dinode}
    (places : ∀ j t, addrOf next.img (after j) t = addrOf s.img (dn j) t) (len : next.len = s.len)
    (free : next.freeblock = s.freeblock) (used : next.usedblocks = s.usedblocks) (blocks : next.blocks = s.blocks)
    (blank : ∀ b, s.freeblock ≤ b → b < 1024 → next.img b = s.img b) (fits : ∀ i, (after i).Fits) : Sound next after where
  len := len.trans sound.len
  used := by rw [used,free]; exact sound.used
  low := by rw [free]; exact sound.low
  apart i j t u one two := by
    rw [places,places]
    exact sound.apart i j t u one two
  zone i t valid := by
    rw [places,free]
    exact sound.zone i t valid
  onto b low high := by
    obtain ⟨j,t,valid,eq⟩ := sound.onto b low (free ▸ high)
    exact ⟨j,t,valid,(places j t).trans eq⟩
  blank b high small := by
    rw [free] at high
    exact (blank b high small).trans (sound.blank b high small)
  fits := fits
  blocks b := by rw [blocks,free]; exact sound.blocks b

structure Found (s : State) (dn : Nat → Dinode) (i off m : Nat) (din : Dinode) (x : Nat) (out : Dinode) (next : State) : Prop where
  sound : Sound next (Function.update dn i (out.sized (off+m)))
  backed : ∀ j, Backed next.img (Function.update dn i (out.sized (off+m)) j)
  block : x = addrOf next.img out (.data (off/512))
  some : x ≠ 0
  calm : Calm s next
  count : next.freeblock = s.freeblock + (need (off+m) - need off)
  last : next.freeblock = s.freeblock ∨ next.freeblock = x+1
  bytes : ∀ j o, o < (dn j).size → byteAt next.img (Function.update dn i (out.sized (off+m)) j) o = byteAt s.img (dn j) o
  kept : out.type = din.type ∧ out.nlink = din.nlink ∧ out.size = din.size

theorem Sound.resize (sound : Sound s dn) {d : Dinode} (same : dn i = d.sized o) (small : n < 4294967296) :
    Sound s (update dn i (d.sized n)) := by
  refine sound.moved (fun j t => ?_) rfl rfl rfl rfl (fun _ _ _ => rfl) fun j => ?_
  · by_cases here : j = i
    · subst here
      rw [update_self,same,addrOf_size,addrOf_size]
    · rw [update_of_ne here]
  by_cases here : j = i
  · subst here
    rw [update_self]
    have := sound.fits j
    rw [same] at this
    exact { this with size := small }
  · rw [update_of_ne here]
    exact sound.fits j

theorem found_there (sound : Sound s dn) (backed : ∀ j, Backed s.img (dn j)) (same : dn i = din.sized off)
    (more : 0 < m) (within : m ≤ 512 - off%512) (bound : off/512 < 140) (used : addrOf s.img din (.data (off/512)) ≠ 0)
    (mapped : 12 ≤ off/512 → din.addrs 12 ≠ 0) :
    Found s dn i off m din (addrOf s.img din (.data (off/512))) din s := by
  have mine := backed i
  have size : (dn i).size = off := by rw [same]; rfl
  have places : ∀ t, addrOf s.img (dn i) t = addrOf s.img din t := fun t => by rw [same,addrOf_size]
  have partway : 512*(off/512) < off := by
    have := (mine.data (off/512) bound).mp (by rw [places]; exact used)
    omega
  refine ⟨sound.resize same (by omega),fun j => ?_,rfl,used,.refl s,?_,.inl rfl,fun j o small => ?_,⟨rfl,rfl,rfl⟩⟩
  · by_cases here : j = i
    · subst here
      rw [update_self]
      refine mine.extend more (by rw [size]; exact within) (by rw [size]; exact bound) (by rw [size]; rfl) (fun k small => ?_) ?_
      · rw [addrOf_size,places,size]
        constructor
        · exact .inr
        · rintro (rfl | some)
          · exact used
          · exact some
      rw [size]
      have : (dn j).addrs 12 = din.addrs 12 := by rw [same]; rfl
      rw [this]
      constructor
      · exact .inr
      · rintro (high | some)
        · exact mapped high
        · exact some
    · rw [update_of_ne here]
      exact backed j
  · have : need (off+m) = need off := by
      unfold need
      have one : (off+m+511)/512 = (off+511)/512 := by omega
      rw [one]
      congr 1
      by_cases high : 6144 < off
      · simp [high,show 6144 < off+m by omega]
      · simp [high,show ¬ 6144 < off+m by omega]
    omega
  · by_cases here : j = i
    · subst here
      rw [update_self]
      exact byteAt_congr (by rw [addrOf_size,places]) rfl
    · rw [update_of_ne here]

structure Ready (s : State) (dn : Nat → Dinode) (i off : Nat) (din : Dinode) (mid : Dinode) (now : State) : Prop where
  sound : Sound now (Function.update dn i (mid.sized off))
  data : ∀ j, ∀ k < 140, addrOf now.img (Function.update dn i (mid.sized off) j) (.data k) = addrOf s.img (dn j) (.data k)
  blocks : ∀ j, ∀ k < 140, addrOf s.img (dn j) (.data k) ≠ 0 → now.img (addrOf s.img (dn j) (.data k)) = s.img (addrOf s.img (dn j) (.data k))
  ind : mid.addrs 12 ≠ 0 ↔ 12 ≤ off/512 ∨ din.addrs 12 ≠ 0
  calm : Calm s now
  kept : mid.type = din.type ∧ mid.nlink = din.nlink ∧ mid.size = din.size

theorem Ready.found (ready : Ready s dn i off din mid now) (backed : ∀ j, Backed s.img (dn j)) (same : dn i = din.sized off)
    (more : 0 < m) (within : m ≤ 512 - off%512) (bound : off/512 < 140) (vacant : addrOf now.img mid (.data (off/512)) = 0)
    {out : Dinode} {img : Disk}
    (placed : Placed now.img img (update dn i (mid.sized off)) (update dn i (out.sized off)) i (.data (off/512)) now.freeblock)
    (fits : (out.sized off).Fits) (blank : ∀ b, now.freeblock < b → b < 1024 → img b = now.img b) (low : ∀ b < 29, img b = now.img b)
    (blocks : ∀ j, ∀ k < 140, addrOf s.img (dn j) (.data k) ≠ 0 →
      img (addrOf s.img (dn j) (.data k)) = now.img (addrOf s.img (dn j) (.data k)))
    (ind : out.addrs 12 = mid.addrs 12) (kept : out.type = mid.type ∧ out.nlink = mid.nlink ∧ out.size = mid.size)
    (count : now.freeblock + 1 = s.freeblock + (need (off+m) - need off)) :
    Found s dn i off m din now.freeblock out (now.took img) := by
  have size : (dn i).size = off := by rw [same]; rfl
  have some : now.freeblock ≠ 0 := by have := ready.sound.low; omega
  have inner : Sound (now.took img) (update dn i (out.sized off)) := by
    refine ready.sound.place placed bound (by simpa [addrOf_size] using vacant) blank fun j => ?_
    by_cases here : j = i
    · subst here
      rw [update_self]
      exact fits
    · have := ready.sound.fits j
      rw [update_of_ne here] at this ⊢
      exact this
  have resized := inner.resize (n := off+m) (update_self ..) (by have := (backed i).size; omega)
  rw [update_idem] at resized
  refine ⟨resized,fun j => ?_,?_,some,?_,count,.inr rfl,fun j o inside => ?_,?_⟩
  · by_cases here : j = i
    · subst here
      rw [update_self]
      refine (backed j).extend more (by rw [size]; exact within) (by rw [size]; exact bound) (by rw [size]; rfl) (fun k small => ?_) ?_
      · have := placed_iff placed some k small
        rw [update_self,addrOf_size,ready.data j k small] at this
        rw [addrOf_size,size]
        exact this
      · rw [size,show (dn j).addrs 12 = din.addrs 12 by rw [same]; rfl,← ready.ind,← ind]
        rfl
    · rw [update_of_ne here]
      refine (backed j).congr fun k small => ?_
      have one := placed.others j (.data k) here small
      have two := ready.data j k small
      rw [update_of_ne here,update_of_ne here] at one
      rw [update_of_ne here] at two
      exact one.trans two
  · have := placed.here
    rw [update_self,addrOf_size] at this
    exact this.symm
  · exact ready.calm.trans ⟨rfl,rfl,rfl,low⟩
  · have slot : o/512 < 140 := by have := (backed j).size; omega
    have used := ((backed j).data (o/512) slot).mpr (by omega)
    have place := placed.at j (t := .data (o/512)) slot
    rw [ready.data j (o/512) slot] at place
    refine byteAt_congr ?_ ((blocks j (o/512) slot used).trans (ready.blocks j (o/512) slot used))
    by_cases here : j = i
    · subst here
      rw [update_self,addrOf_size] at place ⊢
      rw [show (now.took img).img = img from rfl,place,if_neg]
      rintro ⟨_,slots⟩
      have old := ready.data j (o/512) slot
      rw [update_self,addrOf_size,slots,vacant,← slots] at old
      exact used old.symm
    · rw [update_of_ne here] at place ⊢
      rw [show (now.took img).img = img from rfl,place,if_neg fun both => here both.1]
  · exact ⟨kept.1.trans ready.kept.1,kept.2.1.trans ready.kept.2.1,kept.2.2.trans ready.kept.2.2⟩

theorem Ready.refl (sound : Sound s dn) (same : dn i = din.sized off) (ind : din.addrs 12 ≠ 0 ↔ 12 ≤ off/512 ∨ din.addrs 12 ≠ 0) :
    Ready s dn i off din din s := by
  have unchanged : update dn i (din.sized off) = dn := by rw [← same,update_eq_self]
  exact ⟨by rw [unchanged]; exact sound,fun _ _ _ => by rw [unchanged],fun _ _ _ _ => rfl,ind,.refl s,⟨rfl,rfl,rfl⟩⟩

theorem setAddr_self (d : Dinode) (k b : Nat) : (d.setAddr k b).addrs k = b := update_self ..

theorem ready_ind (sound : Sound s dn) (same : dn i = din.sized off) (high : 12 ≤ off/512) (vacant : din.addrs 12 = 0)
    (room : s.freeblock < 1024) : Ready s dn i off din (din.setAddr 12 s.freeblock) (s.took s.img) := by
  have blank := sound.blank s.freeblock .refl room
  have none : (dn i).addrs 12 = 0 := by rw [same]; exact vacant
  have zero : ∀ k < 128, ld32 (s.img s.freeblock).byte (4*k) = 0 := fun k _ => by rw [blank]; exact Block.ld32_zero _
  have placed := placed_ind none (sound.free .refl) zero
  rw [update_eq_self] at placed
  have mid : (dn i).setAddr 12 s.freeblock = (din.setAddr 12 s.freeblock).sized off := by rw [same]; rfl
  rw [mid] at placed
  have fits := sound.fits i
  refine ⟨sound.place placed trivial none (fun _ _ _ => rfl) fun j => ?_,fun j k small => ?_,fun _ _ _ _ => rfl,?_,⟨rfl,rfl,rfl,fun _ _ => rfl⟩,
    ⟨rfl,rfl,rfl⟩⟩
  · by_cases here : j = i
    · subst here
      rw [update_self,← mid]
      exact fits.setAddr (by decide) (by omega)
    · rw [update_of_ne here]
      exact sound.fits j
  · rw [show (s.took s.img).img = s.img from rfl,placed.at j (t := .data k) small,if_neg fun both => by cases both.2]
  · have := sound.low
    simp only [Dinode.setAddr,update_self]
    omega

theorem need_new (aligned : off%512 = 0) (more : 0 < m) (within : m ≤ 512) :
    need (off+m) = need off + 1 + if off = 6144 then 1 else 0 := by
  unfold need
  have one : (off+m+511)/512 = (off+511)/512+1 := by omega
  rw [one]
  rcases Nat.lt_trichotomy off 6144 with low | here | high
  · simp [show ¬ 6144 < off by omega,show ¬ 6144 < off+m by omega,show off ≠ 6144 by omega]
  · simp [here,more]
  · simp [high,show 6144 < off+m by omega,show off ≠ 6144 by omega]

theorem Sound.len_wsect (sound : Sound s dn) (small : x < 1024) : max s.len (x+1) = s.len := by
  have := sound.len
  omega

section
variable (ready : Ready s dn i off din mid now)
include ready

theorem Ready.mid_fits : (mid.sized off).Fits := by
  have := ready.sound.fits i
  rwa [update_self] at this

theorem Ready.places (same : dn i = din.sized off) (bound : k < 140) :
    addrOf now.img mid (.data k) = addrOf s.img din (.data k) := by
  have := ready.data i k bound
  rwa [update_self,same,addrOf_size,addrOf_size] at this

theorem Ready.entry (backed : ∀ j, Backed s.img (dn j)) (same : dn i = din.sized off)
    (more : 0 < m) (within : m ≤ 512 - off%512) (bound : off/512 < 140) (high : 12 ≤ off/512)
    (vacant : addrOf now.img mid (.data (off/512)) = 0) (full : now.freeblock < 4294967296)
    (count : now.freeblock + 1 = s.freeblock + (need (off+m) - need off)) :
    Found s dn i off m din now.freeblock mid (now.took (update now.img (mid.addrs 12)
      (.ofStore (st32 (now.img (mid.addrs 12)).byte (4*(off/512-12)) now.freeblock)))) := by
  have some : mid.addrs 12 ≠ 0 := ready.ind.mpr (.inl high)
  have here : (update dn i (mid.sized off) i).addrs 12 = mid.addrs 12 := by rw [update_self]; rfl
  have zone := ready.sound.zone i .ind trivial (by rw [addrOf,here]; exact some)
  simp only [addrOf,here] at zone
  have placed := placed_indirect high bound ready.sound.apart (by rw [here]; exact some) full
  rw [here] at placed
  refine ready.found backed same more within bound vacant placed ready.mid_fits (fun b beyond _ => ?_) (fun b low => ?_)
    (fun j k small used => ?_) rfl ⟨rfl,rfl,rfl⟩ count
  · exact update_of_ne (by omega) _ _
  · exact update_of_ne (by omega) _ _
  · refine update_of_ne (fun eq => ?_) _ _
    rw [← ready.data j k small] at used eq
    have := ready.sound.apart j i (.data k) .ind small trivial used (by rw [eq,addrOf,here])
    cases this.2

end

theorem fileBlock_spec (sound : Sound s dn) (backed : ∀ j, Backed s.img (dn j)) (full : s.freeblock ≤ 1024) (same : dn i = din.sized off)
    (more : 0 < m) (within : m ≤ 512 - off%512) (bound : off/512 < 140) :
    Sat (fileBlock din (off/512)) s (fun _ _ => 1024 < s.freeblock + (need (off+m) - need off))
      fun r next => Found s dn i off m din r.1 r.2 next := by
  have mine := backed i
  have size : (dn i).size = off := by rw [same]; rfl
  have places : ∀ t, addrOf s.img (dn i) t = addrOf s.img din t := fun t => by rw [same,addrOf_size]
  have ind : din.addrs 12 ≠ 0 ↔ 6144 < off := by
    have := mine.ind
    rw [size,same] at this
    exact this
  have aligned : addrOf s.img din (.data (off/512)) = 0 → off%512 = 0 := by
    intro vacant
    by_contra partway
    exact (mine.data (off/512) bound).mpr (by omega) (by rw [places]; exact vacant)
  have fits : (din.sized off).Fits := same ▸ sound.fits i
  have unchanged : update dn i (din.sized off) = dn := by rw [← same,update_eq_self]
  unfold fileBlock
  by_cases direct : off/512 < 12
  · have slot : addrOf s.img din (.data (off/512)) = din.addrs (off/512) := by simp [addrOf,direct]
    simp only [direct,if_true]
    by_cases vacant : din.addrs (off/512) = 0
    · simp only [vacant,if_true]
      rw [sat_bind,sat_takeBlock]
      apply Sat.done
      have ready : Ready s dn i off din din s := .refl sound same ⟨.inr,fun h => by omega⟩
      have placed := placed_direct (i := i) direct (s.img s.freeblock) (sound.free .refl)
      have mid : (dn i).setAddr (off/512) s.freeblock = (din.setAddr (off/512) s.freeblock).sized off := by rw [same]; rfl
      rw [update_eq_self,mid] at placed
      refine ready.found backed same more within bound (by rw [slot]; exact vacant) (by rw [unchanged]; exact placed)
        (fits.setAddr (by omega) (by omega)) (fun _ _ _ => rfl) (fun _ _ => rfl) (fun _ _ _ _ => rfl) ?_ ⟨rfl,rfl,rfl⟩ ?_
      · simp only [Dinode.setAddr,update_apply,if_neg (show (12 : Nat) ≠ off/512 by omega)]
      · rw [need_new (aligned (by rw [slot]; exact vacant)) more (by omega),if_neg (by omega)]
        omega
    · simp only [vacant,if_false]
      apply Sat.done
      rw [← slot]
      exact found_there sound backed same more within bound (by rw [slot]; exact vacant) fun high => by omega
  · simp only [direct,if_false]
    rw [sat_bind,withIndirect]
    by_cases vacant : din.addrs 12 = 0
    · simp only [vacant,if_true]
      rw [sat_bind,sat_takeBlock]
      apply Sat.done
      have start : off = 6144 := by have := mt ind.mpr (not_not.mpr vacant); omega
      have grows : need (off+m) = need off + 1 + if off = 6144 then 1 else 0 := need_new (by omega) more (by omega)
      rw [if_pos start] at grows
      rw [sat_bind,sat_rsect,setAddr_self]
      by_cases room : s.freeblock < 1024
      · rw [if_pos (show s.freeblock < (s.took s.img).len from sound.len ▸ room)]
        have ready := ready_ind sound same (by omega) vacant room
        have entry : addrOf (s.took s.img).img (din.setAddr 12 s.freeblock) (.data (off/512)) = 0 := by
          rw [ready.places same bound]
          simp [addrOf,direct,vacant]
        have found := ready.entry backed same more within bound (by omega) entry (by simp only [State.took]; omega)
          (by simp only [State.took]; omega)
        have word : ld32 (s.img s.freeblock).byte (4*(off/512-12)) = 0 := by
          have := entry
          simp only [addrOf,direct,if_false,Dinode.setAddr,update_self,State.took] at this
          rwa [if_neg (show s.freeblock ≠ 0 by have := sound.low; omega)] at this
        rw [if_pos (by exact word),sat_bind,sat_takeBlock,sat_bind,sat_wsect]
        apply Sat.done
        rw [setAddr_self] at found
        rw [show max ((s.took s.img).took (s.took s.img).img).len (s.freeblock+1) = s.len from sound.len_wsect room]
        exact found
      · rw [if_neg (show ¬ s.freeblock < (s.took s.img).len from sound.len ▸ room)]
        omega
    · simp only [vacant,if_false]
      apply Sat.done
      have ready : Ready s dn i off din din s := .refl sound same ⟨.inr,fun _ => vacant⟩
      have slot : addrOf s.img din (.data (off/512)) = ld32 (s.img (din.addrs 12)).byte (4*(off/512-12)) := by
        simp [addrOf,direct,vacant]
      have zone := sound.zone i .ind trivial (by rw [addrOf,same]; exact vacant)
      simp only [addrOf,same,Dinode.sized] at zone
      have inside : din.addrs 12 < s.len := by rw [sound.len]; omega
      rw [sat_bind,sat_rsect,if_pos inside]
      by_cases entry : ld32 (s.img (din.addrs 12)).byte (4*(off/512-12)) = 0
      · simp only [entry,if_true]
        rw [sat_bind,sat_takeBlock,sat_bind,sat_wsect]
        apply Sat.done
        have late : 6144 < off := ind.mp vacant
        have grows := need_new (aligned (slot.trans entry)) more (by omega)
        rw [if_neg (by omega)] at grows
        have found := ready.entry backed same more within bound (by omega) (slot.trans entry) (by omega) (by omega)
        rw [show max (s.took s.img).len (din.addrs 12+1) = s.len from sound.len_wsect (by omega)]
        exact found
      · simp only [entry,if_false]
        apply Sat.done
        rw [← slot]
        exact found_there sound backed same more within bound (by rw [slot]; exact entry) fun _ => vacant

theorem Sound.write (sound : Sound s dn) (bound : k < 140) (used : addrOf s.img (dn i) (.data k) ≠ 0) (data : Block) :
    Sound { s with img := update s.img (addrOf s.img (dn i) (.data k)) data } dn := by
  have zone := sound.zone i (.data k) bound used
  refine sound.moved (fun j t => addrOf_write data (sound.apart.ind bound used j) t) rfl rfl rfl rfl (fun b high _ => ?_) sound.fits
  exact update_of_ne (by omega) _ _

theorem Backed.write (sound : Sound s dn) (backed : ∀ j, Backed s.img (dn j)) (bound : k < 140)
    (used : addrOf s.img (dn i) (.data k) ≠ 0) (data : Block) (j : Nat) :
    Backed (update s.img (addrOf s.img (dn i) (.data k)) data) (dn j) :=
  (backed j).congr fun _ _ => addrOf_write data (sound.apart.ind bound used j) _

structure Appended (s : State) (dn : Nat → Dinode) (i off n : Nat) (src : Bytes.Store) (din out : Dinode) (next : State) : Prop where
  sound : Sound next (Function.update dn i (out.sized (off+n)))
  backed : ∀ j, Backed next.img (Function.update dn i (out.sized (off+n)) j)
  full : next.freeblock ≤ 1024
  calm : Calm s next
  count : next.freeblock = s.freeblock + (need (off+n) - need off)
  old : ∀ j o, o < (dn j).size → byteAt next.img (Function.update dn i (out.sized (off+n)) j) o = byteAt s.img (dn j) o
  new : ∀ t < n, byteAt next.img out (off+t) = src t
  kept : out.type = din.type ∧ out.nlink = din.nlink ∧ out.size = din.size

theorem Found.copied (found : Found s dn i off m din x out next) (room : x < 1024) (full : next.freeblock ≤ 1024)
    (size : (dn i).size = off) (sizes : ∀ j, (dn j).size ≤ 71680) (within : m ≤ 512 - off%512) (bound : off/512 < 140)
    (src : Bytes.Store) : Appended s dn i off m src din out
      { next with img := update next.img x (.ofStore (copy (next.img x).byte (off - off/512*512) m src)) } := by
  have place : addrOf next.img (update dn i (out.sized (off+m)) i) (.data (off/512)) = x := by
    rw [update_self,addrOf_size]
    exact found.block.symm
  have used : addrOf next.img (update dn i (out.sized (off+m)) i) (.data (off/512)) ≠ 0 := by rw [place]; exact found.some
  have sound := found.sound.write bound used (.ofStore (copy (next.img x).byte (off - off/512*512) m src))
  have backed := Backed.write found.sound found.backed bound used (.ofStore (copy (next.img x).byte (off - off/512*512) m src))
  have bytes := fun o small j => byteAt_write (o := o) found.sound.apart bound used
    (Block.ofStore (copy (next.img x).byte (off - off/512*512) m src)) small j
  rw [place] at sound backed bytes
  have zone := found.sound.zone i _ (show Slot.Valid (.data (off/512)) from bound) used
  rw [place] at zone
  refine ⟨sound,backed,full,?_,found.count,?_,?_,found.kept⟩
  · exact found.calm.trans ⟨rfl,rfl,rfl,fun b low => update_of_ne (by omega) _ _⟩
  · intro j o inside
    have high := sizes j
    rw [← found.bytes j o inside,bytes o (by omega) j]
    split
    · rename_i here
      obtain ⟨rfl,slot⟩ := here
      rw [Block.byte_ofStore _ (by omega),copy_out _ _ (by omega),byteAt,slot,place]
    · rfl
  · intro t small
    have slot : (off+t)/512 = off/512 := by omega
    have := bytes (off+t) (by omega) i
    rw [update_self,byteAt_size,if_pos ⟨rfl,slot⟩,Block.byte_ofStore _ (by omega),copy_in _ _ (by omega) (by omega)] at this
    rw [this]
    congr 1
    omega

theorem Appended.trans (one : Appended s dn i off m src din mid now)
    (two : Appended now (update dn i (mid.sized (off+m))) i (off+m) n rest mid out next)
    (sizes : (dn i).size = off) : Appended s dn i off (m+n) (fun t => if t < m then src t else rest (t-m)) din out next := by
  have sum : off+m+n = off+(m+n) := by omega
  have sound := two.sound
  have backed := two.backed
  rw [update_idem,sum] at sound backed
  have grows := need_mono (show off ≤ off+m by omega)
  have later := need_mono (show off+m ≤ off+(m+n) by omega)
  have counts := two.count
  rw [sum,one.count] at counts
  have older : ∀ j o, o < (update dn i (mid.sized (off+m)) j).size →
      byteAt next.img (update dn i (out.sized (off+(m+n))) j) o = byteAt now.img (update dn i (mid.sized (off+m)) j) o := by
    intro j o inside
    have := two.old j o inside
    rwa [update_idem,sum] at this
  refine ⟨sound,backed,two.full,one.calm.trans two.calm,by omega,fun j o inside => ?_,fun t small => ?_,
    ⟨two.kept.1.trans one.kept.1,two.kept.2.1.trans one.kept.2.1,two.kept.2.2.trans one.kept.2.2⟩⟩
  · rw [older j o ?_,one.old j o inside]
    by_cases here : j = i
    · subst here
      rw [update_self]
      simp only [Dinode.sized]
      omega
    · rw [update_of_ne here]
      exact inside
  · split
    · rename_i first
      have := older i (off+t) (by rw [update_self]; simp only [Dinode.sized]; omega)
      rw [update_self,update_self,byteAt_size,byteAt_size] at this
      rw [this,one.new t first]
    · have := two.new (t-m) (by omega)
      rw [show off+m+(t-m) = off+t by omega] at this
      exact this

theorem appendLoop_spec (xp : Bytes.Store) (i : Nat) : ∀ off n, ∀ {s : State} {dn : Nat → Dinode} {din : Dinode} {done : Nat},
    Sound s dn → (∀ j, Backed s.img (dn j)) → s.freeblock ≤ 1024 → dn i = din.sized off → off ≤ 71680 →
    Sat (appendLoop xp (Chunks.chunks 512 off n) done din) s
      (fun _ _ => 71680 < off+n ∨ 1024 < s.freeblock + (need (off+n) - need off))
      fun out next => Appended s dn i off n (fun t => xp (done+t)) din out next := by
  intro off n
  induction off,n using Chunks.chunks_induct (B := 512) (by decide) with
  | zero off =>
    intro s dn din done sound backed full same top
    rw [Chunks.chunks_zero]
    apply Sat.done
    have unchanged : update dn i (din.sized off) = dn := by rw [← same,update_eq_self]
    exact ⟨by rw [Nat.add_zero,unchanged]; exact sound,by rw [Nat.add_zero,unchanged]; exact backed,full,.refl s,by simp,
      fun j o _ => by rw [Nat.add_zero,unchanged],fun t never => by omega,⟨rfl,rfl,rfl⟩⟩
  | step off n m some cut more ih =>
    intro s dn din done sound backed full same top
    have size : (dn i).size = off := by rw [same]; rfl
    rw [Chunks.chunks_step (by decide) some,← cut]
    unfold appendLoop
    by_cases bound : off/512 < 140
    · rw [if_neg (by omega)]
      have grows := need_mono (show off ≤ off+m by omega)
      have later := need_mono (show off+m ≤ off+n by omega)
      refine ((fileBlock_spec sound backed full same more (by omega) bound).mono (fun _ _ beyond => ?_) fun r now found => found).bind
        fun r now found => ?_
      · exact .inr (by omega)
      obtain ⟨x,mid⟩ := r
      have sizes : ∀ j, (dn j).size ≤ 71680 := fun j => (backed j).size
      have counts := found.count
      have zone := found.sound.zone i (.data (off/512)) bound (by rw [update_self,addrOf_size,← found.block]; exact found.some)
      rw [update_self,addrOf_size,← found.block] at zone
      rw [sat_bind,sat_rsect,found.sound.len]
      by_cases room : x < 1024
      · rw [if_pos room,sat_bind,sat_wsect,found.sound.len_wsect room]
        have copied := found.copied room (by have := found.last; omega) size sizes (by omega) bound fun t => xp (done+t)
        refine (ih copied.sound copied.backed copied.full (update_self ..) (by omega)).mono (fun _ _ beyond => ?_) fun out next rest => ?_
        · simp only [show off+m+(n-m) = off+n by omega] at beyond
          omega
        have whole := copied.trans rest size
        rw [show m+(n-m) = n by omega] at whole
        refine { whole with new := fun t small => ?_ }
        rw [whole.new t small]
        split
        · rfl
        · congr 1
          omega
      · rw [if_neg room]
        omega
    · rw [if_pos (by omega)]
      apply (sat_stop ..).mpr
      omega

end
end Xv6.Mkfs
