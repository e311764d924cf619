import Xv6.Fs.Bmap

namespace Xv6.Fs.Core
open Function (update update_eq_self update_idem update_of_ne update_self)
open Bytes Exec LogCrash

-- readi and writei: a file is its bytes.

section
variable {L : Layout} {s now mid next : State} {dn after : Nat → Dinode} {E : Stop → State → Prop} {ks : List Nat}

def Zoned (L : Layout) (disk : Disk) (d : Dinode) : Prop := ∀ t : Slot, t.Valid → addrOf disk d t ≠ 0 → addrOf disk d t < L.size-L.nlog

theorem Owned.zoned (owned : Owned L disk dn) (i : Nat) : Zoned L disk (dn i) := fun t valid some => (owned.zone i t valid some).2

section
variable (zoned : Zoned L (L.view s.log) (s.icache ip).din) (idle : s.held = [])
include zoned idle

theorem bmap_there (bound : bn < 140)
    (used : addrOf (L.view s.log) (s.icache ip).din (.data bn) ≠ 0) (f : Nat → M α) (Q : α → State → Prop)
    (rest : Sat (f (addrOf (L.view s.log) (s.icache ip).din (.data bn))) s E Q) : Sat (bmap ip bn >>= f) s E Q := by
  rw [bmap,sat_bind]
  by_cases direct : bn < 12
  · have place : addrOf (L.view s.log) (s.icache ip).din (.data bn) = (s.icache ip).din.addrs bn := by simp [addrOf,direct]
    rw [place] at used rest
    rw [if_pos direct,sat_inode,if_neg used,sat_pure]
    exact rest
  have some : (s.icache ip).din.addrs 12 ≠ 0 := fun none => used (by simp [addrOf,direct,none])
  have place : addrOf (L.view s.log) (s.icache ip).din (.data bn) =
      ld32 (s.log.bread ((s.icache ip).din.addrs 12)).byte (4*(bn-12)) := by
    have out : L.area.Outside ((s.icache ip).din.addrs 12) := L.outside_low (zoned .ind trivial some)
    rw [← L.view_outside _ out]
    simp [addrOf,direct,some]
  rw [place] at used rest
  rw [if_neg direct,if_pos (by omega),withIndirect,sat_bind,sat_inode,if_neg some,sat_pure,indirect,sat_bread,if_neg (by simp [idle]),
    if_neg used,sat_brelse,sat_pure]
  simpa using rest

theorem readiLoop_spec :
    ∀ off n, off+n ≤ 71680 → (∀ o, off ≤ o → o < off+n → addrOf (L.view s.log) (s.icache ip).din (.data (o/512)) ≠ 0) →
      Sat (readiLoop ip (Chunks.chunks 512 off n)) s E fun bytes next => next = s ∧
        bytes = (List.range n).map fun t => byteAt (L.view s.log) (s.icache ip).din (off+t) := by
  intro off n
  induction off,n using Chunks.chunks_induct (B := 512) (by decide) with
  | zero off => intro _ _; exact .done ⟨rfl,rfl⟩
  | step off n m some cut more ih =>
    intro top used
    have here := used off (by omega) (by omega)
    have out := L.outside_low (zoned (.data (off/512)) (show off/512 < 140 by omega) here)
    rw [Chunks.chunks_step (by decide) some,← cut,readiLoop]
    refine bmap_there zoned idle (by omega) here _ _ ?_
    refine sat_reads _ _ (by simp [idle]) ?_
    refine (ih (by omega) fun o low high => used o (by omega) (by omega)).bind ?_
    rintro rest _ ⟨rfl,eq⟩
    refine .done ⟨rfl,?_⟩
    subst eq
    have whole : n = m+(n-m) := by omega
    conv => rhs; rw [whole,List.range_add,List.map_append,List.map_map]
    congr 1
    · refine List.map_congr_left fun t member => ?_
      have small := List.mem_range.mp member
      rw [byteAt,show (off+t)/512 = off/512 by omega,show (off+t)%512 = off%512+t by omega,L.view_outside _ out]
    · refine List.map_congr_left fun t _ => ?_
      simp only [Function.comp_apply]
      rw [Nat.add_assoc]

theorem readi_spec (plain : (s.icache ip).din.type ≠ 3)
    (backed : Backed (L.view s.log) (s.icache ip).din) (word : off < 4294967296) (short : n < 4294967296) :
    Sat (readi ip off n) s E fun r next => next = s ∧
      r = if (s.icache ip).din.size < off ∨ 4294967296 ≤ off+n then none
        else some ((List.range (min n ((s.icache ip).din.size-off))).map fun t => byteAt (L.view s.log) (s.icache ip).din (off+t)) := by
  have top := backed.size
  rw [readi,sat_inode,if_neg plain]
  have wraps : (off+n) % 4294967296 < off ↔ 4294967296 ≤ off+n := by omega
  simp only [wraps]
  by_cases beyond : (s.icache ip).din.size < off ∨ 4294967296 ≤ off+n
  · simp only [if_pos beyond]
    exact .done ⟨rfl,rfl⟩
  simp only [if_neg beyond]
  rw [Nat.mod_eq_of_lt (show off+n < 4294967296 by omega)]
  have clipped : (if (s.icache ip).din.size < off+n then (s.icache ip).din.size-off else n) = min n ((s.icache ip).din.size-off) := by
    split <;> omega
  rw [clipped]
  refine (readiLoop_spec zoned idle off _ (by omega) fun o low high => ?_).bind ?_
  · exact (backed.data (o/512) (by omega)).mpr (by omega)
  · rintro bytes _ ⟨rfl,rfl⟩
    exact .done ⟨rfl,rfl⟩

end

theorem moved_write (owned : Owned L (L.view s.log) dn) (same : dn i = (s.icache ip).din) (bound : k < 140)
    (here : addrOf (L.view s.log) (dn i) (.data k) = b) (some : b ≠ 0) (wrote : Wrote L s.log log b data) :
    Moved L s { s with log := log } dn dn ip i fun j => j = k := by
  subst here
  have zone := owned.zone i (.data k) bound some
  have places : ∀ j t, addrOf (L.view log) (dn j) t = addrOf (L.view s.log) (dn j) t := fun j t => by
    rw [wrote.view]
    exact addrOf_write data (owned.apart.ind bound some j) t
  have low : ∀ x < L.data, L.view log x = L.view s.log x := fun x small => by
    rw [wrote.view,update_of_ne (by omega)]
  have order := L.order
  refine ⟨wrote.sane,wrote.busy,owned.carried (low 1 (by unfold Layout.data; omega)) (fun x small => (marked_low low small).mpr) places owned.fits,
    ⟨log,(s.icache ip).din.addrs,by rw [update_eq_self]⟩,by rw [← same,update_eq_self],fun j l _ _ => places j _,
    fun j l small out used => ?_,fun j l _ _ vacant => (places j _).trans vacant,fun _ => rfl,fun x small => low x ?_,fun x member => ?_⟩
  · rw [wrote.view,update_of_ne]
    intro eq
    obtain ⟨rfl,slot⟩ := owned.apart j i (.data l) (.data k) small bound used eq
    cases slot
    exact out ⟨rfl,rfl⟩
  · unfold Layout.data; omega
  · rcases (wrote.lh x).mp member with old | eq
    · exact .inl old
    · exact .inr (.inr (.inr ⟨k,bound,rfl,by rw [eq]; exact (places i _).symm,eq ▸ some⟩))

-- writei has come to offset o, through the places ks.
structure Going (L : Layout) (s now : State) (dn after : Nat → Dinode) (ip i : Nat) (src : Bytes.Store) (off o : Nat) (ks : List Nat) : Prop where
  moved : Moved L s now dn after ip i fun k => k ∈ ks
  backed : Backed (L.view now.log) ((after i).sized (max (dn i).size o))
  bytes : ∀ x < max (dn i).size o, byteAt (L.view now.log) (after i) x =
    if off ≤ x ∧ x < o then src (x-off) else byteAt (L.view s.log) (dn i) x
  count : (spare L (L.view now.log)).card + need (max (dn i).size o) = (spare L (L.view s.log)).card + need (dn i).size

-- With no more than n data blocks, a panic for lack of room in the log can leave the state
-- here: logged are bitmap blocks, the indirect block, the block of the inode and they.
def Jammed (L : Layout) (s : State) (i n : Nat) (E : Stop → State → Prop) : Prop :=
  ∀ log held icache x (ys : List Nat), ys.length ≤ n →
    (∀ z ∈ log.lh, z ∈ s.log.lh ∨ (∃ b < L.size, z = BBLOCK b L.ninodes) ∨ z = x ∨ z = IBLOCK i ∨ z ∈ ys) → Choked L log →
    E (.panic .tooBigTransaction) { s with log := log, held := held, icache := icache }

theorem Going.crowded (going : Going L s now dn after ip i src off o ks) (jammed : Jammed L s i n E) (few : ks.length < n) :
    Crowded L now after i E := by
  intro log held icache x y ind logged cap
  obtain ⟨log',addrs,rfl⟩ := going.moved.state
  refine jammed log held icache x (y :: ks.map fun k => addrOf (L.view log') (after i) (.data k)) (by simp; omega) (fun z member => ?_) cap
  rcases logged z member with old | bitmap | eq | eq
  · rcases going.moved.logged z old with before | bitmap | ⟨eq,some⟩ | ⟨k,_,at_k,eq,_⟩
    · exact .inl before
    · exact .inr (.inl bitmap)
    · exact .inr (.inr (.inl (eq.trans (ind (eq ▸ some)).symm)))
    · refine .inr (.inr (.inr (.inr (List.mem_cons_of_mem _ ?_))))
      rw [eq]
      exact List.mem_map_of_mem at_k
  · exact .inr (.inl bitmap)
  · exact .inr (.inr (.inl eq))
  · exact .inr (.inr (.inr (.inr (by simp [eq]))))

theorem need_piece (z : Nat) (inside : o ≤ z) (more : 0 < m) (within : m ≤ 512 - o%512) :
    ((if ¬ 512*(o/512) < z then 1 else 0) + if 12 ≤ o/512 ∧ ¬ 6144 < z then 1 else 0) + need z = need (max z (o+m)) := by
  unfold need
  split <;> split <;> split <;> split <;> omega

theorem Moved.jammed (moved : Moved L s now dn after ip i fun k => k ∈ ks) (jammed : Jammed L s i n E) (few : ks.length ≤ n)
    (cap : Choked L now.log) (held : List Nat) (icache : Nat → Inode) : E (.panic .tooBigTransaction) { now with held := held, icache := icache } := by
  obtain ⟨log,addrs,rfl⟩ := moved.state
  refine jammed log held icache ((after i).addrs 12) (ks.map fun k => addrOf (L.view log) (after i) (.data k)) (by simpa using few)
    (fun z member => ?_) cap
  rcases moved.logged z member with before | bitmap | ⟨eq,_⟩ | ⟨k,_,at_k,eq,_⟩
  · exact .inl before
  · exact .inr (.inl bitmap)
  · exact .inr (.inr (.inl eq))
  · refine .inr (.inr (.inr (.inr ?_)))
    rw [eq]
    exact List.mem_map_of_mem at_k

theorem Going.step (going : Going L s now dn after ip i src off o ks) (calm : Calm L s) (idle : s.held = []) (low : off ≤ o)
    (more : 0 < m) (within : m ≤ 512 - o%512) (top : o+m ≤ 71680)
    (enough : need (max (dn i).size (o+m)) ≤ (spare L (L.view s.log)).card + need (dn i).size)
    (jammed : Jammed L s i n E) (few : ks.length < n) (f : Unit → M α) (Q : α → State → Prop)
    (rest : ∀ next after, Going L s next dn after ip i src off (o+m) (o/512 :: ks) → Sat (f ()) next E Q) :
    Sat (do
      let b ← bmap ip (o/512)
      let bp ← bread b
      logWrite b (.ofStore (copy bp.byte (o%512) m fun t => src (o-off+t)))
      brelse b
      f ()) now E Q := by
  obtain ⟨z,at_z⟩ : ∃ z, z = max (dn i).size o := ⟨_,rfl⟩
  have backed := going.backed
  have count := going.count
  have bytes := going.bytes
  rw [← at_z] at backed count bytes
  have bound : o/512 < 140 := by omega
  have later : max (dn i).size (o+m) = max z (o+m) := by omega
  rw [later] at enough
  have vacant : addrOf (L.view now.log) (after i) (.data (o/512)) = 0 ↔ ¬ 512*(o/512) < z := by
    have := backed.data (o/512) bound
    rw [addrOf_size] at this
    exact not_not.symm.trans (not_congr this)
  have missing : (after i).addrs 12 = 0 ↔ ¬ 6144 < z := not_not.symm.trans (not_congr backed.ind)
  have grows := need_piece z (show o ≤ z by omega) more within
  have held : now.held = [] := by
    obtain ⟨_,_,rfl⟩ := going.moved.state
    exact idle
  have sum : ((if addrOf (L.view now.log) (after i) (.data (o/512)) = 0 then 1 else 0) + if 12 ≤ o/512 ∧ (after i).addrs 12 = 0 then 1 else 0) =
      (if ¬ 512*(o/512) < z then 1 else 0) + if 12 ≤ o/512 ∧ ¬ 6144 < z then 1 else 0 := by
    rw [if_congr vacant rfl rfl,if_congr (and_congr_right fun _ => missing) rfl rfl]
  refine (bmap_spec (going.moved.calm calm) going.moved.busy going.moved.owned going.moved.at held bound (by rw [sum]; omega)
    (going.crowded jammed few)).bind ?_
  rintro b mid ⟨found,mapped⟩
  have zone := mapped.moved.owned.zone i (.data (o/512)) bound (by rw [mapped.here]; exact mapped.some)
  rw [mapped.here] at zone
  have out := L.outside_low zone.2
  have both := (going.moved.trans mapped.moved).mono (R := fun k => k ∈ o/512 :: ks)
    fun k either => either.elim (List.mem_cons_of_mem _) fun eq => by simp [eq]
  have still : mid.held = [] := by
    obtain ⟨_,_,rfl⟩ := mapped.moved.state
    exact held
  have word := L.word
  rw [sat_bread,if_neg (by simp [still])]
  refine sat_logWrite _ _ ((both.calm calm).hold out) both.busy out (by omega) (fun cap => both.jammed jammed few cap _ _) fun log wrote => ?_
  rw [sat_brelse]
  simp only [List.erase_cons_head]
  have wrote : Wrote L mid.log log b (.ofStore (copy (mid.log.bread b).byte (o%512) m fun t => src (o-off+t))) := wrote
  have written := moved_write mapped.moved.owned mapped.moved.at bound mapped.here mapped.some wrote
  refine rest _ found ⟨?moved,?backed,?bytes,?count⟩
  case moved =>
    exact (both.trans written).mono fun k either => either.elim id fun eq => by simp [eq]
  case backed =>
    have places : ∀ k < 140, addrOf (L.view log) (found i) (.data k) ≠ 0 ↔ k = o/512 ∨ 512*k < z := by
      intro k small
      have final : addrOf (L.view log) (found i) (.data k) ≠ 0 ↔ addrOf (L.view mid.log) (found i) (.data k) ≠ 0 := by
        rw [wrote.view,addrOf_write _ (by rw [← mapped.here]; exact mapped.moved.owned.apart.ind bound (by rw [mapped.here]; exact mapped.some) i)]
      have before : addrOf (L.view now.log) (after i) (.data k) ≠ 0 ↔ 512*k < z := by
        have := backed.data k small
        rwa [addrOf_size] at this
      rw [final,← before]
      by_cases here : k = o/512
      · subst here
        simp [mapped.here,mapped.some]
      · by_cases used : addrOf (L.view now.log) (after i) (.data k) = 0
        · simp [here,used,mapped.moved.none i k small (fun both => here both.2) used]
        · simp [used,mapped.moved.old i k small used]
    refine ⟨fun k small => ?_,?_,?_⟩
    · rw [addrOf_size,places k small]
      show _ ↔ 512*k < max (dn i).size (o+m)
      omega
    · show (found i).addrs 12 ≠ 0 ↔ 6144 < max (dn i).size (o+m)
      rw [mapped.ind,ne_eq,missing]
      omega
    · have := backed.size
      show max (dn i).size (o+m) ≤ 71680
      change z ≤ 71680 at this
      omega
  case bytes =>
    intro x inside
    have := backed.size
    change z ≤ 71680 at this
    rw [later] at inside
    have small : x/512 < 140 := by omega
    have spread := byteAt_write mapped.moved.owned.apart bound (by rw [mapped.here]; exact mapped.some)
      (.ofStore (copy (mid.log.bread b).byte (o%512) m fun t => src (o-off+t))) small i
    rw [mapped.here,← wrote.view] at spread
    -- Before this block was written.
    have earlier : x < z → byteAt (L.view mid.log) (found i) x = byteAt (L.view now.log) (after i) x := by
      intro old
      have used : addrOf (L.view now.log) (after i) (.data (x/512)) ≠ 0 := by
        have := (backed.data (x/512) small).mpr (show 512*(x/512) < z by omega)
        rwa [addrOf_size] at this
      have place := mapped.moved.old i (x/512) small used
      refine byteAt_congr place ?_
      by_cases here : x/512 = o/512
      · have block := mapped.block
        rw [here] at used place ⊢
        rw [if_neg used,← mapped.here,place] at block
        exact block
      · exact mapped.moved.contents i (x/512) small (fun both => here both.2) used
    rw [spread]
    by_cases here : x/512 = o/512
    · rw [if_pos ⟨rfl,here⟩,Block.byte_ofStore _ (by omega)]
      by_cases new : o ≤ x ∧ x < o+m
      · rw [copy_in _ _ (by omega) (by omega),if_pos (by omega)]
        congr 1
        omega
      have old : x < z := by omega
      have same : (mid.log.bread b).byte (x%512) = byteAt (L.view mid.log) (found i) x := by
        rw [byteAt,here,mapped.here,L.view_outside _ out]
      rw [copy_out _ _ (by omega),same,earlier old,bytes x old]
      exact if_congr (by omega) rfl rfl
    · have old : x < z := by omega
      rw [if_neg fun both => here both.2,earlier old,bytes x old]
      exact if_congr (by omega) rfl rfl
  case count =>
    have right := mapped.count
    rw [sum] at right
    rw [later]
    have same : spare L (L.view log) = spare L (L.view mid.log) := spare_congr fun x small => by
      rw [wrote.view,update_of_ne (by omega)]
    rw [same]
    omega

theorem writeiLoop_spec (calm : Calm L s) (idle : s.held = []) (jammed : Jammed L s i n E) :
    ∀ o k now after ks, Going L s now dn after ip i src off o ks → off ≤ o → o+k ≤ 71680 →
      need (max (dn i).size (o+k)) ≤ (spare L (L.view s.log)).card + need (dn i).size → ks.length + (Chunks.chunks 512 o k).length ≤ n →
      Sat (writeiLoop ip src (Chunks.chunks 512 o k) (o-off)) now E fun _ next =>
        ∃ after ks, ks.length ≤ n ∧ Going L s next dn after ip i src off (o+k) ks := by
  intro o k
  induction o,k using Chunks.chunks_induct (B := 512) (by decide) with
  | zero o =>
    intro now after ks going _ _ _ few
    exact .done ⟨after,ks,by simpa [Chunks.chunks_zero] using few,going⟩
  | step o k m some cut more ih =>
    intro now after ks going low top enough few
    have pieces : Chunks.chunks 512 o k = (o,m) :: Chunks.chunks 512 (o+m) (k-m) := by rw [Chunks.chunks_step (by decide) some,← cut]
    rw [pieces,List.length_cons] at few
    have later := need_mono (show max (dn i).size (o+m) ≤ max (dn i).size (o+k) by omega)
    rw [pieces,writeiLoop]
    refine going.step calm idle low more (by omega) (by omega) (by omega) jammed (by omega)
      (fun _ => writeiLoop ip src (Chunks.chunks 512 (o+m) (k-m)) (o-off+m)) _ fun next after going => ?_
    have rest := ih next after _ going (by omega) (by omega) (by rw [show o+m+(k-m) = o+k by omega]; exact enough)
      (by rw [List.length_cons]; omega)
    rw [show o+m-off = o-off+m by omega,show o+m+(k-m) = o+k by omega] at rest
    exact rest

structure Inodes (L : Layout) (disk next : Disk) : Prop where
  super : next 1 = disk 1
  rest : ∀ x, L.ninodes/8+3 ≤ x → next x = disk x

theorem Inodes.places {disk next : Disk} (inodes : Inodes L disk next) (owned : Owned L disk dn) (j : Nat) (t : Slot) :
    addrOf next (dn j) t = addrOf disk (dn j) t := by
  refine addrOf_congr (fun some => inodes.rest _ ?_) t
  have := (owned.zone j .ind trivial some).1
  unfold Layout.data at this
  simp only [addrOf] at this
  omega

theorem Inodes.owned {disk next : Disk} (inodes : Inodes L disk next) (owned : Owned L disk dn) : Owned L next dn := by
  refine owned.carried inodes.super (fun x _ set => ?_) (inodes.places owned) owned.fits
  unfold Marked
  rwa [inodes.rest _ (by unfold BBLOCK; omega)]

theorem Inodes.byteAt {disk next : Disk} (inodes : Inodes L disk next) (owned : Owned L disk dn) (small : o/512 < 140)
    (used : addrOf disk (dn j) (.data (o/512)) ≠ 0) : byteAt next (dn j) o = byteAt disk (dn j) o := by
  refine byteAt_congr (inodes.places owned j _) (inodes.rest _ ?_)
  have := (owned.zone j (.data (o/512)) small used).1
  unfold Layout.data at this
  omega

theorem Inodes.spare {disk next : Disk} (inodes : Inodes L disk next) : spare L next = spare L disk := by
  ext x
  rw [mem_spare,mem_spare]
  refine and_congr_right fun _ => not_congr ?_
  unfold Marked
  rw [inodes.rest _ (by unfold BBLOCK; omega)]

theorem putDinode_inodes (small : i < L.ninodes) (disk : Disk) (d : Dinode) : Inodes L disk (putDinode disk i d) where
  super := putDinode_other _ _ (by unfold IBLOCK; omega)
  rest x high := putDinode_other _ _ (by unfold IBLOCK; omega)

theorem iblock_lt (L : Layout) (small : i < L.ninodes) : IBLOCK i < L.data := by
  unfold IBLOCK Layout.data
  omega

theorem sat_iupdate (f : Unit → M α) (Q : α → State → Prop) (calm : Calm L s) (busy : s.log.busy = true) (idle : s.held = [])
    (small : (s.icache ip).inum < L.ninodes)
    (full : Choked L s.log → E (.panic .tooBigTransaction) { s with held := [IBLOCK (s.icache ip).inum] })
    (rest : ∀ log, Sane L.area log → log.busy = true → L.view log = putDinode (L.view s.log) (s.icache ip).inum (s.icache ip).din →
      (∀ x, x ∈ log.lh ↔ x ∈ s.log.lh ∨ x = IBLOCK (s.icache ip).inum) → Sat (f ()) { s with log := log } E Q) :
    Sat (iupdate ip >>= f) s E Q := by
  have low := iblock_lt L small
  have out := L.outside_low (lt_data L low)
  have word := L.word
  have := lt_data L low
  rw [iupdate,sat_bind,sat_inode,sat_bread,if_neg (by simp [idle])]
  refine sat_logWrite _ _ (calm.hold out) busy out (by omega) (fun cap => by rw [idle]; exact full cap) fun log wrote => ?_
  rw [brelse,sat_modify]
  simp only [List.erase_cons_head]
  refine rest log wrote.sane wrote.busy ?_ wrote.lh
  rw [wrote.view,putDinode,L.view_outside _ out]

structure Files (L : Layout) (s : State) (dn : Nat → Dinode) : Prop where
  calm : Calm L s
  owned : Owned L (L.view s.log) dn
  backed : ∀ j, Backed (L.view s.log) (dn j)
  copies : ∀ j < L.ninodes, dinodeAt (L.view s.log) j = dn j

structure Slotted (L : Layout) (s : State) (dn : Nat → Dinode) (ip i : Nat) : Prop where
  inum : (s.icache ip).inum = i
  small : i < L.ninodes
  din : dn i = (s.icache ip).din

structure Written (L : Layout) (s next : State) (dn after : Nat → Dinode) (ip i : Nat) (src : Bytes.Store) (off n : Nat) : Prop where
  files : Files L next after
  busy : next.log.busy = true
  state : ∃ log addrs, next = { s with
    log := log, icache := Function.update s.icache ip { s.icache ip with din := (withAddrs (s.icache ip).din addrs).sized (max (dn i).size (off+n)) } }
  mine : after = Function.update dn i (next.icache ip).din
  bytes : ∀ x < max (dn i).size (off+n), byteAt (L.view next.log) (after i) x =
    if off ≤ x ∧ x < off+n then src (x-off) else byteAt (L.view s.log) (dn i) x
  others : ∀ j, j ≠ i → ∀ x < (dn j).size, byteAt (L.view next.log) (after j) x = byteAt (L.view s.log) (dn j) x
  count : (spare L (L.view next.log)).card + need (max (dn i).size (off+n)) = (spare L (L.view s.log)).card + need (dn i).size
  logged : ∃ (x : Nat) (ys : List Nat), ys.length ≤ (Chunks.chunks 512 off n).length ∧ ∀ z ∈ next.log.lh,
    z ∈ s.log.lh ∨ (∃ b < L.size, z = BBLOCK b L.ninodes) ∨ z = x ∨ z = IBLOCK i ∨ z ∈ ys

theorem Written.at (written : Written L s next dn after ip i src off n) : after i = (next.icache ip).din := by
  rw [written.mine,update_self]

theorem sized_self (d : Dinode) (same : n = d.size) : d.sized n = d := by rw [same]; rfl

theorem Going.start (files : Files L s dn) (busy : s.log.busy = true) (slot : Slotted L s dn ip i) (low : off ≤ (dn i).size) :
    Going L s s dn dn ip i src off off [] where
  moved := .refl files.calm busy files.owned slot.din
  backed := by
    rw [sized_self _ (Nat.max_eq_left low)]
    exact files.backed i
  bytes x _ := by rw [if_neg (by omega)]
  count := by rw [Nat.max_eq_left low]

theorem Going.still (going : Going L s now dn after ip i src off o ks) (files : Files L s dn) (slot : Slotted L s dn ip i)
    (inside : o ≤ (dn i).size) : after i = dn i := by
  obtain ⟨addrs,eq⟩ := going.moved.din
  have backed := going.backed
  rw [Nat.max_eq_left inside] at backed
  have mine := files.backed i
  have fits := going.moved.owned.fits i
  have before := files.owned.fits i
  have shape : after i = { dn i with addrs := addrs } := by rw [going.moved.at,eq,slot.din]
  have same : ∀ k, (after i).addrs k = (dn i).addrs k := by
    intro k
    by_cases direct : k < 12
    · have one : addrOf (L.view now.log) (after i) (.data k) = (after i).addrs k := by simp [addrOf,direct]
      have two : addrOf (L.view s.log) (dn i) (.data k) = (dn i).addrs k := by simp [addrOf,direct]
      have first := backed.data k (by omega)
      have second := mine.data k (by omega)
      rw [addrOf_size,one] at first
      rw [two] at second
      by_cases used : 512*k < (dn i).size
      · rw [← one,← two]
        exact going.moved.old i k (by omega) (by rw [two]; exact second.mpr used)
      rw [not_not.mp (mt first.mp used),not_not.mp (mt second.mp used)]
    · by_cases ind : k = 12
      · subst ind
        by_cases used : 6144 < (dn i).size
        · exact going.moved.ind (mine.ind.mpr used)
        exact (not_not.mp (mt backed.ind.mp used)).trans (not_not.mp (mt mine.ind.mp used)).symm
      · rw [fits.few k (by omega),before.few k (by omega)]
  have funs : addrs = (dn i).addrs := by
    funext k
    rw [← same k,shape]
  rw [shape,funs]

theorem writei_refused (plain : (s.icache ip).din.type ≠ 3) (word : off < 4294967296) (short : n < 4294967296)
    (bad : (s.icache ip).din.size < off ∨ 4294967296 ≤ off+n ∨ 71680 < off+n) :
    Sat (writei ip src off n) s E fun r next => r = none ∧ next = s := by
  rw [writei,sat_inode,if_neg plain]
  split
  · exact .done ⟨rfl,rfl⟩
  split
  · exact .done ⟨rfl,rfl⟩
  · omega

theorem Owned.resize {disk : Disk} (owned : Owned L disk dn) (word : n < 4294967296) : Owned L disk (update dn i ((dn i).sized n)) := by
  have places : ∀ j t, addrOf disk (update dn i ((dn i).sized n) j) t = addrOf disk (dn j) t := by
    intro j t
    by_cases here : j = i
    · subst here; rw [update_self,addrOf_size]
    · rw [update_of_ne here]
  refine owned.carried rfl (fun _ _ set => set) places fun j => ?_
  by_cases here : j = i
  · subst here
    rw [update_self]
    exact { owned.fits j with size := word }
  · rw [update_of_ne here]; exact owned.fits j

theorem Going.written (going : Going L s now dn after ip i src off (off+n) ks) (files : Files L s dn) (slot : Slotted L s dn ip i)
    (top : off+n ≤ 71680) (few : ks.length ≤ (Chunks.chunks 512 off n).length) (sane : Sane L.area log) (busy : log.busy = true)
    (inodes : Inodes L (L.view now.log) (L.view log))
    (copy : dinodeAt (L.view log) i = (after i).sized (max (dn i).size (off+n)))
    (rest : ∀ j < L.ninodes, j ≠ i → dinodeAt (L.view log) j = dinodeAt (L.view now.log) j)
    (logged : ∀ z ∈ log.lh, z ∈ now.log.lh ∨ z = IBLOCK i) :
    Written L s { now with log := log, icache := update now.icache ip { now.icache ip with din := (after i).sized (max (dn i).size (off+n)) } }
      dn (update after i ((after i).sized (max (dn i).size (off+n)))) ip i src off n := by
  have owned := going.moved.owned
  have size := (files.backed i).size
  have others : ∀ j, j ≠ i → after j = dn j := fun j other => by rw [going.moved.mine,update_of_ne other]
  have places : ∀ j, j ≠ i → ∀ k < 140, addrOf (L.view now.log) (dn j) (.data k) = addrOf (L.view s.log) (dn j) (.data k) := by
    intro j other k small
    rw [← others j other]
    by_cases vacant : addrOf (L.view s.log) (dn j) (.data k) = 0
    · rw [going.moved.none j k small (fun both => other both.1) vacant,others j other,vacant]
    · rw [going.moved.old j k small vacant,others j other]
  refine ⟨⟨⟨sane,?_⟩,inodes.owned (owned.resize (by omega)),fun j => ?_,fun j small => ?_⟩,busy,?_,?_,fun x inside => ?_,fun j other x inside => ?_,?_,?_⟩
  · obtain ⟨_,_,rfl⟩ := going.moved.state
    exact files.calm.held
  · by_cases here : j = i
    · subst here
      rw [update_self]
      refine going.backed.congr fun k small => ?_
      rw [addrOf_size,addrOf_size]
      exact inodes.places owned j _
    rw [update_of_ne here,others j here]
    refine (files.backed j).congr fun k small => ?_
    have := inodes.places owned j (.data k)
    rw [others j here] at this
    rw [this,places j here k small]
  · by_cases here : j = i
    · subst here
      rw [update_self]
      exact copy
    · rw [update_of_ne here,others j here,rest j small here,← files.copies j small]
      refine dinodeAt_congr (going.moved.low _ ?_)
      unfold IBLOCK
      omega
  · obtain ⟨addrs,eq⟩ := going.moved.din
    have mine := going.moved.at
    obtain ⟨_,_,rfl⟩ := going.moved.state
    refine ⟨log,addrs,?_⟩
    have shape : after i = withAddrs (s.icache ip).din addrs := by rw [mine,eq]; rfl
    rw [shape]
    simp [update_idem]
  · simp only [update_self]
    nth_rewrite 1 [going.moved.mine]
    rw [update_idem]
  · rw [update_self,byteAt_size]
    have small : x/512 < 140 := by omega
    have used := (going.backed.data (x/512) small).mpr (show 512*(x/512) < max (dn i).size (off+n) by omega)
    rw [addrOf_size] at used
    rw [inodes.byteAt owned small used]
    exact going.bytes x inside
  · rw [update_of_ne other]
    have top := (files.backed j).size
    have small : x/512 < 140 := by omega
    have used := ((files.backed j).data (x/512) small).mpr (by omega)
    rw [inodes.byteAt owned small (by rw [others j other,places j other _ small]; exact used),others j other]
    exact byteAt_congr (places j other _ small) (going.moved.contents j _ small (fun both => other both.1) used)
  · rw [inodes.spare]
    exact going.count
  · refine ⟨(after i).addrs 12,ks.map fun k => addrOf (L.view now.log) (after i) (.data k),by simpa using few,fun z member => ?_⟩
    rcases logged z member with old | eq
    · rcases going.moved.logged z old with before | bitmap | ⟨eq,_⟩ | ⟨k,_,at_k,eq,_⟩
      · exact .inl before
      · exact .inr (.inl bitmap)
      · exact .inr (.inr (.inl eq))
      · refine .inr (.inr (.inr (.inr ?_)))
        rw [eq]
        exact List.mem_map_of_mem at_k
    · exact .inr (.inr (.inr (.inl eq)))

theorem writei_spec (files : Files L s dn) (busy : s.log.busy = true) (slot : Slotted L s dn ip i) (idle : s.held = [])
    (plain : (dn i).type ≠ 3) (low : off ≤ (dn i).size) (top : off+n ≤ 71680)
    (enough : need (max (dn i).size (off+n)) ≤ (spare L (L.view s.log)).card + need (dn i).size)
    (jammed : Jammed L s i (Chunks.chunks 512 off n).length E) :
    Sat (writei ip src off n) s E fun r next => r = some n ∧ ∃ after, Written L s next dn after ip i src off n := by
  have din := slot.din
  rw [writei,sat_inode,← din,if_neg plain,Nat.mod_eq_of_lt (by omega),if_neg (by omega),if_neg (by omega)]
  have loop : Sat (writeiLoop ip src (Chunks.chunks 512 off n) (off-off)) s E fun _ next =>
      ∃ after ks, ks.length ≤ (Chunks.chunks 512 off n).length ∧ Going L s next dn after ip i src off (off+n) ks :=
    writeiLoop_spec files.calm idle jammed off n s dn [] (.start files busy slot low) .refl top enough (by simp)
  rw [Nat.sub_self] at loop
  refine loop.bind ?_
  rintro _ now ⟨after,ks,few,going⟩
  have inum : (now.icache ip).inum = i := by
    obtain ⟨_,_,rfl⟩ := going.moved.state
    simpa using slot.inum
  have held : now.held = [] := by
    obtain ⟨_,_,rfl⟩ := going.moved.state
    exact idle
  have mine := going.moved.at
  have calm := going.moved.calm files.calm
  split
  · rename_i grows
    have most : max (dn i).size (off+n) = off+n := by omega
    rw [sat_setInode]
    refine sat_iupdate _ _ ⟨calm.sane,calm.held⟩ going.moved.busy held (by simpa [inum] using slot.small)
      (fun cap => going.moved.jammed jammed few cap _ _) fun log sane busy view logged => ?_
    rw [sat_pure]
    simp only [update_self,inum,← mine] at view logged
    have fits : ((after i).sized (off+n)).Fits := { going.moved.owned.fits i with size := show off+n < 4294967296 by omega }
    have written := going.written files slot top few sane busy (by rw [view]; exact putDinode_inodes slot.small _ _)
      (by rw [view,most]; exact dinodeAt_putDinode _ _ fits) (fun j _ other => by rw [view]; exact dinodeAt_putDinode_other _ _ other)
      (fun z member => (logged z).mp member)
    rw [most,mine] at written
    exact ⟨rfl,_,written⟩
  · rename_i inside
    have most : max (dn i).size (off+n) = (dn i).size := by omega
    have still := going.still files slot (by omega)
    rw [sat_pure]
    have same : dinodeAt (L.view now.log) i = dinodeAt (L.view s.log) i := by
      refine dinodeAt_congr (going.moved.low _ ?_)
      have := slot.small
      unfold IBLOCK
      omega
    have written := going.written files slot top few calm.sane going.moved.busy ⟨rfl,fun _ _ => rfl⟩
      (by rw [same,most,files.copies i slot.small,still]; rfl) (fun _ _ _ => rfl) (fun z member => .inl member)
    rw [most,still,sized_self _ rfl] at written
    have gone : ({ now with icache := update now.icache ip { now.icache ip with din := dn i } } : State) = now := by
      rw [← still,mine,update_eq_self]
    rw [gone] at written
    exact ⟨rfl,_,written⟩

end
end Xv6.Fs.Core
