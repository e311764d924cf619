import Xv6.Fs.Alloc
import Mathlib.Data.Finset.Card

namespace Xv6.Fs.Core
open Function (update update_eq_self update_eq_self_iff update_idem update_of_ne update_self)
open Bytes Exec LogCrash

-- bmap: a file gets the block it asks for, and nothing else moves.

instance (L : Layout) (disk : Disk) (b : Nat) : Decidable (Marked L disk b) := inferInstanceAs (Decidable (_ = _))

-- The blocks of the inodes dn: each in one place, in the data area, and marked.
structure Owned (L : Layout) (disk : Disk) (dn : Nat → Dinode) : Prop where
  super : Super L disk
  apart : Apart disk dn
  zone : ∀ i t, t.Valid → addrOf disk (dn i) t ≠ 0 → L.data ≤ addrOf disk (dn i) t ∧ addrOf disk (dn i) t < L.size-L.nlog
  marked : ∀ i t, t.Valid → addrOf disk (dn i) t ≠ 0 → Marked L disk (addrOf disk (dn i) t)
  fits : ∀ i, (dn i).Fits

def spare (L : Layout) (disk : Disk) : Finset Nat := (Finset.range (L.size-L.nlog)).filter fun b => ¬ Marked L disk b

section
variable {L : Layout} {disk next : Disk} {dn after : Nat → Dinode}

theorem mem_spare : b ∈ spare L disk ↔ b < L.size-L.nlog ∧ ¬ Marked L disk b := by
  rw [spare,Finset.mem_filter,Finset.mem_range]

theorem allocated_self (L : Layout) (disk : Disk) (b : Nat) : allocated L disk b b = .zero := update_self ..

theorem allocated_other (L : Layout) (disk : Disk) (one : x ≠ b) (two : x ≠ BBLOCK b L.ninodes) : allocated L disk b x = disk x := by
  rw [allocated,update_of_ne one,update_of_ne two]

theorem marked_allocated (data : L.data ≤ b) (small : x < L.size) :
    Marked L (allocated L disk b) x ↔ x = b ∨ Marked L disk x := by
  have bitmap := bblock_lt L small
  unfold Marked
  rw [allocated,update_of_ne (by omega)]
  by_cases here : BBLOCK x L.ninodes = BBLOCK b L.ninodes
  · rw [here,update_self,bitSet_setBit _ _ (by omega)]
    have : x%4096 = b%4096 ↔ x = b := by
      unfold BBLOCK at here
      omega
    rw [this]
  · rw [update_of_ne here]
    have : x ≠ b := fun same => here (by rw [same])
    simp [this]

theorem spare_allocated (data : L.data ≤ b) : spare L (allocated L disk b) = (spare L disk).erase b := by
  ext x
  rw [mem_spare,Finset.mem_erase,mem_spare]
  constructor
  · rintro ⟨small,clear⟩
    rw [marked_allocated data (by omega)] at clear
    exact ⟨fun same => clear (.inl same),small,fun set => clear (.inr set)⟩
  · rintro ⟨other,small,clear⟩
    refine ⟨small,?_⟩
    rw [marked_allocated data (by omega)]
    rintro (same | set)
    · exact other same
    · exact clear set

theorem Owned.places (owned : Owned L disk dn) (data : L.data ≤ b) (high : b < L.size-L.nlog) (clear : ¬ Marked L disk b) (i : Nat) (t : Slot) :
    addrOf (allocated L disk b) (dn i) t = addrOf disk (dn i) t := by
  refine addrOf_congr (fun some => allocated_other L disk ?_ ?_) t
  · rintro rfl
    exact clear (owned.marked i .ind trivial some)
  · have zone := (owned.zone i .ind trivial some).1
    have bitmap := bblock_lt L (show b < L.size by omega)
    simp only [addrOf] at zone
    omega

theorem Owned.free (owned : Owned L disk dn) (data : L.data ≤ b) (clear : ¬ Marked L disk b) : Free disk dn b := by
  intro i t valid same
  have positive : 0 < L.data := by unfold Layout.data; omega
  exact clear (same ▸ owned.marked i t valid (by omega))

-- The same places on another disk, and no mark less.
theorem Owned.carried (owned : Owned L disk dn) (first : next 1 = disk 1) (marks : ∀ x < L.size, Marked L disk x → Marked L next x)
    (places : ∀ j t, addrOf next (after j) t = addrOf disk (dn j) t) (fits : ∀ j, (after j).Fits) : Owned L next after := by
  refine ⟨⟨by rw [first]; exact owned.super.size,by rw [first]; exact owned.super.ninodes,fun x low => ?_⟩,fun j l t u => ?_,fun j t => ?_,
    fun j t valid => ?_,fits⟩
  · have := lt_data L low
    exact marks x (by omega) (owned.super.low x low)
  · rw [places,places]
    exact owned.apart j l t u
  · rw [places]
    exact owned.zone j t
  · rw [places]
    intro some
    have := (owned.zone j t valid some).2
    exact marks _ (by omega) (owned.marked j t valid some)

theorem marked_low (low : ∀ x < L.data, next x = disk x) (small : x < L.size) : Marked L next x ↔ Marked L disk x := by
  unfold Marked
  rw [low _ (bblock_lt L small)]

theorem Owned.taken (owned : Owned L disk dn) (data : L.data ≤ b) (high : b < L.size-L.nlog) (clear : ¬ Marked L disk b) :
    Owned L (allocated L disk b) dn := by
  refine owned.carried (allocated_other L disk ?_ ?_) (fun x small set => (marked_allocated data small).mpr (.inr set)) (owned.places data high clear)
    owned.fits
  · unfold Layout.data at data; omega
  · unfold BBLOCK; omega

theorem Owned.place (owned : Owned L disk dn) (placed : Placed disk next dn after i t b) (free : Free disk dn b)
    (data : L.data ≤ b) (high : b < L.size-L.nlog) (set : Marked L disk b) (low : ∀ x < L.data, next x = disk x) (fits : ∀ j, (after j).Fits) :
    Owned L next after := by
  have same : ∀ x < L.size, Marked L next x ↔ Marked L disk x := fun x => marked_low low
  have order := L.order
  have first : next 1 = disk 1 := low 1 (by unfold Layout.data; omega)
  refine ⟨⟨by rw [first]; exact owned.super.size,by rw [first]; exact owned.super.ninodes,fun x small => ?_⟩,owned.apart.place placed free,
    fun j u valid => ?_,fun j u valid => ?_,fits⟩
  · have := lt_data L small
    exact (same x (by omega)).mpr (owned.super.low x small)
  · rw [placed.at j valid]
    split
    · exact fun _ => ⟨data,high⟩
    · exact owned.zone j u valid
  · rw [placed.at j valid]
    split
    · exact fun _ => (same b (by omega)).mpr set
    · intro some
      have := (owned.zone j u valid some).2
      exact (same _ (by omega)).mpr (owned.marked j u valid some)

end

-- The inode in slot ip, of number i, has got blocks for some of the places P and perhaps an
-- indirect block. Nothing else has changed but the contents of blocks at P.
structure Moved (L : Layout) (s next : State) (dn after : Nat → Dinode) (ip i : Nat) (P : Nat → Prop) : Prop where
  sane : Sane L.area next.log
  busy : next.log.busy = true
  owned : Owned L (L.view next.log) after
  state : ∃ log addrs, next = { s with
    log := log, icache := Function.update s.icache ip { s.icache ip with din := { (s.icache ip).din with addrs := addrs } } }
  mine : after = Function.update dn i (next.icache ip).din
  old : ∀ j k, k < 140 → addrOf (L.view s.log) (dn j) (.data k) ≠ 0 →
    addrOf (L.view next.log) (after j) (.data k) = addrOf (L.view s.log) (dn j) (.data k)
  contents : ∀ j k, k < 140 → ¬ (j = i ∧ P k) → addrOf (L.view s.log) (dn j) (.data k) ≠ 0 →
    L.view next.log (addrOf (L.view s.log) (dn j) (.data k)) = L.view s.log (addrOf (L.view s.log) (dn j) (.data k))
  none : ∀ j k, k < 140 → ¬ (j = i ∧ P k) → addrOf (L.view s.log) (dn j) (.data k) = 0 → addrOf (L.view next.log) (after j) (.data k) = 0
  ind : (dn i).addrs 12 ≠ 0 → (after i).addrs 12 = (dn i).addrs 12
  low : ∀ x < L.ninodes/8+3, L.view next.log x = L.view s.log x
  logged : ∀ x ∈ next.log.lh, x ∈ s.log.lh ∨ (∃ b < L.size, x = BBLOCK b L.ninodes) ∨ (x = (after i).addrs 12 ∧ x ≠ 0) ∨
    ∃ k < 140, P k ∧ x = addrOf (L.view next.log) (after i) (.data k) ∧ x ≠ 0

section
variable {L : Layout} {s mid next : State} {dn now after : Nat → Dinode} {P R : Nat → Prop}

theorem Moved.refl (calm : Calm L s) (busy : s.log.busy = true) (owned : Owned L (L.view s.log) dn) (same : dn i = (s.icache ip).din) :
    Moved L s s dn dn ip i P where
  sane := calm.sane
  busy := busy
  owned := owned
  state := ⟨s.log,(s.icache ip).din.addrs,by rw [update_eq_self]⟩
  mine := by rw [← same,update_eq_self]
  old _ _ _ _ := rfl
  contents _ _ _ _ _ := rfl
  none _ _ _ _ vacant := vacant
  ind _ := rfl
  low _ _ := rfl
  logged _ member := .inl member

section
variable (moved : Moved L s next dn after ip i P)
include moved

theorem Moved.calm (calm : Calm L s) : Calm L next := by
  obtain ⟨log,addrs,rfl⟩ := moved.state
  exact ⟨moved.sane,calm.held⟩

theorem Moved.din : ∃ addrs, (next.icache ip).din = { (s.icache ip).din with addrs := addrs } := by
  obtain ⟨log,addrs,rfl⟩ := moved.state
  exact ⟨addrs,by simp⟩

theorem Moved.at : after i = (next.icache ip).din := by
  rw [moved.mine,update_self]

end

theorem Moved.trans (one : Moved L s mid dn now ip i P) (two : Moved L mid next now after ip i R) :
    Moved L s next dn after ip i fun k => P k ∨ R k where
  sane := two.sane
  busy := two.busy
  owned := two.owned
  state := by
    obtain ⟨log,addrs,rfl⟩ := one.state
    obtain ⟨log,addrs,rfl⟩ := two.state
    exact ⟨log,addrs,by simp [update_idem]⟩
  mine := by
    rw [two.mine]
    nth_rewrite 1 [one.mine]
    rw [update_idem]
  old j k small used := by
    have first := one.old j k small used
    rw [two.old j k small (by rw [first]; exact used),first]
  contents j k small out used := by
    have first := one.old j k small used
    have later := two.contents j k small (fun both => out ⟨both.1,.inr both.2⟩) (by rw [first]; exact used)
    rw [first] at later
    exact later.trans (one.contents j k small (fun both => out ⟨both.1,.inl both.2⟩) used)
  none j k small out vacant :=
    two.none j k small (fun both => out ⟨both.1,.inr both.2⟩) (one.none j k small (fun both => out ⟨both.1,.inl both.2⟩) vacant)
  ind some := by
    have first := one.ind some
    rw [two.ind (by rw [first]; exact some),first]
  low x small := (two.low x small).trans (one.low x small)
  logged x member := by
    rcases two.logged x member with before | bitmap | ind | ⟨k,small,at_k,eq,some⟩
    · rcases one.logged x before with old | bitmap | ⟨eq,some⟩ | ⟨k,small,at_k,eq,some⟩
      · exact .inl old
      · exact .inr (.inl bitmap)
      · exact .inr (.inr (.inl ⟨by rw [two.ind (by rw [← eq]; exact some),eq],some⟩))
      · exact .inr (.inr (.inr ⟨k,small,.inl at_k,by rw [two.old i k small (by rw [← eq]; exact some)]; exact eq,some⟩))
    · exact .inr (.inl bitmap)
    · exact .inr (.inr (.inl ind))
    · exact .inr (.inr (.inr ⟨k,small,.inr at_k,eq,some⟩))

theorem Moved.mono (moved : Moved L s next dn after ip i P) (wider : ∀ k, P k → R k) : Moved L s next dn after ip i R :=
  { moved with
    contents := fun j k small out => moved.contents j k small fun both => out ⟨both.1,wider k both.2⟩
    none := fun j k small out => moved.none j k small fun both => out ⟨both.1,wider k both.2⟩
    logged := fun x member => (moved.logged x member).imp_right fun more => more.imp_right fun more => more.imp_right
      fun ⟨k,small,at_k,eq⟩ => ⟨k,small,wider k at_k,eq⟩ }

theorem Took.isFree (took : Took L s.log log b) (owned : Owned L (L.view s.log) dn) : Free (allocated L (L.view s.log) b) dn b := by
  intro j u ok
  rw [owned.places took.low took.high took.free]
  exact owned.free took.low took.free j u ok

def withAddrs (d : Dinode) (addrs : Nat → Nat) : Dinode := { d with addrs := addrs }

def State.gave (s : State) (log : Xv6.Store) (ip : Nat) (addrs : Nat → Nat) : State :=
  { s with log := log, icache := Function.update s.icache ip { s.icache ip with din := withAddrs (s.icache ip).din addrs } }

theorem Took.moved (took : Took L s.log log b) (owned : Owned L (L.view s.log) dn) (same : dn i = (s.icache ip).din)
    (sane : Sane L.area final) (busy : final.busy = true)
    (placed : Placed (allocated L (L.view s.log) b) (L.view final) dn (update dn i (withAddrs (s.icache ip).din addrs)) i t b)
    (valid : t.Valid) (vacant : addrOf (L.view s.log) (dn i) t = 0) (low : ∀ x < L.data, L.view final x = allocated L (L.view s.log) b x)
    (data : ∀ j k, k < 140 → addrOf (L.view s.log) (dn j) (.data k) ≠ 0 →
      L.view final (addrOf (L.view s.log) (dn j) (.data k)) = L.view s.log (addrOf (L.view s.log) (dn j) (.data k)))
    (fits : (withAddrs (s.icache ip).din addrs).Fits) (ind : (dn i).addrs 12 ≠ 0 → addrs 12 = (dn i).addrs 12)
    (logged : ∀ x ∈ final.lh, x ∈ s.log.lh ∨ x = BBLOCK b L.ninodes ∨ x = b ∨ (x = addrs 12 ∧ x ≠ 0))
    (covers : ∀ k, t = .data k → P k) (whole : t = .ind → addrs 12 = b) :
    Moved L s (s.gave final ip addrs) dn (update dn i (withAddrs (s.icache ip).din addrs)) ip i P := by
  have positive : 0 < L.data := by unfold Layout.data; omega
  have clear := took.free
  have places := owned.places took.low took.high clear
  have taken := owned.taken took.low took.high clear
  have set : Marked L (allocated L (L.view s.log) b) b := (marked_allocated took.low (by have := took.high; omega)).mpr (.inl rfl)
  have at_ : ∀ j u, u.Valid → addrOf (L.view final) (update dn i (withAddrs (s.icache ip).din addrs) j) u =
      if j = i ∧ u = t then b else addrOf (L.view s.log) (dn j) u := fun j u ok => by rw [placed.at j ok,places]
  refine ⟨sane,busy,?_,⟨final,addrs,rfl⟩,?_,fun j k small used => ?_,fun j k small _ used => data j k small used,fun j k small out none => ?_,?_,
    fun x small => ?_,fun x member => ?_⟩
  · refine taken.place placed (took.isFree owned) took.low took.high set low fun j => ?_
    by_cases here : j = i
    · subst here
      rw [update_self]; exact fits
    · rw [update_of_ne here]; exact owned.fits j
  · simp [State.gave]
  · show addrOf (L.view final) _ _ = _
    rw [at_ j (.data k) small,if_neg]
    rintro ⟨rfl,rfl⟩
    exact used vacant
  · show addrOf (L.view final) _ _ = _
    rw [at_ j (.data k) small,if_neg]
    · exact none
    · rintro ⟨rfl,slot⟩
      exact out ⟨rfl,covers k slot.symm⟩
  · intro some
    rw [update_self]
    exact ind some
  · show L.view final x = _
    have := took.low
    rw [low x (by unfold Layout.data; omega)]
    refine allocated_other L _ ?_ ?_
    · unfold Layout.data at this; omega
    · unfold BBLOCK; omega
  · rcases logged x member with old | bitmap | rfl | ⟨eq,some⟩
    · exact .inl old
    · exact .inr (.inl ⟨b,by have := took.high; omega,bitmap⟩)
    · have nonzero : x ≠ 0 := by have := took.low; omega
      cases slot : t with
      | ind => exact .inr (.inr (.inl ⟨by rw [update_self]; exact (whole slot).symm,nonzero⟩))
      | data k =>
        subst slot
        refine .inr (.inr (.inr ⟨k,valid,covers k rfl,?_,nonzero⟩))
        exact placed.here.symm
    · exact .inr (.inr (.inl ⟨by rw [update_self]; exact eq,some⟩))

theorem Took.others (took : Took L s.log log b) (owned : Owned L (L.view s.log) dn) (valid : u.Valid)
    (used : addrOf (L.view s.log) (dn j) u ≠ 0) :
    allocated L (L.view s.log) b (addrOf (L.view s.log) (dn j) u) = L.view s.log (addrOf (L.view s.log) (dn j) u) := by
  refine allocated_other L _ ?_ ?_
  · intro same
    exact took.free (same ▸ owned.marked j u valid used)
  · have zone := (owned.zone j u valid used).1
    have := bblock_lt L (show b < L.size by have := took.high; omega)
    omega

theorem Took.count (took : Took L s.log log b) (view : spare L (L.view final) = spare L (allocated L (L.view s.log) b)) :
    (spare L (L.view final)).card+1 = (spare L (L.view s.log)).card := by
  rw [view,spare_allocated took.low]
  exact Finset.card_erase_add_one (mem_spare.mpr ⟨took.high,took.free⟩)

theorem spare_congr {disk next : Disk} (same : ∀ x < L.data, next x = disk x) : spare L next = spare L disk := by
  ext x
  rw [mem_spare,mem_spare]
  exact and_congr_right fun small => not_congr (marked_low same (by omega))

theorem exists_spare (some : 0 < (spare L disk).card) : ∃ b, b < L.size-L.nlog ∧ ¬ Marked L disk b := by
  obtain ⟨b,member⟩ := Finset.card_pos.mp some
  exact ⟨b,mem_spare.mp member⟩

theorem withAddrs_setAddr (d : Dinode) (k b : Nat) : withAddrs d (update d.addrs k b) = d.setAddr k b := rfl

structure Mapped (L : Layout) (s next : State) (dn after : Nat → Dinode) (ip i bn b : Nat) : Prop where
  moved : Moved L s next dn after ip i fun k => k = bn
  here : addrOf (L.view next.log) (after i) (.data bn) = b
  some : b ≠ 0
  block : L.view next.log b = if addrOf (L.view s.log) (dn i) (.data bn) = 0 then .zero else L.view s.log b
  ind : (after i).addrs 12 ≠ 0 ↔ 12 ≤ bn ∨ (dn i).addrs 12 ≠ 0
  count : (spare L (L.view next.log)).card + ((if addrOf (L.view s.log) (dn i) (.data bn) = 0 then 1 else 0) +
    if 12 ≤ bn ∧ (dn i).addrs 12 = 0 then 1 else 0) = (spare L (L.view s.log)).card

def Crowded (L : Layout) (s : State) (dn : Nat → Dinode) (i : Nat) (E : Stop → State → Prop) : Prop :=
  ∀ log held icache x y, ((dn i).addrs 12 ≠ 0 → x = (dn i).addrs 12) →
    (∀ z ∈ log.lh, z ∈ s.log.lh ∨ (∃ b < L.size, z = BBLOCK b L.ninodes) ∨ z = x ∨ z = y) → Choked L log →
    E (.panic .tooBigTransaction) { s with log := log, held := held, icache := icache }

theorem Crowded.stop (crowded : Crowded L s dn i E) (ind : (dn i).addrs 12 ≠ 0 → x = (dn i).addrs 12) (small : b < L.size-L.nlog)
    (logged : ∀ z ∈ log.lh, z ∈ s.log.lh ∨ z = BBLOCK b L.ninodes ∨ z = b) (cap : Choked L log) (held : List Nat) :
    E (.panic .tooBigTransaction) { s with log := log, held := held } := by
  refine crowded log held s.icache x b ind (fun z member => ?_) cap
  rcases logged z member with old | bitmap | eq
  · exact .inl old
  · exact .inr (.inl ⟨b,by omega,bitmap⟩)
  · exact .inr (.inr (.inr eq))

section
variable (calm : Calm L s) (busy : s.log.busy = true) (owned : Owned L (L.view s.log) dn) (same : dn i = (s.icache ip).din) (idle : s.held = [])
include calm busy owned same idle

theorem bmap_direct (room : addrOf (L.view s.log) (dn i) (.data bn) = 0 → 0 < (spare L (L.view s.log)).card)
    (crowded : Crowded L s dn i E) (small : bn < 12) :
    Sat (bmap ip bn) s E fun b next => ∃ after, Mapped L s next dn after ip i bn b := by
  have place : addrOf (L.view s.log) (dn i) (.data bn) = (s.icache ip).din.addrs bn := by simp [addrOf,small,same]
  have short : ¬ 12 ≤ bn := by omega
  rw [bmap,if_pos small,sat_inode]
  split
  · rename_i vacant
    have none := place.trans vacant
    obtain ⟨b',high,clear⟩ := exists_spare (room none)
    refine (balloc_spec calm busy owned.super (by simp [idle]) (by simp [idle]) high clear ?_).bind ?_
    · exact fun log held b small logged cap => crowded.stop (fun _ => rfl) small logged cap held
    rintro b _ ⟨log,rfl,took⟩
    rw [sat_setInode,sat_pure]
    have fits := owned.fits i
    rw [same] at fits
    have placed : Placed (allocated L (L.view s.log) b) (L.view log) dn
        (update dn i (withAddrs (s.icache ip).din (update (s.icache ip).din.addrs bn b))) i (.data bn) b := by
      rw [withAddrs_setAddr,← same,took.view]
      have placed := placed_direct (i := i) small .zero (took.isFree owned)
      rwa [update_eq_self_iff.mpr (allocated_self ..).symm] at placed
    have moved := took.moved (P := fun k => k = bn) owned same took.sane took.busy placed (show bn < 140 by omega) none
      (fun x _ => by rw [took.view]) (fun j k bound used => by rw [took.view]; exact took.others owned bound used)
      (fits.setAddr (by omega) (by have := took.high; have := L.word; omega))
      (fun _ => by rw [same]; exact update_of_ne (by omega) _ _)
      (fun x member => ((took.lh x).mp member).imp_right fun more => more.imp_right .inl) (fun k eq => by cases eq; rfl) (fun eq => by cases eq)
    refine ⟨_,moved,placed.here,?_,?_,?_,?_⟩
    · have := took.low
      unfold Layout.data at this
      omega
    · rw [if_pos none,took.view,allocated_self]
    · rw [update_self,same]
      simp [short,withAddrs,update_of_ne (show (12 : Nat) ≠ bn by omega)]
    · rw [if_pos none,if_neg (by omega)]
      exact took.count (by rw [← took.view])
  · rename_i used
    rw [sat_pure]
    have some := place ▸ used
    exact ⟨dn,.refl calm busy owned same,place,used,by rw [if_neg some],by simp [short],by simp [some,short]⟩

theorem withIndirect_spec (room : (dn i).addrs 12 = 0 → 0 < (spare L (L.view s.log)).card) (crowded : Crowded L s dn i E) :
    Sat (withIndirect ip) s E fun ind next => ∃ after, Moved L s next dn after ip i (fun _ => False) ∧ ind = (after i).addrs 12 ∧ ind ≠ 0 ∧
      (spare L (L.view next.log)).card + (if (dn i).addrs 12 = 0 then 1 else 0) = (spare L (L.view s.log)).card := by
  rw [withIndirect,sat_inode]
  split
  · rename_i vacant
    have none : (dn i).addrs 12 = 0 := by rw [same]; exact vacant
    obtain ⟨b',high,clear⟩ := exists_spare (room none)
    refine (balloc_spec calm busy owned.super (by simp [idle]) (by simp [idle]) high clear ?_).bind ?_
    · exact fun log held b small logged cap => crowded.stop (x := b) (fun some => absurd none some) small logged cap held
    rintro b _ ⟨log,rfl,took⟩
    rw [sat_setInode,sat_pure]
    have fits := owned.fits i
    rw [same] at fits
    have placed : Placed (allocated L (L.view s.log) b) (L.view log) dn
        (update dn i (withAddrs (s.icache ip).din (update (s.icache ip).din.addrs 12 b))) i .ind b := by
      rw [withAddrs_setAddr,← same,took.view]
      have placed := placed_ind none (took.isFree owned) fun k _ => Block.ld32_zero (4*k)
      rwa [update_eq_self_iff.mpr (allocated_self ..).symm] at placed
    have moved := took.moved (P := fun _ => False) owned same took.sane took.busy placed trivial none
      (fun x _ => by rw [took.view]) (fun j k bound used => by rw [took.view]; exact took.others owned bound used)
      (fits.setAddr (by omega) (by have := took.high; have := L.word; omega)) (fun some => absurd none some)
      (fun x member => ((took.lh x).mp member).imp_right fun more => more.imp_right .inl) (fun k eq => by cases eq)
      (fun _ => update_self ..)
    refine ⟨_,moved,?_,?_,?_⟩
    · simp [withAddrs]
    · have := took.low
      unfold Layout.data at this
      omega
    · rw [if_pos none]
      exact took.count (by rw [← took.view])
  · rename_i used
    rw [sat_pure]
    have some : (dn i).addrs 12 ≠ 0 := by rw [same]; exact used
    exact ⟨dn,.refl calm busy owned same,by rw [same],used,by rw [if_neg some]; rfl⟩

theorem indirect_spec (room : addrOf (L.view s.log) (dn i) (.data bn) = 0 → 0 < (spare L (L.view s.log)).card)
    (crowded : Crowded L s dn i E) (low : 12 ≤ bn) (high : bn < 140) (some : (dn i).addrs 12 ≠ 0) :
    Sat (indirect ((dn i).addrs 12) (bn-12)) s E fun b next => ∃ after, Mapped L s next dn after ip i bn b := by
  obtain ⟨ind,at_ind⟩ : ∃ ind, (dn i).addrs 12 = ind := ⟨_,rfl⟩
  have zone : L.data ≤ ind ∧ ind < L.size-L.nlog := at_ind ▸ owned.zone i .ind trivial some
  have marked : Marked L (L.view s.log) ind := at_ind ▸ owned.marked i .ind trivial some
  have out := L.outside_low zone.2
  have place : addrOf (L.view s.log) (dn i) (.data bn) = ld32 (s.log.bread ind).byte (4*(bn-12)) := by
    rw [addrOf,if_neg (by omega),if_neg some,at_ind,L.view_outside _ out]
  rw [indirect,sat_bread,if_neg (by simp [idle]),at_ind]
  split
  · rename_i vacant
    have none := place.trans vacant
    obtain ⟨b',below,clear⟩ := exists_spare (room none)
    have held := calm.hold out
    refine (balloc_spec held busy owned.super (by simp [idle,zone.1]) (by simpa [idle] using marked) below clear ?_).bind ?_
    · exact fun log held b small logged cap => crowded.stop (fun _ => at_ind.symm) small logged cap held
    rintro b _ ⟨log,rfl,took⟩
    have took : Took L s.log log b := took
    have word := L.word
    have new := took.high
    refine sat_logWrite _ _ ⟨took.sane,held.held⟩ took.busy out (by omega) (fun cap => ?_) fun final wrote => ?_
    · exact crowded.stop (fun _ => at_ind.symm) new (fun z => (took.lh z).mp) cap _
    rw [sat_brelse,sat_pure]
    simp only [List.erase_cons_head]
    have block : allocated L (L.view s.log) b ind = s.log.bread ind := by
      have := took.others owned (u := .ind) trivial some
      rwa [show addrOf (L.view s.log) (dn i) .ind = ind from at_ind,L.view_outside _ out] at this
    have view : L.view final =
        update (allocated L (L.view s.log) b) ind (.ofStore (st32 (s.log.bread ind).byte (4*(bn-12)) b)) := by
      rw [wrote.view,took.view]
    have still : update dn i (withAddrs (s.icache ip).din (s.icache ip).din.addrs) = dn := by
      rw [show withAddrs (s.icache ip).din (s.icache ip).din.addrs = dn i from same.symm,update_eq_self]
    have placed : Placed (allocated L (L.view s.log) b) (L.view final) dn
        (update dn i (withAddrs (s.icache ip).din (s.icache ip).din.addrs)) i (.data bn) b := by
      have placed := placed_indirect low high (owned.taken took.low took.high took.free).apart some (show b < 4294967296 by omega)
      rw [at_ind,block] at placed
      rw [still,view]
      exact placed
    have below : ∀ x < L.data, L.view final x = allocated L (L.view s.log) b x := fun x small => by
      rw [view,update_of_ne (by omega)]
    have moved := took.moved (P := fun k => k = bn) owned same wrote.sane wrote.busy placed high none below (fun j k bound used => ?_)
      (same ▸ owned.fits i) (fun _ => by rw [same]) (fun x member => ?_) (fun k eq => by cases eq; rfl) (fun eq => by cases eq)
    · have gone : s.gave final ip (s.icache ip).din.addrs = { s with log := final } := by
        unfold State.gave
        rw [show ({ s.icache ip with din := withAddrs (s.icache ip).din (s.icache ip).din.addrs } : Inode) = s.icache ip from rfl,
          update_eq_self]
      rw [gone,still] at moved
      rw [still] at placed
      refine ⟨dn,moved,placed.here,?_,?_,by simp [some],?_⟩
      · have := took.low
        unfold Layout.data at this
        omega
      · have other : b ≠ ind := fun eq => took.free (eq ▸ marked)
        rw [if_pos none,view,update_of_ne other,allocated_self]
      · rw [if_pos none,if_neg fun both => some both.2]
        exact took.count (spare_congr below)
    · have other := owned.apart.ind bound used i
      rw [at_ind] at other
      rw [view,update_of_ne other.symm]
      exact took.others owned bound used
    · rcases (wrote.lh x).mp member with before | eq
      · exact ((took.lh x).mp before).imp_right fun more => more.imp_right .inl
      · refine .inr (.inr (.inr ⟨?_,?_⟩))
        · rw [eq,← at_ind,same]
        · rw [eq,← at_ind]; exact some
  · rename_i used
    rw [sat_brelse,sat_pure]
    have there := place ▸ used
    simp only [List.erase_cons_head]
    exact ⟨dn,.refl calm busy owned same,place,used,by rw [if_neg there],by simp [some],by simp [there,some]⟩

end

theorem Moved.place (moved : Moved L s mid dn now ip i fun _ => False) (bound : k < 140) :
    addrOf (L.view mid.log) (now i) (.data k) = addrOf (L.view s.log) (dn i) (.data k) := by
  by_cases vacant : addrOf (L.view s.log) (dn i) (.data k) = 0
  · rw [vacant]
    exact moved.none i k bound (fun both => both.2) vacant
  · exact moved.old i k bound vacant

theorem Crowded.later (crowded : Crowded L s dn i E) (moved : Moved L s mid dn now ip i fun _ => False) (some : (now i).addrs 12 ≠ 0) :
    Crowded L mid now i E := by
  intro log held icache x y ind logged cap
  have here := ind some
  obtain ⟨log',addrs,rfl⟩ := moved.state
  refine crowded log held icache x y (fun was => by rw [here]; exact moved.ind was) (fun z member => ?_) cap
  rcases logged z member with old | bitmap | eq | eq
  · rcases moved.logged z old with before | bitmap | ⟨eq,_⟩ | ⟨_,_,impossible,_⟩
    · exact .inl before
    · exact .inr (.inl bitmap)
    · exact .inr (.inr (.inl (eq.trans here.symm)))
    · exact impossible.elim
  · exact .inr (.inl bitmap)
  · exact .inr (.inr (.inl eq))
  · exact .inr (.inr (.inr eq))

theorem bmap_spec (calm : Calm L s) (busy : s.log.busy = true) (owned : Owned L (L.view s.log) dn) (same : dn i = (s.icache ip).din)
    (idle : s.held = []) (bound : bn < 140)
    (room : ((if addrOf (L.view s.log) (dn i) (.data bn) = 0 then 1 else 0) + if 12 ≤ bn ∧ (dn i).addrs 12 = 0 then 1 else 0) ≤
      (spare L (L.view s.log)).card)
    (crowded : Crowded L s dn i E) : Sat (bmap ip bn) s E fun b next => ∃ after, Mapped L s next dn after ip i bn b := by
  by_cases direct : bn < 12
  · refine bmap_direct calm busy owned same idle (fun vacant => ?_) crowded direct
    rw [if_pos vacant] at room
    omega
  have high : 12 ≤ bn := by omega
  rw [bmap,if_neg direct,if_pos (by omega)]
  refine (withIndirect_spec calm busy owned same idle (fun none => ?_) crowded).bind ?_
  · rw [if_pos (show 12 ≤ bn ∧ (dn i).addrs 12 = 0 from ⟨high,none⟩)] at room
    omega
  rintro ind mid ⟨now,one,rfl,some,left⟩
  have held : mid.held = [] := by
    obtain ⟨_,_,rfl⟩ := one.state
    exact idle
  refine (indirect_spec (one.calm calm) one.busy one.owned one.at held (fun vacant => ?_) (crowded.later one some) high bound some).post ?_
  · rw [one.place bound] at vacant
    rw [if_pos vacant] at room
    by_cases none : (dn i).addrs 12 = 0
    · rw [if_pos ⟨high,none⟩] at room
      rw [if_pos none] at left
      omega
    · rw [if_neg none] at left
      omega
  rintro b next ⟨after,two⟩
  refine ⟨after,(one.trans two.moved).mono fun k either => either.elim False.elim id,two.here,two.some,?_,?_,?_⟩
  · rw [two.block,one.place bound]
    split
    · rfl
    rename_i used
    have eq : b = addrOf (L.view s.log) (dn i) (.data bn) := by
      rw [← two.here,two.moved.old i bn bound (by rw [one.place bound]; exact used),one.place bound]
    rw [eq]
    exact one.contents i bn bound (fun both => both.2) used
  · have := two.ind
    tauto
  · have right := two.count
    rw [one.place bound,if_neg (show ¬ (12 ≤ bn ∧ (now i).addrs 12 = 0) from fun both => some both.2)] at right
    simp only [high,true_and]
    omega

end
end Xv6.Fs.Core
