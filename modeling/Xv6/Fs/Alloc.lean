import Xv6.Fs.Core
import Xv6.Fs.Journal

namespace Xv6.Fs.Core
open Bytes Exec LogCrash

-- Blocks: what balloc hands out, and what it leaves on the disk.

instance (a : Area) (x : Nat) : Decidable (a.Outside x) := inferInstanceAs (Decidable (_ ∨ _))

-- The numbers in the super block. The metadata end with the bitmap, the log is last.
structure Layout where
  size : Nat
  ninodes : Nat
  nlog : Nat
  log : 0 < nlog
  order : (size-1)/4096 + ninodes/8 + 4 + nlog ≤ size
  word : size < 2147483648

theorem nlog_pos : 0 < 10 := by decide

namespace Layout

def data (L : Layout) : Nat := (L.size-1)/4096 + L.ninodes/8 + 4

def area (L : Layout) : Area := ⟨L.size-L.nlog,L.nlog,L.log⟩

def view (L : Layout) (log : Xv6.Store) : Disk := fun b => if L.area.Outside b then log.bread b else .zero

theorem view_outside (L : Layout) (log : Xv6.Store) (out : L.area.Outside b) : L.view log b = log.bread b := if_pos out

theorem outside_low (L : Layout) (low : b < L.size-L.nlog) : L.area.Outside b := .inl low

end Layout

def Marked (L : Layout) (disk : Disk) (b : Nat) : Prop := bitSet (disk (BBLOCK b L.ninodes)) (b%4096) = true

structure Super (L : Layout) (disk : Disk) : Prop where
  size : (Superblock.load (disk 1)).size = L.size
  ninodes : (Superblock.load (disk 1)).ninodes = L.ninodes
  low : ∀ b < L.data, Marked L disk b

structure Calm (L : Layout) (s : State) : Prop where
  sane : Sane L.area s.log
  held : ∀ b ∈ s.held, L.area.Outside b

section
variable {L : Layout} {s : State} {E : Stop → State → Prop}

theorem sat_bread (f : Block → M α) (Q : α → State → Prop) :
    Sat (bread b >>= f) s E Q ↔ if b ∈ s.held then E .sleeps s else Sat (f (s.log.bread b)) { s with held := b :: s.held } E Q := by
  rw [bread,sat_bind,sat_get_bind]
  split
  · exact sat_stop ..
  · rw [sat_modify_bind]
    exact sat_pure ..

theorem sat_brelse (f : Unit → M α) (Q : α → State → Prop) :
    Sat (brelse b >>= f) s E Q ↔ Sat (f ()) { s with held := s.held.erase b } E Q := sat_modify_bind ..

theorem sat_inode (f : Inode → M α) (Q : α → State → Prop) : Sat (inode ip >>= f) s E Q ↔ Sat (f (s.icache ip)) s E Q := by
  rw [inode,sat_bind,sat_get_bind]
  exact sat_pure ..

theorem sat_setInode (g : Inode → Inode) (f : Unit → M α) (Q : α → State → Prop) :
    Sat (setInode ip g >>= f) s E Q ↔ Sat (f ()) { s with icache := Function.update s.icache ip (g (s.icache ip)) } E Q := sat_modify_bind ..

theorem sat_reads (f : Block → M α) (Q : α → State → Prop) (free : b ∉ s.held) (rest : Sat (f (s.log.bread b)) s E Q) :
    Sat (do let bp ← bread b; brelse b; f bp) s E Q := by
  rw [sat_bread,if_neg free,sat_brelse]
  simpa using rest

theorem sat_readsb (f : Superblock → M α) (Q : α → State → Prop) (free : 1 ∉ s.held)
    (rest : Sat (f (.load (s.log.bread 1))) s E Q) : Sat (readsb >>= f) s E Q := by
  rw [readsb,sat_bind]
  refine sat_reads _ _ free ?_
  rw [sat_pure]
  exact rest

-- The next log_write panics.
structure Choked (L : Layout) (log : Xv6.Store) : Prop where
  sane : Sane L.area log
  full : Full log

structure Wrote (L : Layout) (log next : Xv6.Store) (b : Nat) (data : Block) : Prop where
  sane : Sane L.area next
  busy : next.busy = true
  view : L.view next = Function.update (L.view log) b data
  lh : ∀ x, x ∈ next.lh ↔ x ∈ log.lh ∨ x = b

theorem sat_logWrite (f : Unit → M α) (Q : α → State → Prop) (calm : Calm L s) (busy : s.log.busy = true)
    (out : L.area.Outside b) (word : b < 4294967296) (full : Choked L s.log → E (.panic .tooBigTransaction) s)
    (rest : ∀ log, Wrote L s.log log b data → Sat (f ()) { s with log := log } E Q) : Sat (logWrite b data >>= f) s E Q := by
  rw [logWrite,sat_bind,sat_get_bind]
  by_cases room : Full s.log
  · have stops : s.log.logWrite b data = .error (.panic .tooBigTransaction) := by
      exact if_pos room
    rw [stops]
    exact (sat_stop ..).mpr (full ⟨calm.sane,room⟩)
  obtain ⟨log,ran,written⟩ := logWrite_ok room busy b data
  rw [ran]
  dsimp only
  have free : logBlock s.log b ∉ s.held := by
    intro member
    have within : s.log.lh.idxOf b ≤ s.log.lh.length := List.idxOf_le_length
    have bound := written.room
    have size := calm.sane.size
    refine outside_ne_log (calm.held _ member) (t := s.log.lh.idxOf b+1) (by omega) ?_
    rw [logBlock,calm.sane.start]; rfl
  rw [if_neg free,sat_modify]
  refine rest log ⟨calm.sane.written out word written,written.stays.trans busy,?_,fun x => ?_⟩
  · funext x
    unfold Layout.view
    rw [Function.update_apply]
    by_cases outside : L.area.Outside x
    · rw [if_pos outside,if_pos outside]
      exact calm.sane.bread written x outside
    · rw [if_neg outside,if_neg outside,if_neg (by rintro rfl; exact outside out)]
  · rw [written.lh]
    split
    · rename_i member
      exact ⟨.inl,fun either => either.elim id fun same => same ▸ member⟩
    · simp

theorem Calm.hold (calm : Calm L s) (out : L.area.Outside b) : Calm L { s with held := b :: s.held } where
  sane := calm.sane
  held := List.forall_mem_cons.mpr ⟨out,calm.held⟩

theorem Wrote.calm (wrote : Wrote L s.log log b data) (calm : Calm L s) : Calm L { s with log := log } := ⟨wrote.sane,calm.held⟩

theorem sat_bzero (f : Unit → M α) (Q : α → State → Prop) (calm : Calm L s) (busy : s.log.busy = true) (free : b ∉ s.held)
    (out : L.area.Outside b) (word : b < 4294967296) (full : Choked L s.log → E (.panic .tooBigTransaction) { s with held := b :: s.held })
    (rest : ∀ log, Wrote L s.log log b .zero → Sat (f ()) { s with log := log } E Q) : Sat (bzero b >>= f) s E Q := by
  rw [bzero,sat_bind,sat_bread,if_neg free]
  refine sat_logWrite _ _ (calm.hold out) busy out word full fun log wrote => ?_
  rw [brelse,sat_modify]
  simpa using rest log wrote

theorem bitSet_setBit (bp : Block) (i : Nat) (small : b < 4096) : bitSet (setBit bp i) b = true ↔ b = i ∨ bitSet bp b = true := by
  rw [setBit,bitSet_set _ _ small,bitSet_ofStore _ small]

-- The disk after balloc has marked and cleared b.
def allocated (L : Layout) (disk : Disk) (b : Nat) : Disk :=
  Function.update (Function.update disk (BBLOCK b L.ninodes) (setBit (disk (BBLOCK b L.ninodes)) (b%4096))) b .zero

structure Took (L : Layout) (log next : Xv6.Store) (b : Nat) : Prop where
  low : L.data ≤ b
  high : b < L.size-L.nlog
  free : ¬ Marked L (L.view log) b
  sane : Sane L.area next
  busy : next.busy = true
  view : L.view next = allocated L (L.view log) b
  lh : ∀ x, x ∈ next.lh ↔ x ∈ log.lh ∨ x = BBLOCK b L.ninodes ∨ x = b

theorem bblock_lt (L : Layout) (small : b < L.size) : BBLOCK b L.ninodes < L.data := by
  unfold BBLOCK Layout.data
  have : b/4096 ≤ (L.size-1)/4096 := Nat.div_le_div_right (by omega)
  omega

theorem lt_data (L : Layout) (low : b < L.data) : b < L.size-L.nlog := by
  have := L.order
  unfold Layout.data at low
  omega

theorem marked_iff (disk : Disk) (same : k = b/4096*4096) :
    Marked L disk b ↔ bitSet (disk (BBLOCK k L.ninodes)) (b-k) = true := by
  unfold Marked
  have one : BBLOCK k L.ninodes = BBLOCK b L.ninodes := by
    unfold BBLOCK
    rw [same]
    omega
  have two : b-k = b%4096 := by omega
  rw [one,two]

theorem found_bit (found : (List.range (min 4096 (L.size-4096*k))).find? (fun bi => !bitSet (disk (BBLOCK (4096*k) L.ninodes)) bi) = some bi) :
    bi < 4096 ∧ 4096*k+bi < L.size ∧ ¬ Marked L disk (4096*k+bi) ∧
      ∀ b, 4096*k ≤ b → ¬ Marked L disk b → 4096*k+bi ≤ b := by
  obtain ⟨clear,before,after,split,earlier⟩ := List.find?_eq_some_iff_append.mp found
  have member : bi ∈ List.range (min 4096 (L.size-4096*k)) := by rw [split]; simp
  have small := List.mem_range.mp member
  have at_bi : Marked L disk (4096*k+bi) ↔ bitSet (disk (BBLOCK (4096*k) L.ninodes)) bi = true := by
    rw [marked_iff disk (k := 4096*k) (by omega),Nat.add_sub_cancel_left]
  refine ⟨by omega,by omega,?_,fun b low unmarked => ?_⟩
  · rw [at_bi]
    simpa using clear
  · by_contra less
    have order : before = List.range bi := by
      have length : before.length = bi := by
        have here : (List.range (min 4096 (L.size-4096*k)))[before.length]? = some bi := by rw [split]; simp
        rw [List.getElem?_range (by
          have := congrArg List.length split
          simp only [List.length_range,List.length_append,List.length_cons] at this
          omega)] at here
        exact Option.some.inj here
      have cut : (List.range (min 4096 (L.size-4096*k))).take bi = before := by rw [split,← length,List.take_left]
      rw [← cut,List.take_range]
      congr 1
      omega
    have set := earlier (b-4096*k) (by rw [order]; exact List.mem_range.mpr (by omega))
    apply unmarked
    rw [marked_iff disk (k := 4096*k) (by omega)]
    simpa using set

theorem unfound_bits (none : (List.range (min 4096 (L.size-4096*k))).find? (fun bi => !bitSet (disk (BBLOCK (4096*k) L.ninodes)) bi) = none)
    (low : 4096*k ≤ b) (high : b < 4096*(k+1)) (small : b < L.size) : Marked L disk b := by
  rw [marked_iff disk (k := 4096*k) (by omega)]
  have set := List.find?_eq_none.mp none (b-4096*k) (List.mem_range.mpr (by omega))
  simpa using set

section
variable (calm : Calm L s) (busy : s.log.busy = true) (super : Super L (L.view s.log))
include calm busy super

theorem ballocFrom_spec (size : sb.size = L.size) (ninodes : sb.ninodes = L.ninodes) (low : ∀ b ∈ s.held, L.data ≤ b)
    (used : ∀ b ∈ s.held, Marked L (L.view s.log) b) (spare : b' < L.size-L.nlog) (clear : ¬ Marked L (L.view s.log) b')
    (full : ∀ log held b, b < L.size-L.nlog → (∀ x ∈ log.lh, x ∈ s.log.lh ∨ x = BBLOCK b L.ninodes ∨ x = b) → Choked L log →
      E (.panic .tooBigTransaction) { s with log := log, held := held }) (n : Nat) :
    ∀ k, k+n = (L.size+4095)/4096 → (∀ b < 4096*k, b < L.size → Marked L (L.view s.log) b) →
      Sat (ballocFrom sb ((List.range' k n).map fun k => 4096*k)) s E fun b next => ∃ log, next = { s with log := log } ∧ Took L s.log log b := by
  induction n with
  | zero =>
    intro k last marked
    exact absurd (marked b' (by omega) (by omega)) clear
  | succ n ih =>
    intro k last marked
    have within : 4096*k < L.size := by omega
    have bitmap := bblock_lt L within
    have home := lt_data L bitmap
    have out := L.outside_low home
    have unheld : BBLOCK (4096*k) sb.ninodes ∉ s.held := fun member => by
      have := low _ member
      rw [ninodes] at this
      omega
    rw [List.range'_succ,List.map_cons,ballocFrom,sat_bread,if_neg unheld,ninodes,size,← L.view_outside s.log out]
    split
    · rename_i none
      rw [sat_brelse]
      simp only [List.erase_cons_head]
      refine ih (k+1) (by omega) fun b below small => ?_
      by_cases before : b < 4096*k
      · exact marked b before small
      · exact unfound_bits none (by omega) below small
    · rename_i bi found
      obtain ⟨narrow,inside,free,first⟩ := found_bit found
      have high : 4096*k+bi < L.size-L.nlog := by
        refine Nat.lt_of_le_of_lt (first b' ?_ clear) spare
        by_contra before
        exact clear (marked b' (by omega) (by omega))
      have same : BBLOCK (4096*k+bi) L.ninodes = BBLOCK (4096*k) L.ninodes := by unfold BBLOCK; omega
      have data : L.data ≤ 4096*k+bi := by
        by_contra low
        exact free (super.low _ (by omega))
      have word := L.word
      refine sat_logWrite _ _ (calm.hold out) busy out (by omega) (fun cap => full _ _ _ high (fun x old => .inl old) cap) fun mid first => ?_
      rw [sat_brelse]
      simp only [List.erase_cons_head]
      have fresh : 4096*k+bi ∉ s.held := fun member => free (used _ member)
      refine sat_bzero _ _ (first.calm (s := s) calm) first.busy fresh (L.outside_low high) (by omega)
        (fun cap => full _ _ _ high (fun x old => ?_) cap) fun log second => ?_
      · rw [same]
        exact ((first.lh x).mp old).imp_right .inl
      refine .done ⟨log,rfl,data,high,free,second.sane,second.busy,?_,fun x => ?_⟩
      · rw [second.view,first.view,allocated,same]
        congr 4
        omega
      · rw [second.lh,first.lh,same]
        tauto

theorem balloc_spec (low : ∀ b ∈ s.held, L.data ≤ b)
    (used : ∀ b ∈ s.held, Marked L (L.view s.log) b) (spare : b' < L.size-L.nlog) (clear : ¬ Marked L (L.view s.log) b')
    (full : ∀ log held b, b < L.size-L.nlog → (∀ x ∈ log.lh, x ∈ s.log.lh ∨ x = BBLOCK b L.ninodes ∨ x = b) → Choked L log →
      E (.panic .tooBigTransaction) { s with log := log, held := held }) :
    Sat balloc s E fun b next => ∃ log, next = { s with log := log } ∧ Took L s.log log b := by
  have first : (1 : Nat) < L.data := by unfold Layout.data; omega
  rw [balloc]
  refine sat_readsb _ _ (fun member => by have := low 1 member; omega) ?_
  rw [← L.view_outside s.log (L.outside_low (lt_data L first)),super.size,List.range_eq_range']
  exact ballocFrom_spec calm busy super super.size super.ninodes low used spare clear full _ 0 (by omega) (by omega)

end

end
end Xv6.Fs.Core
