import Xv6.Log

namespace Xv6.LogCrash
open Function (update update_of_ne update_self)
open Store
open List (ext_getElem filter_append mem_of_mem_take mem_singleton nil_append)

structure Area where
  start : Nat
  size : Nat
  header : 0 < size

def Area.Outside (a : Area) (x : Nat) : Prop := x < a.start ∨ a.start+a.size ≤ x

structure Logged (a : Area) where
  sector : Nat
  data : Block
  word : sector < 4294967296
  outside : a.Outside sector

def Logged.pair (w : Logged a) : Nat × Block := (w.sector,w.data)

def transaction (s : Store) (ws : List (Logged a)) : Except Stop Store := do
  let s ← s.beginTrans
  let s ← ws.foldlM (fun s w => s.logWrite w.sector w.data) s
  return s.commitTrans

def transactions (s : Store) (ts : List (List (Logged a))) : Except Stop Store :=
  ts.foldlM transaction s

-- Reboot: recovery either completes or stops after k of its own sector writes
-- and is started again from what those left on the disk.
inductive Recovers (a : Area) : Disk → Disk → Prop where
  | done : Recovers a d (initlog a.start a.size d).disk
  | crash (k : Nat) : Recovers a (Writes.apply ((initlog a.start a.size d).writes.take k) d) next →
      Recovers a d next

def commits (a : Area) (ws : List (Nat × Block)) : Nat :=
  ws.countP fun w => w.1 == a.start && decide (0 < headN w.2)

def committed (ts : List (List (Logged a))) (k : Nat) : List (Nat × Block) :=
  (((ts.filter (fun ws => !ws.isEmpty)).take k).flatten).map Logged.pair

-- The redo list a header block stands for.
def redo (a : Area) (d : Disk) : List (Nat × Block) :=
  (headSectors (d a.start)).mapIdx fun t b => (b,d (a.start+t+1))

-- A disk from which recovery gives D outside the log: this is what every
-- sector write of log_write, commit_trans and recovery itself preserves.
structure Recoverable (a : Area) (d D : Disk) : Prop where
  outside : ∀ b ∈ headSectors (d a.start), a.Outside b
  fits : (headSectors (d a.start)).length < a.size
  target : ∀ x, a.Outside x → Writes.apply (redo a d) d x = D x

theorem headSectors_empty (zero : headN b = 0) : headSectors b = [] := by simp [headSectors,zero]

theorem clean_recoverable (clean : headN (d a.start) = 0) (same : ∀ x, a.Outside x → d x = D x) :
    Recoverable a d D := by
  have none := headSectors_empty clean
  refine ⟨by simp [none],by simp [none,a.header],?_⟩
  intro x out
  simpa [redo,none] using same x out

theorem outside_ne_log {a : Area} (out : a.Outside x) (inside : t < a.size) : x ≠ a.start+t := by
  rcases out with low | high <;> omega

theorem installFrom_spec (s : Store) (t : Nat) (bs : List Nat) (quiet : ∀ x, s.dirty x = none ∨ ∃ b ∈ bs, b = x)
    (apart : ∀ b ∈ bs, ∀ j, t ≤ j → j < t+bs.length → b ≠ s.start+j+1)
    (pure : ∀ j, t ≤ j → j < t+bs.length → s.dirty (s.start+j+1) = none) :
    let ws := bs.mapIdx fun j b => (b,s.disk (s.start+(t+j)+1))
    (s.installFrom t bs).disk = Writes.apply ws s.disk ∧
    (s.installFrom t bs).writes = s.writes ++ ws ∧ (∀ x, (s.installFrom t bs).dirty x = none) := by
  induction bs generalizing s t with
  | nil =>
    refine ⟨rfl,by simp [installFrom],?_⟩
    intro x
    rcases quiet x with clean | ⟨b,member,_⟩
    · exact clean
    · cases member
  | cons b bs ih =>
    have read : s.bread (s.start+t+1) = s.disk (s.start+t+1) := by
      simp [bread,pure t (by omega) (by simp)]
    obtain ⟨disk,writes,clean⟩ := ih (s.bwrite b (s.bread (s.start+t+1))) (t+1)
      (by
        intro x
        by_cases here : x = b
        · left; subst here; simp [bwrite]
        rcases quiet x with clean | ⟨c,member,rfl⟩
        · left; simp [bwrite,here,clean]
        · rcases List.mem_cons.mp member with equal | later
          · exact absurd equal here
          · exact .inr ⟨c,later,rfl⟩)
      (by
        intro c member j low high
        exact apart c (by simp [member]) j (by omega) (by simp; omega))
      (by
        intro j low high
        have ne : s.start+j+1 ≠ b := (apart b (by simp) j (by omega) (by simp; omega)).symm
        simp [bwrite,ne,pure j (by omega) (by simp; omega)])
    have later : (bs.mapIdx fun j c => (c,(s.bwrite b (s.bread (s.start+t+1))).disk
          ((s.bwrite b (s.bread (s.start+t+1))).start+(t+1+j)+1))) =
        bs.mapIdx fun j c => (c,s.disk (s.start+(t+(j+1))+1)) := by
      apply ext_getElem (by simp)
      intro j _ inside
      simp only [List.length_mapIdx] at inside
      have ne : s.start+(t+(j+1))+1 ≠ b :=
        (apart b (by simp) (t+(j+1)) (by omega) (by simp; omega)).symm
      simp [bwrite,show t+1+j = t+(j+1) by omega,update_of_ne ne]
    rw [later] at disk writes
    refine ⟨?_,?_,clean⟩
    · rw [installFrom,disk,List.mapIdx_cons,Writes.apply_cons,bwrite_disk,read]; simp
    · rw [installFrom,writes,List.mapIdx_cons,bwrite,read]; simp

theorem initlog_writes (ready : Recoverable a d D) :
    ∃ head, headWord head = 0 ∧
      (initlog a.start a.size d).writes = redo a d ++ [(a.start,head)] ∧
      (initlog a.start a.size d).disk = Writes.apply (redo a d ++ [(a.start,head)]) d := by
  have spec := installFrom_spec (readHead (boot a.start a.size d)) 0 (headSectors (d a.start))
    (fun _ => .inl rfl)
    (fun b member j _ high => by
      have room := ready.fits
      exact outside_ne_log (ready.outside b member) (t := j+1) (by omega))
    (fun _ _ _ => rfl)
  obtain ⟨disk,writes,clean⟩ := spec
  have list : ((headSectors (d a.start)).mapIdx fun j b =>
      (b,(readHead (boot a.start a.size d)).disk ((readHead (boot a.start a.size d)).start+(0+j)+1))) = redo a d := by
    simp [redo,readHead,boot]
  rw [list] at disk writes
  let s := installTrans (readHead (boot a.start a.size d))
  have start : s.start = a.start := installFrom_start _ _ _
  refine ⟨putHead (s.bread a.start) [],headWord_putHead _ _ (by simp),?_,?_⟩
  · change s.writes ++ [(s.start,putHead (s.bread s.start) [])] = _
    rw [start]
    have same : s.writes = redo a d := writes
    rw [same]
  · change update s.disk s.start (putHead (s.bread s.start) []) = _
    rw [start,Writes.apply_append]
    have same : s.disk = Writes.apply (redo a d) d := disk
    rw [same]; rfl

theorem redo_sectors (w : Nat × Block) (member : w ∈ redo a d) : w.1 ∈ headSectors (d a.start) := by
  obtain ⟨j,inside,rfl⟩ := List.mem_mapIdx.mp member
  exact List.getElem_mem _

theorem redo_home (ready : Recoverable a d D) (ws : List (Nat × Block)) (home : ∀ w ∈ ws, a.Outside w.1) :
    headSectors (Writes.apply ws d a.start) = headSectors (d a.start) ∧
    redo a (Writes.apply ws d) = redo a d := by
  have keep : ∀ t < a.size, Writes.apply ws d (a.start+t) = d (a.start+t) := by
    intro t inside
    apply Writes.apply_other
    intro w member
    exact outside_ne_log (home w member) inside
  have head : Writes.apply ws d a.start = d a.start := keep 0 a.header
  refine ⟨by rw [head],?_⟩
  unfold redo
  rw [head]
  apply ext_getElem (by simp)
  intro j _ inside
  simp only [List.length_mapIdx] at inside
  have room := ready.fits
  simp [Nat.add_assoc,keep (j+1) (by omega)]

theorem install_cut (ready : Recoverable a d D) (cleared : headN clear = 0) (k : Nat) :
    Recoverable a (Writes.apply ((redo a d ++ [(a.start,clear)]).take k) d) D := by
  have home : ∀ w ∈ redo a d, a.Outside w.1 := fun w member => ready.outside _ (redo_sectors w member)
  by_cases early : k ≤ (redo a d).length
  · rw [List.take_append_of_le_length early]
    obtain ⟨sectors,list⟩ := redo_home ready ((redo a d).take k)
      (fun w member => home w (mem_of_mem_take member))
    refine ⟨by rw [sectors]; exact ready.outside,by rw [sectors]; exact ready.fits,?_⟩
    intro x out
    rw [list,Writes.apply_restart]
    exact ready.target x out
  · rw [List.take_of_length_le (by simp; omega),Writes.apply_append]
    apply clean_recoverable
    · simpa using cleared
    · intro x out
      have ne : x ≠ a.start := outside_ne_log out a.header
      simpa [ne] using ready.target x out

theorem recovers_target (path : Recovers a d next) (ready : Recoverable a d D) :
    (∀ x, a.Outside x → next x = D x) ∧ headWord (next a.start) = 0 := by
  induction path with
  | done =>
    obtain ⟨head,clean,_,disk⟩ := initlog_writes ready
    rw [disk,Writes.apply_append]
    refine ⟨?_,by simpa using clean⟩
    intro x out
    have ne : x ≠ a.start := outside_ne_log out a.header
    simpa [ne] using ready.target x out
  | crash k _ ih =>
    obtain ⟨head,clean,writes,_⟩ := initlog_writes ready
    rw [writes] at ih
    exact ih (install_cut ready (headN_zero clean) k)

-- The slots of an open transaction: sector and logged contents, in log order.
def slots (s : Store) : List (Nat × Block) := s.lh.mapIdx fun t b => (b,s.disk (s.start+t+1))

-- Between begin_trans and commit_trans, with d the disk at begin_trans and ws
-- the log_writes so far. Only log blocks were written; the slots stand for ws.
structure Open (a : Area) (d : Disk) (s : Store) (ws logs : List (Nat × Block)) : Prop where
  start : s.start = a.start
  size : s.size = a.size
  busy : s.busy = true
  distinct : s.lh.Nodup
  words : ∀ b ∈ s.lh, b < 4294967296
  outside : ∀ b ∈ s.lh, a.Outside b
  cap : s.lh.length ≤ LOGSIZE
  room : s.lh.length < a.size
  pinned : ∀ x, s.dirty x = none ∨ ∃ b ∈ s.lh, b = x
  disk : s.disk = Writes.apply logs d
  logged : ∀ w ∈ logs, ∃ t, t+1 < a.size ∧ w.1 = a.start+t+1
  meaning : ∀ D, Writes.apply (slots s) D = Writes.apply ws D
  empty : s.lh = [] ↔ ws = []

theorem slots_keys (s : Store) : (slots s).map Prod.fst = s.lh := by
  apply ext_getElem <;> simp [slots]

theorem slots_step (ran : LogWritten s next b data) :
    slots next = if b ∈ s.lh then (slots s).set (s.lh.idxOf b) (b,data) else slots s ++ [(b,data)] := by
  have others : ∀ j, j ≠ s.lh.idxOf b → next.disk (next.start+j+1) = s.disk (s.start+j+1) := by
    intro j different
    have ne : s.start+j+1 ≠ s.start+s.lh.idxOf b+1 := by omega
    rw [ran.disk,ran.start,update_of_ne ne]
  have here : next.disk (next.start+s.lh.idxOf b+1) = data := by rw [ran.disk,ran.start]; simp
  unfold slots
  rw [ran.lh]
  split
  · rename_i member
    apply ext_getElem (by simp)
    intro j _ inside
    by_cases same : j = s.lh.idxOf b
    · subst same; simp [here]
    · simp [List.getElem_set_ne (Ne.symm same),others j same]
  · rename_i missing
    have last : s.lh.idxOf b = s.lh.length := List.idxOf_of_notMem missing
    rw [last] at here
    rw [List.mapIdx_append]
    congr 1
    · apply ext_getElem (by simp)
      intro j inside _
      simp only [List.length_mapIdx] at inside
      simp [others j (by omega)]
    · simp [here]

theorem open_step (old : Open a d s ws logs) (w : Logged a) (ran : LogWritten s next w.sector w.data) :
    ∃ log, next.writes = s.writes ++ [log] ∧ Open a d next (ws++[w.pair]) (logs++[log]) := by
  have small : s.lh.length < a.size-1 := by rw [← old.size]; exact ran.room
  have within : s.lh.idxOf w.sector ≤ s.lh.length := List.idxOf_le_length
  have cap := ran.cap
  have longer := ran.length
  refine ⟨_,ran.writes,ran.start.trans old.start,ran.size.trans old.size,ran.stays.trans old.busy,
    ran.nodup old.distinct,?_,?_,by omega,by omega,?_,?_,?_,?_,?_⟩
  · intro b member
    rcases ran.mem.mp member with prior | rfl
    · exact old.words b prior
    · exact w.word
  · intro b member
    rcases ran.mem.mp member with prior | rfl
    · exact old.outside b prior
    · exact w.outside
  · intro x
    by_cases clean : next.dirty x = none
    · exact .inl clean
    refine .inr ⟨x,ran.mem.mpr ?_,rfl⟩
    by_cases here : x = w.sector
    · exact .inr here
    rcases old.pinned x with none | ⟨b,member,rfl⟩
    · exact absurd none (ran.pinned clean here)
    · exact .inl member
  · rw [Writes.apply_append,← old.disk,ran.disk]; rfl
  · intro v member
    rcases List.mem_append.mp member with prior | single
    · exact old.logged v prior
    · simp only [mem_singleton] at single
      subst single
      exact ⟨s.lh.idxOf w.sector,by omega,by simp [old.start]⟩
  · intro D
    rw [slots_step ran]
    split
    · rename_i member
      have found : s.lh.idxOf w.sector < s.lh.length := List.idxOf_lt_length_iff.mpr member
      rw [Writes.apply_set (slots s) D _ _ (by simpa [slots] using found) (by simp [slots])
        (by rw [slots_keys]; exact old.distinct)]
      rw [Writes.apply_append,Writes.apply_append,old.meaning D]; rfl
    · rw [Writes.apply_append,Writes.apply_append,old.meaning D]; rfl
  · rw [ran.lh]
    split
    · rename_i member
      have nonempty : s.lh ≠ [] := by intro none; simp [none] at member
      simp [nonempty]
    · simp

theorem open_run (old : Open a d s done logs) (ws : List (Logged a))
    (ran : ws.foldlM (fun s w => s.logWrite w.sector w.data) s = .ok next) :
    ∃ more, next.writes = s.writes ++ more ∧
      Open a d next (done ++ ws.map Logged.pair) (logs++more) := by
  induction ws generalizing s done logs with
  | nil => cases ran; exact ⟨[],by simp,by simpa using old⟩
  | cons w ws ih =>
    rw [List.foldlM_cons] at ran
    cases first : s.logWrite w.sector w.data with
    | error stop => rw [first] at ran; cases ran
    | ok middle =>
      rw [first] at ran
      obtain ⟨log,written,step⟩ := open_step old w (logWrite_written first)
      obtain ⟨more,writes,opened⟩ := ih step ran
      refine ⟨log::more,by rw [writes,written]; simp,?_⟩
      simpa using opened

structure Idle (a : Area) (s : Store) : Prop where
  start : s.start = a.start
  size : s.size = a.size
  lh : s.lh = []
  busy : s.busy = false
  pinned : ∀ x, s.dirty x = none
  clean : headN (s.disk a.start) = 0

theorem idle_open (idle : Idle a s) (ran : s.beginTrans = .ok next) :
    next.writes = s.writes ∧ Open a s.disk next [] [] := by
  unfold beginTrans at ran
  rw [idle.busy] at ran
  cases ran
  refine ⟨rfl,idle.start,idle.size,rfl,?_,?_,?_,?_,?_,fun x => .inl (idle.pinned x),rfl,?_,?_,?_⟩
  · simp [idle.lh]
  · simp [idle.lh]
  · simp [idle.lh]
  · simp [idle.lh]
  · simpa [idle.lh] using a.header
  · simp
  · simp [slots,idle.lh]
  · simp [idle.lh]

theorem open_keeps (opened : Open a d s ws logs) (k : Nat) :
    Writes.apply (logs.take k) d a.start = d a.start ∧
    ∀ x, a.Outside x → Writes.apply (logs.take k) d x = d x := by
  constructor
  · apply Writes.apply_other
    intro w member
    obtain ⟨t,_,here⟩ := opened.logged w (mem_of_mem_take member)
    omega
  · intro x out
    apply Writes.apply_other
    intro w member
    obtain ⟨t,inside,here⟩ := opened.logged w (mem_of_mem_take member)
    exact fun equal => outside_ne_log out inside (by omega)

theorem commits_zero (ws : List (Nat × Block)) (none : ∀ w ∈ ws, w.1 ≠ a.start) : commits a ws = 0 := by
  apply List.countP_eq_zero.mpr
  intro w member
  simp [none w member]

structure Committed (a : Area) (s next : Store) (head clear : Block) : Prop where
  idle : Idle a next
  sectors : headSectors head = s.lh
  count : headN head = s.lh.length
  cleared : headN clear = 0
  writes : next.writes = s.writes ++ ((a.start,head) :: (slots s ++ [(a.start,clear)]))
  disk : next.disk = Writes.apply ((a.start,head) :: (slots s ++ [(a.start,clear)])) s.disk

theorem commit_writes (opened : Open a d s ws logs) (some : s.lh ≠ []) :
    ∃ head clear, Committed a s s.commitTrans head clear := by
  have positive : 0 < s.lh.length := List.length_pos_iff.mpr some
  let one := s.writeHead
  have apart : ∀ b ∈ s.lh, ∀ j, 0 ≤ j → j < 0+s.lh.length → b ≠ one.start+j+1 := by
    intro b member j _ high
    have room := opened.room
    have start : one.start = a.start := opened.start
    rw [start]
    exact outside_ne_log (opened.outside b member) (t := j+1) (by omega)
  have quiet : ∀ x, one.dirty x = none ∨ ∃ b ∈ s.lh, b = x := by
    intro x
    by_cases here : x = s.start
    · left; subst here; simp [one,writeHead,bwrite]
    · simpa [one,writeHead,bwrite,here] using opened.pinned x
  have logClean : ∀ j, 0 ≤ j → j < 0+s.lh.length → one.dirty (one.start+j+1) = none := by
    intro j low high
    rcases quiet (one.start+j+1) with clean | ⟨b,member,here⟩
    · exact clean
    · exact absurd here (apart b member j low high)
  obtain ⟨disk,writes,clean⟩ := installFrom_spec one 0 s.lh quiet apart logClean
  have same : (s.lh.mapIdx fun j b => (b,one.disk (one.start+(0+j)+1))) = slots s := by
    unfold slots
    apply ext_getElem (by simp)
    intro j _ _
    have ne : s.start+j+1 ≠ s.start := by omega
    simp [one,writeHead,bwrite,update_of_ne ne]
  rw [same] at disk writes
  let two := one.installTrans
  have start : two.start = a.start := (installFrom_start _ _ _).trans opened.start
  have sizes : two.size = s.size := installFrom_size _ _ _
  have unfolded : s.commitTrans = {writeHead {two with lh := []} with busy := false} := by
    simp only [commitTrans,positive,if_true]; rfl
  refine ⟨putHead (s.bread s.start) s.lh,putHead ({two with lh := []}.bread two.start) [],?_⟩
  have cap := opened.cap
  have cleared : headN (putHead ({two with lh := []}.bread two.start) []) = 0 :=
    headN_putHead _ _ (by simp)
  refine ⟨?_,headSectors_putHead _ _ cap opened.words,headN_putHead _ _ (by unfold LOGSIZE at cap; omega),
    cleared,?_,?_⟩
  · rw [unfolded]
    refine ⟨start,sizes.trans opened.size,rfl,rfl,?_,?_⟩
    · intro x
      by_cases here : x = two.start
      · subst here; simp [writeHead,bwrite]
      · have none : two.dirty x = none := clean x
        simp [writeHead,bwrite,here,none]
    · simpa [writeHead,bwrite,start] using cleared
  · rw [unfolded]
    change two.writes ++ [(two.start,_)] = _
    rw [show two.writes = one.writes ++ slots s from writes,start]
    simp [one,writeHead,bwrite,opened.start]
  · rw [unfolded]
    change update two.disk two.start _ = _
    rw [show two.disk = Writes.apply (slots s) one.disk from disk,start,Writes.apply_cons,Writes.apply_append]
    simp [one,writeHead,bwrite,opened.start]

theorem commit_point (opened : Open a d s ws logs) (sectors : headSectors head = s.lh) :
    redo a (update s.disk a.start head) = slots s ∧
    Recoverable a (update s.disk a.start head) (Writes.apply ws d) := by
  have list : redo a (update s.disk a.start head) = slots s := by
    unfold redo slots
    rw [update_self,sectors,opened.start]
    apply ext_getElem (by simp)
    intro j _ _
    have ne : a.start+j+1 ≠ a.start := by omega
    simp [update_of_ne ne]
  refine ⟨list,?_,?_,?_⟩
  · rw [update_self,sectors]; exact opened.outside
  · rw [update_self,sectors]; exact opened.room
  · intro x out
    rw [list,opened.meaning]
    apply Writes.apply_congr
    right
    have keep := (open_keeps opened logs.length).2 x out
    rw [List.take_length] at keep
    have ne : x ≠ a.start := outside_ne_log out a.header
    rw [update_of_ne ne,opened.disk,keep]

-- One transaction, cut after j of its sector writes. Before the committing
-- header write recovery gives the disk at begin_trans, after it all of ws.
structure Cuts (a : Area) (d : Disk) (ws new : List (Nat × Block)) : Prop where
  cut : ∀ j, (commits a (new.take j) = 0 ∧ Recoverable a (Writes.apply (new.take j) d) d) ∨
    (ws ≠ [] ∧ commits a (new.take j) = 1 ∧
      Recoverable a (Writes.apply (new.take j) d) (Writes.apply ws d))
  whole : commits a new = if ws = [] then 0 else 1
  final : ∀ x, a.Outside x → Writes.apply new d x = Writes.apply ws d x

theorem logs_away (opened : Open a d s ws logs) : ∀ w ∈ logs, w.1 ≠ a.start := by
  intro w member
  obtain ⟨t,_,here⟩ := opened.logged w member
  omega

theorem empty_cuts (opened : Open a d s [] logs) (clean : headN (d a.start) = 0) : Cuts a d [] logs := by
  refine ⟨?_,commits_zero _ (logs_away opened),?_⟩
  · intro j
    left
    obtain ⟨head,keep⟩ := open_keeps opened j
    exact ⟨commits_zero _ fun w member => logs_away opened w (mem_of_mem_take member),
      clean_recoverable (by rw [head]; exact clean) keep⟩
  · intro x out
    have keep := (open_keeps opened logs.length).2 x out
    simpa using keep

theorem commit_cuts (opened : Open a d s ws logs) (clean : headN (d a.start) = 0) (some : s.lh ≠ [])
    (done : Committed a s next head clear) :
    Cuts a d ws (logs ++ ((a.start,head) :: (slots s ++ [(a.start,clear)]))) := by
  have nonempty : ws ≠ [] := fun none => some (opened.empty.mpr none)
  obtain ⟨list,ready⟩ := commit_point opened done.sectors
  have home : ∀ w ∈ slots s, w.1 ≠ a.start := by
    intro w member
    have key : w.1 ∈ s.lh := by rw [← slots_keys]; exact List.mem_map_of_mem member
    exact outside_ne_log (opened.outside _ key) a.header
  have positive : 0 < headN head := by rw [done.count]; exact List.length_pos_iff.mpr some
  have tail : ∀ m, commits a ((slots s ++ [(a.start,clear)]).take m) = 0 := by
    intro m
    apply List.countP_eq_zero.mpr
    intro w member
    rcases List.mem_append.mp (mem_of_mem_take member) with slot | last
    · simp [home w slot]
    · simp only [mem_singleton] at last
      simp [last,done.cleared]
  have counted : ∀ m, commits a (logs ++ ((a.start,head) :: (slots s ++ [(a.start,clear)]).take m)) = 1 := by
    intro m
    unfold commits at *
    rw [List.countP_append,List.countP_cons,tail m]
    have before := commits_zero logs (logs_away opened)
    unfold commits at before
    simp [before,positive]
  have point : Writes.apply (logs ++ [(a.start,head)]) d = update s.disk a.start head := by
    rw [Writes.apply_append,← opened.disk]; rfl
  refine ⟨?_,?_,?_⟩
  · intro j
    by_cases early : j ≤ logs.length
    · left
      rw [List.take_append_of_le_length early]
      obtain ⟨header,keep⟩ := open_keeps opened j
      exact ⟨commits_zero _ fun w member => logs_away opened w (mem_of_mem_take member),
        clean_recoverable (by rw [header]; exact clean) keep⟩
    right
    obtain ⟨m,rfl⟩ : ∃ m, j = logs.length+(m+1) := ⟨j-logs.length-1,by omega⟩
    have taken : (logs ++ ((a.start,head) :: (slots s ++ [(a.start,clear)]))).take (logs.length+(m+1)) =
        logs ++ ((a.start,head) :: (slots s ++ [(a.start,clear)]).take m) := by
      rw [List.take_length_add_append,List.take_succ_cons]
    rw [taken]
    refine ⟨nonempty,counted m,?_⟩
    have cut := install_cut ready done.cleared m
    rw [list,← point,← Writes.apply_append] at cut
    simpa using cut
  · have all := counted (slots s ++ [(a.start,clear)]).length
    rw [List.take_length] at all
    simp [all,nonempty]
  · intro x out
    have target := ready.target x out
    rw [list] at target
    rw [Writes.apply_append,Writes.apply_cons,← opened.disk,Writes.apply_append]
    have ne : x ≠ a.start := outside_ne_log out a.header
    simpa [ne] using target

theorem transaction_cuts (idle : Idle a s) (ws : List (Logged a)) (ran : transaction s ws = .ok next) :
    ∃ new, next.writes = s.writes ++ new ∧ next.disk = Writes.apply new s.disk ∧ Idle a next ∧
      Cuts a s.disk (ws.map Logged.pair) new := by
  unfold transaction at ran
  cases began : s.beginTrans with
  | error stop => rw [began] at ran; cases ran
  | ok first =>
    rw [began] at ran
    cases logged : ws.foldlM (fun s w => s.logWrite w.sector w.data) first with
    | error stop => simp only [bind,Except.bind,logged] at ran; cases ran
    | ok last =>
      simp only [bind,Except.bind,logged,pure,Except.pure,Except.ok.injEq] at ran
      subst ran
      obtain ⟨same,opened⟩ := idle_open idle began
      obtain ⟨logs,writes,opened⟩ := open_run opened ws logged
      simp only [nil_append] at opened
      rw [same] at writes
      by_cases none : last.lh = []
      · have nothing := opened.empty.mp none
        rw [nothing] at opened ⊢
        have committed : last.commitTrans = {last with busy := false} := by simp [commitTrans,none]
        rw [committed]
        refine ⟨logs,writes,opened.disk,?_,empty_cuts opened idle.clean⟩
        refine ⟨opened.start,opened.size,none,rfl,?_,?_⟩
        · intro x
          rcases opened.pinned x with clean | ⟨b,member,_⟩
          · exact clean
          · simp [none] at member
        · have keep := (open_keeps opened logs.length).1
          rw [List.take_length] at keep
          change headN (last.disk a.start) = 0
          rw [opened.disk,keep]; exact idle.clean
      · obtain ⟨head,clear,done⟩ := commit_writes opened none
        refine ⟨_,?_,?_,done.idle,commit_cuts opened idle.clean none done⟩
        · rw [done.writes,writes,List.append_assoc]
        · rw [done.disk,Writes.apply_append,← opened.disk]

-- What has been proved of the sector writes of a run so far: after any cut the
-- recoverable state is that of the transactions whose header write is inside.
structure History (a : Area) (d : Disk) (ts : List (List (Logged a))) (s : Store) : Prop where
  idle : Idle a s
  disk : s.disk = Writes.apply s.writes d
  count : commits a s.writes = (ts.filter (fun ws => !ws.isEmpty)).length
  outside : ∀ x, a.Outside x → s.disk x = Writes.apply (ts.flatten.map Logged.pair) d x
  cut : ∀ k, commits a (s.writes.take k) ≤ (ts.filter (fun ws => !ws.isEmpty)).length ∧
    Recoverable a (Writes.apply (s.writes.take k) d)
      (Writes.apply (committed ts (commits a (s.writes.take k))) d)

theorem committed_snoc (ts : List (List (Logged a))) (ws : List (Logged a))
    (early : k ≤ (ts.filter (fun ws => !ws.isEmpty)).length) : committed (ts++[ws]) k = committed ts k := by
  unfold committed
  rw [filter_append,List.take_append_of_le_length early]

theorem committed_all (ts : List (List (Logged a))) (bound : (ts.filter (fun ws => !ws.isEmpty)).length ≤ k) :
    committed ts k = ts.flatten.map Logged.pair := by
  unfold committed
  rw [List.take_of_length_le bound]
  congr 1
  induction ts with
  | nil => rfl
  | cons ws ts ih =>
    have rest := ih (by
      refine Nat.le_trans ?_ bound
      rw [List.filter_cons]; split <;> simp)
    cases ws with
    | nil => simpa using rest
    | cons w ws => simp [rest]

theorem recoverable_congr (ready : Recoverable a d D) (same : ∀ x, a.Outside x → D x = E x) :
    Recoverable a d E :=
  ⟨ready.outside,ready.fits,fun x out => (ready.target x out).trans (same x out)⟩

theorem apply_outside {a : Area} {d e : Disk} (ws : List (Nat × Block)) (same : ∀ x, a.Outside x → d x = e x) :
    ∀ x, a.Outside x → Writes.apply ws d x = Writes.apply ws e x :=
  fun x out => Writes.apply_congr _ _ _ _ (.inr (same x out))

theorem history_step (old : History a d ts s) (ws : List (Logged a)) (ran : transaction s ws = .ok next) :
    History a d (ts++[ws]) next := by
  obtain ⟨new,writes,disk,idle,cuts⟩ := transaction_cuts old.idle ws ran
  have counted : commits a next.writes = commits a s.writes + commits a new := by
    rw [writes]; exact List.countP_append
  have nonempty : ws.map Logged.pair = [] ↔ ws = [] := by simp
  have after : ∀ x, a.Outside x → Writes.apply (ws.map Logged.pair) s.disk x =
      Writes.apply ((ts++[ws]).flatten.map Logged.pair) d x := by
    intro x out
    rw [apply_outside _ old.outside x out,← Writes.apply_append]
    simp
  refine ⟨idle,?_,?_,?_,?_⟩
  · rw [disk,writes,Writes.apply_append,← old.disk]
  · rw [counted,old.count,cuts.whole]
    cases ws <;> simp [filter_append]
  · intro x out
    rw [disk,cuts.final x out,after x out]
  · intro k
    rw [writes]
    by_cases early : k ≤ s.writes.length
    · rw [List.take_append_of_le_length early]
      obtain ⟨bound,ready⟩ := old.cut k
      rw [committed_snoc _ _ bound]
      exact ⟨by rw [filter_append,List.length_append]; omega,ready⟩
    obtain ⟨j,rfl⟩ : ∃ j, k = s.writes.length+j := ⟨k-s.writes.length,by omega⟩
    rw [List.take_length_add_append,Writes.apply_append,← old.disk]
    have split : commits a (s.writes ++ new.take j) = commits a s.writes + commits a (new.take j) :=
      List.countP_append
    rw [split,old.count]
    rcases cuts.cut j with ⟨zero,ready⟩ | ⟨some,one,ready⟩
    · rw [zero,Nat.add_zero,committed_snoc _ _ (Nat.le_refl _),committed_all _ (Nat.le_refl _)]
      exact ⟨by rw [filter_append,List.length_append]; omega,recoverable_congr ready old.outside⟩
    have length : ((ts++[ws]).filter (fun ws => !ws.isEmpty)).length =
        (ts.filter (fun ws => !ws.isEmpty)).length + 1 := by
      cases ws with
      | nil => simp at some
      | cons w ws => simp [filter_append]
    rw [one,committed_all _ (Nat.le_of_eq length)]
    exact ⟨Nat.le_of_eq length.symm,recoverable_congr ready after⟩

theorem history_run (old : History a d done s) (ts : List (List (Logged a)))
    (ran : transactions s ts = .ok next) : History a d (done++ts) next := by
  induction ts generalizing s done with
  | nil => cases ran; simpa using old
  | cons ws ts ih =>
    unfold transactions at ran
    rw [List.foldlM_cons] at ran
    cases first : transaction s ws with
    | error stop => rw [first] at ran; cases ran
    | ok middle =>
      rw [first] at ran
      simpa using ih (history_step old ws first) ran

theorem initlog_empty (a : Area) (zero : headWord (d a.start) = 0) : initlog a.start a.size d = writeHead (boot a.start a.size d) := by
  have sectors : headSectors ((boot a.start a.size d).bread (boot a.start a.size d).start) = [] :=
    headSectors_empty (headN_zero zero)
  have installed : installTrans (readHead (boot a.start a.size d)) = boot a.start a.size d := by
    simp only [installTrans,readHead,sectors]; rfl
  unfold initlog recoverFromLog
  rw [installed]; rfl

theorem history_boot (zero : headWord (d a.start) = 0) : History a d [] (initlog a.start a.size d) := by
  have clean := headN_zero zero
  have ready : Recoverable a d d := clean_recoverable clean fun _ _ => rfl
  have none : redo a d = [] := by simp [redo,headSectors_empty clean]
  obtain ⟨head,word,writes,disk⟩ := initlog_writes ready
  have cleared := headN_zero word
  rw [none,nil_append] at writes disk
  have unfolded := initlog_empty a zero
  refine ⟨⟨by rw [unfolded]; rfl,by rw [unfolded]; rfl,by rw [unfolded]; rfl,by rw [unfolded]; rfl,?_,?_⟩,
    by rw [disk,writes],?_,?_,?_⟩
  · intro x
    rw [unfolded]
    simp [writeHead,boot,bwrite]
  · rw [disk]; simpa using cleared
  · rw [writes]; simp [commits,cleared]
  · intro x out
    have ne : x ≠ a.start := outside_ne_log out a.header
    rw [disk]; simp [ne]
  · intro k
    have nothing : commits a ((initlog a.start a.size d).writes.take k) = 0 := by
      apply List.countP_eq_zero.mpr
      intro w member
      have only := mem_of_mem_take member
      rw [writes,mem_singleton] at only
      simp [only,cleared]
    rw [nothing,writes]
    refine ⟨.refl,?_⟩
    have cut := install_cut ready cleared k
    rw [none,nil_append] at cut
    simpa [committed] using cut

-- Crash atomicity: power lost after any k sector writes of a run of
-- transactions, then any number of interrupted recoveries, then a complete one.
theorem crash_atomic (a : Area) (d : Disk) (clean : headWord (d a.start) = 0) (ts : List (List (Logged a)))
    (ran : transactions (initlog a.start a.size d) ts = .ok s) (k : Nat)
    (rebooted : Recovers a (Writes.apply (s.writes.take k) d) next) :
    (∀ x, a.Outside x →
      next x = Writes.apply (committed ts (commits a (s.writes.take k))) d x) ∧
    headWord (next a.start) = 0 := by
  have history := history_run (history_boot clean) ts ran
  simp only [nil_append] at history
  exact recovers_target rebooted (history.cut k).2

def sampleArea : Area := ⟨2,4,by decide⟩
def sampleWrite (c : UInt8) : Logged sampleArea := ⟨1,fun _ => c,by decide,.inl (by decide)⟩

theorem crash_atomic_sample : ∃ s,
    transactions (initlog 2 4 fun _ => Block.zero) [[sampleWrite 7,sampleWrite 9]] = .ok s ∧
    ∀ k next, Recovers sampleArea (Writes.apply (s.writes.take k) fun _ => Block.zero) next →
      headWord (next 2) = 0 :=
  ⟨_,rfl,fun k _ path => (crash_atomic sampleArea (fun _ => Block.zero) rfl
    [[sampleWrite 7,sampleWrite 9]] rfl k path).2⟩

end Xv6.LogCrash
