import Xv6.Bio.Cache
import Mathlib.Data.Nat.Find

namespace Xv6.Bio.Faults
open Function (update update_apply update_eq_self update_idem update_of_ne update_self)
open Threads Runs

-- bread over a device whose reads may fail, for any number of processes. report k says
-- whether idewait(1) sees DF or ERR at the end of the k-th read.

structure Wire where
  cache : Cache
  havedisk1 : Bool
  reads : Nat

-- The sector that idestart asks the drive for.
def contents (s : Cache) (dev sector : Nat) : Block := s.disk (dev % 2) (sector % 268435456)

-- insl is skipped after an error, B_VALID is set all the same.
def ideintr (report : Nat → Bool) (w : Wire) : Option Wire :=
  match w.cache.idequeue with
  | [] => none
  | b :: queue =>
    let buf := w.cache.buf b
    let cache := { w.cache with idequeue := queue }
    if buf.dirty then
      some { w with cache := (cache.setDisk (buf.dev % 2) (buf.sector % 268435456) buf.data).setBuf b fun buf =>
        { buf with valid := true, dirty := false } }
    else
      let data := if report w.reads then buf.data else contents w.cache buf.dev buf.sector
      some { w with cache := cache.setBuf b fun buf => { buf with data := data, valid := true, dirty := false }, reads := w.reads+1 }

-- The panic of iderw that the buffer cache alone does not show.
def noDisk1 (w : Wire) : Op → Bool
  | .iderw b => (w.cache.buf b).dev ≠ 0 && !w.havedisk1
  | _ => false

def exec (p : Nat) (o : Op) (w : Wire) : Option (Res o × Wire) :=
  if noDisk1 w o then none else (Bio.exec p o w.cache).map fun (r,t) => (r,{ w with cache := t })

def reads (dev sector : Nat) : Prog (Option Got) := do
  let b ← bread dev sector
  return some ⟨dev,sector,b⟩

def returns (b : Nat) : Prog (Option Got) := do
  brelse b
  return none

-- Any process reads any sector, and gives back the buffers it has got.
def Begins (w : Wire) (p : Nat) (_ : Option Got) (code : Prog (Option Got)) : Prop :=
  (∃ dev sector, code = reads dev sector) ∨ ∃ b, w.cache.holder b = some p ∧ code = returns b

abbrev System := Sys Wire Nat Op Res (Option Got)

def Step (report : Nat → Bool) : System → Event Nat → System → Prop :=
  Threads.Step exec Begins fun s t => ideintr report s = some t

structure Start (s : System) : Prop where
  code : ∀ p, s.code p = .ret none
  buf : ∀ b, (s.shared.cache.buf b).busy = false ∧ (s.shared.cache.buf b).valid = false ∧ (s.shared.cache.buf b).dirty = false
  dev : ∀ b, (s.shared.cache.buf b).dev = 4294967295
  bcache : s.shared.cache.bcache = (List.range 10).reverse
  queue : s.shared.cache.idequeue = []
  holder : ∀ b, s.shared.cache.holder b = none
  reads : s.shared.reads = 0

-- What bread has returned is the buffer for its sector and, if valid, has the contents of
-- that sector; no buffer is valid with other contents.
structure Faithful (s : System) : Prop where
  returned : ∀ p g, s.code p = .ret (some g) → (s.shared.cache.buf g.b).dev = g.dev ∧ (s.shared.cache.buf g.b).sector = g.sector ∧
    ((s.shared.cache.buf g.b).valid = true → (s.shared.cache.buf g.b).data = contents s.shared.cache g.dev g.sector)
  valid : ∀ b, (s.shared.cache.buf b).valid = true →
    (s.shared.cache.buf b).data = contents s.shared.cache (s.shared.cache.buf b).dev (s.shared.cache.buf b).sector

section
variable {report : Nat → Bool} {w t : Wire} {p : Nat}

abbrev View := Nat → Option (Nat × Nat)

structure Inv (w : Wire) (views : Nat → View) : Prop where
  clean : ∀ b, (w.cache.buf b).dirty = false
  data : ∀ b, (w.cache.buf b).valid = true → (w.cache.buf b).data = contents w.cache (w.cache.buf b).dev (w.cache.buf b).sector
  own : ∀ p b dev sector, views p b = some (dev,sector) →
    (w.cache.buf b).busy = true ∧ w.cache.holder b = some p ∧ (w.cache.buf b).dev = dev ∧ (w.cache.buf b).sector = sector
  held : ∀ p b, w.cache.holder b = some p → views p b ≠ none

theorem exec_some {o : Op} {r : Res o} (ran : exec p o w = some (r,t)) :
    ∃ cache, t = { w with cache := cache } ∧ Bio.exec p o w.cache = some (r,cache) := by
  unfold exec at ran
  split at ran
  · cases ran
  obtain ⟨⟨r',cache⟩,inner,same⟩ := Option.map_eq_some_iff.mp ran
  cases same
  exact ⟨cache,rfl,inner⟩

theorem Inv.change {views : Nat → View} {cache : Cache} {new : Buf} {key : Option (Nat × Nat)} (inv : Inv w views)
    (buf : cache.buf = update w.cache.buf b new) (disk : cache.disk = w.cache.disk)
    (holder : cache.holder = update w.cache.holder b (key.map fun _ => p))
    (others : ∀ q, q ≠ p → views q b = none) (clean : new.dirty = false)
    (data : new.valid = true → new.data = contents w.cache new.dev new.sector)
    (own : ∀ dev sector, key = some (dev,sector) → new.busy = true ∧ new.dev = dev ∧ new.sector = sector) :
    Inv { w with cache := cache } (update views p (update (views p) b key)) := by
  have same : ∀ dev sector, contents cache dev sector = contents w.cache dev sector := fun _ _ => by unfold contents; rw [disk]
  refine ⟨fun c => ?_,fun c => ?_,fun q c dev sector has => ?_,fun q c has => ?_⟩
  · rw [buf,update_apply]
    split
    · exact clean
    · exact inv.clean c
  · rw [buf,same,update_apply]
    split
    · exact data
    · exact inv.data c
  · rw [buf,holder,update_apply,update_apply]
    rw [update_apply] at has
    by_cases here : c = b
    · subst c
      rw [if_pos rfl,if_pos rfl]
      split at has
      · subst q
        rw [update_self] at has
        obtain ⟨busy,at_⟩ := own dev sector has
        exact ⟨busy,by rw [has]; rfl,at_⟩
      · rename_i other
        rw [others q other] at has
        cases has
    · rw [if_neg here,if_neg here]
      split at has
      · subst q
        rw [update_of_ne here] at has
        exact inv.own p c dev sector has
      · exact inv.own q c dev sector has
  · change cache.holder c = some q at has
    rw [holder,update_apply] at has
    by_cases here : c = b
    · subst c
      rw [if_pos rfl] at has
      obtain ⟨k,at_,rfl⟩ := Option.map_eq_some_iff.mp has
      rw [update_self,update_self,at_]
      exact Option.some_ne_none k
    rw [if_neg here] at has
    rw [update_apply]
    split
    · subst q
      rw [update_of_ne here]
      exact inv.held p c has
    · exact inv.held q c has

theorem Inv.bget {views : Nat → View} {cache : Cache} (inv : Inv w views) (ran : w.cache.bget p dev sector = some (b,cache)) :
    Inv { w with cache := cache } (update views p (update (views p) b (some (dev,sector)))) := by
  -- A buffer that is not busy is in no view.
  have free : ∀ b, (w.cache.buf b).busy = false → ∀ q, views q b = none := by
    intro b idle q
    by_contra has
    obtain ⟨⟨dev,sector⟩,has⟩ := Option.ne_none_iff_exists'.mp has
    have := (inv.own q b dev sector has).1
    rw [idle] at this
    cases this
  unfold Cache.bget at ran
  split at ran
  · rename_i c found
    split at ran
    · cases ran
    rename_i idle
    have at_ := List.find?_some found
    simp only [decide_eq_true_eq] at at_
    cases ran
    exact inv.change rfl rfl rfl (fun q _ => free b (by simpa using idle) q) (inv.clean b) (inv.data b)
      (fun _ _ has => by cases has; exact ⟨rfl,at_⟩)
  · split at ran
    · cases ran
    rename_i c found
    have idle := List.find?_some found
    simp only [decide_eq_true_eq] at idle
    cases ran
    exact inv.change rfl rfl rfl (fun q _ => free b idle.1 q) rfl (fun impossible => by cases impossible)
      (fun _ _ has => by cases has; exact ⟨rfl,rfl,rfl⟩)

theorem Inv.same {views : Nat → View} {cache : Cache} (inv : Inv w views) (buf : ∀ c, ∃ flux, cache.buf c = { w.cache.buf c with flux := flux })
    (disk : cache.disk = w.cache.disk) (holder : cache.holder = w.cache.holder) : Inv { w with cache := cache } views := by
  refine ⟨fun c => ?_,fun c => ?_,fun q c dev sector has => ?_,fun q c has => inv.held q c (holder ▸ has)⟩
  all_goals obtain ⟨flux,at_c⟩ := buf c
  · exact (congrArg Buf.dirty at_c).trans (inv.clean c)
  · show (cache.buf c).valid = true → (cache.buf c).data = cache.disk _ _
    rw [at_c,disk]
    exact inv.data c
  · rw [at_c,holder]
    exact inv.own q c dev sector has

theorem Inv.intr {views : Nat → View} (inv : Inv w views) (good : ∀ k, report k = false) (ran : ideintr report w = some t) : Inv t views := by
  unfold ideintr at ran
  split at ran
  · cases ran
  rename_i b queue _
  simp only [inv.clean b,good,Bool.false_eq_true,if_false,Option.some.injEq] at ran
  subst ran
  refine ⟨fun c => ?_,fun c => ?_,fun q c dev sector has => ?_,inv.held⟩
  all_goals simp only [Cache.setBuf,update_apply]
  · split
    · rfl
    · exact inv.clean c
  · split
    · exact fun _ => rfl
    · exact inv.data c
  · have own := inv.own q c dev sector has
    split
    · subst c; exact own
    · exact own

abbrev Does (p : Nat) (c : Prog α) (view : View) (post : α → View → Prop) : Prop := Meets exec Inv p c view post

variable {view : View}

theorem does_bget (dev sector : Nat) :
    Does p (act (.bget dev sector)) view fun (b : Nat) next => next = update view b (some (dev,sector)) := by
  refine Meets.call fun w views b t inv here ran => ?_
  obtain ⟨cache,rfl,inner⟩ := exec_some ran
  subst here
  exact ⟨_,inv.bget inner,rfl⟩

theorem does_valid (b : Nat) : Does p (act (.valid b)) view fun _ next => next = view := by
  refine Meets.call fun w views r t inv here ran => ⟨view,?_,rfl⟩
  obtain ⟨cache,rfl,inner⟩ := exec_some ran
  cases inner
  rw [← here,update_eq_self]
  exact inv

theorem does_iderw (b : Nat) : Does p (iderw b) view fun _ next => next = view := by
  have appends : Does p (act (.iderw b)) view fun _ next => next = view := by
    refine Meets.call fun w views r t inv here ran => ⟨view,?_,rfl⟩
    obtain ⟨cache,rfl,inner⟩ := exec_some ran
    simp only [Bio.exec] at inner
    split at inner
    · cases inner
      rw [← here,update_eq_self]
      exact inv.same (fun c => ⟨_,rfl⟩) rfl rfl
    · cases inner
  have awaits : Does p (act (.done b)) view fun _ next => next = view := by
    refine Meets.call fun w views r t inv here ran => ⟨view,?_,rfl⟩
    obtain ⟨cache,rfl,inner⟩ := exec_some ran
    simp only [Bio.exec] at inner
    split at inner
    · cases inner
      rw [← here,update_eq_self]
      refine inv.same (fun c => ?_) rfl rfl
      simp only [Cache.setBuf,update_apply]
      split
      · rename_i at_b
        subst at_b
        exact ⟨_,rfl⟩
      · exact ⟨_,rfl⟩
    · cases inner
  exact appends.bind fun _ _ same => same ▸ awaits

theorem does_bread (dev sector : Nat) :
    Does p (bread dev sector) view fun (b : Nat) next => next = update view b (some (dev,sector)) := by
  refine (does_bget dev sector).bind fun (b : Nat) got eq => ?_
  refine (does_valid b).bind fun (valid : Bool) _ same => ?_
  subst same eq
  cases valid with
  | true => exact rfl
  | false => exact (does_iderw b).bind fun _ _ same => same

theorem does_brelse (mine : view b ≠ none) : Does p (brelse b) view fun _ next => next = update view b none := by
  refine Meets.call fun w views r t inv here ran => ⟨_,?_,rfl⟩
  obtain ⟨cache,rfl,inner⟩ := exec_some ran
  subst here
  obtain ⟨⟨dev,sector⟩,has⟩ := Option.ne_none_iff_exists'.mp mine
  obtain ⟨busy,holder,_⟩ := inv.own p b dev sector has
  simp only [Bio.exec,busy,if_true] at inner
  cases inner
  refine inv.change rfl rfl rfl (fun q other => ?_) (inv.clean b) (inv.data b) (fun _ _ impossible => by cases impossible)
  by_contra taken
  obtain ⟨⟨dev,sector⟩,taken⟩ := Option.ne_none_iff_exists'.mp taken
  have := (inv.own q b dev sector taken).2.1
  rw [holder] at this
  exact other (Option.some.inj this).symm

def Got.Mine (got : Option Got) (view : View) : Prop := ∀ g, got = some g → view g.b = some (g.dev,g.sector)

theorem run_faithful (good : ∀ k, report k = false) (run : Run Start (Step report) events s) : Faithful s := by
  have meets : ∃ views, Inv s.shared views ∧ ∀ p, Does p (s.code p) (views p) Got.Mine := by
    refine Threads.Run.meets run ?_ ?_ ?_
    · intro s start
      refine ⟨fun _ _ => none,⟨fun b => (start.buf b).2.2,fun b valid => ?_,by simp,by simp [start.holder]⟩,fun p => ?_⟩
      · rw [(start.buf b).2.1] at valid
        cases valid
      · rw [start.code p]
        exact fun g impossible => by cases impossible
    · rintro w views p got code inv mine begins
      refine ⟨views p,by rw [update_eq_self]; exact inv,?_⟩
      obtain ⟨dev,sector,rfl⟩ | ⟨b,held,rfl⟩ := begins
      · refine (does_bread dev sector).bind fun (b : Nat) next eq => ?_
        subst eq
        exact fun g same => by cases same; exact update_self ..
      · exact (does_brelse (inv.held p b held)).bind fun _ _ _ g impossible => by cases impossible
    · exact fun w views t inv ran => inv.intr good ran
  obtain ⟨views,inv,rest⟩ := meets
  refine ⟨fun p g returned => ?_,inv.data⟩
  have mine := rest p
  rw [returned] at mine
  obtain ⟨_,_,dev,sector⟩ := inv.own p g.b g.dev g.sector (mine g rfl)
  exact ⟨dev,sector,fun valid => by rw [← dev,← sector]; exact inv.data g.b valid⟩

-- Process 0 reads a sector that is not cached into the least recently used buffer.
structure Missed (report : Nat → Bool) (s t : System) (b dev sector : Nat) : Prop where
  code : t.code = Function.update s.code 0 (.ret (some ⟨dev,sector,b⟩))
  buf : t.shared.cache.buf = Function.update s.shared.cache.buf b ⟨dev,sector,true,true,false,
    if report s.shared.reads then (s.shared.cache.buf b).data else contents s.shared.cache dev sector,false⟩
  bcache : t.shared.cache.bcache = s.shared.cache.bcache
  queue : t.shared.cache.idequeue = []
  disk : t.shared.cache.disk = s.shared.cache.disk
  holder : t.shared.cache.holder = Function.update s.shared.cache.holder b (some 0)
  havedisk1 : t.shared.havedisk1 = true
  reads : t.shared.reads = s.shared.reads+1

theorem reads_misses (run : Run Start (Step report) events s) (returned : s.code 0 = .ret a)
    (fresh : s.shared.cache.cached dev sector = none) (found : s.shared.cache.victim = some b)
    (queue : s.shared.cache.idequeue = []) (present : s.shared.havedisk1 = true) :
    ∃ events t, Run Start (Step report) events t ∧ Missed report s t b dev sector := by
  obtain ⟨⟨cache,_,count⟩,code⟩ := s
  dsimp only at returned fresh found queue present
  subst present
  have run := run.step (.call returned (.inl ⟨dev,sector,rfl⟩))
  have run := run.step (Step.acts (update_self ..) (show exec 0 (.bget dev sector) _ = some ((b : Nat),_) by
    simp only [exec,noDisk1,Bio.exec,Cache.bget,fresh,found]
    rfl))
  rw [update_idem] at run
  have run := run.step (Step.acts (update_self ..) (show exec 0 (.valid b) _ = some (false,_) by
    simp only [exec,noDisk1,Bio.exec,Cache.setBuf,Cache.setHolder,update_self]
    rfl))
  rw [update_idem] at run
  have run := run.step (Step.acts (update_self ..) (show exec 0 (.iderw b) _ = some ((),_) by
    simp only [exec,noDisk1,Bio.exec,update_self,queue,Bool.not_true,Bool.and_false,Bool.false_eq_true,false_and,not_false_eq_true,
      and_self,if_true,if_false]
    rfl))
  rw [update_idem] at run
  have run := run.step (.env (show ideintr report _ = some _ by
    simp only [ideintr,List.nil_append,update_self,Bool.false_eq_true,if_false]
    rfl))
  have run := run.step (Step.acts (update_self ..) (show exec 0 (.done b) _ = some ((),_) by
    simp only [exec,noDisk1,Bio.exec,Cache.setBuf,update_self,Bool.false_eq_true,not_false_eq_true,and_self,if_true,if_false]
    rfl))
  rw [update_idem] at run
  refine ⟨_,_,run,?code,?buf,rfl,rfl,rfl,rfl,rfl,rfl⟩
  case code => simp only [update_idem]; rfl
  case buf => simp only [update_idem]; rfl

-- After j reads of zeros from drive 0, each of a sector that the last ten were not about:
-- every buffer is free and full of zeros, and drive 1 has ones.
structure Warm (j : Nat) (s : System) : Prop where
  code : s.code 0 = .ret none
  buf : ∀ b, (s.shared.cache.buf b).data = Block.zero ∧ (s.shared.cache.buf b).busy = false ∧ (s.shared.cache.buf b).dirty = false
  recent : ∀ i b, s.shared.cache.bcache[i]? = some b → (s.shared.cache.buf b).dev = 4294967295 ∨
    (s.shared.cache.buf b).dev = 0 ∧ i < j ∧ (s.shared.cache.buf b).sector = (j-1-i) % 11
  length : s.shared.cache.bcache.length = 10
  nodup : s.shared.cache.bcache.Nodup
  queue : s.shared.cache.idequeue = []
  disk : ∀ sector, s.shared.cache.disk 0 sector = Block.zero ∧ s.shared.cache.disk 1 sector = fun _ => 1
  havedisk1 : s.shared.havedisk1 = true
  reads : s.shared.reads = j

theorem Warm.victim (warm : Warm j s) : ∃ older b, s.shared.cache.bcache = older ++ [b] ∧ s.shared.cache.victim = some b := by
  obtain empty | ⟨older,b,split⟩ := List.eq_nil_or_concat' s.shared.cache.bcache
  · have := warm.length
    rw [empty] at this
    cases this
  refine ⟨older,b,split,?_⟩
  have idle := warm.buf b
  simp [Cache.victim,split,idle.2.1,idle.2.2]

theorem Warm.uncached (warm : Warm j s) (other : dev = 1 ∨ dev = 0 ∧ sector = j % 11) : s.shared.cache.cached dev sector = none := by
  refine List.find?_eq_none.mpr fun b member => ?_
  obtain ⟨i,at_i⟩ := List.mem_iff_getElem?.mp member
  have short := (List.getElem?_eq_some_iff.mp at_i).1
  have length := warm.length
  simp only [decide_eq_true_eq]
  rintro ⟨rfl,rfl⟩
  rcases warm.recent i b at_i with unused | ⟨drive,_,sector⟩ <;> omega

theorem Warm.next (warm : Warm j s) (run : Run Start (Step report) events s) (good : report j = false) :
    ∃ events t, Run Start (Step report) events t ∧ Warm (j+1) t := by
  obtain ⟨older,b,split,found⟩ := warm.victim
  obtain ⟨_,t,run,missed⟩ := reads_misses run warm.code (warm.uncached (.inr ⟨rfl,rfl⟩)) found warm.queue warm.havedisk1
  obtain ⟨⟨cache,_,count⟩,code⟩ := t
  obtain ⟨code,buf,bcache,queue,disk,holder,present,reads⟩ := missed
  dsimp only at code buf bcache queue disk holder present reads
  subst code
  have run := run.step (.call (update_self ..) (.inr ⟨b,by rw [holder,update_self],rfl⟩))
  have run := run.step (Step.acts (update_self ..) (show exec 0 (.brelse b) _ = some ((),_) by
    simp only [exec,noDisk1,Bio.exec,buf,update_self,Bool.false_eq_true,if_true,if_false]
    rfl))
  have apart : b ∉ older := by
    have := warm.nodup
    rw [split,List.nodup_append] at this
    exact fun member => this.2.2 b member b (by simp) rfl
  have order : cache.bcache.erase b = older := by
    rw [bcache,split,List.erase_append_right _ apart]
    simp
  refine ⟨_,_,run,?_⟩
  simp only [order]
  have zeros : contents s.shared.cache 0 (j % 11) = Block.zero := (warm.disk _).1
  constructor
  case code => rfl
  case buf =>
    intro c
    simp only [Cache.setBuf,Cache.setHolder,update_self,update_idem,update_apply,warm.reads,good,zeros]
    split
    · exact ⟨rfl,rfl,rfl⟩
    · exact warm.buf c
  case recent =>
    intro i c at_i
    simp only [Cache.setBuf,Cache.setHolder,update_self,update_idem,update_apply]
    cases i with
    | zero =>
      cases at_i
      rw [if_pos rfl]
      exact .inr ⟨rfl,by omega,by simp⟩
    | succ i =>
      have earlier : older[i]? = some c := at_i
      have other : c ≠ b := fun same => apart (same ▸ List.mem_of_getElem? earlier)
      rw [if_neg other]
      have before : s.shared.cache.bcache[i]? = some c := by
        rw [split,List.getElem?_append_left (List.getElem?_eq_some_iff.mp earlier).1]
        exact earlier
      exact (warm.recent i c before).imp_right fun ⟨drive,small,sector⟩ => ⟨drive,by omega,sector.trans (by congr 1; omega)⟩
  case length =>
    have := warm.length
    rw [split,List.length_append] at this
    exact this
  case nodup =>
    have := warm.nodup
    rw [split,List.nodup_append] at this
    exact List.nodup_cons.mpr ⟨apart,this.1⟩
  case queue => exact queue
  case disk =>
    intro sector
    have := warm.disk sector
    rw [← disk] at this
    exact this
  case havedisk1 => exact present
  case reads => exact reads.trans (by rw [warm.reads])

def initial : System where
  shared :=
    { cache :=
      { buf := fun _ => ⟨4294967295,0,false,false,false,Block.zero,false⟩
        bcache := (List.range 10).reverse
        idequeue := []
        disk := fun dev _ => if dev = 0 then Block.zero else fun _ => 1
        logBusy := none
        lh := []
        holder := fun _ => none
        last := fun _ _ => Block.zero }
      havedisk1 := true
      reads := 0 }
  code _ := .ret none

theorem initial_start : Start initial where
  code _ := rfl
  buf _ := ⟨rfl,rfl,rfl⟩
  dev _ := rfl
  bcache := rfl
  queue := rfl
  holder _ := rfl
  reads := rfl

theorem initial_warm : Warm 0 initial where
  code := rfl
  buf _ := ⟨rfl,rfl,rfl⟩
  recent _ _ _ := .inl rfl
  length := rfl
  nodup := by decide
  queue := rfl
  disk _ := ⟨rfl,rfl⟩
  havedisk1 := rfl
  reads := rfl

theorem warm_run (good : ∀ i < j, report i = false) : ∃ events s, Run Start (Step report) events s ∧ Warm j s := by
  induction j with
  | zero => exact ⟨[],initial,.start initial_start,initial_warm⟩
  | succ j ih =>
    obtain ⟨events,s,run,warm⟩ := ih fun i small => good i (by omega)
    exact warm.next run (good j (by omega))

theorem Warm.fails (warm : Warm j s) (run : Run Start (Step report) events s) (bad : report j = true) :
    ∃ events s, Run Start (Step report) events s ∧ ∃ g, s.code 0 = .ret (some g) ∧ (s.shared.cache.buf g.b).valid = true ∧
      (s.shared.cache.buf g.b).data ≠ contents s.shared.cache g.dev g.sector := by
  obtain ⟨older,b,split,found⟩ := warm.victim
  have uncached : s.shared.cache.cached 1 0 = none := warm.uncached (.inl rfl)
  obtain ⟨events,t,run,missed⟩ := reads_misses run warm.code uncached found warm.queue warm.havedisk1
  refine ⟨events,t,run,⟨1,0,b⟩,by rw [missed.code,update_self],by rw [missed.buf,update_self],?_⟩
  have ones : contents t.shared.cache 1 0 = fun _ => 1 := by
    unfold contents
    rw [missed.disk]
    exact (warm.disk _).2
  rw [missed.buf,update_self,ones]
  simp only [warm.reads,bad,if_true,(warm.buf b).1]
  exact fun same => absurd (congrFun same 0) (by decide)

-- The pattern of reports under which bread never hands out anything but the contents of
-- its sector, over every run: that without an error.
theorem bread_faithful (report : Nat → Bool) :
    (∀ events s, Run Start (Step report) events s → Faithful s) ↔ ∀ k, report k = false := by
  refine ⟨fun faithful => ?_,fun good events s run => run_faithful good run⟩
  by_contra some
  have bad : ∃ k, report k = true := by simpa using some
  obtain ⟨_,s,run,warm⟩ := warm_run fun i small => by simpa using Nat.find_min bad small
  obtain ⟨events,t,run,g,returned,valid,differs⟩ := warm.fails run (Nat.find_spec bad)
  exact differs (((faithful events t run).returned 0 g returned).2.2 valid)

theorem failed_read_served : ∃ events s, Run Start (Step fun _ => true) events s ∧ ∃ g, s.code 0 = .ret (some g) ∧
    (s.shared.cache.buf g.b).valid = true ∧ (s.shared.cache.buf g.b).data ≠ contents s.shared.cache g.dev g.sector :=
  initial_warm.fails (.start initial_start) rfl

end
end Xv6.Bio.Faults
