import Xv6.Bio.Cache

namespace Xv6.Bio
open Function (update update_apply update_of_ne update_self)
open Threads

-- The running transaction as log.c goes on with it: what it put in the log blocks, the
-- sectors that commit_trans has sent home, the sector that log_write has entered and not
-- yet marked, and whether the header on disk names the log.
structure Trans where
  lh : List Nat
  logged : Nat → Block
  installed : Nat
  adding : Option Nat
  committed : Bool

-- What a process knows: the buffers it holds, the one it waits for in iderw (with the
-- record it will find), the one it is in bwrite with, its transaction.
structure View where
  own : Nat → Option Buf
  io : Option Nat
  plain : Option Nat
  trans : Option Trans

def Buf.Live (r : Buf) : Prop := r.busy = true ∨ r.valid = true
def Buf.At (r : Buf) (dev x : Nat) : Prop := r.dev = dev ∧ r.sector = x

instance : Decidable (Buf.At r dev x) := inferInstanceAs (Decidable (_ ∧ _))

@[grind =] theorem live_iff : Buf.Live r ↔ r.busy = true ∨ r.valid = true := Iff.rfl
@[grind =] theorem at_iff : Buf.At r dev x ↔ r.dev = dev ∧ r.sector = x := Iff.rfl

def Layout.Inside (lay : Layout) (dev x : Nat) : Prop := dev = lay.dev ∧ lay.start ≤ x ∧ x < lay.start+lay.size

-- Who has which buffer, and what the disk has been asked for.
structure Held (s : Cache) (views : Nat → View) : Prop where
  holder : ∀ b p, s.holder b = some p ↔ (views p).own b ≠ none
  busy : ∀ b, (s.buf b).busy = (s.holder b).isSome
  known : ∀ p b r, (views p).own b = some r → (views p).io ≠ some b → s.buf b = r
  waits : ∀ p b r, (views p).io = some b → (views p).own b = some r →
    (b ∈ s.idequeue ∧ s.served b = r) ∨ (b ∉ s.idequeue ∧ s.buf b = r ∧ s.disk r.dev r.sector = r.data)
  owns : ∀ p b, (views p).io = some b → (views p).own b ≠ none
  queued : ∀ b ∈ s.idequeue, ∃ p, (views p).io = some b ∧ ((s.buf b).dirty = true → (views p).plain = some b)
  asked : ∀ b ∈ s.idequeue, (s.buf b).valid = (s.buf b).dirty ∧ (s.buf b).flux = (s.buf b).dirty
  nodup : s.idequeue.Nodup

structure Keys (s : Cache) : Prop where
  listed : ∀ b, (s.buf b).Live → b ∈ s.bcache
  drive : ∀ b, (s.buf b).Live → (s.buf b).dev ≠ 4294967295
  fresh : ∀ b ∈ s.bcache, ¬ (s.buf b).Live → (s.buf b).dev = 4294967295
  unique : ∀ b c, (s.buf b).Live → (s.buf c).Live → (s.buf b).At (s.buf c).dev (s.buf c).sector → b = c

structure Contents (lay : Layout) (s : Cache) (tr : Trans) : Prop where
  flux : ∀ b, (s.buf b).flux = true → (s.buf b).busy = true ∧ (s.buf b).valid = true
  clean : ∀ b, (s.buf b).valid = false → (s.buf b).dirty = false
  settled : ∀ b, (s.buf b).valid = true → (s.buf b).flux = false → (s.buf b).dirty = false →
    (s.buf b).data = s.disk (s.buf b).dev (s.buf b).sector
  marked : ∀ b, (s.buf b).flux = false → (s.buf b).dirty = true → (s.buf b).dev = lay.dev ∧ (s.buf b).sector ∈ tr.lh.drop tr.installed
  data : ∀ b, (s.buf b).valid = true → ¬ lay.Inside (s.buf b).dev (s.buf b).sector →
    (s.buf b).data = s.last (s.buf b).dev (s.buf b).sector
  disk : ∀ dev x, ¬ lay.Inside dev x → (∀ b, (s.buf b).valid = true → ¬ (s.buf b).At dev x) → s.disk dev x = s.last dev x

-- The log holds sectors from outside its own area, and has a block for each.
structure Trans.Fits (tr : Trans) (lay : Layout) : Prop where
  nodup : tr.lh.Nodup
  out : ∀ x ∈ tr.lh, ¬ lay.Inside lay.dev x
  room : ∀ i < tr.lh.length, i+1 < lay.size
  cap : tr.lh.length ≤ LOGSIZE

structure Logged (lay : Layout) (s : Cache) (views : Nat → View) (tr : Trans) : Prop where
  trans : ∀ p, (views p).trans = if s.logBusy = some p then some tr else none
  idle : s.logBusy = none → s.lh = []
  lh : s.lh = tr.lh
  fits : tr.Fits lay
  slots : ∀ i, i+1 < lay.size → (∀ b, (s.buf b).flux = true → ¬ (s.buf b).At lay.dev (lay.start+i+1)) →
    s.disk lay.dev (lay.start+i+1) = tr.logged i
  logged : ∀ i x, tr.installed ≤ i → tr.lh[i]? = some x → tr.logged i = s.last lay.dev x ∨ ∃ b, (s.buf b).flux = true ∧ (s.buf b).At lay.dev x
  pinned : ∀ x ∈ tr.lh.drop tr.installed, tr.adding ≠ some x →
    ∃ b, (s.buf b).valid = true ∧ (s.buf b).dirty = true ∧ (s.buf b).At lay.dev x
  adding : ∀ x, tr.adding = some x → ∃ p b r, s.logBusy = some p ∧ (views p).own b = some r ∧ r.valid = true ∧ r.At lay.dev x
  head : tr.committed = true → Store.headN (s.disk lay.dev lay.start) = tr.lh.length ∧
    ∀ b, (s.buf b).flux = true → ¬ (s.buf b).At lay.dev lay.start
  committed : 0 < tr.installed → tr.committed = true
  plain : ∀ p b r, (views p).plain = some b → (views p).own b = some r → r.dev = lay.dev → r.sector ∉ tr.lh.drop tr.installed
  logOnly : ∀ p b r, (views p).own b = some r → lay.Inside r.dev r.sector → s.logBusy = some p

structure Account (lay : Layout) (s : Cache) (views : Nat → View) (tr : Trans) : Prop where
  held : Held s views
  keys : Keys s
  contents : Contents lay s tr
  logged : Logged lay s views tr

def Inv (lay : Layout) (s : Cache) (views : Nat → View) : Prop := ∃ tr, Account lay s views tr

section
variable {s t : Cache} {views : Nat → View} {lay : Layout} {tr tr' : Trans} {p b : Nat} {r r' : Buf} {w : View}

-- The views after a step of p.
theorem turned (views : Nat → View) (p : Nat) (w : View) : ∃ after, update views p w = after ∧ after p = w ∧
    (∀ q, q ≠ p → after q = views q) ∧ ∀ c, (after p).own c = w.own c :=
  ⟨_,rfl,update_self ..,fun _ ne => update_of_ne ne ..,fun _ => by rw [update_self]⟩

theorem Trans.Fits.append (fits : tr.Fits lay) (fresh : x ∉ tr.lh) (out : ¬ lay.Inside lay.dev x)
    (room : tr.lh.length+1 < lay.size) (cap : tr.lh.length < LOGSIZE) : Trans.Fits { tr with lh := tr.lh ++ [x], adding := some x } lay := by
  constructor
  · exact List.nodup_append.mpr ⟨fits.nodup,by simp,by simpa using fun y member => ne_of_mem_of_not_mem member fresh⟩
  · intro y member
    rcases List.mem_append.mp member with old | new
    · exact fits.out y old
    · rw [List.mem_singleton.mp new]; exact out
  · intro i small
    simp only [List.length_append,List.length_singleton] at small
    omega
  · simp only [List.length_append,List.length_singleton]
    exact cap

def View.put (v : View) (b : Nat) (r : Buf) : View := { v with own := update v.own b (some r) }

theorem put_own : (View.put w b r).own c = if c = b then some r else w.own c := by
  simp only [View.put,update_apply]

theorem mem_drop {l : List Nat} : x ∈ l.drop k ↔ ∃ i, k ≤ i ∧ l[i]? = some x := by
  simp only [List.mem_iff_getElem?,List.getElem?_drop]
  constructor
  · rintro ⟨i,found⟩
    exact ⟨k+i,by omega,found⟩
  · rintro ⟨i,left,found⟩
    exact ⟨i-k,by rwa [Nat.add_sub_cancel' left]⟩

section
variable (held : Held s views) (mine : (views p).own b = some r)
include held mine

theorem Held.once (ne : q ≠ p) : (views q).own b = none := by
  have := held.holder b p
  have := held.holder b q
  grind -linarith

theorem Held.unqueued (quiet : (views p).io = none) : b ∉ s.idequeue := by
  intro member
  obtain ⟨q,waiting,_⟩ := held.queued b member
  have := held.owns q b waiting
  by_cases same : q = p
  · grind -linarith
  · exact this (held.once mine same)

theorem Held.taken : (s.buf b).busy = true := by
  have := held.busy b
  have := held.holder b p
  grind -linarith

theorem Held.key : (s.buf b).At r.dev r.sector := by
  by_cases waiting : (views p).io = some b
  · rcases held.waits p b r waiting mine with ⟨_,final⟩ | ⟨_,same,_⟩
    · rw [← final]; exact ⟨rfl,rfl⟩
    · rw [same]; exact ⟨rfl,rfl⟩
  · rw [held.known p b r mine waiting]; exact ⟨rfl,rfl⟩

end

theorem served_same (buf : t.buf c = s.buf c) (disk : t.disk = s.disk) : t.served c = s.served c := by
  rw [Cache.served,Cache.served,buf,disk]

theorem Held.change (held : Held s views) (idle : b ∉ s.idequeue) (once : ∀ q, q ≠ p → (views q).own b = none)
    (quiet : ∀ c, (views p).io = some c → c = b) (hand : r'.busy = o.isSome ∧ ∀ r, o = some r → r = r')
    (buf : t.buf = update s.buf b r') (holder : t.holder = update s.holder b (o.map fun _ => p))
    (same : t.idequeue = s.idequeue ∧ t.disk = s.disk) (own : w.own = update (views p).own b o) (io : w.io = none) :
    Held t (update views p w) := by
  obtain ⟨after,is,self,others,has⟩ := turned views p w
  rw [is]
  have buf := fun c => congrFun buf c
  have holder := fun c => congrFun holder c
  simp only [own,update_apply] at buf holder has
  have served : ∀ c, c ≠ b → t.served c = s.served c := fun c ne => served_same (by rw [buf,if_neg ne]) same.2
  constructor
  case holder =>
    intro c q
    have := held.holder c q
    by_cases same : q = p <;> cases o <;> grind -linarith
  case busy => grind -linarith [held.busy]
  case known =>
    intro q c rec
    have := held.known q c rec
    by_cases same : q = p <;> grind -linarith
  case waits =>
    intro q c rec
    have := held.waits q c rec
    by_cases same : q = p <;> grind -linarith
  case owns =>
    intro q c
    have := held.owns q c
    by_cases same : q = p <;> grind -linarith
  case queued => grind -linarith [held.queued]
  case asked => grind -linarith [held.asked]
  case nodup => rw [same.1]; exact held.nodup

theorem Held.shift (held : Held s views) (same : t.buf = s.buf ∧ t.holder = s.holder ∧ t.idequeue = s.idequeue ∧ t.disk = s.disk)
    (own : w.own = (views p).own) (io : w.io = (views p).io) (plain : w.io = none ∨ w.plain = (views p).plain) : Held t (update views p w) := by
  obtain ⟨after,is,self,others,_⟩ := turned views p w
  rw [is]
  have served : ∀ c, t.served c = s.served c := fun c => served_same (by rw [same.1]) same.2.2.2
  have views_own : ∀ q, (after q).own = (views q).own := by grind -linarith
  have views_io : ∀ q, (after q).io = (views q).io := by grind -linarith
  obtain ⟨buf,holder,queue,disk⟩ := same
  constructor
  case queued =>
    intro c member
    obtain ⟨q,waiting,write⟩ := held.queued c (queue ▸ member)
    refine ⟨q,by rw [views_io]; exact waiting,?_⟩
    by_cases here : q = p <;> grind -linarith
  all_goals simp only [buf,holder,queue,disk,views_own,views_io,served]
  · exact held.holder
  · exact held.busy
  · exact held.known
  · exact held.waits
  · exact held.owns
  · exact held.asked
  · exact held.nodup

theorem Keys.rewrite (keys : Keys s) (live : (s.buf b).busy = true) (busy : r'.busy = true) (dev : r'.dev = (s.buf b).dev)
    (sector : r'.sector = (s.buf b).sector) (buf : ∀ c, t.buf c = if c = b then r' else s.buf c) (bcache : t.bcache = s.bcache) :
    Keys t := by
  have same : ∀ c, ((t.buf c).Live ↔ (s.buf c).Live) ∧ (t.buf c).dev = (s.buf c).dev ∧ (t.buf c).sector = (s.buf c).sector := by
    intro c
    by_cases here : c = b
    · subst here
      rw [buf,if_pos rfl,Buf.Live,Buf.Live,busy,live]
      exact ⟨by simp,dev,sector⟩
    · rw [buf,if_neg here]
      exact ⟨Iff.rfl,rfl,rfl⟩
  constructor
  · intro c live; rw [bcache]; exact keys.listed c ((same c).1.mp live)
  · intro c live; rw [(same c).2.1]; exact keys.drive c ((same c).1.mp live)
  · intro c member dead
    rw [(same c).2.1]
    exact keys.fresh c (bcache ▸ member) fun live => dead ((same c).1.mpr live)
  · intro c d one two equal
    simp only [Buf.At,(same c).2,(same d).2] at equal
    exact keys.unique c d ((same c).1.mp one) ((same d).1.mp two) equal

theorem Account.rewrite (acc : Account lay s views tr) (mine : (views p).own b = some r) (idle : b ∉ s.idequeue)
    (quiet : ∀ c, (views p).io = some c → c = b) (here : s.buf b = r)
    (shape : r.valid = true ∧ r'.dev = r.dev ∧ r'.sector = r.sector ∧ r'.busy = true ∧ r'.valid = true)
    (elsewhere : ∀ dev x, ¬ r.At dev x → last dev x = s.last dev x) (own : w.own = update (views p).own b (some r')) (io : w.io = none)
    (settled : r'.flux = false → r'.dirty = false → r'.data = s.disk r.dev r.sector)
    (marked : r'.flux = false → r'.dirty = true → r.dev = lay.dev ∧ r.sector ∈ tr'.lh.drop tr'.installed)
    (kept : ∀ x, x ∈ tr.lh.drop tr.installed → ¬ r.At lay.dev x → x ∈ tr'.lh.drop tr'.installed)
    (data : ¬ lay.Inside r.dev r.sector → r'.data = last r.dev r.sector)
    (logged : Logged lay { s with buf := update s.buf b r', last := last } (update views p w) tr') :
    Account lay { s with buf := update s.buf b r', last := last } (update views p w) tr' := by
  have taken := acc.held.taken mine
  have holder : s.holder = update s.holder b (some p) := (Function.update_eq_self_iff.mpr ((acc.held.holder b p).mpr (by simp [mine])).symm).symm
  have buf : ∀ c, update s.buf b r' c = if c = b then r' else s.buf c := fun c => update_apply ..
  refine ⟨acc.held.change (o := some r') idle (fun q ne => acc.held.once mine ne) quiet ⟨shape.2.2.2.1,by simp⟩ rfl holder ⟨rfl,rfl⟩ own io,
    acc.keys.rewrite taken (by grind -linarith) (by grind -linarith) (by grind -linarith) buf rfl,?_,logged⟩
  have contents := acc.contents
  -- No other buffer has this one's sector.
  have unique : ∀ c, c ≠ b → (s.buf c).valid = true → ¬ r.At (s.buf c).dev (s.buf c).sector := by
    intro c ne valid
    have := acc.keys.unique b c (.inl taken) (.inr valid)
    grind -linarith
  constructor
  case flux => grind -linarith [contents.flux]
  case clean => grind -linarith [contents.clean]
  case settled => grind -linarith [contents.settled]
  case marked => have := contents.marked; grind -linarith [contents.clean]
  case data => grind -linarith [contents.data]
  case disk =>
    intro dev x out free
    by_cases at_ : r.At dev x
    · have := free b
      grind -linarith
    · refine Eq.trans ?_ (elsewhere dev x at_).symm
      refine contents.disk dev x out fun c valid => ?_
      have := free c
      grind -linarith

theorem Logged.rewrite (logged : Logged lay s views tr) (mine : (views p).own b = some r) (here : s.buf b = r)
    (shape : r.valid = true ∧ r'.dev = r.dev ∧ r'.sector = r.sector ∧ r'.valid = true)
    (flux : r'.flux = true) (dirty : r.dirty = true → r'.dirty = true) (apart : tr.committed = true → ¬ r.At lay.dev lay.start)
    (elsewhere : ∀ dev x, ¬ r.At dev x → last dev x = s.last dev x) :
    Logged lay { s with buf := update s.buf b r', last := last } (update views p ((views p).put b r')) tr := by
  obtain ⟨after,is,self,others,own⟩ := turned views p ((views p).put b r')
  rw [is]
  simp only [View.put,update_apply] at self own
  have buf : ∀ c, update s.buf b r' c = if c = b then r' else s.buf c := fun c => update_apply ..
  constructor
  case trans => grind -linarith [logged.trans]
  case idle => exact logged.idle
  case lh => exact logged.lh
  case fits => exact logged.fits
  case slots => grind -linarith [logged.slots]
  case logged => 
    intro i x left found
    have := logged.logged i x left found
    by_cases at_ : r.At lay.dev x
    · right; exact ⟨b,by grind -linarith,by grind -linarith⟩
    · have := elsewhere lay.dev x at_
      grind -linarith
  case pinned => grind -linarith [logged.pinned]
  case adding =>
    intro x pending
    obtain ⟨q,c,rec,busy,has,valid,there⟩ := logged.adding x pending
    by_cases same : q = p
    · subst same
      by_cases here : c = b
      · subst here
        rw [mine] at has
        cases has
        exact ⟨q,c,r',by grind -linarith,by grind -linarith,by grind -linarith,by grind -linarith⟩
      · exact ⟨q,c,rec,by grind -linarith,by grind -linarith,valid,there⟩
    · exact ⟨q,c,rec,by grind -linarith,by rw [others q same]; exact has,valid,there⟩
  case head => grind -linarith [logged.head]
  case committed => exact logged.committed
  case plain => grind -linarith [logged.plain]
  case logOnly => grind -linarith [logged.logOnly]

theorem Account.iderw (acc : Account lay s views tr) (mine : (views p).own b = some r) (quiet : (views p).io = none)
    (asks : r.valid = r.dirty ∧ r.flux = r.dirty) (writes : r.dirty = true → (views p).plain = some b) :
    Account lay { s with idequeue := s.idequeue ++ [b] } (update views p { (views p).put b (s.served b) with io := some b }) tr := by
  obtain ⟨after,is,self,others,own⟩ := turned views p { (views p).put b (s.served b) with io := some b }
  simp only [View.put,update_apply] at self own
  rw [is]
  have idle := acc.held.unqueued mine quiet
  have here : s.buf b = r := acc.held.known p b r mine (by rw [quiet]; simp)
  have once := fun q ne => acc.held.once (q := q) mine ne
  have served : ∀ c, ({ s with idequeue := s.idequeue ++ [b] } : Cache).served c = s.served c := fun c => rfl
  refine ⟨?_,{ acc.keys with },{ acc.contents with },?_⟩
  · have held := acc.held
    constructor
    case holder => grind -linarith [held.holder]
    case busy => exact held.busy
    case known => grind -linarith [held.known]
    case waits =>
      intro q c rec
      have := held.waits q c rec
      by_cases same : q = p <;> grind -linarith
    case owns => grind -linarith [held.owns]
    case queued => grind -linarith [held.queued]
    case asked => grind -linarith [held.asked]
    case nodup => grind -linarith [held.nodup]
  · have logged := acc.logged
    have key : (s.served b).dev = r.dev ∧ (s.served b).sector = r.sector := by rw [← here]; exact ⟨rfl,rfl⟩
    exact { logged with
      trans := by grind -linarith [logged.trans]
      adding := by
        intro x pending
        obtain ⟨q,c,rec,busy,has,valid,there⟩ := logged.adding x pending
        by_cases moved : q = p ∧ c = b
        · obtain ⟨rfl,rfl⟩ := moved
          rw [mine] at has
          cases has
          exact ⟨q,c,s.served c,busy,by grind -linarith,rfl,by rw [Buf.At,key.1,key.2]; exact there⟩
        · exact ⟨q,c,rec,busy,by grind -linarith,valid,there⟩
      plain := by grind -linarith [logged.plain]
      logOnly := by grind -linarith [logged.logOnly] }

-- What a served request leaves: the buffer and its sector agree.
structure Intr (s t : Cache) (b : Nat) : Prop where
  queue : s.idequeue = b :: t.idequeue
  buf : ∀ c, t.buf c = if c = b then s.served b else s.buf c
  disk : ∀ dev x, t.disk dev x = if (s.buf b).At dev x then (s.served b).data else s.disk dev x
  same : t.holder = s.holder ∧ t.bcache = s.bcache ∧ t.last = s.last ∧ t.logBusy = s.logBusy ∧ t.lh = s.lh

theorem ideintr_intr (ran : s.ideintr = some t) : ∃ b, Intr s t b := by
  unfold Cache.ideintr at ran
  split at ran
  · cases ran
  rename_i b queue head
  cases ran
  refine ⟨b,head,fun c => ?_,fun dev x => ?_,rfl,rfl,rfl,rfl,rfl⟩
  · simp only [Cache.setBuf,Cache.setDisk,Function.update_apply]
  · have key : (s.served b).dev = (s.buf b).dev ∧ (s.served b).sector = (s.buf b).sector := ⟨rfl,rfl⟩
    simp only [Cache.setBuf,Cache.setDisk,Function.update_apply,ite_apply,Buf.At,key]
    grind -linarith

theorem Account.intr (acc : Account lay s views tr) (ran : s.ideintr = some t) : Account lay t views tr := by
  obtain ⟨b,intr⟩ := ideintr_intr ran
  obtain ⟨queue,buf,disk,holder,bcache,last,logBusy,lh⟩ := intr
  have member : b ∈ s.idequeue := by simp [queue]
  obtain ⟨p,waiting,out⟩ := acc.held.queued b member
  obtain ⟨r,mine⟩ := Option.ne_none_iff_exists'.mp (acc.held.owns p b waiting)
  have taken := acc.held.taken mine
  have asked := acc.held.asked b member
  have distinct : b ∉ t.idequeue ∧ t.idequeue.Nodup := by have := acc.held.nodup; rw [queue] at this; simpa using this
  have once := fun q ne => acc.held.once (q := q) mine ne
  have unique : ∀ c, c ≠ b → (s.buf c).Live → ¬ (s.buf b).At (s.buf c).dev (s.buf c).sector := by
    intro c ne live at_
    exact ne (acc.keys.unique b c (.inl taken) live at_).symm
  have shape : (s.served b).dev = (s.buf b).dev ∧ (s.served b).sector = (s.buf b).sector ∧ (s.served b).busy = true ∧
      (s.served b).valid = true ∧ (s.served b).dirty = false ∧ (s.served b).flux = (s.buf b).flux ∧
      ((s.buf b).dirty = true → (s.served b).data = (s.buf b).data) ∧
      ((s.buf b).dirty = false → (s.served b).data = s.disk (s.buf b).dev (s.buf b).sector) := by
    exact ⟨rfl,rfl,taken,rfl,rfl,rfl,fun dirty => by simp [Cache.served,dirty],fun clean => by simp [Cache.served,clean]⟩
  have final : s.served b = r := by
    rcases acc.held.waits p b r waiting mine with ⟨_,eq⟩ | ⟨missing,_⟩
    · exact eq
    · exact absurd member missing
  have served : ∀ c, c ≠ b → (s.buf c).busy = true → t.served c = s.served c := by
    intro c ne busy
    have apart := unique c ne (.inl busy)
    simp only [Cache.served,buf,if_neg ne,disk,if_neg apart]
  refine ⟨?_,acc.keys.rewrite taken shape.2.2.1 shape.1 shape.2.1 buf bcache,?_,?_⟩
  · have held := acc.held
    constructor
    case holder => have := held.holder; grind -linarith
    case busy => grind -linarith [held.busy]
    case known => grind -linarith [held.known]
    case waits =>
      intro q c rec io own
      have before := held.waits q c rec io own
      have busy := held.taken own
      by_cases here : c = b
      · subst here
        right
        refine ⟨distinct.1,?_,?_⟩ <;> simp only [Buf.At] at * <;> grind -linarith
      · have := served c here busy
        have := unique c here (.inl busy)
        grind -linarith
    case owns => exact held.owns
    case queued => grind -linarith [held.queued]
    case asked => grind -linarith [held.asked]
    case nodup => exact distinct.2
  · obtain ⟨flux,clean,settled,marked,data,rest⟩ := acc.contents
    constructor <;> grind -linarith
  · have logged := acc.logged
    exact { logged with
      trans := by grind -linarith [logged.trans]
      idle := by grind -linarith [logged.idle]
      lh := by grind -linarith [logged.lh]
      slots := by grind -linarith [logged.slots]
      logged := by have := logged.logged; grind -linarith
      -- A write on its way is not of a sector that is still to go home.
      pinned := by
        intro x member fixed
        obtain ⟨c,valid,dirty,at_⟩ := logged.pinned x member fixed
        have apart : c ≠ b := by
          rintro rfl
          have := logged.plain p c r (out dirty) mine
          grind -linarith
        exact ⟨c,by rw [buf,if_neg apart]; exact ⟨valid,dirty,at_⟩⟩
      adding := by grind -linarith [logged.adding]
      head := by have := logged.head; grind -linarith
      plain := logged.plain
      logOnly := by grind -linarith [logged.logOnly] }

theorem Account.brelse (acc : Account lay s views tr) (mine : (views p).own b = some r) (quiet : (views p).io = none)
    (valid : r.valid = true) (still : r.flux = false) (marked : ∀ tr, (views p).trans = some tr → tr.adding = none)
    (buf : t.buf = update s.buf b { r with busy := false }) (holder : t.holder = update s.holder b none)
    (bcache : t.bcache = b :: s.bcache.erase b) (disk : t.idequeue = s.idequeue ∧ t.disk = s.disk)
    (same : t.last = s.last ∧ t.logBusy = s.logBusy ∧ t.lh = s.lh) :
    Account lay t (update views p { views p with own := update (views p).own b none, plain := none }) tr := by
  have idle := acc.held.unqueued mine quiet
  have here : s.buf b = r := acc.held.known p b r mine (by rw [quiet]; simp)
  have once := fun q ne => acc.held.once (q := q) mine ne
  have listed : ∀ c, c ∈ t.bcache ↔ c = b ∨ c ∈ s.bcache := by
    intro c
    rw [bcache,List.mem_cons]
    by_cases ne : c = b
    · simp [ne]
    · simp [ne,List.mem_erase_of_ne ne]
  obtain ⟨after,is,self,others,own⟩ := turned views p { views p with own := update (views p).own b none, plain := none }
  have buf' : ∀ c, t.buf c = if c = b then { r with busy := false } else s.buf c := fun c => by rw [buf,update_apply]
  refine ⟨?_,?_,?_,?_⟩
  · exact acc.held.change (o := none) idle once (fun c io => by grind -linarith) ⟨rfl,by simp⟩ buf holder disk rfl quiet
  · obtain ⟨listed,drive,fresh,unique⟩ := acc.keys
    constructor <;> grind -linarith
  · obtain ⟨flux,clean,settled,marked,data,rest⟩ := acc.contents
    constructor <;> grind -linarith
  · rw [is]
    have logged := acc.logged
    exact { logged with
      trans := by grind -linarith [logged.trans]
      idle := by grind -linarith [logged.idle]
      lh := by grind -linarith [logged.lh]
      slots := by have := logged.slots; grind -linarith
      logged := by have := logged.logged; grind -linarith
      pinned := by grind -linarith [logged.pinned]
      adding := by
        intro x pending
        obtain ⟨q,c,rec,busy,has,rest⟩ := logged.adding x pending
        have ne : q ≠ p := by
          rintro rfl
          have := logged.trans q
          grind -linarith
        exact ⟨q,c,rec,by grind -linarith,by rw [others q ne]; exact has,rest⟩
      head := by grind -linarith [logged.head]
      plain := by grind -linarith [logged.plain]
      logOnly := by grind -linarith [logged.logOnly] }

-- bget hands out buffer b, as it stood or empty.
structure Gets (s : Cache) (b dev x : Nat) (r : Buf) : Prop where
  free : (s.buf b).busy = false
  listed : b ∈ s.bcache
  shape : r.At dev x ∧ r.busy = true ∧ r.flux = false
  kept : ((s.buf b).valid = true ∧ (s.buf b).At dev x ∧ r = { s.buf b with busy := true }) ∨
    ((∀ c, (s.buf c).Live → ¬ (s.buf c).At dev x) ∧ (s.buf b).dirty = false ∧ r.valid = false ∧ r.dirty = false)

theorem Account.bget (acc : Account lay s views tr) (gets : Gets s b dev x r) (drive : dev < 2)
    (inside : lay.Inside dev x → s.logBusy = some p) (quiet : (views p).io = none) :
    Account lay { s with buf := update s.buf b r, holder := update s.holder b (some p) }
      (update views p { (views p).put b r with plain := none }) tr := by
  obtain ⟨free,listed,shape,kept⟩ := gets
  have unheld : ∀ q, (views q).own b = none := by
    intro q
    have := acc.held.holder b q
    have := acc.held.busy b
    grind -linarith
  have idle : b ∉ s.idequeue := by
    intro member
    obtain ⟨q,waiting,_⟩ := acc.held.queued b member
    exact acc.held.owns q b waiting (unheld q)
  have still : (s.buf b).flux = false := by have := acc.contents.flux b; grind -linarith
  obtain ⟨after,is,self,others,own⟩ := turned views p { (views p).put b r with plain := none }
  simp only [View.put,update_apply] at self own
  have buf : ∀ c, update s.buf b r c = if c = b then r else s.buf c := fun c => update_apply ..
  refine ⟨?_,?_,?_,?_⟩
  · exact acc.held.change idle (fun q _ => unheld q) (fun c io => by grind -linarith) ⟨shape.2.1,by simp⟩ rfl rfl ⟨rfl,rfl⟩ rfl quiet
  · obtain ⟨listed,drive,fresh,unique⟩ := acc.keys
    constructor <;> grind -linarith
  · have contents := acc.contents
    constructor
    case flux => grind -linarith [contents.flux]
    case clean => grind -linarith [contents.clean]
    case settled => grind -linarith [contents.settled]
    case marked => grind -linarith [contents.marked]
    case data => grind -linarith [contents.data]
    case disk =>
      intro d y out missing
      by_cases gone : (s.buf b).valid = true ∧ (s.buf b).At d y
      · -- The buffer that held this sector is recycled. It was clean.
        have settled := contents.settled b gone.1 still
        have data := contents.data b gone.1
        have := missing b
        grind -linarith
      · refine contents.disk d y out fun c valid => ?_
        have := missing c
        grind -linarith
  · rw [is]
    have logged := acc.logged
    exact { logged with
      trans := by grind -linarith [logged.trans]
      slots := by grind -linarith [logged.slots]
      logged := by grind -linarith [logged.logged]
      pinned := by grind -linarith [logged.pinned]
      adding := by
        intro x pending
        obtain ⟨q,c,rec,busy,has,rest⟩ := logged.adding x pending
        have ne : c ≠ b := by
          rintro rfl
          rw [unheld q] at has
          cases has
        exact ⟨q,c,rec,by grind -linarith,by by_cases same : q = p <;> grind -linarith,rest⟩
      head := by grind -linarith [logged.head]
      plain := by grind -linarith [logged.plain]
      logOnly := by grind -linarith [logged.logOnly] }

section
variable (logged : Logged lay s views tr) (mine : (views p).own b = some r) (here : s.buf b = r)
include logged mine here

theorem Logged.done (written : s.disk r.dev r.sector = r.data)
    (plan : r.flux = true → (views p).plain = some b) (fields : tr'.lh = tr.lh ∧ tr'.installed = tr.installed ∧ tr'.adding = tr.adding)
    (slots : ∀ i, i+1 < lay.size → tr'.logged i = if r.At lay.dev (lay.start+i+1) then r.data else tr.logged i)
    (entries : ∀ i x, tr.installed ≤ i → tr.lh[i]? = some x → r.At lay.dev (lay.start+i+1) →
      r.data = s.last lay.dev x ∨ ∃ c, c ≠ b ∧ (s.buf c).flux = true ∧ (s.buf c).At lay.dev x)
    (head : tr'.committed = true → Store.headN (s.disk lay.dev lay.start) = tr.lh.length ∧
      ∀ c, c ≠ b → (s.buf c).flux = true → ¬ (s.buf c).At lay.dev lay.start)
    (commit : 0 < tr.installed → tr'.committed = true) (whose : tr' = tr ∨ s.logBusy = some p) :
    Logged lay { s with buf := update s.buf b { r with flux := false } } (update views p
      { (views p).put b { r with flux := false } with io := none, plain := none, trans := (views p).trans.map fun _ => tr' }) tr' := by
  obtain ⟨after,is,self,others,own⟩ := turned views p
    { (views p).put b { r with flux := false } with io := none, plain := none, trans := (views p).trans.map fun _ => tr' }
  rw [is]
  generalize new : ({ r with flux := false } : Buf) = r' at *
  simp only [View.put,update_apply] at self own
  have buf : ∀ c, update s.buf b r' c = if c = b then r' else s.buf c := fun c => update_apply ..
  constructor
  case trans =>
    intro q
    have := logged.trans q
    by_cases same : q = p
    · grind -linarith
    · grind -linarith
  case idle => exact logged.idle
  case lh => rw [fields.1]; exact logged.lh
  case fits =>
    obtain ⟨nodup,out,room,cap⟩ := logged.fits
    constructor <;> rw [fields.1] <;> assumption
  case slots => grind -linarith [logged.slots]
  case logged =>
    intro i x left found
    rw [fields.2.1] at left
    rw [fields.1] at found
    have bound := logged.fits.room i (List.getElem?_eq_some_iff.mp found).1
    rw [slots i bound]
    by_cases at_ : r.At lay.dev (lay.start+i+1)
    · rw [if_pos at_]
      rcases entries i x left found at_ with known | ⟨c,apart,flux,there⟩
      · exact .inl known
      · exact .inr ⟨c,by dsimp only; rw [buf,if_neg apart]; exact ⟨flux,there⟩⟩
    rw [if_neg at_]
    rcases logged.logged i x left found with known | ⟨c,flux,there⟩
    · exact .inl known
    have apart : c ≠ b := by
      rintro rfl
      rw [here] at flux there
      refine logged.plain p c r (plan flux) mine there.1 ?_
      rw [there.2]
      exact mem_drop.mpr ⟨i,left,found⟩
    exact .inr ⟨c,by dsimp only; rw [buf,if_neg apart]; exact ⟨flux,there⟩⟩
  case pinned => grind -linarith [logged.pinned]
  case adding =>
    intro x pending
    obtain ⟨q,c,rec,busy,has,valid,there⟩ := logged.adding x (fields.2.2 ▸ pending)
    by_cases same : q = p
    · subst same
      by_cases here : c = b
      · subst here
        rw [mine] at has
        cases has
        exact ⟨q,c,r',by grind -linarith,by grind -linarith,by grind -linarith,by grind -linarith⟩
      · exact ⟨q,c,rec,by grind -linarith,by grind -linarith,valid,there⟩
    · exact ⟨q,c,rec,by grind -linarith,by rw [others q same]; exact has,valid,there⟩
  case head => grind -linarith
  case committed => grind -linarith
  case plain => grind -linarith [logged.plain]
  case logOnly => grind -linarith [logged.logOnly]

theorem Logged.pin (valid : r.valid = true) (home : r.dev = lay.dev)
    (out : ¬ lay.Inside r.dev r.sector) (log : tr.adding = none ∨ tr.adding = some r.sector)
    (entry : ∀ i, tr.lh[i]? = some r.sector → tr.logged i = s.last lay.dev r.sector) (whose : s.logBusy = some p) :
    Logged lay { s with buf := update s.buf b { r with dirty := true, flux := false } } (update views p
      { (views p).put b { r with dirty := true, flux := false } with plain := none, trans := some { tr with adding := none } })
      { tr with adding := none } := by
  obtain ⟨after,is,self,others,own⟩ := turned views p
    { (views p).put b { r with dirty := true, flux := false } with plain := none, trans := some { tr with adding := none } }
  generalize new : ({ r with dirty := true, flux := false } : Buf) = r' at *
  have buf : ∀ c, update s.buf b r' c = if c = b then r' else s.buf c := fun c => update_apply ..
  -- The blocks of the log are elsewhere.
  have apart : ∀ y, lay.Inside lay.dev y → ¬ r.At lay.dev y := by
    intro y inside at_
    exact out (by rw [at_.1,at_.2]; exact inside)
  exact { logged with
    fits := { logged.fits with }
    trans := by grind -linarith [logged.trans]
    slots := by
      intro i bound free
      refine logged.slots i bound fun c flux => ?_
      have := apart (lay.start+i+1) ⟨rfl,by omega,by omega⟩
      have := free c
      grind -linarith
    logged := by
      intro i x left found
      have before := logged.logged i x left found
      have := entry i
      grind -linarith
    pinned := by
      intro x member _
      by_cases mark : x = r.sector
      · exact ⟨b,by dsimp only; rw [buf,if_pos rfl,← new]; exact ⟨valid,rfl,home,mark.symm⟩⟩
      obtain ⟨c,rest⟩ := logged.pinned x member (by grind -linarith)
      have apart : c ≠ b := by
        rintro rfl
        rw [here] at rest
        exact mark rest.2.2.2.symm
      exact ⟨c,by dsimp only; rw [buf,if_neg apart]; exact rest⟩
    adding := by simp
    head := by grind -linarith [logged.head]
    plain := by grind -linarith [logged.plain]
    logOnly := by grind -linarith [logged.logOnly] }

end

section
variable (acc : Account lay s views tr)
include acc

theorem Account.append (whose : s.logBusy = some p) (mine : (views p).own b = some r)
    (quiet : (views p).io = none) (at_ : r.At lay.dev x) (valid : r.valid = true) (out : ¬ lay.Inside lay.dev x) (fresh : x ∉ tr.lh)
    (room : tr.lh.length+1 < lay.size) (cap : tr.lh.length < LOGSIZE) (start : tr.installed = 0 ∧ tr.committed = false)
    (entry : tr.logged tr.lh.length = r.data) (done : tr.adding = none) :
    Account lay { s with lh := s.lh ++ [x] } (update views p { views p with plain := none, trans := some { tr with lh := tr.lh ++ [x], adding := some x } })
      { tr with lh := tr.lh ++ [x], adding := some x } := by
  obtain ⟨after,is,self,others,own⟩ := turned views p { views p with plain := none, trans := some { tr with lh := tr.lh ++ [x], adding := some x } }
  have here : s.buf b = r := acc.held.known p b r mine (by rw [quiet]; simp)
  refine ⟨?_,{ acc.keys with },?_,?_⟩
  · exact acc.held.shift ⟨rfl,rfl,rfl,rfl⟩ rfl rfl (.inl quiet)
  · exact { acc.contents with
      marked := by
        intro c still dirty
        have old := acc.contents.marked c still dirty
        grind -linarith }
  · rw [is]
    have logged := acc.logged
    exact { logged with
      trans := by grind -linarith [logged.trans]
      idle := by simp [whose]
      lh := by rw [logged.lh]
      fits := logged.fits.append fresh out room cap
      logged := by
        intro i y left found
        have before := logged.logged i y left
        have data := acc.contents.data b
        grind -linarith
      pinned := by
        intro y member ne
        have old := logged.pinned y
        grind -linarith
      adding := by
        intro y eq
        cases eq
        exact ⟨p,b,r,whose,by rw [self]; exact mine,valid,at_⟩
      head := by grind -linarith
      plain := by
        intro q c rec planned has dev member
        -- The new sector is in the hands of p, who is not in bwrite.
        have ne : q ≠ p := by rintro rfl; rw [self] at planned; cases planned
        rw [others q ne] at planned has
        have old := logged.plain q c rec planned has dev
        have taken := acc.held.taken has
        have key := acc.held.key has
        have only := acc.keys.unique c b (.inl taken) (.inl (acc.held.taken mine))
        have other := acc.held.once mine ne
        grind -linarith
      logOnly := by grind -linarith [logged.logOnly] }

-- An empty transaction, for the one who has the log or takes it.
theorem Account.restart (whose : s.logBusy = some p ∨ s.logBusy = none) (home : tr.lh.drop tr.installed = []) :
    Account lay { s with lh := [], logBusy := some p } (update views p { views p with trans := some ⟨[],tr.logged,0,none,false⟩ })
      ⟨[],tr.logged,0,none,false⟩ := by
  obtain ⟨after,is,self,others,own⟩ := turned views p { views p with trans := some ⟨[],tr.logged,0,none,false⟩ }
  refine ⟨?_,{ acc.keys with },?_,?_⟩
  · exact acc.held.shift ⟨rfl,rfl,rfl,rfl⟩ rfl rfl (.inr rfl)
  · exact { acc.contents with
      marked := by
        intro c still dirty
        have := acc.contents.marked c still dirty
        simp [home] at this }
  · have logged := acc.logged
    exact { logged with
      trans := by grind -linarith [logged.trans]
      idle := fun _ => rfl
      lh := rfl
      fits := ⟨by simp,by simp,by simp,by simp⟩
      logged := by simp
      pinned := by simp
      adding := by simp
      head := by simp
      committed := by simp
      plain := by simp
      logOnly := by grind -linarith [logged.logOnly] }

theorem Account.clear (whose : s.logBusy = some p) (home : tr.installed = tr.lh.length) :
    Account lay { s with lh := [] } (update views p { views p with trans := some ⟨[],tr.logged,0,none,false⟩ }) ⟨[],tr.logged,0,none,false⟩ := by
  have restarted := acc.restart (.inl whose) (by rw [home,List.drop_length])
  rwa [← whose] at restarted

theorem Account.begin (free : s.logBusy = none) : Account lay { s with logBusy := some p }
    (update views p { views p with trans := some ⟨[],tr.logged,0,none,false⟩ }) ⟨[],tr.logged,0,none,false⟩ := by
  have empty := acc.logged.idle free
  have restarted := acc.restart (p := p) (.inr free) (by rw [← acc.logged.lh,empty,List.drop_nil])
  have same : { s with lh := [], logBusy := some p } = { s with logBusy := some p } := by rw [← empty]
  rwa [same] at restarted

theorem Account.finish (whose : s.logBusy = some p) (empty : tr.lh = []) (done : tr.adding = none)
    (out : ∀ b r, (views p).own b = some r → ¬ lay.Inside r.dev r.sector) :
    Account lay { s with logBusy := none } (update views p { views p with trans := none }) tr := by
  obtain ⟨after,is,self,others,own⟩ := turned views p { views p with trans := none }
  have logged := acc.logged
  refine ⟨?_,{ acc.keys with },{ acc.contents with },?_⟩
  · exact acc.held.shift ⟨rfl,rfl,rfl,rfl⟩ rfl rfl (.inr rfl)
  · rw [is]
    exact { logged with
      trans := by grind -linarith [logged.trans]
      idle := fun _ => by rw [logged.lh,empty]
      adding := by simp [done]
      plain := by grind -linarith [logged.plain]
      logOnly := by
        intro q b r has inside
        by_cases same : q = p
        · subst same
          rw [self] at has
          exact absurd inside (out b r has)
        · rw [others q same] at has
          have := logged.logOnly q b r has inside
          grind -linarith }

theorem Account.plan (mine : (views p).own b = some r)
    (clear : r.dev = lay.dev → r.sector ∉ tr.lh.drop tr.installed) (quiet : (views p).io = none) :
    Account lay s (update views p { views p with plain := some b }) tr := by
  obtain ⟨after,is,self,others,own⟩ := turned views p { views p with plain := some b }
  have logged := acc.logged
  refine ⟨?_,acc.keys,acc.contents,?_⟩
  · exact acc.held.shift ⟨rfl,rfl,rfl,rfl⟩ rfl rfl (.inl quiet)
  · rw [is]
    exact { logged with
      adding := by
        intro x pending
        obtain ⟨q,c,rec,busy,has,rest⟩ := logged.adding x pending
        exact ⟨q,c,rec,busy,by by_cases same : q = p <;> grind -linarith,rest⟩
      trans := by grind -linarith [logged.trans]
      plain := by grind -linarith [logged.plain]
      logOnly := by
        intro q c rec has
        by_cases same : q = p
        · exact logged.logOnly q c rec (by subst same; rw [self] at has; exact has)
        · exact logged.logOnly q c rec (others q same ▸ has) }

theorem Account.install (whose : s.logBusy = some p) (mine : (views p).own b = some r)
    (quiet : (views p).io = none) (flux : r.flux = true) (next : tr.lh[tr.installed]? = some r.sector) (home : r.dev = lay.dev)
    (committed : tr.committed = true) : Account lay s (update views p { views p with plain := some b, trans := some { tr with installed := tr.installed+1 } })
      { tr with installed := tr.installed+1 } := by
  obtain ⟨after,is,self,others,own⟩ := turned views p { views p with plain := some b, trans := some { tr with installed := tr.installed+1 } }
  have logged := acc.logged
  have here : s.buf b = r := acc.held.known p b r mine (by rw [quiet]; simp)
  have inside := (List.getElem?_eq_some_iff.mp next)
  have split : tr.lh.drop tr.installed = r.sector :: tr.lh.drop (tr.installed+1) := by
    rw [List.drop_eq_getElem_cons inside.1,inside.2]
  have gone : r.sector ∉ tr.lh.drop (tr.installed+1) := by
    have := logged.fits.nodup.sublist (List.drop_sublist tr.installed tr.lh)
    rw [split] at this
    exact (List.nodup_cons.mp this).1
  have taken := acc.held.taken mine
  refine ⟨?_,acc.keys,?_,?_⟩
  · exact acc.held.shift ⟨rfl,rfl,rfl,rfl⟩ rfl rfl (.inl quiet)
  · exact { acc.contents with
      marked := by
        intro c still dirty
        have old := acc.contents.marked c still dirty
        have clean := acc.contents.clean c
        have only := acc.keys.unique b c (.inl taken)
        grind -linarith }
  · rw [is]
    exact { logged with
      fits := { logged.fits with }
      adding := by
        intro x pending
        obtain ⟨q,c,rec,busy,has,rest⟩ := logged.adding x pending
        exact ⟨q,c,rec,busy,by by_cases same : q = p <;> grind -linarith,rest⟩
      trans := by grind -linarith [logged.trans]
      logged := fun i x left found => logged.logged i x (by simp only at left; omega) found
      pinned := by
        intro x member ne
        exact logged.pinned x (by rw [split]; exact .tail _ member) ne
      committed := fun _ => committed
      plain := by
        intro q c rec planned has dev
        by_cases same : q = p
        · grind -linarith
        · rw [others q same] at planned has
          have old := logged.plain q c rec planned has dev
          rw [split] at old
          exact fun member => old (.tail _ member)
      logOnly := by grind -linarith [logged.logOnly] }

end

end

end Xv6.Bio
