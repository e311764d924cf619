import Xv6.Bio.Account

namespace Xv6.Bio
open Function (update update_apply update_eq_self update_of_ne update_self)
open Threads

-- The operations as a process sees them.

abbrev Does (lay : Layout) (p : Nat) (c : Prog α) (v : View) (post : α → View → Prop) : Prop := Meets exec (Inv lay) p c v post

section
variable {lay : Layout} {p b : Nat} {r : Buf} {v : View}

theorem does_keep {o : Op} {f : Cache → Res o} {x : Res o} (ran : ∀ s, exec p o s = some (f s,s))
    (result : ∀ s views tr, Account lay s views tr → views p = v → f s = x) :
    Does lay p (act o) v fun y w => y = x ∧ w = v := by
  intro s views y t ⟨tr,acc⟩ here done
  rw [ran] at done
  cases done
  refine ⟨v,⟨tr,?_⟩,result s views tr acc here,rfl⟩
  rw [← here,update_eq_self]
  exact acc

theorem does_key (mine : v.own b = some r) : Does lay p (act (.key b)) v fun y w => y = (r.dev,r.sector) ∧ w = v :=
  does_keep (fun _ => rfl) fun s views tr acc here => by
    have key := acc.held.key (here ▸ mine)
    rw [key.1,key.2]

theorem does_valid (mine : v.own b = some r) (quiet : v.io = none) : Does lay p (act (.valid b)) v fun y w => y = r.valid ∧ w = v :=
  does_keep (fun _ => rfl) fun s views tr acc here => by
    rw [acc.held.known p b r (here ▸ mine) (by rw [here,quiet]; simp)]

theorem does_load (mine : v.own b = some r) (quiet : v.io = none) : Does lay p (act (.load b)) v fun y w => y = r.data ∧ w = v :=
  does_keep (fun _ => rfl) fun s views tr acc here => by
    rw [acc.held.known p b r (here ▸ mine) (by rw [here,quiet]; simp)]

theorem Account.mine_trans {s : Cache} (acc : Account lay s views tr) (trans : (views p).trans = some tr') : tr = tr' ∧ s.logBusy = some p := by
  have := acc.logged.trans p
  grind -linarith

theorem does_head (trans : v.trans = some tr) : Does lay p (act .head) v fun y w => y = tr.lh ∧ w = v :=
  does_keep (fun _ => rfl) fun s views tr' acc here => by
    rw [acc.logged.lh,(acc.mine_trans (here ▸ trans)).1]

theorem does_busy (trans : v.trans = some tr) : Does lay p (act .busy) v fun y w => y = true ∧ w = v :=
  does_keep (fun _ => rfl) fun s views tr' acc here => by
    rw [(acc.mine_trans (here ▸ trans)).2]; rfl

theorem Account.at_hand {s : Cache} (acc : Account lay s views tr) (mine : (views p).own b = some r) (quiet : (views p).io = none) :
    s.buf b = r ∧ r.busy = true ∧ b ∉ s.idequeue := by
  have known := acc.held.known p b r mine (by rw [quiet]; simp)
  exact ⟨known,known ▸ acc.held.taken mine,acc.held.unqueued mine quiet⟩

section
variable (mine : v.own b = some r) (quiet : v.io = none) (valid : r.valid = true)
include mine quiet valid

theorem does_store (trans : v.trans = some tr)
    (same : ∀ s views, Account lay s views tr → views p = v → ¬ lay.Inside r.dev r.sector → data = s.last r.dev r.sector)
    (apart : tr.committed = true → ¬ r.At lay.dev lay.start) :
    Does lay p (act (.store b data)) v fun _ w => w = v.put b { r with data := data, flux := true } := by
  intro s views y t ⟨tr',acc⟩ here done
  cases done
  subst here
  obtain ⟨rfl,busy⟩ := acc.mine_trans trans
  obtain ⟨known,taken,idle⟩ := acc.at_hand mine quiet
  have data := same s views acc rfl
  subst known
  refine ⟨_,⟨tr',?_⟩,rfl⟩
  refine acc.rewrite mine idle (by simp [quiet]) rfl ⟨valid,rfl,rfl,taken,valid⟩ (fun _ _ _ => rfl) rfl quiet (by simp) (by simp)
    (fun x member _ => member) data ?_
  exact acc.logged.rewrite mine rfl ⟨valid,rfl,rfl,valid⟩ rfl (fun dirty => dirty) apart fun _ _ _ => rfl

theorem does_change (apart : ¬ r.At lay.dev lay.start) :
    Does lay p (act (.change b data)) v fun _ w => w = v.put b { r with data := data, flux := true } := by
  intro s views y t ⟨tr,acc⟩ here done
  cases done
  subst here
  obtain ⟨known,taken,idle⟩ := acc.at_hand mine quiet
  subst known
  have last : ∀ dev x, (Cache.setLast s (s.buf b).dev (s.buf b).sector data).last dev x = if (s.buf b).At dev x then data else s.last dev x := by
    intro dev x
    simp only [Cache.setLast,update_apply,ite_apply]
    grind -linarith
  refine ⟨_,⟨tr,?_⟩,rfl⟩
  refine acc.rewrite mine idle (by simp [quiet]) rfl ⟨valid,rfl,rfl,taken,valid⟩ (fun dev x other => (last dev x).trans (if_neg other)) rfl quiet
    (by simp) (by simp) (fun x member _ => member) (fun _ => ((last ..).trans (if_pos ⟨rfl,rfl⟩)).symm) ?_
  exact acc.logged.rewrite mine rfl ⟨valid,rfl,rfl,valid⟩ rfl (fun dirty => dirty) (fun _ => apart) fun dev x other => (last dev x).trans (if_neg other)

theorem does_dirty (apart : ∀ tr, v.trans = some tr → tr.committed = true → ¬ r.At lay.dev lay.start) (mineOnly : v.trans = none → ¬ r.At lay.dev lay.start) :
    Does lay p (act (.dirty b)) v fun _ w => w = v.put b { r with dirty := true, flux := true } := by
  intro s views y t ⟨tr,acc⟩ here done
  cases done
  subst here
  obtain ⟨known,taken,idle⟩ := acc.at_hand mine quiet
  subst known
  refine ⟨_,⟨tr,?_⟩,rfl⟩
  refine acc.rewrite mine idle (by simp [quiet]) rfl ⟨valid,rfl,rfl,taken,valid⟩ (fun _ _ _ => rfl) rfl quiet (by simp) (by simp)
    (fun x member _ => member) (acc.contents.data b valid) ?_
  refine acc.logged.rewrite mine rfl ⟨valid,rfl,rfl,valid⟩ rfl (fun _ => rfl) (fun committed => ?_) fun _ _ _ => rfl
  cases whose : (views p).trans with
  | none => exact mineOnly whose
  | some tr' => exact apart tr' whose ((acc.mine_trans whose).1 ▸ committed)

end

theorem does_pin (tr : Trans) (mine : v.own b = some r) (quiet : v.io = none) (valid : r.valid = true) (out : ¬ lay.Inside r.dev r.sector) (home : r.dev = lay.dev)
    (trans : v.trans = some tr) (entered : r.sector ∈ tr.lh.drop tr.installed) (log : tr.adding = none ∨ tr.adding = some r.sector)
    (entry : ∀ i, tr.lh[i]? = some r.sector → tr.logged i = r.data) :
    Does lay p (act (.pin b)) v fun _ w => w = { v.put b { r with dirty := true, flux := false } with plain := none, trans := some { tr with adding := none } } := by
  intro s views y t ⟨tr',acc⟩ here done
  cases done
  subst here
  obtain ⟨rfl,busy⟩ := acc.mine_trans trans
  obtain ⟨known,taken,idle⟩ := acc.at_hand mine quiet
  subst known
  have data := acc.contents.data b valid out
  refine ⟨_,⟨{ tr' with adding := none },?_⟩,rfl⟩
  refine acc.rewrite mine idle (by simp [quiet]) rfl ⟨valid,rfl,rfl,taken,valid⟩ (fun _ _ _ => rfl) rfl quiet (by simp)
    (fun _ _ => ⟨home,entered⟩) (fun x member _ => member) (fun _ => data) ?_
  exact acc.logged.pin mine rfl valid home out log (fun i found => (entry i found).trans (home ▸ data)) busy

theorem does_iderw (mine : v.own b = some r) (quiet : v.io = none) (asks : r.valid = r.dirty ∧ r.flux = r.dirty)
    (writes : r.dirty = true → v.plain = some b) :
    Does lay p (act (.iderw b)) v fun _ w => ∃ data, (r.dirty = true → data = r.data) ∧
      w = { v.put b { r with valid := true, dirty := false, data := data } with io := some b } := by
  intro s views y t ⟨tr,acc⟩ here done
  subst here
  obtain ⟨known,taken,idle⟩ := acc.at_hand mine quiet
  simp only [exec] at done
  split at done
  · cases done
    have served : s.served b = { r with valid := true, dirty := false, data := (s.served b).data } := by
      rw [Cache.served,known]
    refine ⟨_,⟨tr,acc.iderw mine quiet asks writes⟩,(s.served b).data,fun dirty => ?_,?_⟩
    · simp [Cache.served,known,dirty]
    · rw [← served]
  · cases done

-- What a transaction learns when the disk is done with a buffer of its process.
structure Learns (lay : Layout) (s : Cache) (b : Nat) (r : Buf) (tr tr' : Trans) : Prop where
  lh : tr'.lh = tr.lh
  installed : tr'.installed = tr.installed
  adding : tr'.adding = tr.adding
  slots : ∀ i, i+1 < lay.size → tr'.logged i = if r.At lay.dev (lay.start+i+1) then r.data else tr.logged i
  entries : ∀ i x, tr.installed ≤ i → tr.lh[i]? = some x → r.At lay.dev (lay.start+i+1) →
    r.data = s.last lay.dev x ∨ ∃ c, c ≠ b ∧ (s.buf c).flux = true ∧ (s.buf c).At lay.dev x
  head : tr'.committed = true → tr.committed = true ∨ r.At lay.dev lay.start ∧ Store.headN r.data = tr.lh.length
  stays : tr.committed = true → tr'.committed = true

theorem does_done (tr' : Trans) (mine : v.own b = some r) (waits : v.io = some b) (fresh : r.valid = true ∧ r.dirty = false)
    (plan : r.flux = true → v.plain = some b) (other : v.trans = none → ¬ lay.Inside r.dev r.sector)
    (log : ∀ s views tr, Account lay s views tr → views p = v → v.trans = some tr → s.buf b = r → s.disk r.dev r.sector = r.data →
      Learns lay s b r tr tr') :
    Does lay p (act (.done b)) v fun _ w =>
      w = { v.put b { r with flux := false } with io := none, plain := none, trans := v.trans.map fun _ => tr' } := by
  intro s views y t ⟨tr,acc⟩ here done
  subst here
  simp only [exec] at done
  split at done
  case isFalse => cases done
  rename_i ready
  cases done
  -- The request is no longer in the queue.
  obtain ⟨idle,known,written⟩ : b ∉ s.idequeue ∧ s.buf b = r ∧ s.disk r.dev r.sector = r.data := by
    rcases acc.held.waits p b r waits mine with ⟨member,_⟩ | final
    · have := acc.held.asked b member
      grind -linarith
    · exact final
  subst known
  have taken := acc.held.taken mine
  refine ⟨_,?_,rfl⟩
  suffices ∃ next, (next.lh = tr.lh ∧ next.installed = tr.installed) ∧ Logged lay _ _ next by
    obtain ⟨next,same,logged⟩ := this
    exact ⟨next,acc.rewrite mine idle (by simp [waits]) rfl ⟨fresh.1,rfl,rfl,taken,fresh.1⟩ (fun _ _ _ => rfl) rfl rfl (fun _ _ => written.symm)
      (by simp [fresh.2]) (fun x member _ => by rw [same.1,same.2]; exact member) (acc.contents.data b fresh.1) logged⟩
  cases trans : (views p).trans with
  | none =>
    have out := other trans
    have apart : ∀ y, lay.Inside lay.dev y → ¬ (s.buf b).At lay.dev y := fun y within at_ => out (by rw [at_.1,at_.2]; exact within)
    have log := acc.logged.done mine rfl written plan ⟨rfl,rfl,rfl⟩ (fun i small => ?_) (fun i x left found at_ => ?_)
      (fun committed => ⟨(acc.logged.head committed).1,fun c _ flux => (acc.logged.head committed).2 c flux⟩) acc.logged.committed (.inl rfl)
    · rw [trans] at log
      exact ⟨tr,⟨rfl,rfl⟩,log⟩
    · rw [if_neg (apart (lay.start+i+1) ⟨rfl,by omega,by omega⟩)]
    · have := acc.logged.fits.room i (List.getElem?_eq_some_iff.mp found).1
      exact absurd at_ (apart (lay.start+i+1) ⟨rfl,by omega,by omega⟩)
  | some tr =>
    obtain ⟨rfl,busy⟩ := acc.mine_trans trans
    obtain ⟨lh,installed,adding,slots,entries,head,stays⟩ := log s views _ acc rfl trans rfl written
    refine ⟨tr',⟨lh,installed⟩,trans ▸ acc.logged.done mine rfl written plan ⟨lh,installed,adding⟩ slots entries (fun committed => ?_)
      (fun some => stays (acc.logged.committed some)) (.inr busy)⟩
    rcases head committed with before | ⟨at_,names⟩
    · exact ⟨(acc.logged.head before).1,fun c _ flux => (acc.logged.head before).2 c flux⟩
    refine ⟨by rw [← names,← written,at_.1,at_.2],fun c ne flux there => ?_⟩
    have live := acc.contents.flux c flux
    refine ne (acc.keys.unique c b (.inl live.1) (.inl taken) ?_)
    rw [at_.1,at_.2]
    exact there

theorem does_brelse (mine : v.own b = some r) (quiet : v.io = none) (valid : r.valid = true) (still : r.flux = false)
    (marked : ∀ tr, v.trans = some tr → tr.adding = none) :
    Does lay p (act (.brelse b)) v fun _ w => w = { v with own := update v.own b none, plain := none } := by
  intro s views y t ⟨tr,acc⟩ here done
  subst here
  obtain ⟨known,taken,idle⟩ := acc.at_hand mine quiet
  subst known
  simp only [exec,taken,if_true] at done
  cases done
  exact ⟨_,⟨tr,acc.brelse mine quiet valid still marked rfl rfl rfl ⟨rfl,rfl⟩ ⟨rfl,rfl,rfl⟩⟩,rfl⟩

theorem bget_gets {s : Cache} (acc : Account lay s views tr) (drive : dev < 2) (ran : s.bget p dev x = some (b,t)) :
    ∃ r, Gets s b dev x r ∧ (r.valid = false → r.dirty = false) ∧ t = (s.setBuf b fun _ => r).setHolder b (some p) := by
  unfold Cache.bget at ran
  split at ran
  · rename_i c found
    split at ran
    · cases ran
    rename_i free
    cases ran
    have key := List.find?_some found
    simp only [decide_eq_true_eq] at key
    have listed := List.mem_of_find?_eq_some found
    have free : (s.buf b).busy = false := by simpa using free
    have still : (s.buf b).flux = false := by have := acc.contents.flux b; grind -linarith
    -- A listed buffer of a drive is in use.
    have valid : (s.buf b).valid = true := by
      by_contra dead
      have := acc.keys.fresh b listed (by simp [Buf.Live,free,dead])
      omega
    exact ⟨{ s.buf b with busy := true },⟨free,listed,⟨key,rfl,still⟩,.inl ⟨valid,key,rfl⟩⟩,by simp [valid],rfl⟩
  · rename_i missed
    split at ran
    · cases ran
    rename_i c found
    cases ran
    have clean := List.find?_some found
    simp only [decide_eq_true_eq] at clean
    have listed := List.mem_reverse.mp (List.mem_of_find?_eq_some found)
    refine ⟨⟨dev,x,true,false,false,(s.buf b).data,false⟩,⟨clean.1,listed,⟨⟨rfl,rfl⟩,rfl,rfl⟩,.inr ⟨fun c live at_ => ?_,clean.2,rfl,rfl⟩⟩,by simp,rfl⟩
    have none := List.find?_eq_none.mp missed c (acc.keys.listed c live)
    exact none (decide_eq_true at_)

theorem does_bget (quiet : v.io = none) (drive : dev < 2) (inside : lay.Inside dev x → v.trans ≠ none) :
    Does lay p (act (.bget dev x)) v fun b w => ∃ r, v.own b = none ∧ r.At dev x ∧ r.flux = false ∧ (r.valid = false → r.dirty = false) ∧
      w = { v.put b r with plain := none } := by
  intro s views (b : Nat) t ⟨tr,acc⟩ here done
  subst here
  have inside : lay.Inside dev x → s.logBusy = some p := by
    intro within
    obtain ⟨tr',trans⟩ := Option.ne_none_iff_exists'.mp (inside within)
    exact (acc.mine_trans trans).2
  obtain ⟨r,gets,clean,rfl⟩ := bget_gets acc drive done
  have unheld : (views p).own b = none := by
    have := acc.held.holder b p
    have := acc.held.busy b
    have := gets.free
    grind -linarith
  exact ⟨_,⟨tr,acc.bget gets drive inside quiet⟩,r,unheld,gets.shape.1,gets.shape.2.2,clean,rfl⟩

theorem does_begin : Does lay p (act .begin) v fun _ w => ∃ logged, w = { v with trans := some ⟨[],logged,0,none,false⟩ } := by
  intro s views y t ⟨tr,acc⟩ here done
  subst here
  simp only [exec] at done
  split at done
  case isFalse => cases done
  rename_i free
  cases done
  exact ⟨_,⟨_,acc.begin free⟩,tr.logged,rfl⟩

theorem does_append (tr : Trans) (mine : v.own b = some r) (quiet : v.io = none) (trans : v.trans = some tr) (at_ : r.At lay.dev x) (valid : r.valid = true)
    (out : ¬ lay.Inside lay.dev x) (fresh : x ∉ tr.lh) (room : tr.lh.length+1 < lay.size) (cap : tr.lh.length < LOGSIZE)
    (start : tr.installed = 0 ∧ tr.committed = false) (entry : tr.logged tr.lh.length = r.data) (done : tr.adding = none) :
    Does lay p (act (.setHead (tr.lh ++ [x]))) v fun _ w =>
      w = { v with plain := none, trans := some { tr with lh := tr.lh ++ [x], adding := some x } } := by
  intro s views y t ⟨tr',acc⟩ here ran
  subst here
  cases ran
  obtain ⟨rfl,busy⟩ := acc.mine_trans trans
  have next := acc.append busy mine quiet at_ valid out fresh room cap start entry done
  rw [acc.logged.lh] at next
  exact ⟨_,⟨_,next⟩,rfl⟩

theorem does_clear (trans : v.trans = some tr) (home : tr.installed = tr.lh.length) :
    Does lay p (act (.setHead [])) v fun _ w => w = { v with trans := some ⟨[],tr.logged,0,none,false⟩ } := by
  intro s views y t ⟨tr',acc⟩ here ran
  subst here
  cases ran
  obtain ⟨rfl,busy⟩ := acc.mine_trans trans
  exact ⟨_,⟨_,acc.clear busy home⟩,rfl⟩

theorem does_finish (trans : v.trans = some tr) (empty : tr.lh = []) (done : tr.adding = none) (out : ∀ b r, v.own b = some r → ¬ lay.Inside r.dev r.sector) :
    Does lay p (act .finish) v fun _ w => w = { v with trans := none } := by
  intro s views y t ⟨tr',acc⟩ here ran
  subst here
  cases ran
  obtain ⟨rfl,busy⟩ := acc.mine_trans trans
  exact ⟨_,⟨_,acc.finish busy empty done out⟩,rfl⟩

theorem does_plan {post : Unit → View → Prop} (mine : v.own b = some r) (quiet : v.io = none) (inside : lay.Inside r.dev r.sector)
    (rest : Does lay p (bwrite b) { v with plain := some b } post) : Does lay p (bwrite b) v post := by
  refine Meets.before (fun s views ⟨tr,acc⟩ here => ⟨tr,?_⟩) rest
  subst here
  exact acc.plan mine (fun home member => acc.logged.fits.out r.sector (List.mem_of_mem_drop member) (home ▸ inside)) quiet

theorem does_install {post : Unit → View → Prop} (mine : v.own b = some r) (quiet : v.io = none) (flux : r.flux = true)
    (trans : v.trans = some tr) (next : tr.lh[tr.installed]? = some r.sector) (home : r.dev = lay.dev) (committed : tr.committed = true)
    (rest : Does lay p (bwrite b) { v with plain := some b, trans := some { tr with installed := tr.installed+1 } } post) :
    Does lay p (bwrite b) v post := by
  refine Meets.before (fun s views ⟨tr',acc⟩ here => ?_) rest
  subst here
  obtain ⟨rfl,busy⟩ := acc.mine_trans trans
  exact ⟨_,acc.install busy mine quiet flux next home committed⟩

theorem Learns.fetched {s : Cache} (acc : Account lay s views tr) (mine : (views p).own b = some r) (known : s.buf b = r) (still : r.flux = false)
    (written : s.disk r.dev r.sector = r.data) : Learns lay s b r tr tr := by
  have data : ∀ i, i+1 < lay.size → r.At lay.dev (lay.start+i+1) → tr.logged i = r.data := by
    intro i small at_
    rw [← written,at_.1,at_.2]
    refine (acc.logged.slots i small fun c flux there => ?_).symm
    have live := acc.contents.flux c flux
    have same := acc.keys.unique c b (.inl live.1) (.inl (acc.held.taken mine)) (by rw [known,at_.1,at_.2]; exact there)
    rw [same,known,still] at flux
    cases flux
  refine ⟨rfl,rfl,rfl,fun i small => ?_,fun i x left found at_ => ?_,.inl,fun stays => stays⟩
  · split
    · rename_i at_
      exact data i small at_
    · rfl
  · have small := acc.logged.fits.room i (List.getElem?_eq_some_iff.mp found).1
    rw [← data i small at_]
    rcases acc.logged.logged i x left found with same | ⟨c,flux,there⟩
    · exact .inl same
    · refine .inr ⟨c,?_,flux,there⟩
      rintro rfl
      rw [known,still] at flux
      cases flux

theorem kept_trans (v : View) : ∃ tr', (v.trans.map fun _ => tr') = v.trans ∧ ∀ tr, v.trans = some tr → tr' = tr := by
  cases v.trans with
  | none => exact ⟨⟨[],fun _ => Block.zero,0,none,false⟩,rfl,by simp⟩
  | some tr => exact ⟨tr,rfl,by simp⟩

theorem does_fetch (mine : v.own b = some r) (quiet : v.io = none) (empty : r.valid = false ∧ r.dirty = false ∧ r.flux = false)
    (other : v.trans = none → ¬ lay.Inside r.dev r.sector) :
    Does lay p (iderw b) v fun _ w => ∃ data, w = { v.put b { r with valid := true, data := data } with plain := none } := by
  refine (does_iderw mine quiet (by simp [empty]) (by simp [empty])).bind fun _ w ⟨data,_,went⟩ => ?_
  subst went
  obtain ⟨tr',same,only⟩ := kept_trans v
  have mine : ({ v.put b { r with valid := true, dirty := false, data := data } with io := some b } : View).own b =
      some { r with valid := true, dirty := false, data := data } := update_self ..
  refine (does_done tr' mine rfl ⟨rfl,rfl⟩ (by simp [empty]) other fun s views tr acc here whose known written => ?_).mono
    fun _ w went => ?_
  · obtain rfl := only tr whose
    exact Learns.fetched acc (here ▸ mine) known empty.2.2 written
  refine ⟨data,?_⟩
  rw [went]
  simp [View.put,quiet,empty,same]

theorem does_bread (quiet : v.io = none) (drive : dev < 2) (inside : lay.Inside dev x → v.trans ≠ none) :
    Does lay p (bread dev x) v fun b w => ∃ r, v.own b = none ∧ r.At dev x ∧ r.valid = true ∧ r.flux = false ∧
      w = { v.put b r with plain := none } := by
  refine (does_bget quiet drive inside).bind ?_
  rintro (b : Nat) _ ⟨r,unheld,at_,still,clean,rfl⟩
  have mine : ({ v.put b r with plain := none } : View).own b = some r := by simp [View.put]
  refine (does_valid mine quiet).bind ?_
  rintro (valid : Bool) _ ⟨found,rfl⟩
  cases ready : r.valid with
  | true =>
    rw [found,ready]
    exact ⟨r,unheld,at_,ready,still,rfl⟩
  | false =>
    rw [found,ready]
    refine (does_fetch mine quiet ⟨ready,clean ready,still⟩ (fun none within => ?_)).bind ?_
    · rw [at_.1,at_.2] at within
      exact inside within none
    · rintro _ _ ⟨data,rfl⟩
      refine ⟨{ r with valid := true, data := data },unheld,at_,rfl,still,?_⟩
      simp [View.put]

theorem does_send (tr' : Trans) (mine : v.own b = some r) (quiet : v.io = none) (shape : r.valid = true ∧ r.dirty = true ∧ r.flux = true)
    (planned : v.plain = some b) (other : v.trans = none → ¬ lay.Inside r.dev r.sector)
    (log : ∀ s views tr, Account lay s views tr → views p = { v.put b { r with dirty := false } with io := some b } → v.trans = some tr →
      Learns lay s b { r with dirty := false } tr tr') :
    Does lay p (iderw b) v fun _ w =>
      w = { v.put b { r with dirty := false, flux := false } with plain := none, trans := v.trans.map fun _ => tr' } := by
  refine (does_iderw mine quiet (by simp [shape]) (fun _ => planned)).bind fun _ w ⟨data,same,went⟩ => ?_
  obtain rfl := same shape.2.1
  have final : ({ r with valid := true, dirty := false, data := r.data } : Buf) = { r with dirty := false } := by rw [← shape.1]
  rw [final] at went
  subst went
  refine (does_done (v := { v.put b { r with dirty := false } with io := some b }) tr' (update_self ..) rfl ⟨shape.1,rfl⟩ (fun _ => planned) other
    fun s views tr acc here whose _ _ => log s views tr acc here whose).mono fun _ w went => ?_
  rw [went]
  simp [View.put,quiet]

theorem Learns.plain {s : Cache} (acc : Account lay s views tr) (out : ¬ lay.Inside r.dev r.sector) : Learns lay s b r tr tr := by
  have apart : ∀ i, i+1 < lay.size → ¬ r.At lay.dev (lay.start+i+1) := fun i small at_ =>
    out ⟨at_.1,by have := at_.2; omega,by have := at_.2; omega⟩
  refine ⟨rfl,rfl,rfl,fun i small => (if_neg (apart i small)).symm,fun i x left found at_ => ?_,.inl,fun stays => stays⟩
  exact absurd at_ (apart i (acc.logged.fits.room i (List.getElem?_eq_some_iff.mp found).1))

theorem Buf.At.header (at_ : r.At lay.dev lay.start) : lay.Inside r.dev r.sector := by
  have header := lay.header
  rw [at_.1,at_.2]; exact ⟨rfl,by omega,by omega⟩

theorem does_bwrite (tr' : Trans) (mine : v.own b = some r) (quiet : v.io = none) (valid : r.valid = true) (planned : v.plain = some b)
    (apart : ∀ tr, v.trans = some tr → tr.committed = true → ¬ r.At lay.dev lay.start) (other : v.trans = none → ¬ lay.Inside r.dev r.sector)
    (learns : ∀ s views tr, Account lay s views tr → views p = { v.put b { r with dirty := false, flux := true } with io := some b } →
      v.trans = some tr → Learns lay s b { r with dirty := false, flux := true } tr tr') :
    Does lay p (bwrite b) v fun _ w =>
      w = { v.put b { r with dirty := false, flux := false } with plain := none, trans := v.trans.map fun _ => tr' } := by
  refine (does_dirty mine quiet valid apart fun none at_ => other none at_.header).next fun _ => ?_
  refine (does_send (v := v.put b { r with dirty := true, flux := true }) tr'
    (update_self ..) quiet ⟨valid,rfl,rfl⟩ planned other fun s views tr acc here whose => learns s views tr acc (by simpa [View.put] using here) whose).mono fun _ w went => ?_
  rw [went]
  simp [View.put]

theorem does_bwrite_out (mine : v.own b = some r) (quiet : v.io = none) (valid : r.valid = true) (planned : v.plain = some b)
    (out : ¬ lay.Inside r.dev r.sector) :
    Does lay p (bwrite b) v fun _ w => w = { v.put b { r with dirty := false, flux := false } with plain := none } := by
  obtain ⟨tr',same,only⟩ := kept_trans v
  refine (does_bwrite tr' mine quiet valid planned (fun _ _ _ at_ => out at_.header) (fun _ => out)
    fun s views tr acc here whose => ?_).mono fun _ w went => ?_
  · obtain rfl := only tr whose
    exact Learns.plain acc out
  · rw [went]
    simp [View.put,same]

theorem does_bwrite_log (tr' : Trans) (mine : v.own b = some r) (quiet : v.io = none) (valid : r.valid = true) (trans : v.trans = some tr)
    (inside : lay.Inside r.dev r.sector) (early : tr.committed = true → ¬ r.At lay.dev lay.start)
    (learns : ∀ s views, Account lay s views tr → views p = { v.put b { r with dirty := false, flux := true } with io := some b, plain := some b } →
      Learns lay s b { r with dirty := false, flux := true } tr tr') :
    Does lay p (bwrite b) v fun _ w => w = { v.put b { r with dirty := false, flux := false } with plain := none, trans := some tr' } := by
  refine does_plan mine quiet inside ?_
  refine (does_bwrite (v := { v with plain := some b }) tr' mine quiet valid rfl (fun tr' whose committed => ?_) (fun none => ?_)
    fun s views tr' acc here whose => ?_).mono fun _ w went => ?_
  · rw [trans] at whose
    cases whose
    exact early committed
  · rw [trans] at none; cases none
  · rw [trans] at whose
    cases whose
    exact learns s views acc here
  · rw [went]
    simp [View.put,trans]

theorem does_release (mine : v.own b = some r) (quiet : v.io = none) (valid : r.valid = true) (still : r.flux = false)
    (marked : ∀ tr, v.trans = some tr → tr.adding = none) :
    Does lay p (brelse b) v fun _ w => w = { v with own := update v.own b none, plain := none } :=
  does_brelse mine quiet valid still marked

-- The header block, with the sectors of the log. committed is what the log says of it
-- from then on.
theorem does_writeHead (committed : Bool) (quiet : v.io = none)
    (trans : v.trans = some tr) (early : tr.committed = false) (done : tr.adding = none) (cap : tr.lh.length ≤ LOGSIZE) :
    Does lay p (writeHead lay) v fun _ w => w = { v with plain := none, trans := some { tr with committed := committed } } := by
  refine (does_bread quiet lay.drive (fun _ => by simp [trans])).bind fun (b : Nat) w ⟨r,unheld,at_,valid,still,went⟩ => ?_
  subst went
  have inside : lay.Inside r.dev r.sector := Buf.At.header at_
  refine (does_head (by exact trans)).reads ?_
  refine (does_load (update_self ..) (by exact quiet)).reads ?_
  refine (does_store (update_self ..) (by exact quiet) valid (by exact trans) (fun _ _ _ _ out => absurd inside out) (by simp [early])).next
    fun _ => ?_
  refine (does_bwrite_log (r := { r with data := Store.putHead r.data tr.lh, flux := true }) { tr with committed := committed } (update_self ..) (by exact quiet) valid (by exact trans) inside (by simp [early])
    fun s views acc here => ?_).next fun _ => ?_
  · refine ⟨rfl,rfl,rfl,fun i small => (if_neg fun slot => ?_).symm,fun i x left found slot => ?_,fun _ => .inr ⟨at_,?_⟩,by simp [early]⟩
    · have := slot.2.symm.trans at_.2; omega
    · have := slot.2.symm.trans at_.2; omega
    · exact Store.headN_putHead _ _ (by unfold LOGSIZE at cap; omega)
  refine (does_release (r := { r with data := Store.putHead r.data tr.lh, dirty := false, flux := false }) (update_self ..)
    (by exact quiet) valid rfl (fun tr eq => by cases eq; exact done)).mono fun _ w went => ?_
  rw [went]
  simp [View.put,← unheld]

theorem logged_data {s : Cache} (acc : Account lay s views tr) (mine : (views p).own b = some r) (quiet : (views p).io = none)
    (valid : r.valid = true) (still : r.flux = false) (at_ : r.At lay.dev (lay.start+i+1)) (small : i+1 < lay.size) : r.data = tr.logged i := by
  obtain ⟨known,taken,idle⟩ := acc.at_hand mine quiet
  have clean : r.dirty = false := by
    by_contra dirty
    have marked := acc.contents.marked b (known ▸ still) (by rw [known]; simpa using dirty)
    rw [known,at_.2] at marked
    exact acc.logged.fits.out _ (List.mem_of_mem_drop marked.2) ⟨rfl,by omega,by omega⟩
  have settled := acc.contents.settled b (known ▸ valid) (known ▸ still) (known ▸ clean)
  rw [known] at settled
  exact (Learns.fetched acc mine known still settled.symm).slots i small ▸ (if_pos at_).symm ▸ rfl

theorem does_installFrom (xs : List Nat) (quiet : v.io = none) (trans : v.trans = some tr) (fits : tr.Fits lay)
    (committed : tr.committed = true) (done : tr.adding = none) (tail : tr.installed = t) (rest : tr.lh.drop t = xs) (inside : t ≤ tr.lh.length) :
    Does lay p (installFrom lay t xs) v fun _ w => ∃ plain, w = { v with plain := plain, trans := some { tr with installed := tr.lh.length } } := by
  induction xs generalizing v tr t with
  | nil =>
    have full := List.drop_eq_nil_iff.mp rest
    refine ⟨v.plain,?_⟩
    rw [← Nat.le_antisymm inside full,← tail,← trans]
  | cons x xs ih =>
    have found : tr.lh[t]? = some x := by
      have := congrArg (·[0]?) rest
      simpa using this
    obtain ⟨bound,here⟩ := List.getElem?_eq_some_iff.mp found
    have out := fits.out x (here ▸ List.getElem_mem bound)
    have small := fits.room t bound
    -- The log block and the block it stands for.
    refine (does_bread quiet lay.drive (fun _ => by simp [trans])).bind ?_
    rintro (l : Nat) _ ⟨rl,unheld,at_,valid,still,rfl⟩
    refine (does_bread (by exact quiet) lay.drive (fun within => absurd within out)).bind ?_
    rintro (d : Nat) _ ⟨rd,free,home,validd,stilld,rfl⟩
    have apart : d ≠ l := by
      rintro rfl
      simp [View.put] at free
    have unheldd : v.own d = none := by simpa [View.put,apart] using free
    have minel : ({ ({ v.put l rl with plain := none } : View).put d rd with plain := none } : View).own l = some rl := by
      simp [View.put,apart.symm]
    refine (does_load minel quiet).reads ?_
    refine (does_store (update_self ..) (by exact quiet) validd (by exact trans) (fun s views acc mine _ => ?_)
      (fun _ at_ => out (by rw [← home.2,at_.2]; exact ⟨rfl,by omega,by omega⟩))).next fun _ => ?_
    · -- What was logged is what was stored last: the only flux could be in dbuf itself.
      have own : (views p).own l = some rl := by rw [mine]; exact minel
      have quiet : (views p).io = none := by rw [mine]; exact quiet
      rw [logged_data acc own quiet valid still at_ small,home.1,home.2]
      rcases acc.logged.logged t x (tail ▸ Nat.le_refl _) found with same | ⟨c,flux,there⟩
      · exact same
      have ownd : (views p).own d = some rd := by rw [mine]; exact update_self ..
      obtain ⟨known,taken,_⟩ := acc.at_hand ownd quiet
      have live := acc.contents.flux c flux
      have same := acc.keys.unique c d (.inl live.1) (.inl (known ▸ taken)) (by rw [known,home.1,home.2]; exact there)
      rw [same,known,stilld] at flux
      cases flux
    refine (does_install (r := { rd with data := rl.data, flux := true }) (update_self ..) (by exact quiet) rfl (by exact trans)
      (by rw [tail,found,home.2]) home.1 committed (does_bwrite_out (r := { rd with data := rl.data, flux := true }) (update_self ..) (by exact quiet) validd rfl
        (by rw [home.1,home.2]; exact out))).next fun _ => ?_
    refine (does_release (by simp [View.put,apart.symm]) (by exact quiet) valid still (fun tr eq => by cases eq; exact done)).next
      fun _ => ?_
    refine (does_release (r := { rd with data := rl.data, dirty := false, flux := false }) (by simp [View.put,apart]) (by exact quiet) validd rfl
      (fun tr eq => by cases eq; exact done)).bind
      fun _ w went => ?_
    have back : w = { v with plain := none, trans := some { tr with installed := tr.installed+1 } } := by
      rw [went]
      have own : update (update (update (update v.own l (some rl)) d
          (some { rd with data := rl.data, dirty := false, flux := false })) l none) d none = v.own := by
        funext c
        grind -linarith
      simp [View.put,own]
    subst back
    have later : Trans.Fits { tr with installed := tr.installed+1 } lay := { fits with }
    refine (ih (by exact quiet) rfl later committed done (by simp [tail]) ?_ bound).mono fun _ _ last => last
    have := congrArg List.tail rest
    simpa using this

theorem does_commitTrans (quiet : v.io = none) (trans : v.trans = some tr) (fits : tr.Fits lay)
    (early : tr.installed = 0 ∧ tr.committed = false ∧ tr.adding = none) (out : ∀ b r, v.own b = some r → ¬ lay.Inside r.dev r.sector) :
    Does lay p (commitTrans lay) v fun _ w => ∃ plain, w = { v with plain := plain, trans := none } := by
  refine (does_head trans).reads ?_
  by_cases more : 0 < tr.lh.length
  · simp only [more]
    refine (does_writeHead true quiet trans early.2.1 early.2.2 fits.cap).next fun _ => ?_
    have installs : Does lay p (installTrans lay) { v with plain := none, trans := some { tr with committed := true } } fun _ u =>
        ∃ plain, u = { v with plain := plain, trans := some { tr with committed := true, installed := tr.lh.length } } := by
      refine (does_head rfl).reads ?_
      have fits : Trans.Fits { tr with committed := true } lay := { fits with }
      exact does_installFrom (v := { v with plain := none, trans := some { tr with committed := true } }) tr.lh quiet rfl fits rfl
        early.2.2 early.1 rfl (Nat.zero_le _)
    refine installs.bind ?_
    rintro _ _ ⟨plain,rfl⟩
    refine (does_clear rfl rfl).next fun _ => ?_
    refine (does_writeHead false (by exact quiet) rfl rfl rfl (by simp)).next fun _ => ?_
    exact (does_finish (v := { v with plain := none, trans := some ⟨[],tr.logged,0,none,false⟩ }) rfl rfl rfl out).mono fun _ u went => ⟨none,went⟩
  · simp only [more]
    have empty : tr.lh = [] := by simpa using more
    exact (does_finish trans empty early.2.2 out).mono fun _ u went => ⟨v.plain,went⟩

theorem does_stop : Does lay p (act .panic) v fun _ _ => False := fun _ _ _ _ _ _ ran => by cases ran

theorem does_logWrite (mine : v.own b = some r) (quiet : v.io = none) (valid : r.valid = true)
    (home : r.dev = lay.dev) (out : ¬ lay.Inside r.dev r.sector) (trans : v.trans = some tr) (fits : tr.Fits lay)
    (early : tr.installed = 0 ∧ tr.committed = false ∧ tr.adding = none) :
    Does lay p (logWrite lay b) v fun _ w => ∃ tr', tr'.Fits lay ∧ (tr'.installed = 0 ∧ tr'.committed = false ∧ tr'.adding = none) ∧
      w = { v.put b { r with dirty := true, flux := false } with plain := none, trans := some tr' } := by
  refine (does_head trans).reads ?_
  by_cases full : LOGSIZE ≤ tr.lh.length ∨ lay.size-1 ≤ tr.lh.length
  · simp only [full,if_true]
    exact Meets.bind does_stop fun _ _ never => never.elim
  simp only [full,if_false]
  refine (does_busy trans).reads ?_
  refine (does_key mine).reads ?_
  have slot : tr.lh.idxOf r.sector ≤ tr.lh.length := List.idxOf_le_length
  generalize place : tr.lh.idxOf r.sector = i at slot
  have small : i+1 < lay.size := by omega
  have within : lay.Inside lay.dev (lay.start+i+1) := ⟨rfl,by omega,by omega⟩
  -- The log block.
  refine (does_bread quiet (home ▸ lay.drive) (fun _ => by simp [trans])).bind fun (l : Nat) w found => ?_
  obtain ⟨rl,unheld,at_,validl,still,rfl⟩ := found
  rw [home] at at_
  have apart : b ≠ l := by
    rintro rfl
    rw [mine] at unheld
    cases unheld
  have inside : lay.Inside rl.dev rl.sector := by rw [at_.1,at_.2]; exact within
  refine (does_load (r := r) (by simp [View.put,apart,mine]) (by exact quiet)).reads ?_
  refine (does_store (update_self ..) (by exact quiet) validl (by exact trans) (fun _ _ _ _ far => absurd inside far) (by simp [early])).next
    fun _ => ?_
  refine (does_bwrite_log (r := { rl with data := r.data, flux := true }) { tr with logged := fun j => if j = i then r.data else tr.logged j }
    (update_self ..) (by exact quiet) validl (by exact trans) inside (by simp [early]) fun s views acc here => ?_).next fun _ => ?_
  · -- An entry that the log has already gets the contents of its buffer.
    have known : s.buf b = r := acc.held.known p b r (by rw [here]; simp [View.put,apart,mine]) (by rw [here]; simpa using apart.symm)
    have data : r.data = s.last r.dev r.sector := known ▸ acc.contents.data b (known ▸ valid) (known ▸ out)
    have only : ∀ j, Buf.At { rl with data := r.data, dirty := false, flux := true } lay.dev (lay.start+j+1) ↔ j = i := by
      intro j
      constructor
      · intro slot
        have := slot.2.symm.trans at_.2
        omega
      · rintro rfl
        exact at_
    refine ⟨rfl,rfl,rfl,fun j _ => by simp only [only],fun j x _ found slot => .inl ?_,by simp [early],by simp [early]⟩
    obtain rfl := (only j).mp slot
    obtain ⟨bound,entry⟩ := List.getElem?_eq_some_iff.mp found
    have sector : tr.lh[j] = r.sector := by simp only [← place]; exact List.getElem_idxOf (place ▸ bound)
    rw [← entry,sector,← home]
    exact data
  refine (does_release (r := { rl with data := r.data, dirty := false, flux := false }) (by simp [View.put]) (by exact quiet) validl rfl
    (fun tr eq => by cases eq; exact early.2.2)).bind
    fun _ w went => ?_
  have back : w = { v with plain := none, trans := some { tr with logged := fun j => if j = i then r.data else tr.logged j } } := by
    rw [went]
    simp [View.put,← unheld]
  subst back
  have here : tr.lh.idxOf r.sector = i := place
  by_cases new : i = tr.lh.length
  · simp only [new]
    have fresh : r.sector ∉ tr.lh := fun member => by
      have := List.idxOf_lt_length_iff.mpr member
      omega
    subst new
    have cap : tr.lh.length < LOGSIZE := by omega
    refine (does_append { tr with logged := fun j => if j = tr.lh.length then r.data else tr.logged j } (by exact mine) (by exact quiet) rfl ⟨home,rfl⟩ valid (home ▸ out) fresh small cap
      ⟨early.1,early.2.1⟩ (by simp) early.2.2).next fun _ => ?_
    refine (does_pin _ (by exact mine) (by exact quiet) valid out home rfl (by simp [early.1]) (.inr rfl) fun j found => ?_).mono
      fun _ w went => ?_
    · rcases Nat.lt_or_ge j tr.lh.length with low | high
      · rw [List.getElem?_append_left low] at found
        exact absurd (List.mem_of_getElem? found) fresh
      have : j = tr.lh.length := by
        have := (List.getElem?_eq_some_iff.mp found).1
        simp only [List.length_append,List.length_singleton] at this
        omega
      simp [this]
    · have fits := fits.append fresh (home ▸ out) small cap
      exact ⟨{ tr with lh := tr.lh ++ [r.sector], logged := fun j => if j = tr.lh.length then r.data else tr.logged j, adding := none },
        { fits with },⟨early.1,early.2.1,rfl⟩,went⟩
  · simp only [new]
    have member : r.sector ∈ tr.lh := List.idxOf_lt_length_iff.mp (by omega)
    refine (does_pin { tr with logged := fun j => if j = i then r.data else tr.logged j } (by exact mine) (by exact quiet) valid out home
      rfl (by simpa [early.1] using member) (.inl early.2.2)
      fun j found => ?_).mono fun _ w went => ?_
    · obtain ⟨bound,entry⟩ := List.getElem?_eq_some_iff.mp found
      have : j = i := by
        rw [← here,← entry]
        exact (fits.nodup.idxOf_getElem j bound).symm
      simp [this]
    · exact ⟨{ tr with logged := fun j => if j = i then r.data else tr.logged j, adding := none },{ fits with },
        ⟨early.1,early.2.1,rfl⟩,went⟩

end

end Xv6.Bio
