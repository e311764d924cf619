import Xv6.Vm.Image

namespace Xv6.Vm
open Function (update update_eq_self update_idem update_self)
open Bytes Exec

-- exec up to the point where both pages of the stack are mapped.

section Staging
variable {L : Layout} {s : Machine} {o : Owners}

def execTo (L : Layout) (cur : Nat) (f : File) (k : Nat → Nat → M (Option Image)) : M (Option Image) := do
  Prog.modify fun s => { s with grown := [], loaded := [] }
  if (f.readi 0 52).getD 4294967295 < 52 then
    return none
  else if f.magic ≠ 1179403647 then
    return none
  else
    match ← setupkvm L with
    | none => return none
    | some pgdir =>
      match ← segLoop L cur pgdir f f.phnum f.phoff 0 with
      | none => bad L pgdir
      | some sz => do
        let top ← allocuvm L pgdir (PGROUNDUP sz) (w32 (PGROUNDUP sz+8192))
        if top = 0 then bad L pgdir else k pgdir top

theorem execImage_eq (L : Layout) (cur : Nat) (f : File) (argv : List (List UInt8)) :
    execImage L cur f argv = execTo L cur f fun d top => execArgs L cur d f.entry top argv := rfl

-- Unless the first call that kalloc refuses is one for a table, every page got mapped.
def Mapped (s : Machine) (o : Owners) (f : File) (next : Machine) : Prop :=
  ¬ FirstRefused s o.free.length (FreshTable f.top) → next.unmapped = s.unmapped

abbrev Owners.fresh (o : Owners) (d : Nat) (now : List Nat) : Owners := ⟨o.own,Function.update o.dirs .fresh (some d),now⟩

structure Staged (L : Layout) (o : Owners) (s : Machine) (f : File) (d g : Nat) (now : List Nat) (mid : Machine) : Prop where
  ready : Ready L (o.fresh d now) .fresh d g mid
  saved : Saved .fresh s.mem o mid.mem (o.fresh d now)
  unmapped : mid.unmapped = s.unmapped
  kernel : i < 1024 → KernelTable i = true → tableOf mid.mem d i ≠ none
  fewer : ∀ q ∈ now, q ∈ o.free
  top : f.top = 4096*(g+2)

theorem Told.mapped (begun : Begun L o s d mid free) (told : Told s o.free.length mid.mem d f.top s next) : Mapped s o f next := by
  refine fun fine => told fun refused => fine (refused.imp fun j call => call.fresh (fun i low => ?_) (by unfold File.top; omega))
  have bare := begun.bare.tables (show i < 1024 by omega)
  rw [show KernelTable i = false by simp [KernelTable]; omega] at bare
  simpa using bare

theorem bad_staged (vacant : o.dirs .fresh = none) (idle : Idle o) (ok : Ok L next (o.fresh d now))
    (saved : next.unmapped = s.unmapped → Saved .fresh s.mem o next.mem (o.fresh d now)) :
    Sat (bad L d) next (fun _ _ => False) fun r last => r = none ∧ last.unmapped = next.unmapped ∧
      ∃ free, Ok L last ⟨o.own,o.dirs,free⟩ ∧ (last.unmapped = s.unmapped → Saved .fresh s.mem o last.mem ⟨o.own,o.dirs,free⟩) := by
  have dir : update o.dirs .fresh (some d) .fresh = some d := update_self ..
  refine (bad_spec (a := .fresh) ok dir idle).post ?_
  rintro r last ⟨rfl,quiet,free,ok_last,saved_last⟩
  have back : update (update o.dirs .fresh (some d)) .fresh none = o.dirs := by
    rw [update_idem,← vacant,update_eq_self]
  rw [back] at ok_last saved_last
  exact ⟨rfl,quiet.unmapped,free,ok_last,fun same => (saved (quiet.unmapped.symm.trans same)).trans saved_last⟩

theorem ends_lt (f : File) (left : Nat) : ∀ off, f.ends off left < 2147483648 := by
  induction left with
  | zero => intro off; exact Nat.zero_lt_succ _
  | succ left ih =>
    intro off
    have rest := ih (w32 (off+32))
    rw [File.ends]
    split
    case isTrue low => omega
    case isFalse => exact rest

theorem top_eq {f : File} (pages : g = (f.ends f.phoff f.phnum+4095)/4096) (low : g+2 < 524288) : f.top = 4096*(g+2) := by
  unfold File.top
  rw [← pages,Nat.min_eq_right (by omega)]
  omega

theorem execTo_rule (ok : Ok L s o) (idle : Idle o) (vacant : o.dirs .fresh = none)
    (unwrapped : ∀ j < f.phnum, (f.proghdr (w32 (f.phoff+32*j))).Unwrapped)
    {k : Nat → Nat → M (Option Image)} {E : Panic → Machine → Prop} {Q : Option Image → Machine → Prop}
    (stops : ∀ e next, Mapped s o f next →
      ¬ (next.unmapped = s.unmapped ∧ ∀ j < f.phnum, (f.proghdr (w32 (f.phoff+32*j))).Aligned) → E e next)
    (unread : Q none { s with grown := [], loaded := [] })
    (unset : ∀ next free, next.unmapped = s.unmapped → Ok L next ⟨o.own,o.dirs,free⟩ → Unset s next o free → Q none next)
    (gives_up : ∀ next free, Mapped s o f next → Ok L next ⟨o.own,o.dirs,free⟩ →
      (next.unmapped = s.unmapped → Saved .fresh s.mem o next.mem ⟨o.own,o.dirs,free⟩) → Q none next)
    (astray : ∀ d top next, Mapped s o f next → next.unmapped ≠ s.unmapped → Sat (k d top) next E Q)
    (goes : ∀ d g now next, Staged L o s f d g now next → Sat (k d (4096*(g+2))) next E Q) : Sat (execTo L cur f k) s E Q := by
  unfold execTo
  rw [sat_modify_bind]
  split
  · exact .done unread
  split
  · exact .done unread
  refine Sat.bind ((exec_begins ok idle vacant).never) ?_
  rintro r mid ⟨_,unmapped,result⟩
  cases r with
  | none =>
    obtain ⟨free,ok_mid,why⟩ := result
    exact .done (unset mid free unmapped ok_mid why)
  | some d =>
    obtain ⟨free,begun⟩ := result
    have dir : update o.dirs .fresh (some d) .fresh = some d := update_self ..
    have clean := begun.clean
    have counted₀ : Counted L o.own (update o.dirs .fresh (some d)) s o.free.length mid.mem d f.top s 0 mid := begun.counted
    -- where a page got lost, or none did, the space given up is freed
    have freed : ∀ {next : Machine} {now : List Nat}, Mapped s o f next → Ok L next (o.fresh d now) →
        Kept L o.own (update o.dirs .fresh (some d)) .fresh mid next → Sat (bad L d) next E Q := by
      intro next now told ok_next kept
      refine (bad_staged vacant idle ok_next fun same =>
        begun.saved.trans (kept.saved begun.ok ok_next (same.trans unmapped.symm))).mono (fun _ _ no => no.elim) ?_
      rintro r last ⟨rfl,same,free',ok_last,saved⟩
      exact gives_up last free' (fun fine => same.trans (told fine)) ok_last saved
    refine Sat.bind ((segLoop_spec f dir idle f.phnum unwrapped (ld32_lt _ _) begun.loading counted₀
      (by unfold File.top; have := ends_lt f f.phnum f.phoff; omega)).stops ?_) ?_
    · rintro e next ⟨_,told,not⟩
      exact stops e next (Told.mapped begun told) fun ⟨same,aligned⟩ => not ⟨same,clean,aligned⟩
    rintro r next ⟨kept,post⟩
    cases r with
    | none =>
      obtain ⟨_,told,now,ok_next⟩ := post
      exact freed (Told.mapped begun told) ok_next kept
    | some sz =>
      obtain ⟨loading,counted,reach,still_clean,tables⟩ := post
      obtain ⟨now,ok_next,fewer⟩ := loading.ok
      have size := loading.size
      obtain ⟨g,g_eq⟩ : ∃ g, g = (sz+4095)/4096 := ⟨_,rfl⟩
      have up : PGROUNDUP sz = 4096*g := by unfold PGROUNDUP w32; omega
      have above : w32 (4096*g+8192) = 4096*(g+2) := by unfold w32; omega
      dsimp only
      rw [up,above]
      by_cases tall : 524288 ≤ g+2
      · unfold allocuvm
        rw [if_pos (by omega),sat_pure_bind,if_pos rfl]
        exact freed (Told.mapped begun counted.told) ok_next kept
      have counted' : Counted L o.own (update o.dirs .fresh (some d)) s o.free.length mid.mem d f.top s (4096*g) next := by
        refine ⟨counted.told,fun fine ok_now => ?_⟩
        rw [show (4096*g+4095)/4096 = (sz+4095)/4096 by omega]
        exact counted.growing fine ok_now
      refine Sat.bind (((allocuvm_spec (a := .fresh) ok_next dir idle (show 4096*g < 2147483648 by omega)).and
        (allocuvm_counted dir idle counted' ok_next (by omega) fun _ => ?_)).stops ?_) ?_
      · unfold File.top; omega
      · rintro e last ⟨⟨_,x,small,high,present⟩,_⟩
        exact (still_clean clean x small (by omega) present).elim
      · rintro r last ⟨alloc,told,_⟩
        obtain ⟨later,ok_last,fewer',saved⟩ := alloc.ok
        have told' := Told.mapped begun told
        have kept' : Kept L o.own (update o.dirs .fresh (some d)) .fresh mid last :=
          kept.trans ⟨now,ok_next⟩ (.of_saved ok_next ok_last alloc.grows.unmapped saved)
        by_cases failed : r = 0
        · rw [if_pos failed]
          exact freed told' ok_last kept'
        rw [if_neg failed]
        by_cases same : last.unmapped = s.unmapped
        · obtain ⟨reached,below⟩ := alloc.size failed
          obtain ⟨before,since⟩ := (loading.contained.grow alloc.grows fewer).2 same
          have entries := grown_range (fun x low => loading.mapped before (by omega)) alloc.grows
            (show 4096*g < 2147483648 by omega) (fun x low high => (alloc.range failed since low high).1)
            fun x bound low => alloc.outside failed bound (.inl low)
          have entry : ∀ x < g+2, UserEntry last d x := fun x low => entries x (by omega)
          rw [show r = 4096*(g+2) by omega]
          refine goes d g later last ⟨⟨ok_last,dir,idle,by omega,fun low => (entry _ low).1,(entry (g+1) (by omega)).2.1⟩,
            begun.saved.trans (kept'.saved begun.ok ok_last (same.trans unmapped.symm)),same,fun {i} bound is_kernel => ?_,
            fun q inside => fewer q (fewer' failed q inside),top_eq (by rw [show f.ends f.phoff f.phnum = sz by omega]; exact g_eq) (by omega)⟩
          have bare := begun.bare.tables bound
          cases found : tableOf next.mem d i with
          | none => exact absurd found (tables i bound fun missing => by rw [missing,is_kernel] at bare; cases bare)
          | some t => rw [alloc.tables bound found]; simp
        · exact astray d r last told' same

-- The same for the whole of exec, with arguments of which none is longer than a page.
theorem execImage_spec (ok : Ok L s o) (idle : Idle o) (vacant : o.dirs .fresh = none)
    (unwrapped : ∀ j < f.phnum, (f.proghdr (w32 (f.phoff+32*j))).Unwrapped) (few : argBytes argv < 4096) :
    Sat (execImage L cur f argv) s (fun _ _ => True) fun r next => next.unmapped = s.unmapped →
      match r with
      | none => ∃ free, Ok L next ⟨o.own,o.dirs,free⟩
      | some image => image.sz < 2147483648 ∧ ∃ free, Ok L next ⟨o.own,update o.dirs .fresh (some image.pgdir),free⟩ := by
  have short : ∀ arg ∈ argv, arg.length < 4096 := fun arg member => by have := argBytes_mem member; omega
  rw [execImage_eq]
  refine execTo_rule ok idle vacant unwrapped (fun _ _ _ _ => trivial) (fun _ => ?_) (fun next free _ ok_next _ _ => ⟨free,ok_next⟩)
    (fun next free _ ok_next _ _ => ⟨free,ok_next⟩) (fun d top next _ lost => ?_) fun d g now mid staged => ?_
  · exact ⟨o.free,ok.custody,ok.alternating,ok.freed⟩
  · refine (execArgs_still L _ _ _ _ _ next).mono (fun _ _ _ => trivial) fun r last quiet same => ?_
    exact absurd (quiet.unmapped.symm.trans same) lost
  · have high := staged.ready.high
    have reaches : Reaches (fun _ => False) (4096*(g+1)) 0 (4096*(g+2)) argv :=
      reaches_short _ (by omega) (by omega) argv short (by omega)
    refine (execArgs_spec staged.ready (fun _ _ no => no.elim) (fun arg member => by have := short arg member; omega) reaches).mono
      (fun _ _ no => no.elim) ?_
    rintro r next ⟨_,result⟩ _
    cases r with
    | none =>
      obtain ⟨free,ok_next,_⟩ := result
      have back : update (update o.dirs .fresh (some d)) .fresh none = o.dirs := by
        rw [update_idem,← vacant,update_eq_self]
      rw [back] at ok_next
      exact ⟨free,ok_next⟩
    | some image =>
      obtain ⟨ok_next,_,laid⟩ := result
      have size := laid.sz
      exact ⟨by omega,now,by rw [laid.pgdir]; exact ok_next⟩

end Staging
end Xv6.Vm
