import Xv6.Vm.Proc
import Xv6.Vm.Copy
import Xv6.Vm.Stage

namespace Xv6.Vm
open Function (update update_eq_self update_idem update_of_ne update_self)
open Bytes Exec

-- What the calls do to the custody of pages, the system as a whole in view.

def Procstate.Live (st : Procstate) : Prop := st ≠ .unused ∧ st ≠ .embryo

instance (st : Procstate) : Decidable st.Live := inferInstanceAs (Decidable (_ ∧ _))

def ownOf (s : System) : Tag → Option Nat
  | .kstack i => if (s.procs i).state.Live then some (s.procs i).kstack else none
  | .pipe p => if (s.pipes p).isSome then some p else none
  | .temp _ => none

def dirsOf (s : System) : Space → Option Nat
  | .kernel => some s.kpgdir
  | .proc i => if (s.procs i).state.Live then some (s.procs i).pgdir else none
  | .fresh => none

def owners (s : System) (free : List Nat) : Owners := ⟨ownOf s,dirsOf s,free⟩

structure FilesOk (files : Nat → FileObj) (pipes : Nat → Option Ends) : Prop where
  closed : (files j).ref = 0 → (files j).type = .none
  opened : (files j).type = .pipe → ∃ ends, pipes (files j).pipe = some ends ∧
    (if (files j).writable then ends.writeopen else ends.readopen) = true
  apart : i ≠ j → (files i).type = .pipe → (files j).type = .pipe → (files i).pipe = (files j).pipe →
    (files i).writable ≠ (files j).writable

structure PagesOk (L : Layout) (s : System) : Prop where
  pages : ∃ free, Ok L s.vm (owners s free)
  files : FilesOk s.files s.pipes

structure SysOk (L : Layout) (s : System) : Prop where
  pagesOk : PagesOk L s
  sizes : (s.procs i).state.Live → (s.procs i).sz < 2147483648

section Steps
variable {α β : Type} {s : System}

theorem sat_onVm (m : M α) (s : System) (E : Panic → System → Prop) (Q : α → System → Prop) :
    Sat (onVm m) s E Q ↔ Sat m s.vm (fun e vm => E e { s with vm := vm }) fun a vm => Q a { s with vm := vm } := by
  unfold Sat onVm
  cases m s.vm with
  | mk outcome vm => cases outcome <;> exact Iff.rfl

theorem sat_onVm_bind {m : M α} {f : α → K β} {E : Panic → System → Prop} {Q : β → System → Prop}
    (run : Sat m s.vm (fun _ _ => False) P) (rest : ∀ a vm, P a vm → Sat (f a) { s with vm := vm } E Q) :
    Sat (onVm m >>= f) s E Q :=
  (sat_bind ..).mpr ((sat_onVm ..).mpr (run.mono (fun _ _ no => no.elim) rest))

-- The kernel's programs: what a run that returns guarantees.
def Gives (m : K α) (s : System) (Q : α → System → Prop) : Prop := Sat m s (fun _ _ => True) Q

theorem Gives.bind {m : K α} {f : α → K β} (first : Gives m s P) (rest : ∀ a next, P a next → Gives (f a) next Q) :
    Gives (m >>= f) s Q := Sat.bind first rest

theorem gives_pure (a : α) (post : Q a s) : Gives (pure a) s Q := .done post
theorem gives_stop (e : Panic) : Gives (Prog.stop e : K α) s Q := (sat_stop ..).mpr trivial

theorem gives_get {f : System → K β} (rest : Gives (f s) s Q) : Gives (Prog.get >>= f) s Q := (sat_get_bind ..).mpr rest

theorem gives_modify {g : System → System} {f : Unit → K β} (rest : Gives (f ()) (g s) Q) :
    Gives (Prog.modify g >>= f) s Q := (sat_modify_bind ..).mpr rest

theorem gives_last {g : System → System} (post : Q () (g s)) : Gives (Prog.modify g) s Q := (sat_modify ..).mpr post

theorem gives_onVm {m : M α} {E : Panic → Machine → Prop} (run : Sat m s.vm E P)
    (post : ∀ a vm, P a vm → Q a { s with vm := vm }) : Gives (onVm m) s Q :=
  (sat_onVm ..).mpr (run.mono (fun _ _ _ => trivial) post)

theorem gives_onVm_bind {m : M α} {f : α → K β} {E : Panic → Machine → Prop} (run : Sat m s.vm E P)
    (rest : ∀ a vm, P a vm → Gives (f a) { s with vm := vm } Q) : Gives (onVm m >>= f) s Q :=
  (sat_bind ..).mpr (gives_onVm run rest)

theorem Gives.post {m : K α} (run : Gives m s P) (weaker : ∀ a next, P a next → Q a next) : Gives m s Q :=
  Sat.post run weaker

end Steps

section Files
variable {L : Layout} {s next : System}

theorem ownOf_congr (procs : ∀ i, ((next.procs i).state.Live ↔ (s.procs i).state.Live) ∧ (next.procs i).kstack = (s.procs i).kstack)
    (pipes : next.pipes = s.pipes) : ownOf next = ownOf s := by
  funext t
  cases t with
  | kstack i => simp only [ownOf,(procs i).1,(procs i).2]
  | pipe p => rw [ownOf,ownOf,pipes]
  | temp k => rfl

theorem dirsOf_congr (procs : ∀ i, ((next.procs i).state.Live ↔ (s.procs i).state.Live) ∧ (next.procs i).pgdir = (s.procs i).pgdir)
    (kpgdir : next.kpgdir = s.kpgdir) : dirsOf next = dirsOf s := by
  funext a
  cases a with
  | kernel => rw [dirsOf,dirsOf,kpgdir]
  | proc i => simp only [dirsOf,(procs i).1,(procs i).2]
  | fresh => rfl

structure SameCore (s next : System) : Prop where
  core : ∀ i, (next.procs i).state = (s.procs i).state ∧ (next.procs i).kstack = (s.procs i).kstack ∧
    (next.procs i).pgdir = (s.procs i).pgdir ∧ (next.procs i).sz = (s.procs i).sz
  kpgdir : next.kpgdir = s.kpgdir
  quiet : Quiet s.vm next.vm

theorem SameCore.refl (s : System) : SameCore s s := ⟨fun _ => ⟨rfl,rfl,rfl,rfl⟩,rfl,.refl _⟩

theorem SameCore.trans (one : SameCore s next) (two : SameCore next last) : SameCore s last :=
  ⟨fun i => ⟨(two.core i).1.trans (one.core i).1,(two.core i).2.1.trans (one.core i).2.1,
    (two.core i).2.2.1.trans (one.core i).2.2.1,(two.core i).2.2.2.trans (one.core i).2.2.2⟩,
   two.kpgdir.trans one.kpgdir,one.quiet.trans two.quiet⟩

theorem SameCore.dirs (same : SameCore s next) : dirsOf next = dirsOf s :=
  dirsOf_congr (fun i => ⟨by rw [(same.core i).1],(same.core i).2.2.1⟩) same.kpgdir

theorem SameCore.own (same : SameCore s next) (pipes : next.pipes = s.pipes) : ownOf next = ownOf s :=
  ownOf_congr (fun i => ⟨by rw [(same.core i).1],(same.core i).2.1⟩) pipes

theorem SysOk.step (ok : SysOk L s) (pages : PagesOk L next) (same : SameCore s next) : SysOk L next :=
  ⟨pages,fun {i} => by rw [(same.core i).1,(same.core i).2.2.2]; exact ok.sizes⟩

theorem sameCore_setProc (s : System) (p : Nat) (f : Proc → Proc) (core : (f (s.procs p)).state = (s.procs p).state ∧
      (f (s.procs p)).kstack = (s.procs p).kstack ∧ (f (s.procs p)).pgdir = (s.procs p).pgdir ∧ (f (s.procs p)).sz = (s.procs p).sz) :
    SameCore s { s with procs := update s.procs p (f (s.procs p)) } := by
  refine ⟨fun i => ?_,rfl,.refl _⟩
  dsimp only
  by_cases same : i = p
  · subst same; rw [update_self]; exact core
  · rw [update_of_ne same]; exact ⟨rfl,rfl,rfl,rfl⟩

theorem PagesOk.transfer (ok : PagesOk L s) (same : SameCore s next) (vm : next.vm = s.vm) (files : FilesOk next.files next.pipes)
    (pipes : next.pipes = s.pipes) : PagesOk L next := by
  obtain ⟨free,pages⟩ := ok.pages
  refine ⟨⟨free,?_⟩,files⟩
  rw [owners,same.own pipes,same.dirs,vm]; exact pages

section
variable (ok : FilesOk files pipes)
include ok

-- One file changes.
theorem FilesOk.set (j : Nat) (f : FileObj) (closed : f.ref = 0 → f.type = .none)
    (opened : f.type = .pipe → ∃ ends, pipes f.pipe = some ends ∧ (if f.writable then ends.writeopen else ends.readopen) = true)
    (only : ∀ k, k ≠ j → f.type = .pipe → (files k).type = .pipe → (files k).pipe = f.pipe → (files k).writable ≠ f.writable) :
    FilesOk (update files j f) pipes := by
  refine ⟨fun {k} => ?_,fun {k} => ?_,fun {i k} other one two same => ?_⟩
  · by_cases here : k = j
    · subst here; rw [update_self]; exact closed
    · rw [update_of_ne here]; exact ok.closed
  · by_cases here : k = j
    · subst here; rw [update_self]; exact opened
    · rw [update_of_ne here]; exact ok.opened
  by_cases first : i = j
  · subst first
    have second : k ≠ i := fun equal => other equal.symm
    rw [update_self] at one same ⊢
    rw [update_of_ne second] at two same ⊢
    exact (only k second one two same.symm).symm
  rw [update_of_ne first] at one same ⊢
  by_cases second : k = j
  · subst second
    rw [update_self] at two same ⊢
    exact only i first two one same
  · rw [update_of_ne second] at two same ⊢
    exact ok.apart other one two same

theorem FilesOk.ref (j n : Nat) (positive : 0 < n) :
    FilesOk (update files j { files j with ref := n }) pipes :=
  ok.set j _ (fun zero => absurd zero (by dsimp only; omega)) ok.opened fun _ other mine pipe same => ok.apart other pipe mine same

theorem FilesOk.shut (j : Nat) (f : FileObj) (none : f.type = .none) :
    FilesOk (update files j f) pipes :=
  ok.set j f (fun _ => none) (fun pipe => by rw [none] at pipe; cases pipe) fun _ _ pipe => by rw [none] at pipe; cases pipe

theorem FilesOk.plug (j : Nat) (f : FileObj) (held : f.ref ≠ 0) (there : pipes f.pipe = some ends)
    (is_open : (if f.writable then ends.writeopen else ends.readopen) = true)
    (only : ∀ k, k ≠ j → (files k).type = .pipe → (files k).pipe = f.pipe → (files k).writable ≠ f.writable) :
    FilesOk (update files j f) pipes :=
  ok.set j f (fun zero => absurd zero held) (fun _ => ⟨ends,there,is_open⟩) fun k other _ => only k other

end

theorem filedup_spec (files : FilesOk s.files s.pipes) (j : Nat) :
    Gives (filedup j) s fun _ next => FilesOk next.files next.pipes ∧ next.vm = s.vm ∧ next.pipes = s.pipes ∧
      next.procs = s.procs ∧ next.kpgdir = s.kpgdir := by
  refine gives_get ?_
  split
  · exact gives_stop _
  · exact gives_last ⟨files.ref j _ (Nat.succ_pos _),rfl,rfl,rfl,rfl⟩

theorem ownOf_pipe (s : System) (p : Nat) (ends : Option Ends) :
    ownOf { s with pipes := update s.pipes p ends } = update (ownOf s) (.pipe p) (ends.map fun _ => p) := by
  funext t
  by_cases here : t = .pipe p
  · subst here; cases ends <;> simp [ownOf]
  rw [update_of_ne here]
  cases t with
  | kstack i => rfl
  | temp k => rfl
  | pipe q =>
    have other : q ≠ p := fun same => here (by rw [same])
    simp [ownOf,update_of_ne other]

def Ends.shut (ends : Ends) (writable : Bool) : Ends :=
  if writable then { ends with writeopen := false } else { ends with readopen := false }

theorem Ends.shut_other (ends : Ends) (side writable : Bool) (other : side ≠ writable)
    (was : (if side then ends.writeopen else ends.readopen) = true) :
    (if side then (ends.shut writable).writeopen else (ends.shut writable).readopen) = true := by
  cases side <;> cases writable <;> simp_all [Ends.shut]

theorem pipeclose_spec (ok : PagesOk L s) (p : Nat) (writable : Bool)
    (gone : ∀ j, (s.files j).type = .pipe → (s.files j).pipe = p → (s.files j).writable ≠ writable) :
    Gives (pipeclose L p writable) s fun _ next => PagesOk L next ∧ SameCore s next := by
  refine gives_get ?_
  cases found : s.pipes p with
  | none => exact gives_stop _
  | some ends =>
    -- the ends still open are those of files that are still there
    have kept : ∀ j, (s.files j).type = .pipe → (s.files j).pipe = p →
        (if (s.files j).writable then (ends.shut writable).writeopen else (ends.shut writable).readopen) = true := by
      intro j pipe here
      obtain ⟨ends',there,is_open⟩ := ok.files.opened pipe
      rw [here,found] at there
      cases there
      exact ends.shut_other _ _ (gone j pipe here) is_open
    obtain ⟨free,pages⟩ := ok.pages
    have mine : ownOf s (.pipe p) = some p := by simp [ownOf,found]
    show Gives (if (ends.shut writable).readopen = false ∧ (ends.shut writable).writeopen = false then _ else _) s _
    by_cases both : (ends.shut writable).readopen = false ∧ (ends.shut writable).writeopen = false
    · rw [if_pos both]
      obtain ⟨managed,freed⟩ := pages.release_own (t := .pipe p) mine
      refine gives_modify ((sat_onVm ..).mpr ((kfree_managed managed _ _ _).mpr ?_))
      refine ⟨⟨⟨p :: free,?_⟩,⟨ok.files.closed,fun {j} pipe => ?_,ok.files.apart⟩⟩,
        ⟨fun _ => ⟨rfl,rfl,rfl,rfl⟩,rfl,released_quiet _ _⟩⟩
      · show Ok L (released s.vm p) ⟨ownOf { s with pipes := update s.pipes p none },dirsOf s,p :: free⟩
        rw [ownOf_pipe]; exact freed
      · have elsewhere : (s.files j).pipe ≠ p := by
          intro here
          have still := kept j pipe here
          rw [both.1,both.2] at still
          cases side : (s.files j).writable <;> rw [side] at still <;> cases still
        obtain ⟨ends',there,is_open⟩ := ok.files.opened pipe
        exact ⟨ends',by rw [← there]; exact update_of_ne elsewhere _ _,is_open⟩
    · rw [if_neg both]
      have own : ownOf { s with pipes := update s.pipes p (some (ends.shut writable)) } = ownOf s := by
        rw [ownOf_pipe,Option.map_some,← mine,update_eq_self]
      refine gives_last ⟨⟨⟨free,?_⟩,⟨ok.files.closed,fun {j} pipe => ?_,ok.files.apart⟩⟩,
        ⟨fun _ => ⟨rfl,rfl,rfl,rfl⟩,rfl,.refl _⟩⟩
      · show Ok L s.vm ⟨ownOf { s with pipes := update s.pipes p (some (ends.shut writable)) },dirsOf s,free⟩
        rw [own]; exact pages
      show ∃ ends', update s.pipes p (some (ends.shut writable)) (s.files j).pipe = some ends' ∧ _
      by_cases here : (s.files j).pipe = p
      · rw [here,update_self]
        exact ⟨_,rfl,kept j pipe here⟩
      · rw [update_of_ne here]
        exact ok.files.opened pipe

theorem fileclose_spec (ok : PagesOk L s) (j : Nat) :
    Gives (fileclose L j) s fun _ next => PagesOk L next ∧ SameCore s next := by
  refine gives_get ?_
  dsimp only
  split
  · exact gives_stop _
  split
  · rename_i more
    refine gives_last ⟨?_,⟨fun _ => ⟨rfl,rfl,rfl,rfl⟩,rfl,.refl _⟩⟩
    exact ok.transfer ⟨fun _ => ⟨rfl,rfl,rfl,rfl⟩,rfl,.refl _⟩ rfl (ok.files.ref j _ more) rfl
  refine gives_modify ?_
  have start : SameCore s { s with files := update s.files j { s.files j with ref := 0, type := .none } } :=
    ⟨fun _ => ⟨rfl,rfl,rfl,rfl⟩,rfl,.refl _⟩
  have without := ok.transfer start rfl (ok.files.shut j { s.files j with ref := 0, type := .none } rfl) rfl
  cases kind : (s.files j).type with
  | none => exact gives_pure _ ⟨without,start⟩
  | inode => exact gives_pure _ ⟨without,start⟩
  | pipe =>
    refine (pipeclose_spec without _ _ fun k pipe here => ?_).post fun _ next ⟨ok',same⟩ => ⟨ok',start.trans same⟩
    dsimp only at pipe here ⊢
    by_cases same : k = j
    · subst same; rw [update_self] at pipe; cases pipe
    · rw [update_of_ne same] at pipe here ⊢
      exact ok.files.apart same pipe kind here

theorem closeFiles_spec (p : Nat) (fds : List Nat) : ∀ {s : System}, PagesOk L s →
    Gives (closeFiles L p fds) s fun _ next => PagesOk L next ∧ SameCore s next := by
  induction fds with
  | nil =>
    intro s ok
    exact gives_pure _ ⟨ok,.refl s⟩
  | cons fd rest ih =>
    intro s ok
    refine gives_get ?_
    cases found : (s.procs p).ofile fd with
    | none => exact ih ok
    | some j =>
      refine (fileclose_spec ok j).bind fun _ mid ⟨ok_mid,same⟩ => gives_modify ?_
      have shut := sameCore_setProc mid p (fun proc => { proc with ofile := update proc.ofile fd none }) ⟨rfl,rfl,rfl,rfl⟩
      refine (ih (ok_mid.transfer shut rfl ok_mid.files rfl)).post fun _ next ⟨ok',rest⟩ => ⟨ok',?_⟩
      exact same.trans (shut.trans rest)

theorem dupFiles_spec (np : Nat) (ofile : Nat → Option Nat) (fds : List Nat) : ∀ {s : System}, FilesOk s.files s.pipes →
    Gives (dupFiles np ofile fds) s fun _ next => FilesOk next.files next.pipes ∧ next.vm = s.vm ∧ next.pipes = s.pipes ∧
      SameCore s next := by
  induction fds with
  | nil =>
    intro s files
    exact gives_pure _ ⟨files,rfl,rfl,.refl s⟩
  | cons fd rest ih =>
    intro s files
    unfold dupFiles
    cases ofile fd with
    | none => exact ih files
    | some j =>
      refine (filedup_spec files j).bind fun _ mid ⟨files_mid,vm,pipes,procs,kpgdir⟩ => gives_modify ?_
      have dup : SameCore s mid := ⟨fun i => by rw [procs]; exact ⟨rfl,rfl,rfl,rfl⟩,kpgdir,by rw [vm]; exact .refl _⟩
      have set := sameCore_setProc mid np (fun proc => { proc with ofile := update proc.ofile fd (some j) }) ⟨rfl,rfl,rfl,rfl⟩
      refine Gives.post (ih ?_) fun _ next ⟨files',vm',pipes',rest⟩ => ?_
      · exact files_mid
      · exact ⟨files',vm'.trans vm,pipes'.trans pipes,dup.trans (set.trans rest)⟩

theorem filealloc_spec (ok : PagesOk L s) :
    Gives filealloc s fun r next => PagesOk L next ∧ SameCore s next ∧ next.pipes = s.pipes ∧
      ∀ j, r = some j → (s.files j).ref = 0 ∧ (next.files j).ref = 1 ∧ (next.files j).type = .none ∧
        ∀ k, k ≠ j → next.files k = s.files k := by
  refine gives_get ?_
  cases found : firstBelow 100 fun j => (s.files j).ref = 0 with
  | none => exact gives_pure _ ⟨ok,.refl s,rfl,fun j no => by cases no⟩
  | some j =>
    have unused : (s.files j).ref = 0 := by
      have passes := List.find?_some found
      simpa using passes
    have none := ok.files.closed unused
    refine gives_modify (gives_pure _ ⟨?_,⟨fun _ => ⟨rfl,rfl,rfl,rfl⟩,rfl,.refl _⟩,rfl,fun k is_j => ?_⟩)
    · exact ok.transfer ⟨fun _ => ⟨rfl,rfl,rfl,rfl⟩,rfl,.refl _⟩ rfl (ok.files.shut j _ none) rfl
    cases is_j
    show _ ∧ (update s.files j _ j).ref = 1 ∧ (update s.files j _ j).type = .none ∧
      ∀ k, k ≠ j → update s.files j _ k = s.files k
    rw [update_self]
    exact ⟨unused,rfl,none,fun k other => update_of_ne other _ _⟩

end Files

section Pipe
variable {L : Layout} {s : System}

theorem pipe_vacant (ok : Ok L s.vm (owners s (p :: rest))) : s.pipes p = none := by
  cases there : s.pipes p with
  | none => rfl
  | some ends =>
    have mine : Holds s.vm.mem (owners s (p :: rest)) (.own (.pipe p)) p := by
      show ownOf s (.pipe p) = some p
      simp [ownOf,there]
    cases ok.custody.exclusive mine (show Holds s.vm.mem (owners s (p :: rest)) .free p from (.head _) ..)

theorem pipe_page (ok : PagesOk L s) :
    Gives (onVm kalloc) s fun r next => PagesOk L { next with pipes := match r with
        | none => next.pipes
        | some p => update next.pipes p (some ⟨true,true⟩) } ∧
      SameCore s next ∧ next.files = s.files ∧ next.pipes = s.pipes ∧
      ∀ p, r = some p → ∀ j, (s.files j).type = .pipe → (s.files j).pipe ≠ p := by
  obtain ⟨free,pages⟩ := ok.pages
  have fresh : ∀ p rest, free = p :: rest → s.pipes p = none := fun p rest list => by
    rw [list] at pages; exact pipe_vacant pages
  have vacant : ownOf s (.pipe (free.headD 0)) = none := by
    cases list : free with
    | nil =>
      cases there : s.pipes 0 with
      | none => simp [ownOf,there]
      | some ends =>
        have mine : Holds s.vm.mem (owners s free) (.own (.pipe 0)) 0 := by
          show ownOf s (.pipe 0) = some 0
          simp [ownOf,there]
        have := (pages.custody.managed mine).2.1
        have := L.image
        omega
    | cons p rest => simp [ownOf,fresh p rest list]
  refine gives_onVm (kalloc_spec (t := .pipe (free.headD 0)) pages vacant fun _ _ => True) ?_
  rintro r vm ⟨quiet,mem,_,result⟩
  have core : SameCore s { s with vm := vm } := ⟨fun _ => ⟨rfl,rfl,rfl,rfl⟩,rfl,quiet⟩
  cases r with
  | none => exact ⟨⟨⟨free,result.2⟩,ok.files⟩,core,rfl,rfl,fun p no => by cases no⟩
  | some p =>
    obtain ⟨_,rest,list,taken⟩ := result
    have list' : free = p :: rest := list
    have was := fresh p rest list'
    have away : ∀ j, (s.files j).type = .pipe → (s.files j).pipe ≠ p := by
      intro j pipe same
      obtain ⟨ends,there,_⟩ := ok.files.opened pipe
      rw [same,was] at there; cases there
    refine ⟨⟨⟨rest,?_⟩,⟨ok.files.closed,fun {j} pipe => ?_,ok.files.apart⟩⟩,core,rfl,rfl,fun q is_p => by cases is_p; exact away⟩
    · show Ok L vm ⟨ownOf { s with vm := vm, pipes := update s.pipes p (some ⟨true,true⟩) },dirsOf s,rest⟩
      rw [show ownOf { s with vm := vm, pipes := update s.pipes p (some ⟨true,true⟩) } = _ from
        ownOf_pipe s p (some ⟨true,true⟩)]
      rw [list',List.headD_cons] at taken
      exact taken
    · show ∃ ends, update s.pipes p (some ⟨true,true⟩) (s.files j).pipe = some ends ∧ _
      rw [update_of_ne (away j pipe)]
      exact ok.files.opened pipe

theorem pipealloc_spec (ok : PagesOk L s) :
    Gives (pipealloc L) s fun _ next => PagesOk L next ∧ SameCore s next := by
  refine (filealloc_spec ok).bind fun r one ⟨ok₁,same₁,_,first⟩ => ?_
  cases r with
  | none => exact gives_pure _ ⟨ok₁,same₁⟩
  | some f0 =>
    refine (filealloc_spec ok₁).bind fun r two ⟨ok₂,same₂,_,second⟩ => ?_
    cases r with
    | none =>
      refine (fileclose_spec ok₂ f0).bind fun _ next ⟨ok',same⟩ => gives_pure _ ⟨ok',?_⟩
      exact same₁.trans (same₂.trans same)
    | some f1 =>
      refine (pipe_page ok₂).bind fun r mem ⟨ok₃,same₃,files,pipes,away⟩ => ?_
      cases r with
      | none =>
        refine (fileclose_spec ok₃ f0).bind fun _ next ⟨ok',same⟩ => ?_
        refine (fileclose_spec ok' f1).bind fun _ last ⟨ok'',same'⟩ => gives_pure _ ⟨ok'',?_⟩
        exact same₁.trans (same₂.trans (same₃.trans (same.trans same')))
      | some p =>
        obtain ⟨unused₁,held₁,none₁,_⟩ := first f0 rfl
        obtain ⟨unused₂,held₂,none₂,others⟩ := second f1 rfl
        -- two different files
        have distinct : f0 ≠ f1 := fun same => by rw [← same,held₁] at unused₂; cases unused₂
        have held₀ : (mem.files f0).ref = 1 := by rw [files,others f0 distinct]; exact held₁
        have held : (mem.files f1).ref = 1 := by rw [files]; exact held₂
        have away' : ∀ j, (mem.files j).type = .pipe → (mem.files j).pipe ≠ p := by rw [files]; exact away p rfl
        refine gives_modify (gives_modify (gives_modify (gives_pure _ ?_)))
        have there : update mem.pipes p (some (⟨true,true⟩ : Ends)) p = some ⟨true,true⟩ := update_self ..
        have reading := ok₃.files.plug f0 { mem.files f0 with type := .pipe, writable := false, pipe := p }
          (by dsimp only; omega) there rfl fun k _ pipe same => absurd same (away' k pipe)
        have writing := reading.plug f1
          { update mem.files f0 { mem.files f0 with type := .pipe, writable := false, pipe := p } f1 with
            type := .pipe, writable := true, pipe := p }
          (by rw [update_of_ne distinct.symm]; dsimp only; omega) there rfl fun k _ pipe same => by
            by_cases here : k = f0
            · subst here; rw [update_self]; simp
            · rw [update_of_ne here] at pipe same
              exact absurd same (away' k pipe)
        obtain ⟨free,pages⟩ := ok₃.pages
        have core : SameCore mem { mem with
            pipes := update mem.pipes p (some ⟨true,true⟩),
            files := update (update mem.files f0 { mem.files f0 with type := .pipe, writable := false, pipe := p }) f1
              { update mem.files f0 { mem.files f0 with type := .pipe, writable := false, pipe := p } f1 with
                type := .pipe, writable := true, pipe := p } } := ⟨fun _ => ⟨rfl,rfl,rfl,rfl⟩,rfl,.refl _⟩
        exact ⟨⟨⟨free,pages⟩,writing⟩,same₁.trans (same₂.trans (same₃.trans core))⟩

theorem fdalloc_spec (ok : PagesOk L s) (p j : Nat) :
    Gives (fdalloc p j) s fun _ next => PagesOk L next ∧ SameCore s next := by
  refine gives_get ?_
  cases firstBelow 16 fun fd => (s.procs p).ofile fd = none with
  | none => exact gives_pure _ ⟨ok,.refl s⟩
  | some fd =>
    have set := sameCore_setProc s p (fun proc => { proc with ofile := update proc.ofile fd (some j) }) ⟨rfl,rfl,rfl,rfl⟩
    exact gives_modify (gives_pure _ ⟨ok.transfer set rfl ok.files rfl,set⟩)

theorem poke1_spec {vm : Machine} {o : Owners} (ok : Ok L vm o) (dir : o.dirs a = some d) (word : va < 4294967296)
    (mine : user = true ∨ va < 2147483648) (b : UInt8) :
    Sat (poke1 user d va b) vm (fun _ _ => True) fun _ next => Quiet vm next ∧ Ok L next o := by
  unfold poke1
  rw [sat_bind,walkpgdir_look _ _ word]
  cases table : tableOf vm.mem d (va/4096/1024) with
  | none => exact (sat_stop ..).mpr trivial
  | some t =>
    simp only [Option.map_some]
    rw [sat_load_bind,pteOf_table table]
    by_cases allowed : Present (pteOf vm.mem d (va/4096)) ∧ Writable (pteOf vm.mem d (va/4096)) ∧
        (user = true → UserBit (pteOf vm.mem d (va/4096)))
    · rw [if_pos allowed,sat_modify]
      -- in the kernel's half no entry has PTE_U
      have low : va/4096 < 524288 := by
        rcases mine with is_user | small
        · by_contra above
          exact ok.custody.kernel dir (by omega) (by omega) allowed.1 (allowed.2.2 is_user)
        · omega
      have use : Holds vm.mem o (.user a (va/4096)) (PTE_ADDR (pteOf vm.mem d (va/4096))) := ⟨d,dir,low,allowed.1,rfl⟩
      have poked := poke ok (ok.custody.loose_user use) (ok.custody.managed use).1 (x := va%4096) (n := 1) (by omega) fun _ => b
      exact ⟨⟨rfl,rfl,rfl,rfl⟩,poked.1⟩
    · rw [if_neg allowed]; exact (sat_stop ..).mpr trivial

theorem pokeAll_spec {o : Owners} (dir : o.dirs a = some d) (bytes : List UInt8) : ∀ {vm : Machine} {va : Nat}, Ok L vm o →
    va+bytes.length ≤ 2147483648 →
    Sat (pokeAll d va bytes) vm (fun _ _ => True) fun _ next => Quiet vm next ∧ Ok L next o := by
  induction bytes with
  | nil =>
    intro vm va ok _
    exact .done ⟨.refl vm,ok⟩
  | cons b rest ih =>
    intro vm va ok top
    simp only [List.length_cons] at top
    have next_va : w32 (va+1) = va+1 := by unfold w32; omega
    apply (poke1_spec ok dir (by omega) (.inr (by omega)) b).bind
    rintro _ mid ⟨quiet,ok_mid⟩
    refine (ih ok_mid (by omega)).post ?_
    rintro _ next ⟨quiet',ok'⟩
    exact ⟨quiet.trans quiet',ok'⟩

theorem sysPipe_spec (ok : SysOk L s) (live : (s.procs p).state.Live) (fd : Nat) :
    Gives (sysPipe L p fd) s fun _ next => SysOk L next := by
  have size : (s.procs p).sz < 2147483648 := ok.sizes live
  refine gives_get ?_
  dsimp only
  split
  · exact gives_pure _ ok
  rename_i checked
  refine (pipealloc_spec ok.pagesOk).bind fun r one ⟨ok₁,same₁⟩ => ?_
  have give_up : ∀ {t : System} (rf wf : Nat), PagesOk L t → SameCore s t →
      Gives (fileclose L rf >>= fun _ => fileclose L wf >>= fun _ => pure (-1)) t fun _ next => SysOk L next := by
    intro t rf wf ok_t same
    refine (fileclose_spec ok_t rf).bind fun _ mid ⟨ok_mid,closed⟩ => ?_
    refine (fileclose_spec ok_mid wf).bind fun _ next ⟨ok',closed'⟩ => gives_pure _ ?_
    exact ok.step ok' (same.trans (closed.trans closed'))
  cases r with
  | none => exact gives_pure _ (ok.step ok₁ same₁)
  | some pair =>
    obtain ⟨rf,wf⟩ := pair
    refine (fdalloc_spec ok₁ p rf).bind fun r two ⟨ok₂,same₂⟩ => ?_
    cases r with
    | none => exact give_up rf wf ok₂ (same₁.trans same₂)
    | some fd0 =>
      refine (fdalloc_spec ok₂ p wf).bind fun r three ⟨ok₃,same₃⟩ => ?_
      have same : SameCore s three := same₁.trans (same₂.trans same₃)
      cases r with
      | none =>
        refine gives_modify ?_
        have set := sameCore_setProc three p (fun proc => { proc with ofile := update proc.ofile fd0 none }) ⟨rfl,rfl,rfl,rfl⟩
        exact give_up rf wf (ok₃.transfer set rfl ok₃.files rfl) (same.trans set)
      | some fd1 =>
        obtain ⟨free,pages⟩ := ok₃.pages
        have dir : (owners three free).dirs (.proc p) = some (s.procs p).pgdir := by
          show dirsOf three (.proc p) = _
          rw [same.dirs,dirsOf,if_pos live]
        have bytes : (wordBytes fd0 ++ wordBytes fd1).length = 8 := rfl
        have inside : fd + (wordBytes fd0 ++ wordBytes fd1).length ≤ 2147483648 := by
          unfold w32 at checked
          omega
        refine gives_onVm_bind (pokeAll_spec dir _ pages inside) fun _ vm ⟨quiet,ok_vm⟩ => gives_pure _ ?_
        exact ok.step ⟨⟨free,ok_vm⟩,ok₃.files⟩ (same.trans ⟨fun _ => ⟨rfl,rfl,rfl,rfl⟩,rfl,quiet⟩)

end Pipe

section Processes
variable {L : Layout} {s : System}

theorem idle_owners (s : System) (free : List Nat) : Idle (owners s free) := fun _ => rfl

theorem idle_kstack (s : System) (i : Nat) (k : Option Nat) (free : List Nat) : Idle ⟨update (ownOf s) (.kstack i) k,dirsOf s,free⟩ :=
  fun j => (update_of_ne (by simp) _ _ : update (ownOf s) (.kstack i) k (.temp j) = none)

theorem dirs_live (live : (s.procs i).state.Live) : dirsOf s (.proc i) = some (s.procs i).pgdir := if_pos live
theorem own_live (live : (s.procs i).state.Live) : ownOf s (.kstack i) = some (s.procs i).kstack := if_pos live

theorem ownOf_setProc (s : System) (i : Nat) (proc : Proc) :
    ownOf { s with procs := update s.procs i proc } =
      update (ownOf s) (.kstack i) (if proc.state.Live then some proc.kstack else none) := by
  funext t
  by_cases here : t = .kstack i
  · subst here; simp [ownOf]
  rw [update_of_ne here]
  cases t with
  | pipe q => rfl
  | temp k => rfl
  | kstack j =>
    have other : j ≠ i := fun same => here (by rw [same])
    simp [ownOf,update_of_ne other]

theorem dirsOf_setProc (s : System) (i : Nat) (proc : Proc) :
    dirsOf { s with procs := update s.procs i proc } =
      update (dirsOf s) (.proc i) (if proc.state.Live then some proc.pgdir else none) := by
  funext a
  by_cases here : a = .proc i
  · subst here; simp [dirsOf]
  rw [update_of_ne here]
  cases a with
  | kernel => rfl
  | fresh => rfl
  | proc j =>
    have other : j ≠ i := fun same => here (by rw [same])
    simp [dirsOf,update_of_ne other]

theorem sizes_setProc (ok : SysOk L s) (i : Nat) (proc : Proc) (size : proc.state.Live → proc.sz < 2147483648) :
    (update s.procs i proc j).state.Live → (update s.procs i proc j).sz < 2147483648 := by
  by_cases here : j = i
  · subst here; rw [update_self]; exact size
  · rw [update_of_ne here]; exact ok.sizes

theorem own_unused (unused : (s.procs i).state = .unused) : ownOf s (.kstack i) = none := by
  have dead : ¬ (s.procs i).state.Live := fun live => live.1 unused
  rw [ownOf,if_neg dead]

theorem dirs_unused (unused : (s.procs i).state = .unused) : dirsOf s (.proc i) = none := by
  have dead : ¬ (s.procs i).state.Live := fun live => live.1 unused
  rw [dirsOf,if_neg dead]

structure Embryo (L : Layout) (s : System) (i k : Nat) (free : List Nat) (next : System) : Prop where
  unused : (s.procs i).state = .unused
  next : ∃ vm pid n, next = { s with
      vm := vm, nextpid := n
      procs := Function.update s.procs i { s.procs i with state := .embryo, pid := pid, kstack := k } } ∧
    Quiet s.vm vm ∧ vm.mem = s.vm.mem ∧ vm.calls = s.vm.calls+1 ∧
    Ok L vm ⟨Function.update (ownOf s) (.kstack i) (some k),dirsOf s,free⟩

def firstUnused (s : System) : Option Nat := firstBelow 64 fun i => (s.procs i).state = .unused

theorem allocproc_spec (ok : SysOk L s) (pages : Ok L s.vm (owners s free)) :
    Sat allocproc s (fun _ _ => False) fun r next =>
      match r with
      | none => (s.vm.fails s.vm.calls = true ∨ free = [] ∨ firstUnused s = none) ∧ SysOk L next
      | some i => firstUnused s = some i ∧ ∃ k rest, free = k :: rest ∧ Embryo L s i k rest next := by
  unfold allocproc
  rw [sat_get_bind]
  cases found : firstUnused s with
  | none =>
    unfold firstUnused at found
    rw [found]
    exact .done ⟨.inr (.inr rfl),ok⟩
  | some i =>
    have unused : (s.procs i).state = .unused := by
      have passes := List.find?_some found
      simpa using passes
    unfold firstUnused at found
    rw [found]
    refine (sat_modify_bind ..).mpr ((sat_modify_bind ..).mpr
      (sat_onVm_bind (kalloc_spec (t := .kstack i) pages (own_unused unused) _) ?_))
    rintro r vm ⟨quiet,mem,calls,result⟩
    cases r with
    | none =>
      obtain ⟨why,same⟩ := result
      refine (sat_modify_bind ..).mpr (.done ⟨why.imp id .inl,?_⟩)
      have dead : ¬ (Procstate.unused).Live := by decide
      dsimp only
      rw [update_idem,update_self]
      refine ⟨⟨⟨free,?_⟩,ok.pagesOk.files⟩,sizes_setProc ok i _ fun live => absurd live dead⟩
      show Ok L vm ⟨ownOf { s with procs := update s.procs i _ },dirsOf { s with procs := update s.procs i _ },free⟩
      have own : update (ownOf s) (.kstack i) none = ownOf s := by
        rw [← own_unused unused,update_eq_self]
      have dirs : update (dirsOf s) (.proc i) none = dirsOf s := by
        rw [← dirs_unused unused,update_eq_self]
      rw [ownOf_setProc,dirsOf_setProc,if_neg dead,if_neg dead,own,dirs]
      exact same
    | some k =>
      obtain ⟨_,rest,list,taken⟩ := result
      refine (sat_modify_bind ..).mpr (.done ⟨rfl,k,rest,list,unused,vm,s.nextpid,s.nextpid+1,?_,quiet,mem,calls,taken⟩)
      dsimp only
      rw [update_idem,update_self]

theorem fork_spec (ok : SysOk L s) (live : (s.procs p).state.Live) :
    Gives (fork L p) s fun _ next => SysOk L next := by
  obtain ⟨free₀,pages₀⟩ := ok.pagesOk.pages
  refine Sat.bind ((allocproc_spec ok pages₀).never) fun r mid post => ?_
  cases r with
  | none => exact gives_pure _ post.2
  | some i =>
    obtain ⟨_,k,free,_,unused,vm,pid,n,rfl,_,_,_,pages⟩ := post
    have other : p ≠ i := fun same => live.1 (same ▸ unused)
    have dead : ¬ (Procstate.unused).Live := by decide
    have runs : (Procstate.runnable).Live := by decide
    refine gives_get ?_
    dsimp only
    rw [update_of_ne other]
    refine gives_onVm_bind (copyuvm_spec (a := .proc i) pages (dirs_unused unused) (idle_kstack _ _ _ _) (Nat.le_of_lt (ok.sizes live))) ?_
    rintro r vm' ⟨_,result⟩
    cases r with
    | none =>
      obtain ⟨free',pages',_⟩ := result
      refine gives_get ?_
      dsimp only
      rw [update_self]
      obtain ⟨managed,freed⟩ := pages'.release_own (update_self ..)
      refine gives_onVm_bind ((kfree_managed managed _ (fun _ _ => True) fun _ next => next = released vm' k).mpr rfl) ?_
      rintro _ vm'' rfl
      refine gives_modify (gives_pure _ ?_)
      dsimp only
      rw [update_idem,update_self]
      refine ⟨⟨⟨k :: free',?_⟩,ok.pagesOk.files⟩,sizes_setProc ok i _ fun alive => absurd alive dead⟩
      show Ok L (released vm' k) ⟨ownOf { s with procs := update s.procs i _ },
        dirsOf { s with procs := update s.procs i _ },k :: free'⟩
      have dirs : update (dirsOf s) (.proc i) none = dirsOf s := by
        rw [← dirs_unused unused,update_eq_self]
      rw [ownOf_setProc,dirsOf_setProc,if_neg dead,dirs]
      rw [update_idem] at freed
      exact freed
    | some d =>
      obtain ⟨free',pages',_⟩ := result
      refine gives_modify ?_
      dsimp only
      refine Gives.bind (dupFiles_spec i (s.procs p).ofile (List.range 16) ok.pagesOk.files) fun _ dup ⟨files,vm_same,pipes,core⟩ => ?_
      refine gives_modify (gives_get (gives_pure _ ?_))
      -- the child's four fields are those set before its files were shared
      let child : Proc := { s.procs i with state := .runnable, kstack := k, pgdir := d, sz := (s.procs p).sz }
      obtain ⟨procs,after⟩ : ∃ procs, procs = update dup.procs i { dup.procs i with state := .runnable } := ⟨_,rfl⟩
      have same : ∀ j, (procs j).state = (update s.procs i child j).state ∧ (procs j).kstack = (update s.procs i child j).kstack ∧
          (procs j).pgdir = (update s.procs i child j).pgdir ∧ (procs j).sz = (update s.procs i child j).sz := by
        intro j
        have fields := core.core j
        by_cases here : j = i
        · subst here
          simp only [after,update_self] at fields ⊢
          exact ⟨rfl,fields.2⟩
        · simp only [after,update_of_ne here] at fields ⊢
          exact fields
      rw [← after]
      refine ⟨⟨⟨free',?_⟩,files⟩,fun {j} => ?_⟩
      · have own : ownOf { dup with procs := procs } = ownOf { s with procs := update s.procs i child } :=
          ownOf_congr (fun j => ⟨by rw [(same j).1],(same j).2.1⟩) pipes
        have dirs : dirsOf { dup with procs := procs } = dirsOf { s with procs := update s.procs i child } :=
          dirsOf_congr (fun j => ⟨by rw [(same j).1],(same j).2.2.1⟩) core.kpgdir
        rw [owners,own,dirs,ownOf_setProc,dirsOf_setProc,if_pos runs,if_pos runs]
        rw [vm_same]
        exact pages'
      · rw [(same j).1,(same j).2.2.2]
        exact sizes_setProc ok i child fun _ => ok.sizes live

theorem SysOk.keep (ok : SysOk L s) (pages : Ok L vm (owners s free)) (procs : Nat → Proc)
    (core : ∀ i, ((procs i).state.Live ↔ (s.procs i).state.Live) ∧ (procs i).kstack = (s.procs i).kstack ∧
      (procs i).pgdir = (s.procs i).pgdir ∧ ((s.procs i).state.Live → (procs i).sz < 2147483648)) :
    SysOk L { s with vm := vm, procs := procs } := by
  refine ⟨⟨⟨free,?_⟩,ok.pagesOk.files⟩,fun {i} live => (core i).2.2.2 ((core i).1.mp live)⟩
  have own : ownOf { s with vm := vm, procs := procs } = ownOf s :=
    ownOf_congr (fun i => ⟨(core i).1,(core i).2.1⟩) rfl
  have dirs : dirsOf { s with vm := vm, procs := procs } = dirsOf s :=
    dirsOf_congr (fun i => ⟨(core i).1,(core i).2.2.1⟩) rfl
  rw [owners,own,dirs]
  exact pages

theorem SysOk.resize (ok : SysOk L s) (pages : Ok L vm (owners s free)) (below : sz < 2147483648) :
    SysOk L { s with vm := vm, procs := update s.procs p { s.procs p with sz := sz } } := by
  refine ok.keep pages _ fun i => ?_
  by_cases here : i = p
  · subst here; rw [update_self]; exact ⟨Iff.rfl,rfl,rfl,fun _ => below⟩
  · rw [update_of_ne here]; exact ⟨Iff.rfl,rfl,rfl,ok.sizes⟩

theorem switchuvm_gives {f : Unit → K β} (rest : Gives (f ()) s Q) : Gives (switchuvm p >>= f) s Q := by
  refine Gives.bind (P := fun _ next => next = s) (gives_get ?_) fun _ next same => same ▸ rest
  split
  · exact gives_stop _
  · exact gives_pure _ rfl

section
variable (ok : SysOk L s) (live : (s.procs p).state.Live)
include ok live

theorem growproc_spec (n : Int) :
    Gives (growproc L p n) s fun _ next => SysOk L next := by
  obtain ⟨free,pages⟩ := ok.pagesOk.pages
  have dir : (owners s free).dirs (.proc p) = some (s.procs p).pgdir := dirs_live live
  have size : (s.procs p).sz < 2147483648 := ok.sizes live
  refine gives_get ?_
  split
  · refine gives_onVm_bind (allocuvm_spec pages dir (idle_owners s free) size) ?_
    intro r vm alloc
    obtain ⟨free',ok',_⟩ := alloc.ok
    split
    · exact gives_pure _ (ok.keep ok' s.procs fun _ => ⟨Iff.rfl,rfl,rfl,ok.sizes⟩)
    · rename_i success
      exact gives_modify (switchuvm_gives (gives_pure _ (ok.resize ok' (alloc.size success).2)))
  · split
    · refine gives_onVm_bind (deallocuvm_spec pages dir (Nat.le_of_lt size)) ?_
      rintro r vm ⟨is_min,sweeps⟩
      obtain ⟨free',shrunk,_⟩ := sweeps.done
      split
      · exact gives_pure _ (ok.keep shrunk.ok s.procs fun _ => ⟨Iff.rfl,rfl,rfl,ok.sizes⟩)
      · exact gives_modify (switchuvm_gives (gives_pure _ (ok.resize shrunk.ok (by omega))))
    · exact switchuvm_gives (gives_pure _ ok)

theorem sysSbrk_spec (n : Int) :
    Gives (sysSbrk L p n) s fun _ next => SysOk L next := by
  refine gives_get (Gives.bind (growproc_spec ok live n) fun r next ok' => ?_)
  split
  · exact gives_pure _ ok'
  · exact gives_pure _ ok'

theorem exit_spec :
    Gives (exit L p) s fun _ next => SysOk L next := by
  refine gives_get ?_
  split
  · exact gives_stop _
  refine (closeFiles_spec p (List.range 16) ok.pagesOk).bind fun _ mid ⟨pages,same⟩ => gives_modify (gives_last ?_)
  have ok_mid := ok.step pages same
  have live_mid : (mid.procs p).state.Live := by rw [(same.core p).1]; exact live
  have size_mid : (mid.procs p).sz < 2147483648 := ok_mid.sizes live_mid
  obtain ⟨free,pages'⟩ := pages.pages
  refine ok_mid.keep pages' _ fun i => ?_
  dsimp only
  by_cases here : i = p
  · -- a zombie keeps its stack and its pages until its parent waits
    subst here
    rw [update_self]
    have zombie : (Procstate.zombie).Live := by decide
    split <;> exact ⟨⟨fun _ => live_mid,fun _ => zombie⟩,rfl,rfl,fun _ => size_mid⟩
  · rw [update_of_ne here]
    split <;> exact ⟨Iff.rfl,rfl,rfl,ok_mid.sizes⟩

end

theorem wait_spec (ok : SysOk L s) (p : Nat) : Gives (wait L p) s fun _ next => SysOk L next := by
  obtain ⟨free,pages⟩ := ok.pagesOk.pages
  refine gives_get ?_
  cases found : firstBelow 64 fun i => (s.procs i).parent = some p ∧ (s.procs i).state = .zombie with
  | none =>
    dsimp only
    split
    · exact gives_pure _ ok
    · exact gives_pure _ ok
  | some i =>
    have zombie : (s.procs i).state = .zombie := by
      have passes := List.find?_some found
      simp only [decide_eq_true_eq] at passes
      exact passes.2
    have live : (s.procs i).state.Live := by rw [zombie]; decide
    have dead : ¬ (Procstate.unused).Live := by decide
    obtain ⟨managed,freed⟩ := pages.release_own (t := .kstack i) (own_live live)
    refine gives_onVm_bind ((kfree_managed managed _ (fun _ _ => True) fun _ next => next = released s.vm (s.procs i).kstack).mpr rfl) ?_
    rintro _ vm rfl
    refine gives_onVm_bind (freevm_spec (a := .proc i) freed (dirs_live live) (idle_kstack _ _ _ _)) ?_
    rintro _ vm ⟨_,⟨free',ok',_⟩,_⟩
    refine gives_modify (gives_pure _ ⟨⟨⟨free',?_⟩,ok.pagesOk.files⟩,sizes_setProc ok i _ fun alive => absurd alive dead⟩)
    show Ok L vm ⟨ownOf { s with procs := update s.procs i _ },dirsOf { s with procs := update s.procs i _ },free'⟩
    rw [ownOf_setProc,dirsOf_setProc,if_neg dead,if_neg dead]
    exact ok'

def swapFresh (p : Nat) : Space → Space
  | .fresh => .proc p
  | .proc i => if i = p then .fresh else .proc i
  | .kernel => .kernel

theorem swapFresh_twice (p : Nat) (a : Space) : swapFresh p (swapFresh p a) = a := by
  cases a with
  | kernel => rfl
  | fresh => simp [swapFresh]
  | proc i =>
    by_cases here : i = p
    · simp [swapFresh,here]
    · simp [swapFresh,here]

theorem dirs_swapped (s : System) (p d : Nat) :
    update (fun a => update (dirsOf s) .fresh (some d) (swapFresh p a)) .fresh none =
      update (dirsOf s) (.proc p) (some d) := by
  funext a
  cases a with
  | kernel => simp [swapFresh]
  | fresh => simp [dirsOf]
  | proc i =>
    by_cases here : i = p
    · simp [swapFresh,here]
    · simp [swapFresh,here]

theorem exec_spec (ok : SysOk L s) (live : (s.procs p).state.Live)
    (unwrapped : ∀ g ∈ f, ∀ j < g.phnum, (g.proghdr (w32 (g.phoff+32*j))).Unwrapped) (few : argBytes argv < 4096) :
    Gives (exec L p f argv) s fun _ next => next.vm.unmapped = s.vm.unmapped → SysOk L next := by
  obtain ⟨free,pages⟩ := ok.pagesOk.pages
  cases f with
  | none => exact gives_pure _ fun _ => ok
  | some g =>
    refine gives_get (gives_onVm_bind (execImage_spec pages (idle_owners s free) rfl (unwrapped g rfl) few) ?_)
    intro r vm post
    cases r with
    | none =>
      refine gives_pure _ fun mapped => ?_
      obtain ⟨free',ok'⟩ := post mapped
      exact ok.keep ok' s.procs fun _ => ⟨Iff.rfl,rfl,rfl,ok.sizes⟩
    | some image =>
      refine gives_modify (switchuvm_gives ?_)
      by_cases mapped : vm.unmapped = s.vm.unmapped
      · obtain ⟨below,free',ok'⟩ := post mapped
        have renamed : Ok L vm ⟨ownOf s,fun a => update (dirsOf s) .fresh (some image.pgdir) (swapFresh p a),free'⟩ :=
          ⟨ok'.custody.rename id (swapFresh p) id fun {x y} same => by
            rw [← swapFresh_twice p x,same,swapFresh_twice],ok'.alternating,ok'.freed⟩
        have old : update (dirsOf s) .fresh (some image.pgdir) (swapFresh p .fresh) = some (s.procs p).pgdir := by
          simp [swapFresh,dirsOf,live]
        refine gives_onVm_bind (freevm_spec (a := .fresh) renamed old fun _ => rfl) ?_
        rintro _ vm' ⟨_,⟨free'',freed,_⟩,_⟩
        refine gives_pure _ fun _ => ⟨⟨⟨free'',?_⟩,ok.pagesOk.files⟩,sizes_setProc ok p _ fun _ => below⟩
        show Ok L vm' ⟨ownOf { s with procs := update s.procs p _ },dirsOf { s with procs := update s.procs p _ },free''⟩
        have own : update (ownOf s) (.kstack p) (some (s.procs p).kstack) = ownOf s := by
          rw [← own_live live,update_eq_self]
        rw [ownOf_setProc,dirsOf_setProc,if_pos live,if_pos live,own,← dirs_swapped]
        exact freed
      · refine gives_onVm_bind (freevm_keeps quiet_inert _ _) fun _ vm' quiet => gives_pure _ fun unchanged => ?_
        exact absurd (quiet.unmapped.symm.trans unchanged) mapped

theorem store_spec (ok : SysOk L s) (live : (s.procs p).state.Live) (va : Nat) (b : UInt8) :
    Gives (run L p (.store va b)) s fun _ next => SysOk L next := by
  obtain ⟨free,pages⟩ := ok.pagesOk.pages
  refine gives_get (gives_onVm (poke1_spec (a := .proc p) pages (dirs_live live) (Nat.mod_lt _ (by decide)) (.inl rfl) b) ?_)
  rintro _ vm ⟨_,ok'⟩
  exact ok.keep ok' s.procs fun _ => ⟨Iff.rfl,rfl,rfl,ok.sizes⟩

end Processes
end Xv6.Vm
