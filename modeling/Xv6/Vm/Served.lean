import Xv6.Vm.Exec
import Xv6.Vm.Tables

namespace Xv6.Vm
open Bytes Exec

-- Which parts of the kernel call kalloc, and runs in which every call got its page.

section Inert
variable {L : Layout} {R : Machine → Machine → Prop}

-- Relations that a change of memory and giving pages back stay in.
structure Inert (R : Machine → Machine → Prop) : Prop where
  refl : ∀ s, R s s
  trans : R s next → R next last → R s last
  mem : ∀ s m, R s { s with mem := m }
  freed : ∀ s head p, R s { s with freelist := head, events := .free p :: s.events }

theorem quiet_inert : Inert Quiet := ⟨.refl,.trans,fun _ _ => ⟨rfl,rfl,rfl,rfl⟩,fun _ _ _ => ⟨rfl,rfl,rfl,rfl⟩⟩

section
variable (inert : Inert R)
include inert

theorem Inert.pure (a : α) : Keeps R (Pure.pure a : M α) := keeps_pure inert.refl a
theorem Inert.stop (e : Panic) : Keeps R (Prog.stop e : M α) := keeps_stop inert.refl e
theorem Inert.load (a : Nat) : Keeps R (load a) := fun s => (sat_load ..).mpr (inert.refl s)
theorem Inert.store (a v : Nat) : Keeps R (store a v) := keeps_modify fun s => inert.mem s _
theorem Inert.memset (p : Nat) (c : UInt8) : Keeps R (memset p c) := keeps_modify fun s => inert.mem s _

theorem Inert.bind {m : M α} {f : α → M β} (first : Keeps R m) (rest : ∀ a, Keeps R (f a)) :
    Keeps R (m >>= f) := first.bind inert.trans rest

theorem walkpgdir_keeps (pgdir va : Nat) : Keeps R (walkpgdir pgdir va false) := by
  refine inert.bind (inert.load _) fun pde => .ite (inert.pure _) ?_
  rw [if_neg (by decide)]
  exact inert.pure _

theorem kfree_keeps (p : Nat) : Keeps R (kfree L p) := by
  refine .ite (inert.stop _) (inert.bind (inert.memset _ _) fun _ => keeps_get fun s => ?_)
  exact inert.bind (inert.store _ _) fun _ => keeps_modify fun s => inert.freed s _ _

theorem deallocLoop_keeps (pgdir oldsz fuel : Nat) : ∀ a, Keeps R (deallocLoop L pgdir oldsz fuel a) := by
  induction fuel with
  | zero => exact fun a => inert.pure _
  | succ fuel ih =>
    intro a
    refine .ite (inert.bind (walkpgdir_keeps inert _ _) fun r => ?_) (inert.pure _)
    cases r with
    | none => exact ih _
    | some pte =>
      exact inert.bind (inert.load _) fun w =>
        .ite (.ite (inert.stop _) (inert.bind (kfree_keeps inert _) fun _ => inert.bind (inert.store _ _) fun _ => ih _)) (ih _)

theorem deallocuvm_keeps (pgdir oldsz newsz : Nat) : Keeps R (deallocuvm L pgdir oldsz newsz) :=
  .ite (inert.pure _) (inert.bind (deallocLoop_keeps inert _ _ _ _) fun _ => inert.pure _)

theorem freeTables_keeps (pgdir left : Nat) : Keeps R (freeTables L pgdir left) := by
  induction left with
  | zero => exact inert.pure _
  | succ left ih =>
    exact inert.bind (inert.load _) fun pde => .ite (inert.bind (kfree_keeps inert _) fun _ => ih) ih

theorem freevm_keeps (pgdir : Nat) : Keeps R (freevm L pgdir) :=
  .ite (inert.stop _) (inert.bind (deallocuvm_keeps inert _ _ _) fun _ =>
    inert.bind (freeTables_keeps inert _ _) fun _ => kfree_keeps inert _)

theorem bad_keeps (pgdir : Nat) : Keeps R (bad L pgdir) :=
  inert.bind (freevm_keeps inert _) fun _ => inert.pure _

theorem clearpteu_keeps (pgdir uva : Nat) : Keeps R (clearpteu pgdir uva) := by
  refine inert.bind (walkpgdir_keeps inert _ _) fun r => ?_
  cases r with
  | none => exact inert.stop _
  | some pte => exact inert.bind (inert.load _) fun w => inert.store _ _

theorem kmove_keeps (cur pa o n : Nat) (src : Bytes.Store) : Keeps R (kmove L cur pa o n src) := by
  refine keeps_get fun s => ?_
  cases kernelPage L s.mem cur pa with
  | none => exact inert.stop _
  | some page => exact inert.bind (keeps_modify fun s => inert.mem s _) fun _ => inert.pure _

theorem derefPte_keeps (cur pgdir uva : Nat) : Keeps R (derefPte cur pgdir uva) := by
  refine inert.bind (walkpgdir_keeps inert _ _) fun r => ?_
  cases r with
  | none =>
    exact inert.bind (inert.load _) fun pde => inert.bind (inert.load _) fun pte => .ite (inert.load _) (inert.stop _)
  | some pte => exact inert.load _

theorem uva2ka_keeps (cur pgdir uva : Nat) : Keeps R (uva2ka cur pgdir uva) :=
  inert.bind (derefPte_keeps inert _ _ _) fun _ =>
    .ite (inert.pure _) (.ite (inert.pure _) (.ite (inert.pure _) (inert.pure _)))

theorem copyoutLoop_keeps (cur pgdir fuel : Nat) :
    ∀ va bytes, Keeps R (copyoutLoop L cur pgdir fuel va bytes) := by
  induction fuel with
  | zero => exact fun va bytes => inert.pure _
  | succ fuel ih =>
    intro va bytes
    refine .ite (inert.pure _) (inert.bind (uva2ka_keeps inert _ _ _) fun r => ?_)
    cases r with
    | none => exact inert.pure _
    | some pa0 => exact inert.bind (kmove_keeps inert _ _ _ _ _) fun _ => ih _ _

theorem argLoop_keeps (cur pgdir : Nat) (argv : List (List UInt8)) :
    ∀ argc sp ptrs, Keeps R (argLoop L cur pgdir argv argc sp ptrs) := by
  induction argv with
  | nil => exact fun argc sp ptrs => inert.pure _
  | cons arg rest ih =>
    intro argc sp ptrs
    refine .ite (inert.pure _) (inert.bind (copyoutLoop_keeps inert _ _ _ _ _) fun r => ?_)
    cases r with
    | true => exact ih _ _ _
    | false => exact inert.pure _

end

-- What execStack does once its two pages are there.
def execArgs (L : Layout) (cur pgdir eip top : Nat) (argv : List (List UInt8)) : M (Option Image) := do
  clearpteu pgdir (w32 (top + 4294967296 - 8192))
  match ← argLoop L cur pgdir argv 0 top [] with
  | none => bad L pgdir
  | some (sp,ptrs) =>
    let esp := w32 (sp + 4294967296 - (3+argv.length+1)*4)
    if ← copyout L cur pgdir esp (ustack argv.length sp ptrs) then
      return some ⟨pgdir,top,eip,esp⟩
    else
      bad L pgdir

theorem execStack_eq (L : Layout) (cur pgdir eip sz : Nat) (argv : List (List UInt8)) :
    execStack L cur pgdir eip sz argv = (allocuvm L pgdir (PGROUNDUP sz) (w32 (PGROUNDUP sz+8192)) >>= fun top =>
      if top = 0 then bad L pgdir else execArgs L cur pgdir eip top argv) := rfl

theorem execArgs_keeps (inert : Inert R) (cur pgdir eip top : Nat) (argv : List (List UInt8)) :
    Keeps R (execArgs L cur pgdir eip top argv) := by
  refine inert.bind (clearpteu_keeps inert _ _) fun _ => inert.bind (argLoop_keeps inert _ _ _ _ _ _) fun r => ?_
  cases r with
  | none => exact bad_keeps inert _
  | some pair =>
    refine inert.bind (copyoutLoop_keeps inert _ _ _ _ _) fun done => ?_
    cases done with
    | false => exact bad_keeps inert _
    | true => exact inert.pure _

end Inert

section Served
variable {L : Layout}

def Event.IsAlloc : Event → Bool
  | .alloc _ => true
  | .free _ => false

structure Served (s next : Machine) : Prop where
  fails : next.fails = s.fails
  calls : s.calls ≤ next.calls
  worked : s.calls ≤ k → k < next.calls → s.fails k = false
  even : next.calls + s.events.countP Event.IsAlloc = s.calls + next.events.countP Event.IsAlloc

theorem Served.refl (s : Machine) : Served s s := ⟨rfl,.refl,fun low high => by omega,rfl⟩

theorem Served.trans (one : Served s next) (two : Served next last) : Served s last where
  fails := two.fails.trans one.fails
  calls := Nat.le_trans one.calls two.calls
  worked {k} low high := by
    by_cases early : k < next.calls
    · exact one.worked low early
    · rw [← one.fails]; exact two.worked (by omega) high
  even := by have := one.even; have := two.even; omega

theorem served_inert : Inert Served :=
  ⟨.refl,.trans,fun s _ => ⟨rfl,.refl,(Served.refl s).worked,rfl⟩,
   fun s _ _ => ⟨rfl,.refl,(Served.refl s).worked,rfl⟩⟩

structure Asked (well : Prop) (s next : Machine) : Prop where
  unmapped : next.unmapped = s.unmapped
  served : well → Served s next

theorem Asked.refl (well : Prop) (s : Machine) : Asked well s s := ⟨rfl,fun _ => .refl s⟩

theorem Asked.trans (one : Asked p s next) (well : p) (two : Asked q next last) : Asked q s last :=
  ⟨two.unmapped.trans one.unmapped,fun good => (one.served well).trans (two.served good)⟩

theorem Asked.failed (one : Asked p s next) (bad : ¬ q) : Asked q s next := ⟨one.unmapped,fun good => absurd good bad⟩

theorem asked_inert : Inert (Asked True) :=
  ⟨.refl True,fun one two => one.trans trivial two,fun s _ => ⟨rfl,fun _ => served_inert.mem s _⟩,
   fun s _ _ => ⟨rfl,fun _ => served_inert.freed s _ _⟩⟩

theorem kalloc_asked (s : Machine) : Sat kalloc s (fun _ _ => True) fun r next => Asked (r ≠ none) s next := by
  refine (sat_get_bind ..).mpr ?_
  by_cases refused : s.fails s.calls ∨ s.freelist = 0
  · rw [if_pos refused]
    exact (sat_modify_bind ..).mpr (.done ⟨rfl,fun no => absurd rfl no⟩)
  rw [if_neg refused]
  refine (sat_modify_bind ..).mpr (.done ⟨rfl,fun _ => ⟨rfl,Nat.le_succ _,fun {k} low high => ?_,?_⟩⟩)
  · have here : k = s.calls := by dsimp only at high; omega
    rw [here]
    cases flag : s.fails s.calls with
    | false => rfl
    | true => exact absurd (.inl flag) refused
  · rw [List.countP_cons]; simp only [Event.IsAlloc,if_true]; omega

theorem walkpgdir_asked (d va : Nat) (s : Machine) :
    Sat (walkpgdir d va true) s (fun _ _ => True) fun r next => Asked (r ≠ none) s next := by
  unfold walkpgdir
  rw [sat_load_bind]
  split
  · exact .done (.refl _ s)
  rw [if_pos rfl]
  refine (kalloc_asked s).bind fun r got asked => ?_
  cases r with
  | none => exact .done asked
  | some p =>
    refine (sat_memset_bind ..).mpr ((sat_store_bind ..).mpr (.done ?_))
    exact asked.trans (by simp) ⟨rfl,fun _ => served_inert.mem _ _⟩

theorem mapLoop_asked (d last perm fuel : Nat) : ∀ (a pa : Nat) (s : Machine),
    Sat (mapLoop d last perm fuel a pa) s (fun _ _ => True) fun r next => Asked (r = true) s next := by
  induction fuel with
  | zero => exact fun a pa s => .done (.refl _ s)
  | succ fuel ih =>
    intro a pa s
    refine (walkpgdir_asked d a s).bind fun r got asked => ?_
    cases r with
    | none => exact .done (asked.failed (by simp))
    | some pte =>
      refine (sat_load_bind ..).mpr ?_
      split
      · exact (sat_stop ..).mpr trivial
      have stored : Asked True s { got with mem := st32 got.mem pte (pa ||| perm ||| 1) } :=
        asked.trans (by simp) (asked_inert.mem _ _)
      refine (sat_store_bind ..).mpr ?_
      split
      · exact .done (stored.trans trivial (.refl _ _))
      · exact (ih _ _ _).post fun _ _ later => stored.trans trivial later

theorem mapAll_asked (d : Nat) (ks : List Kmap) : ∀ s : Machine,
    Sat (mapAll d ks) s (fun _ _ => True) fun r next => Asked (r = true) s next := by
  induction ks with
  | nil => exact fun s => .done (.refl _ s)
  | cons k rest ih =>
    intro s
    refine (mapLoop_asked _ _ _ _ _ _ s).bind fun r next asked => ?_
    cases r with
    | false => exact .done asked
    | true => exact (ih next).post fun _ _ later => asked.trans rfl later

theorem setupkvm_asked (L : Layout) (s : Machine) :
    Sat (setupkvm L) s (fun _ _ => True) fun r next => Asked (r ≠ none) s next := by
  refine (kalloc_asked s).bind fun r got asked => ?_
  cases r with
  | none => exact .done asked
  | some d =>
    have cleared : Asked True s { got with mem := fill got.mem d 4096 0 } := asked.trans (by simp) (asked_inert.mem _ _)
    refine (sat_memset_bind ..).mpr ((mapAll_asked d (kmap L) _).bind fun r next later => ?_)
    cases r with
    | false => exact .done ((cleared.trans trivial later).failed (by simp))
    | true => exact .done ⟨(cleared.trans trivial later).unmapped,fun _ => (cleared.trans trivial later).served rfl⟩

-- The record of pages that stayed unmapped only grows; where it does not, every
-- call of a part that came out well was served.
structure Filled (well : Prop) (s next : Machine) : Prop where
  unmapped : ∃ more, next.unmapped = more ++ s.unmapped
  served : next.unmapped = s.unmapped → well → Served s next

theorem suffix_settled {a b c : List α} (first : b = more ++ a) (second : c = extra ++ b) (same : c = a) : b = a ∧ c = b := by
  have lengths := congrArg List.length second
  rw [same,first,List.length_append,List.length_append] at lengths
  have empty : more = [] := List.eq_nil_of_length_eq_zero (by omega)
  rw [empty] at first
  exact ⟨first,same.trans first.symm⟩

theorem Asked.filled (asked : Asked p s next) : Filled p s next := ⟨⟨[],asked.unmapped⟩,fun _ => asked.served⟩

theorem Filled.trans (one : Filled p s next) (well : p) (two : Filled q next last) : Filled q s last := by
  obtain ⟨more,first⟩ := one.unmapped
  obtain ⟨extra,second⟩ := two.unmapped
  refine ⟨⟨extra++more,by rw [second,first,List.append_assoc]⟩,fun same good => ?_⟩
  obtain ⟨before,since⟩ := suffix_settled first second same
  exact (one.served before well).trans (two.served since good)

theorem allocLoop_filled (d oldsz newsz fuel : Nat) : ∀ (a : Nat) (s : Machine),
    Sat (allocLoop L d oldsz newsz fuel a) s (fun _ _ => True) fun r next => Filled (r ≠ 0) s next := by
  induction fuel with
  | zero => exact fun a s => .done (Asked.refl _ s).filled
  | succ fuel ih =>
    intro a s
    unfold allocLoop
    split
    · refine (kalloc_asked s).bind fun r got asked => ?_
      cases r with
      | none =>
        refine Sat.bind ((deallocuvm_keeps asked_inert d newsz oldsz got).mono (fun _ _ _ => trivial) fun _ _ kept => kept) ?_
        exact fun _ next kept => .done ⟨⟨[],kept.unmapped.trans asked.unmapped⟩,fun _ no => absurd rfl no⟩
      | some p =>
        have taken : Asked True s { got with grown := p :: got.grown, mem := fill got.mem p 4096 0 } :=
          asked.trans (by simp) ⟨rfl,fun _ => ⟨rfl,.refl,(Served.refl got).worked,rfl⟩⟩
        refine (sat_modify_bind ..).mpr ((sat_memset_bind ..).mpr ((mapLoop_asked _ _ _ _ _ _ _).bind fun r next later => ?_))
        have mapped := taken.trans trivial later
        cases r with
        | true => exact (ih _ next).post fun _ _ rest => mapped.filled.trans rfl rest
        | false =>
          -- one more page on record, so nothing is claimed
          refine (sat_modify_bind ..).mpr ((ih _ _).post fun _ last rest => ?_)
          obtain ⟨extra,grew⟩ := rest.unmapped
          have grew : last.unmapped = extra ++ p :: s.unmapped := by rw [grew]; exact congrArg _ (congrArg _ mapped.unmapped)
          refine ⟨⟨extra++[p],by rw [grew,List.append_assoc]; rfl⟩,fun same => ?_⟩
          have lengths := congrArg List.length grew
          rw [same,List.length_append,List.length_cons] at lengths
          omega
    · exact .done (Asked.refl _ s).filled

theorem allocuvm_filled (d oldsz newsz : Nat) (s : Machine) :
    Sat (allocuvm L d oldsz newsz) s (fun _ _ => True) fun r next => Filled (r ≠ 0) s next := by
  unfold allocuvm
  split
  · exact .done (Asked.refl _ s).filled
  · split
    · exact .done (Asked.refl _ s).filled
    · exact allocLoop_filled ..

section
variable (inert : Inert R) (loads : ∀ s l, R s { s with loaded := l }) (cur d addr : Nat) (f : File)
include inert loads cur d addr f

theorem loadLoop_keeps (offset sz fuel : Nat) : ∀ i, Keeps R (loadLoop L cur d addr f offset sz fuel i) := by
  induction fuel with
  | zero => exact fun i => inert.pure _
  | succ fuel ih =>
    intro i
    refine .ite (inert.bind (walkpgdir_keeps inert _ _) fun r => ?_) (inert.pure _)
    cases r with
    | none => exact inert.stop _
    | some pte =>
      refine inert.bind (inert.load _) fun w => ?_
      dsimp only
      split
      · exact inert.pure _
      · exact inert.pure _
      · exact inert.bind (kmove_keeps inert _ _ _ _ _) fun page => inert.bind (keeps_modify fun s => loads s _) fun _ =>
          .ite (ih _) (inert.pure _)

theorem loaduvm_keeps (offset sz : Nat) : Keeps R (loaduvm L cur d addr f offset sz) :=
  .ite (inert.stop _) (loadLoop_keeps inert loads _ _ _ _ _ _ _ _)

end

theorem loaduvm_calls (cur d addr : Nat) (f : File) (offset sz : Nat) :
    Keeps (fun s next : Machine => next.calls = s.calls) (loaduvm L cur d addr f offset sz) :=
  loaduvm_keeps (R := fun s next : Machine => next.calls = s.calls)
    ⟨fun _ => rfl,fun one two => two.trans one,fun _ _ => rfl,fun _ _ _ => rfl⟩ (fun _ _ => rfl) cur d addr f offset sz

end Served
end Xv6.Vm
