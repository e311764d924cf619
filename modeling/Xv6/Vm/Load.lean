import Xv6.Vm.Grow

namespace Xv6.Vm
open Bytes Exec

-- exec puts file bytes only into pages that allocuvm took for the new image.

def Still (m : M α) : Prop := ∀ s, Sat m s (fun _ next => Quiet s next) fun _ next => Quiet s next

theorem bad_still (L : Layout) (pgdir : Nat) : Still (bad L pgdir) := bad_keeps quiet_inert pgdir

theorem execArgs_still (L : Layout) (cur pgdir eip top : Nat) (argv : List (List UInt8)) :
    Still (execArgs L cur pgdir eip top argv) := execArgs_keeps quiet_inert cur pgdir eip top argv

section Load
variable {L : Layout} {s : Machine} {o : Owners} {a : Space} {d : Nat}

theorem kernelPage_managed (managed : Managed L p) (m : Bytes.Store) (cur : Nat) : kernelPage L m cur p = some p := by
  obtain ⟨_,low,top⟩ := managed
  have image := L.image
  have below : p < 2147483648 := by omega
  have data : p < 234881024 ∧ ¬ (1048576 ≤ p ∧ p < L.data) := by omega
  unfold kernelPage
  rw [if_pos below,if_pos data]

theorem kernelPage_zero (m : Bytes.Store) (cur : Nat) : kernelPage L m cur 0 = some 0 := by
  have data : (0:Nat) < 234881024 ∧ ¬ (1048576 ≤ 0 ∧ 0 < L.data) := by omega
  unfold kernelPage
  rw [if_pos (by decide),if_pos data]

theorem entry_loose (ok : Ok L s o) (dir : o.dirs a = some d) (small : v < 524288) (cur : Nat) :
    kernelPage L s.mem cur (PTE_ADDR (pteOf s.mem d v)) = some (PTE_ADDR (pteOf s.mem d v)) ∧
    PTE_ADDR (pteOf s.mem d v) % 4096 = 0 ∧ Loose s.mem o (PTE_ADDR (pteOf s.mem d v)) := by
  by_cases present : Present (pteOf s.mem d v)
  · have use : Holds s.mem o (.user a v) (PTE_ADDR (pteOf s.mem d v)) := ⟨d,dir,small,present,rfl⟩
    have managed := ok.custody.managed use
    exact ⟨kernelPage_managed managed _ _,managed.1,ok.custody.loose_user use⟩
  · have zero : PTE_ADDR (pteOf s.mem d v) = 0 := by rw [ok.custody.blank dir (by omega) present]; rfl
    rw [zero]
    refine ⟨kernelPage_zero _ _,rfl,ok.custody.loose_unmanaged fun managed => ?_⟩
    have := managed.2.1; have := L.image; omega

theorem poke (ok : Ok L s o) (loose : Loose s.mem o q) (page : q % 4096 = 0) (inside : x+n ≤ 4096) (src : Bytes.Store) :
    Ok L { s with mem := copy s.mem (q+x) n src } o ∧ SameView s.mem (copy s.mem (q+x) n src) o.dirs := by
  have others : ∀ p, p % 4096 = 0 → p ≠ q → SamePage s.mem (copy s.mem (q+x) n src) p :=
    fun p aligned other => samePage_copy src inside aligned page other
  exact ⟨ok.write loose _ others,(ok.custody.loose_view loose others).1⟩

structure Loads (d low high : Nat) (s next : Machine) : Prop where
  fails : next.fails = s.fails
  grown : next.grown = s.grown
  unmapped : next.unmapped = s.unmapped
  loaded : p ∈ next.loaded → p ∈ s.loaded ∨ ∃ x, low ≤ 4096*x ∧ 4096*x < high ∧ p = PTE_ADDR (pteOf s.mem d x)

theorem readi_bound (f : File) (got : f.readi off n = some k) : k ≤ n := by
  unfold File.readi at got
  split at got
  · cases got
  rename_i inside
  split at got
  · cases got
    unfold w32 at *; omega
  · cases got; exact Nat.le_refl _

def filled (s : Machine) (p n : Nat) (src : Bytes.Store) : Machine :=
  { s with mem := copy s.mem (p+0) n src, loaded := p :: s.loaded }

theorem filled_loads (view : SameView s.mem (filled s p n src).mem dirs) (dir : dirs a = some d) (low : addr ≤ 4096*v)
    (high : 4096*v < top) (ceiling : top ≤ 2147483648) (page : p = PTE_ADDR (pteOf s.mem d v))
    (later : Loads d addr top (filled s p n src) next) : Loads d addr top s next := by
  refine ⟨later.fails,later.grown,later.unmapped,fun wrote => ?_⟩
  rcases later.loaded wrote with now | ⟨x,above,below,rfl⟩
  · rcases List.mem_cons.mp now with rfl | old
    · exact .inr ⟨v,low,high,page⟩
    · exact .inl old
  · refine .inr ⟨x,above,below,?_⟩
    rw [view.pte dir (by omega)]

theorem loadLoop_spec (f : File) (dir : o.dirs a = some d) (aligned : addr % 4096 = 0) (top : addr+sz ≤ 2147483648)
    (fuel : Nat) : ∀ {s : Machine} {i : Nat}, Ok L s o → i % 4096 = 0 →
    Sat (loadLoop L cur d addr f offset sz fuel i) s
      (fun _ next => Loads d addr (addr+sz) s next ∧ ∃ x, 4096*x < addr+sz ∧ tableOf s.mem d (x/1024) = none)
      fun _ next => Loads d addr (addr+sz) s next ∧ Ok L next o ∧ SameView s.mem next.mem o.dirs := by
  induction fuel with
  | zero =>
    intro s i ok _
    exact .done ⟨⟨rfl,rfl,rfl,fun old => .inl old⟩,ok,.refl _ _⟩
  | succ fuel ih =>
    intro s i ok i_page
    have unchanged : Loads d addr (addr+sz) s s := ⟨rfl,rfl,rfl,fun old => .inl old⟩
    unfold loadLoop
    by_cases inside : i < sz
    · have sum : w32 (addr+i) = addr+i := by unfold w32; omega
      have index : 4096*((addr+i)/4096) = addr+i := by omega
      rw [if_pos inside,sum,sat_bind,walkpgdir_look _ _ (by omega)]
      cases table : tableOf s.mem d ((addr+i)/4096/1024) with
      | none => exact (sat_stop ..).mpr ⟨unchanged,(addr+i)/4096,by omega,table⟩
      | some t =>
        simp only [Option.map_some]
        rw [sat_load_bind,pteOf_table table]
        obtain ⟨reached,page,loose⟩ := entry_loose ok dir (v := (addr+i)/4096) (by omega) cur
        cases got : f.readi (w32 (offset+i)) (min (sz-i) 4096) with
        | none => exact .done ⟨unchanged,ok,.refl _ _⟩
        | some count =>
          cases count with
          | zero => exact .done ⟨unchanged,ok,.refl _ _⟩
          | succ more =>
            have bound := readi_bound f got
            generalize src_eq : (fun t => f.byte (w32 (offset+i) + t)) = src
            obtain ⟨ok',view⟩ := poke ok loose page (x := 0) (n := more+1) (by omega) src
            generalize page_eq : PTE_ADDR (pteOf s.mem d ((addr+i)/4096)) = p at reached page ok' view
            have ok_filled : Ok L (filled s p (more+1) src) o := ⟨ok'.custody,ok'.alternating,ok'.freed⟩
            have compose : ∀ next, Loads d addr (addr+sz) (filled s p (more+1) src) next → Loads d addr (addr+sz) s next :=
              fun next later => filled_loads view dir (by omega) (by omega) top page_eq.symm later
            unfold kmove
            simp only [sat_bind,sat_get,reached,sat_modify,sat_pure]
            by_cases whole : more+1 = min (sz-i) 4096
            · have step : w32 (i+4096) = i+4096 := by unfold w32; omega
              rw [if_pos whole,step]
              refine (ih ok_filled (by omega)).mono ?_ ?_
              · rintro _ next ⟨later,x,below,missing⟩
                exact ⟨compose next later,x,below,(view.table dir (by omega)).symm.trans missing⟩
              · rintro r next ⟨later,ok_last,view_last⟩
                exact ⟨compose next later,ok_last,view.trans view_last⟩
            · rw [if_neg whole,sat_pure]
              exact ⟨compose _ ⟨rfl,rfl,rfl,fun old => .inl old⟩,ok_filled,view⟩
    · rw [if_neg inside,sat_pure]
      exact ⟨unchanged,ok,.refl _ _⟩

-- The state of exec between two program headers, from its state at the start on.
-- free is what was free then.
structure Loading (L : Layout) (own : Tag → Option Nat) (dirs : Space → Option Nat) (free : List Nat) (d sz : Nat)
    (start s : Machine) : Prop where
  ok : ∃ now, Ok L s ⟨own,dirs,now⟩ ∧ ∀ q ∈ now, q ∈ free
  size : sz < 2147483648
  taken : p ∈ s.grown → p ∈ free
  unmapped : ∃ more, s.unmapped = more ++ start.unmapped
  mapped : s.unmapped = start.unmapped → 4096*x < sz → UserEntry s d x
  loaded : s.unmapped = start.unmapped → p ∈ s.loaded → p ∈ s.grown

structure Contained (free : List Nat) (start s : Machine) : Prop where
  taken : p ∈ s.grown → p ∈ free
  unmapped : ∃ more, s.unmapped = more ++ start.unmapped
  loaded : s.unmapped = start.unmapped → p ∈ s.loaded → p ∈ s.grown

theorem Loading.contained (loading : Loading L own dirs free d sz start s) : Contained free start s :=
  ⟨loading.taken,loading.unmapped,loading.loaded⟩

theorem Contained.grow (contained : Contained free start s) (grows : Grows less s next) (fewer : ∀ q ∈ less, q ∈ free) :
    Contained free start next ∧ (next.unmapped = start.unmapped → s.unmapped = start.unmapped ∧ next.unmapped = s.unmapped) := by
  obtain ⟨more,first⟩ := contained.unmapped
  obtain ⟨extra,second⟩ := grows.unmapped
  refine ⟨⟨fun {p} now => ?_,⟨extra++more,by rw [second,first,List.append_assoc]⟩,fun {p} same now => ?_⟩,
    suffix_settled first second⟩
  · rcases grows.taken p now with old | was_free
    · exact contained.taken old
    · exact fewer p was_free
  · rw [grows.loaded] at now
    exact grows.grown p (contained.loaded (suffix_settled first second same).1 now)

theorem Contained.quiet (contained : Contained free start s) (quiet : Quiet s next) : Contained free start next :=
  (contained.grow (quiet.grows : Grows [] s next) (by simp)).1

def Proghdr.Unwrapped (ph : Proghdr) : Prop := ph.type = 1 → 0 < ph.filesz → ph.vaddr+ph.memsz < 4294967296

def Proghdr.Aligned (ph : Proghdr) : Prop := ph.type = 1 → ph.vaddr % 4096 = 0

theorem loaduvm_spec (f : File) (ok : Ok L s o) (dir : o.dirs a = some d) (top : sz = 0 ∨ addr+sz ≤ 2147483648) :
    Sat (loaduvm L cur d addr f offset sz) s
      (fun _ next => Loads d addr (addr+sz) s next ∧
        (addr % 4096 = 0 → 0 < sz ∧ ∃ x, 4096*x < addr+sz ∧ tableOf s.mem d (x/1024) = none))
      fun _ next => Loads d addr (addr+sz) s next ∧ Ok L next o ∧ SameView s.mem next.mem o.dirs := by
  have unchanged : Loads d addr (addr+sz) s s := ⟨rfl,rfl,rfl,fun old => .inl old⟩
  unfold loaduvm
  by_cases aligned : addr % 4096 = 0
  · rw [if_neg (not_not_intro aligned)]
    by_cases empty : sz = 0
    · unfold loadLoop
      rw [if_neg (by omega),sat_pure]
      exact ⟨unchanged,ok,.refl _ _⟩
    · refine (loadLoop_spec f dir aligned (top.resolve_left empty) 1048576 ok rfl).stops ?_
      rintro _ next ⟨loaded,missing⟩
      exact ⟨loaded,fun _ => ⟨by omega,missing⟩⟩
  · rw [if_pos aligned,sat_stop]
    exact ⟨unchanged,fun yes => absurd yes aligned⟩

def Clean (m : Bytes.Store) (d sz : Nat) : Prop := ∀ x < 524288, sz ≤ 4096*x → ¬ Present (pteOf m d x)

-- From one state of an address space to a later one: where no page stayed unmapped,
-- none got lost.
structure Kept (L : Layout) (own : Tag → Option Nat) (dirs : Space → Option Nat) (a : Space) (s next : Machine) : Prop where
  grew : ∃ more, next.unmapped = more ++ s.unmapped
  saved : Ok L s ⟨own,dirs,now⟩ → Ok L next ⟨own,dirs,later⟩ → next.unmapped = s.unmapped →
    Saved a s.mem ⟨own,dirs,now⟩ next.mem ⟨own,dirs,later⟩

theorem Kept.of_saved {own : Tag → Option Nat} {dirs : Space → Option Nat} (ok : Ok L s ⟨own,dirs,now⟩)
    (ok' : Ok L next ⟨own,dirs,later⟩) (grew : ∃ more, next.unmapped = more ++ s.unmapped)
    (saved : next.unmapped = s.unmapped → Saved a s.mem ⟨own,dirs,now⟩ next.mem ⟨own,dirs,later⟩) :
    Kept L own dirs a s next := by
  refine ⟨grew,fun {now' later'} ok₁ ok₂ same => ?_⟩
  have first : now = now' := chain_unique ok.custody.chain ok₁.custody.chain
  have second : later = later' := chain_unique ok'.custody.chain ok₂.custody.chain
  rw [← first,← second]; exact saved same

theorem Kept.refl (L : Layout) (own : Tag → Option Nat) (dirs : Space → Option Nat) (a : Space) (s : Machine) :
    Kept L own dirs a s s := by
  refine ⟨⟨[],rfl⟩,fun {now later} one two _ => ?_⟩
  have same : now = later := chain_unique one.custody.chain two.custody.chain
  rw [same]; exact .refl a _ _

theorem Kept.trans {own : Tag → Option Nat} {dirs : Space → Option Nat} (one : Kept L own dirs a s next)
    (ok : ∃ now, Ok L next ⟨own,dirs,now⟩) (two : Kept L own dirs a next last) : Kept L own dirs a s last := by
  obtain ⟨more,first⟩ := one.grew
  obtain ⟨extra,second⟩ := two.grew
  obtain ⟨mid,ok⟩ := ok
  refine ⟨⟨extra++more,by rw [second,first,List.append_assoc]⟩,fun ok₁ ok₂ same => ?_⟩
  obtain ⟨before,since⟩ := suffix_settled first second same
  exact (one.saved ok₁ ok before).trans (two.saved ok ok₂ since)

-- The end of the highest segment that can be had, and of the stack above it.
def File.ends (f : File) (off : Nat) : Nat → Nat
  | 0 => 0
  | left+1 =>
    let ph := f.proghdr off
    let rest := f.ends (w32 (off+32)) left
    if ph.type = 1 ∧ w32 (ph.vaddr+ph.memsz) < 2147483648 then max (w32 (ph.vaddr+ph.memsz)) rest else rest

def File.top (f : File) : Nat := min 2147483648 ((f.ends f.phoff f.phnum+4095)/4096*4096+8192)

-- Unless the first call that kalloc refuses is one for a table, no page stays unmapped.
def Told (origin : Machine) (n : Nat) (m : Bytes.Store) (d top : Nat) (start next : Machine) : Prop :=
  ¬ FirstRefused origin n (TableCall 65 m d 0 top) → next.unmapped = start.unmapped

structure Counted (L : Layout) (own : Tag → Option Nat) (dirs : Space → Option Nat) (origin : Machine) (n : Nat) (m : Bytes.Store)
    (d top : Nat) (start : Machine) (sz : Nat) (s : Machine) : Prop where
  told : Told origin n m d top start s
  growing : ¬ FirstRefused origin n (TableCall 65 m d 0 top) → Ok L s ⟨own,dirs,now⟩ →
    Growing origin n 65 m d 0 ((sz+4095)/4096) s now

theorem allocuvm_counted {own : Tag → Option Nat} {dirs : Space → Option Nat} (dir : dirs a = some d) (idle : ∀ k, own (.temp k) = none)
    (counted : Counted L own dirs origin n m d top start sz s) (ok : Ok L s ⟨own,dirs,now⟩) (old_word : sz < 2147483648)
    (below : newsz < 2147483648 → newsz ≤ top) :
    Sat (allocuvm L d sz newsz) s (fun _ next => Told origin n m d top start next)
      fun r next => Told origin n m d top start next ∧ (r ≠ 0 → r = max sz newsz → Counted L own dirs origin n m d top start r next) := by
  by_cases fine : FirstRefused origin n (TableCall 65 m d 0 top)
  · exact (allocuvm_filled d sz newsz s).mono (fun _ _ _ no => absurd fine no)
      fun r next _ => ⟨fun no => absurd fine no,fun _ _ => ⟨fun no => absurd fine no,fun no => absurd fine no⟩⟩
  by_cases tall : 2147483648 ≤ newsz
  · unfold allocuvm
    rw [if_pos tall,sat_pure]
    exact ⟨counted.told,fun no => absurd rfl no⟩
  have low := below (by omega)
  have settled : ∀ next : Machine, (next.unmapped ≠ s.unmapped → FirstRefused origin n (TableCall 65 m d 0 newsz)) →
      next.unmapped = s.unmapped := fun next refused =>
    not_not.mp fun differs => fine ((refused differs).imp fun j call => call.wider low)
  refine (allocuvm_counts ok dir idle old_word (counted.growing fine ok)).mono ?_ ?_
  · exact fun e next refused _ => (settled next refused).trans (counted.told fine)
  intro r next counts
  obtain ⟨refused,grown⟩ := counts (by omega)
  have same := settled next fun differs => (refused differs).1
  have told : Told origin n m d top start next := fun _ => same.trans (counted.told fine)
  refine ⟨told,fun success reached => ⟨told,fun {now'} _ ok' => ?_⟩⟩
  have growing := (grown same).2 success now' ok'
  rwa [show max ((sz+4095)/4096) ((newsz+4095)/4096) = (r+4095)/4096 by omega] at growing

-- One segment: grown, then loaded into what was grown. It may stop only where a page
-- stayed unmapped, something was mapped above the image, or the address is odd.
theorem segment_spec {own : Tag → Option Nat} {dirs : Space → Option Nat} (f : File) (dir : dirs a = some d)
    (idle : ∀ k, own (.temp k) = none) (ph : Proghdr) (load : ph.type = 1) (whole : ph.filesz ≤ ph.memsz)
    (unwrapped : ph.Unwrapped) (loading : Loading L own dirs free d sz start s)
    (counted : Counted L own dirs origin n m d top start sz s)
    (low : w32 (ph.vaddr+ph.memsz) < 2147483648 → w32 (ph.vaddr+ph.memsz) ≤ top)
    {rest : Nat → M (Option Nat)} {E : Panic → Machine → Prop} {Q : Option Nat → Machine → Prop}
    (stops : ∀ e next, Contained free start next → Told origin n m d top start next →
      ¬ (next.unmapped = start.unmapped ∧ Clean s.mem d sz ∧ ph.vaddr % 4096 = 0) → E e next)
    (gives_up : ∀ next, Contained free start next → Told origin n m d top start next → (∃ now, Ok L next ⟨own,dirs,now⟩) →
      Kept L own dirs a s next → Q none next)
    (goes : ∀ sz' next, Loading L own dirs free d sz' start next → Counted L own dirs origin n m d top start sz' next →
      sz' = max sz (w32 (ph.vaddr+ph.memsz)) → Kept L own dirs a s next →
      (Clean s.mem d sz → Clean next.mem d sz') → (∀ i < 1024, tableOf s.mem d i ≠ none → tableOf next.mem d i ≠ none) →
      Sat (rest sz') next E Q) :
    Sat (allocuvm L d sz (w32 (ph.vaddr+ph.memsz)) >>= fun sz =>
        if sz = 0 then pure none
        else loaduvm L cur d ph.vaddr f ph.off ph.filesz >>= fun done => if done then rest sz else pure none) s E Q := by
  obtain ⟨now,ok,fewer⟩ := loading.ok
  refine Sat.bind (((allocuvm_spec ok dir idle loading.size).and
    (allocuvm_counted dir idle counted ok loading.size low)).stops ?_) ?_
  · rintro e next ⟨⟨grows,x,small,above,present⟩,told⟩
    exact stops e next (loading.contained.grow grows fewer).1 told fun ⟨_,clean,_⟩ => clean x small above present
  rintro r mid ⟨alloc,told,counted'⟩
  obtain ⟨now',ok',fewer',saved⟩ := alloc.ok
  have grows := alloc.grows
  obtain ⟨contained,settled⟩ := loading.contained.grow grows fewer
  have kept : Kept L own dirs a s mid := .of_saved ok ok' grows.unmapped saved
  by_cases failed : r = 0
  · rw [if_pos failed,sat_pure]
    exact gives_up mid contained told ⟨now',ok'⟩ kept
  obtain ⟨size,below⟩ := alloc.size failed
  have counted_mid := counted' failed size
  have entries : mid.unmapped = start.unmapped → ∀ x, 4096*x < r → UserEntry mid d x := by
    intro same x inside
    obtain ⟨before,since⟩ := settled same
    rw [size] at inside
    exact grown_range (fun x => loading.mapped before) grows loading.size (fun x low high => (alloc.range failed since low high).1)
      (fun x bound low => alloc.outside failed bound (.inl low)) x inside
  -- the bytes of the segment lie below the size just reached
  have reach : ph.filesz = 0 ∨ ph.vaddr+ph.filesz ≤ r := by
    by_cases empty : ph.filesz = 0
    · exact .inl empty
    · right
      have := unwrapped load (by omega)
      unfold w32 at size; omega
  rw [if_neg failed]
  have after : ∀ next, Loads d ph.vaddr (ph.vaddr+ph.filesz) mid next →
      Contained free start next ∧ Told origin n m d top start next := by
    intro next loaded
    refine ⟨⟨fun {p} => ?_,?_,fun {p} same wrote => ?_⟩,fun fine => loaded.unmapped.trans (told fine)⟩
    · rw [loaded.grown]; exact contained.taken
    · rw [loaded.unmapped]; exact contained.unmapped
    · rw [loaded.unmapped] at same
      rw [loaded.grown]
      rcases loaded.loaded wrote with old | ⟨x,low,high,rfl⟩
      · exact contained.loaded same old
      · have : 4096*x < r := by omega
        exact (entries same x this).2.2
  have inside : ph.filesz = 0 ∨ ph.vaddr+ph.filesz ≤ 2147483648 := reach.imp id fun low => by omega
  refine Sat.bind (((loaduvm_spec f ok' dir inside).and (loaduvm_calls cur d ph.vaddr f ph.off ph.filesz mid)).stops ?_) ?_
  · rintro e next ⟨⟨loaded,missing⟩,_⟩
    obtain ⟨contained',told'⟩ := after next loaded
    refine stops e next contained' told' fun ⟨same,_,aligned⟩ => ?_
    obtain ⟨some_bytes,x,high,no_table⟩ := missing aligned
    have there := table_of_present (entries (loaded.unmapped.symm.trans same) x (by omega)).1
    rw [no_table] at there; cases there
  rintro done next ⟨⟨loaded,ok_next,view⟩,calls⟩
  obtain ⟨contained',told'⟩ := after next loaded
  have all_kept : Kept L own dirs a s next :=
    kept.trans ⟨now',ok'⟩ (.of_saved ok' ok_next ⟨[],loaded.unmapped⟩ fun _ => .of_view a view)
  cases done with
  | false =>
    rw [if_neg (by simp),sat_pure]
    exact gives_up next contained' told' ⟨now',ok_next⟩ all_kept
  | true =>
    rw [if_pos rfl]
    refine goes r next ⟨⟨now',ok_next,fun q inside => fewer q (fewer' failed q inside)⟩,below,contained'.taken,
      contained'.unmapped,fun {x} same inside => ?_,contained'.loaded⟩ ⟨told',fun {later} fine ok_later => ?_⟩ size all_kept
      (fun clean x small above => ?_) fun i bound there => ?_
    · rw [loaded.unmapped] at same
      have entry := entries same x inside
      unfold UserEntry at entry ⊢
      rw [view.pte dir (by omega),loaded.grown]
      exact entry
    · have same : now' = later := chain_unique ok_next.custody.chain ok_later.custody.chain
      rw [← same]
      exact (counted_mid.growing fine ok').same (fun i bound => view.table dir bound) (fun x bound => view.pte dir bound)
        loaded.fails calls
    · rw [view.pte dir (by omega),alloc.outside failed (by omega) (.inr above)]
      exact clean x small (by omega)
    · rw [view.table dir bound]
      cases found : tableOf s.mem d i with
      | none => exact absurd found there
      | some q => rw [alloc.tables bound found]; simp

theorem segLoop_spec {own : Tag → Option Nat} {dirs : Space → Option Nat} (f : File) (dir : dirs a = some d)
    (idle : ∀ k, own (.temp k) = none) (left : Nat) : ∀ {s : Machine} {off sz : Nat},
    (∀ j < left, (f.proghdr (w32 (off+32*j))).Unwrapped) → off < 4294967296 → Loading L own dirs free d sz start s →
    Counted L own dirs origin n m d top start sz s → max sz (f.ends off left) ≤ top →
    Sat (segLoop L cur d f left off sz) s
      (fun _ next => Contained free start next ∧ Told origin n m d top start next ∧
        ¬ (next.unmapped = start.unmapped ∧ Clean s.mem d sz ∧ ∀ j < left, (f.proghdr (w32 (off+32*j))).Aligned))
      fun r next => Kept L own dirs a s next ∧
        match r with
        | none => Contained free start next ∧ Told origin n m d top start next ∧ ∃ now, Ok L next ⟨own,dirs,now⟩
        | some sz' => Loading L own dirs free d sz' start next ∧ Counted L own dirs origin n m d top start sz' next ∧
            sz' = max sz (f.ends off left) ∧ (Clean s.mem d sz → Clean next.mem d sz') ∧
            ∀ i < 1024, tableOf s.mem d i ≠ none → tableOf next.mem d i ≠ none := by
  induction left with
  | zero =>
    intro s off sz _ _ loading counted _
    exact .done ⟨.refl L own dirs a s,loading,counted,by rw [File.ends]; omega,id,fun _ _ there => there⟩
  | succ left ih =>
    intro s off sz unwrapped word loading counted below
    have stay : Kept L own dirs a s s ∧ Contained free start s ∧ Told origin n m d top start s ∧ ∃ now, Ok L s ⟨own,dirs,now⟩ :=
      ⟨.refl L own dirs a s,loading.contained,counted.told,loading.ok.imp fun _ both => both.1⟩
    have shift : ∀ j, w32 (off+32*(j+1)) = w32 (w32 (off+32)+32*j) := fun j => by unfold w32; omega
    have first : w32 (off+32*0) = off := by unfold w32; omega
    have later : ∀ j < left, (f.proghdr (w32 (w32 (off+32)+32*j))).Unwrapped := fun j small =>
      shift j ▸ unwrapped (j+1) (by omega)
    have here : (f.proghdr off).Unwrapped := by
      have first' := unwrapped 0 (by omega)
      rwa [first] at first'
    have next_word : w32 (off+32) < 4294967296 := by unfold w32; omega
    have rest_ends : f.ends (w32 (off+32)) left ≤ f.ends off (left+1) := by
      rw [File.ends]; split <;> omega
    -- what stops the rest stops the whole
    have stops : ∀ {t next : Machine} {size : Nat}, (Clean s.mem d sz → Clean t.mem d size) →
        ¬ (next.unmapped = start.unmapped ∧ Clean t.mem d size ∧ ∀ j < left, (f.proghdr (w32 (w32 (off+32)+32*j))).Aligned) →
        ¬ (next.unmapped = start.unmapped ∧ Clean s.mem d sz ∧ ∀ j < left+1, (f.proghdr (w32 (off+32*j))).Aligned) :=
      fun clean not ⟨same,was,aligned⟩ => not ⟨same,clean was,fun j small => shift j ▸ aligned (j+1) (by omega)⟩
    unfold segLoop
    by_cases unreadable : f.readi off 32 ≠ some 32
    · rw [if_pos unreadable,sat_pure]; exact stay
    rw [if_neg unreadable]
    by_cases other : (f.proghdr off).type ≠ 1
    · rw [if_pos other]
      refine (ih later next_word loading counted (by omega)).mono
        (fun _ _ ⟨contained,told,not⟩ => ⟨contained,told,stops id not⟩) ?_
      rintro r last ⟨kept,result⟩
      refine ⟨kept,?_⟩
      cases r with
      | none => exact result
      | some size =>
        have same : f.ends off (left+1) = f.ends (w32 (off+32)) left := by rw [File.ends,if_neg fun load => other load.1]
        exact ⟨result.1,result.2.1,by rw [same]; exact result.2.2.1,result.2.2.2⟩
    · rw [if_neg other]
      by_cases short : (f.proghdr off).memsz < (f.proghdr off).filesz
      · rw [if_pos short,sat_pure]; exact stay
      rw [if_neg short]
      have type := not_not.mp other
      have ends : w32 ((f.proghdr off).vaddr+(f.proghdr off).memsz) < 2147483648 →
          w32 ((f.proghdr off).vaddr+(f.proghdr off).memsz) ≤ f.ends off (left+1) := by
        intro low
        rw [File.ends,if_pos ⟨type,low⟩]; omega
      refine segment_spec f dir idle (f.proghdr off) type (by omega) here loading counted (fun low => by have := ends low; omega) ?_ ?_ ?_
      · refine fun e next contained told not => ⟨contained,told,fun ⟨same,clean,aligned⟩ => not ⟨same,clean,?_⟩⟩
        have first' := aligned 0 (by omega)
        rw [first] at first'
        exact first' type
      · exact fun next contained told ok kept => ⟨kept,contained,told,ok⟩
      · intro size next loading' counted' reached kept clean tables
        have ok : ∃ now, Ok L next ⟨own,dirs,now⟩ := loading'.ok.imp fun _ both => both.1
        have size_low := loading'.size
        have end_here : f.ends off (left+1) = max (w32 ((f.proghdr off).vaddr+(f.proghdr off).memsz)) (f.ends (w32 (off+32)) left) := by
          rw [File.ends,if_pos ⟨type,by omega⟩]
        refine (ih later next_word loading' counted' (by omega)).mono
          (fun _ _ ⟨contained,told,not⟩ => ⟨contained,told,stops clean not⟩) ?_
        rintro r last ⟨kept',result⟩
        refine ⟨kept.trans ok kept',?_⟩
        cases r with
        | none => exact result
        | some size' =>
          obtain ⟨loading'',counted'',low,clean',tables'⟩ := result
          exact ⟨loading'',counted'',by omega,fun was => clean' (clean was),fun i bound there => tables' i bound (tables i bound there)⟩

theorem execStack_contained {own : Tag → Option Nat} {dirs : Space → Option Nat} (dir : dirs a = some d)
    (idle : ∀ k, own (.temp k) = none) (loading : Loading L own dirs free d sz start s) :
    Sat (execStack L cur d eip sz argv) s (fun _ next => Contained free start next) fun _ next => Contained free start next := by
  obtain ⟨now,ok,fewer⟩ := loading.ok
  have size : sz < 2147483648 := loading.size
  -- at the very top of the user's half rounding up reaches KERNBASE itself
  by_cases top : PGROUNDUP sz < 2147483648
  · rw [execStack_eq]
    refine Sat.bind ((allocuvm_spec ok dir idle top).stops
      (fun _ next stop => (loading.contained.grow stop.1 fewer).1)) ?_
    intro r mid alloc
    have contained := (loading.contained.grow alloc.grows fewer).1
    have rest : ∀ m : M (Option Image), Still m →
        Sat m mid (fun _ next => Contained free start next) fun _ next => Contained free start next := fun m still =>
      (still mid).mono (fun _ _ quiet => contained.quiet quiet) fun _ _ quiet => contained.quiet quiet
    split
    · exact rest _ (bad_still L d)
    · exact rest _ (execArgs_still L _ _ _ _ _)
  · have full : PGROUNDUP sz = 2147483648 := by unfold PGROUNDUP w32 at *; omega
    unfold execStack allocuvm
    have tall : 2147483648 ≤ w32 (PGROUNDUP sz+8192) := by rw [full]; decide
    dsimp only
    rw [if_pos tall,sat_pure_bind,if_pos rfl]
    exact (bad_still L d s).mono (fun _ _ quiet => loading.contained.quiet quiet) fun _ _ quiet => loading.contained.quiet quiet

structure Begun (L : Layout) (o : Owners) (s : Machine) (d : Nat) (mid : Machine) (free : List Nat) : Prop where
  ok : Ok L mid ⟨o.own,Function.update o.dirs .fresh (some d),free⟩
  loading : Loading L o.own (Function.update o.dirs .fresh (some d)) o.free d 0 s mid
  counted : Counted L o.own (Function.update o.dirs .fresh (some d)) s o.free.length mid.mem d top s 0 mid
  bare : Bare L mid.mem d
  saved : Saved .fresh s.mem o mid.mem ⟨o.own,Function.update o.dirs .fresh (some d),free⟩

theorem exec_begins (ok : Ok L s o) (idle : Idle o) (vacant : o.dirs .fresh = none) :
    Sat (setupkvm L) { s with grown := [], loaded := [] } (fun _ _ => False) fun r mid =>
      Contained o.free s mid ∧ mid.unmapped = s.unmapped ∧
      match r with
      | none => ∃ free, Ok L mid ⟨o.own,o.dirs,free⟩ ∧ Unset s mid o free
      | some d => ∃ free, Begun L o s d mid free := by
  have ok' : Ok L { s with grown := [], loaded := [] } o := ⟨ok.custody,ok.alternating,ok.freed⟩
  refine ((setupkvm_spec ok' (idle 0) vacant).and (setupkvm_asked L _)).mono (fun _ _ no => no.1.elim) ?_
  rintro r mid ⟨⟨quiet,_,result⟩,asked⟩
  have begun : Contained o.free s { s with grown := [], loaded := [] } :=
    ⟨fun {p} no => (List.not_mem_nil no).elim,⟨[],rfl⟩,fun {p} _ no => (List.not_mem_nil no).elim⟩
  have contained := begun.quiet quiet
  refine ⟨contained,quiet.unmapped,?_⟩
  cases r with
  | none =>
    obtain ⟨_,free,_,ok_mid,unset⟩ := result
    exact ⟨free,ok_mid,unset⟩
  | some d =>
    obtain ⟨_,bare,free,fewer,length,calls,ok_mid,saved⟩ := result
    have growing := (bare.growing (asked.served (by simp)) calls length).2
    refine ⟨free,ok_mid,?_,fun {top} => ⟨fun _ => quiet.unmapped,fun {now} _ ok_now => ?_⟩,bare,saved⟩
    · exact ⟨⟨free,ok_mid,fewer⟩,by decide,contained.taken,contained.unmapped,fun _ no => by omega,contained.loaded⟩
    · have same : free = now := chain_unique ok_mid.custody.chain ok_now.custody.chain
      rw [← same]
      exact ⟨growing.low,growing.tables,growing.entries,growing.fails,growing.calls,growing.served,growing.left⟩

theorem Begun.clean (begun : Begun L o s d mid free) : Clean mid.mem d 0 := fun x small _ present => by
  rw [begun.bare.user small] at present; cases present

end Load
end Xv6.Vm
