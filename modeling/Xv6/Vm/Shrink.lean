import Xv6.Vm.Count

namespace Xv6.Vm
open Function (update update_of_ne update_self)
open Bytes Exec

-- Giving pages of the user's half back: deallocuvm and freevm.

section Shrink
variable {L : Layout} {s : Machine} {o : Owners} {a : Space} {d : Nat}

theorem st32_junk (m : Bytes.Store) (apart : x+4 ≤ p ∨ p+4096 ≤ x) :
    st32 (junk m p head) x w = junk (st32 m x w) p head := by
  funext i
  by_cases here : x ≤ i ∧ i < x+4
  · have out : i < p ∨ p+4 ≤ i := by omega
    have far : i < p ∨ p+4096 ≤ i := by omega
    rw [st32,copy_in _ _ here.1 here.2,junk,st32,copy_out _ _ out,fill,copy_out _ _ far,st32,copy_in _ _ here.1 here.2]
  have out : i < x ∨ x+4 ≤ i := by omega
  rw [st32,copy_out _ _ out]
  by_cases link : p ≤ i ∧ i < p+4
  · rw [junk,st32,copy_in _ _ link.1 link.2,junk,st32,copy_in _ _ link.1 link.2]
  have other : i < p ∨ p+4 ≤ i := by omega
  rw [junk,st32,copy_out _ _ other,junk,st32,copy_out _ _ other,fill,fill]
  by_cases page : p ≤ i ∧ i < p+4096
  · rw [copy_in _ _ page.1 page.2,copy_in _ _ page.1 page.2]
  · have far : i < p ∨ p+4096 ≤ i := by omega
    rw [copy_out _ _ far,copy_out _ _ far,st32,copy_out _ _ out]

-- Pages of a were given back: entries stay or become 0, tables stay, and memory
-- changes in the tables and the freed pages only.
structure Shrunk (L : Layout) (o : Owners) (d : Nat) (s next : Machine) (free : List Nat) : Prop where
  ok : Ok L next ⟨o.own,o.dirs,free⟩
  quiet : Quiet s next
  calls : next.calls = s.calls
  tables : i < 1024 → tableOf next.mem d i = tableOf s.mem d i
  entries : v < 1048576 → pteOf next.mem d v = pteOf s.mem d v ∨ pteOf next.mem d v = 0
  kernel : 524288 ≤ v → v < 1048576 → pteOf next.mem d v = pteOf s.mem d v
  frame : q % 4096 = 0 → (∀ i < 1024, tableOf s.mem d i ≠ some q) →
    (∀ v < 524288, Present (pteOf s.mem d v) → PTE_ADDR (pteOf s.mem d v) ≠ q) → SamePage s.mem next.mem q

theorem Shrunk.refl (ok : Ok L s o) (d : Nat) : Shrunk L o d s s o.free :=
  ⟨ok,.refl s,rfl,fun _ => rfl,fun _ => .inl rfl,fun _ _ => rfl,fun _ _ _ _ _ _ => rfl⟩

theorem Shrunk.trans (one : Shrunk L o d s next free) (two : Shrunk L ⟨o.own,o.dirs,free⟩ d next last more) :
    Shrunk L o d s last more where
  ok := two.ok
  quiet := one.quiet.trans two.quiet
  calls := two.calls.trans one.calls
  tables small := (two.tables small).trans (one.tables small)
  entries small := by
    rcases two.entries small with same | zero
    · rw [same]; exact one.entries small
    · exact .inr zero
  kernel low high := (two.kernel low high).trans (one.kernel low high)
  frame page noTable noPage := by
    refine (one.frame page noTable noPage).trans (two.frame page (fun i small => ?_) fun v small present => ?_)
    · rw [one.tables small]; exact noTable i small
    · rcases one.entries (v := v) (by omega) with same | zero
      · rw [same] at present ⊢; exact noPage v small present
      · rw [zero] at present; cases present

section
variable (shrunk : Shrunk L o d s next free) (ok : Ok L s o) (dir : o.dirs a = some d)
include shrunk ok dir

theorem Shrunk.view :
    SameView s.mem next.mem (update o.dirs a none) := by
  have held := ok.custody
  refine others_view fun u q use outside _ _ => ?_
  refine shrunk.frame (held.managed use).1 (fun i small found => outside ?_) fun v small present same => outside ?_
  · rw [held.exclusive use (w := .table a i) ⟨d,dir,small,found⟩]; rfl
  · rw [held.exclusive use (w := .user a v) ⟨d,dir,small,present,same⟩]; rfl

theorem Shrunk.saved (listed : ∀ q ∈ o.free, q ∈ free)
    (users : ∀ v < 524288, Present (pteOf s.mem d v) → pteOf next.mem d v = pteOf s.mem d v ∨ PTE_ADDR (pteOf s.mem d v) ∈ free) :
    Saved a s.mem o next.mem ⟨o.own,o.dirs,free⟩ := by
  refine .of_space (fun _ _ => rfl) (shrunk.view ok dir) (fun p use => ⟨.free,listed p use⟩) (fun t p use => ⟨.own t,use⟩) fun e there => ?_
  cases dir.symm.trans there
  refine ⟨⟨.dir a,dir⟩,fun i p small found => ⟨.table a i,d,dir,small,(shrunk.tables small).trans found⟩,fun v small present => ?_⟩
  rcases users v small present with same | gone
  · exact ⟨.user a v,d,dir,small,by rw [same]; exact ⟨present,rfl⟩⟩
  · exact ⟨.free,gone⟩

end

def cleared (s : Machine) (p t v : Nat) : Bytes.Store := st32 (released s p).mem (t+4*(v%1024)) 0

-- The source frees the page and then clears the entry; the custody is argued for
-- the other order, which ends in the same memory.
theorem unmap (ok : Ok L s o) (dir : o.dirs a = some d) (small : v < 524288)
    (table : tableOf s.mem d (v/1024) = some t) (present : Present (pteOf s.mem d v)) (p : Nat)
    (page : p = PTE_ADDR (pteOf s.mem d v)) :
    Managed L p ∧ Shrunk L o d s { released s p with mem := cleared s p t v } (p :: o.free) ∧
    pteOf (cleared s p t v) d v = 0 ∧
    (∀ x < 1048576, x ≠ v → pteOf (cleared s p t v) d x = pteOf s.mem d x) ∧
    (∀ q, q % 4096 = 0 → (∀ i < 1024, tableOf s.mem d i ≠ some q) → q ≠ p →
      SamePage s.mem (cleared s p t v) q) ∧
    Saved a s.mem o (cleared s p t v) ⟨o.own,o.dirs,p :: o.free⟩ := by
  have use : Holds s.mem o (.user a v) p := ⟨d,dir,small,present,page.symm⟩
  have t_use : Holds s.mem o (.table a (v/1024)) t := ⟨d,dir,by omega,table⟩
  have managed := ok.custody.managed use
  have t_page := (ok.custody.managed t_use).1
  have apart : t ≠ p := by
    rintro rfl
    cases ok.custody.exclusive use t_use
  have aligned := managed.1
  have order : cleared s p t v = junk (st32 s.mem (t+4*(v%1024)) 0) p s.freelist :=
    st32_junk s.mem (by omega)
  obtain ⟨put_back,at_v,elsewhere⟩ := put ok dir (by omega) table (by decide) o.own (fun _ _ own => own)
    (fun _ no => by cases no) (fun _ no => by cases no) (fun _ => rfl)
  -- with its entry gone nobody holds the page
  have unheld : ∀ u, ¬ Holds (st32 s.mem (t+4*(v%1024)) 0) o u p := by
    intro u held
    have same := ok.custody.entry_view dir (w := 0) (by omega) table (by decide) _ rfl
    have old : Holds s.mem o u p ∧ u ≠ .user a v := by
      cases u with
      | free => exact ⟨held,by simp⟩
      | own k => exact ⟨held,by simp⟩
      | dir b => exact ⟨held,by simp⟩
      | table b i =>
        obtain ⟨e,dir',inside,found⟩ := held
        exact ⟨⟨e,dir',inside,by rwa [same.1 b e i dir' inside] at found⟩,by simp⟩
      | user b k =>
        obtain ⟨e,dir',inside,mapped⟩ := held
        by_cases equal : (b,k) = (a,v)
        · cases equal
          cases dir.symm.trans dir' with
          | refl => rw [at_v] at mapped; cases mapped.1
        · rw [same.2.2 b e k dir' (by omega) equal] at mapped
          exact ⟨⟨e,dir',inside,mapped⟩,by simpa using equal⟩
    exact old.2 (ok.custody.exclusive old.1 use)
  have freed := put_back.ok.release managed unheld
  have view : ∀ q, q % 4096 = 0 → q ≠ p →
      SamePage (st32 s.mem (t+4*(v%1024)) 0) (cleared s p t v) q := by
    rw [order]; exact junk_others _ p _ aligned
  have d_other : d ≠ p := by
    rintro rfl
    cases ok.custody.exclusive use (show Holds s.mem o (.dir a) d from dir)
  have d_view := view d (ok.custody.managed (u := .dir a) dir).1 d_other
  have tables : ∀ i < 1024, tableOf (cleared s p t v) d i = tableOf s.mem d i := by
    intro i inside
    rw [tableOf_same d_view inside]
    exact (ok.custody.entry_view dir (by omega) table (by decide) _ rfl).1 a d i dir inside
  have ptes : ∀ x < 1048576, pteOf (cleared s p t v) d x = pteOf (st32 s.mem (t+4*(v%1024)) 0) d x := by
    intro x inside
    refine pteOf_same d_view inside fun q found => ?_
    have found' : tableOf s.mem d (x/1024) = some q := by
      rwa [(ok.custody.entry_view dir (by omega) table (by decide) _ rfl).1 a d _ dir (by omega)] at found
    have q_use : Holds s.mem o (.table a (x/1024)) q := ⟨d,dir,by omega,found'⟩
    refine view q (ok.custody.managed q_use).1 ?_
    rintro rfl
    cases ok.custody.exclusive use q_use
  have gone : pteOf (cleared s p t v) d v = 0 := (ptes v (by omega)).trans at_v
  have stays : ∀ x < 1048576, x ≠ v → pteOf (cleared s p t v) d x = pteOf s.mem d x :=
    fun x inside other => (ptes x inside).trans (elsewhere x inside other)
  have frame : ∀ q, q % 4096 = 0 → (∀ i < 1024, tableOf s.mem d i ≠ some q) → q ≠ p →
      SamePage s.mem (cleared s p t v) q := by
    intro q q_page noTable other
    have first : SamePage s.mem (st32 s.mem (t+4*(v%1024)) 0) q :=
      samePage_copy _ (by omega) q_page t_page fun same => noTable (v/1024) (by omega) (same ▸ table)
    exact first.trans (view q q_page other)
  have shrunk : Shrunk L o d s { released s p with mem := cleared s p t v } (p :: o.free) := by
    refine ⟨?_,⟨rfl,rfl,rfl,rfl⟩,rfl,fun inside => tables _ inside,fun {x} inside => ?_,fun {x} low inside => stays x inside (by omega),?_⟩
    · have machine : { released s p with mem := cleared s p t v } =
          released { s with mem := st32 s.mem (t+4*(v%1024)) 0 } p := by
        unfold released at order ⊢
        rw [order]
      rw [machine]; exact freed
    · by_cases same : x = v
      · subst same; exact .inr gone
      · exact .inl (stays x inside same)
    · intro q q_page noTable noPage
      exact frame q q_page noTable fun same => noPage v small present (page.symm.trans same.symm)
  refine ⟨managed,shrunk,gone,stays,frame,shrunk.saved ok dir (fun q free => List.mem_cons_of_mem _ free) fun x inside _ => ?_⟩
  by_cases same : x = v
  · subst same; right; rw [← page]; exact .head _
  · exact .inl (stays x (by omega) same)

-- The walk skips 1024 pages where a table is missing. If it comes to the missing table
-- in its middle, it lands in the middle of a later one and misses the pages before.
def Skipped (m : Bytes.Store) (d v x : Nat) : Prop :=
  v/1024 < x/1024 ∧ x%1024 < v%1024 ∧ ∀ i, v/1024 ≤ i → i < x/1024 → tableOf m d i = none

def Swept (m : Bytes.Store) (d v oldsz x : Nat) : Prop := v ≤ x ∧ 4096*x < oldsz ∧ ¬ Skipped m d v x

theorem Swept.of_aligned (start : v%1024 = 0 ∨ tableOf m d (v/1024) ≠ none) (low : v ≤ x) (below : 4096*x < oldsz) :
    Swept m d v oldsz x := by
  refine ⟨low,below,fun ⟨later,inside,missing⟩ => ?_⟩
  rcases start with first | there
  · omega
  · exact there (missing _ .refl later)

theorem swept_past (later : Swept m d (v+1024) oldsz x) : Swept m d v oldsz x := by
  obtain ⟨low,below,seen⟩ := later
  refine ⟨by omega,below,fun ⟨after,inside,tables⟩ => seen ⟨by omega,by omega,fun i first last => tables i (by omega) last⟩⟩

theorem swept_missing (missing : tableOf m d (v/1024) = none) (swept : Swept m d v oldsz x) (there : tableOf m d (x/1024) ≠ none) :
    Swept m d (v+1024) oldsz x := by
  obtain ⟨low,below,seen⟩ := swept
  have other : x/1024 ≠ v/1024 := fun same => there (same ▸ missing)
  have far : v+1024 ≤ x := by
    by_contra near
    refine seen ⟨by omega,by omega,fun i first last => ?_⟩
    rw [show i = v/1024 by omega]; exact missing
  refine ⟨far,below,fun ⟨after,inside,tables⟩ => seen ⟨by omega,by omega,fun i first last => ?_⟩⟩
  by_cases here : i = v/1024
  · rw [here]; exact missing
  · exact tables i (by omega) last

theorem swept_step (table : tableOf m d (v/1024) ≠ none) : Swept m d v oldsz x ↔ (x = v ∧ 4096*v < oldsz) ∨ Swept m d (v+1) oldsz x := by
  have next : (v+1)%1024 = 0 ∨ tableOf m d ((v+1)/1024) ≠ none := by
    by_cases last : (v+1)%1024 = 0
    · exact .inl last
    · exact .inr (by rw [show (v+1)/1024 = v/1024 by omega]; exact table)
  constructor
  · rintro ⟨low,below,_⟩
    by_cases here : x = v
    · exact .inl ⟨here,here ▸ below⟩
    · exact .inr (.of_aligned next (by omega) below)
  · rintro (⟨rfl,below⟩ | ⟨low,below,_⟩)
    · exact .of_aligned (.inr table) .refl below
    · exact .of_aligned (.inr table) (by omega) below

theorem swept_same (tables : ∀ i < 1024, tableOf n d i = tableOf m d i) (top : oldsz ≤ 2147483648) :
    Swept n d v oldsz x ↔ Swept m d v oldsz x := by
  refine and_congr_right fun low => and_congr_right fun below => not_congr ?_
  refine and_congr_right fun _ => and_congr_right fun _ => forall_congr' fun i => ?_
  refine forall_congr' fun first => forall_congr' fun last => ?_
  rw [tables i (by omega)]

structure Sweeps (L : Layout) (o : Owners) (a : Space) (d v oldsz : Nat) (s next : Machine) : Prop where
  done : ∃ free, Shrunk L o d s next free ∧ Saved a s.mem o next.mem ⟨o.own,o.dirs,free⟩
  outside : x < 1048576 → ¬ Swept s.mem d v oldsz x → pteOf next.mem d x = pteOf s.mem d x
  inside : Swept s.mem d v oldsz x → pteOf next.mem d x = 0
  frees : ∃ gone : List Nat, next.events = gone.map .free ++ s.events ∧ gone.Nodup ∧
    ∀ p, p ∈ gone ↔ ∃ x, Swept s.mem d v oldsz x ∧ Present (pteOf s.mem d x) ∧ PTE_ADDR (pteOf s.mem d x) = p
  frame : q % 4096 = 0 → (∀ i < 1024, tableOf s.mem d i ≠ some q) →
    (∀ x, Swept s.mem d v oldsz x → Present (pteOf s.mem d x) → PTE_ADDR (pteOf s.mem d x) ≠ q) → SamePage s.mem next.mem q

theorem Sweeps.nothing (ok : Ok L s o) (a : Space) (d : Nat) (none : oldsz ≤ 4096*v) : Sweeps L o a d v oldsz s s := by
  have never : ∀ x, ¬ Swept s.mem d v oldsz x := fun x ⟨low,below,_⟩ => by omega
  refine ⟨⟨o.free,.refl ok d,.refl a _ _⟩,fun _ _ => rfl,fun {x} swept => absurd swept (never x),⟨[],rfl,List.nodup_nil,fun p => ?_⟩,
    fun _ _ _ _ _ _ => rfl⟩
  exact ⟨fun no => (by cases no),fun ⟨x,swept,_⟩ => absurd swept (never x)⟩

theorem Sweeps.later (rest : Sweeps L o a d w oldsz s next) (past : ∀ {x}, Swept s.mem d w oldsz x → Swept s.mem d v oldsz x)
    (blank : ∀ {x}, Swept s.mem d v oldsz x → ¬ Swept s.mem d w oldsz x → x < 1048576 ∧ pteOf s.mem d x = 0) :
    Sweeps L o a d v oldsz s next := by
  refine ⟨rest.done,fun bound not => rest.outside bound fun later => not (past later),fun {x} swept => ?_,?_,
    fun page noTable noPage => rest.frame page noTable fun x later => noPage x (past later)⟩
  · by_cases later : Swept s.mem d w oldsz x
    · exact rest.inside later
    · rw [rest.outside (blank swept later).1 later]; exact (blank swept later).2
  · obtain ⟨gone,events,nodup,all⟩ := rest.frees
    refine ⟨gone,events,nodup,fun p => (all p).trans ⟨?_,?_⟩⟩
    · rintro ⟨x,later,there,same⟩
      exact ⟨x,past later,there,same⟩
    · rintro ⟨x,swept,there,same⟩
      refine ⟨x,by_contra fun not => ?_,there,same⟩
      rw [(blank swept not).2] at there; cases there

theorem Sweeps.jump (rest : Sweeps L o a d (v+1024) oldsz s next) (missing : tableOf s.mem d (v/1024) = none)
    (top : oldsz ≤ 2147483648) : Sweeps L o a d v oldsz s next := by
  refine rest.later swept_past fun {x} swept not => ?_
  have table : tableOf s.mem d (x/1024) = none := by
    by_contra there
    exact not (swept_missing missing swept there)
  have bound := swept.2.1
  exact ⟨by omega,by rw [pteOf,table]⟩

theorem Sweeps.pass (rest : Sweeps L o a d (v+1) oldsz s next) (table : tableOf s.mem d (v/1024) ≠ none) (small : v < 1048576)
    (blank : pteOf s.mem d v = 0) : Sweeps L o a d v oldsz s next := by
  refine rest.later (fun after => (swept_step table).mpr (.inr after)) fun {x} swept not => ?_
  obtain ⟨rfl,_⟩ := ((swept_step table).mp swept).resolve_right not
  exact ⟨small,blank⟩

theorem Sweeps.give (ok : Ok L s o) (dir : o.dirs a = some d) (small : v < 524288) (table : tableOf s.mem d (v/1024) = some t)
    (present : Present (pteOf s.mem d v)) (inside : 4096*v < oldsz) (top : oldsz ≤ 2147483648) (p : Nat)
    (page : p = PTE_ADDR (pteOf s.mem d v))
    (rest : Sweeps L ⟨o.own,o.dirs,p :: o.free⟩ a d (v+1) oldsz
      { released s p with mem := cleared s p t v } next) : Sweeps L o a d v oldsz s next := by
  obtain ⟨managed,step,gone_here,elsewhere,frame,saved⟩ := unmap ok dir small table present p page
  have some_table : tableOf s.mem d (v/1024) ≠ none := by rw [table]; simp
  have same : ∀ x, Swept (cleared s p t v) d (v+1) oldsz x ↔ Swept s.mem d (v+1) oldsz x :=
    fun x => swept_same (fun i bound => step.tables bound) top
  have after : ∀ {x}, Swept (cleared s p t v) d (v+1) oldsz x → x ≠ v ∧ x < 1048576 ∧ Swept s.mem d v oldsz x :=
    fun {x} later => ⟨by have := later.1; omega,by have := later.2.1; omega,(swept_step some_table).mpr (.inr ((same x).mp later))⟩
  refine ⟨?_,fun {x} bound not => ?_,fun {x} swept => ?_,?_,fun {q} q_page noTable noPage => ?_⟩
  · obtain ⟨free,done,saved'⟩ := rest.done
    exact ⟨free,step.trans done,saved.trans saved'⟩
  · have other : x ≠ v := fun here => not (here ▸ (swept_step some_table).mpr (.inl ⟨rfl,inside⟩))
    rw [rest.outside bound fun later => not (after later).2.2]
    exact elsewhere x bound other
  · rcases (swept_step some_table).mp swept with ⟨rfl,_⟩ | later
    · rw [rest.outside (by omega) fun later => (after later).1 rfl]; exact gone_here
    · exact rest.inside ((same x).mpr later)
  · obtain ⟨gone,events,nodup,all⟩ := rest.frees
    have listed : ∀ q, q ∈ gone ↔ ∃ x, Swept s.mem d (v+1) oldsz x ∧ Present (pteOf s.mem d x) ∧ PTE_ADDR (pteOf s.mem d x) = q := by
      intro q
      refine (all q).trans (exists_congr fun x => ?_)
      constructor
      · rintro ⟨later,there⟩
        have old := elsewhere x (after later).2.1 (after later).1
        exact ⟨(same x).mp later,by rw [← old]; exact there⟩
      · rintro ⟨later,there⟩
        have swept := (same x).mpr later
        exact ⟨swept,by
          rw [elsewhere x (after swept).2.1 (after swept).1]; exact there⟩
    refine ⟨gone ++ [p],?_,?_,fun q => ?_⟩
    · rw [events]; simp [released]
    · rw [List.nodup_append]
      refine ⟨nodup,List.nodup_singleton p,fun q early r last equal => ?_⟩
      rw [List.mem_singleton.mp last] at equal
      subst equal
      -- the page was mapped at v only
      obtain ⟨x,later,there,addr⟩ := (listed q).mp early
      have use : Holds s.mem o (.user a v) q := ⟨d,dir,small,present,page.symm⟩
      have bound := later.2.1
      have other : Holds s.mem o (.user a x) q := ⟨d,dir,by omega,there,addr⟩
      have equal := ok.custody.exclusive use other
      have := later.1
      simp at equal; omega
    · rw [List.mem_append,List.mem_singleton,listed]
      constructor
      · rintro (⟨x,later,there⟩ | rfl)
        · exact ⟨x,(swept_step some_table).mpr (.inr later),there⟩
        · exact ⟨v,(swept_step some_table).mpr (.inl ⟨rfl,inside⟩),present,page.symm⟩
      · rintro ⟨x,swept,there,addr⟩
        rcases (swept_step some_table).mp swept with ⟨rfl,_⟩ | later
        · exact .inr (addr.symm.trans page.symm)
        · exact .inl ⟨x,later,there,addr⟩
  · have first := frame q q_page noTable fun equal =>
      noPage v ((swept_step some_table).mpr (.inl ⟨rfl,inside⟩)) present (page.symm.trans equal.symm)
    refine first.trans (rest.frame q_page (fun i bound => ?_) fun x later there => ?_)
    · rw [step.tables bound]; exact noTable i bound
    have old := elsewhere x (after later).2.1 (after later).1
    have there' : Present (pteOf (cleared s p t v) d x) := there
    rw [old] at there' ⊢
    exact noPage x (after later).2.2 there'

theorem deallocLoop_spec (fuel : Nat) : ∀ {s : Machine} {o : Owners} {v : Nat}, Ok L s o → o.dirs a = some d →
    oldsz ≤ 2147483648 → v ≤ 525312 → oldsz ≤ 4096*(v+fuel) →
    Sat (deallocLoop L d oldsz fuel (4096*v)) s (fun _ _ => False) fun _ next => Sweeps L o a d v oldsz s next := by
  induction fuel with
  | zero =>
    intro s o v ok dir top high enough
    unfold deallocLoop
    rw [sat_pure]
    exact .nothing ok a d (by omega)
  | succ fuel ih =>
    intro s o v ok dir top high enough
    unfold deallocLoop
    by_cases inside : 4096*v < oldsz
    · have page : 4096*v/4096 = v := by omega
      have small : v < 524288 := by omega
      have next_page := w32_page (v := v) (by omega)
      have next_table : w32 (4096*v + 1023*4096 + 4096) = 4096*(v+1024) := by unfold w32; omega
      rw [if_pos inside,sat_bind,walkpgdir_look _ _ (by omega),page]
      cases table : tableOf s.mem d (v/1024) with
      | none =>
        rw [next_table]
        exact (ih ok dir top (by omega) (by omega)).post fun _ next rest => rest.jump table top
      | some t =>
        simp only [Option.map_some]
        rw [sat_load_bind,pteOf_table table]
        by_cases present : Present (pteOf s.mem d v)
        · obtain ⟨managed,step,_⟩ := unmap ok dir small table present _ rfl
          have nonzero : PTE_ADDR (pteOf s.mem d v) ≠ 0 := by
            have := managed.2.1; have := L.image; omega
          rw [if_pos present,if_neg nonzero,sat_bind,kfree_managed managed,sat_store_bind,next_page]
          exact (ih step.ok dir top (by omega) (by omega)).post fun _ next rest =>
            .give ok dir small table present inside top _ rfl rest
        · rw [if_neg present,next_page]
          exact (ih ok dir top (by omega) (by omega)).post fun _ next rest =>
            rest.pass (by rw [table]; simp) (by omega) (ok.custody.blank dir (by omega) present)
    · rw [if_neg inside,sat_pure]
      exact .nothing ok a d (by omega)

theorem deallocuvm_spec (ok : Ok L s o) (dir : o.dirs a = some d) (top : oldsz ≤ 2147483648) :
    Sat (deallocuvm L d oldsz newsz) s (fun _ _ => False) fun r next => r = min oldsz newsz ∧
      Sweeps L o a d ((newsz+4095)/4096) oldsz s next := by
  unfold deallocuvm
  by_cases nothing : oldsz ≤ newsz
  · rw [if_pos nothing,sat_pure]
    exact ⟨by omega,.nothing ok a d (by omega)⟩
  have start := PGROUNDUP_eq (n := newsz) (by omega)
  have enough : oldsz ≤ 4096*((newsz+4095)/4096+1048576) :=
    Nat.le_trans top (Nat.mul_le_mul_left 4096 (Nat.le_trans (by decide : 524288 ≤ 1048576) (Nat.le_add_left ..)))
  rw [if_neg nothing,start]
  apply (deallocLoop_spec 1048576 ok dir top (by omega) enough).bind
  rintro _ next sweeps
  exact .done ⟨by omega,sweeps⟩

theorem hands_step (own : Tag → Option Nat) (m : Bytes.Store) (d : Nat) (small : k < 1024) :
    update (hands own m d k) (.temp k) none = hands own m d (k+1) := by
  funext t
  by_cases same : t = .temp k
  · subst same
    have past : ¬ k+1 ≤ k := by omega
    rw [update_self]
    simp only [hands,small,past,if_true,if_false]
  rw [update_of_ne same]
  cases t with
  | kstack slot => rfl
  | pipe file => rfl
  | temp i =>
    have other : i ≠ k := fun equal => same (by rw [equal])
    have iff : k ≤ i ↔ k+1 ≤ i := by omega
    simp only [hands,iff]

theorem freeTables_spec (m : Bytes.Store) (d : Nat) (d_page : d % 4096 = 0) (left : Nat) :
    ∀ {s : Machine} {o : Owners}, left ≤ 1024 → Ok L s o → o.own = hands base m d (1024-left) → SamePage m s.mem d →
    Sat (freeTables L d left) s (fun _ _ => False) fun _ next => Quiet s next ∧
      (∃ free, Ok L next ⟨hands base m d 1024,o.dirs,free⟩ ∧ SameView s.mem next.mem o.dirs ∧
        ∀ q, Held s.mem o q → Held next.mem ⟨hands base m d 1024,o.dirs,free⟩ q) ∧
      ∀ q, q % 4096 = 0 → (∀ i < 1024, tableOf m d i ≠ some q) → SamePage s.mem next.mem q := by
  induction left with
  | zero =>
    intro s o _ ok own _
    exact .done ⟨.refl s,⟨o.free,by rw [← own]; exact ok,.refl _ _,fun q held => by rw [← own]; exact held⟩,fun _ _ _ _ _ _ => rfl⟩
  | succ left ih =>
    intro s o bound ok own same
    have index : 1024-(left+1) = 1023-left := by omega
    have later : 1023-left+1 = 1024-left := by omega
    have small : 1023-left < 1024 := by omega
    rw [index] at own
    have entry : tableOf m d (1023-left) = tableOf s.mem d (1023-left) := (tableOf_same same small).symm
    unfold freeTables
    rw [sat_load_bind]
    by_cases present : Present (ld32 s.mem (d+4*(1023-left)))
    · have found : tableOf m d (1023-left) = some (PTE_ADDR (ld32 s.mem (d+4*(1023-left)))) := by
        rw [entry]; unfold tableOf; rw [if_pos present]
      have mine : o.own (.temp (1023-left)) = some (PTE_ADDR (ld32 s.mem (d+4*(1023-left)))) := by
        rw [own,← found]; simp [hands,small]
      have last : o.own (.temp 1024) = some d := by rw [own]; simp [hands]
      obtain ⟨managed,freed⟩ := ok.release_own mine
      obtain ⟨view,kept⟩ := ok.release_held mine
      have other : d ≠ PTE_ADDR (ld32 s.mem (d+4*(1023-left))) := by
        intro equal
        have := ok.custody.exclusive (show Holds s.mem o (.own (.temp 1024)) d from last)
          (show Holds s.mem o (.own (.temp (1023-left))) d from equal ▸ mine)
        simp only [Use.own.injEq,Tag.temp.injEq] at this
        omega
      rw [if_pos present,sat_bind,kfree_managed managed]
      rw [own,hands_step base m d small,later] at freed kept
      have away := junk_others s.mem _ s.freelist managed.1
      refine (ih (by omega) freed rfl (same.trans (away d d_page other))).post ?_
      rintro _ next ⟨quiet,⟨free,ok',view',kept'⟩,frame⟩
      refine ⟨(released_quiet s _).trans quiet,⟨free,ok',view.trans view',fun q held => kept' q (kept q held)⟩,
        fun q page noTable => ?_⟩
      refine SamePage.trans (away q page fun equal => noTable _ small ?_) (frame q page noTable)
      rw [found,equal]
    · have missing : tableOf m d (1023-left) = none := by
        rw [entry]; unfold tableOf; rw [if_neg present]
      have own' : o.own = hands base m d (1024-left) := by
        rw [own,← later,← hands_step base m d small]
        funext t
        by_cases here : t = .temp (1023-left)
        · subst here; simp [hands,small,missing]
        · rw [update_of_ne here]
      rw [if_neg present]
      exact ih (by omega) ok own' same

def Idle (o : Owners) : Prop := ∀ k, o.own (.temp k) = none

theorem Idle.second (idle : Idle o) (p : Nat) : update o.own (.temp 0) (some p) (.temp 1) = none := by
  rw [update_of_ne (by simp)]; exact idle 1

theorem dismantle_held (dir : o.dirs a = some d) (idle : Idle o) (empty : ∀ v < 524288, pteOf m d v = 0) (held : Held m o q) :
    Held m ⟨hands o.own m d 0,update o.dirs a none,o.free⟩ q := by
  suffices saved : Saved a m o m ⟨hands o.own m d 0,update o.dirs a none,o.free⟩ from saved.held held
  refine .of_space (fun b other => update_of_ne other _ _) (.refl m _) (fun q use => ⟨.free,use⟩) (fun t q use => ?_) fun e there => ?_
  · cases t with
    | kstack slot => exact ⟨.own (.kstack slot),use⟩
    | pipe file => exact ⟨.own (.pipe file),use⟩
    | temp i => rw [idle i] at use; cases use
  · cases dir.symm.trans there
    refine ⟨⟨.own (.temp 1024),by simp [Holds,hands]⟩,fun i q small found => ⟨.own (.temp i),by simp [Holds,hands,small,found]⟩,
      fun v small present => ?_⟩
    rw [empty v small] at present; cases present

theorem freevm_spec (ok : Ok L s o) (dir : o.dirs a = some d) (idle : Idle o) :
    Sat (freevm L d) s (fun _ _ => False) fun _ next => Quiet s next ∧
      (∃ free, Ok L next ⟨o.own,update o.dirs a none,free⟩ ∧
        Saved a s.mem o next.mem ⟨o.own,update o.dirs a none,free⟩) ∧
      ∀ q, q % 4096 = 0 → q ≠ d → (∀ i < 1024, tableOf s.mem d i ≠ some q) →
        (∀ v < 524288, Present (pteOf s.mem d v) → PTE_ADDR (pteOf s.mem d v) ≠ q) → SamePage s.mem next.mem q := by
  have d_managed := ok.custody.managed (u := .dir a) dir
  have nonzero : d ≠ 0 := by have := d_managed.2.1; have := L.image; omega
  unfold freevm
  rw [if_neg nonzero]
  apply (deallocuvm_spec ok dir .refl).bind
  rintro _ mid ⟨_,sweeps⟩
  obtain ⟨free,shrunk,saved⟩ := sweeps.done
  have empty : ∀ v < 524288, pteOf mid.mem d v = 0 := fun v small =>
    sweeps.inside (.of_aligned (.inl rfl) (by omega) (by omega))
  have apart : Ok L mid ⟨hands o.own mid.mem d 0,update o.dirs a none,free⟩ :=
    ⟨shrunk.ok.custody.dismantle dir,shrunk.ok.alternating,shrunk.ok.freed⟩
  apply (freeTables_spec mid.mem d d_managed.1 1024 .refl apart rfl fun _ _ _ => rfl).bind
  rintro _ next ⟨quiet,⟨free',ok',view,kept⟩,frame⟩
  have mine : hands o.own mid.mem d 1024 (.temp 1024) = some d := by simp [hands]
  obtain ⟨managed,freed⟩ := ok'.release_own (t := .temp 1024) mine
  obtain ⟨view',kept'⟩ := ok'.release_held (t := .temp 1024) mine
  have own : update (hands o.own mid.mem d 1024) (.temp 1024) none = o.own := by
    funext t
    by_cases here : t = .temp 1024
    · subst here; rw [update_self]; exact (idle 1024).symm
    rw [update_of_ne here]
    cases t with
    | kstack slot => rfl
    | pipe file => rfl
    | temp i =>
      have not_last : i ≠ 1024 := fun equal => here (by rw [equal])
      by_cases small : i < 1024
      · have low : ¬ 1024 ≤ i := by omega
        simp only [hands,small,low,if_true,if_false]; exact (idle i).symm
      · simp only [hands,small,not_last,if_false]
  rw [own] at freed kept'
  rw [kfree_managed managed]
  refine ⟨(shrunk.quiet.trans quiet).trans (released_quiet _ _),⟨d :: free',freed,?_⟩,fun q page other noTable noPage => ?_⟩
  · refine saved.trans ⟨fun other => update_of_ne other _ _,view.trans view',fun held => ?_⟩
    exact kept' _ (kept _ (dismantle_held (o := ⟨o.own,o.dirs,free⟩) dir idle empty held))
  · have first := shrunk.frame page noTable noPage
    have second : SamePage mid.mem next.mem q :=
      frame q page fun i small found => noTable i small (by rw [← shrunk.tables small]; exact found)
    exact (first.trans second).trans (junk_others next.mem d _ managed.1 q page other)

end Shrink

end Xv6.Vm
