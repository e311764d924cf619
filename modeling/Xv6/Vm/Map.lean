import Xv6.Vm.Tables

namespace Xv6.Vm
open Function (update update_eq_self update_idem update_of_ne update_self)
open Bytes Exec

-- mappages and setupkvm: which entries they write and where the pages go.

section Map
variable {L : Layout} {s : Machine} {o : Owners} {a : Space} {d : Nat}

theorem put (ok : Ok L s o) (dir : o.dirs a = some d) (small : v < 1048576)
    (table : tableOf s.mem d (v/1024) = some t) (word : w < 4294967296) (own : Tag → Option Nat)
    (fewer : ∀ k p, own k = some p → o.own k = some p)
    (source : v < 524288 → Present w → (Present (pteOf s.mem d v) ∧ PTE_ADDR w = PTE_ADDR (pteOf s.mem d v)) ∨
      ∃ k, o.own k = some (PTE_ADDR w) ∧ own k = none)
    (kernel : 524288 ≤ v → Present w → ¬ UserBit w) (whole : ¬ Present w → w = 0) :
    Tables L o d s { s with mem := st32 s.mem (t+4*(v%1024)) w } ⟨own,o.dirs,o.free⟩ ∧
    pteOf (st32 s.mem (t+4*(v%1024)) w) d v = w ∧
    ∀ k < 1048576, k ≠ v → pteOf (st32 s.mem (t+4*(v%1024)) w) d k = pteOf s.mem d k := by
  obtain ⟨tables,at_v,elsewhere⟩ := ok.custody.entry_view dir small table word _ rfl
  have use : Holds s.mem o (.table a (v/1024)) t := ⟨d,dir,by omega,table⟩
  refine ⟨⟨⟨ok.custody.entry dir small table word own fewer source kernel whole,ok.alternating,ok.freed⟩,rfl,⟨rfl,rfl,rfl,rfl⟩,
    fun _ free => free,?_,?_,?_,?_⟩,at_v,fun k inside other => elsewhere a d k dir inside (by simpa using other)⟩
  · intro q page _ notTable _
    exact samePage_copy _ (by omega) page (ok.custody.managed use).1
      fun same => notTable (v/1024) (by omega) (same ▸ table)
  · intro i q inside found
    rw [tables a d i dir inside]; exact found
  · intro i q inside found
    left
    rw [← tables a d i dir inside]; exact found
  · rw [absent_same fun i inside => tables a d i dir inside]

theorem pteOf_table (table : tableOf m d (v/1024) = some t) : ld32 m (t+4*(v%1024)) = pteOf m d v := by
  unfold pteOf; rw [table]

-- Why a walk came back empty-handed: the call of kalloc was made to fail, or a
-- table was missing and no page was left.
def OutOfPages (s next : Machine) (d : Nat) (before after : List Nat) : Prop :=
  (∃ k, s.fails k = true ∧ k + after.length = s.calls + before.length) ∨ (after = [] ∧ 0 < absent next.mem d)

theorem mapLoop_turn {Q : Bool → Machine → Prop} {E : Panic → Machine → Prop} (w : Nat) (is_word : w = pa ||| perm ||| 1)
    (ok : Ok L s o) (dir : o.dirs a = some d) (vacant : o.own t = none) (small : v < 1048576)
    (word : w < 4294967296) (own : Tag → Option Nat) (fewer : ∀ k p, own k = some p → o.own k = some p)
    (source : v < 524288 → ∃ k, o.own k = some (PTE_ADDR w) ∧ own k = none)
    (kernel : 524288 ≤ v → ¬ UserBit w) (present_w : Present w)
    (stops : ∀ next, Quiet s next → Present (pteOf s.mem d v) → E .remap next)
    (fails : ∀ next o', Tables L o d s next o' → o'.own = o.own →
      (∀ x < 1048576, pteOf next.mem d x = pteOf s.mem d x) →
      (∀ i < 1024, i ≠ v/1024 → tableOf next.mem d i = tableOf s.mem d i) → tableOf next.mem d (v/1024) = none →
      o'.free = o.free → OutOfPages s next d o.free o'.free → Q false next)
    (goes : ∀ next o', Tables L o d s next o' → o'.own = own → ¬ Present (pteOf s.mem d v) → pteOf next.mem d v = w →
      (∀ x < 1048576, x ≠ v → pteOf next.mem d x = pteOf s.mem d x) →
      (∀ i < 1024, i ≠ v/1024 → tableOf next.mem d i = tableOf s.mem d i) →
      next.calls + o'.free.length = s.calls + o.free.length →
      Sat (if 4096*v = last then pure true else mapLoop d last perm fuel (w32 (4096*v+4096)) (w32 (pa+4096))) next E Q) :
    Sat (mapLoop d last perm (fuel+1) (4096*v) pa) s E Q := by
  have page : 4096*v/4096 = v := by omega
  apply (walkpgdir_alloc ok dir vacant (by omega) E).bind
  rintro r next ⟨o',done,own_same,ptes,tables,result⟩
  rw [page] at result tables
  cases r with
  | none =>
    obtain ⟨missing,why,same⟩ := result
    rw [sat_pure]
    exact fails next o' done own_same ptes tables missing same
      (why.imp (fun flag => ⟨s.calls,flag,by rw [same]⟩) fun empty => ⟨empty,absent_pos (by omega) missing⟩)
  | some x =>
    obtain ⟨count,table,found,rfl⟩ := result
    rw [sat_load_bind,pteOf_table found,ptes v small]
    by_cases present : Present (pteOf s.mem d v)
    · rw [if_pos present,sat_stop]
      exact stops next done.quiet present
    rw [if_neg present,sat_store_bind,← is_word]
    have dir' : o'.dirs a = some d := by rw [done.dirs]; exact dir
    obtain ⟨stored,at_v,elsewhere⟩ := put done.ok dir' small found word own (by rw [own_same]; exact fewer)
      (by rw [own_same]; exact fun inside _ => .inr (source inside)) (fun above _ => kernel above) (absurd present_w)
    have entries := (done.ok.custody.entry_view dir' small found word _ rfl).1
    refine goes _ _ (done.trans stored) rfl present at_v (fun x inside other => ?_) (fun i inside other => ?_) count
    · rw [← ptes x inside]; exact elsewhere x inside other
    · rw [← tables i inside other]; exact entries a d i dir' inside

theorem mapLoop_kernel (perm_small : perm < 4096) (hidden : ¬ UserBit perm) (k : Nat) :
    ∀ {s : Machine} {o : Owners} {v q fuel : Nat}, Ok L s o → o.dirs a = some d → o.own t = none →
    524288 ≤ v → v+k < 1048576 → q+k < 1048576 → k < fuel →
    Sat (mapLoop d (4096*(v+k)) perm fuel (4096*v) (4096*q)) s
      (fun e next => e = .remap ∧ Quiet s next ∧ ∃ j ≤ k, Present (pteOf s.mem d (v+j)))
      fun r next => ∃ o', Tables L o d s next o' ∧ o'.own = o.own ∧
        (∀ x < 1048576, (x < v ∨ v+k < x) → pteOf next.mem d x = pteOf s.mem d x) ∧
        (∀ i < 1024, (i < v/1024 ∨ (v+k)/1024 < i) → tableOf next.mem d i = tableOf s.mem d i) ∧
        (r = false → OutOfPages s next d o.free o'.free ∧ ∃ j ≤ k, tableOf next.mem d ((v+j)/1024) = none) ∧
        (r = true → next.calls + o'.free.length = s.calls + o.free.length ∧
          ∀ j ≤ k, pteOf next.mem d (v+j) = 4096*(q+j) ||| perm ||| 1) := by
  induction k using Nat.strongRecOn with
  | _ k ih =>
    intro s o v q fuel ok dir vacant low high phys enough
    obtain ⟨fuel,rfl⟩ : ∃ f, fuel = f+1 := ⟨fuel-1,by omega⟩
    obtain ⟨present_w,_,bit,below⟩ := entry_parts (p := 4096*q) (by omega) perm_small _ rfl
    refine mapLoop_turn _ rfl ok dir vacant (by omega) (by omega) o.own (fun _ _ own => own) (by omega)
      (fun _ => fun user => hidden (bit.mp user)) present_w ?_ ?_ ?_
    · intro next quiet present
      exact ⟨rfl,quiet,0,Nat.zero_le _,present⟩
    · intro next o' done own ptes tables missing _ why
      exact ⟨o',done,own,fun x inside _ => ptes x inside,fun i inside _ => tables i inside (by omega),
        fun _ => ⟨why,0,Nat.zero_le _,missing⟩,by simp⟩
    · intro next o' done own _ at_v elsewhere tables count
      cases k with
      | zero =>
        rw [if_pos (by rfl),sat_pure]
        refine ⟨o',done,own,fun x inside outside => elsewhere x inside (by omega),
          fun i inside _ => tables i inside (by omega),by simp,fun _ => ⟨count,?_⟩⟩
        intro j zero
        obtain rfl : j = 0 := by omega
        exact at_v
      | succ k =>
        have more : ¬ 4096*v = 4096*(v+(k+1)) := by omega
        have step := w32_page (v := v) (by omega)
        have phys_step := w32_page (v := q) (by omega)
        rw [if_neg more,step,phys_step,show v+(k+1) = (v+1)+k by omega]
        refine (ih k (Nat.lt_succ_self k) done.ok (by rw [done.dirs]; exact dir)
          (by rw [own]; exact vacant) (by omega) (by omega) (by omega) (by omega)).mono ?_ ?_
        · rintro e last ⟨remap,quiet,j,inside,present⟩
          refine ⟨remap,done.quiet.trans quiet,j+1,by omega,?_⟩
          rw [show v+(j+1) = v+1+j by omega,← elsewhere _ (by omega) (by omega)]
          exact present
        rintro r last ⟨o'',later,own',outside,untabled,failed,mapped⟩
        refine ⟨o'',done.trans later,own'.trans own,fun x inside away => ?_,fun i inside away => ?_,
          fun bad => ?_,fun good => ?_⟩
        · rw [outside x inside (by omega)]; exact elsewhere x inside (by omega)
        · rw [untabled i inside (by omega)]; exact tables i inside (by omega)
        · obtain ⟨why,j,inside,missing⟩ := failed bad
          refine ⟨why.imp (fun ⟨j,flag,at_j⟩ => ⟨j,by rwa [← done.quiet.fails],at_j.trans count⟩) id,j+1,by omega,?_⟩
          rw [show v+(j+1) = v+1+j by omega]; exact missing
        · obtain ⟨counted,at_j⟩ := mapped good
          refine ⟨counted.trans count,fun j inside => ?_⟩
          cases j with
          | zero => rw [Nat.add_zero,outside v (by omega) (by omega)]; exact at_v
          | succ j =>
            rw [show v+(j+1) = v+1+j by omega,show q+(j+1) = q+1+j by omega]
            exact at_j j (by omega)

theorem mappages_user (ok : Ok L s o) (dir : o.dirs a = some d) (vacant : o.own t = none)
    (mine : o.own k = some p) (small : v < 524288) (perm_small : f < 4096) :
    Sat (mappages d (4096*v) 4096 p f) s
      (fun e next => e = .remap ∧ Quiet s next ∧ Present (pteOf s.mem d v))
      fun r next => ∃ o', Tables L o d s next o' ∧
        (∀ x < 1048576, x ≠ v → pteOf next.mem d x = pteOf s.mem d x) ∧
        (∀ i < 1024, i ≠ v/1024 → tableOf next.mem d i = tableOf s.mem d i) ∧
        (r = false → o'.own = o.own ∧ pteOf next.mem d v = pteOf s.mem d v ∧ OutOfPages s next d o.free o'.free ∧
          tableOf next.mem d (v/1024) = none ∧ o'.free = o.free) ∧
        (r = true → o'.own = update o.own k none ∧ pteOf next.mem d v = p ||| f ||| 1 ∧
          next.calls + o'.free.length = s.calls + o.free.length ∧ ¬ Present (pteOf s.mem d v)) := by
  have managed := ok.custody.managed (u := .own k) mine
  obtain ⟨aligned,_,top⟩ := managed
  obtain ⟨present_w,addr,_,below⟩ := entry_parts aligned perm_small _ rfl
  have last : PGROUNDDOWN (w32 (4096*v+4096+4294967295)) = 4096*v := by unfold PGROUNDDOWN w32; omega
  have first := PGROUNDDOWN_page v
  unfold mappages
  rw [last,first]
  refine mapLoop_turn _ rfl ok dir vacant (by omega) (by omega) (update o.own k none) (fun _ _ own => (update_none own).2) ?_ (by omega) present_w
    ?_ ?_ ?_
  · intro _
    exact ⟨k,by rw [addr]; exact mine,update_self ..⟩
  · intro next quiet present
    exact ⟨rfl,quiet,present⟩
  · intro next o' done own ptes tables missing same why
    exact ⟨o',done,fun x inside _ => ptes x inside,tables,fun _ => ⟨own,ptes v (by omega),why,missing,same⟩,by simp⟩
  · intro next o' done own was at_v elsewhere tables count
    rw [if_pos rfl,sat_pure]
    exact ⟨o',done,elsewhere,tables,by simp,fun _ => ⟨own,at_v,count,was⟩⟩

structure Kmap.Covers (k : Kmap) (v n q : Nat) : Prop where
  virt : k.virt = 4096*v
  size : w32 (k.physEnd + 4294967296 - k.physStart) = 4096*(n+1)
  phys : k.physStart = 4096*q
  low : 524288 ≤ v
  high : v+n < 1048576
  top : q+n < 1048576
  perm : k.perm < 4096
  hidden : ¬ UserBit k.perm

def Ascending : Nat → List Kmap → Prop
  | _, [] => True
  | low, k :: rest => ∃ v n q, k.Covers v n q ∧ low ≤ v ∧ Ascending (v+n+1) rest

theorem kmap_ascending (L : Layout) : Ascending 524288 (kmap L) := by
  have aligned := L.aligned
  have text := L.text
  have image := L.image
  have fits := L.fits
  have read_only : (0:Nat) < 4096 ∧ ¬ UserBit 0 := by decide
  have writable : (2:Nat) < 4096 ∧ ¬ UserBit 2 := by decide
  refine ⟨524288,255,0,⟨rfl,rfl,rfl,by decide,by decide,by decide,by decide,by decide⟩,by decide,
    524544,L.data/4096-257,256,⟨rfl,?_,rfl,by decide,by omega,by omega,read_only.1,read_only.2⟩,by decide,
    524288+L.data/4096,57343-L.data/4096,L.data/4096,⟨?_,?_,?_,by omega,by omega,by omega,writable.1,writable.2⟩,by omega,
    1040384,8191,1040384,⟨rfl,rfl,rfl,by decide,by decide,by decide,by decide,by decide⟩,by omega,trivial⟩
  · show w32 (L.data + 4294967296 - 1048576) = _; unfold w32; omega
  · show L.data+2147483648 = _; omega
  · show w32 (234881024 + 4294967296 - L.data) = _; unfold w32; omega
  · show L.data = _; omega

theorem mapAll_kernel (ks : List Kmap) : ∀ {s : Machine} {o : Owners} {low : Nat}, Ok L s o → o.dirs a = some d →
    o.own t = none → Ascending low ks → (∀ x < 1048576, low ≤ x → ¬ Present (pteOf s.mem d x)) →
    Sat (mapAll d ks) s (fun _ _ => False) fun r next => ∃ o', Tables L o d s next o' ∧ o'.own = o.own ∧
      (∀ x < low, x < 1048576 → pteOf next.mem d x = pteOf s.mem d x) ∧
      (∀ i < 1024, (∀ k ∈ ks, ∀ v n q, k.Covers v n q → i < v/1024 ∨ (v+n)/1024 < i) →
        tableOf next.mem d i = tableOf s.mem d i) ∧
      (r = false → OutOfPages s next d o.free o'.free ∧
        ∃ k ∈ ks, ∃ v n q, k.Covers v n q ∧ ∃ j ≤ n, tableOf next.mem d ((v+j)/1024) = none) ∧
      (r = true → next.calls + o'.free.length = s.calls + o.free.length ∧
        ∀ k ∈ ks, ∀ v n q, k.Covers v n q → ∀ j ≤ n, pteOf next.mem d (v+j) = 4096*(q+j) ||| k.perm ||| 1) := by
  induction ks with
  | nil =>
    intro s o low ok _ _ _ _
    exact .done ⟨o,.refl ok d,rfl,fun _ _ _ => rfl,fun _ _ _ => rfl,by simp,fun _ => ⟨rfl,by simp⟩⟩
  | cons k rest ih =>
    intro s o low ok dir vacant order bare
    obtain ⟨v,n,q,covers,above,later⟩ := order
    have last : PGROUNDDOWN (w32 (4096*v + 4096*(n+1) + 4294967295)) = 4096*(v+n) := by
      have := covers.high; unfold PGROUNDDOWN w32; omega
    have first := PGROUNDDOWN_page v
    have high := covers.high
    unfold mapAll mappages
    rw [covers.virt,covers.size,covers.phys,last,first]
    refine Sat.bind ((mapLoop_kernel covers.perm covers.hidden n ok dir vacant
      covers.low covers.high covers.top (by omega)).stops ?_) ?_
    · rintro e next ⟨_,_,j,inside,present⟩
      exact bare (v+j) (by omega) (by omega) present
    rintro r next ⟨o',done,own,outside,untabled,failed,mapped⟩
    cases r with
    | false =>
      rw [if_neg (by simp),sat_pure]
      exact ⟨o',done,own,fun x inside small => outside x small (by omega),
        fun i small away => untabled i small (away k (.head _) v n q covers),
        fun _ => ⟨(failed rfl).1,k,.head _,v,n,q,covers,(failed rfl).2⟩,by simp⟩
    | true =>
      rw [if_pos rfl]
      obtain ⟨count,pages⟩ := mapped rfl
      have still : ∀ x < 1048576, v+n+1 ≤ x → ¬ Present (pteOf next.mem d x) := fun x inside far => by
        rw [outside x inside (by omega)]; exact bare x inside (by omega)
      refine (ih done.ok (by rw [done.dirs]; exact dir) (by rw [own]; exact vacant) later still).mono (fun _ _ no => no) ?_
      rintro r last ⟨o'',more,own',below,untabled',failed',mapped'⟩
      refine ⟨o'',done.trans more,own'.trans own,fun x inside small => ?_,fun i small away => ?_,
        fun bad => ?_,fun good => ?_⟩
      · rw [below x (by omega) small]; exact outside x small (by omega)
      · rw [untabled' i small fun k' member => away k' (List.mem_cons_of_mem _ member)]
        exact untabled i small (away k (.head _) v n q covers)
      · obtain ⟨why,k',member,missing⟩ := failed' bad
        exact ⟨why.imp (fun ⟨j,flag,at_j⟩ => ⟨j,by rwa [← done.quiet.fails],at_j.trans count⟩) id,k',
          List.mem_cons_of_mem _ member,missing⟩
      · obtain ⟨count',pages'⟩ := mapped' good
        refine ⟨count'.trans count,fun k' member v' n' q' covers' j inside => ?_⟩
        rcases List.mem_cons.mp member with rfl | member
        · have same_v : v' = v := by have := covers.virt; have := covers'.virt; omega
          have same_n : n' = n := by have := covers.size; have := covers'.size; omega
          have same_q : q' = q := by have := covers.phys; have := covers'.phys; omega
          subst same_v same_n same_q
          rw [below _ (by omega) (by omega)]
          exact pages j inside
        · exact pages' k' member v' n' q' covers' j inside

def Lines (L : Layout) (m : Bytes.Store) (d : Nat) : Prop :=
  ∀ k ∈ kmap L, ∀ v n q, k.Covers v n q → ∀ j ≤ n, pteOf m d (v+j) = 4096*(q+j) ||| k.perm ||| 1

theorem Lines.at (lines : Lines L m d) (k : Kmap) (line : k ∈ kmap L) (covers : k.Covers v n q)
    (low : v ≤ x) (high : x ≤ v+n) : Present (pteOf m d x) ∧ PTE_ADDR (pteOf m d x) = 4096*(q+(x-v)) := by
  have word := lines k line v n q covers (x-v) (by omega)
  rw [show v+(x-v) = x by omega] at word
  obtain ⟨present,addr,_⟩ := entry_parts (by omega) covers.perm _ word
  exact ⟨present,addr⟩

theorem Lines.ram (lines : Lines L m d) (small : q < 57344) :
    Present (pteOf m d (524288+q)) ∧ PTE_ADDR (pteOf m d (524288+q)) = 4096*q := by
  have order := kmap_ascending L
  obtain ⟨v₁,n₁,q₁,one,_,v₂,n₂,q₂,two,_,v₃,n₃,q₃,three,_,_⟩ := order
  have one_v : 2147483648 = 4096*v₁ := one.virt
  have one_q : 0 = 4096*q₁ := one.phys
  have one_n : 1048576 = 4096*(n₁+1) := one.size
  have two_v : 2148532224 = 4096*v₂ := two.virt
  have two_q : 1048576 = 4096*q₂ := two.phys
  have two_n : w32 (L.data + 4294967296 - 1048576) = 4096*(n₂+1) := two.size
  have three_v : L.data+2147483648 = 4096*v₃ := three.virt
  have three_q : L.data = 4096*q₃ := three.phys
  have three_n : w32 (234881024 + 4294967296 - L.data) = 4096*(n₃+1) := three.size
  have text := L.text
  have image := L.image
  have fits := L.fits
  unfold w32 at two_n three_n
  by_cases io : q < 256
  · have at_q := lines.at _ (by simp [kmap]) one (x := 524288+q) (by omega) (by omega)
    rwa [show q₁+(524288+q-v₁) = q by omega] at at_q
  by_cases code : 4096*q < L.data
  · have at_q := lines.at _ (by simp [kmap]) two (x := 524288+q) (by omega) (by omega)
    rwa [show q₂+(524288+q-v₂) = q by omega] at at_q
  · have at_q := lines.at _ (by simp [kmap]) three (x := 524288+q) (by omega) (by omega)
    rwa [show q₃+(524288+q-v₃) = q by omega] at at_q

theorem Lines.devices (lines : Lines L m d) (low : 1040384 ≤ x) (high : x < 1048576) : Present (pteOf m d x) := by
  have writable : (2:Nat) < 4096 ∧ ¬ UserBit 2 := by decide
  exact (lines.at ⟨4261412864,4261412864,0,2⟩ (by simp [kmap]) (n := 8191) (q := 1040384)
    ⟨rfl,rfl,rfl,by decide,by decide,by decide,writable.1,writable.2⟩ low (by omega)).1

-- Which of the 1024 tables the kernel's half needs: those of 224 MB from KERNBASE
-- on and of the 32 MB of devices.
def KernelTable (i : Nat) : Bool := (512 ≤ i && i < 568) || 1016 ≤ i

theorem kmap_tables (L : Layout) (small : i < 1024) (other : KernelTable i = false) :
    ∀ k ∈ kmap L, ∀ v n q, k.Covers v n q → i < v/1024 ∨ (v+n)/1024 < i := by
  have text := L.text
  have image := L.image
  have fits := L.fits
  simp only [KernelTable,Bool.or_eq_false_iff,Bool.and_eq_false_iff,decide_eq_false_iff_not] at other
  intro k line v n q covers
  have virt := covers.virt
  have size := covers.size
  simp only [kmap,List.mem_cons,List.not_mem_nil,or_false] at line
  unfold w32 at size
  rcases line with rfl | rfl | rfl | rfl
  · simp only at virt size; omega
  · simp only at virt size; omega
  · simp only at virt size; omega
  · simp only at virt size; omega

structure Bare (L : Layout) (m : Bytes.Store) (d : Nat) : Prop where
  user : v < 524288 → pteOf m d v = 0
  tables : i < 1024 → (tableOf m d i).isNone = !KernelTable i
  ram : q < 57344 → Present (pteOf m d (524288+q)) ∧ PTE_ADDR (pteOf m d (524288+q)) = 4096*q

theorem table_of_present (present : Present (pteOf m d v)) : (tableOf m d (v/1024)).isNone = false := by
  unfold pteOf at present
  cases found : tableOf m d (v/1024) with
  | none => rw [found] at present; cases present
  | some t => rfl

theorem Lines.bare (lines : Lines L m d) (user : ∀ v < 524288, pteOf m d v = 0)
    (others : ∀ i < 1024, KernelTable i = false → tableOf m d i = none) : Bare L m d := by
  refine ⟨user _,fun {i} small => ?_,lines.ram⟩
  cases kernel : KernelTable i with
  | false => rw [others i small kernel]; rfl
  | true =>
    simp only [KernelTable,Bool.or_eq_true,Bool.and_eq_true,decide_eq_true_eq] at kernel
    have present : Present (pteOf m d (1024*i)) := by
      rcases kernel with ⟨low,high⟩ | devices
      · have at_i := (lines.ram (q := 1024*i-524288) (by omega)).1
        rwa [show 524288+(1024*i-524288) = 1024*i by omega] at at_i
      · exact lines.devices (by omega) (by omega)
    have there := table_of_present present
    rwa [show 1024*i/1024 = i by omega] at there

theorem kernelTables_count : ((List.range 1024).countP fun i => !KernelTable i) = 960 := by decide +kernel

theorem Bare.absent (bare : Bare L m d) : absent m d = 960 := by
  rw [← kernelTables_count]
  apply List.countP_congr
  intro i inside
  rw [bare.tables (List.mem_range.mp inside)]

section
variable (others : ∀ i < 1024, KernelTable i = false → tableOf m d i = none)
include others

theorem absent_kernel : 960 ≤ absent m d := by
  rw [← kernelTables_count]
  apply List.countP_mono_left
  intro i inside other
  rw [others i (List.mem_range.mp inside) (by simpa using other)]; rfl

theorem absent_short (small : i < 1024)
    (kernel : KernelTable i = true) (missing : tableOf m d i = none) : 961 ≤ absent m d := by
  have one_more : ((List.range 1024).countP fun j => !KernelTable j) + 1 =
      (List.range 1024).countP fun j => !KernelTable j || j == i := by
    refine countP_flip List.nodup_range (List.mem_range.mpr small) (by simp) (by simp [kernel]) fun j _ other => ?_
    simp [other]
  rw [kernelTables_count] at one_more
  rw [show (961:Nat) = 960+1 from rfl,one_more]
  apply List.countP_mono_left
  intro j inside either
  rcases Bool.or_eq_true _ _ |>.mp either with other | here
  · rw [others j (List.mem_range.mp inside) (by simpa using other)]; rfl
  · rw [beq_iff_eq.mp here,missing]; rfl

end

def Refused (s : Machine) (free j : Nat) : Prop := s.fails (s.calls+j) = true ∨ free ≤ j

-- The first call that gets none is one of those in question.
def FirstRefused (s : Machine) (free : Nat) (calls : Nat → Prop) : Prop :=
  ∃ j, calls j ∧ Refused s free j ∧ ∀ i < j, ¬ Refused s free i

theorem firstRefused_between (works : ¬ Refused s free 0) (refused : Refused s free j) (top : j ≤ k) :
    FirstRefused s free fun i => 1 ≤ i ∧ i ≤ k := by
  induction j using Nat.strongRecOn with
  | _ j ih =>
    by_cases earlier : ∃ i < j, Refused s free i
    · obtain ⟨i,before,refused⟩ := earlier
      exact ih i before refused (by omega)
    · have positive : j ≠ 0 := fun zero => works (zero ▸ refused)
      exact ⟨j,⟨by omega,top⟩,refused,fun i before no => earlier ⟨i,before,no⟩⟩

-- Why setupkvm comes back empty-handed. Without a page for the directory nothing has
-- changed; without one for a table the directory stays lost.
def Unset (s next : Machine) (o : Owners) (free : List Nat) : Prop :=
  (Refused s o.free.length 0 ∧ free = o.free ∧ next.mem = s.mem) ∨
  (FirstRefused s o.free.length (fun j => 1 ≤ j ∧ j ≤ 64) ∧ ∃ p ∈ o.free, ¬ Held next.mem ⟨o.own,o.dirs,free⟩ p)

theorem setupkvm_spec (ok : Ok L s o) (vacant : o.own t = none) (free_space : o.dirs a = none) :
    Sat (setupkvm L) s (fun _ _ => False) fun r next => Quiet s next ∧
      (∀ q, q % 4096 = 0 → q ∉ o.free → SamePage s.mem next.mem q) ∧
      match r with
      | none => ((∃ k, s.fails k = true ∧ s.calls ≤ k ∧ k ≤ s.calls + 65) ∨ o.free.length < 66) ∧
          ∃ free, (∀ q ∈ free, q ∈ o.free) ∧ Ok L next ⟨o.own,o.dirs,free⟩ ∧ Unset s next o free
      | some d => (d ∈ o.free ∧ ∀ i q, i < 1024 → tableOf next.mem d i = some q → q ∈ o.free) ∧ Bare L next.mem d ∧
          ∃ free, (∀ q ∈ free, q ∈ o.free) ∧ free.length + 65 = o.free.length ∧ next.calls = s.calls + 65 ∧
          Ok L next ⟨o.own,update o.dirs a (some d),free⟩ ∧
          Saved a s.mem o next.mem ⟨o.own,update o.dirs a (some d),free⟩ := by
  apply (kalloc_spec ok vacant _).bind
  rintro r got ⟨quiet,mem,calls,result⟩
  cases r with
  | none =>
    obtain ⟨why,ok'⟩ := result
    refine .done ⟨quiet,fun q _ _ x _ _ => by rw [mem],
      why.imp (fun flag => ⟨_,flag,.refl,by omega⟩) fun empty => by rw [empty]; decide,o.free,fun _ free => free,ok',
      .inl ⟨why.imp id fun empty => by rw [empty]; exact Nat.le_refl _,rfl,mem⟩⟩
  | some p =>
    obtain ⟨works,rest,list,ok'⟩ := result
    rw [sat_memset_bind]
    have mine := update_self t (some p) o.own
    have page := (ok'.custody.managed (u := .own t) mine).1
    have member : p ∈ o.free := by rw [list]; exact .head _
    have tail : ∀ q ∈ rest, q ∈ o.free := fun q inside => by rw [list]; exact .tail _ inside
    have away := fill_away got.mem page
    have zero := fill_zero got.mem p
    have cleared := ok'.write (ok'.custody.loose_own mine) (fill got.mem p 4096 0) away
    have restored := update_back (p := p) vacant
    have installed : Ok L { got with mem := fill got.mem p 4096 0 } ⟨o.own,update o.dirs a (some p),rest⟩ := by
      rw [← restored]
      exact ⟨cleared.custody.install free_space mine zero,ok'.alternating,ok'.freed⟩
    have run := mapAll_kernel (kmap L) installed (update_self ..) vacant
      (kmap_ascending L) fun x inside _ => by
        rw [zero.pteOf inside]; decide
    apply run.bind
    rintro r next ⟨o',done,own,below,tables,failed,mapped⟩
    have all_absent : absent (fill got.mem p 4096 0) p = 1024 := by
      unfold absent
      rw [List.countP_eq_length.mpr,List.length_range]
      intro i inside
      rw [zero.tableOf (List.mem_range.mp inside)]; rfl
    have count : absent next.mem p + rest.length = absent (fill got.mem p 4096 0) p + o'.free.length := done.count
    rw [all_absent] at count
    have quiet' : Quiet s next := quiet.trans ⟨done.quiet.fails,done.quiet.grown,done.quiet.loaded,done.quiet.unmapped⟩
    have frame : ∀ q, q % 4096 = 0 → q ∉ o.free → SamePage s.mem next.mem q := by
      intro q aligned notFree
      have other : q ≠ p := fun same => notFree (same ▸ member)
      have first : SamePage s.mem (fill got.mem p 4096 0) q := by rw [← mem]; exact away q aligned other
      refine first.trans (done.frame aligned (fun inside => notFree (tail q inside)) (fun i small found => ?_) other)
      cases (zero.tableOf small).symm.trans found
    have user_tables : ∀ i < 1024, KernelTable i = false → tableOf next.mem p i = none := fun i small other => by
      rw [tables i small (kmap_tables L small other)]; exact zero.tableOf small
    have few := absent_kernel user_tables
    have less : ∀ b e, o.dirs b = some e → o'.dirs b = some e := fun b e dir => by
      have other : b ≠ a := fun same => by rw [same,free_space] at dir; cases dir
      rw [done.dirs]; exact (update_of_ne other _ _).trans dir
    cases r with
    | false =>
      rw [if_neg (by simp),sat_pure]
      obtain ⟨why,k,line,v,n,q,covers,j,inside,missing⟩ := failed rfl
      have top := covers.high
      have kernel : KernelTable ((v+j)/1024) = true := by
        cases is_kernel : KernelTable ((v+j)/1024) with
        | true => rfl
        | false => have := kmap_tables L (by omega) is_kernel k line v n q covers; omega
      have short := absent_short user_tables (by omega) kernel missing
      have bound := absent_le next.mem p
      have length : o.free.length = rest.length+1 := by rw [list,List.length_cons]
      -- at most 63 tables were had
      have refused : ∃ j ≤ 64, Refused s o.free.length j := by
        rcases why with ⟨k,flag,at_k⟩ | ⟨empty,_⟩
        · have at_k : k + o'.free.length = got.calls + rest.length := at_k
          have flag : s.fails k = true := by rw [← quiet.fails]; exact flag
          refine ⟨k-s.calls,by omega,.inl ?_⟩
          rwa [show s.calls+(k-s.calls) = k by omega]
        · rw [empty,List.length_nil] at count
          exact ⟨o.free.length,by omega,.inr .refl⟩
      have begun : ¬ Refused s o.free.length 0 := by
        rintro (flag | none_left)
        · rw [Nat.add_zero,works] at flag; cases flag
        · omega
      obtain ⟨j,top,no⟩ := refused
      refine ⟨quiet',frame,?_,o'.free,fun q inside => tail q (done.free q inside),?_,
        .inr ⟨firstRefused_between begun no top,p,member,?_⟩⟩
      · rcases why with ⟨k,flag⟩ | ⟨empty,_⟩
        · have at_k : k + o'.free.length = got.calls + rest.length := flag.2
          exact .inl ⟨k,by rw [← quiet.fails]; exact flag.1,by omega,by omega⟩
        · rw [empty,List.length_nil] at count
          exact .inr (by omega)
      · exact done.ok.forget _ _ (fun t q own' => by rw [own]; exact own') less
      · rintro ⟨u,use⟩
        have old := Holds.of_fewer (fun t q own' => by rw [own]; exact own') less use
        have dir : Holds next.mem o' (.dir a) p := by rw [Holds,done.dirs]; exact update_self ..
        cases done.ok.custody.exclusive old dir
        rw [Holds] at use
        simp only [free_space] at use
        cases use
    | true =>
      rw [if_pos rfl,sat_pure]
      obtain ⟨counted,pages⟩ := mapped rfl
      have bare : Bare L next.mem p := by
        refine Lines.bare pages (fun v small => ?_) user_tables
        rw [below v (by omega) (by omega)]; exact zero.pteOf (by omega)
      rw [bare.absent] at count
      have counted' : next.calls + o'.free.length = got.calls + rest.length := counted
      have new_tables : ∀ i q, i < 1024 → tableOf next.mem p i = some q → q ∈ o.free := by
        intro i q small found
        rcases done.found small found with old | inside
        · cases (zero.tableOf small).symm.trans old
        · exact tail q inside
      refine ⟨quiet',frame,⟨member,new_tables⟩,bare,o'.free,fun q inside => tail q (done.free q inside),?_,?_,?_⟩
      · rw [list,List.length_cons]; omega
      · omega
      · have full : o' = ⟨o.own,update o.dirs a (some p),o'.free⟩ := by
          cases o' with
          | mk own' dirs' free' =>
            simp only at own
            have dirs := done.dirs
            simp only at dirs
            rw [own,dirs]
        rw [← full]
        have same : SameView s.mem (fill got.mem p 4096 0) o.dirs := by
          rw [← mem]; exact (ok'.custody.loose_view (ok'.custody.loose_own mine) away).1
        have begun := (Saved.take a list vacant same).trans (.install free_space mine)
        rw [restored] at begun
        refine ⟨done.ok,begun.trans ?_⟩
        refine done.saved installed (update_self ..) (fun k q held => ⟨.own k,?_⟩) fun v small present => ?_
        · rw [Holds,own]; exact held
        · have blank : pteOf (fill got.mem p 4096 0) p v = 0 := zero.pteOf (by omega)
          have present : Present (pteOf (fill got.mem p 4096 0) p v) := present
          rw [blank] at present; cases present

end Map
end Xv6.Vm
