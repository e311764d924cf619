import Mathlib.Algebra.GroupWithZero.Nat
import Xv6.Vm.Load

namespace Xv6.Vm
open Bytes Exec

-- exec keeps the custody of pages when the pages of the new stack are mapped.

section Stack
variable {L : Layout} {s : Machine} {o : Owners} {a : Space} {d : Nat}

theorem clearpteu_spec (ok : Ok L s o) (dir : o.dirs a = some d) (small : v < 524288) :
    Sat (clearpteu d (4096*v)) s (fun _ _ => tableOf s.mem d (v/1024) = none) fun _ next => Quiet s next ∧ Ok L next o ∧
      (∀ i < 1024, tableOf next.mem d i = tableOf s.mem d i) ∧
      (¬ UserBit (pteOf next.mem d v) ∧ (Present (pteOf next.mem d v) ↔ Present (pteOf s.mem d v)) ∧
        ∀ x < 1048576, x ≠ v → pteOf next.mem d x = pteOf s.mem d x) ∧ Saved a s.mem o next.mem o ∧
      ∀ q, q % 4096 = 0 → (∀ i < 1024, tableOf s.mem d i ≠ some q) → SamePage s.mem next.mem q := by
  have page : 4096*v/4096 = v := by omega
  unfold clearpteu
  rw [sat_bind,walkpgdir_look _ _ (by omega),page]
  cases table : tableOf s.mem d (v/1024) with
  | none => exact (sat_stop ..).mpr rfl
  | some t =>
    simp only [Option.map_some]
    rw [sat_load_bind,sat_store,pteOf_table table]
    have word : pteOf s.mem d v < 4294967296 := by rw [← pteOf_table table]; exact ld32_lt _ _
    generalize cleared_eq : (if UserBit (pteOf s.mem d v) then pteOf s.mem d v - 4 else pteOf s.mem d v) = w
    -- only the one bit changes
    have bits : w < 4294967296 ∧ (Present w ↔ Present (pteOf s.mem d v)) ∧ PTE_ADDR w = PTE_ADDR (pteOf s.mem d v) ∧
        (pteOf s.mem d v = 0 → w = 0) ∧ ¬ UserBit w := by
      rw [← cleared_eq]
      unfold Present PTE_ADDR
      by_cases user : UserBit (pteOf s.mem d v)
      · rw [if_pos user]
        unfold UserBit at user ⊢
        omega
      · rw [if_neg user]
        exact ⟨word,Iff.rfl,rfl,id,user⟩
    obtain ⟨small_w,present,addr,zero,hidden⟩ := bits
    obtain ⟨stored,at_v,elsewhere⟩ := put ok dir (by omega) table small_w o.own (fun _ _ own => own)
      (fun _ now => .inl ⟨present.mp now,addr⟩) (by omega)
      fun no => zero (ok.custody.blank dir (by omega) fun was => no (present.mpr was))
    refine ⟨stored.quiet,stored.ok,fun i inside => ?_,?_,?_,fun q aligned noTable => ?_⟩
    · exact (ok.custody.entry_view dir (by omega) table small_w _ rfl).1 a d i dir inside
    · rw [at_v]; exact ⟨hidden,present,elsewhere⟩
    · refine stored.saved ok dir (fun k q mine => ⟨.own k,mine⟩) fun x bound there => ⟨.user a x,d,dir,bound,?_⟩
      by_cases same : x = v
      · subst same; rw [at_v]; exact ⟨present.mpr there,addr⟩
      · rw [elsewhere x (by omega) same]; exact ⟨there,rfl⟩
    · have t_page := (ok.custody.managed (u := .table a (v/1024)) ⟨d,dir,by omega,table⟩).1
      exact samePage_copy _ (by omega) aligned t_page fun same => noTable (v/1024) (by omega) (same ▸ table)

def userByte (m : Bytes.Store) (d x : Nat) : UInt8 := m (PTE_ADDR (pteOf m d (x/4096)) + x%4096)

theorem poke_userByte (ok : Ok L s o) (dir : o.dirs a = some d) (small : v < 524288) (present : Present (pteOf s.mem d v))
    (inside : k+n ≤ 4096) (src : Bytes.Store) (low : x < 2147483648) (there : Present (pteOf s.mem d (x/4096))) :
    userByte (copy s.mem (PTE_ADDR (pteOf s.mem d v)+k) n src) d x =
      if x/4096 = v ∧ k ≤ x%4096 ∧ x%4096 < k+n then src (x%4096-k) else userByte s.mem d x := by
  have use : Holds s.mem o (.user a v) (PTE_ADDR (pteOf s.mem d v)) := ⟨d,dir,small,present,rfl⟩
  have page := (ok.custody.managed use).1
  have view := (poke ok (ok.custody.loose_user use) page inside src).2
  unfold userByte
  rw [view.pte dir (by omega)]
  by_cases here : x/4096 = v
  · rw [here]
    by_cases hit : k ≤ x%4096 ∧ x%4096 < k+n
    · rw [if_pos ⟨rfl,hit⟩,copy_in _ _ (by omega) (by omega)]
      congr 1; omega
    · rw [if_neg fun all => hit all.2,copy_out _ _ (by omega)]
  have other : Holds s.mem o (.user a (x/4096)) (PTE_ADDR (pteOf s.mem d (x/4096))) := ⟨d,dir,by omega,there,rfl⟩
  have page' := (ok.custody.managed other).1
  have apart : PTE_ADDR (pteOf s.mem d (x/4096)) ≠ PTE_ADDR (pteOf s.mem d v) := fun same => by
    rw [same] at other
    have equal := ok.custody.exclusive other use
    simp at equal; exact here equal
  rw [if_neg fun all => here all.1,copy_out _ _ (by omega)]

structure Wrote (m n : Bytes.Store) (d va : Nat) (bytes : List UInt8) : Prop where
  inside : i < bytes.length → userByte n d (va+i) = bytes.getD i 0
  outside : x < 2147483648 → Present (pteOf m d (x/4096)) → x < va ∨ va+bytes.length ≤ x → userByte n d x = userByte m d x

theorem copyoutLoop_spec (dir : o.dirs a = some d) (high : hi ≤ 524288) (fuel : Nat) :
    ∀ {s : Machine} {va : Nat} {bytes : List UInt8}, Ok L s o →
    (∀ v < hi, tableOf s.mem d (v/1024) ≠ none) → va+bytes.length ≤ 4096*hi → bytes.length ≤ fuel →
    Sat (copyoutLoop L cur d fuel va bytes) s (fun _ _ => False) fun r next =>
      Quiet s next ∧ Ok L next o ∧ SameView s.mem next.mem o.dirs ∧
      (r = true → (bytes ≠ [] → ∀ v, va/4096 ≤ v → 4096*v < va+bytes.length → UserBit (pteOf s.mem d v)) ∧
        Wrote s.mem next.mem d va bytes) := by
  have nothing : ∀ {s : Machine} {va : Nat} {bytes : List UInt8}, Ok L s o → bytes.length = 0 →
      Quiet s s ∧ Ok L s o ∧ SameView s.mem s.mem o.dirs ∧ (true = true →
        (bytes ≠ [] → ∀ v, va/4096 ≤ v → 4096*v < va+bytes.length → UserBit (pteOf s.mem d v)) ∧ Wrote s.mem s.mem d va bytes) :=
    fun {s va bytes} ok empty => ⟨.refl s,ok,.refl _ _,fun _ => ⟨fun some_bytes => absurd (List.eq_nil_of_length_eq_zero empty) some_bytes,
      fun bound => by omega,fun _ _ _ => rfl⟩⟩
  induction fuel with
  | zero =>
    intro s va bytes ok tables top enough
    unfold copyoutLoop
    rw [sat_pure]
    exact nothing ok (by omega)
  | succ fuel ih =>
    intro s va bytes ok tables top enough
    unfold copyoutLoop
    by_cases empty : bytes.length = 0
    · rw [if_pos empty,sat_pure]
      exact nothing ok empty
    rw [if_neg empty]
    have down : PGROUNDDOWN va = 4096*(va/4096) := by unfold PGROUNDDOWN; omega
    have page : 4096*(va/4096)/4096 = va/4096 := by omega
    rw [down]
    unfold uva2ka derefPte
    rw [sat_bind,sat_bind,sat_bind,walkpgdir_look _ _ (by omega),page]
    cases table : tableOf s.mem d (va/4096/1024) with
    | none => exact absurd table (tables (va/4096) (by omega))
    | some t =>
      simp only [Option.map_some]
      rw [sat_load,pteOf_table table]
      by_cases present : Present (pteOf s.mem d (va/4096))
      · rw [if_neg (not_not_intro present)]
        by_cases user : UserBit (pteOf s.mem d (va/4096))
        · rw [if_neg (not_not_intro user)]
          have use : Holds s.mem o (.user a (va/4096)) (PTE_ADDR (pteOf s.mem d (va/4096))) :=
            ⟨d,dir,by omega,present,rfl⟩
          have managed := ok.custody.managed use
          have loose := ok.custody.loose_user use
          have real : PTE_ADDR (pteOf s.mem d (va/4096)) ≠ 2147483648 := by have := managed.2.2; omega
          rw [if_neg real,sat_pure]
          simp only
          generalize count_eq : min (4096-(va-4096*(va/4096))) bytes.length = n
          generalize src_eq : (fun i => bytes.getD i 0) = src
          have bytewise := fun x => poke_userByte (x := x) ok dir (by omega) present
            (show (va-4096*(va/4096))+n ≤ 4096 by omega) src
          obtain ⟨ok',view⟩ := poke ok loose managed.1 (x := va-4096*(va/4096)) (n := n) (by omega) src
          generalize PTE_ADDR (pteOf s.mem d (va/4096)) = p at *
          unfold kmove
          simp only [sat_bind,sat_get,kernelPage_managed managed,sat_modify,sat_pure]
          have step : w32 (4096*(va/4096)+4096) = 4096*(va/4096)+4096 := by unfold w32; omega
          rw [step]
          have left : (bytes.drop n).length = bytes.length-n := List.length_drop ..
          refine (ih ok' (fun v below => ?_) (by omega) (by omega)).post ?_
          · rw [view.table dir (by omega)]
            exact tables v below
          rintro r next ⟨quiet,ok_next,view_next,through⟩
          refine ⟨⟨quiet.fails,quiet.grown,quiet.loaded,quiet.unmapped⟩,ok_next,view.trans view_next,fun done => ?_⟩
          obtain ⟨users,wrote⟩ := through done
          -- what stands below the next page stays as it was written here
          have early : ∀ x, x < 2147483648 → Present (pteOf s.mem d (x/4096)) →
              x < 4096*(va/4096)+4096 ∨ 4096*(va/4096)+4096+(bytes.length-n) ≤ x →
              userByte next.mem d x = if x/4096 = va/4096 ∧ va-4096*(va/4096) ≤ x%4096 ∧ x%4096 < va-4096*(va/4096)+n
                then src (x%4096-(va-4096*(va/4096))) else userByte s.mem d x := by
            intro x low there away
            rw [wrote.outside low (by rw [view.pte dir (by omega)]; exact there) (by rw [left]; exact away)]
            exact bytewise x low there
          refine ⟨fun _ v low high => ?_,fun {i} bound => ?_,fun {x} low there away => ?_⟩
          · by_cases here : v = va/4096
            · rw [here]; exact user
            · rw [← view.pte dir (by omega)]
              exact users (fun none => by rw [none,List.length_nil] at left; omega) v (by omega) (by omega)
          · by_cases first : i < n
            · rw [early (va+i) (by omega) (by rw [show (va+i)/4096 = va/4096 by omega]; exact present) (.inl (by omega)),
                if_pos (by omega),show (va+i)%4096-(va-4096*(va/4096)) = i by omega,← src_eq]
            · have rest := wrote.inside (i := i-n) (by omega)
              rw [show 4096*(va/4096)+4096+(i-n) = va+i by omega] at rest
              rw [rest,List.getD_eq_getElem?_getD,List.getElem?_drop,List.getD_eq_getElem?_getD,show n+(i-n) = i by omega]
          · rw [early x low there (by omega),if_neg (by omega)]
        · rw [if_pos user,sat_pure]
          exact .done ⟨.refl s,ok,.refl _ _,fun no => by cases no⟩
      · rw [if_pos present,sat_pure]
        exact .done ⟨.refl s,ok,.refl _ _,fun no => by cases no⟩

theorem copyoutLoop_kernel (ok : Ok L s o) (dir : o.dirs a = some d) (high : 2147483648 ≤ va) (word : va < 4294967296)
    (table : tableOf s.mem d (va/4194304) ≠ none) (some_bytes : bytes ≠ []) (E : Panic → Machine → Prop) (Q : Bool → Machine → Prop)
    (gives_up : Q false s) : Sat (copyoutLoop L cur d (fuel+1) va bytes) s E Q := by
  have down : PGROUNDDOWN va = 4096*(va/4096) := by unfold PGROUNDDOWN; omega
  have page : 4096*(va/4096)/4096 = va/4096 := by omega
  unfold copyoutLoop
  rw [if_neg fun empty => some_bytes (List.eq_nil_of_length_eq_zero empty)]
  rw [down]
  unfold uva2ka derefPte
  rw [sat_bind,sat_bind,sat_bind,walkpgdir_look _ _ (by omega),page]
  cases found : tableOf s.mem d (va/4096/1024) with
  | none => exact absurd found (by rw [show va/4096/1024 = va/4194304 by omega]; exact table)
  | some t =>
    simp only [Option.map_some]
    rw [sat_load,pteOf_table found]
    by_cases present : Present (pteOf s.mem d (va/4096))
    · rw [if_neg (not_not_intro present),if_pos (ok.custody.kernel dir (by omega) (by omega) present),sat_pure]
      exact .done gives_up
    · rw [if_pos present,sat_pure]
      exact .done gives_up

def Pushed (m : Bytes.Store) (d : Nat) : Nat → List (List UInt8) → List Nat → Nat → Prop
  | sp, [], [], last => last = sp
  | sp, arg :: rest, p :: ptrs, last => arg.length+1 ≤ sp ∧ p = (sp-(arg.length+1))/4*4 ∧
      (∀ i < arg.length+1, userByte m d (p+i) = (arg ++ [0]).getD i 0) ∧ Pushed m d p rest ptrs last
  | _, _, _, _ => False

def Reaches (table : Nat → Prop) (floor : Nat) : Nat → Nat → List (List UInt8) → Prop
  | _, _, [] => True
  | argc, sp, arg :: rest => 32 ≤ argc ∨
    ((sp < arg.length+1 → table (w32 (sp + 4294967296 - (arg.length+1)) / 4194304)) ∧
      (floor+(arg.length+1) ≤ sp → Reaches table floor (argc+1) ((sp-(arg.length+1))/4*4) rest))

theorem argLoop_spec {table : Nat → Prop} (dir : o.dirs a = some d) (high : g+2 ≤ 524288) (argv : List (List UInt8)) :
    ∀ {s : Machine} {argc sp : Nat} {ptrs : List Nat}, Ok L s o →
    (∀ v < g+2, tableOf s.mem d (v/1024) ≠ none) → (∀ i < 1024, table i → tableOf s.mem d i ≠ none) →
    ¬ UserBit (pteOf s.mem d g) → 4096*(g+1) ≤ sp → sp ≤ 4096*(g+2) → argc ≤ 32 → (∀ arg ∈ argv, arg.length < 2147483647) →
    Reaches table (4096*(g+1)) argc sp argv →
    Sat (argLoop L cur d argv argc sp ptrs) s (fun _ _ => False) fun r next =>
      Quiet s next ∧ Ok L next o ∧ SameView s.mem next.mem o.dirs ∧
      ∀ last ps, r = some (last,ps) → 4096*(g+1) ≤ last ∧ last ≤ sp ∧ argc+argv.length ≤ 32 ∧
        ∃ news, ps = ptrs ++ news ∧ news.length = argv.length ∧ (Present (pteOf s.mem d (g+1)) → Pushed next.mem d sp argv news last ∧
          ∀ x, 4096*(g+1) ≤ x → x < 4096*(g+2) → x < last ∨ sp ≤ x → userByte next.mem d x = userByte s.mem d x) := by
  induction argv with
  | nil =>
    intro s argc sp ptrs ok _ _ _ low top few _ _
    refine .done ⟨.refl s,ok,.refl _ _,fun last ps result => ?_⟩
    cases result
    exact ⟨low,.refl,few,[],(List.append_nil _).symm,rfl,fun _ => ⟨rfl,fun _ _ _ _ => rfl⟩⟩
  | cons arg rest ih =>
    intro s argc sp ptrs ok tables there guard low top few short reaches
    have length : (arg ++ [0]).length = arg.length+1 := by simp
    have word := short arg (.head _)
    unfold argLoop
    by_cases full : 32 ≤ argc
    · rw [if_pos full,sat_pure]
      exact ⟨.refl s,ok,.refl _ _,fun last ps result => by cases result⟩
    obtain ⟨wraps,fits⟩ := reaches.resolve_left full
    rw [if_neg full]
    unfold copyout
    by_cases inside : arg.length+1 ≤ sp
    · have next_sp : w32 (sp + 4294967296 - (arg.length+1)) / 4 * 4 = (sp-(arg.length+1))/4*4 := by unfold w32; omega
      rw [next_sp]
      apply (copyoutLoop_spec dir high _ ok tables (by omega) .refl).bind
      rintro done mid ⟨quiet,ok_mid,view,users⟩
      cases done with
      | false =>
        rw [if_neg (by simp),sat_pure]
        exact ⟨quiet,ok_mid,view,fun last ps result => by cases result⟩
      | true =>
        -- the guard page was not in the way
        have above : 4096*(g+1) + (arg.length+1) ≤ sp := by
          by_contra below
          exact guard ((users rfl).1 (by simp) g (by omega) (by omega))
        rw [if_pos rfl]
        refine (ih ok_mid ?_ ?_ ?_ (by omega) (by omega) (by omega) (fun arg later => short arg (.tail _ later))
          (fits above)).post ?_
        · intro v below
          rw [view.table dir (by omega)]; exact tables v below
        · intro i bound is_there
          rw [view.table dir bound]; exact there i bound is_there
        · rw [view.pte dir (by omega)]; exact guard
        · rintro r next ⟨quiet',ok_next,view',bounds⟩
          refine ⟨quiet.trans quiet',ok_next,view.trans view',fun last ps result => ?_⟩
          obtain ⟨up,down,count,news,pointers,length',contents⟩ := bounds last ps result
          refine ⟨up,by omega,by rw [List.length_cons]; omega,(sp-(arg.length+1))/4*4 :: news,by rw [pointers]; simp,
            by rw [List.length_cons,length',List.length_cons],fun there => ?_⟩
          obtain ⟨pushed,unchanged⟩ := contents (by rw [view.pte dir (by omega)]; exact there)
          have wrote := (users rfl).2
          have page : ∀ x, 4096*(g+1) ≤ x → x < 4096*(g+2) → Present (pteOf s.mem d (x/4096)) := fun x low high => by
            rw [show x/4096 = g+1 by omega]; exact there
          refine ⟨⟨inside,rfl,fun i bound => ?_,pushed⟩,fun x floor ceiling away => ?_⟩
          · rw [unchanged _ (by omega) (by omega) (by omega)]
            exact wrote.inside (by omega)
          · rw [unchanged x floor ceiling (by omega)]
            exact wrote.outside (by omega) (page x floor ceiling) (by omega)
    · have start : 2147483648 ≤ w32 (sp + 4294967296 - (arg.length+1)) / 4 * 4 ∧
          w32 (sp + 4294967296 - (arg.length+1)) / 4 * 4 < 4294967296 := by unfold w32; omega
      have index : w32 (sp + 4294967296 - (arg.length+1)) / 4 * 4 / 4194304 = w32 (sp + 4294967296 - (arg.length+1)) / 4194304 := by
        unfold w32; omega
      rw [sat_bind,length]
      refine copyoutLoop_kernel ok dir start.1 start.2 ?_ (by simp) _ _ ?_
      · rw [index]
        exact there _ (by unfold w32; omega) (wraps (by omega))
      · rw [if_neg (by simp),sat_pure]
        exact ⟨.refl s,ok,.refl _ _,fun last ps result => by cases result⟩

def argBytes (argv : List (List UInt8)) : Nat := (argv.map fun arg => arg.length+1).sum

theorem argBytes_cons (arg : List UInt8) (rest : List (List UInt8)) : argBytes (arg :: rest) = arg.length+1 + argBytes rest := by
  simp [argBytes]

theorem argBytes_mem (member : arg ∈ argv) : arg.length+1 ≤ argBytes argv := by
  induction argv with
  | nil => cases member
  | cons head rest ih =>
    rw [argBytes_cons]
    rcases List.mem_cons.mp member with same | later
    · rw [same]; omega
    · have := ih later; omega

theorem reaches_short (table : Nat → Prop) (page : 4096 ≤ floor) (aligned : floor % 4 = 0) (argv : List (List UInt8)) :
    ∀ {argc sp : Nat}, (∀ arg ∈ argv, arg.length < 4096) → floor ≤ sp → Reaches table floor argc sp argv := by
  induction argv with
  | nil => exact fun _ _ => trivial
  | cons arg rest ih =>
    intro argc sp short low
    have here := short arg (.head _)
    refine .inr ⟨fun wraps => by omega,fun fits => ih (fun arg later => short arg (.tail _ later)) (by omega)⟩

theorem bad_spec (ok : Ok L s o) (dir : o.dirs a = some d) (idle : Idle o) :
    Sat (bad L d) s (fun _ _ => False) fun r next => r = none ∧ Quiet s next ∧
      ∃ free, Ok L next ⟨o.own,Function.update o.dirs a none,free⟩ ∧
        Saved a s.mem o next.mem ⟨o.own,Function.update o.dirs a none,free⟩ := by
  apply (freevm_spec ok dir idle).bind
  rintro _ next ⟨quiet,freed,_⟩
  exact .done ⟨rfl,quiet,freed⟩

theorem ustack_length (argc sp : Nat) (ptrs : List Nat) : (ustack argc sp ptrs).length = 4*(ptrs.length+4) := by
  have each : ∀ ws : List Nat, (ws.flatMap wordBytes).length = 4*ws.length := by
    intro ws
    induction ws with
    | nil => rfl
    | cons w rest ih =>
      rw [List.flatMap_cons,List.length_append,ih,List.length_cons]
      show 4 + 4*rest.length = 4*(rest.length+1)
      omega
  unfold ustack
  rw [each]
  simp only [List.length_append,List.length_cons,List.length_nil]
  omega

structure Ready (L : Layout) (o : Owners) (a : Space) (d g : Nat) (s : Machine) : Prop where
  ok : Ok L s o
  dir : o.dirs a = some d
  idle : Idle o
  high : g+2 < 524288
  mapped : x < g+2 → Present (pteOf s.mem d x)
  user : UserBit (pteOf s.mem d (g+1))

structure Laid (m : Bytes.Store) (d g eip : Nat) (argv : List (List UInt8)) (image : Image) : Prop where
  pgdir : image.pgdir = d
  sz : image.sz = 4096*(g+2)
  eip : image.eip = eip
  count : argv.length ≤ 32
  hidden : Present (pteOf m d g) ∧ ¬ UserBit (pteOf m d g)
  shown : Present (pteOf m d (g+1)) ∧ UserBit (pteOf m d (g+1))
  stack : ∃ sp ptrs, ptrs.length = argv.length ∧ Pushed m d (4096*(g+2)) argv ptrs sp ∧ image.esp+4*(argv.length+4) = sp ∧
    4096*(g+1) ≤ image.esp ∧ ∀ i < 4*(argv.length+4), userByte m d (image.esp+i) = (ustack argv.length sp ptrs).getD i 0

theorem Pushed.same (pushed : Pushed m d sp argv ptrs last) (same : ∀ x, last ≤ x → x < sp → userByte n d x = userByte m d x) :
    Pushed n d sp argv ptrs last ∧ last ≤ sp := by
  induction argv generalizing sp ptrs with
  | nil =>
    cases ptrs with
    | nil => exact ⟨pushed,Nat.le_of_eq pushed⟩
    | cons p ptrs => exact pushed.elim
  | cons arg rest ih =>
    cases ptrs with
    | nil => exact pushed.elim
    | cons p ptrs =>
      obtain ⟨fits,place,bytes,later⟩ := pushed
      obtain ⟨later',low⟩ := ih later fun x above below => same x above (by omega)
      refine ⟨⟨fits,place,fun i bound => ?_,later'⟩,by omega⟩
      rw [same _ (by omega) (by omega)]; exact bytes i bound

theorem execArgs_spec {table : Nat → Prop} (ready : Ready L o a d g s) (there : ∀ i < 1024, table i → tableOf s.mem d i ≠ none)
    (short : ∀ arg ∈ argv, arg.length < 2147483647) (reaches : Reaches table (4096*(g+1)) 0 (4096*(g+2)) argv) :
    Sat (execArgs L cur d eip (4096*(g+2)) argv) s (fun _ _ => False) fun r next => Quiet s next ∧
      match r with
      | none => ∃ free, Ok L next ⟨o.own,Function.update o.dirs a none,free⟩ ∧
          Saved a s.mem o next.mem ⟨o.own,Function.update o.dirs a none,free⟩
      | some image => Ok L next o ∧ Saved a s.mem o next.mem o ∧ Laid next.mem d g eip argv image := by
  have high := ready.high
  have dir := ready.dir
  have tables : ∀ v < g+2, tableOf s.mem d (v/1024) ≠ none := fun v low missing => by
    have found := table_of_present (ready.mapped low)
    rw [missing] at found; cases found
  have guard : w32 (4096*(g+2) + 4294967296 - 8192) = 4096*g := by unfold w32; omega
  unfold execArgs
  rw [guard]
  refine Sat.bind ((clearpteu_spec ready.ok dir (by omega)).stops (fun _ _ missing => tables g (by omega) missing)) ?_
  rintro _ clear ⟨quiet,ok_clear,same,⟨hidden,still,others⟩,saved,_⟩
  have top_entry : pteOf clear.mem d (g+1) = pteOf s.mem d (g+1) := others (g+1) (by omega) (by omega)
  have tables' : ∀ v < g+2, tableOf clear.mem d (v/1024) ≠ none := fun v low => by rw [same _ (by omega)]; exact tables v low
  refine Sat.bind (argLoop_spec dir (by omega) argv ok_clear tables' (fun i bound is_there => by rw [same i bound]; exact there i bound is_there)
    hidden (by omega) .refl (by omega) short reaches) ?_
  rintro r mid ⟨quiet_args,ok_mid,view,through⟩
  have saved_mid := saved.trans (.of_view a view)
  -- giving up frees the whole address space again
  have gives_up : ∀ {last : Machine}, Quiet mid last → Ok L last o → Saved a mid.mem o last.mem o →
      Sat (bad L d) last (fun _ _ => False) fun (r : Option Image) next => Quiet s next ∧
        match r with
        | none => ∃ free, Ok L next ⟨o.own,Function.update o.dirs a none,free⟩ ∧
            Saved a s.mem o next.mem ⟨o.own,Function.update o.dirs a none,free⟩
        | some image => Ok L next o ∧ Saved a s.mem o next.mem o ∧ Laid next.mem d g eip argv image := by
    intro last quiet_last ok_last saved_last
    refine (bad_spec ok_last dir ready.idle).post ?_
    rintro r next ⟨rfl,quiet_next,free,ok_next,saved_next⟩
    exact ⟨((quiet.trans quiet_args).trans quiet_last).trans quiet_next,free,ok_next,(saved_mid.trans saved_last).trans saved_next⟩
  cases r with
  | none => exact gives_up (.refl mid) ok_mid (.refl a _ _)
  | some pair =>
    obtain ⟨sp,ptrs⟩ := pair
    obtain ⟨low,top,count,_,rfl,length,contents⟩ := through sp ptrs rfl
    obtain ⟨pushed,_⟩ := contents (by rw [top_entry]; exact ready.mapped (by omega))
    have words := ustack_length argv.length sp ptrs
    have esp : w32 (sp + 4294967296 - (3+argv.length+1)*4) = sp - 4*(argv.length+4) := by unfold w32; omega
    dsimp only
    rw [esp]
    refine Sat.bind (copyoutLoop_spec dir (show g+2 ≤ 524288 by omega) _ ok_mid
      (fun v below => by rw [view.table dir (by omega)]; exact tables' v below) (by omega) .refl) ?_
    rintro done last ⟨quiet_last,ok_last,view_last,wrote⟩
    cases done with
    | false =>
      rw [if_neg (by simp)]
      exact gives_up quiet_last ok_last (.of_view a view_last)
    | true =>
      rw [if_pos rfl,sat_pure]
      obtain ⟨users,wrote⟩ := wrote rfl
      -- the words were not written into the guard page
      have above : 4096*(g+1) + 4*(argv.length+4) ≤ sp := by
        by_contra below
        have open_guard := users (fun empty => by rw [empty,List.length_nil] at words; omega) g (by omega) (by omega)
        rw [view.pte dir (by omega)] at open_guard
        exact hidden open_guard
      have seen : ∀ x < g+2, pteOf last.mem d x = pteOf clear.mem d x := fun x low =>
        (view_last.pte dir (by omega)).trans (view.pte dir (by omega))
      refine ⟨(quiet.trans quiet_args).trans quiet_last,ok_last,saved_mid.trans (.of_view a view_last),rfl,rfl,rfl,by omega,?_,?_,
        sp,ptrs,length,(pushed.same fun x above below => ?_).1,?_,?_,fun i bound => ?_⟩
      · rw [seen g (by omega)]
        exact ⟨still.mpr (ready.mapped (by omega)),hidden⟩
      · rw [seen (g+1) (by omega),top_entry]
        exact ⟨ready.mapped (by omega),ready.user⟩
      · refine wrote.outside (by omega) ?_ (.inr (by omega))
        rw [show x/4096 = g+1 by omega,view.pte dir (by omega),top_entry]
        exact ready.mapped (by omega)
      · show sp - 4*(argv.length+4) + 4*(argv.length+4) = sp
        omega
      · show 4096*(g+1) ≤ sp - 4*(argv.length+4)
        omega
      · exact wrote.inside (by omega)

end Stack
end Xv6.Vm
