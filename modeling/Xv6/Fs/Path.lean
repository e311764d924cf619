import Xv6.Fs.Dir
import Mathlib.Data.List.Basic

namespace Xv6.Fs.Core
open Bytes Exec LogCrash Slots
open Function (update_of_ne update_self)

-- Paths: what skipelem makes of the bytes, and where namei and nameiparent arrive.

def components (path : List UInt8) : List (List UInt8) := (path.splitOn 47).filter fun part => !part.isEmpty

def parts (path : List UInt8) : List (List UInt8) := (components path).map (·.take 14)

def elements (path : List UInt8) (name : Bytes.Store) : List (List UInt8) :=
  match _found : skipelem path name with
  | none => []
  | some (rest,name) => cname 14 name :: elements rest name
termination_by path.length
decreasing_by exact skipelem_shorter _found

theorem components_slash (path : List UInt8) : components (47 :: path) = components path := by
  simp [components,List.splitOn,List.splitOnP_cons_eq_if_modifyHead]

theorem components_skipSlashes (path : List UInt8) : components (skipSlashes path) = components path := by
  induction path with
  | nil => rfl
  | cons c path ih =>
    rw [skipSlashes]
    split
    · rename_i slash
      rw [slash,components_slash,ih]
    · rfl

theorem components_run (some : s ≠ []) (plain : ∀ c ∈ s, c ≠ 47) (rest : List UInt8) : components (s ++ 47 :: rest) = s :: components rest := by
  have split : (s ++ 47 :: rest).splitOn 47 = s :: rest.splitOn 47 :=
    List.splitOnP_append_cons_of_forall_mem (fun c member => by simpa using plain c member) 47 (by simp) rest
  rw [components,split,List.filter_cons_of_pos (by simpa using some)]
  rfl

theorem components_last (some : s ≠ []) (plain : ∀ c ∈ s, c ≠ 47) : components s = [s] := by
  have split : s.splitOn 47 = [s] := List.splitOnP_eq_singleton fun c member => by simpa using plain c member
  rw [components,split,List.filter_cons_of_pos (by simpa using some)]
  rfl

theorem element_parts (clean : 0 ∉ path) : path = (element path).1 ++ (element path).2 ∧ (∀ c ∈ (element path).1, c ≠ 47) ∧
    ((element path).2 = [] ∨ ∃ rest, (element path).2 = 47 :: rest) := by
  induction path with
  | nil => exact ⟨rfl,by simp [element],.inl rfl⟩
  | cons c path ih =>
    obtain ⟨whole,plain,left⟩ := ih fun member => clean (.tail _ member)
    have byte : c ≠ 0 := fun zero => clean (by rw [zero]; exact (.head _))
    rw [element]
    by_cases slash : c = 47
    · rw [if_neg (by simp [slash]),slash]
      exact ⟨rfl,by simp,.inr ⟨path,rfl⟩⟩
    rw [if_pos ⟨slash,byte⟩]
    refine ⟨by rw [List.cons_append,← whole],?_,left⟩
    intro d member
    rcases List.mem_cons.mp member with rfl | later
    · exact slash
    · exact plain d later

theorem skipSlashes_clean (clean : 0 ∉ path) : 0 ∉ skipSlashes path := by
  induction path with
  | nil => exact clean
  | cons c path ih =>
    rw [skipSlashes]
    split
    · exact ih fun member => clean (.tail _ member)
    · exact clean

theorem components_element (clean : 0 ∉ path) (start : skipSlashes path = c :: later) :
    components path = (element (skipSlashes path)).1 :: components (element (skipSlashes path)).2 := by
  have bytes := skipSlashes_clean clean
  obtain ⟨whole,plain,left⟩ := element_parts bytes
  have some : (element (skipSlashes path)).1 ≠ [] := by
    rw [start] at bytes ⊢
    have byte : c ≠ 0 := fun zero => bytes (by rw [zero]; exact (.head _))
    rw [element,if_pos ⟨skipSlashes_head start,byte⟩]
    exact List.cons_ne_nil _ _
  rw [← components_skipSlashes]
  rcases left with last | ⟨rest,next⟩
  · rw [last,List.append_nil] at whole
    rw [last,← whole]
    rw [← whole] at some plain
    exact components_last some plain
  · rw [next,components_slash]
    conv_lhs => rw [whole,next]
    exact components_run some plain rest

theorem skipSlashes_empty (clean : 0 ∉ path) : (skipSlashes path).headD 0 = 0 ↔ components path = [] := by
  cases start : skipSlashes path with
  | nil =>
    rw [← components_skipSlashes,start]
    simp [components]
  | cons c rest =>
    have bytes := skipSlashes_clean clean
    rw [start] at bytes
    have byte : c ≠ 0 := fun zero => bytes (by rw [zero]; exact (.head _))
    rw [components_element clean start]
    simp [byte]

theorem cname_take (n : Nat) : ∀ {p : Bytes.Store} {s : List UInt8}, 0 ∉ s → (∀ t < n, t < s.length → p t = cstring s t) →
    (s.length < n → p s.length = 0) → cname n p = s.take n := by
  induction n with
  | zero => intro p s _ _ _; rw [List.take_zero]; rfl
  | succ n ih =>
    intro p s clean same ended
    cases s with
    | nil =>
      have zero : p 0 = 0 := ended (Nat.succ_pos n)
      rw [cname,if_pos zero,List.take_nil]
    | cons c s =>
      have first : p 0 = c := same 0 (Nat.succ_pos n) (Nat.succ_pos _)
      have byte : c ≠ 0 := fun zero => clean (by rw [zero]; exact (.head _))
      rw [cname,if_neg (by rw [first]; exact byte),first,List.take_succ_cons]
      congr 1
      refine ih (fun member => clean (.tail _ member)) (fun t small inside => ?_) fun short => ended (Nat.succ_lt_succ short)
      exact same (t+1) (Nat.succ_lt_succ small) (Nat.succ_lt_succ inside)

theorem cname_element (clean : 0 ∉ s) (name : Bytes.Store) :
    cname 14 (if 14 ≤ s.length then copy name 0 14 (cstring s) else Function.update (copy name 0 s.length (cstring s)) s.length 0) = s.take 14 := by
  split
  · refine cname_take 14 clean (fun t small _ => ?_) fun short => by omega
    exact copy_in _ _ (Nat.zero_le _) (by omega)
  · refine cname_take 14 clean (fun t _ inside => ?_) fun _ => update_self ..
    rw [update_of_ne (by omega)]
    exact copy_in _ _ (Nat.zero_le _) (by omega)

theorem skipelem_parts (clean : 0 ∉ path) (name : Bytes.Store) :
    match skipelem path name with
    | none => parts path = []
    | some (rest,after) => parts path = cname 14 after :: parts rest ∧ 0 ∉ rest ∧ (rest.headD 0 = 0 ↔ parts rest = []) := by
  have bytes := skipSlashes_clean clean
  rw [skipelem]
  by_cases empty : (skipSlashes path).headD 0 = 0
  · rw [if_pos empty]
    simp [parts,(skipSlashes_empty clean).mp empty]
  rw [if_neg empty]
  cases start : skipSlashes path with
  | nil => rw [start] at empty; exact absurd rfl empty
  | cons c later =>
    rw [← start]
    obtain ⟨whole,_,_⟩ := element_parts bytes
    have first : 0 ∉ (element (skipSlashes path)).1 := fun member => bytes (by rw [whole]; exact List.mem_append_left _ member)
    have left : 0 ∉ (element (skipSlashes path)).2 := fun member => bytes (by rw [whole]; exact List.mem_append_right _ member)
    have again : parts (skipSlashes (element (skipSlashes path)).2) = parts (element (skipSlashes path)).2 := by
      rw [parts,components_skipSlashes,parts]
    refine ⟨?_,skipSlashes_clean left,?_⟩
    · rw [cname_element first,again,parts,components_element clean start,List.map_cons,parts]
    · rw [again,skipSlashes_empty left,parts,List.map_eq_nil_iff]

theorem elements_parts (clean : 0 ∉ path) (name : Bytes.Store) : elements path name = parts path := by
  fun_induction elements path name with
  | case1 path name ended =>
    have turn := skipelem_parts clean name
    rw [ended] at turn
    exact turn.symm
  | case2 path name rest after found ih =>
    have turn := skipelem_parts clean name
    rw [found] at turn
    obtain ⟨first,left,_⟩ := turn
    rw [first,ih left]

def reach (L : Layout) (s : State) : Nat → List (List UInt8) → Option Nat
  | i,[] => some i
  | i,name :: names => if (dinodeAt (L.view s.log) i).type = 1 then ((entries L s i).get name).bind fun j => reach L s j names else none

def reachParent (L : Layout) (s : State) (i : Nat) (names : List (List UInt8)) : Option Nat :=
  if names = [] then none else (reach L s i names.dropLast).filter fun d => (dinodeAt (L.view s.log) d).type = 1

theorem reachParent_last (L : Layout) (s : State) (i : Nat) (name : List UInt8) :
    reachParent L s i [name] = if (dinodeAt (L.view s.log) i).type = 1 then some i else none := by
  simp [reachParent,reach,Option.filter]

theorem reachParent_cons (L : Layout) (s : State) (i : Nat) (name : List UInt8) (more : names ≠ []) :
    reachParent L s i (name :: names) =
      if (dinodeAt (L.view s.log) i).type = 1 then ((entries L s i).get name).bind fun j => reachParent L s j names else none := by
  rw [reachParent,if_neg (List.cons_ne_nil _ _),List.dropLast_cons_of_ne_nil more,reach]
  split
  · cases (entries L s i).get name with
    | none => rfl
    | some j => simp [reachParent,more]
  · rfl

def target (L : Layout) (s : State) (nameiparent : Bool) (i : Nat) (names : List (List UInt8)) : Option Nat :=
  if nameiparent then reachParent L s i names else reach L s i names

theorem target_file (other : (dinodeAt (L.view s.log) i).type ≠ 1) : target L s wanted i (name :: names) = none := by
  cases wanted with
  | false => simp [target,reach,other]
  | true =>
    cases names with
    | nil => simp [target,reachParent_last,other]
    | cons next names => simp [target,reachParent_cons,other]

theorem target_step (dir : (dinodeAt (L.view s.log) i).type = 1) (more : ¬ (wanted = true ∧ names = [])) :
    target L s wanted i (name :: names) = ((entries L s i).get name).bind fun j => target L s wanted j names := by
  cases wanted with
  | false => simp [target,reach,dir]
  | true => simp [target,reachParent_cons L s i name fun none => more ⟨rfl,none⟩,dir]

structure Named (L : Layout) (s : State) (dn : Nat → Dinode) (j : Nat) : Prop where
  small : j < L.ninodes
  kind : (dn j).type ≠ 0
  stays : (dn j).nlink ≠ 0 ∨ ∃ x, 0 < (s.icache x).ref ∧ (s.icache x).inum = j

-- The cache has every inode once, as it is on the disk, and only the one in the slot lock is locked.
structure Coherent (L : Layout) (s : State) (dn : Nat → Dinode) (lock : Option Nat) : Prop where
  files : Files L s dn
  held : s.held = []
  few : ∀ x, 0 < (s.icache x).ref → x < 50
  small : ∀ x, 0 < (s.icache x).ref → (s.icache x).inum < L.ninodes
  copy : ∀ x, 0 < (s.icache x).ref → (s.icache x).valid = true → dn (s.icache x).inum = (s.icache x).din
  kind : ∀ x, 0 < (s.icache x).ref → (dn (s.icache x).inum).type ≠ 0
  busy : ∀ x, 0 < (s.icache x).ref → (s.icache x).busy = decide (lock = some x)
  single : ∀ x y, 0 < (s.icache x).ref → 0 < (s.icache y).ref → (s.icache x).inum = (s.icache y).inum → x = y

structure Tree (L : Layout) (s : State) (dn : Nat → Dinode) : Prop where
  coherent : Coherent L s dn none
  root : Named L s dn ROOTINO
  whole : ∀ i < L.ninodes, (dn i).type = 1 → (dn i).size % 16 = 0
  named : ∀ i < L.ninodes, (dn i).type = 1 → ∀ k name j, (entries L s i).entry k = some (name,j) → Named L s dn j

-- From s to next the references in hand have come, and nothing else.
structure Since (L : Layout) (s next : State) (dn : Nat → Dinode) (lock : Option Nat) (hand : List Nat) : Prop where
  state : next = { s with icache := next.icache }
  coherent : Coherent L next dn lock
  ref : ∀ x, (next.icache x).ref = (s.icache x).ref + hand.count x
  live : ∀ x, 0 < (s.icache x).ref → (next.icache x).inum = (s.icache x).inum

section
variable {L : Layout} {s now next : State} {dn : Nat → Dinode} {E : Stop → State → Prop}

theorem Tree.since (tree : Tree L s dn) : Since L s s dn none [] :=
  ⟨rfl,tree.coherent,fun _ => by simp,fun _ _ => rfl⟩

theorem Since.log (since : Since L s now dn lock hand) : now.log = s.log := by rw [since.state]

theorem Since.used (since : Since L s now dn lock hand) (mine : ip ∈ hand) : 0 < (now.icache ip).ref := by
  have := List.count_pos_iff.mpr mine
  have := since.ref ip
  omega

theorem Since.cached (since : Since L s now dn none hand) (mine : ip ∈ hand) : Cached L now dn ip (now.icache ip).inum := by
  have used := since.used mine
  have coherent := since.coherent
  refine ⟨rfl,coherent.small ip used,used,?_,coherent.copy ip used,coherent.kind ip used⟩
  rw [coherent.busy ip used]
  rfl

structure Fits (L : Layout) (dn : Nat → Dinode) (lock : Option Nat) (ip : Nat) (v : Inode) : Prop where
  few : ip < 50
  small : v.inum < L.ninodes
  copy : v.valid = true → dn v.inum = v.din
  kind : (dn v.inum).type ≠ 0
  busy : v.busy = decide (lock = some ip)

theorem Coherent.slot (coherent : Coherent L now dn lock) (used : 0 < (now.icache ip).ref) : Fits L dn lock ip (now.icache ip) :=
  ⟨coherent.few ip used,coherent.small ip used,coherent.copy ip used,coherent.kind ip used,coherent.busy ip used⟩

theorem Coherent.update (coherent : Coherent L now dn old) (fits : 0 < v.ref → Fits L dn new ip v)
    (apart : 0 < v.ref → ∀ y, y ≠ ip → 0 < (now.icache y).ref → (now.icache y).inum ≠ v.inum)
    (locks : ∀ x, x ≠ ip → (new = some x ↔ old = some x)) :
    Coherent L { now with icache := Function.update now.icache ip v } dn new := by
  have each : ∀ x, 0 < (Function.update now.icache ip v x).ref → Fits L dn new x (Function.update now.icache ip v x) := by
    intro x used
    by_cases here : x = ip
    · subst here
      rw [update_self] at used ⊢
      exact fits used
    · rw [update_of_ne here] at used ⊢
      have slot := coherent.slot used
      exact ⟨slot.few,slot.small,slot.copy,slot.kind,by rw [slot.busy]; exact decide_eq_decide.mpr (locks x here).symm⟩
  refine ⟨coherent.files.moved coherent.files.calm.sane coherent.held rfl,coherent.held,fun x used => (each x used).few,fun x used => (each x used).small,
    fun x used => (each x used).copy,fun x used => (each x used).kind,fun x used => (each x used).busy,fun x y one two same => ?_⟩
  dsimp only at one two same
  by_cases first : x = ip
  · by_cases second : y = ip
    · rw [first,second]
    · rw [first,update_self] at one same
      rw [update_of_ne second] at two same
      exact absurd same.symm (apart one y second two)
  rw [update_of_ne first] at one same
  by_cases second : y = ip
  · rw [second,update_self] at two same
    exact absurd same (apart two x first one)
  · rw [update_of_ne second] at two same
    exact coherent.single x y one two same

theorem Since.update (since : Since L s now dn old hand) (coherent : Coherent L { now with icache := Function.update now.icache ip v } dn new)
    (ref : v.ref = (s.icache ip).ref + held.count ip) (rest : ∀ x, x ≠ ip → held.count x = hand.count x)
    (inum : 0 < (s.icache ip).ref → v.inum = (now.icache ip).inum) :
    Since L s { now with icache := Function.update now.icache ip v } dn new held := by
  refine ⟨?_,coherent,fun x => ?_,fun x used => ?_⟩
  · rw [since.state]
  · by_cases here : x = ip
    · subst here
      simp [ref]
    · simp [here,since.ref,rest x here]
  · by_cases here : x = ip
    · subst here
      rw [← since.live x used]
      simpa using inum used
    · simpa [here] using since.live x used

theorem Since.kept (since : Since L s now dn old hand) (used : 0 < (now.icache ip).ref) (inum : v.inum = (now.icache ip).inum)
    (copy : v.valid = true → dn v.inum = v.din) (busy : v.busy = decide (new = some ip)) (locks : ∀ x, x ≠ ip → (new = some x ↔ old = some x))
    (ref : v.ref = (s.icache ip).ref + held.count ip) (rest : ∀ x, x ≠ ip → held.count x = hand.count x) :
    Since L s { now with icache := Function.update now.icache ip v } dn new held := by
  have slot := since.coherent.slot used
  refine since.update (since.coherent.update (fun _ => ?_) (fun _ y other live same => ?_) locks) ref rest fun _ => inum
  · exact ⟨slot.few,by rw [inum]; exact slot.small,copy,by rw [inum]; exact slot.kind,busy⟩
  · exact other (since.coherent.single y ip live used (same.trans inum))

theorem Since.locked (since : Since L s now dn none hand) (mine : ip ∈ hand) :
    Since L s (now.locked ip (dn (now.icache ip).inum)) dn (some ip) hand :=
  since.kept (since.used mine) rfl (fun _ => rfl) (by simp) (fun x other => by simp [Ne.symm other]) (since.ref ip) fun _ _ => rfl

theorem Since.unlocked (since : Since L s now dn (some ip) hand) (mine : ip ∈ hand) :
    Since L s { now with icache := Function.update now.icache ip { now.icache ip with busy := false } } dn none hand :=
  since.kept (since.used mine) rfl (since.coherent.copy ip (since.used mine)) rfl (fun x other => by simp [Ne.symm other]) (since.ref ip) fun _ _ => rfl

theorem Since.dropped (since : Since L s now dn none hand) (mine : ip ∈ hand) :
    Since L s { now with icache := Function.update now.icache ip { now.icache ip with ref := (now.icache ip).ref-1 } } dn none (hand.erase ip) := by
  have used := since.used mine
  refine since.kept used rfl (since.coherent.copy ip used) (since.coherent.busy ip used) (fun _ _ => Iff.rfl) ?_ fun x other => ?_
  · have some := List.count_pos_iff.mpr mine
    have count := since.ref ip
    dsimp only
    rw [List.count_erase_self]
    omega
  · exact List.count_erase_of_ne other

theorem Since.got (since : Since L s now dn lock hand) (named : Named L s dn i) (small : ip < 50) (fresh : Fresh now ip i)
    (got : Got now next ip i) (held : ∀ x, lock = some x → x ∈ hand) : Since L s next dn lock (ip :: hand) := by
  have ref : (next.icache ip).ref = (s.icache ip).ref + (ip :: hand).count ip := by
    rw [got.ref,since.ref ip,List.count_cons_self]
    omega
  have rest : ∀ x, x ≠ ip → (ip :: hand).count x = hand.count x := fun x other => List.count_cons_of_ne (Ne.symm other)
  rw [got.state]
  rcases got.slot with ⟨used,slot⟩ | ⟨free,slot⟩
  · refine since.kept used (by rw [slot]) ?_ ?_ (fun _ _ => Iff.rfl) ref rest
    · rw [slot]; exact since.coherent.copy ip used
    · rw [slot]; exact since.coherent.busy ip used
  have open_ : lock ≠ some ip := fun locked => by
    have := since.used (held ip locked)
    omega
  refine since.update (since.coherent.update (fun _ => ?_) (fun _ y _ live => ?_) fun _ _ => Iff.rfl) ref rest fun used => ?_
  · rw [slot]
    exact ⟨small,named.small,fun valid => (by cases valid),named.kind,by simp [open_]⟩
  · rw [slot]
    exact fresh free y (since.coherent.few y live) live
  · have := since.ref ip
    omega

theorem Since.stays (since : Since L s now dn lock hand) (mine : ip ∈ hand) (named : Named L s dn (now.icache ip).inum) :
    ¬ ((now.icache ip).ref = 1 ∧ (now.icache ip).valid ∧ (now.icache ip).din.nlink = 0) := by
  rintro ⟨last,valid,unlinked⟩
  have used := since.used mine
  have count := since.ref ip
  have some := List.count_pos_iff.mpr mine
  rcases named.stays with linked | ⟨x,live,same⟩
  · rw [since.coherent.copy ip used valid] at linked
    exact linked unlinked
  · have here := since.coherent.single x ip (by rw [since.ref]; omega) used ((since.live x live).trans same)
    rw [here] at live
    omega

section
variable (f : Unit → M α) (Q : α → State → Prop) (since : Since L s now dn none hand) (mine : ip ∈ hand)
include f Q since mine

theorem sat_locked (rest : ∀ next, Since L s next dn (some ip) hand → (next.icache ip).valid = true → (next.icache ip).inum = (now.icache ip).inum → Sat (f ()) next E Q) :
    Sat (ilock ip >>= f) now E Q := by
  refine sat_ilock f Q since.coherent.files since.coherent.held (since.cached mine) (rest _ (since.locked mine) ?_ ?_)
  · simp [State.locked]
  · simp [State.locked]

theorem sat_dropped (named : Named L s dn (now.icache ip).inum)
    (rest : ∀ next, Since L s next dn none (hand.erase ip) → (∀ x, (next.icache x).inum = (now.icache x).inum) → Sat (f ()) next E Q) :
    Sat (iput ip >>= f) now E Q := by
  refine sat_iput f Q (since.stays mine named) (rest _ (since.dropped mine) fun x => ?_)
  by_cases here : x = ip
  · subst here; simp
  · simp [here]

end

section
variable (f : Unit → M α) (Q : α → State → Prop) (since : Since L s now dn (some ip) hand) (mine : ip ∈ hand)
include f Q since mine

theorem sat_unlocked (rest : ∀ next, Since L s next dn none hand → (∀ x, (next.icache x).inum = (now.icache x).inum) → Sat (f ()) next E Q) :
    Sat (iunlock ip >>= f) now E Q := by
  have used := since.used mine
  refine sat_iunlock f Q used (by rw [since.coherent.busy ip used]; simp) (rest _ (since.unlocked mine) fun x => ?_)
  by_cases here : x = ip
  · subst here; simp
  · simp [here]

theorem sat_iunlockput (named : Named L s dn (now.icache ip).inum)
    (rest : ∀ next, Since L s next dn none (hand.erase ip) → (∀ x, (next.icache x).inum = (now.icache x).inum) → Sat (f ()) next E Q) :
    Sat (iunlockput ip >>= f) now E Q := by
  rw [iunlockput,sat_bind]
  refine sat_unlocked _ _ since mine fun mid open_ same => (sat_bind ..).mp ?_
  refine sat_dropped f Q open_ mine (by rw [same]; exact named) fun next dropped kept => rest next dropped fun x => ?_
  rw [kept,same]

end

def Spots (s : State) : Prop := ∃ x y, x < 50 ∧ y < 50 ∧ x ≠ y ∧ (s.icache x).ref = 0 ∧ (s.icache y).ref = 0

def NoSlot (s : State) (e : Stop) (_ : State) : Prop := e = .panic .igetNoInodes ∧ ¬ Spots s

theorem Since.crowded (since : Since L s now dn lock hand) (one : hand.length ≤ 1) (all : ∀ x < 50, (now.icache x).ref ≠ 0) :
    NoSlot s (.panic .igetNoInodes) now := by
  refine ⟨rfl,?_⟩
  rintro ⟨x,y,first,second,apart,zero,free⟩
  have inside : ∀ z < 50, (s.icache z).ref = 0 → z ∈ hand := by
    intro z small none
    have := all z small
    have := since.ref z
    exact List.count_pos_iff.mp (by omega)
  cases hand with
  | nil => cases inside x first zero
  | cons ip more =>
    have last := List.length_eq_zero_iff.mp (Nat.le_zero.mp (Nat.le_of_succ_le_succ one))
    rw [last] at inside
    exact apart ((List.mem_singleton.mp (inside x first zero)).trans (List.mem_singleton.mp (inside y second free)).symm)

theorem Got.keeps (got : Got now next ip i) (used : 0 < (now.icache x).ref) : (next.icache x).inum = (now.icache x).inum := by
  by_cases here : x = ip
  · subst here
    rcases got.slot with ⟨_,eq⟩ | ⟨free,_⟩
    · rw [eq]
    · omega
  · rw [got.other here]

theorem Tree.step (tree : Tree L s dn) (since : Since L s now dn (some ip) [ip]) (valid : (now.icache ip).valid = true)
    (dir : (dn (now.icache ip).inum).type = 1) (name : Bytes.Store) :
    Sat (dirlookup ip name) now (NoSlot s) fun r next =>
      match (entries L s (now.icache ip).inum).get (cname 14 name) with
      | none => r = none ∧ next = now
      | some j => ∃ nx off, r = some (nx,off) ∧ Since L s next dn (some ip) [nx,ip] ∧ (next.icache nx).inum = j ∧ Named L s dn j ∧
          (next.icache ip).inum = (now.icache ip).inum := by
  have mine : ip ∈ [ip] := List.mem_singleton_self ip
  have used := since.used mine
  have coherent := since.coherent
  have small := coherent.small ip used
  have din : dn (now.icache ip).inum = (now.icache ip).din := coherent.copy ip used valid
  have readable : Readable L now ip := by
    refine ⟨?_,coherent.held,?_,?_,?_⟩
    · rw [← din]; exact coherent.files.owned.zoned _
    · rw [← din]; exact dir
    · rw [← din]; exact coherent.files.backed _
    · rw [← din]; exact tree.whole _ small dir
  have same : dirTable (L.view now.log) (now.icache ip).din = entries L s (now.icache ip).inum := by
    rw [since.log,← din,entries,tree.coherent.files.copies _ small]
  refine (dirlookup_spec readable (since.crowded (Nat.le_refl 1)) name).post ?_
  rw [same]
  intro r next found
  unfold Table.get
  cases here : (entries L s (now.icache ip).inum).find (cname 14 name) with
  | none =>
    rw [here] at found
    exact found
  | some k =>
    rw [here] at found
    obtain ⟨nx,v,rfl,few,entry,fresh,got⟩ := found
    have named := tree.named _ small dir k _ v entry
    rw [Option.bind_some,entry]
    refine ⟨nx,16*k,rfl,since.got named few fresh got (fun x locked => by simpa using locked.symm),got.inum,named,got.keeps used⟩

structure Answer (L : Layout) (s next : State) (dn : Nat → Dinode) (ip found : Option Nat) : Prop where
  since : Since L s next dn none ip.toList
  inum : ip.map (fun x => (next.icache x).inum) = found

theorem namexFrom_spec (tree : Tree L s dn) (wanted : Bool) : ∀ {names path name now ip}, 0 ∉ path → parts path = names →
    Since L s now dn none [ip] → Named L s dn (now.icache ip).inum →
    Sat (namexFrom wanted ip path name) now (NoSlot s) fun r next =>
      Answer L s next dn r.1 (target L s wanted (now.icache ip).inum names) ∧
      (wanted = true → r.1 ≠ none → names.getLast? = some (cname 14 r.2)) := by
  intro names
  induction names with
  | nil =>
    intro path name now ip clean ended since named
    have turn := skipelem_parts clean name
    rw [namexFrom]
    split
    · cases wanted with
      | false =>
        rw [if_neg (by decide)]
        exact .done ⟨⟨since,rfl⟩,fun no => (by cases no)⟩
      | true =>
        rw [if_pos rfl]
        refine sat_dropped _ _ since (List.mem_singleton_self ip) named fun next dropped _ => .done ?_
        rw [List.erase_cons_head] at dropped
        exact ⟨⟨dropped,by simp [target,reachParent]⟩,fun _ no => absurd rfl no⟩
    · rename_i found
      rw [found] at turn
      rw [ended] at turn
      cases turn.1
  | cons key names ih =>
    intro path name now ip clean more since named
    have turn := skipelem_parts clean name
    have mine : ip ∈ [ip] := List.mem_singleton_self ip
    rw [namexFrom]
    split
    · rename_i found
      rw [found] at turn
      rw [more] at turn
      cases turn
    rename_i rest after found
    rw [found] at turn
    obtain ⟨first,left,last⟩ := turn
    rw [more,List.cons.injEq] at first
    obtain ⟨rfl,rfl⟩ := first
    refine sat_locked _ _ since mine fun here locked valid inum => ?_
    rw [← inum] at named ⊢
    have copy := tree.coherent.files.copies _ named.small
    have din : (here.icache ip).din = dinodeAt (L.view s.log) (here.icache ip).inum := by
      rw [copy,locked.coherent.copy ip (locked.used mine) valid]
    rw [sat_inode]
    split
    · rename_i file
      refine sat_iunlockput _ _ locked mine named fun next dropped _ => .done ?_
      rw [List.erase_cons_head] at dropped
      rw [din] at file
      exact ⟨⟨dropped,(target_file file).symm⟩,fun _ no => absurd rfl no⟩
    rename_i dir
    rw [din,not_not] at dir
    split
    · rename_i stop
      refine sat_unlocked _ _ locked mine fun next open_ same => .done ⟨⟨open_,?_⟩,fun _ _ => ?_⟩
      · rw [Option.map_some,same,stop.1,last.mp stop.2,target,if_pos rfl,reachParent_last,if_pos dir]
      · rw [last.mp stop.2]
        rfl
    rename_i on
    rw [target_step dir (by rw [← last]; exact on)]
    refine (tree.step locked valid (by rw [← copy]; exact dir) after).bind ?_
    intro r mid step
    cases get : (entries L s (here.icache ip).inum).get (cname 14 after) with
    | none =>
      rw [get] at step
      obtain ⟨rfl,rfl⟩ := step
      refine sat_iunlockput _ _ locked mine named fun next dropped _ => .done ?_
      rw [List.erase_cons_head] at dropped
      exact ⟨⟨dropped,rfl⟩,fun _ no => absurd rfl no⟩
    | some j =>
      rw [get] at step
      obtain ⟨nx,off,rfl,since,there,child,kept⟩ := step
      refine sat_iunlockput _ _ since (by simp) (by rw [kept]; exact named) fun next dropped same => ?_
      have one : [nx,ip].erase ip = [nx] := by
        by_cases self : nx = ip
        · rw [self,List.erase_cons_head]
        · rw [List.erase_cons_tail (by simpa using self),List.erase_cons_head]
      have arrived : (next.icache nx).inum = j := (same nx).trans there
      rw [one] at dropped
      refine (ih left rfl dropped (by rw [arrived]; exact child)).post ?_
      rintro r last ⟨answer,name⟩
      rw [arrived] at answer
      refine ⟨answer,fun yes some => ?_⟩
      rw [List.getLast?_cons,name yes some]
      rfl

def origin (s : State) (cwd : Nat) (path : List UInt8) : Nat := if path.headD 0 = 47 then ROOTINO else (s.icache cwd).inum

theorem namex_spec (tree : Tree L s dn) (here : 0 < (s.icache cwd).ref) (clean : 0 ∉ path) (wanted : Bool) (name : Bytes.Store) :
    Sat (namex cwd path wanted name) s (NoSlot s) fun r next => Answer L s next dn r.1 (target L s wanted (origin s cwd path) (parts path)) ∧
      (wanted = true → r.1 ≠ none → (parts path).getLast? = some (cname 14 r.2)) := by
  have start := tree.since
  rw [namex,origin]
  split
  · refine (iget_spec (start.crowded (Nat.zero_le 1))).bind ?_
    rintro ip now ⟨few,fresh,got⟩
    have since := start.got tree.root few fresh got fun x none => (by cases none)
    rw [← got.inum]
    exact namexFrom_spec tree wanted clean rfl since (by rw [got.inum]; exact tree.root)
  rw [idup,sat_bind,sat_setInode,sat_pure]
  have slot := tree.coherent.slot here
  have since : Since L s { s with icache := Function.update s.icache cwd { s.icache cwd with ref := (s.icache cwd).ref+1 } } dn none [cwd] :=
    start.kept here rfl slot.copy slot.busy (fun _ _ => Iff.rfl) (by simp) fun x other => by simp [Ne.symm other]
  have inum : (Function.update s.icache cwd { s.icache cwd with ref := (s.icache cwd).ref+1 } cwd).inum = (s.icache cwd).inum := by simp
  have named : Named L s dn (s.icache cwd).inum := ⟨slot.small,slot.kind,.inr ⟨cwd,here,rfl⟩⟩
  refine (namexFrom_spec tree wanted clean rfl since (by rw [inum]; exact named)).post ?_
  rintro r next ⟨answer,last⟩
  rw [← inum]
  exact ⟨answer,last⟩

theorem paths_follow_components (tree : Tree L s dn) (here : 0 < (s.icache cwd).ref) (clean : 0 ∉ path) (name : Bytes.Store) :
    elements path name = parts path ∧
    Sat (namei cwd path name) s (NoSlot s) (fun ip next => Answer L s next dn ip (reach L s (origin s cwd path) (parts path))) ∧
    Sat (nameiparent cwd path name) s (NoSlot s) fun r next => Answer L s next dn r.1 (reachParent L s (origin s cwd path) (parts path)) ∧
      (r.1 ≠ none → (parts path).getLast? = some (cname 14 r.2)) := by
  refine ⟨elements_parts clean name,?_,?_⟩
  · refine (namex_spec tree here clean false name).bind ?_
    rintro r next ⟨answer,_⟩
    exact .done answer
  · refine (namex_spec tree here clean true name).post ?_
    rintro r next ⟨answer,last⟩
    exact ⟨answer,last rfl⟩

end

def selfBlock : Block := fun p => if p.val = 0 then 1 else if p.val = 2 then 97 else 0

theorem selfBlock_entry : ∀ k < 32, ∀ e ∈ (entries (solidLayout 1 (by decide)) (solidDir selfBlock) 1).entry k, e = ([97],1) := by decide +kernel

theorem selfBlock_tree : Tree (solidLayout 1 (by decide)) (solidDir selfBlock) (solidInodes 1 1) := by
  have quiet : Quiet (solidLayout 1 (by decide)) (solidDir selfBlock) (solidInodes 1 1) :=
    (solid_quiet (by decide) (by decide) fun _ => selfBlock).openFile 1 0
  have only : ∀ x, 0 < ((solidDir selfBlock).icache x).ref → x = 0 := by
    intro x used
    by_cases zero : x = 0
    · exact zero
    · simp [solidDir,State.openFile,mount,zero] at used
  have root : ∀ i, (solidInodes 1 1 i).type = 1 → i = 1 := by
    intro i type
    by_cases one : i = 1
    · exact one
    · simp [solidInodes,one,Dinode.zero] at type
  have named : Named (solidLayout 1 (by decide)) (solidDir selfBlock) (solidInodes 1 1) ROOTINO := ⟨by decide,by decide,.inl (by decide)⟩
  refine ⟨⟨quiet.files,quiet.held,?_,?_,?_,?_,?_,?_⟩,named,?_,?_⟩
  · intro x used; rw [only x used]; decide
  · intro x used; rw [only x used]; decide
  · intro x used valid; rw [only x used] at valid; cases valid
  · intro x used; rw [only x used]; decide
  · intro x used; rw [only x used]; rfl
  · intro x y one two _; rw [only x one,only y two]
  · intro i _ type; rw [root i type]; decide
  · intro i _ type k name j entry
    rw [root i type] at entry
    have inside : k < 32 := by
      by_contra out
      have past : ¬ k < (solidInodes 1 1 1).size/16 := out
      rw [entries_eq quiet.files (by decide)] at entry
      simp [table,dirTable,past] at entry
    cases selfBlock_entry k inside _ entry
    exact named

theorem path_to_root : ∃ next ip, namei 0 [47,97] (fun _ => 0) (solidDir selfBlock) = (.ok (some ip),next) ∧ (next.icache ip).inum = 1 := by
  have spots : Spots (solidDir selfBlock) := ⟨1,2,by decide,by decide,by decide,rfl,rfl⟩
  have walk := (paths_follow_components selfBlock_tree (show 0 < ((solidDir selfBlock).icache 0).ref by decide)
    (show (0 : UInt8) ∉ [47,97] by decide) fun _ => 0).2.1
  have there : reach (solidLayout 1 (by decide)) (solidDir selfBlock) (origin (solidDir selfBlock) 0 [47,97]) (parts [47,97]) = some 1 := by decide +kernel
  rw [there] at walk
  obtain ⟨r,next,ran,answer⟩ := (walk.mono (fun _ _ stop => stop.2 spots) fun _ _ done => done).returns
  cases r with
  | none => cases answer.inum
  | some ip => exact ⟨next,ip,ran,Option.some.inj answer.inum⟩

end Xv6.Fs.Core
