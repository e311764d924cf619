import Xv6.Vm.Memory

namespace Xv6.Vm
open Function (update update_of_ne update_self)
open Bytes Exec

-- Who holds which physical page. The page tables are read out of memory: a page
-- is a table, or mapped, because a present entry says so.

def tableOf (m : Bytes.Store) (d i : Nat) : Option Nat :=
  if Present (ld32 m (d+4*i)) then some (PTE_ADDR (ld32 m (d+4*i))) else none

def pteOf (m : Bytes.Store) (d v : Nat) : Nat :=
  match tableOf m d (v/1024) with
  | some t => ld32 m (t + 4*(v%1024))
  | none => 0

-- Pages that the kernel holds by name: a kernel stack of a process slot, a pipe,
-- and those a running call has in its hands.
inductive Tag where
  | kstack (slot : Nat)
  | pipe (file : Nat)
  | temp (k : Nat)
  deriving DecidableEq, Repr

inductive Space where
  | kernel
  | proc (slot : Nat)
  | fresh
  deriving DecidableEq, Repr

structure Owners where
  own : Tag → Option Nat
  dirs : Space → Option Nat
  free : List Nat

inductive Use where
  | free
  | own (t : Tag)
  | dir (a : Space)
  | table (a : Space) (i : Nat)
  | user (a : Space) (v : Nat)
  deriving DecidableEq, Repr

def Holds (m : Bytes.Store) (o : Owners) : Use → Nat → Prop
  | .free, p => p ∈ o.free
  | .own t, p => o.own t = some p
  | .dir a, p => o.dirs a = some p
  | .table a i, p => ∃ d, o.dirs a = some d ∧ i < 1024 ∧ tableOf m d i = some p
  -- KERNBASE is the first address of virtual page 524288
  | .user a v, p => ∃ d, o.dirs a = some d ∧ v < 524288 ∧ Present (pteOf m d v) ∧ PTE_ADDR (pteOf m d v) = p

def Managed (L : Layout) (p : Nat) : Prop := p % 4096 = 0 ∧ L.kend ≤ p ∧ p < 234881024

def Chain (m : Bytes.Store) : Nat → List Nat → Prop
  | head, [] => head = 0
  | head, p :: rest => head = p + 2147483648 ∧ Chain m (ld32 m p) rest

structure Custody (L : Layout) (m : Bytes.Store) (head : Nat) (o : Owners) : Prop where
  chain : Chain m head o.free
  nodup : o.free.Nodup
  exclusive : Holds m o u p → Holds m o w p → u = w
  managed : Holds m o u p → Managed L p
  kernel : o.dirs a = some d → 524288 ≤ v → v < 1048576 → Present (pteOf m d v) → ¬ UserBit (pteOf m d v)
  blank : o.dirs a = some d → v < 1048576 → ¬ Present (pteOf m d v) → pteOf m d v = 0

-- Whether the newest event about p is that it was freed.
def lastFreed (p : Nat) : List Event → Bool
  | [] => false
  | .alloc q :: older => if q = p then false else lastFreed p older
  | .free q :: older => if q = p then true else lastFreed p older

def Alternating : List Event → Prop
  | [] => True
  | .alloc _ :: older => Alternating older
  | .free q :: older => lastFreed q older = false ∧ Alternating older

structure Ok (L : Layout) (s : Machine) (o : Owners) : Prop where
  custody : Custody L s.mem s.freelist o
  alternating : Alternating s.events
  freed : lastFreed p s.events = true → p ∈ o.free

section Words

theorem or_one (n : Nat) : n ||| 1 = n + 1 - n%2 := by
  have double : ∀ q, 2*q ||| 1 = 2*q+1 := fun q => by
    have sum := Nat.shiftLeft_add_eq_or_of_lt (i := 1) (b := 1) (by decide) q
    exact sum.symm
  rcases Nat.mod_two_eq_zero_or_one n with even | odd
  · have at_half := double (n/2)
    rw [show 2*(n/2) = n by omega] at at_half
    omega
  have at_half := double (n/2)
  have self : n = 2*(n/2) ||| 1 := by omega
  have idem : n ||| 1 = n := by
    rw [self,Nat.or_assoc]; simp
  omega

section
variable (aligned : p % 4096 = 0) (small : f < 4096)
include aligned small

theorem or_flags : p ||| f = p + f := by
  have power : (2:Nat)^12 = 4096 := by decide
  have whole : p/4096 * 4096 = p := by omega
  have sum := Nat.shiftLeft_add_eq_or_of_lt (power.symm ▸ small) (p/4096)
  rw [Nat.shiftLeft_eq,power,whole] at sum
  exact sum.symm

theorem entry_eq : p ||| f ||| 1 = p + (f + 1 - f%2) := by
  rw [Nat.or_assoc,or_one,or_flags aligned (by omega)]

theorem entry_parts (w : Nat) (word : w = p ||| f ||| 1) :
    Present w ∧ PTE_ADDR w = p ∧ (UserBit w ↔ UserBit f) ∧ w < p + 4096 := by
  rw [entry_eq aligned small] at word
  unfold Present PTE_ADDR UserBit
  omega

end

end Words

section Frames
variable {m n : Bytes.Store}

def SamePage (m n : Bytes.Store) (p : Nat) : Prop := ∀ x, p ≤ x → x < p+4096 → n x = m x

theorem fill_away (m : Bytes.Store) (page : p % 4096 = 0) : ∀ q, q % 4096 = 0 → q ≠ p → SamePage m (fill m p 4096 0) q :=
  fun _ _ _ _ _ _ => copy_out _ _ (by omega)

theorem update_back [DecidableEq α] {f : α → Option Nat} (vacant : f t = none) : update (update f t (some p)) t none = f := by
  rw [Function.update_idem,← vacant,Function.update_eq_self]

theorem update_none [DecidableEq α] {f : α → Option β} (found : update f a none b = some x) : b ≠ a ∧ f b = some x := by
  by_cases same : b = a
  · subst same
    rw [update_self] at found
    cases found
  · rw [update_of_ne same] at found
    exact ⟨same,found⟩

theorem SamePage.ld32 (same : SamePage m n p) (low : p ≤ x) (high : x+4 ≤ p+4096) : ld32 n x = ld32 m x :=
  ld32_congr fun t small => same _ (by omega) (by omega)

theorem SamePage.trans (one : SamePage m n p) (two : SamePage n k p) : SamePage m k p :=
  fun x low high => (two x low high).trans (one x low high)

theorem samePage_copy (src : Bytes.Store) (inside : o+len ≤ 4096) (p_page : p % 4096 = 0) (q_page : q % 4096 = 0)
    (other : p ≠ q) : SamePage m (copy m (q+o) len src) p :=
  fun x low high => copy_out _ _ (by omega)

theorem tableOf_same (same : SamePage m n d) (small : i < 1024) : tableOf n d i = tableOf m d i := by
  unfold tableOf; rw [same.ld32 (by omega) (by omega)]

theorem pteOf_same (same : SamePage m n d) (small : v < 1048576)
    (tables : ∀ t, tableOf m d (v/1024) = some t → SamePage m n t) : pteOf n d v = pteOf m d v := by
  unfold pteOf
  rw [tableOf_same same (by omega)]
  cases found : tableOf m d (v/1024) with
  | none => rfl
  | some t => exact (tables t found).ld32 (by omega) (by omega)

theorem chain_same (chain : Chain m head free) (pages : ∀ p ∈ free, SamePage m n p) : Chain n head free := by
  induction free generalizing head with
  | nil => exact chain
  | cons p rest ih =>
    refine ⟨chain.1,?_⟩
    rw [(pages p (List.mem_cons_self ..)).ld32 (by omega) (by omega)]
    exact ih chain.2 fun q member => pages q (.tail _ member)

structure SameView (m n : Bytes.Store) (dirs : Space → Option Nat) : Prop where
  table : dirs a = some d → i < 1024 → tableOf n d i = tableOf m d i
  pte : dirs a = some d → v < 1048576 → pteOf n d v = pteOf m d v

theorem SameView.trans (one : SameView m n dirs) (two : SameView n k dirs) : SameView m k dirs :=
  ⟨fun dir small => (two.table dir small).trans (one.table dir small),
   fun dir small => (two.pte dir small).trans (one.pte dir small)⟩

theorem SameView.refl (m : Bytes.Store) (dirs : Space → Option Nat) : SameView m m dirs := ⟨fun _ _ => rfl,fun _ _ => rfl⟩

theorem SameView.holds (same : SameView m n o.dirs) : Holds n o u p ↔ Holds m o u p := by
  cases u with
  | free => exact Iff.rfl
  | own t => exact Iff.rfl
  | dir a => exact Iff.rfl
  | table a i =>
    constructor
    · rintro ⟨d,dir,small,at_i⟩; exact ⟨d,dir,small,by rwa [same.table dir small] at at_i⟩
    · rintro ⟨d,dir,small,at_i⟩; exact ⟨d,dir,small,by rwa [same.table dir small]⟩
  | user a v =>
    constructor
    · rintro ⟨d,dir,small,held⟩; exact ⟨d,dir,small,by rwa [same.pte dir (by omega)] at held⟩
    · rintro ⟨d,dir,small,held⟩; exact ⟨d,dir,small,by rwa [same.pte dir (by omega)]⟩
end Frames

section Custody
variable {L : Layout} {m n : Bytes.Store} {head : Nat} {o : Owners}

theorem view_of_pages
    (dirs : ∀ a d, o.dirs a = some d → SamePage m n d)
    (tables : ∀ a i t, Holds m o (.table a i) t → SamePage m n t) : SameView m n o.dirs where
  table dir small := tableOf_same (dirs _ _ dir) small
  pte dir small := pteOf_same (dirs _ _ dir) small
    fun t found => tables _ _ t ⟨_,dir,by omega,found⟩

theorem Custody.of_view (held : Custody L m head o) (same : SameView m n o.dirs)
    (pages : ∀ p ∈ o.free, SamePage m n p) : Custody L n head o where
  chain := chain_same held.chain pages
  nodup := held.nodup
  exclusive one two := held.exclusive (same.holds.mp one) (same.holds.mp two)
  managed one := held.managed (same.holds.mp one)
  kernel dir low high := by rw [same.pte dir high]; exact held.kernel dir low high
  blank dir high := by rw [same.pte dir high]; exact held.blank dir high

def Loose (m : Bytes.Store) (o : Owners) (q : Nat) : Prop :=
  q ∉ o.free ∧ (∀ a, o.dirs a ≠ some q) ∧ ∀ a i, ¬ Holds m o (.table a i) q

section
variable (held : Custody L m head o)
include held

theorem Custody.loose_use (use : Holds m o u q) (none : u ≠ .free ∧ (∀ a, u ≠ .dir a) ∧ ∀ a i, u ≠ .table a i) :
    Loose m o q :=
  ⟨fun free => none.1 (held.exclusive use free),fun a dir => none.2.1 a (held.exclusive use dir),fun a i table => none.2.2 a i (held.exclusive use table)⟩

theorem Custody.loose_own (own : o.own t = some q) : Loose m o q := held.loose_use (u := .own t) own (by simp)

theorem Custody.loose_user (use : Holds m o (.user a v) q) : Loose m o q := held.loose_use use (by simp)

theorem Custody.loose_unmanaged (unmanaged : ¬ Managed L q) : Loose m o q :=
  ⟨fun free => unmanaged (held.managed (u := .free) free),
   fun a dir => unmanaged (held.managed (u := .dir a) dir),
   fun _ _ table => unmanaged (held.managed table)⟩

end

section
variable (held : Custody L m head o) (loose : Loose m o q) (others : ∀ p, p % 4096 = 0 → p ≠ q → SamePage m n p)
include held loose others

theorem Custody.loose_view :
    SameView m n o.dirs ∧ ∀ p ∈ o.free, SamePage m n p := by
  refine ⟨view_of_pages (fun a d dir => ?_) (fun a i t table => ?_),fun p free => ?_⟩
  · exact others d (held.managed (u := .dir a) dir).1 fun same => loose.2.1 a (same ▸ dir)
  · exact others t (held.managed table).1 fun same => loose.2.2 a i (same ▸ table)
  · exact others p (held.managed (u := .free) free).1 fun same => loose.1 (same ▸ free)

theorem Custody.write : Custody L n head o := by
  obtain ⟨view,pages⟩ := held.loose_view loose others
  exact held.of_view view pages

end

theorem Holds.of_fewer (fewer : ∀ t p, own t = some p → o.own t = some p) (less : ∀ a d, dirs a = some d → o.dirs a = some d)
    (use : Holds m ⟨own,dirs,o.free⟩ u p) : Holds m o u p := by
  cases u with
  | free => exact use
  | own t => exact fewer t p use
  | dir a => exact less a p use
  | table a i => obtain ⟨d,dir,rest⟩ := use; exact ⟨d,less a d dir,rest⟩
  | user a v => obtain ⟨d,dir,rest⟩ := use; exact ⟨d,less a d dir,rest⟩

section
variable (held : Custody L m head o)
include held

theorem Custody.forget (own : Tag → Option Nat) (dirs : Space → Option Nat)
    (fewer : ∀ t p, own t = some p → o.own t = some p) (less : ∀ a d, dirs a = some d → o.dirs a = some d) :
    Custody L m head ⟨own,dirs,o.free⟩ := by
  have back : ∀ {u p}, Holds m ⟨own,dirs,o.free⟩ u p → Holds m o u p := .of_fewer fewer less
  exact ⟨held.chain,held.nodup,fun one two => held.exclusive (back one) (back two),
    fun one => held.managed (back one),fun dir => held.kernel (less _ _ dir),fun dir => held.blank (less _ _ dir)⟩

theorem Custody.rename (f : Tag → Tag) (g : Space → Space)
    (tags : ∀ {x y}, f x = f y → x = y) (spaces : ∀ {x y}, g x = g y → x = y) :
    Custody L m head ⟨fun t => o.own (f t),fun a => o.dirs (g a),o.free⟩ := by
  let old : Use → Use
    | .free => .free
    | .own t => .own (f t)
    | .dir a => .dir (g a)
    | .table a i => .table (g a) i
    | .user a v => .user (g a) v
  have back : ∀ {u p}, Holds m ⟨fun t => o.own (f t),fun a => o.dirs (g a),o.free⟩ u p → Holds m o (old u) p := by
    intro u p use
    cases u <;> exact use
  have injective : ∀ {u w}, old u = old w → u = w := by
    intro u w same
    cases u <;> cases w <;> simp only [old,Use.own.injEq,Use.dir.injEq,Use.table.injEq,Use.user.injEq,reduceCtorEq] at same
    · rfl
    · rw [tags same]
    · rw [spaces same]
    · rw [spaces same.1,same.2]
    · rw [spaces same.1,same.2]
  exact ⟨held.chain,held.nodup,fun one two => injective (held.exclusive (back one) (back two)),
    fun one => held.managed (back one),held.kernel,held.blank⟩

-- Every use but x was there before, and what x holds has changed hands.
theorem Custody.moved (x : Use) (chain : Chain n head' o'.free) (nodup : o'.free.Nodup)
    (kernel : ∀ {a d v}, o'.dirs a = some d → 524288 ≤ v → v < 1048576 → Present (pteOf n d v) → ¬ UserBit (pteOf n d v))
    (blank : ∀ {a d v}, o'.dirs a = some d → v < 1048576 → ¬ Present (pteOf n d v) → pteOf n d v = 0)
    (back : ∀ {u q}, u ≠ x → Holds n o' u q → Holds m o u q)
    (here : ∀ {q}, Holds n o' x q → ∃ y, Holds m o y q ∧ (y = x ∨ ¬ Holds n o' y q)) : Custody L n head' o' := by
  have only : ∀ {w q}, Holds n o' x q → w ≠ x → ¬ Holds n o' w q := by
    intro w q use other also
    obtain ⟨y,old,rfl | gone⟩ := here use
    · exact other (held.exclusive (back other also) old)
    · exact gone (held.exclusive (back other also) old ▸ also)
  refine ⟨chain,nodup,fun {u q w} one two => ?_,fun {u q} use => ?_,kernel,blank⟩
  · by_cases first : u = x
    · subst first
      by_contra other
      exact only one (Ne.symm other) two
    · by_cases second : w = x
      · exact (only (second ▸ two) first one).elim
      · exact held.exclusive (back first one) (back second two)
  · by_cases same : u = x
    · obtain ⟨y,old,_⟩ := here (same ▸ use)
      exact held.managed old
    · exact held.managed (back same use)

theorem Custody.take (list : o.free = p :: rest) :
    Custody L m (ld32 m p) ⟨update o.own t (some p),o.dirs,rest⟩ := by
  have chain := held.chain
  have nodup := held.nodup
  rw [list] at chain nodup
  refine held.moved (.own t) chain.2 (List.nodup_cons.mp nodup).2 held.kernel held.blank (fun {u q} other use => ?_) fun {q} use => ?_
  · cases u with
    | free => exact show q ∈ o.free from list ▸ List.mem_cons_of_mem p use
    | own k => exact (update_of_ne (fun same => other (congrArg _ same)) _ o.own).symm.trans use
    | dir a => exact use
    | table a i => exact use
    | user a v => exact use
  · cases (update_self t (some p) o.own).symm.trans (show update o.own t (some p) t = some q from use)
    exact ⟨.free,show p ∈ o.free from list ▸ List.mem_cons_self,.inr (List.nodup_cons.mp nodup).1⟩

theorem Custody.give_uses (unheld : ∀ u, ¬ Holds m o u p)
    (others : ∀ q, q % 4096 = 0 → q ≠ p → SamePage m n q) (use : Holds n ⟨o.own,o.dirs,p :: o.free⟩ u q) :
    (u = .free ∧ q = p) ∨ (q ≠ p ∧ Holds m o u q) := by
  have loose : Loose m o p := ⟨unheld .free,fun a => unheld (.dir a),fun a i => unheld (.table a i)⟩
  obtain ⟨view,_⟩ := held.loose_view loose others
  have old : (u = .free ∧ q = p) ∨ Holds m o u q := by
    cases u with
    | free =>
      rcases List.mem_cons.mp use with rfl | member
      · exact .inl ⟨rfl,rfl⟩
      · exact .inr member
    | own t => exact .inr use
    | dir a => exact .inr use
    | table a i => exact .inr ((view.holds).mp use)
    | user a v => exact .inr ((view.holds).mp use)
  exact old.imp id fun old => ⟨fun same => unheld u (same ▸ old),old⟩

theorem Custody.give (managed : Managed L p) (unheld : ∀ u, ¬ Holds m o u p)
    (others : ∀ q, q % 4096 = 0 → q ≠ p → SamePage m n q) (next : ld32 n p = head) :
    Custody L n (p+2147483648) ⟨o.own,o.dirs,p :: o.free⟩ := by
  have loose : Loose m o p := ⟨unheld .free,fun a => unheld (.dir a),fun a i => unheld (.table a i)⟩
  obtain ⟨view,pages⟩ := held.loose_view loose others
  have back : ∀ {u q}, Holds n ⟨o.own,o.dirs,p :: o.free⟩ u q → (u = .free ∧ q = p) ∨ (q ≠ p ∧ Holds m o u q) :=
    held.give_uses unheld others
  refine ⟨⟨rfl,?_⟩,List.nodup_cons.mpr ⟨unheld .free,held.nodup⟩,fun one two => ?_,fun one => ?_,?_,?_⟩
  · rw [next]; exact chain_same held.chain pages
  · rcases back one with ⟨rfl,rfl⟩ | ⟨ne,old⟩
    · rcases back two with ⟨rfl,_⟩ | ⟨ne,_⟩
      · rfl
      · exact absurd rfl ne
    · rcases back two with ⟨_,rfl⟩ | ⟨_,old'⟩
      · exact absurd rfl ne
      · exact held.exclusive old old'
  · rcases back one with ⟨_,rfl⟩ | ⟨_,old⟩
    · exact managed
    · exact held.managed old
  · intro a d v dir low high
    rw [view.pte dir high]; exact held.kernel dir low high
  · intro a d v dir high
    rw [view.pte dir high]; exact held.blank dir high

end

section
variable (held : Custody L m head o) (dir : o.dirs a = some d) (small : v < 1048576) (table : tableOf m d (v/1024) = some t) (word : w < 4294967296)
include held dir small table word

theorem Custody.entry_view (n : Bytes.Store) (wrote : n = st32 m (t+4*(v%1024)) w) :
    (∀ b e i, o.dirs b = some e → i < 1024 → tableOf n e i = tableOf m e i) ∧ pteOf n d v = w ∧
    (∀ b e k, o.dirs b = some e → k < 1048576 → (b,k) ≠ (a,v) → pteOf n e k = pteOf m e k) := by
  have use : Holds m o (.table a (v/1024)) t := ⟨d,dir,by omega,table⟩
  have page := (held.managed use).1
  have others : ∀ p, p % 4096 = 0 → p ≠ t → SamePage m n p := fun p aligned other => by
    rw [wrote]; exact samePage_copy _ (by omega) aligned page other
  have dirs : ∀ b e, o.dirs b = some e → SamePage m n e := fun b e dir' =>
    others e (held.managed (u := .dir b) dir').1 fun same => by
      cases held.exclusive (show Holds m o (.dir b) t from same ▸ dir') use
  have tables : ∀ b e i, o.dirs b = some e → i < 1024 → tableOf n e i = tableOf m e i :=
    fun b e i dir' inside => tableOf_same (dirs b e dir') inside
  refine ⟨tables,?_,fun b e k dir' inside other => ?_⟩
  · unfold pteOf
    rw [tables a d _ dir (by omega),table]
    show ld32 n (t+4*(v%1024)) = w
    rw [wrote,ld32_st32,Nat.mod_eq_of_lt word]
  · unfold pteOf
    rw [tables b e _ dir' (by omega)]
    cases found : tableOf m e (k/1024) with
    | none => rfl
    | some t' =>
      have use' : Holds m o (.table b (k/1024)) t' := ⟨e,dir',by omega,found⟩
      by_cases same : t' = t
      · subst same
        obtain ⟨rfl,index⟩ := Use.table.inj (held.exclusive use' use)
        have slot : k%1024 ≠ v%1024 := fun equal => other (by rw [show k = v by omega])
        rw [wrote]; exact ld32_st32_out _ (by omega)
      · exact (others t' (held.managed use').1 same).ld32 (by omega) (by omega)

theorem Custody.entry (own : Tag → Option Nat)
    (fewer : ∀ k p, own k = some p → o.own k = some p)
    (source : v < 524288 → Present w → (Present (pteOf m d v) ∧ PTE_ADDR w = PTE_ADDR (pteOf m d v)) ∨
      ∃ k, o.own k = some (PTE_ADDR w) ∧ own k = none)
    (kernel : 524288 ≤ v → Present w → ¬ UserBit w) (whole : ¬ Present w → w = 0) :
    Custody L (st32 m (t+4*(v%1024)) w) head ⟨own,o.dirs,o.free⟩ := by
  obtain ⟨tables,at_v,elsewhere⟩ := held.entry_view dir small table word _ rfl
  have use : Holds m o (.table a (v/1024)) t := ⟨d,dir,by omega,table⟩
  refine held.moved (.user a v) (chain_same held.chain fun p free => ?_) held.nodup ?_ ?_ (fun {u p} other now => ?_) fun {p} now => ?_
  · refine samePage_copy _ (by omega) (held.managed (u := .free) free).1 (held.managed use).1 ?_
    rintro rfl
    cases held.exclusive use (show Holds m o .free p from free)
  · intro b e k dir' low high
    by_cases same : (b,k) = (a,v)
    · cases same
      cases dir.symm.trans dir' with
      | refl => rw [at_v]; exact kernel low
    · rw [elsewhere b e k dir' high same]; exact held.kernel dir' low high
  · intro b e k dir' high
    by_cases same : (b,k) = (a,v)
    · cases same
      cases dir.symm.trans dir' with
      | refl => rw [at_v]; exact whole
    · rw [elsewhere b e k dir' high same]; exact held.blank dir' high
  · cases u with
    | free => exact now
    | own k => exact fewer k p now
    | dir b => exact now
    | table b i =>
      obtain ⟨e,dir',inside,found⟩ := now
      exact ⟨e,dir',inside,tables b e i dir' inside ▸ found⟩
    | user b k =>
      obtain ⟨e,dir',inside,mapped⟩ := now
      rw [elsewhere b e k dir' (by omega) fun same => by cases same; exact other rfl] at mapped
      exact ⟨e,dir',inside,mapped⟩
  · obtain ⟨e,dir',inside,mapped⟩ := now
    cases dir.symm.trans dir'
    rw [at_v] at mapped
    obtain ⟨present,rfl⟩ := mapped
    rcases source inside present with ⟨was,same⟩ | ⟨k,mine,gone⟩
    · exact ⟨.user a v,⟨d,dir,inside,was,same.symm⟩,.inl rfl⟩
    · exact ⟨.own k,mine,.inr fun still => nomatch gone.symm.trans still⟩

end

def ZeroPage (m : Bytes.Store) (p : Nat) : Prop := ∀ x, p ≤ x → x < p+4096 → m x = 0

theorem ZeroPage.ld32 (zero : ZeroPage m p) (low : p ≤ x) (high : x+4 ≤ p+4096) : ld32 m x = 0 :=
  ld32_zero fun t small => zero _ (by omega) (by omega)

theorem Custody.attach_view (held : Custody L m head o) (dir : o.dirs a = some d) (small : i < 1024)
    (absent : tableOf m d i = none) (mine : o.own t = some p) (zero : ZeroPage m p)
    (n : Bytes.Store) (wrote : n = st32 m (d+4*i) (p ||| 7)) :
    tableOf n d i = some p ∧
    (∀ b e j, o.dirs b = some e → j < 1024 → (b,j) ≠ (a,i) → tableOf n e j = tableOf m e j) ∧
    (∀ b e v, o.dirs b = some e → v < 1048576 → pteOf n e v = pteOf m e v) := by
  have managed := held.managed (u := .own t) mine
  obtain ⟨aligned,_,top⟩ := managed
  have d_page := (held.managed (u := .dir a) dir).1
  have others : ∀ q, q % 4096 = 0 → q ≠ d → SamePage m n q := fun q page other => by
    rw [wrote]; exact samePage_copy _ (by omega) page d_page other
  have attached : tableOf n d i = some p := by
    unfold tableOf
    rw [wrote,ld32_st32,or_flags aligned (by decide),Nat.mod_eq_of_lt (by omega)]
    have present : Present (p+7) := by unfold Present; omega
    have addr : PTE_ADDR (p+7) = p := by unfold PTE_ADDR; omega
    rw [if_pos present,addr]
  have tables : ∀ b e j, o.dirs b = some e → j < 1024 → (b,j) ≠ (a,i) → tableOf n e j = tableOf m e j := by
    intro b e j dir' inside other
    by_cases same : e = d
    · subst same
      cases held.exclusive (show Holds m o (.dir b) e from dir') (show Holds m o (.dir a) e from dir) with
      | refl =>
        have slot : j ≠ i := fun equal => other (by rw [equal])
        unfold tableOf
        rw [wrote,ld32_st32_out _ (by omega)]
    · exact tableOf_same (others e (held.managed (u := .dir b) dir').1 same) inside
  refine ⟨attached,tables,fun b e v dir' inside => ?_⟩
  by_cases same : (b,v/1024) = (a,i)
  · cases same
    cases dir.symm.trans dir' with
    | refl =>
      unfold pteOf
      rw [attached,absent]
      have other : p ≠ d := by
        rintro rfl
        cases held.exclusive (show Holds m o (.own t) p from mine) (show Holds m o (.dir _) p from dir)
      show Bytes.ld32 n (p+4*(v%1024)) = 0
      rw [(others p aligned other).ld32 (by omega) (by omega)]
      exact zero.ld32 (by omega) (by omega)
  · unfold pteOf
    rw [tables b e _ dir' (by omega) same]
    cases found : tableOf m e (v/1024) with
    | none => rfl
    | some t' =>
      have use : Holds m o (.table b (v/1024)) t' := ⟨e,dir',by omega,found⟩
      refine (others t' (held.managed use).1 ?_).ld32 (by omega) (by omega)
      rintro rfl
      cases held.exclusive use (show Holds m o (.dir a) t' from dir)

theorem own_left (use : Holds m ⟨update o.own t none,dirs,free⟩ (.own k) q) : Holds m o (.own k) q := (update_none use).2

theorem own_gone : ¬ Holds m ⟨update o.own t none,dirs,free⟩ (.own t) q := by simp [Holds]

theorem Custody.attach (held : Custody L m head o) (dir : o.dirs a = some d) (small : i < 1024)
    (absent : tableOf m d i = none) (mine : o.own t = some p) (zero : ZeroPage m p) :
    Custody L (st32 m (d+4*i) (p ||| 7)) head ⟨update o.own t none,o.dirs,o.free⟩ := by
  obtain ⟨attached,tables,ptes⟩ := held.attach_view dir small absent mine zero _ rfl
  refine held.moved (.table a i) (chain_same held.chain fun q free => ?_) held.nodup ?_ ?_ (fun {u q} other use => ?_) fun {q} use => ?_
  · refine samePage_copy _ (by omega) (held.managed (u := .free) free).1 (held.managed (u := .dir a) dir).1 ?_
    rintro rfl
    cases held.exclusive (show Holds m o .free q from free) (show Holds m o (.dir a) q from dir)
  · intro b e v dir' low high
    rw [ptes b e v dir' high]; exact held.kernel dir' low high
  · intro b e v dir' high
    rw [ptes b e v dir' high]; exact held.blank dir' high
  · cases u with
    | free => exact use
    | own k => exact own_left use
    | dir b => exact use
    | table b j =>
      obtain ⟨e,dir',inside,found⟩ := use
      rw [tables b e j dir' inside fun same => by cases same; exact other rfl] at found
      exact ⟨e,dir',inside,found⟩
    | user b v =>
      obtain ⟨e,dir',inside,mapped⟩ := use
      rw [ptes b e v dir' (by omega)] at mapped
      exact ⟨e,dir',inside,mapped⟩
  · obtain ⟨e,dir',inside,found⟩ := use
    cases dir.symm.trans dir'
    rw [attached] at found
    cases found
    exact ⟨.own t,mine,.inr own_gone⟩

theorem ZeroPage.tableOf (zero : ZeroPage m p) (small : i < 1024) : tableOf m p i = none := by
  unfold Vm.tableOf
  rw [zero.ld32 (by omega) (by omega)]
  rfl

theorem ZeroPage.pteOf (zero : ZeroPage m p) (small : v < 1048576) : pteOf m p v = 0 := by
  unfold Vm.pteOf
  rw [zero.tableOf (by omega)]

theorem Custody.install (held : Custody L m head o) (vacant : o.dirs a = none) (mine : o.own t = some p)
    (zero : ZeroPage m p) :
    Custody L m head ⟨update o.own t none,update o.dirs a (some p),o.free⟩ := by
  have dirs : ∀ {b e}, update o.dirs a (some p) b = some e → (b = a ∧ e = p) ∨ (b ≠ a ∧ o.dirs b = some e) := by
    intro b e dir
    by_cases same : b = a
    · subst same; rw [update_self] at dir; exact .inl ⟨rfl,(Option.some.inj dir).symm⟩
    · rw [update_of_ne same] at dir; exact .inr ⟨same,dir⟩
  refine held.moved (.dir a) held.chain held.nodup ?_ ?_ (fun {u q} other use => ?_) fun {q} use => ?_
  · intro b e v dir low high
    rcases dirs dir with ⟨_,rfl⟩ | ⟨_,dir⟩
    · rw [zero.pteOf high]; intro present; cases present
    · exact held.kernel dir low high
  · intro b e v dir high
    rcases dirs dir with ⟨_,rfl⟩ | ⟨_,dir⟩
    · exact fun _ => zero.pteOf high
    · exact held.blank dir high
  · cases u with
    | free => exact use
    | own k => exact own_left use
    | dir b => exact ((dirs use).resolve_left fun same => other (congrArg _ same.1)).2
    | table b j =>
      obtain ⟨e,dir,inside,found⟩ := use
      rcases dirs dir with ⟨_,rfl⟩ | ⟨_,dir⟩
      · rw [zero.tableOf inside] at found; cases found
      · exact ⟨e,dir,inside,found⟩
    | user b v =>
      obtain ⟨e,dir,inside,present,addr⟩ := use
      rcases dirs dir with ⟨_,rfl⟩ | ⟨_,dir⟩
      · rw [zero.pteOf (by omega)] at present; cases present
      · exact ⟨e,dir,inside,present,addr⟩
  · rcases dirs use with ⟨_,rfl⟩ | ⟨ne,_⟩
    · exact ⟨.own t,mine,.inr own_gone⟩
    · exact absurd rfl ne

def Use.In (a : Space) : Use → Prop
  | .dir b => b = a
  | .table b _ => b = a
  | .user b _ => b = a
  | _ => False

theorem Custody.pin (held : Custody L m head o) (own : Tag → Option Nat) (origin : Tag → Use)
    (holds : ∀ {k p}, own k = some p → Holds m o (origin k) p)
    (apart : ∀ {j k p}, own j = some p → own k = some p → origin j = origin k → j = k)
    (source : ∀ {k p}, own k = some p → origin k = .own k ∨ (origin k).In a) :
    Custody L m head ⟨own,update o.dirs a none,o.free⟩ := by
  -- a use is a tag's, or it was there before, outside the address space
  have back : ∀ {u q}, Holds m ⟨own,update o.dirs a none,o.free⟩ u q →
      (∃ k, u = .own k ∧ own k = some q) ∨ (Holds m o u q ∧ (∀ k, u ≠ .own k) ∧ ¬ u.In a) := by
    intro u q use
    cases u with
    | free => exact .inr ⟨use,by simp,id⟩
    | own k => exact .inl ⟨k,rfl,use⟩
    | dir b =>
      obtain ⟨ne,dir⟩ := update_none use
      exact .inr ⟨dir,by simp,ne⟩
    | table b i =>
      obtain ⟨e,dir,rest⟩ := use
      obtain ⟨ne,dir⟩ := update_none dir
      exact .inr ⟨⟨e,dir,rest⟩,by simp,ne⟩
    | user b v =>
      obtain ⟨e,dir,rest⟩ := use
      obtain ⟨ne,dir⟩ := update_none dir
      exact .inr ⟨⟨e,dir,rest⟩,by simp,ne⟩
  have never : ∀ {k q w}, own k = some q → Holds m o w q → (∀ j, w ≠ .own j) → ¬ w.In a → False := by
    intro k q w mine use no_tag outside
    have same := held.exclusive (holds mine) use
    rcases source mine with tag | inside
    · exact no_tag k (same.symm.trans tag)
    · exact outside (same ▸ inside)
  refine ⟨held.chain,held.nodup,fun one two => ?_,fun one => ?_,fun dir => held.kernel (update_none dir).2,
    fun dir => held.blank (update_none dir).2⟩
  · rcases back one with ⟨j,rfl,x⟩ | ⟨x,no_tag,outside⟩
    · rcases back two with ⟨k,rfl,y⟩ | ⟨y,no_tag,outside⟩
      · rw [apart x y (held.exclusive (holds x) (holds y))]
      · exact (never x y no_tag outside).elim
    · rcases back two with ⟨k,rfl,y⟩ | ⟨y,_⟩
      · exact (never y x no_tag outside).elim
      · exact held.exclusive x y
  · rcases back one with ⟨k,rfl,x⟩ | ⟨x,_⟩
    · exact held.managed (holds x)
    · exact held.managed x

def hands (own : Tag → Option Nat) (m : Bytes.Store) (d k : Nat) : Tag → Option Nat
  | .temp i => if i < 1024 then (if k ≤ i then tableOf m d i else none) else if i = 1024 then some d else own (.temp i)
  | t => own t

def handed (a : Space) : Tag → Use
  | .kstack slot => .own (.kstack slot)
  | .pipe file => .own (.pipe file)
  | .temp i => if i < 1024 then .table a i else if i = 1024 then .dir a else .own (.temp i)

theorem handed_cases (a : Space) (i : Nat) : (i < 1024 ∧ handed a (.temp i) = .table a i) ∨
    (i = 1024 ∧ handed a (.temp i) = .dir a) ∨ (1024 < i ∧ handed a (.temp i) = .own (.temp i)) := by
  unfold handed
  dsimp only
  split
  · exact .inl ⟨by assumption,rfl⟩
  · split
    · exact .inr (.inl ⟨by assumption,rfl⟩)
    · exact .inr (.inr ⟨by omega,rfl⟩)

theorem handed_injective (same : handed a j = handed a k) : j = k := by
  let back : Use → Tag
    | .own t => t
    | .table _ i => .temp i
    | _ => .temp 1024
  have inverse : ∀ t, back (handed a t) = t := by
    intro t
    cases t with
    | kstack slot => rfl
    | pipe file => rfl
    | temp i => rcases handed_cases a i with ⟨_,eq⟩ | ⟨rfl,eq⟩ | ⟨_,eq⟩ <;> rw [eq]
  rw [← inverse j,same,inverse]

theorem Custody.dismantle (held : Custody L m head o) (dir : o.dirs a = some d) :
    Custody L m head ⟨hands o.own m d 0,update o.dirs a none,o.free⟩ := by
  refine held.pin _ (handed a) (fun {k p} mine => ?_) (fun _ _ => handed_injective) fun {k p} _ => ?_
  · cases k with
    | kstack slot => exact mine
    | pipe file => exact mine
    | temp i =>
      simp only [hands,Nat.zero_le,if_true] at mine
      rcases handed_cases a i with ⟨table,eq⟩ | ⟨rfl,eq⟩ | ⟨beyond,eq⟩
      · rw [if_pos table] at mine
        rw [eq]; exact ⟨d,dir,table,mine⟩
      · rw [eq]; exact dir.trans mine
      · rw [if_neg (by omega),if_neg (by omega)] at mine
        rw [eq]; exact mine
  · cases k with
    | kstack slot => exact .inl rfl
    | pipe file => exact .inl rfl
    | temp i =>
      rcases handed_cases a i with ⟨_,eq⟩ | ⟨_,eq⟩ | ⟨_,eq⟩
      · rw [eq]; exact .inr rfl
      · rw [eq]; exact .inr rfl
      · exact .inl eq

end Custody

section Saved
variable {L : Layout} {m n k : Bytes.Store} {o o' o'' : Owners} {a : Space}

def Held (m : Bytes.Store) (o : Owners) (p : Nat) : Prop := ∃ u, Holds m o u p

-- Work for one address space: the others are as they were, and no page that was
-- held gets lost.
structure Saved (a : Space) (m : Bytes.Store) (o : Owners) (n : Bytes.Store) (o' : Owners) : Prop where
  dirs : b ≠ a → o'.dirs b = o.dirs b
  view : SameView m n (Function.update o.dirs a none)
  held : Held m o p → Held n o' p

theorem SameView.fewer (same : SameView m n dirs) (a : Space) : SameView m n (update dirs a none) :=
  ⟨fun dir => same.table (update_none dir).2,fun dir => same.pte (update_none dir).2⟩

theorem Saved.of_view (a : Space) (same : SameView m n o.dirs) : Saved a m o n o :=
  ⟨fun _ => rfl,same.fewer a,fun ⟨u,use⟩ => ⟨u,same.holds.mpr use⟩⟩

theorem Saved.refl (a : Space) (m : Bytes.Store) (o : Owners) : Saved a m o m o := .of_view a (.refl m o.dirs)

theorem Saved.trans (one : Saved a m o n o') (two : Saved a n o' k o'') : Saved a m o k o'' := by
  have same : update o'.dirs a none = update o.dirs a none := by
    funext b
    by_cases here : b = a
    · subst here; rw [update_self,update_self]
    · rw [update_of_ne here,update_of_ne here,one.dirs here]
  exact ⟨fun other => (two.dirs other).trans (one.dirs other),one.view.trans (same ▸ two.view),fun held => two.held (one.held held)⟩

theorem others_view (pages : ∀ u p, Holds m o u p → ¬ u.In a → (∀ t, u ≠ .own t) → u ≠ .free → SamePage m n p) :
    SameView m n (update o.dirs a none) := by
  refine view_of_pages (o := ⟨o.own,update o.dirs a none,o.free⟩) (fun b d dir => ?_) fun b i t use => ?_
  · obtain ⟨other,dir⟩ := update_none dir
    exact pages (.dir b) d dir other (by simp) (by simp)
  · obtain ⟨d,dir,rest⟩ := use
    obtain ⟨other,dir⟩ := update_none dir
    exact pages (.table b i) t ⟨d,dir,rest⟩ other (by simp) (by simp)

theorem Saved.of_space (dirs : ∀ b, b ≠ a → o'.dirs b = o.dirs b) (view : SameView m n (update o.dirs a none))
    (free : ∀ p ∈ o.free, Held n o' p) (own : ∀ t p, o.own t = some p → Held n o' p)
    (space : ∀ d, o.dirs a = some d → Held n o' d ∧ (∀ i p, i < 1024 → tableOf m d i = some p → Held n o' p) ∧
      ∀ v < 524288, Present (pteOf m d v) → Held n o' (PTE_ADDR (pteOf m d v))) : Saved a m o n o' := by
  refine ⟨fun {b} => dirs b,view,fun {p} ⟨u,use⟩ => ?_⟩
  have there : ∀ {b d}, b ≠ a → o.dirs b = some d → update o.dirs a none b = some d := fun other dir =>
    (update_of_ne other _ _).trans dir
  cases u with
  | free => exact free p use
  | own t => exact own t p use
  | dir b =>
    by_cases here : b = a
    · exact (space p (here ▸ use)).1
    · exact ⟨.dir b,(dirs b here).trans use⟩
  | table b i =>
    obtain ⟨d,dir,small,found⟩ := use
    by_cases here : b = a
    · exact (space d (here ▸ dir)).2.1 i p small found
    · exact ⟨.table b i,d,(dirs b here).trans dir,small,(view.table (there here dir) small).trans found⟩
  | user b v =>
    obtain ⟨d,dir,small,present,rfl⟩ := use
    by_cases here : b = a
    · exact (space d (here ▸ dir)).2.2 v small present
    · exact ⟨.user b v,d,(dirs b here).trans dir,small,by rw [view.pte (there here dir) (by omega)]; exact ⟨present,rfl⟩⟩

theorem Saved.take (a : Space) (list : o.free = p :: rest) (vacant : o.own t = none) (same : SameView m n o.dirs) :
    Saved a m o n ⟨update o.own t (some p),o.dirs,rest⟩ := by
  refine .of_space (fun _ _ => rfl) (same.fewer a) (fun q use => ?_) (fun k q use => ⟨.own k,?_⟩) fun d dir => ⟨⟨.dir a,dir⟩,?_,?_⟩
  · rw [list] at use
    rcases List.mem_cons.mp use with rfl | later
    · exact ⟨.own t,update_self ..⟩
    · exact ⟨.free,later⟩
  · have other : k ≠ t := fun here => by rw [here,vacant] at use; cases use
    exact (update_of_ne other _ _).trans use
  · exact fun i q small found => ⟨.table a i,d,dir,small,(same.table dir small).trans found⟩
  · exact fun v small present => ⟨.user a v,d,dir,small,by rw [same.pte dir (by omega)]; exact ⟨present,rfl⟩⟩

theorem Saved.install (vacant : o.dirs a = none) (mine : o.own t = some p) :
    Saved a m o m ⟨update o.own t none,update o.dirs a (some p),o.free⟩ := by
  refine .of_space (fun b other => update_of_ne other _ _) (SameView.refl m _) (fun q use => ⟨.free,use⟩) (fun k q use => ?_)
    fun d dir => nomatch vacant.symm.trans dir
  by_cases here : k = t
  · subst here
    cases mine.symm.trans use with
    | refl => exact ⟨.dir a,update_self ..⟩
  · exact ⟨.own k,(update_of_ne here _ _).trans use⟩

end Saved
end Xv6.Vm
