import Xv6.Lib.Bytes
import Xv6.Lib.Circular
import Xv6.Lib.Extents
import Xv6.Lib.Runs

namespace Xv6.User.Umalloc
open Bytes Circular Extents Runs

def ptr (mem : Bytes.Store) (p : Nat) : Nat := ld32 mem p

def size (mem : Bytes.Store) (p : Nat) : Nat := ld32 mem (p+4)

def setPtr (mem : Bytes.Store) (p v : Nat) : Bytes.Store := st32 mem p v

def setSize (mem : Bytes.Store) (p v : Nat) : Bytes.Store := st32 mem (p+4) v

-- p + n and p - 1 for a pointer to headers.
def add (p n : Nat) : Nat := (p+8*n) % 4294967296

def back (p : Nat) : Nat := (p+4294967288) % 4294967296

-- x in front of y in the ring, in one block where they touch.
def link (mem : Bytes.Store) (x y : Nat) : Bytes.Store :=
  if add x (size mem x) = y then
    let mem := setSize mem x (size mem x+size mem y)
    setPtr mem x (ptr mem y)
  else setPtr mem x y

-- The first if of free. It reads p->s.ptr again after the size was written.
def linkUp (mem : Bytes.Store) (p bp : Nat) : Bytes.Store :=
  if add bp (size mem bp) = ptr mem p then
    let mem := setSize mem bp (size mem bp+size mem (ptr mem p))
    setPtr mem bp (ptr mem (ptr mem p))
  else setPtr mem bp (ptr mem p)

def linkDown (mem : Bytes.Store) (p bp : Nat) : Bytes.Store := link mem p bp

structure State (σ : Type) where
  mem : Bytes.Store
  freep : Nat
  os : σ

-- none is the -1 of sbrk. The log keeps what was given out, as start and number of bytes, the latest first.
structure Host (σ : Type) where
  sbrk : σ → Nat → Option Nat × σ
  log : σ → List (Nat × Nat)

-- The loops take as many turns as fuel allows; none is a loop that has not come to an end.
section
variable {σ : Type} (host : Host σ)

def free (fuel : Nat) (s : State σ) (ap : Nat) : Option (State σ) :=
  let bp := back ap
  match seek (ptr s.mem) bp fuel s.freep with
  | none => none
  | some p => some { s with mem := linkDown (linkUp s.mem p bp) p bp, freep := p }

def morecore (fuel : Nat) (s : State σ) (nu : Nat) : Option (Nat × State σ) :=
  let nu := if nu < 4096 then 4096 else nu
  match host.sbrk s.os ((nu*8) % 4294967296) with
  | (none,os) => some (0,{ s with os := os })
  | (some hp,os) =>
    match free fuel { s with mem := setSize s.mem hp nu, os := os } (add hp 1) with
    | none => none
    | some s => some (s.freep,s)

-- The block p is large enough: all of it, or its end.
def take (nunits : Nat) (s : State σ) (prevp p : Nat) : Nat × State σ :=
  if size s.mem p = nunits then (add p 1,{ s with mem := setPtr s.mem prevp (ptr s.mem p), freep := prevp })
  else
    let mem := setSize s.mem p (size s.mem p-nunits)
    let p := add p (size mem p)
    (add p 1,{ s with mem := setSize mem p nunits, freep := prevp })

def search (nunits : Nat) : Nat → State σ → Nat → Nat → Option (Nat × State σ)
  | 0,_,_,_ => none
  | fuel+1,s,prevp,p =>
    if nunits ≤ size s.mem p then some (take nunits s prevp p)
    else if p = s.freep then
      match morecore host fuel s nunits with
      | none => none
      | some (0,s) => some (0,s)
      | some (p,s) => search nunits fuel s p (ptr s.mem p)
    else search nunits fuel s p (ptr s.mem p)

def units (nbytes : Nat) : Nat := (nbytes+7) % 4294967296 / 8 + 1

def start (base : Nat) (s : State σ) : State σ :=
  if s.freep = 0 then { s with mem := setSize (setPtr s.mem base base) base 0, freep := base } else s

def malloc (base fuel : Nat) (s : State σ) (nbytes : Nat) : Option (Nat × State σ) :=
  let s := start base s
  search host (units nbytes) fuel s s.freep (ptr s.mem s.freep)

end

-- Headers in memory.
section
variable {mem new : Bytes.Store}

def Elsewhere (p : Nat) (mem new : Bytes.Store) : Prop := ∀ x, x < p ∨ p+8 ≤ x → new x = mem x

theorem Elsewhere.trans (first : Elsewhere p mem new) (second : Elsewhere p new other) : Elsewhere p mem other :=
  fun x out => (second x out).trans (first x out)

theorem setPtr_elsewhere (mem : Bytes.Store) (p v : Nat) : Elsewhere p mem (setPtr mem p v) := fun _ out => copy_out _ _ (by omega)

theorem setSize_elsewhere (mem : Bytes.Store) (p v : Nat) : Elsewhere p mem (setSize mem p v) := fun _ out => copy_out _ _ (by omega)

theorem Elsewhere.ptr (changed : Elsewhere p mem new) (apart : q+8 ≤ p ∨ p+8 ≤ q) : ptr new q = ptr mem q :=
  ld32_congr fun t small => changed _ (by omega)

theorem Elsewhere.size (changed : Elsewhere p mem new) (apart : q+8 ≤ p ∨ p+8 ≤ q) : size new q = size mem q :=
  ld32_congr fun t small => changed _ (by omega)

theorem ptr_lt (mem : Bytes.Store) (p : Nat) : ptr mem p < 4294967296 := ld32_lt ..

theorem ptr_setPtr (word : v < 4294967296) : ptr (setPtr mem p v) p = v := by
  rw [ptr,setPtr,ld32_st32,Nat.mod_eq_of_lt word]

theorem size_setPtr (mem : Bytes.Store) (p v : Nat) : size (setPtr mem p v) p = size mem p := ld32_st32_out _ (.inr .refl)

theorem size_setSize (word : v < 4294967296) : size (setSize mem p v) p = v := by
  rw [size,setSize,ld32_st32,Nat.mod_eq_of_lt word]

theorem ptr_setSize (mem : Bytes.Store) (p v : Nat) : ptr (setSize mem p v) p = ptr mem p := ld32_st32_out _ (.inl .refl)

theorem link_elsewhere (mem : Bytes.Store) (x y : Nat) : Elsewhere x mem (link mem x y) := by
  unfold link
  split
  · exact (setSize_elsewhere _ _ _).trans (setPtr_elsewhere _ _ _)
  · exact setPtr_elsewhere _ _ _

theorem linkUp_eq (mem : Bytes.Store) (apart : p+8 ≤ bp ∨ bp+8 ≤ p) : linkUp mem p bp = link mem bp (ptr mem p) := by
  unfold linkUp link
  split
  · dsimp only
    rw [(setSize_elsewhere _ _ _).ptr apart]
  · rfl

theorem add_stop {a : Extent} (small : a.stop 8 < 4294967296) : add a.start a.len = a.stop 8 := Nat.mod_eq_of_lt small

end

-- x before the extents l, whose first block is at y.
section
variable {mem : Bytes.Store} {a : Extent} {l : List Extent}

structure Ready (mem : Bytes.Store) (base : Nat) (a : Extent) (l : List Extent) : Prop where
  here : size mem a.start = a.len
  sizes : ∀ c ∈ l, size mem c.start = c.len
  headers : ∀ c ∈ l, a.start+8 ≤ c.start
  behind : ∀ c ∈ l, a.stop 8 ≤ c.start
  bounds : ∀ c ∈ l, c.stop 8 < 4294967296
  bound : a.stop 8 < 4294967296
  ends : l = [] → a.stop 8 ≠ base
  word : base < 4294967296

theorem link_apart (ready : Ready mem base a l) (chain : Chain (ptr mem) y (l.map Extent.start) base) (word : y < 4294967296)
    (apart : a.stop 8 ≠ y) :
    Chain (ptr (link mem a.start y)) a.start ((a :: l).map Extent.start) base ∧
      ∀ d ∈ a :: l, size (link mem a.start y) d.start = d.len := by
  have bound := ready.bound
  have changed := link_elsewhere mem a.start y
  have made : link mem a.start y = setPtr mem a.start y := by
    rw [link,ready.here,add_stop bound,if_neg apart]
  refine ⟨⟨rfl,?_⟩,fun d member => ?_⟩
  · have target : ptr (link mem a.start y) a.start = y := by rw [made,ptr_setPtr word]
    rw [target]
    refine chain.congr fun c member => ?_
    obtain ⟨d,inside,rfl⟩ := List.mem_map.mp member
    exact changed.ptr (.inr (ready.headers d inside))
  · rcases List.mem_cons.mp member with rfl | more
    · rw [made,size_setPtr,ready.here]
    · rw [changed.size (.inr (ready.headers d more)),ready.sizes d more]

theorem link_touch {c : Extent} (ready : Ready mem base a (c :: l)) (chain : Chain (ptr mem) c.start ((c :: l).map Extent.start) base)
    (touch : a.stop 8 = c.start) :
    Chain (ptr (link mem a.start c.start)) a.start ((⟨a.start,a.len+c.len⟩ :: l).map Extent.start) base ∧
      ∀ d ∈ Extent.mk a.start (a.len+c.len) :: l, size (link mem a.start c.start) d.start = d.len := by
  have bound := ready.bound
  have changed := link_elsewhere mem a.start c.start
  have first := ready.headers c (.head _)
  have sum : a.len+c.len < 4294967296 := by
    have whole := ready.bounds c (.head _)
    unfold Extent.stop at touch whole
    omega
  have made : link mem a.start c.start = setPtr (setSize mem a.start (a.len+c.len)) a.start (ptr mem c.start) := by
    rw [link,ready.here,add_stop bound,if_pos touch,ready.sizes c List.mem_cons_self]
    dsimp only
    rw [(setSize_elsewhere _ _ _).ptr (.inr first)]
  refine ⟨⟨rfl,?_⟩,fun d member => ?_⟩
  · have target : ptr (link mem a.start c.start) a.start = ptr mem c.start := by
      rw [made,ptr_setPtr (ptr_lt ..)]
    rw [target]
    refine chain.tail.congr fun x member => ?_
    obtain ⟨d,inside,rfl⟩ := List.mem_map.mp member
    exact changed.ptr (.inr (ready.headers d (.tail _ inside)))
  · rcases List.mem_cons.mp member with rfl | more
    · rw [made,size_setPtr,size_setSize sum]
    · rw [changed.size (.inr (ready.headers d (List.mem_cons_of_mem _ more))),ready.sizes d (List.mem_cons_of_mem _ more)]

theorem link_spec (ready : Ready mem base a l) (chain : Chain (ptr mem) y (l.map Extent.start) base) :
    Chain (ptr (link mem a.start y)) a.start ((join 8 a l).map Extent.start) base ∧
      ∀ d ∈ join 8 a l, size (link mem a.start y) d.start = d.len := by
  cases l with
  | nil =>
    have ends : y = base := chain
    rw [ends]
    exact link_apart ready rfl ready.word (ready.ends rfl)
  | cons c l =>
    obtain rfl : y = c.start := chain.head
    rw [join]
    split
    · rename_i touch
      exact link_touch ready chain touch
    rename_i apart
    refine link_apart ready chain ?_ apart
    have start := start_le_stop 8 c
    have whole := ready.bounds c (.head _)
    omega

end

end Xv6.User.Umalloc
