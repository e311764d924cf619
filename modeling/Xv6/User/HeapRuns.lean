import Xv6.User.Heap

namespace Xv6.User.Umalloc
open Bytes Circular Extents Runs

-- A program that calls malloc and free and writes into its memory, step after step.

structure System (σ : Type) where
  heap : State σ
  live : List (Nat × Nat)

inductive Event where
  | malloc (nbytes : Nat)
  | free (p : Nat)
  | write (a : Nat) (c : UInt8)

section
variable {σ : Type} (host : Host σ) (base : Nat)

def Writable (s : System σ) (a : Nat) : Prop :=
  (∃ b ∈ s.live, b.1 ≤ a ∧ a < b.1+b.2) ∨
    (a < base ∨ base+8 ≤ a) ∧ ∀ r ∈ host.log s.heap.os, a < r.1 ∨ r.1+r.2 ≤ a

inductive Step : System σ → Event → System σ → Prop where
  | malloc : nbytes ≤ 1073741824 → Returns (fun fuel => malloc host base fuel s.heap nbytes) (r,heap) →
      Step s (.malloc nbytes) ⟨heap,if r = 0 then s.live else (r,nbytes) :: s.live⟩
  | free : s.live = left ++ (p,nbytes) :: right → Returns (fun fuel => free fuel s.heap p) heap → Step s (.free p) ⟨heap,left ++ right⟩
  | write : Writable host base s a → Step s (.write a c) ⟨{ s.heap with mem := Function.update s.heap.mem a c },s.live⟩

def Initial (s : System σ) : Prop := s.heap.freep = 0 ∧ s.live = [] ∧ host.log s.heap.os = []

def block (mem : Bytes.Store) (p : Nat) : Extent := ⟨p-8,size mem (p-8)⟩

-- The free list: circular, rising from the static header, without neighbours that touch.
structure FreeList (mem : Bytes.Store) (freep : Nat) (free : List Extent) : Prop where
  chain : Chain (ptr mem) base (base :: free.map Extent.start) base
  rover : freep ∈ base :: free.map Extent.start
  rising : (base :: free.map Extent.start).Pairwise (· < ·)
  unmerged : Gapped 8 free
  sizes : ∀ e ∈ free, size mem e.start = e.len ∧ 0 < e.len

structure Integrity (s : System σ) : Prop where
  disjoint : s.live.Pairwise fun a b => (block s.heap.mem a.1).Disjoint 8 (block s.heap.mem b.1)
  room : ∀ b ∈ s.live, 8 ≤ b.1 ∧ b.1+b.2 ≤ (block s.heap.mem b.1).stop 8
  inside : ∀ b ∈ s.live, ∀ u ∈ (block s.heap.mem b.1).units 8, u ∈ unitsOf (host.log s.heap.os)
  once : (unitsOf (host.log s.heap.os)).Nodup
  free : Initial host s ∨ ∃ free, FreeList base s.heap.mem s.heap.freep free ∧
    (∀ e ∈ free, ∀ b ∈ s.live, e.Disjoint 8 (block s.heap.mem b.1)) ∧
    ((free ++ s.live.map fun b => block s.heap.mem b.1).flatMap (Extent.units 8)).Perm (unitsOf (host.log s.heap.os))

end

section
variable {σ : Type} {host : Host σ} {s : System σ} {mem : Bytes.Store} {ring live : List Extent}

theorem Heap.perm (heap : Heap base obtained mem freep ring live) (same : live.Perm other) : Heap base obtained mem freep ring other := by
  have both : ∀ e, e ∈ ring ++ other ↔ e ∈ ring ++ live := fun e => (same.append_left ring).mem_iff.symm
  exact ⟨heap.first,heap.chain,fun e member => heap.sizes e ((both e).mp member),heap.gapped,heap.rover,heap.filled,
    fun e member => heap.used e (same.mem_iff.mpr member),((same.append_left ring).flatMap_right _).symm.trans heap.tiles,heap.apart,heap.within,
    heap.low,heap.word⟩

theorem Heap.write (heap : Heap base obtained mem freep ring live) (clear : ∀ e ∈ ring ++ live, a < e.start ∨ e.start+8 ≤ a) (c : UInt8) :
    Heap base obtained (Function.update mem a c) freep ring live := by
  have same : ∀ e ∈ ring ++ live, ptr (Function.update mem a c) e.start = ptr mem e.start ∧ size (Function.update mem a c) e.start = size mem e.start := by
    intro e member
    have out := clear e member
    exact ⟨ld32_congr fun t small => Function.update_of_ne (by omega) _ _,ld32_congr fun t small => Function.update_of_ne (by omega) _ _⟩
  refine ⟨heap.first,heap.chain.congr fun x member => ?_,fun e member => ?_,heap.gapped,heap.rover,heap.filled,heap.used,heap.tiles,heap.apart,heap.within,
    heap.low,heap.word⟩
  · obtain ⟨e,inside,rfl⟩ := List.mem_map.mp member
    exact (same e (List.mem_append_left _ inside)).1
  · rw [(same e member).2,heap.sizes e member]

theorem Heap.empty (mem : Bytes.Store) (low : 0 < base) (word : base < 4294967296) :
    Heap base [] (setSize (setPtr mem base base) base 0) base [⟨base,0⟩] [] := by
  refine ⟨rfl,⟨rfl,?_⟩,fun e member => ?_,List.pairwise_singleton _ _,List.mem_singleton_self _,fun e member => .inl (List.mem_singleton.mp member),
    fun e no => (by cases no),?_,List.Pairwise.nil,fun u no => (by cases no),low,word⟩
  · show ptr (setSize (setPtr mem base base) base 0) base = base
    rw [ptr_setSize,ptr_setPtr word]
  · obtain rfl := List.mem_singleton.mp member
    exact size_setSize (by decide)
  · exact List.Perm.refl _

theorem units_room (small : nbytes ≤ 2147483632) : nbytes+8 ≤ 8*units nbytes ∧ 0 < wanted (units nbytes)*8 ∧ wanted (units nbytes)*8 < 2147483648 := by
  unfold wanted units
  split
  · omega
  · omega

def Kept (host : Host σ) (base : Nat) (s : System σ) : Prop :=
  Initial host s ∨ ∃ ring, ∃ held : List (Extent × Nat), Sound host base s.heap ring (held.map Prod.fst) ∧
    s.live = held.map (fun x => (x.1.start+8,x.2)) ∧ ∀ x ∈ held, x.2+8 ≤ 8*x.1.len

section
variable (kept : Kept host base s)
include kept

theorem Kept.begun (low : 0 < base) (word : base < 4294967296) :
    ∃ ring, ∃ held : List (Extent × Nat), Sound host base (start base s.heap) ring (held.map Prod.fst) ∧
      s.live = held.map (fun x => (x.1.start+8,x.2)) ∧ (∀ x ∈ held, x.2+8 ≤ 8*x.1.len) ∧ (start base s.heap).os = s.heap.os := by
  rcases kept with ⟨null,empty,none⟩ | ⟨ring,held,sound,live,room⟩
  · refine ⟨[⟨base,0⟩],[],?_,empty,fun x no => (by cases no),by rw [start,if_pos null]⟩
    unfold Sound
    rw [start,if_pos null,none]
    exact .empty _ low word
  have some : s.heap.freep ≠ 0 := by
    obtain ⟨e,member,same⟩ := List.mem_map.mp sound.rover
    have := Heap.low_start sound member
    omega
  exact ⟨ring,held,by rw [start,if_neg some]; exact sound,live,room,by rw [start,if_neg some]⟩

theorem Kept.malloc (low : 0 < base) (word : base < 4294967296) (small : nbytes ≤ 2147483632)
    (fresh : Fresh host base s.heap.os (wanted (units nbytes)*8)) :
    ∃ r heap, Returns (fun fuel => malloc host base fuel s.heap nbytes) (r,heap) ∧
      Kept host base ⟨heap,if r = 0 then s.live else (r,nbytes) :: s.live⟩ := by
  obtain ⟨room,_,bound⟩ := units_room small
  obtain ⟨ring,held,sound,live,rooms,os⟩ := kept.begun low word
  rw [← os] at fresh
  have some : 0 < units nbytes := Nat.succ_pos _
  obtain ⟨r,next,ring',ran,result⟩ := sound.answers some (by omega) fresh
  refine ⟨r,next,ran,?_⟩
  rcases result with ⟨rfl,same⟩ | ⟨b,rfl,length,more⟩
  · exact .inr ⟨ring',held,same,live,rooms⟩
  rw [if_neg (by omega)]
  refine .inr ⟨ring',(b,nbytes) :: held,more,by rw [live]; rfl,fun x member => ?_⟩
  rcases List.mem_cons.mp member with rfl | old
  · dsimp only
    omega
  · exact rooms x old

theorem Kept.free (taken : s.live = left ++ (p,nbytes) :: right) :
    ∃ heap, Returns (fun fuel => free fuel s.heap p) heap ∧ Kept host base ⟨heap,left ++ right⟩ := by
  rcases kept with ⟨_,empty,_⟩ | ⟨ring,held,sound,live,rooms⟩
  · rw [empty] at taken
    simp at taken
  rw [live] at taken
  obtain ⟨front,rest,rfl,rfl,later⟩ := List.map_eq_append_iff.mp taken
  obtain ⟨x,back,rfl,same,rfl⟩ := List.map_eq_cons_iff.mp later
  cases same
  have moved : Sound host base s.heap ring (x.1 :: (front ++ back).map Prod.fst) := by
    refine Heap.perm sound ?_
    rw [List.map_append,List.map_append,List.map_cons]
    exact List.perm_middle
  obtain ⟨next,ring',os,heap,_,_,ran⟩ := Heap.free moved
  refine ⟨next,⟨_,ran⟩,.inr ⟨ring',front ++ back,?_,by simp,fun y member => rooms y ?_⟩⟩
  · unfold Sound
    rw [os]
    exact heap
  · simp only [List.mem_append,List.mem_cons] at member ⊢
    tauto

theorem Kept.write (fine : Writable host base s a) (c : UInt8) :
    Kept host base ⟨{ s.heap with mem := Function.update s.heap.mem a c },s.live⟩ := by
  rcases kept with ⟨null,empty,none⟩ | ⟨ring,held,sound,live,rooms⟩
  · exact .inl ⟨null,empty,none⟩
  refine .inr ⟨ring,held,Heap.write sound (fun e member => ?_) c,live,rooms⟩
  rcases fine with ⟨b,mine,first,last⟩ | ⟨aside,outside⟩
  · -- inside a live block
    rw [live] at mine
    obtain ⟨x,there,rfl⟩ := List.mem_map.mp mine
    have room := rooms x there
    have stop : x.1.stop 8 = x.1.start+8*x.1.len := rfl
    obtain ⟨front,back,rfl⟩ := List.append_of_mem there
    have moved : Sound host base s.heap ring (x.1 :: (front ++ back).map Prod.fst) := by
      refine Heap.perm sound ?_
      rw [List.map_append,List.map_append,List.map_cons]
      exact List.perm_middle
    have clear : ∀ f ∈ ring ++ (front ++ back).map Prod.fst, f.start+8 ≤ x.1.start ∨ x.1.stop 8 ≤ f.start := fun f known => by
      rcases List.mem_append.mp known with free | taken
      · have apart := Heap.ring_live moved free (.head _)
        have wide := start_le_stop 8 f
        unfold Extent.Disjoint at apart
        omega
      · have apart := Heap.live_live moved taken
        have wide := start_le_stop 8 f
        unfold Extent.Disjoint at apart
        omega
    by_cases own : e = x.1
    · rw [own]
      omega
    have other : e ∈ ring ++ (front ++ back).map Prod.fst := by
      simp only [List.map_append,List.map_cons,List.mem_append,List.mem_cons] at member ⊢
      tauto
    have := clear e other
    omega
  · -- outside of everything
    by_cases full : 0 < e.len
    · obtain ⟨r,given,unit⟩ := List.mem_flatMap.mp (sound.tiles.mem_iff.mp (List.mem_flatMap.mpr ⟨e,member,mem_units.mpr ⟨0,full,rfl⟩⟩))
      have known : r.1 ≤ e.start ∧ e.start+8 ≤ r.1+8*(r.2/8) := units_inside unit
      have := outside r given
      omega
    rcases List.mem_append.mp member with free | taken
    · rcases sound.filled e free with rfl | positive
      · exact aside
      · exact absurd positive full
    · exact absurd (sound.used e taken) full

end

theorem Kept.step (low : 0 < base) (word : base < 4294967296) (fresh : ∀ os n, 0 < n → n < 2147483648 → Fresh host base os n)
    (kept : Kept host base s) (moved : Step host base s event next) : Kept host base next := by
  cases moved with
  | malloc small ran =>
    have small := Nat.le_trans small (show 1073741824 ≤ 2147483632 by decide)
    obtain ⟨_,some,bound⟩ := units_room small
    obtain ⟨r,heap,also,after⟩ := kept.malloc low word small (fresh _ _ some bound)
    cases ran.unique also
    exact after
  | free taken ran =>
    obtain ⟨heap,also,after⟩ := kept.free taken
    cases ran.unique also
    exact after
  | write fine => exact kept.write fine _

theorem Kept.integrity (kept : Kept host base s) : Integrity host base s := by
  rcases kept with initial | ⟨ring,held,sound,live,rooms⟩
  · have empty := initial.2.1
    have none := initial.2.2
    refine ⟨by rw [empty]; exact .nil,fun b no => ?_,fun b no => ?_,by rw [none]; exact .nil,.inl initial⟩
    · rw [empty] at no
      cases no
    · rw [empty] at no
      cases no
  have blocks : ∀ x ∈ held, block s.heap.mem (x.1.start+8) = x.1 := fun x member => by
    unfold block
    rw [Nat.add_sub_cancel,sound.sizes x.1 (List.mem_append_right _ (List.mem_map_of_mem member))]
  have listed : (s.live.map fun b => block s.heap.mem b.1) = held.map Prod.fst := by
    rw [live,List.map_map]
    exact List.map_congr_left blocks
  have each : ∀ b ∈ s.live, ∃ x ∈ held, b = (x.1.start+8,x.2) := fun b member => by
    rw [live] at member
    obtain ⟨x,there,same⟩ := List.mem_map.mp member
    exact ⟨x,there,same.symm⟩
  obtain ⟨_,taken,cross⟩ := List.pairwise_append.mp sound.pairs
  refine ⟨?_,fun b member => ?_,fun b member u unit => ?_,sound.apart.imp fun {u v} apart same => ?_,?_⟩
  · have apart : (held.map Prod.fst).Pairwise (Extent.Disjoint 8) := taken.imp_of_mem fun first second units =>
      disjoint_of_apart (by decide) (sound.used _ first) (sound.used _ second) units
    rw [← listed] at apart
    exact List.pairwise_map.mp apart
  · obtain ⟨x,there,rfl⟩ := each b member
    have room := rooms x there
    rw [blocks x there]
    unfold Extent.stop
    omega
  · obtain ⟨x,there,rfl⟩ := each b member
    rw [blocks x there] at unit
    exact sound.tiles.mem_iff.mp (List.mem_flatMap.mpr ⟨x.1,List.mem_append_right _ (List.mem_map_of_mem there),unit⟩)
  · unfold Apart at apart
    omega
  have first := sound.first
  cases ring with
  | nil => cases first
  | cons e free =>
    obtain rfl : e = ⟨base,0⟩ := Option.some.inj first
    obtain ⟨above,gapped⟩ := List.pairwise_cons.mp sound.gapped
    have filled : ∀ e ∈ free, 0 < e.len := fun e member => by
      rcases sound.filled e (.tail _ member) with rfl | some
      · have higher : base+8*0 < base := above _ member
        omega
      · exact some
    refine .inr ⟨free,⟨sound.chain,sound.rover,sound.gapped.starts,gapped,fun e member =>
      ⟨sound.sizes e (List.mem_append_left _ (.tail _ member)),filled e member⟩⟩,fun e member b known => ?_,?_⟩
    · obtain ⟨x,there,rfl⟩ := each b known
      rw [blocks x there]
      exact (sound.ring_live (.tail _ member) (List.mem_map_of_mem there)).1
    · rw [listed]
      exact sound.tiles

end

-- In every state of every run the heap is in order, and malloc and free come back.
theorem heap_integrity {σ : Type} {s : System σ} (host : Host σ) (low : 0 < base) (word : base < 4294967296)
    (fresh : ∀ os n, 0 < n → n < 2147483648 → Fresh host base os n) (run : Run (Initial host) (Step host base) events s) :
    Integrity host base s ∧ (∀ nbytes ≤ 1073741824, ∃ r, Returns (fun fuel => malloc host base fuel s.heap nbytes) r) ∧
      ∀ b ∈ s.live, ∃ next, Returns (fun fuel => free fuel s.heap b.1) next := by
  have kept : Kept host base s := run.invariant (fun _ first => .inl first) fun _ _ _ before moved => before.step low word fresh moved
  refine ⟨kept.integrity,fun nbytes small => ?_,fun b member => ?_⟩
  · have small := Nat.le_trans small (show 1073741824 ≤ 2147483632 by decide)
    obtain ⟨_,some,bound⟩ := units_room small
    obtain ⟨r,heap,ran,_⟩ := kept.malloc low word small (fresh _ _ some bound)
    exact ⟨(r,heap),ran⟩
  · obtain ⟨left,right,split⟩ := List.append_of_mem member
    obtain ⟨next,ran,_⟩ := kept.free split
    exact ⟨next,ran⟩

def single : Host (List (Nat × Nat)) where
  sbrk log n := if log = [] then (some 4096,[(4096,n)]) else (none,log)
  log := id

theorem heap_integrity_first : ∃ s : System (List (Nat × Nat)), Step single 1024 ⟨⟨fun _ => 0,0,[]⟩,[]⟩ (.malloc 100) s ∧ Integrity single 1024 s := by
  have fresh : ∀ os n, 0 < n → n < 2147483648 → Fresh single 1024 os n := fun os n _ small => by
    cases os with
    | nil => exact ⟨rfl,by decide,by omega,fun r no => (by cases no)⟩
    | cons r log => exact (rfl : r :: log = r :: log)
  have begun : Run (Initial single) (Step single 1024) [] ⟨⟨fun _ => 0,0,[]⟩,[]⟩ := .start ⟨rfl,rfl,rfl⟩
  obtain ⟨_,returns,_⟩ := heap_integrity single (by decide) (by decide) fresh begun
  obtain ⟨⟨r,heap⟩,ran⟩ := returns 100 (by decide)
  exact ⟨_,.malloc (by decide) ran,(heap_integrity single (by decide) (by decide) fresh (.step begun (.malloc (by decide) ran))).1⟩

end Xv6.User.Umalloc
