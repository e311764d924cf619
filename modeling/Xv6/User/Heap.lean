import Xv6.User.Umalloc

namespace Xv6.User.Umalloc
open Bytes Circular Extents
open List (append_assoc flatMap_append forall_mem_cons forall_mem_map flatMap_cons length_append length_cons map_append map_cons mem_append mem_append_left mem_append_right mem_cons mem_map pairwise_append pairwise_cons perm_append_comm_assoc)

-- What the memory of the allocator looks like. The ring lists the static header, with no units, and the free blocks;
-- live are the blocks handed out. obtained are the units that sbrk gave.
structure Heap (base : Nat) (obtained : List Nat) (mem : Bytes.Store) (freep : Nat) (ring live : List Extent) : Prop where
  first : ring.head? = some ⟨base,0⟩
  chain : Chain (ptr mem) base (ring.map Extent.start) base
  sizes : ∀ e ∈ ring ++ live, size mem e.start = e.len
  gapped : Gapped 8 ring
  rover : freep ∈ ring.map Extent.start
  filled : ∀ e ∈ ring, e = ⟨base,0⟩ ∨ 0 < e.len
  used : ∀ e ∈ live, 0 < e.len
  tiles : ((ring ++ live).flatMap (Extent.units 8)).Perm obtained
  apart : obtained.Pairwise (Apart 8)
  within : ∀ u ∈ obtained, base+8 ≤ u ∧ u+8 < 4294967296
  low : 0 < base
  word : base < 4294967296

section
variable {mem : Bytes.Store} {a b e : Extent} {ring live : List Extent}

section
variable (heap : Heap base obtained mem freep ring live)
include heap

theorem Heap.bounds (member : e ∈ ring ++ live) (some : 0 < e.len) :
    base+8 ≤ e.start ∧ e.stop 8 < 4294967296 := by
  have inside : base+8 ≤ e.start ∧ e.stop 8 ≤ 4294967295 := units_bound some fun u unit => by
    have known := heap.within u (heap.tiles.mem_iff.mp (List.mem_flatMap.mpr ⟨e,member,unit⟩))
    exact ⟨known.1,by omega⟩
  exact ⟨inside.1,by omega⟩

theorem Heap.pairs :
    (ring ++ live).Pairwise fun a b => ∀ u ∈ a.units 8, ∀ v ∈ b.units 8, Apart 8 u v := by
  have all := (heap.tiles.pairwise_iff Apart.symm).mpr heap.apart
  exact (List.pairwise_flatMap.mp all).2

theorem Heap.low_start (member : e ∈ ring) : base ≤ e.start := by
  rcases heap.filled e member with rfl | some
  · exact Nat.le_refl base
  · have := heap.bounds (mem_append_left _ member) some
    omega

theorem Heap.ring_live (free : a ∈ ring) (taken : b ∈ live) :
    a.Disjoint 8 b ∧ (a.start+8 ≤ b.start ∨ b.start+8 ≤ a.start) := by
  have some := heap.used b taken
  have bounds := heap.bounds (mem_append_right _ taken) some
  rcases heap.filled a free with rfl | full
  · exact ⟨.inl (show base+8*0 ≤ b.start by omega),.inl bounds.1⟩
  · have clear := disjoint_of_apart (by decide) full some ((List.pairwise_append.mp heap.pairs).2.2 a free b taken)
    refine ⟨clear,?_⟩
    unfold Extent.Disjoint Extent.stop at clear
    omega

end

theorem Heap.live_live (heap : Heap base obtained mem freep ring (b :: live)) (taken : e ∈ live) :
    b.Disjoint 8 e ∧ (b.start+8 ≤ e.start ∨ e.start+8 ≤ b.start) := by
  have first := heap.used b (.head _)
  have second := heap.used e (.tail _ taken)
  have pairs := (List.pairwise_cons.mp (List.pairwise_append.mp heap.pairs).2.1).1 e taken
  have clear := disjoint_of_apart (by decide) first second pairs
  refine ⟨clear,?_⟩
  unfold Extent.Disjoint Extent.stop at clear
  omega

theorem Heap.headers (heap : Heap base obtained mem freep ring live) (first : a ∈ ring) (second : e ∈ ring) (less : a.stop 8 < e.start) :
    a.start+8 ≤ e.start := by
  rcases heap.filled e second with rfl | some
  · have low := heap.low_start first
    have stop := start_le_stop 8 a
    dsimp only at less ⊢
    omega
  · rcases heap.filled a first with rfl | full
    · exact (heap.bounds (mem_append_left _ second) some).1
    · unfold Extent.stop at less
      omega

end

structure Place (base : Nat) (mem : Bytes.Store) (b p : Extent) (left right : List Extent) : Prop where
  low : p.stop 8 ≤ b.start
  header : p.start+8 ≤ b.start
  high : ∀ c ∈ right, b.stop 8 ≤ c.start
  chain : Chain (ptr mem) (ptr mem p.start) (right.map Extent.start) base

section
variable {σ : Type} {s : State σ} {mem : Bytes.Store} {b p : Extent} {ring live left right : List Extent}

theorem Heap.place (heap : Heap base obtained s.mem s.freep ring (b :: live)) : ∃ left p right, ring = left ++ p :: right ∧
    Place base s.mem b p left right ∧ ∀ fuel, ring.length ≤ fuel → seek (ptr s.mem) b.start fuel s.freep = some p.start := by
  have full := heap.used b (.head _)
  have bounds := heap.bounds (mem_append_right _ (.head _)) full
  have clear : ∀ c ∈ ring, c.Disjoint 8 b ∧ (c.start+8 ≤ b.start ∨ b.start+8 ≤ c.start) := fun c member => heap.ring_live member (.head _)
  have wide : b.start+8 ≤ b.stop 8 := by
    unfold Extent.stop
    omega
  have split : ∃ left p right, ring = left ++ p :: right ∧ p.start < b.start ∧ ∀ c ∈ right, b.start < c.start := by
    have first := heap.first
    have gapped := heap.gapped
    cases ring with
    | nil => cases first
    | cons a l =>
      obtain rfl : a = ⟨base,0⟩ := Option.some.inj first
      refine gapped.place (show base < b.start by omega) fun c member same => ?_
      have apart := (clear c (.tail _ member)).2
      omega
  obtain ⟨left,p,right,rfl,below,above⟩ := split
  have here : p ∈ left ++ p :: right := mem_append_right _ (.head _)
  have apart := clear p here
  refine ⟨left,p,right,rfl,⟨?_,by omega,fun c member => ?_,?_⟩,fun fuel enough => ?_⟩
  · rcases apart.1 with low | high
    · exact low
    · omega
  · rcases (clear c (mem_append_right _ (.tail _ member))).1 with low | high
    · have := above c member
      have := start_le_stop 8 c
      omega
    · exact high
  · have chain := heap.chain
    rw [map_append,map_cons] at chain
    obtain ⟨m,_,rest⟩ := chain_append.mp chain
    exact rest.tail
  · have chain := heap.chain
    have first : ((left ++ p :: right).map Extent.start).head? = some base := by rw [List.head?_map,heap.first]; rfl
    have starts := heap.gapped.starts
    have rover := heap.rover
    rw [← List.length_map Extent.start] at enough
    rw [map_append,map_cons] at chain first starts rover enough
    exact seek_ring chain first starts below (forall_mem_map.mpr above) rover enough

theorem Heap.insert (heap : Heap base obtained mem freep (left ++ p :: right) (b :: live)) (place : Place base mem b p left right) :
    Heap base obtained (linkDown (linkUp mem p.start b.start) p.start b.start) p.start (left ++ join 8 p (join 8 b right)) live := by
  have full := heap.used b (.head _)
  have bounds := heap.bounds (mem_append_right _ (.head _)) full
  have here : p ∈ left ++ p :: right := mem_append_right _ (.head _)
  have later : ∀ c ∈ right, c ∈ left ++ p :: right := fun c member => mem_append_right _ (.tail _ member)
  have wide : b.start+8 ≤ b.stop 8 := by
    unfold Extent.stop
    omega
  have positive : ∀ c ∈ right, 0 < c.len := fun c member => by
    rcases heap.filled c (later c member) with rfl | some
    · have := place.high _ member
      dsimp only at this
      omega
    · exact some
  obtain ⟨front,middle,cross⟩ := List.pairwise_append.mp heap.gapped
  obtain ⟨_,back⟩ := List.pairwise_cons.mp middle
  -- first b before the blocks behind it
  have one := linkUp_eq mem (.inl place.header)
  have changed := link_elsewhere mem b.start (ptr mem p.start)
  obtain ⟨chain₁,sizes₁⟩ := link_spec ⟨heap.sizes b (mem_append_right _ (.head _)),
    fun c member => heap.sizes c (mem_append_left _ (later c member)),fun c member => by have := place.high c member; omega,place.high,
    fun c member => (heap.bounds (mem_append_left _ (later c member)) (positive c member)).2,bounds.2,fun _ => by omega,heap.word⟩ place.chain
  rw [← one] at changed chain₁ sizes₁
  generalize linkUp mem p.start b.start = mem₁ at *
  -- then p before that
  have beyond : ∀ d ∈ join 8 b right, b.start ≤ d.start ∧ d.stop 8 < 4294967296 := fun d member => by
    constructor
    · rcases join_start member with same | ⟨c,inside,same⟩
      · omega
      · have := place.high c inside
        omega
    · rcases join_stop member with same | ⟨c,inside,same⟩
      · omega
      · have := (heap.bounds (mem_append_left _ (later c inside)) (positive c inside)).2
        omega
  have size_p : size mem₁ p.start = p.len := by
    rw [changed.size (.inl place.header),heap.sizes p (mem_append_left _ here)]
  obtain ⟨d,r,joined,_⟩ := join_first 8 b right
  have two := link_elsewhere mem₁ p.start b.start
  obtain ⟨chain₂,sizes₂⟩ := link_spec ⟨size_p,sizes₁,
    fun c member => by have := (beyond c member).1; have := place.header; omega,
    fun c member => by have := (beyond c member).1; have := place.low; omega,fun c member => (beyond c member).2,
    by have := place.low; omega,fun none => (by rw [joined] at none; cases none),heap.word⟩ chain₁
  show Heap base obtained (link mem₁ p.start b.start) _ _ _
  generalize link mem₁ p.start b.start = mem₂ at *
  have stays : ∀ q, (q+8 ≤ p.start ∨ p.start+8 ≤ q) → (q+8 ≤ b.start ∨ b.start+8 ≤ q) → ptr mem₂ q = ptr mem q ∧ size mem₂ q = size mem q :=
    fun q low high => ⟨(two.ptr low).trans (changed.ptr high),(two.size low).trans (changed.size high)⟩
  have early : ∀ c ∈ left, ptr mem₂ c.start = ptr mem c.start ∧ size mem₂ c.start = size mem c.start := fun c member => by
    have order := heap.headers (mem_append_left _ member) here (cross c member p (.head _))
    have := place.header
    exact stays _ (.inl order) (.inl (by omega))
  have starts : ∀ e ∈ join 8 p (join 8 b right), p.start ≤ e.start := fun e member => by
    have := place.header
    rcases join_start member with same | ⟨c,inside,same⟩
    · omega
    · have := (beyond c inside).1
      omega
  refine ⟨?_,?_,fun e member => ?_,?_,?_,fun e member => ?_,fun e member => heap.used e (.tail _ member),?_,heap.apart,heap.within,
    heap.low,heap.word⟩
  · have first := heap.first
    cases left with
    | nil =>
      obtain rfl : p = ⟨base,0⟩ := Option.some.inj first
      have header := place.header
      rw [joined,List.nil_append,join,if_neg ?_]
      · rfl
      · have := (beyond d (by rw [joined]; exact (.head _))).1
        show base+8*0 ≠ d.start
        omega
    | cons c left => exact first
  · have chain := heap.chain
    rw [map_append,map_cons] at chain
    obtain ⟨m,lead,rest⟩ := chain_append.mp chain
    rw [rest.head] at lead
    rw [map_append]
    exact chain_append.mpr ⟨p.start,lead.congr (forall_mem_map.mpr fun c inside => (early c inside).1),chain₂⟩
  · rcases List.mem_append.mp member with free | taken
    · rcases List.mem_append.mp free with low | high
      · rw [(early e low).2,heap.sizes e (mem_append_left _ (mem_append_left _ low))]
      · exact sizes₂ e high
    · have one := (heap.ring_live here (.tail _ taken)).2
      have two := (heap.live_live taken).2
      rw [(stays e.start one.symm two.symm).2,heap.sizes e (mem_append_right _ (List.mem_cons_of_mem _ taken))]
  · refine List.pairwise_append.mpr ⟨front,join_gapped (join_gapped back place.high) fun c member => ?_,fun a member e other => ?_⟩
    · have := (beyond c member).1
      have := place.low
      omega
    · exact Nat.lt_of_lt_of_le (cross a member p (.head _)) (starts e other)
  · obtain ⟨e,r,made,same,_⟩ := join_first 8 p (join 8 b right)
    rw [map_append,made,map_cons,same]
    exact mem_append_right _ (.head _)
  · rcases List.mem_append.mp member with low | high
    · exact heap.filled e (mem_append_left _ low)
    have inner : ∀ c ∈ join 8 b right, 0 < c.len := fun c member => join_pos full positive member
    rcases heap.filled p here with rfl | some
    · rw [joined,join] at high
      split at high
      · rcases List.mem_cons.mp high with rfl | more
        · refine .inr ?_
          have := inner d (by rw [joined]; exact (.head _))
          show 0 < 0+d.len
          omega
        · exact .inr (inner e (by rw [joined]; exact .tail _ more))
      · rcases List.mem_cons.mp high with rfl | more
        · exact .inl rfl
        · exact .inr (inner e (by rw [joined]; exact more))
    · exact .inr (join_pos some inner high)
  · refine List.Perm.trans ?_ heap.tiles
    simp only [flatMap_append,flatMap_cons,join_units]
    simp only [append_assoc]
    exact .append_left _ (.append_left _ (perm_append_comm_assoc ..))

theorem Heap.free (heap : Heap base obtained s.mem s.freep ring (b :: live)) : ∃ next ring', next.os = s.os ∧
    Heap base obtained next.mem next.freep ring' live ∧ (∃ d ∈ ring', b.len ≤ d.len) ∧ ring'.length ≤ ring.length+1 ∧
    ∀ fuel, ring.length ≤ fuel → free fuel s (b.start+8) = some next := by
  have bounds := heap.bounds (mem_append_right _ (.head _)) (heap.used b (.head _))
  obtain ⟨left,p,right,rfl,place,sought⟩ := heap.place
  have header : back (b.start+8) = b.start := by
    have := start_le_stop 8 b
    unfold back
    omega
  obtain ⟨d,r,joined,_,long⟩ := join_first 8 b right
  refine ⟨⟨linkDown (linkUp s.mem p.start b.start) p.start b.start,p.start,s.os⟩,_,rfl,heap.insert place,?_,?_,fun fuel enough => ?_⟩
  · obtain ⟨e,member,more⟩ := join_rest (l := join 8 b right) (by rw [joined]; exact (.head _))
    exact ⟨e,mem_append_right _ member,by omega⟩
  · have one := join_length 8 b right
    have two := join_length 8 p (join 8 b right)
    rw [length_append,length_append,length_cons]
    omega
  · rw [Umalloc.free,header,sought fuel enough]

theorem Heap.before (heap : Heap base obtained mem freep ring live) (member : x ∈ ring) (full : 0 < x.len)
    (prev : prevp ∈ ring.map Extent.start) (next : ptr mem prevp = x.start) : ∃ left q right, ring = left ++ q :: x :: right ∧ q.start = prevp := by
  obtain ⟨l,right,split⟩ := List.append_of_mem member
  have some : l ≠ [] := by
    rintro rfl
    have first := heap.first
    rw [split] at first
    obtain rfl : x = ⟨base,0⟩ := Option.some.inj first
    exact Nat.lt_irrefl 0 full
  obtain ⟨left,q,rfl⟩ : ∃ left q, l = left ++ [q] := ⟨l.dropLast,l.getLast some,(List.dropLast_append_getLast some).symm⟩
  have whole : ring = left ++ q :: x :: right := by rw [split,append_assoc]; rfl
  refine ⟨left,q,right,whole,?_⟩
  have chain := heap.chain
  have points : ptr mem q.start = x.start := by
    rw [whole,map_append,map_cons,map_cons] at chain
    obtain ⟨m,_,rest⟩ := chain_append.mp chain
    exact rest.tail.head
  refine heap.chain.inj (heap.gapped.starts.imp Nat.ne_of_lt) ?_ prev (points.trans next.symm)
  rw [whole]
  exact List.mem_map_of_mem (by simp)

theorem Heap.unlink (heap : Heap base obtained mem freep (left ++ q :: x :: right) live) (full : 0 < x.len) :
    Heap base obtained (setPtr mem q.start (ptr mem x.start)) q.start (left ++ q :: right) (x :: live) := by
  have fewer : (left ++ q :: right).Sublist (left ++ q :: x :: right) := List.Sublist.append_left (.cons_cons q (List.sublist_cons_self ..)) _
  have here : q ∈ left ++ q :: x :: right := by simp
  have changed := setPtr_elsewhere mem q.start (ptr mem x.start)
  obtain ⟨_,middle,cross⟩ := List.pairwise_append.mp heap.gapped
  obtain ⟨behind,_⟩ := List.pairwise_cons.mp middle
  have headers : ∀ e ∈ left ++ x :: right, e.start+8 ≤ q.start ∨ q.start+8 ≤ e.start := fun e member => by
    rcases List.mem_append.mp member with low | high
    · exact .inl (heap.headers (mem_append_left _ low) here (cross e low q (.head _)))
    · exact .inr (heap.headers here (mem_append_right _ (.tail _ high)) (behind e high))
  refine ⟨?_,?_,fun e member => ?_,heap.gapped.sublist fewer,?_,fun e member => heap.filled e (fewer.subset member),
    forall_mem_cons.mpr ⟨full,heap.used⟩,?_,heap.apart,heap.within,heap.low,heap.word⟩
  · have first := heap.first
    cases left with
    | nil => exact first
    | cons c left => exact first
  · have chain := heap.chain
    simp only [map_append,map_cons] at chain ⊢
    obtain ⟨m,lead,rest⟩ := chain_append.mp chain
    refine chain_append.mpr ⟨m,lead.congr (forall_mem_map.mpr fun c inside => changed.ptr (headers c (mem_append_left _ inside))),rest.head,?_⟩
    rw [ptr_setPtr (ptr_lt ..)]
    exact rest.tail.tail.congr (forall_mem_map.mpr fun c inside => changed.ptr (headers c (mem_append_right _ (.tail _ inside))))
  · have known : size mem e.start = e.len := heap.sizes e (by
      simp only [mem_append,mem_cons] at member ⊢
      tauto)
    rw [← known]
    by_cases same : e.start = q.start
    · rw [same,size_setPtr]
    refine changed.size ?_
    rcases List.mem_append.mp member with free | taken
    · refine headers e ?_
      simp only [mem_append,mem_cons] at free ⊢
      rcases free with low | rfl | high
      · exact .inl low
      · exact absurd rfl same
      · exact .inr (.inr high)
    · rcases List.mem_cons.mp taken with rfl | more
      · exact headers e (by simp)
      · exact (heap.ring_live here more).2.symm
  · simp
  · refine List.Perm.trans ?_ heap.tiles
    simp only [flatMap_append,flatMap_cons,append_assoc]
    exact .append_left _ (.append_left _ (perm_append_comm_assoc ..))

theorem Heap.carve (heap : Heap base obtained mem freep (left ++ x :: right) live) (some : 0 < n) (more : n < x.len)
    (rover : prevp ∈ (left ++ x :: right).map Extent.start) :
    Heap base obtained (setSize (setSize mem x.start (x.len-n)) (x.start+8*(x.len-n)) n) prevp
      (left ++ ⟨x.start,x.len-n⟩ :: right) (⟨x.start+8*(x.len-n),n⟩ :: live) := by
  have here : x ∈ left ++ x :: right := mem_append_right _ (.head _)
  have full : 0 < x.len := by omega
  have bounds := heap.bounds (mem_append_left _ here) full
  have stop : x.stop 8 = x.start+8*(x.len-n)+8*n := by
    unfold Extent.stop
    omega
  have one := setSize_elsewhere mem x.start (x.len-n)
  have two := setSize_elsewhere (setSize mem x.start (x.len-n)) (x.start+8*(x.len-n)) n
  obtain ⟨front,middle,cross⟩ := List.pairwise_append.mp heap.gapped
  obtain ⟨behind,back⟩ := List.pairwise_cons.mp middle
  have stays : ∀ q, (q+8 ≤ x.start ∨ x.stop 8 ≤ q) → ptr (setSize (setSize mem x.start (x.len-n)) (x.start+8*(x.len-n)) n) q = ptr mem q ∧
      size (setSize (setSize mem x.start (x.len-n)) (x.start+8*(x.len-n)) n) q = size mem q := fun q out =>
    ⟨(two.ptr (by omega)).trans (one.ptr (by omega)),(two.size (by omega)).trans (one.size (by omega))⟩
  have kept : ptr (setSize (setSize mem x.start (x.len-n)) (x.start+8*(x.len-n)) n) x.start = ptr mem x.start :=
    (two.ptr (by omega)).trans (ptr_setSize ..)
  have headers : ∀ e ∈ left ++ right, e.start+8 ≤ x.start ∨ x.stop 8 ≤ e.start := fun e member => by
    rcases List.mem_append.mp member with low | high
    · exact .inl (heap.headers (mem_append_left _ low) here (cross e low x (.head _)))
    · exact .inr (Nat.le_of_lt (behind e high))
  have starts : (left ++ Extent.mk x.start (x.len-n) :: right).map Extent.start = (left ++ x :: right).map Extent.start := by simp
  refine ⟨?_,?_,fun e member => ?_,?_,by rw [starts]; exact rover,fun e member => ?_,forall_mem_cons.mpr ⟨some,heap.used⟩,?_,heap.apart,
    heap.within,heap.low,heap.word⟩
  · have first := heap.first
    cases left with
    | nil =>
      obtain rfl : x = ⟨base,0⟩ := Option.some.inj first
      cases full
    | cons c left => exact first
  · rw [starts]
    refine heap.chain.congr (forall_mem_map.mpr fun c inside => ?_)
    simp only [mem_append,mem_cons] at inside
    rcases inside with low | rfl | high
    · exact (stays _ (headers c (mem_append_left _ low))).1
    · exact kept
    · exact (stays _ (headers c (mem_append_right _ high))).1
  · simp only [mem_append,mem_cons] at member
    rcases member with (low | rfl | high) | rfl | taken
    · rw [(stays _ (headers e (mem_append_left _ low))).2]
      exact heap.sizes e (by simp [low])
    · show size _ x.start = x.len-n
      rw [two.size (by omega),size_setSize (by unfold Extent.stop at bounds; omega)]
    · rw [(stays _ (headers e (mem_append_right _ high))).2]
      exact heap.sizes e (by simp [high])
    · exact size_setSize (by unfold Extent.stop at bounds; omega)
    · have clear := (heap.ring_live here taken).1
      have filled := heap.used e taken
      rw [(stays _ ?_).2]
      · exact heap.sizes e (by simp [taken])
      unfold Extent.Disjoint at clear
      have : e.start+8 ≤ e.stop 8 := by
        unfold Extent.stop
        omega
      omega
  · refine List.pairwise_append.mpr ⟨front,List.pairwise_cons.mpr ⟨fun e member => ?_,back⟩,fun a low e member => ?_⟩
    · have := behind e member
      show x.start+8*(x.len-n) < e.start
      omega
    · rcases List.mem_cons.mp member with rfl | high
      · exact cross a low x (.head _)
      · exact cross a low e (.tail _ high)
  · simp only [mem_append,mem_cons] at member
    rcases member with low | rfl | high
    · exact heap.filled e (by simp [low])
    · exact .inr (show 0 < x.len-n by omega)
    · exact heap.filled e (by simp [high])
  · refine List.Perm.trans ?_ heap.tiles
    have parts : x.units 8 = Extent.units 8 ⟨x.start,x.len-n⟩ ++ Extent.units 8 ⟨x.start+8*(x.len-n),n⟩ := by
      rw [← units_split,Nat.sub_add_cancel (Nat.le_of_lt more)]
    simp only [flatMap_append,flatMap_cons,parts,append_assoc]
    exact .append_left _ (.append_left _ (perm_append_comm_assoc ..))

theorem Heap.take (heap : Heap base obtained s.mem s.freep ring live) (member : x ∈ ring) (some : 0 < n) (enough : n ≤ x.len)
    (prev : prevp ∈ ring.map Extent.start) (next : ptr s.mem prevp = x.start) : ∃ b ring' last, take n s prevp x.start = (b.start+8,last) ∧
      b.len = n ∧ last.os = s.os ∧ Heap base obtained last.mem last.freep ring' (b :: live) := by
  have full : 0 < x.len := by omega
  have bounds := heap.bounds (mem_append_left _ member) full
  have size_x := heap.sizes x (mem_append_left _ member)
  have wide : x.start+8*x.len < 4294967296 := bounds.2
  unfold Umalloc.take
  rw [size_x]
  split
  · rename_i same
    obtain ⟨left,q,right,rfl,rfl⟩ := heap.before member full prev next
    have first : add x.start 1 = x.start+8 := Nat.mod_eq_of_lt (by omega)
    rw [first]
    exact ⟨x,_,_,rfl,same,rfl,heap.unlink full⟩
  obtain ⟨left,right,rfl⟩ := List.append_of_mem member
  have carved := heap.carve some (by omega) prev
  dsimp only
  rw [size_setSize (by omega)]
  have place : add x.start (x.len-n) = x.start+8*(x.len-n) := Nat.mod_eq_of_lt (by omega)
  have first : add (x.start+8*(x.len-n)) 1 = x.start+8*(x.len-n)+8 := Nat.mod_eq_of_lt (by omega)
  rw [place,first]
  exact ⟨⟨x.start+8*(x.len-n),n⟩,_,_,rfl,rfl,rfl,carved⟩

theorem Heap.more (heap : Heap base obtained mem freep ring live) (some : 0 < nu) (low : base+8 ≤ a) (high : a+8*nu < 4294967296)
    (fresh : ∀ u ∈ obtained, u+8 ≤ a) :
    Heap base (Extent.units 8 ⟨a,nu⟩ ++ obtained) (setSize mem a nu) freep ring (⟨a,nu⟩ :: live) := by
  have changed := setSize_elsewhere mem a nu
  have headers : ∀ e ∈ ring ++ live, e.start+8 ≤ a := fun e member => by
    by_cases full : 0 < e.len
    · exact fresh e.start (heap.tiles.mem_iff.mp (List.mem_flatMap.mpr ⟨e,member,mem_units.mpr ⟨0,full,rfl⟩⟩))
    rcases List.mem_append.mp member with free | taken
    · rcases heap.filled e free with rfl | positive
      · exact low
      · exact absurd positive full
    · exact absurd (heap.used e taken) full
  have block : ∀ u ∈ Extent.units 8 ⟨a,nu⟩, a ≤ u ∧ u+8 ≤ a+8*nu := fun u member => units_inside member
  refine ⟨heap.first,heap.chain.congr (forall_mem_map.mpr fun e inside => ?_),fun e member => ?_,heap.gapped,heap.rover,heap.filled,
    forall_mem_cons.mpr ⟨some,heap.used⟩,?_,?_,fun u member => ?_,heap.low,heap.word⟩
  · exact changed.ptr (.inl (headers e (mem_append_left _ inside)))
  · simp only [mem_append,mem_cons] at member
    rcases member with free | rfl | taken
    · have inside := mem_append_left live free
      rw [changed.size (.inl (headers e inside)),heap.sizes e inside]
    · exact size_setSize (by omega)
    · have inside := mem_append_right ring taken
      rw [changed.size (.inl (headers e inside)),heap.sizes e inside]
  · refine List.Perm.trans ?_ (heap.tiles.append_left _)
    rw [flatMap_append,flatMap_append,flatMap_cons]
    exact perm_append_comm_assoc ..
  · refine List.pairwise_append.mpr ⟨units_apart 8 _,heap.apart,fun u member v other => .inr ?_⟩
    have := fresh v other
    have := block u member
    omega
  · rcases List.mem_append.mp member with new | old
    · have := block u new
      omega
    · exact heap.within u old

end

def unitsOf (log : List (Nat × Nat)) : List Nat := log.flatMap fun r => Extent.units 8 ⟨r.1,r.2/8⟩

def Fresh {σ : Type} (host : Host σ) (base : Nat) (os : σ) (n : Nat) : Prop :=
  match host.sbrk os n with
  | (none,os') => host.log os' = host.log os
  | (some a,os') => host.log os' = (a,n) :: host.log os ∧ base+8 ≤ a ∧ a+n < 4294967296 ∧ ∀ r ∈ host.log os, r.1+r.2 ≤ a

section
variable {σ : Type} {host : Host σ} {s : State σ} {ring live : List Extent}

def Sound (host : Host σ) (base : Nat) (s : State σ) (ring live : List Extent) : Prop :=
  Heap base (unitsOf (host.log s.os)) s.mem s.freep ring live

theorem unitsOf_below (below : ∀ r ∈ log, r.1+r.2 ≤ a) (member : u ∈ unitsOf log) : u+8 ≤ a := by
  obtain ⟨r,inside,unit⟩ := List.mem_flatMap.mp member
  have known : u+8 ≤ r.1+8*(r.2/8) := (units_inside unit).2
  have := below r inside
  omega

def wanted (n : Nat) : Nat := if n < 4096 then 4096 else n

theorem morecore_fails (fuel : Nat) (given : host.sbrk s.os (wanted n*8 % 4294967296) = (none,os)) :
    morecore host fuel s n = some (0,{ s with os := os }) := by
  unfold wanted at given
  rw [morecore,given]

theorem morecore_gives (given : host.sbrk s.os (wanted n*8 % 4294967296) = (some a,os)) (fuel : Nat) :
    morecore host fuel s n = (free fuel { s with mem := setSize s.mem a (wanted n), os := os } (add a 1)).map fun s => (s.freep,s) := by
  unfold wanted at given ⊢
  rw [morecore,given]
  dsimp only
  cases free fuel { s with mem := setSize s.mem a (if n < 4096 then 4096 else n), os := os } (add a 1) with
  | none => rfl
  | some next => rfl

theorem Sound.grow (sound : Sound host base s ring live) (small : wanted n*8 < 4294967296) (fresh : Fresh host base s.os (wanted n*8)) :
    ∃ r next ring', Sound host base next ring' live ∧ ring'.length ≤ ring.length+1 ∧ (r ≠ 0 → next.freep = r ∧ ∃ d ∈ ring', n ≤ d.len) ∧
      ∀ fuel, ring.length ≤ fuel → morecore host fuel s n = some (r,next) := by
  have at_least : n ≤ wanted n ∧ 0 < wanted n := by
    unfold wanted
    split
    · omega
    · omega
  have asked : (wanted n*8) % 4294967296 = wanted n*8 := Nat.mod_eq_of_lt small
  unfold Fresh at fresh
  cases given : host.sbrk s.os (wanted n*8) with
  | mk answer os =>
    rw [given] at fresh
    cases answer with
    | none =>
      refine ⟨0,{ s with os := os },ring,?_,by omega,fun no => absurd rfl no,fun fuel _ => ?_⟩
      · have same : host.log os = host.log s.os := fresh
        unfold Sound
        rw [same]
        exact sound
      · exact morecore_fails fuel (by rw [asked,given])
    | some a =>
      obtain ⟨log,low,high,above⟩ := fresh
      have grown := Heap.more sound at_least.2 low (by omega) fun u member => unitsOf_below above member
      have logged : unitsOf (host.log os) = Extent.units 8 ⟨a,wanted n⟩ ++ unitsOf (host.log s.os) := by
        rw [log,unitsOf,flatMap_cons,Nat.mul_div_cancel _ (by decide)]
        rfl
      rw [← logged] at grown
      obtain ⟨next,ring',os',heap,⟨d,member,long⟩,few,ran⟩ := Heap.free (s := ⟨setSize s.mem a (wanted n),s.freep,os⟩) grown
      have first : add a 1 = a+8 := Nat.mod_eq_of_lt (by omega)
      refine ⟨next.freep,next,ring',?_,few,fun _ => ⟨rfl,d,member,Nat.le_trans at_least.1 long⟩,fun fuel enough => ?_⟩
      · unfold Sound
        rw [os']
        exact heap
      · rw [morecore_gives (by rw [asked,given]),first]
        rw [ran fuel enough]
        rfl

theorem search_pass (host : Host σ) (l : List Nat) : ∀ {prevp p}, ptr s.mem prevp = p → Chain (ptr s.mem) p (l ++ x :: r) e →
    (∀ d ∈ l, size s.mem d < n ∧ d ≠ s.freep) → ∃ prev ∈ prevp :: l, ptr s.mem prev = x ∧
      ∀ left, search host n (left+l.length) s prevp p = search host n left s prev x := by
  induction l with
  | nil =>
    intro prevp p next walk _
    have here : p = x := walk.head
    exact ⟨prevp,.head _,next.trans here,fun left => by rw [here]; rfl⟩
  | cons d l ih =>
    intro prevp p next walk small
    obtain rfl : p = d := walk.head
    obtain ⟨less,other⟩ := small p (.head _)
    obtain ⟨prev,member,points,same⟩ := ih (show ptr s.mem p = ptr s.mem p from rfl) walk.tail fun c inside => small c (.tail _ inside)
    refine ⟨prev,.tail _ member,points,fun left => ?_⟩
    rw [length_cons,← Nat.add_assoc,search,if_neg (by omega),if_neg other]
    exact same left

section
variable (sound : Sound host base s ring live)
include sound

theorem Sound.around : ∃ walk, Chain (ptr s.mem) (ptr s.mem s.freep) (walk ++ [s.freep]) (ptr s.mem s.freep) ∧
    (walk ++ [s.freep]).Perm (ring.map Extent.start) ∧ s.freep ∉ walk ∧ walk.length+1 = ring.length := by
  obtain ⟨l,r,split⟩ := List.append_of_mem sound.rover
  have once : (ring.map Extent.start).Nodup := sound.gapped.starts.imp Nat.ne_of_lt
  have chain := sound.chain
  have first : (ring.map Extent.start).head? = some base := by rw [List.head?_map,sound.first]; rfl
  have count := congrArg List.length split
  rw [split] at chain first once
  have perm : (r ++ l ++ [s.freep]).Perm (l ++ s.freep :: r) := by
    refine (List.perm_append_singleton _ _).trans (.trans ?_ List.perm_middle.symm)
    exact List.perm_append_comm.cons _
  have turned := (chain.rotate first).tail
  refine ⟨r ++ l,chain_append.mpr ⟨_,turned,rfl,rfl⟩,by rw [split]; exact perm,?_,?_⟩
  · have apart := perm.nodup_iff.mpr once
    exact fun member => (List.nodup_append.mp apart).2.2 _ member _ (List.mem_singleton_self _) rfl
  · rw [List.length_map] at count
    rw [count]
    simp only [length_append,length_cons]
    omega

theorem Sound.found (some : 0 < n) (large : ∃ x ∈ ring, n ≤ x.len) : ∃ b ring' last, b.len = n ∧
    last.os = s.os ∧ Sound host base last ring' (b :: live) ∧
    ∀ fuel, ring.length ≤ fuel → search host n fuel s s.freep (ptr s.mem s.freep) = Option.some (b.start+8,last) := by
  obtain ⟨walk,chain,perm,once,count⟩ := sound.around
  obtain ⟨x,member,long⟩ := large
  have there : x.start ∈ walk ++ [s.freep] := perm.mem_iff.mpr (List.mem_map_of_mem member)
  have size_x := sound.sizes x (mem_append_left _ member)
  have hit : ((walk ++ [s.freep]).find? fun d => n ≤ size s.mem d).isSome := by
    rw [List.find?_isSome]
    exact ⟨x.start,there,by rw [size_x]; exact decide_eq_true long⟩
  obtain ⟨y,seen⟩ := Option.isSome_iff_exists.mp hit
  obtain ⟨fits,passed,after,split,less⟩ := List.find?_eq_some_iff_append.mp seen
  have fits : n ≤ size s.mem y := of_decide_eq_true fits
  have early : ∀ d ∈ passed, d ∈ walk := fun d inside => by
    rcases List.eq_nil_or_concat after with rfl | ⟨front,z,rfl⟩
    · rw [List.append_inj_left' split rfl]
      exact inside
    have front : walk = passed ++ y :: front := by
      rw [List.concat_eq_append,← List.cons_append,← append_assoc] at split
      exact List.append_inj_left' split rfl
    rw [front]
    exact mem_append_left _ inside
  have small : ∀ d ∈ passed, size s.mem d < n ∧ d ≠ s.freep := fun d inside => by
    refine ⟨?_,fun same => once (same ▸ early d inside)⟩
    have := less d inside
    simpa using this
  rw [split] at chain
  obtain ⟨prev,from_walk,points,same⟩ := search_pass host passed rfl chain small
  have on_ring : prev ∈ ring.map Extent.start := by
    refine perm.mem_iff.mp ?_
    rcases List.mem_cons.mp from_walk with rfl | inside
    · exact mem_append_right _ (List.mem_singleton_self _)
    · exact mem_append_left _ (early prev inside)
  obtain ⟨z,free,rfl⟩ := List.mem_map.mp (perm.mem_iff.mp (show y ∈ walk ++ [s.freep] by rw [split]; simp))
  have size_z := sound.sizes z (mem_append_left _ free)
  rw [size_z] at fits
  obtain ⟨b,ring',last,taken,length,os,heap⟩ := Heap.take sound free some fits on_ring points
  refine ⟨b,ring',last,length,os,?_,fun fuel enough => ?_⟩
  · unfold Sound
    rw [os]
    exact heap
  · have room : passed.length ≤ walk.length := by
      have := congrArg List.length split
      simp only [length_append,length_cons,List.length_nil] at this
      omega
    obtain ⟨left,rfl⟩ : ∃ left, fuel = left+1+passed.length := ⟨fuel-1-passed.length,by omega⟩
    rw [same,search,if_pos (by rw [size_z]; exact fits),taken]

theorem Sound.exhausted (small : ∀ x ∈ ring, x.len < n) (ran : morecore host left s n = some (r,next)) :
    search host n (left+ring.length) s s.freep (ptr s.mem s.freep) =
      if r = 0 then some (0,next) else search host n left next r (ptr next.mem r) := by
  obtain ⟨walk,chain,perm,once,count⟩ := sound.around
  have less : ∀ d ∈ walk ++ [s.freep], size s.mem d < n := fun d member => by
    obtain ⟨x,free,rfl⟩ := List.mem_map.mp (perm.mem_iff.mp member)
    rw [sound.sizes x (mem_append_left _ free)]
    exact small x free
  obtain ⟨prev,_,_,same⟩ := search_pass host walk rfl chain fun d inside =>
    ⟨less d (mem_append_left _ inside),fun eq => once (eq ▸ inside)⟩
  have last : size s.mem s.freep < n := less _ (mem_append_right _ (List.mem_singleton_self _))
  rw [← count,Nat.add_comm walk.length,← Nat.add_assoc,same,search,if_neg (by omega),if_pos rfl,ran]
  cases r with
  | zero => rfl
  | succ r => rfl

theorem Sound.answers (some : 0 < n) (small : wanted n*8 < 4294967296)
    (fresh : Fresh host base s.os (wanted n*8)) : ∃ r next ring', (∃ most, ∀ fuel, most ≤ fuel →
        search host n fuel s s.freep (ptr s.mem s.freep) = Option.some (r,next)) ∧
      (r = 0 ∧ Sound host base next ring' live ∨ ∃ b, r = b.start+8 ∧ b.len = n ∧ Sound host base next ring' (b :: live)) := by
  by_cases large : ∃ x ∈ ring, n ≤ x.len
  · obtain ⟨b,ring',last,length,_,heap,ran⟩ := sound.found some large
    exact ⟨_,last,ring',⟨_,ran⟩,.inr ⟨b,rfl,length,heap⟩⟩
  have less : ∀ x ∈ ring, x.len < n := fun x member => Nat.lt_of_not_le fun long => large ⟨x,member,long⟩
  obtain ⟨r,next,ring',grown,few,success,ran⟩ := sound.grow small fresh
  by_cases failed : r = 0
  · subst failed
    refine ⟨0,next,ring',⟨2*ring.length,fun fuel enough => ?_⟩,.inl ⟨rfl,grown⟩⟩
    obtain ⟨left,rfl⟩ : ∃ left, fuel = left+ring.length := ⟨fuel-ring.length,by omega⟩
    rw [sound.exhausted less (ran left (by omega)),if_pos rfl]
  obtain ⟨rfl,large⟩ := success failed
  obtain ⟨b,ring'',last,length,_,heap,again⟩ := grown.found some large
  refine ⟨_,last,ring'',⟨2*ring.length+1,fun fuel enough => ?_⟩,.inr ⟨b,rfl,length,heap⟩⟩
  obtain ⟨left,rfl⟩ : ∃ left, fuel = left+ring.length := ⟨fuel-ring.length,by omega⟩
  rw [sound.exhausted less (ran left (by omega)),if_neg failed,again left (by omega)]

end

end
end Xv6.User.Umalloc
