import Mathlib.Data.List.Pairwise
import Mathlib.Data.List.Basic

namespace Extents

-- Extents of memory in units of w bytes, in increasing order with gaps between them.

structure Extent where
  start : Nat
  len : Nat
deriving DecidableEq, Repr

section
variable {w : Nat} {a b c : Extent} {l r : List Extent}

def Extent.stop (w : Nat) (e : Extent) : Nat := e.start + w*e.len

def Extent.units (w : Nat) (e : Extent) : List Nat := (List.range e.len).map fun k => e.start + w*k

theorem units_split (w start m n : Nat) :
    Extent.units w ⟨start,m+n⟩ = Extent.units w ⟨start,m⟩ ++ Extent.units w ⟨start+w*m,n⟩ := by
  unfold Extent.units
  rw [List.range_add,List.map_append,List.map_map]
  congr 1
  refine List.map_congr_left fun k _ => ?_
  dsimp only [Function.comp]
  rw [Nat.mul_add,Nat.add_assoc]

theorem mem_units : u ∈ a.units w ↔ ∃ k < a.len, u = a.start + w*k := by
  unfold Extent.units
  rw [List.mem_map]
  constructor
  · rintro ⟨k,inside,rfl⟩
    exact ⟨k,List.mem_range.mp inside,rfl⟩
  · rintro ⟨k,inside,rfl⟩
    exact ⟨k,List.mem_range.mpr inside,rfl⟩

def Gapped (w : Nat) (l : List Extent) : Prop := l.Pairwise fun a b => a.stop w < b.start

theorem start_le_stop (w : Nat) (a : Extent) : a.start ≤ a.stop w := Nat.le_add_right ..

theorem Gapped.starts (gapped : Gapped w l) : (l.map Extent.start).Pairwise (· < ·) :=
  List.pairwise_map.mpr (gapped.imp fun less => Nat.lt_of_le_of_lt (start_le_stop w _) less)

theorem Gapped.place (gapped : Gapped w (a :: l)) (below : a.start < x) (other : ∀ c ∈ l, c.start ≠ x) :
    ∃ left p right, a :: l = left ++ p :: right ∧ p.start < x ∧ ∀ c ∈ right, x < c.start := by
  induction l generalizing a with
  | nil => exact ⟨[],a,[],rfl,below,fun c no => (by cases no)⟩
  | cons c l ih =>
    have later := (List.pairwise_cons.mp gapped).2
    by_cases low : c.start < x
    · obtain ⟨left,p,right,split,under,above⟩ := ih later low fun d member => other d (.tail _ member)
      exact ⟨a :: left,p,right,by rw [split]; rfl,under,above⟩
    have high : x < c.start := Nat.lt_of_le_of_ne (Nat.le_of_not_lt low) (other c (.head _)).symm
    refine ⟨[],a,c :: l,rfl,below,fun d member => ?_⟩
    rcases List.mem_cons.mp member with rfl | more
    · exact high
    · exact Nat.lt_trans high (Nat.lt_of_le_of_lt (start_le_stop w c) ((List.pairwise_cons.mp later).1 d more))

def Apart (w u v : Nat) : Prop := u+w ≤ v ∨ v+w ≤ u

theorem Apart.symm (apart : Apart w u v) : Apart w v u := Or.symm apart

theorem units_inside (member : u ∈ a.units w) : a.start ≤ u ∧ u+w ≤ a.stop w := by
  obtain ⟨k,inside,rfl⟩ := mem_units.mp member
  have last : w*(k+1) ≤ w*a.len := Nat.mul_le_mul_left w inside
  rw [Nat.mul_add,Nat.mul_one] at last
  unfold Extent.stop
  omega

theorem units_bound (some : 0 < a.len) (within : ∀ u ∈ a.units w, low ≤ u ∧ u+w ≤ high) : low ≤ a.start ∧ a.stop w ≤ high := by
  have first := within a.start (mem_units.mpr ⟨0,some,by simp⟩)
  have last := within (a.start+w*(a.len-1)) (mem_units.mpr ⟨a.len-1,by omega,rfl⟩)
  have whole : w*(a.len-1)+w = w*a.len := by
    rw [← Nat.mul_succ]
    congr 1
    omega
  unfold Extent.stop
  omega

theorem units_apart (w : Nat) (a : Extent) : (a.units w).Pairwise (Apart w) := by
  refine List.pairwise_map.mpr (List.pairwise_lt_range.imp fun {i j} less => .inl ?_)
  have next : w*(i+1) ≤ w*j := Nat.mul_le_mul_left w less
  rw [Nat.mul_add,Nat.mul_one] at next
  omega

theorem apart_order (wide : 0 < w) (some : 0 < b.len) (order : a.start ≤ b.start) (apart : ∀ u ∈ a.units w, ∀ v ∈ b.units w, Apart w u v) :
    a.stop w ≤ b.start := by
  have parts := Nat.div_add_mod (b.start-a.start) w
  have rest := Nat.mod_lt (b.start-a.start) wide
  by_contra inside
  have early : (b.start-a.start)/w < a.len := by
    by_contra late
    have far : w*a.len ≤ w*((b.start-a.start)/w) := Nat.mul_le_mul_left w (Nat.le_of_not_lt late)
    unfold Extent.stop at inside
    omega
  have clash := apart _ (mem_units.mpr ⟨_,early,rfl⟩) b.start (mem_units.mpr ⟨0,some,by simp⟩)
  unfold Apart at clash
  omega

def Extent.Disjoint (w : Nat) (a b : Extent) : Prop := a.stop w ≤ b.start ∨ b.stop w ≤ a.start

theorem disjoint_of_apart (wide : 0 < w) (first : 0 < a.len) (second : 0 < b.len) (apart : ∀ u ∈ a.units w, ∀ v ∈ b.units w, Apart w u v) :
    a.Disjoint w b := by
  rcases Nat.le_total a.start b.start with order | order
  · exact .inl (apart_order wide second order apart)
  · exact .inr (apart_order wide first order fun u member v other => (apart v other u member).symm)

-- b in front of the extents l, in one with the first of them where they touch.
def join (w : Nat) (b : Extent) : List Extent → List Extent
  | [] => [b]
  | c :: l => if b.stop w = c.start then ⟨b.start,b.len+c.len⟩ :: l else b :: c :: l

theorem join_units (w : Nat) (b : Extent) (l : List Extent) :
    (join w b l).flatMap (Extent.units w) = b.units w ++ l.flatMap (Extent.units w) := by
  cases l with
  | nil => simp [join]
  | cons c l =>
    rw [join]
    split
    · rename_i touch
      rw [List.flatMap_cons,List.flatMap_cons,units_split,← List.append_assoc]
      unfold Extent.stop at touch
      rw [touch]
    · rw [List.flatMap_cons]

theorem join_gapped (gapped : Gapped w l) (behind : ∀ c ∈ l, b.stop w ≤ c.start) : Gapped w (join w b l) := by
  cases l with
  | nil => exact List.pairwise_singleton _ _
  | cons c l =>
    obtain ⟨first,later⟩ := List.pairwise_cons.mp gapped
    rw [join]
    split
    · rename_i touch
      refine List.pairwise_cons.mpr ⟨fun d member => ?_,later⟩
      have stop : Extent.stop w ⟨b.start,b.len+c.len⟩ = c.stop w := by
        unfold Extent.stop at touch ⊢
        rw [← touch,Nat.mul_add,Nat.add_assoc]
      rw [stop]
      exact first d member
    · rename_i apart
      have less : b.stop w < c.start := Nat.lt_of_le_of_ne (behind c (.head _)) apart
      refine List.pairwise_cons.mpr ⟨fun d member => ?_,gapped⟩
      rcases List.mem_cons.mp member with rfl | more
      · exact less
      · exact Nat.lt_trans less (Nat.lt_of_le_of_lt (start_le_stop w c) (first d more))

theorem join_start (member : d ∈ join w b l) : d.start = b.start ∨ ∃ c ∈ l, d.start = c.start := by
  cases l with
  | nil =>
    rw [join,List.mem_singleton] at member
    exact .inl (by rw [member])
  | cons c l =>
    rw [join] at member
    split at member
    · rcases List.mem_cons.mp member with rfl | more
      · exact .inl rfl
      · exact .inr ⟨d,.tail _ more,rfl⟩
    · rcases List.mem_cons.mp member with rfl | more
      · exact .inl rfl
      · exact .inr ⟨d,more,rfl⟩

theorem join_stop (member : d ∈ join w b l) : d.stop w = b.stop w ∨ ∃ c ∈ l, d.stop w = c.stop w := by
  cases l with
  | nil =>
    rw [join,List.mem_singleton] at member
    exact .inl (by rw [member])
  | cons c l =>
    rw [join] at member
    split at member
    · rename_i touch
      rcases List.mem_cons.mp member with rfl | more
      · refine .inr ⟨c,.head _,?_⟩
        unfold Extent.stop at touch ⊢
        rw [← touch,Nat.mul_add,Nat.add_assoc]
      · exact .inr ⟨d,.tail _ more,rfl⟩
    · rcases List.mem_cons.mp member with rfl | more
      · exact .inl rfl
      · exact .inr ⟨d,more,rfl⟩

theorem join_first (w : Nat) (b : Extent) (l : List Extent) : ∃ d r, join w b l = d :: r ∧ d.start = b.start ∧ b.len ≤ d.len := by
  cases l with
  | nil => exact ⟨b,[],rfl,rfl,.refl⟩
  | cons c l =>
    rw [join]
    split
    · exact ⟨_,_,rfl,rfl,Nat.le_add_right ..⟩
    · exact ⟨_,_,rfl,rfl,.refl⟩

theorem join_pos (here : 0 < b.len) (rest : ∀ c ∈ l, 0 < c.len) (member : d ∈ join w b l) : 0 < d.len := by
  cases l with
  | nil =>
    rw [join,List.mem_singleton] at member
    rw [member]
    exact here
  | cons c l =>
    rw [join] at member
    split at member
    · rcases List.mem_cons.mp member with rfl | more
      · exact Nat.add_pos_left here _
      · exact rest d (.tail _ more)
    · rcases List.mem_cons.mp member with rfl | more
      · exact here
      · exact rest d more

theorem join_rest (member : c ∈ l) : ∃ d ∈ join w b l, c.len ≤ d.len := by
  cases l with
  | nil => cases member
  | cons e l =>
    rw [join]
    split
    · rcases List.mem_cons.mp member with rfl | more
      · exact ⟨_,.head _,Nat.le_add_left ..⟩
      · exact ⟨c,.tail _ more,.refl⟩
    · exact ⟨c,.tail _ member,.refl⟩

theorem join_length (w : Nat) (b : Extent) (l : List Extent) : (join w b l).length ≤ l.length+1 := by
  cases l with
  | nil => exact Nat.le_refl _
  | cons c l =>
    rw [join]
    split
    · simp
    · simp

end
end Extents
