import Mathlib.Data.List.Basic

namespace Xv6.Split

open Function (update update_apply)

-- split, the same in make.c and script.c. src is what is left from i on; a slot of
-- result is a block of the caller's MAX_NAME_LINGTH bytes.
structure State where
  single : Bool
  double : Bool
  result : Nat → Nat → UInt8
  number : Nat
  position : Nat
  i : Nat
  -- The writes into the blocks: slot and index.
  writes : List (Nat × Nat)

def store (s : State) (c : UInt8) : State :=
  { s with
    single := s.single ^^ (c == 39)
    double := s.double ^^ (c == 34)
    result := update s.result s.number (update (s.result s.number) (s.i-s.position) c)
    writes := (s.number,s.i-s.position) :: s.writes
    i := s.i+1 }

-- The inner loop.
def scan (pattern : UInt8) : List UInt8 → State → List UInt8 × State
  | [],s => ([],s)
  | c :: src,s => if c ≠ pattern ∨ s.single ∨ s.double then scan pattern src (store s c) else (c :: src,s)

-- Behind a separator; more tells that i+1 < len.
def behind (more : Bool) (s : State) : State :=
  if more ∧ s.result s.number 0 ≠ 0 then
    { s with position := s.i+1, i := s.i+1, number := s.number+1, result := update s.result (s.number+1) fun _ => 0 }
  else { s with position := s.i+1, i := s.i+1 }

def splitLoop (pattern : UInt8) : Nat → List UInt8 → State → State
  | 0,_,s => s
  | fuel+1,src,s => match scan pattern src s with
    | ([],t) => t
    | (_ :: rest,t) => splitLoop pattern fuel rest (behind (rest ≠ []) t)

def splitFinal (src : List UInt8) (pattern : UInt8) (heap : Nat → Nat → UInt8) : State :=
  splitLoop pattern (src.length+1) src ⟨false,false,update heap 0 fun _ => 0,0,0,0,[]⟩

def split (src : List UInt8) (pattern : UInt8) (heap : Nat → Nat → UInt8) : Nat × (Nat → Nat → UInt8) :=
  let s := splitFinal src pattern heap
  (if s.result s.number 0 ≠ 0 then s.number+1 else s.number,s.result)

-- The maximal pieces between the separators that lie outside quotes, w being the one so far,
-- and the fields among them.
def pieces (pattern : UInt8) : Bool → Bool → List UInt8 → List UInt8 → List (List UInt8)
  | _,_,w,[] => [w]
  | single,double,w,c :: src =>
    if c ≠ pattern ∨ single ∨ double then pieces pattern (single ^^ (c == 39)) (double ^^ (c == 34)) (w ++ [c]) src
    else w :: pieces pattern single double [] src

def filled (l : List (List UInt8)) : List (List UInt8) := l.filter (· ≠ [])

def fields (src : List UInt8) (pattern : UInt8) : List (List UInt8) := filled (pieces pattern false false [] src)

-- The fields that a separator before the last character closes.
def closed (src : List UInt8) (pattern : UInt8) : List (List UInt8) := filled (pieces pattern false false [] src.dropLast).dropLast

-- The fields stored so far, and what of the next is in the current slot.
structure Holds (s : State) (done : List (List UInt8)) (w : List UInt8) : Prop where
  number : s.number = done.length
  stored : ∀ k ≤ done.length, ∀ j, s.result k j = ((done ++ [w]).getD k []).getD j 0
  writes : ∀ k j, (k,j) ∈ s.writes ↔ j < ((done ++ [w]).getD k []).length
  full : filled done = done
  text : 0 ∉ w

theorem getD_concat (done : List (List UInt8)) (w : List UInt8) (k : Nat) :
    (done ++ [w]).getD k [] = if k = done.length then w else done.getD k [] := by grind

theorem Holds.store (holds : Holds s done w) (offset : s.i = s.position+w.length) (nonzero : c ≠ 0) : Holds (store s c) done (w ++ [c]) := by
  have index : s.i-s.position = w.length := by omega
  obtain ⟨number,stored,writes,full,text⟩ := holds
  refine ⟨number,fun k low j => ?_,fun k j => ?_,full,by simp [text,nonzero.symm]⟩
  · have row := stored k low j
    simp only [getD_concat,Split.store,index,number,update_apply,ite_apply] at row ⊢
    grind
  · have row := writes k j
    simp only [getD_concat,Split.store,index,number] at row ⊢
    grind

theorem Holds.head (holds : Holds s done w) : s.result s.number 0 ≠ 0 ↔ w ≠ [] := by
  have first := holds.stored s.number (Nat.le_of_eq holds.number) 0
  have text := holds.text
  rw [getD_concat,if_pos holds.number] at first
  cases w with
  | nil => simp [first]
  | cons c w =>
    have nonzero : c ≠ 0 := fun zero => text (by simp [zero])
    simp [first,nonzero]

theorem Holds.opens (holds : Holds s done w) (some : w ≠ []) : Holds (behind true s) (done ++ [w]) [] := by
  rw [Split.behind,if_pos ⟨rfl,holds.head.mpr some⟩]
  obtain ⟨number,stored,writes,full,text⟩ := holds
  refine ⟨by simp [number],fun k low j => ?_,fun k j => ?_,?_,by simp⟩
  · have row := stored k
    simp only [getD_concat (done ++ [w]),number,update_apply,ite_apply,List.length_append,List.length_singleton] at row low ⊢
    grind
  · have row := writes k j
    simp only [getD_concat (done ++ [w])] at row ⊢
    grind
  · rw [filled,List.filter_append,← filled,full]
    simp [some]

theorem Holds.stays (holds : Holds s done w) (no : more = false ∨ w = []) : Holds (behind more s) done w := by
  have same : ¬ (more = true ∧ s.result s.number 0 ≠ 0) := by rw [holds.head]; grind
  rw [Split.behind,if_neg same]
  exact { holds with }

theorem splitLoop_nil (pattern : UInt8) (fuel : Nat) (s : State) : splitLoop pattern fuel [] s = s := by
  cases fuel with
  | zero => rfl
  | succ fuel => rfl

theorem filled_cons (w : List UInt8) (l : List (List UInt8)) : filled (w :: l) = if w = [] then filled l else w :: filled l := by
  simp only [filled,List.filter_cons,decide_not,Bool.not_eq_true',decide_eq_false_iff_not]
  split <;> simp_all

theorem filled_last (full : filled done = done) (w : List UInt8) : filled (done ++ [w]) = done ++ filled [w] := by
  rw [filled,List.filter_append,← filled,full]
  rfl

theorem pieces_ne (pattern : UInt8) (single double : Bool) (w src : List UInt8) : pieces pattern single double w src ≠ [] := by
  induction src generalizing single double w with
  | nil => exact List.cons_ne_nil _ _
  | cons c src ih =>
    rw [pieces]
    split
    · exact ih _ _ _
    · exact List.cons_ne_nil _ _

theorem behind_quotes (more : Bool) (s : State) :
    (behind more s).single = s.single ∧ (behind more s).double = s.double ∧ (behind more s).i = (behind more s).position := by
  unfold behind
  split
  · exact ⟨rfl,rfl,rfl⟩
  · exact ⟨rfl,rfl,rfl⟩

-- A slot is opened at every separator that closes a field, the last character apart.
theorem splitLoop_holds (enough : src.length < fuel) (holds : Holds s done w) (offset : s.i = s.position+w.length) (text : 0 ∉ src) :
    ∃ more last, Holds (splitLoop pattern fuel src s) more last ∧ filled (more ++ [last]) = done ++ filled (pieces pattern s.single s.double w src) ∧
      more = done ++ filled (pieces pattern s.single s.double w src.dropLast).dropLast := by
  induction src generalizing s done w fuel with
  | nil =>
    rw [splitLoop_nil]
    exact ⟨done,w,holds,filled_last holds.full w,by simp [pieces,filled]⟩
  | cons c src ih =>
    obtain ⟨fuel,rfl⟩ : ∃ k, fuel = k+1 := ⟨fuel-1,by omega⟩
    simp only [List.mem_cons,not_or,List.length_cons] at text enough
    by_cases inside : c ≠ pattern ∨ s.single ∨ s.double
    · have next : (store s c).i = (store s c).position+(w ++ [c]).length := by simp [store,offset]; omega
      obtain ⟨more,last,held,all,opened⟩ := @ih (fuel+1) _ _ _ (by omega) (holds.store offset (Ne.symm text.1)) next text.2
      rw [splitLoop,scan,if_pos inside,← splitLoop,pieces,if_pos inside]
      refine ⟨more,last,held,all,?_⟩
      cases src with
      | nil => simpa [pieces] using opened
      | cons d src => rwa [List.dropLast_cons_cons,pieces,if_pos inside]
    have splits : ∀ src, pieces pattern s.single s.double w (c :: src) = w :: pieces pattern s.single s.double [] src :=
      fun src => by rw [pieces,if_neg inside]
    rw [splitLoop,scan,if_neg inside,splits,filled_cons]
    cases src with
    | nil =>
      refine ⟨done,w,?_,?_,by simp [pieces,filled]⟩
      · show Holds (splitLoop pattern fuel [] (behind false s)) done w
        rw [splitLoop_nil]
        exact holds.stays (.inl rfl)
      · rw [filled_last holds.full,filled_cons]
        simp [pieces,filled]
    | cons d src =>
      obtain ⟨single,double,start⟩ := behind_quotes true s
      rw [List.dropLast_cons_cons,splits,List.dropLast_cons_of_ne_nil (pieces_ne _ _ _ _ _),filled_cons,← single,← double]
      by_cases no : w = []
      · rw [if_pos no,if_pos no]
        have held : Holds (behind true s) done w := holds.stays (.inr no)
        rw [no] at held
        exact ih (by omega) held start text.2
      · rw [if_neg no,if_neg no]
        have held := @ih fuel _ _ _ (by omega) (holds.opens no) start text.2
        simpa using held

theorem splitFinal_holds (src : List UInt8) (pattern : UInt8) (heap : Nat → Nat → UInt8) (text : 0 ∉ src) :
    ∃ last, Holds (splitFinal src pattern heap) (closed src pattern) last ∧ filled (closed src pattern ++ [last]) = fields src pattern := by
  have first : Holds ⟨false,false,update heap 0 fun _ => 0,0,0,0,[]⟩ [] [] := by
    refine ⟨rfl,fun k zero j => ?_,fun k j => by cases k <;> simp,rfl,by simp⟩
    rw [Nat.le_zero.mp zero]
    simp
  obtain ⟨more,last,held,all,opened⟩ := @splitLoop_holds _ _ _ _ _ pattern (Nat.lt_succ_self src.length) first rfl text
  subst opened
  exact ⟨last,held,all⟩

section
variable {src : List UInt8} {pattern : UInt8} {heap : Nat → Nat → UInt8} {last : List UInt8}
  (held : Holds (splitFinal src pattern heap) (closed src pattern) last) (all : filled (closed src pattern ++ [last]) = fields src pattern)
include held all

theorem fields_last : fields src pattern = closed src pattern ++ if last = [] then [] else [last] := by
  rw [← all,filled_last held.full,filled_cons]
  rfl

theorem writes_fields (name : Nat) :
    (∀ write ∈ (splitFinal src pattern heap).writes, write.2 < name-1) ↔ ∀ f ∈ fields src pattern, f.length < name := by
  rw [← all]
  constructor
  · intro inside f member
    obtain ⟨member,some⟩ := List.mem_filter.mp member
    obtain ⟨k,low,rfl⟩ := List.getElem_of_mem member
    have long : 0 < ((closed src pattern ++ [last])[k]).length := List.length_pos_iff.mpr (by simpa using some)
    have last := inside _ ((held.writes k (((closed src pattern ++ [last])[k]).length-1)).mpr (by grind))
    simp only at last
    omega
  · rintro short ⟨k,j⟩ write
    have low := (held.writes k j).mp write
    have size := short ((closed src pattern ++ [last]).getD k []) (List.mem_filter.mpr ⟨by grind,by grind⟩)
    simp only
    omega

end

-- The fields in order, each with a NUL in its block of name bytes.
theorem split_fields (src : List UInt8) (pattern : UInt8) (heap : Nat → Nat → UInt8) (name : Nat) (text : 0 ∉ src)
    (short : ∀ f ∈ fields src pattern, f.length < name) :
    (split src pattern heap).1 = (fields src pattern).length ∧
      (∀ k < (fields src pattern).length, ∀ j, (split src pattern heap).2 k j = ((fields src pattern).getD k []).getD j 0) ∧
      ∀ write ∈ (splitFinal src pattern heap).writes, write.2 < name-1 := by
  obtain ⟨last,held,all⟩ := splitFinal_holds src pattern heap text
  have whole := fields_last held all
  refine ⟨?_,fun k low j => ?_,(writes_fields held all name).mpr short⟩
  · have head := held.head
    simp only [split,held.number,whole] at head ⊢
    grind
  · rw [whole] at low ⊢
    show (splitFinal src pattern heap).result k j = _
    rw [held.stored k (by grind) j]
    grind

theorem split_fields_two : (split [97,32,34,98,32,34] 32 fun _ _ => 0).1 = 2 :=
  (split_fields [97,32,34,98,32,34] 32 (fun _ _ => 0) 24 (by decide) (by decide)).1

-- Who calls split: the length of a line, of a block and of the result array.
structure Caller where
  line : Nat
  name : Nat
  room : Nat

-- run_command of script.c and runcomand of make.c.
def runCommand : Caller := ⟨32,24,8⟩
def runcomand : Caller := ⟨256,16,256⟩

def Inside (caller : Caller) (src : List UInt8) (pattern : UInt8) (heap : Nat → Nat → UInt8) : Prop :=
  (∀ write ∈ (splitFinal src pattern heap).writes, write.2 < caller.name-1) ∧ (splitFinal src pattern heap).number < caller.room
deriving Decidable

theorem split_inside (caller : Caller) (src : List UInt8) (pattern : UInt8) (heap : Nat → Nat → UInt8) (text : 0 ∉ src) :
    Inside caller src pattern heap ↔ (∀ f ∈ fields src pattern, f.length < caller.name) ∧ (closed src pattern).length < caller.room := by
  obtain ⟨last,held,all⟩ := splitFinal_holds src pattern heap text
  rw [Inside,writes_fields held all,held.number]

-- ls -l
theorem split_inside_ls : Inside runCommand [108,115,32,45,108] 32 fun _ _ => 0 :=
  (split_inside runCommand [108,115,32,45,108] 32 (fun _ _ => 0) (by decide)).mpr (by decide +kernel)

-- A word of 24 letters, one of 16, and nine words of one.
theorem split_inside_long : 24 < runCommand.line ∧ ¬ Inside runCommand (List.replicate 24 97) 32 (fun _ _ => 0) ∧
    16 < runcomand.line ∧ ¬ Inside runcomand (List.replicate 16 97) 32 (fun _ _ => 0) ∧
    18 < runCommand.line ∧ ¬ Inside runCommand (List.replicate 9 [97,32]).flatten 32 (fun _ _ => 0) := by decide +kernel

end Xv6.Split
