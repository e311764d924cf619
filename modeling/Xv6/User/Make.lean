import Xv6.User.EditorFile
import Mathlib.Data.List.GetD

namespace Xv6.User.Make
open Editor

-- The variables of make, and how a recipe line is expanded.

-- The list of VNODEs, the last definition first.
structure Variables where
  table : List (List UInt8 × List UInt8)
  clean : ∀ v ∈ table, 36 ∉ v.2

def Variables.find (vars : Variables) (name : List UInt8) : Option (List UInt8) := (vars.table.find? fun v => v.1 = name).map Prod.snd

-- src with the bytes from st to ed replaced by dest. The NUL goes where the length that was computed says.
def combinetwostring (src : List UInt8) (st ed : Nat) (dest : List UInt8) : List UInt8 :=
  (src.take st ++ dest ++ src.drop (ed+1)).take (src.length+dest.length-(ed-st+1))

-- The bytes from popst on, up to ')' or the end.
def reference (s : List UInt8) (popst : Nat) : List UInt8 := (s.drop popst).takeWhile (· ≠ 41)

-- tempstr[i] is '$' and the next byte is '('.
def Opens (s : List UInt8) (i : Nat) : Prop := s.getD i 0 = 36 ∧ s.getD (i+1) 0 = 40

instance (s : List UInt8) (i : Nat) : Decidable (Opens s i) := inferInstanceAs (Decidable (_ ∧ _))

theorem Variables.find_clean (vars : Variables) (found : vars.find name = some value) : 36 ∉ value := by
  unfold find at found
  cases here : vars.table.find? fun v => v.1 = name with
  | none => rw [here] at found; cases found
  | some v =>
    rw [here] at found
    cases found
    exact vars.clean v (List.mem_of_find?_eq_some here)

theorem combine_count (opens : Opens s i) (clean : 36 ∉ value) (far : i ≤ ed) :
    (combinetwostring s i ed value).count 36 < s.count 36 := by
  have inside : i < s.length := by
    by_contra out
    have past := opens.1
    rw [List.getD_eq_getElem?_getD,List.getElem?_eq_none (by omega)] at past
    cases past
  have here : s.get ⟨i,inside⟩ = 36 := by
    have at_i := opens.1
    rwa [List.getD_eq_getElem?_getD,List.getElem?_eq_getElem inside] at at_i
  have parts : s.count 36 = (s.take i).count 36 + (1 + (s.drop (i+1)).count 36) := by
    conv_lhs => rw [← List.take_append_drop i s,List.drop_eq_getElem_cons inside,List.count_append]
    rw [show s[i] = 36 from here,List.count_cons_self]
    omega
  have later : (s.drop (ed+1)).count 36 ≤ (s.drop (i+1)).count 36 := by
    have more := (List.drop_sublist (ed-i) (s.drop (i+1))).count_le 36
    rwa [List.drop_drop,show i+1+(ed-i) = ed+1 by omega] at more
  calc (combinetwostring s i ed value).count 36
    _ ≤ (s.take i ++ value ++ s.drop (ed+1)).count 36 := (List.take_sublist _ _).count_le 36
    _ = (s.take i).count 36 + (s.drop (ed+1)).count 36 := by
      rw [List.count_append,List.count_append,List.count_eq_zero.mpr clean,Nat.add_zero]
    _ < s.count 36 := by omega

-- for (i = 0; i < strlen(tempstr); i++), from i on. i is compared as unsigned, so below 0 the loop ends. none is exit().
def expand (vars : Variables) (i : Int) (tempstr : List UInt8) : Option (List UInt8) :=
  if i < 0 ∨ tempstr.length ≤ i then some tempstr
  else if _opens : Opens tempstr i.toNat then
    let name := reference tempstr (i.toNat+2)
    if name = [] then none
    else match _found : vars.find name with
      | none => none
      | some value => expand vars (value.length-name.length+2) (combinetwostring tempstr i.toNat (i.toNat+2+name.length) value)
  else expand vars (i+1) tempstr
termination_by (tempstr.count 36,(tempstr.length-i).toNat)
decreasing_by
  · exact Prod.Lex.left _ _ (combine_count _opens (vars.find_clean _found) (by omega))
  · exact Prod.Lex.right _ (by omega)

-- The command goes into a new block, behind what is in there.
def store (vars : Variables) (line block : List UInt8) : Option (List UInt8) := (expand vars 0 line).map (strcatN block)

theorem expand_past (out : i < 0 ∨ s.length ≤ i) (vars : Variables) : expand vars i s = some s := by
  rw [expand,if_pos out]

theorem expand_next (low : 0 ≤ i) (high : i < s.length) (plain : ¬ Opens s i.toNat) (vars : Variables) : expand vars i s = expand vars (i+1) s := by
  rw [expand,if_neg (by omega),dif_neg plain]

theorem expand_skip (vars : Variables) (count : Nat) : ∀ {i : Nat}, i+count ≤ s.length → (∀ k, i ≤ k → k < i+count → ¬ Opens s k) →
    expand vars i s = expand vars (i+count : Nat) s := by
  induction count with
  | zero => intro i _ _; rfl
  | succ count ih =>
    intro i inside plain
    rw [expand_next (by omega) (by omega) (plain i (Nat.le_refl i) (by omega)),show (i : Int)+1 = (i+1 : Nat) by omega,
      ih (by omega) fun k low high => plain k (by omega) (by omega),show i+1+count = i+(count+1) by omega]

theorem expand_rest (vars : Variables) (plain : ∀ k, ¬ Opens s k) (i : Int) : expand vars i s = some s := by
  by_cases out : i < 0 ∨ s.length ≤ i
  · exact expand_past out vars
  · have start : i = (i.toNat : Int) := by omega
    rw [start,expand_skip vars (s.length-i.toNat) (by omega) fun k _ _ => plain k]
    exact expand_past (.inr (by omega)) vars

theorem reference_name (plain : 41 ∉ name) (done rest : List UInt8) : reference (done ++ (36 :: 40 :: name ++ 41 :: rest)) (done.length+2) = name := by
  have all : ∀ c ∈ name, decide (c ≠ 41) = true := fun c member => decide_eq_true fun close => plain (close ▸ member)
  rw [reference,← List.drop_drop,List.drop_left]
  simp only [List.cons_append,List.drop_succ_cons,List.drop_zero]
  rw [List.takeWhile_append_of_pos all,List.takeWhile_cons_of_neg (by decide),List.append_nil]

theorem combine_reference (done name rest value : List UInt8) :
    combinetwostring (done ++ (36 :: 40 :: name ++ 41 :: rest)) done.length (done.length+2+name.length) value = done ++ value ++ rest := by
  have back : (done ++ (36 :: 40 :: name ++ 41 :: rest)).drop (done.length+2+name.length+1) = rest := by
    have whole : done ++ (36 :: 40 :: name ++ 41 :: rest) = (done ++ 36 :: 40 :: name ++ [41]) ++ rest := by simp
    have size : (done ++ 36 :: 40 :: name ++ [41]).length = done.length+2+name.length+1 := by
      simp only [List.length_append,List.length_cons,List.length_nil]
      omega
    rw [whole,← size,List.drop_left]
  rw [combinetwostring,List.take_left,back]
  refine List.take_of_length_le ?_
  simp only [List.length_append,List.length_cons]
  omega

theorem expand_reference (vars : Variables) (found : vars.find name = some value) (filled : name ≠ []) (plain : 41 ∉ name)
    (done rest : List UInt8) : expand vars done.length (done ++ (36 :: 40 :: name ++ 41 :: rest)) =
      expand vars (value.length-name.length+2) (done ++ value ++ rest) := by
  have opens : Opens (done ++ (36 :: 40 :: name ++ 41 :: rest)) done.length := by simp [Opens]
  rw [expand,if_neg (by simp only [List.length_append,List.length_cons]; omega)]
  simp only [Int.toNat_natCast]
  rw [dif_pos opens,reference_name plain,if_neg filled]
  split
  · rename_i missing
    rw [found] at missing
    cases missing
  · rename_i other there
    rw [found] at there
    cases there
    rw [combine_reference]

structure Ref (vars : Variables) where
  name : List UInt8
  value : List UInt8
  text : List UInt8
  found : vars.find name = some value
  filled : name ≠ []
  plain : 41 ∉ name

section
variable {vars : Variables}

def line (first : List UInt8) (refs : List (Ref vars)) : List UInt8 := first ++ refs.flatMap fun r => 36 :: 40 :: r.name ++ 41 :: r.text

def expanded (first : List UInt8) (refs : List (Ref vars)) : List UInt8 := first ++ refs.flatMap fun r => r.value ++ r.text

def Quiet (text : List UInt8) : Prop := ∀ k, text.getD k 0 = 36 → k+1 < text.length ∧ text.getD (k+1) 0 ≠ 40

def Settled : List UInt8 → List (Ref vars) → Prop
  | last,[] => ∀ k, ¬ Opens last k
  | text,r :: refs => Quiet text ∧ Settled r.text refs

-- The place where the loop starts anew is in the string, and not behind the next reference. done bytes stand before the first.
def Reached : Nat → List (Ref vars) → Prop
  | _,[] => True
  | _,[_] => True
  | done,r :: s :: refs => r.name.length ≤ r.value.length+2 ∧ ¬ (done = 0 ∧ r.name.length = 1 ∧ r.text = []) ∧
      Reached (done+r.value.length+r.text.length) (s :: refs)

theorem quiet_opens (quiet : Quiet a) (inside : k < a.length) (b : List UInt8) : ¬ Opens (a ++ b) k := by
  rintro ⟨dollar,paren⟩
  rw [List.getD_append _ _ _ _ inside] at dollar
  obtain ⟨more,other⟩ := quiet k dollar
  rw [List.getD_append _ _ _ _ more] at paren
  exact other paren

theorem opens_append (quiet : Quiet a) (none : ∀ k, ¬ Opens b k) (k : Nat) : ¬ Opens (a ++ b) k := by
  by_cases inside : k < a.length
  · exact quiet_opens quiet inside b
  · rintro ⟨dollar,paren⟩
    rw [List.getD_append_right _ _ _ _ (by omega)] at dollar paren
    refine none (k-a.length) ⟨dollar,?_⟩
    rwa [show k-a.length+1 = k+1-a.length by omega]

theorem quiet_append (first : Quiet a) (second : Quiet b) : Quiet (a ++ b) := by
  intro k dollar
  rw [List.length_append]
  by_cases inside : k < a.length
  · rw [List.getD_append _ _ _ _ inside] at dollar
    obtain ⟨more,other⟩ := first k dollar
    rw [List.getD_append _ _ _ _ more]
    exact ⟨by omega,other⟩
  · rw [List.getD_append_right _ _ _ _ (by omega)] at dollar ⊢
    obtain ⟨more,other⟩ := second (k-a.length) dollar
    rw [show k+1-a.length = k-a.length+1 by omega]
    exact ⟨by omega,other⟩

theorem dollar_mem {a : List UInt8} (dollar : a.getD k 0 = 36) : 36 ∈ a := by
  by_cases inside : k < a.length
  · rw [List.getD_eq_getElem?_getD,List.getElem?_eq_getElem inside,Option.getD_some] at dollar
    rw [← dollar]
    exact List.getElem_mem inside
  · rw [List.getD_eq_getElem?_getD,List.getElem?_eq_none (by omega)] at dollar
    cases dollar

theorem quiet_clean (clean : 36 ∉ a) : Quiet a := fun _ dollar => absurd (dollar_mem dollar) clean

theorem expand_line (refs : List (Ref vars)) : ∀ (done first : List UInt8) (i : Int), Quiet done → Settled first refs →
    Reached (done ++ first).length refs → (refs ≠ [] → 0 ≤ i ∧ i ≤ (done ++ first).length) →
    expand vars i (done ++ line first refs) = some (done ++ expanded first refs) := by
  induction refs with
  | nil =>
    intro done first i quiet settled _ _
    have plain : line first ([] : List (Ref vars)) = first := by simp [line]
    have same : expanded first ([] : List (Ref vars)) = first := by simp [expanded]
    rw [plain,same]
    exact expand_rest vars (opens_append quiet settled) i
  | cons r refs ih =>
    intro done first i quiet settled reached place
    obtain ⟨low,high⟩ := place (List.cons_ne_nil _ _)
    have before : Quiet (done ++ first) := quiet_append quiet settled.1
    have whole : done ++ line first (r :: refs) = (done ++ first) ++ (36 :: 40 :: r.name ++ 41 :: line r.text refs) := by
      simp [line]
    have result : done ++ expanded first (r :: refs) = (done ++ first ++ r.value) ++ expanded r.text refs := by
      simp [expanded]
    have start : i = (i.toNat : Int) := by omega
    have go : i.toNat+((done ++ first).length-i.toNat) = (done ++ first).length := by omega
    rw [whole,result,start,expand_skip vars ((done ++ first).length-i.toNat)
      (by rw [go]; exact (List.prefix_append _ _).length_le) fun k _ high => quiet_opens before (by omega) _,go,
      expand_reference vars r.found r.filled r.plain]
    refine ih _ r.text _ (quiet_append before (quiet_clean (vars.find_clean r.found))) settled.2 ?_ fun more => ?_
    · cases refs with
      | nil => trivial
      | cons s refs =>
        rw [List.length_append,List.length_append]
        exact reached.2.2
    cases refs with
    | nil => exact absurd rfl more
    | cons s refs =>
      obtain ⟨long,apart,_⟩ := reached
      have some := List.length_pos_iff.mpr r.filled
      refine ⟨by omega,?_⟩
      rw [List.length_append,List.length_append]
      by_contra far
      exact apart ⟨by omega,by omega,List.length_eq_zero_iff.mp (by omega)⟩

end

theorem strcatN_new (s : List UInt8) : strcatN [] s = if s.length < MAX_LINE_LENGTH then s else [] := by
  unfold strcatN
  split
  · rename_i none
    rw [none]
    rfl
  · rw [List.length_nil,Nat.add_zero,List.nil_append]
    split
    · rw [if_neg (by omega)]
    · rw [if_pos (by omega)]

theorem make_expands (vars : Variables) (first : List UInt8) (refs : List (Ref vars)) (settled : Settled first refs)
    (reached : Reached first.length refs) (short : (expanded first refs).length < MAX_LINE_LENGTH) :
    store vars (line first refs) [] = some (expanded first refs) := by
  have done := expand_line refs [] first 0 (fun k no => by cases no) settled reached fun _ => ⟨Int.le_refl 0,by omega⟩
  rw [List.nil_append,List.nil_append] at done
  rw [store,done,Option.map_some,strcatN_new,if_pos short]

def twoVars : Variables := ⟨[([66],[121]),([65],[120])],by decide⟩

theorem make_expands_one : store twoVars [36,40,65,41] [] = some [120] :=
  make_expands twoVars [] [⟨[65],[120],[],rfl,by decide,by decide⟩] ⟨fun _ no => (by cases no),fun _ no => (by cases no.1)⟩ trivial (by decide)

-- $(A)$(B): the loop starts anew at index 2, and $(B) has moved to index 1.
theorem second_reference_stays : store twoVars [36,40,65,41,36,40,66,41] [] = some [120,36,40,66,41] := by
  have first : expand twoVars 0 [36,40,65,41,36,40,66,41] = expand twoVars 2 [120,36,40,66,41] :=
    expand_reference twoVars (show twoVars.find [65] = some [120] from rfl) (by decide) (by decide) [] [36,40,66,41]
  have plain : ∀ k, 2 ≤ k → k < 2+3 → ¬ Opens [120,36,40,66,41] k := by
    intro k low high
    have each : k = 2 ∨ k = 3 ∨ k = 4 := by omega
    rcases each with rfl | rfl | rfl
    · decide
    · decide
    · decide
  have past : expand twoVars 2 [120,36,40,66,41] = some [120,36,40,66,41] :=
    (expand_skip twoVars 3 (Nat.le_refl 5) plain).trans (expand_past (.inr (by decide)) twoVars)
  rw [store,first,past]
  rfl

end Xv6.User.Make
