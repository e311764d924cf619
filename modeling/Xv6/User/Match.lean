import Mathlib.Data.List.Basic

namespace Xv6.User.Grep

-- The matcher of grep. A string is its bytes before the NUL: *text is '\0' where the list has ended.

mutual
-- matchhere: search for re at beginning of text
def matchhere (re text : List UInt8) : Bool :=
  match re with
  | [] => true
  | c :: re =>
    if re.headD 0 = 42 then matchstar c (re.drop 1) text
    else if c = 36 ∧ re = [] then text.isEmpty
    else match text with
      | [] => false
      | t :: text => if c = 46 ∨ c = t then matchhere re text else false
termination_by (re.length,text.length,0)

-- matchstar: search for c*re at beginning of text
def matchstar (c : UInt8) (re text : List UInt8) : Bool :=
  if matchhere re text then true
  else match text with
    | [] => false
    | t :: text => if t = c ∨ c = 46 then matchstar c re text else false
termination_by (re.length,text.length,1)
end

-- The do loop of match: re at every place of text, the end too.
def matchFrom (re : List UInt8) : List UInt8 → Bool
  | [] => matchhere re []
  | t :: text => if matchhere re (t :: text) then true else matchFrom re text

def matchText (re text : List UInt8) : Bool := if re.headD 0 = 94 then matchhere (re.drop 1) text else matchFrom re text

inductive Item where
  | many (c : UInt8)
  | final
  | any
  | one (c : UInt8)
deriving DecidableEq, Repr

def item (c : UInt8) : Item := if c = 46 then .any else .one c

def items : List UInt8 → List Item
  | [] => []
  | [c] => if c = 36 then [.final] else [item c]
  | c :: d :: re => if d = 42 then .many c :: items re else item c :: items (d :: re)

inductive Fits : List Item → List UInt8 → List UInt8 → Prop where
  | nil : Fits [] [] rest
  | many (run : ∀ x ∈ v, c = 46 ∨ x = c) (later : Fits more w rest) : Fits (.many c :: more) (v ++ w) rest
  | final : Fits [.final] [] []
  | any (later : Fits more w rest) : Fits (.any :: more) (x :: w) rest
  | one (later : Fits more w rest) : Fits (.one c :: more) (c :: w) rest

def Starts (list : List Item) (text : List UInt8) : Prop := ∃ w rest, text = w ++ rest ∧ Fits list w rest

theorem matchhere_star (c : UInt8) (re text : List UInt8) : matchhere (c :: 42 :: re) text = matchstar c re text := by
  rw [matchhere.eq_def]
  rfl

theorem matchhere_one (plain : re.headD 0 ≠ 42) (inner : ¬ (c = 36 ∧ re = [])) (text : List UInt8) :
    matchhere (c :: re) text = true ↔ ∃ t later, text = t :: later ∧ (c = 46 ∨ c = t) ∧ matchhere re later = true := by
  rw [matchhere.eq_def]
  dsimp only
  rw [if_neg plain,if_neg inner]
  cases text with
  | nil => simp
  | cons t later => simp

theorem matchstar_iff (c : UInt8) (re text : List UInt8) :
    matchstar c re text = true ↔ ∃ v later, text = v ++ later ∧ (∀ x ∈ v, c = 46 ∨ x = c) ∧ matchhere re later = true := by
  induction text with
  | nil =>
    rw [matchstar]
    constructor
    · intro matched
      exact ⟨[],[],rfl,by simp,by simpa using matched⟩
    · rintro ⟨v,later,split,_,here⟩
      have none := (List.append_eq_nil_iff.mp split.symm).2
      rw [none] at here
      simp [here]
  | cons t text ih =>
    rw [matchstar]
    constructor
    · intro matched
      by_cases here : matchhere re (t :: text) = true
      · exact ⟨[],t :: text,rfl,by simp,here⟩
      rw [if_neg here] at matched
      by_cases same : t = c ∨ c = 46
      · rw [if_pos same] at matched
        obtain ⟨v,later,split,run,there⟩ := ih.mp matched
        refine ⟨t :: v,later,by rw [split]; rfl,?_,there⟩
        intro x member
        rcases List.mem_cons.mp member with rfl | more
        · exact same.symm
        · exact run x more
      · rw [if_neg same] at matched
        cases matched
    · rintro ⟨v,later,split,run,there⟩
      cases v with
      | nil =>
        rw [List.nil_append] at split
        rw [if_pos (by rw [split]; exact there)]
      | cons x v =>
        rw [List.cons_append,List.cons.injEq] at split
        obtain ⟨rfl,split⟩ := split
        split
        · rfl
        · rw [if_pos (run t List.mem_cons_self).symm]
          exact ih.mpr ⟨v,later,split,fun y member => run y (.tail _ member),there⟩

theorem starts_nil (text : List UInt8) : Starts [] text := ⟨[],text,rfl,.nil⟩

theorem starts_many : Starts (.many c :: more) text ↔ ∃ v later, text = v ++ later ∧ (∀ x ∈ v, c = 46 ∨ x = c) ∧ Starts more later := by
  constructor
  · rintro ⟨w,rest,rfl,fits⟩
    cases fits with
    | many run later => exact ⟨_,_,List.append_assoc ..,run,_,_,rfl,later⟩
  · rintro ⟨v,_,rfl,run,w,rest,rfl,fits⟩
    exact ⟨v ++ w,rest,(List.append_assoc ..).symm,.many run fits⟩

theorem starts_final : Starts [.final] text ↔ text = [] := by
  constructor
  · rintro ⟨w,rest,rfl,fits⟩
    cases fits with
    | final => rfl
  · rintro rfl
    exact ⟨[],[],rfl,.final⟩

theorem starts_item : Starts (item c :: more) text ↔ ∃ t later, text = t :: later ∧ (c = 46 ∨ c = t) ∧ Starts more later := by
  unfold item
  split
  · rename_i dot
    constructor
    · rintro ⟨w,rest,rfl,fits⟩
      cases fits with
      | any later => exact ⟨_,_,rfl,.inl dot,_,_,rfl,later⟩
    · rintro ⟨t,_,rfl,_,w,rest,rfl,fits⟩
      exact ⟨t :: w,rest,rfl,.any fits⟩
  · rename_i plain
    constructor
    · rintro ⟨w,rest,rfl,fits⟩
      cases fits with
      | one later => exact ⟨_,_,rfl,.inr rfl,_,_,rfl,later⟩
    · rintro ⟨t,_,rfl,same,w,rest,rfl,fits⟩
      rcases same with dot | rfl
      · exact absurd dot plain
      · exact ⟨c :: w,rest,rfl,.one fits⟩

theorem matchhere_iff (re text : List UInt8) : matchhere re text = true ↔ Starts (items re) text := by
  induction re using items.induct generalizing text with
  | case1 =>
    rw [items,matchhere]
    exact iff_of_true rfl (starts_nil text)
  | case2 =>
    rw [items,if_pos rfl,starts_final,matchhere.eq_def]
    simp
  | case3 c other =>
    rw [items,if_neg other,starts_item,matchhere_one (by decide) (fun final => other final.1)]
    simp [matchhere,starts_nil]
  | case4 c re ih =>
    rw [items,if_pos rfl,starts_many,matchhere_star,matchstar_iff]
    simp only [ih]
  | case5 c d re plain ih =>
    rw [items,if_neg plain,starts_item,matchhere_one (show (d :: re).headD 0 ≠ 42 from plain) (fun final => List.cons_ne_nil _ _ final.2)]
    simp only [ih]

theorem matchFrom_iff (re text : List UInt8) : matchFrom re text = true ↔ ∃ lead suffix, text = lead ++ suffix ∧ matchhere re suffix = true := by
  induction text with
  | nil =>
    rw [matchFrom]
    constructor
    · intro here
      exact ⟨[],[],rfl,here⟩
    · rintro ⟨lead,suffix,split,here⟩
      rw [(List.append_eq_nil_iff.mp split.symm).2] at here
      exact here
  | cons t text ih =>
    rw [matchFrom]
    constructor
    · intro matched
      split at matched
      · rename_i here
        exact ⟨[],t :: text,rfl,here⟩
      · obtain ⟨lead,suffix,split,there⟩ := ih.mp matched
        exact ⟨t :: lead,suffix,by rw [split]; rfl,there⟩
    · rintro ⟨lead,suffix,split,there⟩
      cases lead with
      | nil =>
        rw [List.nil_append] at split
        rw [if_pos (by rw [split]; exact there)]
      | cons x lead =>
        rw [List.cons_append,List.cons.injEq] at split
        rw [ih.mpr ⟨lead,suffix,split.2,there⟩]
        simp

-- A pattern matches where its items fit a beginning of some suffix, with '^' of the text itself.
theorem match_iff_fits (re text : List UInt8) :
    matchText re text = true ↔ ∃ lead suffix, text = lead ++ suffix ∧ (re.headD 0 = 94 → lead = []) ∧
      ∃ w rest, suffix = w ++ rest ∧ Fits (items (if re.headD 0 = 94 then re.drop 1 else re)) w rest := by
  unfold matchText
  split
  · rename_i anchored
    rw [matchhere_iff]
    constructor
    · intro starts
      exact ⟨[],text,rfl,fun _ => rfl,starts⟩
    · rintro ⟨lead,suffix,rfl,none,starts⟩
      rw [none anchored]
      exact starts
  · rename_i floating
    rw [matchFrom_iff]
    constructor
    · rintro ⟨lead,suffix,split,here⟩
      exact ⟨lead,suffix,split,fun yes => absurd yes floating,(matchhere_iff re suffix).mp here⟩
    · rintro ⟨lead,suffix,split,_,starts⟩
      exact ⟨lead,suffix,split,(matchhere_iff re suffix).mpr starts⟩

end Xv6.User.Grep
