import Mathlib.Data.List.Basic

namespace Xv6.User.Editor
open Function (update update_of_ne update_self)

-- The line editor: text is an array of MAX_LINE_NUMBER pointers to strings.

def MAX_LINE_NUMBER : Nat := 256

-- none is NULL. Lines fit their buffers of MAX_LINE_LENGTH bytes, so a string is its bytes.
abbrev Text := Nat → Option (List UInt8)

structure State where
  text : Text
  changed : Bool
  autoShow : Bool

-- text[i]. Outside of the array there is no answer.
def look (text : Text) (i : Nat) : Option (Option (List UInt8)) := if i < MAX_LINE_NUMBER then some (text i) else none

def getLineNumber (text : Text) : Int := ((List.range MAX_LINE_NUMBER).find? fun i => (text i).isNone).getD MAX_LINE_NUMBER - 1

-- The loop stops at the first NULL; what it prints is left out.
def showText (text : Text) : Nat → Nat → Option Unit
  | 0,_ => none
  | turns+1,j =>
    match look text j with
    | none => none
    | some none => some ()
    | some (some _) => showText text turns (j+1)

def finish (s : State) : Option State :=
  if s.autoShow then (showText s.text (MAX_LINE_NUMBER+1) 0).map fun _ => { s with changed := true }
  else some { s with changed := true }

def input (extra typed : List UInt8) : List UInt8 := if extra = [] then typed.dropLast else extra

-- for (i = MAX_LINE_NUMBER-1; i > n; i--), from i on: text[i] becomes a copy of text[i-1], in a new buffer if it has none.
def shift (n : Nat) : Nat → Text → Text
  | 0,text => text
  | i+1,text =>
    if n < i+1 then
      match text i with
      | none => shift n i text
      | some line => shift n i (Function.update text (i+1) (some line))
    else text

def comIns (s : State) (n : Int) (extra typed : List UInt8) : Option State :=
  if n < 0 ∨ getLineNumber s.text + 1 < n then some s
  else
    let n := n.toNat
    let text := shift n (MAX_LINE_NUMBER-1) s.text
    match look text n with
    | none => none
    | some (some _) => finish { s with text := Function.update text n (some (input extra typed)) }
    | some none =>
      match n with
      | 0 => none
      | last+1 =>
        if text last = some [] then
          finish { s with text := Function.update (Function.update text n (some [])) last (some (input extra typed)) }
        else finish { s with text := Function.update text n (some (input extra typed)) }

def comMod (s : State) (n : Int) (extra typed : List UInt8) : Option State :=
  if n ≤ 0 ∨ getLineNumber s.text + 1 < n then some s
  else finish { s with text := Function.update s.text (n.toNat-1) (some (input extra typed)) }

def delLoop : Nat → Nat → Text → Option (Nat × Text)
  | 0,_,_ => none
  | turns+1,i,text =>
    match look text (i+1) with
    | none => none
    | some none => some (i,text)
    | some (some line) => delLoop turns (i+1) (Function.update (Function.update text i (some line)) (i+1) (some []))

def comDel (s : State) (n : Int) : Option State :=
  if n ≤ 0 ∨ getLineNumber s.text + 1 < n then some s
  else
    match delLoop MAX_LINE_NUMBER (n.toNat-1) (Function.update s.text (n.toNat-1) (some [])) with
    | none => none
    | some (i,text) => finish { s with text := if i ≠ 0 then Function.update text i none else text }

inductive Command where
  | ins (n : Int) (extra typed : List UInt8)
  | mod (n : Int) (extra typed : List UInt8)
  | del (n : Int)

def Command.run (s : State) : Command → Option State
  | .ins n extra typed => comIns s n extra typed
  | .mod n extra typed => comMod s n extra typed
  | .del n => comDel s n

def ofLines (lines : List (List UInt8)) : Text := fun i => lines[i]?

def inserted (lines : List (List UInt8)) (n : Nat) (x : List UInt8) : List (List UInt8) :=
  if n = lines.length ∧ lines.getLast? = some [] then lines.dropLast ++ [x,[]] else lines.insertIdx n x

def Command.result (lines : List (List UInt8)) : Command → List (List UInt8)
  | .ins n extra typed =>
    if 0 ≤ n ∧ n ≤ lines.length ∧ lines.length < MAX_LINE_NUMBER then inserted lines n.toNat (input extra typed) else lines
  | .mod n extra typed => if 1 ≤ n ∧ n ≤ lines.length then lines.set (n.toNat-1) (input extra typed) else lines
  | .del n => if 1 ≤ n ∧ n ≤ lines.length then (if lines.length = 1 then [[]] else lines.eraseIdx (n.toNat-1)) else lines

def Command.Does (s : State) (lines : List (List UInt8)) (command : Command) : Prop :=
  ∃ next, command.run s = some next ∧ next.text = ofLines (command.result lines)

-- Room in the array, also for the NULL behind the lines. A full text is not shifted only where each line is its own successor.
def Command.Fits (show_ : Bool) (lines : List (List UInt8)) : Command → Prop
  | .ins n extra typed => 0 ≤ n → n ≤ lines.length →
      lines.length+1 < MAX_LINE_NUMBER ∨ show_ = false ∧ (lines.length < MAX_LINE_NUMBER ∨
        n < lines.length ∧ ∀ line ∈ lines.drop n.toNat, line = input extra typed)
  | .mod n _ _ => 1 ≤ n → n ≤ lines.length → lines.length < MAX_LINE_NUMBER ∨ show_ = false
  | .del n => 1 ≤ n → n ≤ lines.length → lines.length < MAX_LINE_NUMBER

section
variable {lines : List (List UInt8)} {s : State}

theorem getLineNumber_lines (few : lines.length ≤ MAX_LINE_NUMBER) : getLineNumber (ofLines lines) = lines.length-1 := by
  have count : ((List.range MAX_LINE_NUMBER).find? fun i => (ofLines lines i).isNone).getD MAX_LINE_NUMBER = lines.length := by
    cases found : (List.range MAX_LINE_NUMBER).find? fun i => (ofLines lines i).isNone with
    | none =>
      have all := List.find?_eq_none.mp found
      by_contra less
      have small : lines.length < MAX_LINE_NUMBER := Nat.lt_of_le_of_ne few (Ne.symm less)
      exact all lines.length (List.mem_range.mpr small) (by simp [ofLines])
    | some i =>
      obtain ⟨empty,_,before⟩ := List.find?_range_eq_some.mp found
      have high : lines.length ≤ i := by simpa [ofLines] using empty
      rw [Option.getD_some]
      refine Nat.le_antisymm ?_ high
      by_contra more
      have := before lines.length (by omega)
      simp [ofLines] at this
  rw [getLineNumber,count]

theorem showText_lines (turns : Nat) : ∀ {j}, j ≤ lines.length → lines.length < j+turns → lines.length ≤ MAX_LINE_NUMBER →
    showText (ofLines lines) turns j = if lines.length < MAX_LINE_NUMBER then some () else none := by
  induction turns with
  | zero => intro j low high _; omega
  | succ turns ih =>
    intro j low high few
    rw [showText,look]
    by_cases last : j = lines.length
    · subst last
      by_cases room : lines.length < MAX_LINE_NUMBER
      · rw [if_pos room,if_pos room]
        simp [ofLines]
      · rw [if_neg room,if_neg room]
    · have inside : j < lines.length := by omega
      rw [if_pos (by omega)]
      simp only [ofLines,List.getElem?_eq_getElem inside]
      exact ih (by omega) (by omega) few

theorem finish_lines (few : lines.length ≤ MAX_LINE_NUMBER) : finish { s with text := ofLines lines } =
    if s.autoShow = false ∨ lines.length < MAX_LINE_NUMBER then some { s with text := ofLines lines, changed := true } else none := by
  rw [finish,showText_lines (MAX_LINE_NUMBER+1) (Nat.zero_le _) (by omega) few]
  cases s.autoShow with
  | false => simp
  | true =>
    by_cases room : lines.length < MAX_LINE_NUMBER
    · simp [room]
    · simp [room]

theorem shift_succ (n i : Nat) (text : Text) :
    shift n (i+1) text = if n < i+1 then shift n i (update text (i+1) ((text i).or (text (i+1)))) else text := by
  rw [shift]
  cases before : text i with
  | none => simp
  | some line => simp

theorem shift_eq (n i : Nat) (text : Text) (j : Nat) :
    shift n i text j = if n < j ∧ j ≤ i then (text (j-1)).or (text j) else text j := by
  induction i generalizing text with
  | zero => rw [shift,if_neg (by omega)]
  | succ i ih =>
    rw [shift_succ]
    split
    · rename_i above
      rw [ih]
      by_cases here : j = i+1
      · rw [if_neg (by omega),if_pos (by omega),here,update_self,Nat.add_sub_cancel]
      · by_cases low : n < j ∧ j ≤ i
        · rw [if_pos low,if_pos (by omega),update_of_ne (by omega),update_of_ne here]
        · rw [if_neg low,if_neg (by omega),update_of_ne here]
    · rw [if_neg (by omega)]

theorem shift_insert (inside : n < lines.length) (few : lines.length ≤ MAX_LINE_NUMBER) (x : List UInt8) :
    update (shift n (MAX_LINE_NUMBER-1) (ofLines lines)) n (some x) = ofLines ((lines.insertIdx n x).take MAX_LINE_NUMBER) := by
  have max : MAX_LINE_NUMBER = 256 := rfl
  funext j
  rw [ofLines,List.getElem?_take,List.getElem?_insertIdx]
  rcases Nat.lt_trichotomy j n with below | here | above
  · rw [update_of_ne (by omega),shift_eq,if_neg (by omega),if_pos (by omega),if_pos below]
    rfl
  · rw [here,update_self,if_pos (by omega),if_neg (by omega),if_pos rfl,if_pos (by omega)]
  · rw [update_of_ne (by omega),shift_eq]
    by_cases high : j < MAX_LINE_NUMBER
    · rw [if_pos (by omega),if_pos high,if_neg (by omega),if_neg (by omega)]
      by_cases some : j-1 < lines.length
      · simp [ofLines,List.getElem?_eq_getElem some]
      · simp [ofLines,show lines.length ≤ j-1 by omega,show lines.length ≤ j by omega]
    · rw [if_neg (by omega),if_neg high]
      simp [ofLines,show lines.length ≤ j by omega]

theorem shift_end (text : Text) (none : ∀ j, n ≤ j → text j = none) : shift n (MAX_LINE_NUMBER-1) text = text := by
  funext j
  rw [shift_eq]
  split
  · rename_i above
    rw [none (j-1) (by omega),Option.none_or]
  · rfl

theorem append_lines (lines : List (List UInt8)) (x : List UInt8) : update (ofLines lines) lines.length (some x) = ofLines (lines ++ [x]) := by
  funext j
  by_cases here : j = lines.length
  · rw [here,update_self]
    simp [ofLines]
  · rw [update_of_ne here,ofLines,ofLines,List.getElem?_append]
    split
    · rfl
    · rw [List.getElem?_eq_none (by omega),List.getElem?_eq_none (by simp; omega)]

theorem set_lines (inside : i < lines.length) (x : List UInt8) : update (ofLines lines) i (some x) = ofLines (lines.set i x) := by
  funext j
  rw [ofLines,List.getElem?_set]
  by_cases here : j = i
  · rw [here,update_self,if_pos rfl,if_pos inside]
  · rw [update_of_ne here,if_neg (Ne.symm here)]
    rfl

theorem inserted_length (inside : n ≤ lines.length) (x : List UInt8) : (inserted lines n x).length = lines.length+1 := by
  unfold inserted
  split
  · rename_i last
    cases lines with
    | nil => simp at last
    | cons line rest => simp
  · rw [List.length_insertIdx,if_pos inside]

theorem comIns_valid {n : Int} (here : s.text = ofLines lines) (some : lines ≠ []) (few : lines.length ≤ MAX_LINE_NUMBER) (low : 0 ≤ n)
    (high : n ≤ lines.length) (extra typed : List UInt8) : comIns s n extra typed =
      if n < MAX_LINE_NUMBER then finish { s with text := ofLines ((inserted lines n.toNat (input extra typed)).take MAX_LINE_NUMBER) } else none := by
  rw [comIns,here,getLineNumber_lines few,if_neg (by omega)]
  obtain ⟨m,rfl⟩ := Int.eq_ofNat_of_zero_le low
  simp only [Int.toNat_natCast,Int.ofNat_lt]
  by_cases last : m = lines.length
  · subst last
    rw [shift_end (ofLines lines) fun j above => List.getElem?_eq_none above,look]
    by_cases room : lines.length < MAX_LINE_NUMBER
    · rw [if_pos room,if_pos room,show ofLines lines lines.length = none from List.getElem?_eq_none (Nat.le_refl _),
        List.take_of_length_le (by rw [inserted_length (Nat.le_refl _)]; omega)]
      obtain ⟨init,line,rfl⟩ := (List.eq_nil_or_concat lines).resolve_left some
      rw [List.concat_eq_append] at room ⊢
      have last : ofLines (init ++ [line]) init.length = Option.some line := by simp [ofLines]
      have length : (init ++ [line]).length = init.length+1 := by simp
      rw [append_lines,append_lines]
      simp only [length,last,Option.some.injEq]
      by_cases empty : line = []
      · subst empty
        rw [if_pos rfl,set_lines (by simp),inserted,if_pos (by simp)]
        simp
      · rw [if_neg empty,inserted,if_neg (by simp [empty]),← length,List.insertIdx_length_self]
    · rw [if_neg room,if_neg room]
  · have inside : m < lines.length := by omega
    have there : shift m (MAX_LINE_NUMBER-1) (ofLines lines) m = Option.some (lines.get ⟨m,inside⟩) := by
      rw [shift_eq,if_neg (by omega)]
      exact List.getElem?_eq_getElem inside
    have small : m < MAX_LINE_NUMBER := by omega
    rw [look,if_pos small,there,if_pos small]
    rw [shift_insert inside few,inserted,if_neg fun whole => last whole.1]

theorem delLoop_lines (after : List (List UInt8)) : ∀ (turns : Nat) (before : List (List UInt8)), after.length < turns →
    before.length+after.length < MAX_LINE_NUMBER → delLoop turns before.length (ofLines (before ++ [] :: after)) =
      if before.length+after.length+1 < MAX_LINE_NUMBER then some (before.length+after.length,ofLines (before ++ after ++ [[]])) else none := by
  induction after with
  | nil =>
    intro turns before enough few
    cases turns with
    | zero => cases enough
    | succ turns =>
      have stop : ofLines (before ++ [[]]) (before.length+1) = none := by simp [ofLines]
      rw [delLoop,look,stop]
      simp only [List.length_nil,Nat.add_zero,List.append_nil]
      by_cases room : before.length+1 < MAX_LINE_NUMBER
      · rw [if_pos room,if_pos room]
      · rw [if_neg room,if_neg room]
  | cons line after ih =>
    intro turns before enough few
    cases turns with
    | zero => cases enough
    | succ turns =>
      rw [List.length_cons] at few enough
      have next : ofLines (before ++ [] :: line :: after) (before.length+1) = some line := by simp [ofLines]
      have moved : update (update (ofLines (before ++ [] :: line :: after)) before.length (some line)) (before.length+1) (some []) =
          ofLines ((before ++ [line]) ++ [] :: after) := by
        rw [set_lines (by simp),set_lines (by simp)]
        simp
      have sum : (before ++ [line]).length+after.length = before.length+(after.length+1) := by simp only [List.length_append,List.length_singleton]; omega
      have step := ih turns (before ++ [line]) (by omega) (by omega)
      rw [delLoop,look,if_pos (by omega),next]
      dsimp only
      rw [moved,List.length_cons,← sum]
      rw [List.length_append,List.length_singleton] at step ⊢
      rw [step,List.append_assoc before]
      rfl

theorem erase_lines (x : List UInt8) : update (ofLines (lines ++ [x])) lines.length none = ofLines lines := by
  funext j
  by_cases here : j = lines.length
  · rw [here,update_self]
    simp [ofLines]
  · rw [update_of_ne here,← append_lines,update_of_ne here]

theorem comDel_valid {n : Int} (here : s.text = ofLines lines) (few : lines.length ≤ MAX_LINE_NUMBER) (low : 1 ≤ n)
    (high : n ≤ lines.length) : comDel s n =
      if lines.length < MAX_LINE_NUMBER then
        finish { s with text := ofLines (if lines.length = 1 then [[]] else lines.eraseIdx (n.toNat-1)) } else none := by
  rw [comDel,here,getLineNumber_lines few,if_neg (by omega)]
  obtain ⟨before,line,after,rfl,place⟩ : ∃ before line after, lines = before ++ line :: after ∧ before.length = n.toNat-1 := by
    refine ⟨lines.take (n.toNat-1),lines.get ⟨n.toNat-1,by omega⟩,lines.drop (n.toNat-1+1),?_,by simp; omega⟩
    rw [List.get_eq_getElem,List.getElem_cons_drop,List.take_append_drop]
  have length : (before ++ line :: after).length = before.length+after.length+1 := by simp only [List.length_append,List.length_cons]; omega
  rw [← place,set_lines (by simp),List.set_append_right _ _ (Nat.le_refl _),Nat.sub_self,List.set_cons_zero,
    delLoop_lines after _ before (by omega) (by omega),length]
  by_cases room : before.length+after.length+1 < MAX_LINE_NUMBER
  · rw [if_pos room,if_pos room]
    dsimp only
    by_cases one : before.length+after.length = 0
    · have first := List.length_eq_zero_iff.mp (show before.length = 0 by omega)
      have second := List.length_eq_zero_iff.mp (show after.length = 0 by omega)
      subst first second
      rfl
    · rw [if_pos one,if_neg (by omega),List.eraseIdx_append_of_length_le (Nat.le_refl _),Nat.sub_self,List.eraseIdx_cons_zero,
        ← List.length_append,erase_lines]
  · rw [if_neg room,if_neg room]

theorem ofLines_injective (same : ofLines lines = ofLines others) : lines = others := List.ext_getElem? fun i => congrFun same i

theorem finish_does {new : List (List UInt8)} (few : new.length ≤ MAX_LINE_NUMBER) (want : List (List UInt8)) :
    (∃ next, finish { s with text := ofLines new } = some next ∧ next.text = ofLines want) ↔
      (s.autoShow = false ∨ new.length < MAX_LINE_NUMBER) ∧ new = want := by
  rw [finish_lines few]
  split
  · rename_i fine
    constructor
    · rintro ⟨next,eq,text⟩
      cases eq
      exact ⟨fine,ofLines_injective text⟩
    · rintro ⟨_,rfl⟩
      exact ⟨_,rfl,rfl⟩
  · rename_i full
    constructor
    · rintro ⟨next,eq,_⟩
      cases eq
    · rintro ⟨fine,_⟩
      exact absurd fine full

theorem shifted_self (rest : List α) : ∀ x : α, (x :: rest).take rest.length = rest ↔ ∀ y ∈ rest, y = x := by
  induction rest with
  | nil => simp
  | cons y rest ih =>
    intro x
    rw [List.length_cons,List.take_succ_cons,List.cons.injEq,ih y]
    constructor
    · rintro ⟨rfl,all⟩ z member
      rcases List.mem_cons.mp member with rfl | later
      · rfl
      · exact all z later
    · intro all
      have first := all y (.head _)
      exact ⟨first.symm,fun z member => (all z (.tail _ member)).trans first.symm⟩

theorem insertIdx_append (before after : List α) (x : α) : (before ++ after).insertIdx before.length x = before ++ x :: after := by
  induction before with
  | nil => rw [List.nil_append,List.length_nil,List.insertIdx_zero,List.nil_append]
  | cons y before ih => rw [List.cons_append,List.length_cons,List.insertIdx_succ_cons,ih,List.cons_append]

theorem full_insert (full : lines.length = MAX_LINE_NUMBER) (inside : n < lines.length) (x : List UInt8) :
    (lines.insertIdx n x).take MAX_LINE_NUMBER = lines ↔ ∀ line ∈ lines.drop n, line = x := by
  have place : (lines.take n).length = n := by rw [List.length_take]; omega
  have split : lines.insertIdx n x = lines.take n ++ x :: lines.drop n := by
    have whole := insertIdx_append (lines.take n) (lines.drop n) x
    rwa [List.take_append_drop,place] at whole
  have left : MAX_LINE_NUMBER-n = (lines.drop n).length := by rw [List.length_drop]; omega
  rw [split,List.take_append,place,List.take_of_length_le (by omega),left,← shifted_self]
  conv_lhs => rhs; rw [← List.take_append_drop n lines]
  exact List.append_cancel_left_eq ..|>.to_iff

theorem comIns_does (here : s.text = ofLines lines) (some : lines ≠ []) (few : lines.length ≤ MAX_LINE_NUMBER) (n : Int)
    (extra typed : List UInt8) : (Command.ins n extra typed).Does s lines ↔ (Command.ins n extra typed).Fits s.autoShow lines := by
  unfold Command.Does Command.Fits Command.run Command.result
  dsimp only
  by_cases valid : 0 ≤ n ∧ n ≤ lines.length
  · obtain ⟨low,high⟩ := valid
    rw [comIns_valid here some few low high]
    have length := inserted_length (show n.toNat ≤ lines.length by omega) (input extra typed)
    by_cases room : lines.length < MAX_LINE_NUMBER
    · rw [if_pos (by omega),if_pos ⟨low,high,room⟩,List.take_of_length_le (by omega),finish_does (by omega),length]
      constructor
      · rintro ⟨shown | more,_⟩ _ _
        · exact .inr ⟨shown,.inl room⟩
        · exact .inl more
      · intro fits
        rcases fits low high with more | ⟨shown,_⟩
        · exact ⟨.inr more,rfl⟩
        · exact ⟨.inl shown,rfl⟩
    · have full : lines.length = MAX_LINE_NUMBER := by omega
      rw [if_neg (show ¬ (0 ≤ n ∧ n ≤ lines.length ∧ lines.length < MAX_LINE_NUMBER) from fun all => room all.2.2)]
      by_cases inside : n < lines.length
      · have plain : inserted lines n.toNat (input extra typed) = lines.insertIdx n.toNat (input extra typed) :=
          if_neg fun whole => by omega
        have cut : ((lines.insertIdx n.toNat (input extra typed)).take MAX_LINE_NUMBER).length = MAX_LINE_NUMBER := by
          rw [List.length_take,← plain,length]
          omega
        rw [if_pos (show n < (MAX_LINE_NUMBER : Int) by omega),plain,finish_does (by omega),full_insert full (by omega),cut]
        constructor
        · rintro ⟨shown | no,all⟩ _ _
          · exact .inr ⟨shown,.inr ⟨inside,all⟩⟩
          · omega
        · intro fits
          rcases fits low high with more | ⟨shown,more | ⟨_,all⟩⟩
          · omega
          · omega
          · exact ⟨.inl shown,all⟩
      · rw [if_neg (by omega)]
        constructor
        · rintro ⟨next,no,_⟩
          cases no
        · intro fits
          rcases fits low high with more | ⟨_,more | ⟨less,_⟩⟩
          · omega
          · omega
          · omega
  · rw [comIns,here,getLineNumber_lines few,if_pos (by omega),if_neg (by omega)]
    exact iff_of_true ⟨s,rfl,here⟩ fun low high => absurd ⟨low,high⟩ valid

theorem comMod_does (here : s.text = ofLines lines) (few : lines.length ≤ MAX_LINE_NUMBER) (n : Int)
    (extra typed : List UInt8) : (Command.mod n extra typed).Does s lines ↔ (Command.mod n extra typed).Fits s.autoShow lines := by
  unfold Command.Does Command.Fits Command.run Command.result
  dsimp only
  rw [comMod,here,getLineNumber_lines few]
  by_cases valid : 1 ≤ n ∧ n ≤ lines.length
  · rw [if_neg (by omega),if_pos valid,set_lines (by omega),finish_does (by simpa using few)]
    simp only [List.length_set,and_true]
    constructor
    · intro fine _ _
      exact fine.symm
    · intro fine
      exact (fine valid.1 valid.2).symm
  · rw [if_pos (by omega),if_neg valid]
    exact iff_of_true ⟨s,rfl,here⟩ fun low high => absurd ⟨low,high⟩ valid

theorem comDel_does (here : s.text = ofLines lines) (few : lines.length ≤ MAX_LINE_NUMBER) (n : Int) :
    (Command.del n).Does s lines ↔ (Command.del n).Fits s.autoShow lines := by
  unfold Command.Does Command.Fits Command.run Command.result
  dsimp only
  by_cases valid : 1 ≤ n ∧ n ≤ lines.length
  · have shorter : (if lines.length = 1 then [[]] else lines.eraseIdx (n.toNat-1)).length ≤ lines.length := by
      split
      · rename_i one
        rw [one]
        exact Nat.le_refl 1
      · exact List.length_eraseIdx_le ..
    rw [comDel_valid here few valid.1 valid.2,if_pos valid]
    by_cases room : lines.length < MAX_LINE_NUMBER
    · rw [if_pos room,finish_does (by omega)]
      exact iff_of_true ⟨.inr (by omega),rfl⟩ fun _ _ => room
    rw [if_neg room]
    constructor
    · rintro ⟨next,no,_⟩
      cases no
    · intro fits
      exact absurd (fits valid.1 valid.2) room
  · rw [comDel,here,getLineNumber_lines few,if_pos (by omega),if_neg valid]
    exact iff_of_true ⟨s,rfl,here⟩ fun low high => absurd ⟨low,high⟩ valid

theorem commands_keep_lines (here : s.text = ofLines lines) (some : lines ≠ []) (few : lines.length ≤ MAX_LINE_NUMBER) (command : Command) :
    command.Does s lines ↔ command.Fits s.autoShow lines := by
  cases command with
  | ins n extra typed => exact comIns_does here some few n extra typed
  | mod n extra typed => exact comMod_does here few n extra typed
  | del n => exact comDel_does here few n

end

theorem insert_before_empty : (Command.ins 1 [97] []).Does ⟨ofLines [[]],false,true⟩ [[]] ∧ (Command.ins 1 [97] []).result [[]] = [[97],[]] :=
  ⟨(commands_keep_lines rfl (by decide) (by decide) _).mpr fun _ _ => .inl (by decide),by decide⟩

def fullText : List (List UInt8) := List.replicate 255 [] ++ [[97]]

-- 256 lines, the last one "a": ins-0 pushes it out of the array, and del looks for a NULL behind it.
theorem full_text_loses_line :
    (∃ next, comIns ⟨ofLines fullText,false,false⟩ 0 [98] [] = some next ∧ next.text = ofLines ([98] :: List.replicate 255 [])) ∧
    comDel ⟨ofLines fullText,false,false⟩ 1 = none := by
  have few : fullText.length ≤ MAX_LINE_NUMBER := by decide +kernel
  have some : fullText ≠ [] := by decide +kernel
  constructor
  · rw [comIns_valid rfl some few (Int.le_refl 0) (by decide +kernel),if_pos (by decide),finish_does (by decide +kernel)]
    exact ⟨.inl rfl,by decide +kernel⟩
  · rw [comDel_valid rfl few (Int.le_refl 1) (by decide +kernel),if_neg (by decide +kernel)]

end Xv6.User.Editor
