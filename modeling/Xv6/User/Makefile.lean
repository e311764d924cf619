import Xv6.User.Build
import Xv6.User.Make
import Mathlib.Data.List.DropRight

namespace Xv6.User.Make
open Runs Editor

-- How make reads its makefile: the loop of main over the lines of the text.

-- The bytes that end a name: ' ', '=' and ':'.
def ends (c : UInt8) : Bool := c = 32 || c = 61 || c = 58

-- while ((charpop == ' ') && (linepop < strlen(text[pop]) - 1)).
def skipBlanks : List UInt8 → List UInt8
  | 32 :: c :: rest => skipBlanks (c :: rest)
  | rest => rest

-- The line from the byte on that decides what it is. Nothing is left where the scan of the name has no end in the line.
def statement (line : List UInt8) : List UInt8 := skipBlanks (line.dropWhile fun c => !ends c)

-- The words from linepop on, the last one first.
def getsplitlist : List UInt8 → List (List UInt8) → List (List UInt8)
  | [],dplist => dplist
  | c :: rest,dplist =>
    if c = 32 then getsplitlist rest dplist else getsplitlist (rest.dropWhile (· ≠ 32)) ((c :: rest.takeWhile (· ≠ 32)) :: dplist)
termination_by data => data.length
decreasing_by
  · exact Nat.lt_succ_self _
  · exact Nat.lt_succ_of_le (List.dropWhile_sublist _).length_le

def recipe (line : List UInt8) : Bool := line.head? = some 9 && 1 < line.length

-- The expansion of a recipe line by turns: with values that have a '$' it may have no end. some none is exit().
def expandTurns (table : List (List UInt8 × List UInt8)) : Nat → Int → List UInt8 → Option (Option (List UInt8))
  | 0,_,_ => none
  | fuel+1,i,tempstr =>
    if i < 0 ∨ tempstr.length ≤ i then some (some tempstr)
    else if Opens tempstr i.toNat then
      let name := reference tempstr (i.toNat+2)
      if name = [] then some none
      else match (table.find? fun v => v.1 = name).map Prod.snd with
        | none => some none
        | some value => expandTurns table fuel (value.length-name.length+2) (combinetwostring tempstr i.toNat (i.toNat+2+name.length) value)
    else expandTurns table fuel (i+1) tempstr

-- The recipe lines, each put before those that were read. The block of a command is new, and reads as zeros.
def recipes (table : List (List UInt8 × List UInt8)) (fuel : Nat) : List (List UInt8) → List (List UInt8) → Option (Option (List (List UInt8) × List (List UInt8)))
  | [],orders => some (some (orders,[]))
  | line :: rest,orders =>
    if recipe line then match expandTurns table fuel 0 line.tail with
      | none => none
      | some none => some none
      | some (some tempstr) => recipes table fuel rest (strcatN [] tempstr :: orders)
    else some (some (orders,line :: rest))

-- The NODEs and the VNODEs, the last one first.
structure Parsed where
  nodes : List Rule
  vars : List (List UInt8 × List UInt8)

inductive Turn where
  | exit
  | past
  | lines (parsed : Parsed) (rest : List (List UInt8))

-- One turn of while (pop <= line_number), at the line and the ones behind it. A line that is no statement is met again.
def turn (fuel : Nat) (parsed : Parsed) (line : List UInt8) (rest : List (List UInt8)) : Option Turn :=
  if line = [] then some (.lines parsed rest)
  else
    let mainname := line.takeWhile fun c => !ends c
    match statement line with
    | [] => some .past
    | 58 :: data => match recipes parsed.vars fuel rest [] with
      | none => none
      | some none => some .exit
      | some (some (orders,rest)) => some (.lines ⟨⟨mainname,getsplitlist data [],orders⟩ :: parsed.nodes,parsed.vars⟩ rest)
    | 61 :: data => some (.lines ⟨parsed.nodes,(mainname,(data.dropWhile (· = 32)).rdropWhile (· = 32)) :: parsed.vars⟩ rest)
    | _ => some (.lines parsed (line :: rest))

inductive End where
  | exit
  | past
  | parsed (result : Parsed)

def parse : Nat → Parsed → List (List UInt8) → Option End
  | 0,_,_ => none
  | _+1,parsed,[] => some (.parsed parsed)
  | fuel+1,parsed,line :: rest => match turn fuel parsed line rest with
    | none => none
    | some .exit => some .exit
    | some .past => some .past
    | some (.lines parsed lines) => parse fuel parsed lines

theorem skipBlanks_subset (l : List UInt8) : skipBlanks l ⊆ l := by
  fun_induction skipBlanks l with
  | case1 c rest ih => exact fun a member => List.mem_cons_of_mem 32 (ih member)
  | case2 => exact fun _ => id

theorem statement_subset (line : List UInt8) : statement line ⊆ line :=
  fun _ member => (List.dropWhile_sublist _).subset (skipBlanks_subset _ member)

theorem splitOn_blank (rest : List UInt8) : (32 :: rest).splitOn 32 = [] :: rest.splitOn 32 :=
  List.splitOn_append_cons_self_of_not_mem (show (32 : UInt8) ∉ [] from List.not_mem_nil) rest

theorem getsplitlist_fields (data : List UInt8) (dplist : List (List UInt8)) :
    getsplitlist data dplist = ((data.splitOn 32).filter (· ≠ [])).reverse ++ dplist := by
  fun_induction getsplitlist data dplist with
  | case1 => rfl
  | case2 rest dplist ih =>
    rw [ih,splitOn_blank]
    rfl
  | case3 c rest dplist letter ih =>
    have plain : 32 ∉ c :: rest.takeWhile (· ≠ 32) := by
      intro blank
      rcases List.mem_cons.mp blank with same | later
      · exact letter same.symm
      · exact of_decide_eq_true (List.mem_takeWhile_imp (p := fun x => decide (x ≠ 32)) later) rfl
    have fields : ((c :: rest).splitOn 32).filter (· ≠ []) =
        (c :: rest.takeWhile (· ≠ 32)) :: ((rest.dropWhile (· ≠ 32)).splitOn 32).filter (· ≠ []) := by
      have whole : c :: rest = (c :: rest.takeWhile (· ≠ 32)) ++ rest.dropWhile (· ≠ 32) := by
        rw [List.cons_append,List.takeWhile_append_dropWhile]
      cases behind : rest.dropWhile (· ≠ 32) with
      | nil =>
        rw [behind,List.append_nil] at whole
        rw [← whole] at plain ⊢
        rw [List.splitOn_eq_singleton plain]
        rfl
      | cons b tail =>
        have blank : b = 32 := by
          have stops := List.head?_dropWhile_not (· ≠ (32 : UInt8)) rest
          rw [behind] at stops
          simpa using stops
        subst blank
        rw [behind] at whole
        rw [whole,List.splitOn_append_cons_self_of_not_mem plain,splitOn_blank]
        rfl
    rw [ih,fields,List.reverse_cons,List.append_assoc]
    rfl

-- With values that have no '$' the turns come to the end that expand has.
theorem expandTurns_returns (vars : Variables) (i : Int) (s : List UInt8) : Returns (fun fuel => expandTurns vars.table fuel i s) (expand vars i s) := by
  fun_induction expand vars i s with
  | case1 i s out => exact .now fun fuel => by rw [expandTurns,if_pos out]
  | case2 i s inside opens name empty => exact .now fun fuel => by rw [expandTurns,if_neg inside,if_pos opens,if_pos empty]
  | case3 i s inside opens name filled missing =>
    refine .now fun fuel => ?_
    rw [expandTurns,if_neg inside,if_pos opens,if_neg filled]
    unfold Variables.find at missing
    simp only [name,missing]
  | case4 i s inside opens name filled value found ih =>
    refine ih.turn fun fuel => ?_
    rw [expandTurns,if_neg inside,if_pos opens,if_neg filled]
    unfold Variables.find at found
    simp only [name,found]
  | case5 i s inside plain ih => exact ih.turn fun fuel => by rw [expandTurns,if_neg inside,if_neg plain]

section
variable {vars : Variables} {parsed : Parsed} {lines rest orders : List (List UInt8)} {line data : List UInt8}

theorem recipes_stop (other : rest.head?.all (!recipe ·)) (table : List (List UInt8 × List UInt8)) (fuel : Nat) (orders : List (List UInt8)) :
    recipes table fuel rest orders = some (some (orders,rest)) := by
  cases rest with
  | nil => rfl
  | cons line rest => simp_all [recipes]

-- A recipe line whose expansion ends.
theorem recipes_next (found : recipe line = true) (expands : expand vars 0 line.tail = some out)
    (more : Returns (fun fuel => recipes vars.table fuel rest (strcatN [] out :: orders)) r) :
    Returns (fun fuel => recipes vars.table fuel (line :: rest) orders) r := by
  obtain ⟨one,expanded⟩ := expandTurns_returns vars 0 line.tail
  obtain ⟨two,ran⟩ := more
  refine ⟨max one two,fun fuel enough => ?_⟩
  simp only [recipes,found,expanded fuel (by omega),expands,if_true]
  exact ran fuel (by omega)

theorem recipes_ends (vars : Variables) (lines : List (List UInt8)) : ∀ orders, ∃ r, Returns (fun fuel => recipes vars.table fuel lines orders) r ∧
    ∀ orders rest, r = some (orders,rest) → rest = lines.dropWhile recipe := by
  induction lines with
  | nil =>
    intro orders
    exact ⟨_,⟨0,fun _ _ => rfl⟩,by rintro _ _ ⟨⟩; rfl⟩
  | cons line lines ih =>
    intro orders
    by_cases found : recipe line = true
    · rw [List.dropWhile_cons_of_pos found]
      cases expands : expand vars 0 line.tail with
      | none =>
        obtain ⟨most,expanded⟩ := expandTurns_returns vars 0 line.tail
        refine ⟨none,⟨most,fun fuel enough => ?_⟩,by rintro _ _ ⟨⟩⟩
        simp only [recipes,found,expanded fuel enough,expands,if_true]
      | some out =>
        obtain ⟨r,returns,same⟩ := ih (strcatN [] out :: orders)
        exact ⟨r,recipes_next found expands returns,same⟩
    · rw [List.dropWhile_cons_of_neg found]
      exact ⟨_,⟨0,fun fuel _ => recipes_stop (by simpa using found) _ fuel orders⟩,by rintro _ _ ⟨⟩; rfl⟩

theorem turn_rule (shape : statement line = 58 :: data) (fuel : Nat) (parsed : Parsed) (rest : List (List UInt8)) :
    turn fuel parsed line rest = match recipes parsed.vars fuel rest [] with
      | none => none
      | some none => some .exit
      | some (some (orders,rest)) => some (.lines ⟨⟨line.takeWhile fun c => !ends c,getsplitlist data [],orders⟩ :: parsed.nodes,parsed.vars⟩ rest) := by
  have filled : line ≠ [] := by
    rintro rfl
    cases shape
  simp only [turn,if_neg filled,shape]

theorem turn_variable (shape : statement line = 61 :: data) (fuel : Nat) (parsed : Parsed) (rest : List (List UInt8)) :
    turn fuel parsed line rest = some (.lines ⟨parsed.nodes,
      (line.takeWhile fun c => !ends c,(data.dropWhile (· = 32)).rdropWhile (· = 32)) :: parsed.vars⟩ rest) := by
  have filled : line ≠ [] := by
    rintro rfl
    cases shape
  simp only [turn,if_neg filled,shape]

end

-- The loop comes to its end, without a read behind the end of a line.
def Finishes (parsed : Parsed) (lines : List (List UInt8)) : Prop := ∃ e, Returns (fun fuel => parse fuel parsed lines) e ∧ e ≠ .past

-- Something stands behind '=', or not even blanks.
def Filled (data : List UInt8) : Prop := data = [] ∨ ∃ c ∈ data, c ≠ 32

-- Every line that is met outside of a recipe is empty, a rule or a variable whose value has no '$'.
inductive Formed : List (List UInt8) → Prop where
  | done : Formed []
  | empty : Formed rest → Formed ([] :: rest)
  | rule : statement text = 58 :: data → Formed (rest.dropWhile recipe) → Formed (text :: rest)
  | value : statement text = 61 :: data → Filled data → 36 ∉ data → Formed rest → Formed (text :: rest)

theorem formed_finishes (formed : Formed lines) : ∀ (vars : Variables) (nodes : List Rule), Finishes ⟨nodes,vars.table⟩ lines := by
  induction formed with
  | done =>
    intro vars nodes
    exact ⟨_,.now fun _ => rfl,by rintro ⟨⟩⟩
  | empty _ ih =>
    intro vars nodes
    obtain ⟨e,returns,inside⟩ := ih vars nodes
    exact ⟨e,returns.turn fun _ => rfl,inside⟩
  | @rule line data rest shape _ ih =>
    intro vars nodes
    obtain ⟨r,⟨one,found⟩,same⟩ := recipes_ends vars rest []
    cases r with
    | none =>
      refine ⟨.exit,⟨one+1,fun fuel enough => ?_⟩,by rintro ⟨⟩⟩
      obtain ⟨fuel,rfl⟩ : ∃ k, fuel = k+1 := ⟨fuel-1,by omega⟩
      simp only [parse,turn_rule shape,found fuel (by omega)]
    | some r =>
      obtain ⟨orders,behind⟩ := r
      obtain rfl := same orders behind rfl
      obtain ⟨e,⟨two,ran⟩,inside⟩ := ih vars (⟨line.takeWhile fun c => !ends c,getsplitlist data [],orders⟩ :: nodes)
      refine ⟨e,⟨max one two+1,fun fuel enough => ?_⟩,inside⟩
      obtain ⟨fuel,rfl⟩ : ∃ k, fuel = k+1 := ⟨fuel-1,by omega⟩
      simp only [parse,turn_rule shape,found fuel (by omega)]
      exact ran fuel (by omega)
  | @value line data rest shape _ clean _ ih =>
    intro vars nodes
    let value := (data.dropWhile (· = 32)).rdropWhile (· = 32)
    have kept : 36 ∉ value := fun member => clean ((List.dropWhile_sublist _).subset (( List.rdropWhile_prefix _ _).subset member))
    obtain ⟨e,returns,inside⟩ := ih ⟨(line.takeWhile fun c => !ends c,value) :: vars.table,List.forall_mem_cons.mpr ⟨kept,vars.clean⟩⟩ nodes
    refine ⟨e,returns.turn fun fuel => ?_,inside⟩
    simp only [parse,turn_variable shape]
    rfl

theorem expandTurns_plain (plain : 36 ∉ s) : ∀ {fuel : Nat} {i : Int}, expandTurns table fuel i s = some r → r = some s := by
  intro fuel
  induction fuel with
  | zero =>
    rintro i ⟨⟩
  | succ fuel ih =>
    intro i ran
    rw [expandTurns] at ran
    split at ran
    · exact (Option.some.inj ran).symm
    · rw [if_neg fun opens => plain (dollar_mem opens.1)] at ran
      exact ih ran

theorem recipes_plain {table : List (List UInt8 × List UInt8)} (lines : List (List UInt8)) : (∀ line ∈ lines, 36 ∉ line) →
    ∀ {orders r}, recipes table fuel lines orders = some r → ∃ orders, r = some (orders,lines.dropWhile recipe) := by
  induction lines with
  | nil =>
    rintro _ orders r ⟨⟩
    exact ⟨orders,rfl⟩
  | cons line lines ih =>
    intro plain orders r ran
    rw [recipes] at ran
    split at ran
    · rename_i found
      have clean : 36 ∉ line.tail := fun member => plain line (.head _) (List.mem_of_mem_tail member)
      rw [List.dropWhile_cons_of_pos found]
      split at ran
      · cases ran
      · rename_i exits
        cases expandTurns_plain clean exits
      · exact ih (fun l member => plain l (.tail _ member)) ran
    · rename_i other
      cases ran
      rw [List.dropWhile_cons_of_neg other]
      exact ⟨orders,rfl⟩

-- Without '$' there is no error, and a line of another form stops the loop or is met for ever.
theorem finishes_formed : ∀ {fuel : Nat} {parsed : Parsed} {lines : List (List UInt8)}, (∀ line ∈ lines, 36 ∉ line) →
    (∀ line ∈ lines, ∀ data, statement line = 61 :: data → Filled data) → parse fuel parsed lines = some e → e ≠ .past → Formed lines := by
  intro fuel
  induction fuel with
  | zero =>
    rintro _ _ _ _ ⟨⟩
  | succ fuel ih =>
    intro parsed lines plain filled ran inside
    cases lines with
    | nil => exact .done
    | cons text rest =>
      have later := fun l member => plain l (List.mem_cons_of_mem text member)
      have values := fun l member => filled l (List.mem_cons_of_mem text member)
      by_cases empty : text = []
      · subst empty
        exact .empty (ih later values ran inside)
      cases shape : statement text with
      | nil =>
        simp only [parse,turn,if_neg empty,shape] at ran
        cases ran
        exact absurd rfl inside
      | cons mark data =>
        by_cases rule : mark = 58
        · subst rule
          simp only [parse,turn_rule shape] at ran
          cases found : recipes parsed.vars fuel rest [] with
          | none => rw [found] at ran; cases ran
          | some r =>
            obtain ⟨orders,rfl⟩ := recipes_plain rest later found
            rw [found] at ran
            have part := (List.dropWhile_sublist (l := rest) recipe).subset
            exact .rule shape (ih (fun l member => later l (part member)) (fun l member => values l (part member)) ran inside)
        · by_cases value : mark = 61
          · subst value
            simp only [parse,turn_variable shape] at ran
            refine .value shape (filled text (.head _) data shape) (fun member => ?_) (ih later values ran inside)
            exact plain text (.head _) (statement_subset text (shape ▸ List.mem_cons_of_mem 61 member))
          · refine ih plain filled (?_ : parse fuel parsed _ = _) inside
            simpa [parse,turn,if_neg empty,shape,rule,value] using ran

theorem stored_eq {outs : List (List UInt8)} : (outs.map (strcatN [])).reverse = outs ↔ (∀ out ∈ outs, out.length < MAX_LINE_LENGTH) ∧ outs.reverse = outs := by
  have fixed : ∀ out, strcatN [] out = out ↔ out.length < MAX_LINE_LENGTH := by
    intro out
    rw [strcatN_new]
    split
    · simp_all
    · rename_i long
      exact ⟨fun empty => absurd (empty ▸ (by decide : ([] : List UInt8).length < MAX_LINE_LENGTH)) long,fun short => absurd short long⟩
  have short : outs.map (strcatN []) = outs ↔ ∀ out ∈ outs, out.length < MAX_LINE_LENGTH := by
    nth_rewrite 2 [← List.map_id outs]
    rw [List.map_inj_left]
    exact forall₂_congr fun out _ => fixed out
  constructor
  · intro same
    -- what is stored stays the same when it is stored again
    have again : outs.map (strcatN []) = outs := by
      have twice : ∀ out, strcatN [] (strcatN [] out) = strcatN [] out := by
        intro out
        rw [fixed,strcatN_new]
        split
        · assumption
        · decide
      nth_rewrite 1 [← same]
      rw [List.map_reverse,List.map_map,show strcatN [] ∘ strcatN [] = strcatN [] from funext twice,same]
    refine ⟨short.mp again,?_⟩
    rwa [again] at same
  · rintro ⟨all,palindrome⟩
    rw [short.mpr all,palindrome]

end Xv6.User.Make
