import Xv6.Script.Values

namespace Xv6.Script
open List (flatMap_cons length_cons map_cons)

-- Chains of literals and operators, and what run_expression makes of them.

inductive Op where
  | add
  | sub
  | mul
  | div
deriving DecidableEq

def Op.char : Op → UInt8
  | .add => 43
  | .sub => 45
  | .mul => 42
  | .div => 47

abbrev Chain := List (Op × Literal)

def chainText (rest : Chain) : List UInt8 := rest.flatMap fun e => e.1.char :: e.2.digits

def exprText (first : Literal) (rest : Chain) : List UInt8 := first.digits ++ chainText rest

def fits (n : Int) : Option Int := if -2147483648 ≤ n ∧ n < 2147483648 then some n else none

-- acc is the sum of the terms so far, sign*term the one in hand. Overflow and division by zero have no value.
def evalFrom (acc sign term : Int) : Chain → Option Int
  | [] => fits (acc+sign*term)
  | (.add,l) :: rest => (fits (acc+sign*term)).bind fun acc => evalFrom acc 1 l.value rest
  | (.sub,l) :: rest => (fits (acc+sign*term)).bind fun acc => evalFrom acc (-1) l.value rest
  | (.mul,l) :: rest => (fits (term*l.value)).bind fun term => evalFrom acc sign term rest
  | (.div,l) :: rest => if l.value = 0 then none else evalFrom acc sign (term.tdiv l.value) rest

def eval (first : Literal) (rest : Chain) : Option Int := evalFrom 0 1 first.value rest

-- Literals of ints that fit the blocks of split.
def Plain (l : Literal) : Prop := l.value < 2147483648 ∧ l.digits.length < MAX_NAME_LINGTH

theorem digit_ne_op (digit : isDigit c = true) (o : Op) : c ≠ o.char := by
  rintro rfl
  cases o
  · exact absurd digit (by decide)
  · exact absurd digit (by decide)
  · exact absurd digit (by decide)
  · exact absurd digit (by decide)

theorem op_not_digit (o : Op) : isDigit o.char = false := by
  cases o
  · decide
  · decide
  · decide
  · decide

theorem Op.char_inj {o p : Op} (same : o.char = p.char) : o = p := by
  revert same
  cases o <;> cases p <;> decide

theorem mem_exprText {first : Literal} {rest : Chain} (member : c ∈ exprText first rest) : isDigit c = true ∨ ∃ o ∈ rest.map Prod.fst, c = Op.char o := by
  rcases List.mem_append.mp member with digit | later
  · exact .inl (first.all c digit)
  · obtain ⟨e,there,inside⟩ := List.mem_flatMap.mp later
    rcases List.mem_cons.mp inside with op | digit
    · exact .inr ⟨e.1,List.mem_map_of_mem there,op⟩
    · exact .inl (e.2.all c digit)

theorem op_mem_exprText (first : Literal) (rest : Chain) (o : Op) : o.char ∈ exprText first rest ↔ o ∈ rest.map Prod.fst := by
  constructor
  · intro member
    rcases mem_exprText member with digit | ⟨p,there,same⟩
    · exact absurd rfl (digit_ne_op digit o)
    · exact Op.char_inj same ▸ there
  · intro member
    obtain ⟨e,there,rfl⟩ := List.mem_map.mp member
    exact List.mem_append_right _ (List.mem_flatMap.mpr ⟨e,there,.head _⟩)

theorem exprText_ne {first : Literal} {rest : Chain} (other : isDigit d = false) (none : ∀ o : Op, d ≠ o.char) : d ∉ exprText first rest := by
  intro member
  rcases mem_exprText member with digit | ⟨o,_,same⟩
  · rw [other] at digit
    cases digit
  · exact none o same

theorem exprText_not_function (first : Literal) (rest : Chain) : isFunction (exprText first rest) = false :=
  not_function (exprText_ne (by decide) fun o => by cases o <;> decide)

-- The operator that run_expression goes by.
def chosen (ops : List Op) : Op := if .add ∈ ops then .add else if .sub ∈ ops then .sub else if .mul ∈ ops then .mul else .div

theorem chosen_mem {ops : List Op} (some : ops ≠ []) : chosen ops ∈ ops := by
  unfold chosen
  obtain ⟨o,rest,rfl⟩ := List.exists_cons_of_ne_nil some
  cases o <;> grind -linarith

theorem runExpression_chosen (call : List UInt8 → Option Value) (s : Scope) (first : Literal) (rest : Chain) (some : rest.map Prod.fst ≠ []) :
    runExpression call s (exprText first rest) = calculate s (exprText first rest) (chosen (rest.map Prod.fst)).char := by
  have mem := op_mem_exprText first rest
  have chosen := chosen_mem some
  have add := mem .add
  have sub := mem .sub
  have mul := mem .mul
  have div := mem .div
  simp only [Op.char] at add sub mul div
  simp only [runExpression,exprText_not_function,Bool.false_eq_true,if_false,add,sub,mul,div]
  unfold Script.chosen at chosen ⊢
  split
  · rfl
  split
  · rfl
  split
  · rfl
  · rename_i one two three
    rw [if_neg one,if_neg two,if_neg three] at chosen
    rw [if_pos chosen]
    rfl

theorem split_pieces (parts : split src c room = some list) : list = splitFrom c false false [] src := by
  simp only [split] at parts
  split at parts
  · exact (Option.some.inj parts).symm
  · cases parts

-- The first piece, and where the others come from.
theorem splitFrom_first (src : List UInt8) (filled : src.takeWhile (· ≠ c) ≠ []) (single : 39 ∉ src) (double : 34 ∉ src) :
    splitFrom c false false [] src = src.takeWhile (· ≠ c) :: splitFrom c false false [] (src.dropWhile (· ≠ c)).tail := by
  have part := (List.takeWhile_sublist (l := src) (fun d => decide (d ≠ c))).subset
  have other : c ∉ src.takeWhile (· ≠ c) := fun member => by simpa using List.mem_takeWhile_imp member
  have word := @splitFrom_word _ (src.dropWhile (· ≠ c)) _ [] other (fun later => single (part later)) fun later => double (part later)
  rw [List.takeWhile_append_dropWhile,List.nil_append] at word
  rw [word]
  cases rest : src.dropWhile (· ≠ c) with
  | nil => exact splitFrom_end filled
  | cons d rest =>
    have stop := List.head?_dropWhile_not (fun d => decide (d ≠ c)) src
    rw [rest] at stop
    obtain rfl : d = c := by simpa using stop
    exact splitFrom_next filled

theorem splitFrom_literal (l : Literal) (rest : List UInt8) (none : ∀ d ∈ l.digits, d ≠ c) (single : 39 ∉ l.digits ++ rest) (double : 34 ∉ l.digits ++ rest) :
    splitFrom c false false [] (l.digits ++ rest) =
      (l.digits ++ rest.takeWhile (· ≠ c)) :: splitFrom c false false [] (rest.dropWhile (· ≠ c)).tail := by
  have all : ∀ d ∈ l.digits, decide (d ≠ c) = true := fun d member => decide_eq_true (none d member)
  have first := splitFrom_first (l.digits ++ rest) (by rw [List.takeWhile_append_of_pos all]; simp [l.filled]) single double
  rwa [List.takeWhile_append_of_pos all,List.dropWhile_append_of_pos all] at first

-- The literal behind the first operator o, and what is behind the operator.
theorem dropWhile_chain (o : Op) (rest : Chain) (found : rest.find? (·.1 = o) = some e) :
    ∃ post, ((chainText rest).dropWhile (· ≠ o.char)).tail = e.2.digits ++ chainText post := by
  induction rest with
  | nil => cases found
  | cons f rest ih =>
    by_cases here : f.1 = o
    · rw [List.find?_cons_of_pos (by simpa using here)] at found
      cases found
      refine ⟨rest,?_⟩
      simp [chainText,here]
    rw [List.find?_cons_of_neg (by simpa using here)] at found
    obtain ⟨post,same⟩ := ih found
    refine ⟨post,?_⟩
    have digits : ∀ d ∈ f.2.digits, decide (d ≠ o.char) = true := fun d member => decide_eq_true (digit_ne_op (f.2.all d member) o)
    have other : f.1.char ≠ o.char := fun same => here (Op.char_inj same)
    rw [chainText,flatMap_cons,List.cons_append,List.dropWhile_cons_of_pos (by simpa using other),List.dropWhile_append_of_pos digits]
    exact same

theorem chainText_head (rest : Chain) (p : UInt8 → Bool) : ∀ c ∈ ((chainText rest).takeWhile p).head?, isDigit c = false := by
  cases rest with
  | nil => simp [chainText]
  | cons e rest =>
    intro c first
    rw [chainText,flatMap_cons,List.cons_append,List.takeWhile_cons] at first
    split at first
    · cases first
      exact op_not_digit e.1
    · cases first

theorem exprText_quotes (first : Literal) (rest : Chain) : 39 ∉ exprText first rest ∧ 34 ∉ exprText first rest :=
  ⟨exprText_ne (by decide) fun o => by cases o <;> decide,exprText_ne (by decide) fun o => by cases o <;> decide⟩

-- All that is used are the first literal and the one behind the first operator chosen.
theorem calculate_two (s : Scope) (first : Literal) (rest : Chain) (o : Op) (found : rest.find? (·.1 = o) = some e)
    (one : first.value < 2147483648) (two : e.2.value < 2147483648) : calculate s (exprText first rest) o.char =
      (split (exprText first rest) o.char MAX_VARS_NUMBER).bind fun _ => calculateValues o.char (.int first.value) (.int e.2.value) := by
  obtain ⟨post,behind⟩ := dropWhile_chain o rest found
  have pieces := splitFrom_literal first _ (fun d member => digit_ne_op (first.all d member) o)
    (exprText_quotes first rest).1 (exprText_quotes first rest).2
  rw [behind,splitFrom_literal e.2 _ (fun d member => digit_ne_op (e.2.all d member) o) (exprText_quotes e.2 post).1 (exprText_quotes e.2 post).2] at pieces
  cases parts : split (exprText first rest) o.char MAX_VARS_NUMBER with
  | none => simp only [calculate,parts,Option.bind_none]
  | some list =>
    obtain rfl := split_pieces parts
    rw [exprText,pieces] at parts
    rw [calculate,exprText,parts]
    simp only [getVar_literal s first one (chainText_head rest _),getVar_literal s e.2 two (chainText_head post _),Option.bind_some]

theorem fits_some (fit : fits n = some v) : v = n ∧ -2147483648 ≤ n ∧ n < 2147483648 := by
  unfold fits at fit
  split at fit
  · cases fit
    exact ⟨rfl,‹_›⟩
  · cases fit

theorem fits_small (low : -1000 ≤ n) (high : n ≤ 1000) : fits n = some n := if_pos ⟨by omega,by omega⟩

theorem eval_pair (first l : Literal) (o : Op) (value : eval first [(o,l)] = some v) : ∃ n, operate o.char first.value l.value = some n ∧ fits n = some v := by
  have least := first.value_nonneg
  cases o with
  | add =>
    obtain ⟨w,sum,value⟩ := Option.bind_eq_some_iff.mp value
    obtain ⟨rfl,_⟩ := fits_some sum
    exact ⟨_,rfl,by simpa [evalFrom] using value⟩
  | sub =>
    obtain ⟨w,sum,value⟩ := Option.bind_eq_some_iff.mp value
    obtain ⟨rfl,_⟩ := fits_some sum
    refine ⟨_,rfl,?_⟩
    rw [← value,evalFrom]
    congr 1
    omega
  | mul =>
    obtain ⟨w,product,value⟩ := Option.bind_eq_some_iff.mp value
    obtain ⟨rfl,_⟩ := fits_some product
    exact ⟨_,rfl,by simpa [evalFrom] using value⟩
  | div =>
    rw [eval,evalFrom] at value
    split at value
    · cases value
    rename_i divisor
    refine ⟨_,if_neg ?_,by simpa [evalFrom] using value⟩
    rintro (zero | ⟨negative,_⟩)
    · exact divisor zero
    · omega

-- One operator: the two literals are the two pieces.
theorem calculate_one (s : Scope) (first l : Literal) (o : Op) (one : Plain first) (two : Plain l) (value : eval first [(o,l)] = some v) :
    calculate s (exprText first [(o,l)]) o.char = some (.int v) := by
  have found : List.find? (fun e : Op × Literal => decide (e.1 = o)) [(o,l)] = some (o,l) := List.find?_cons_of_pos (decide_eq_true rfl)
  have pieces : splitFrom o.char false false [] (exprText first [(o,l)]) = [first.digits,l.digits] := by
    have last := splitFrom_literal l [] (fun d member => digit_ne_op (l.all d member) o)
      (exprText_quotes l []).1 (exprText_quotes l []).2
    have both := splitFrom_literal first _ (fun d member => digit_ne_op (first.all d member) o)
      (exprText_quotes first [(o,l)]).1 (exprText_quotes first [(o,l)]).2
    refine both.trans ?_
    simpa [chainText,splitFrom] using last
  have room : split (exprText first [(o,l)]) o.char MAX_VARS_NUMBER = some [first.digits,l.digits] := by
    simp only [split,pieces]
    exact if_pos ⟨by simp [one.2,two.2],show 2 < 8 by decide⟩
  obtain ⟨n,operated,fit⟩ := eval_pair first l o value
  obtain ⟨rfl,low,high⟩ := fits_some fit
  rw [calculate_two s first _ o found one.1 two.1,room,Option.bind_some,calculateValues]
  simp only [number,operated,Option.map_some,Int.bmod_eq_of_le (show -(4294967296/2) ≤ v by omega) (show v < (4294967296+1)/2 by omega)]

def one : Literal := ⟨[49],List.forall_mem_singleton.mpr rfl,by decide⟩
def two : Literal := ⟨[50],List.forall_mem_singleton.mpr rfl,by decide⟩

-- Ones change the value by a number that depends on the operators only.
theorem evalFrom_ones (ops : List Op) : ∃ k : Int, ∀ acc sign term : Int, acc.natAbs+2*ops.length ≤ 900 → (sign = 1 ∨ sign = -1) → 0 ≤ term → term ≤ 2 →
    evalFrom acc sign term (ops.map fun o => (o,one)) = some (acc+sign*term+k) := by
  have value : one.value = 1 := rfl
  induction ops with
  | nil =>
    refine ⟨0,fun acc sign term low signs least most => ?_⟩
    rw [List.length_nil] at low
    rw [Int.add_zero]
    exact fits_small (by rcases signs with rfl | rfl <;> omega) (by rcases signs with rfl | rfl <;> omega)
  | cons o ops ih =>
    obtain ⟨k,rest⟩ := ih
    cases o with
    | add =>
      refine ⟨1+k,fun acc sign term low signs least most => ?_⟩
      rw [length_cons] at low
      rw [map_cons,evalFrom,fits_small (by rcases signs with rfl | rfl <;> omega) (by rcases signs with rfl | rfl <;> omega),
        Option.bind_some,rest _ 1 _ (by rcases signs with rfl | rfl <;> omega) (.inl rfl) (by decide) (by decide),value]
      congr 1
      omega
    | sub =>
      refine ⟨-1+k,fun acc sign term low signs least most => ?_⟩
      rw [length_cons] at low
      rw [map_cons,evalFrom,fits_small (by rcases signs with rfl | rfl <;> omega) (by rcases signs with rfl | rfl <;> omega),
        Option.bind_some,rest _ (-1) _ (by rcases signs with rfl | rfl <;> omega) (.inr rfl) (by decide) (by decide),value]
      congr 1
      omega
    | mul =>
      refine ⟨k,fun acc sign term low signs least most => ?_⟩
      rw [length_cons] at low
      rw [map_cons,evalFrom,value,Int.mul_one,fits_small (by omega) (by omega),Option.bind_some,rest _ _ _ (by omega) signs least most]
    | div =>
      refine ⟨k,fun acc sign term low signs least most => ?_⟩
      rw [length_cons] at low
      rw [map_cons,evalFrom,value,if_neg (by decide),Int.tdiv_one,rest _ _ _ (by omega) signs least most]

-- A two for the next of the ones changes the value.
theorem two_differs (acc : Int) (o : Op) (ops : List Op) (small : acc.natAbs+2*ops.length ≤ 800) (signs : sign = 1 ∨ sign = -1) : ∃ u v,
    evalFrom acc sign 1 ((o,one) :: ops.map fun o => (o,one)) = some u ∧ evalFrom acc sign 1 ((o,two) :: ops.map fun o => (o,one)) = some v ∧ u ≠ v := by
  obtain ⟨k,rest⟩ := evalFrom_ones ops
  have value : one.value = 1 := rfl
  have more : two.value = 2 := rfl
  have sum : fits (acc+sign*1) = some (acc+sign*1) := fits_small (by omega) (by omega)
  cases o with
  | add =>
    refine ⟨acc+sign*1+1*1+k,acc+sign*1+1*2+k,?_,?_,by omega⟩
    · rw [evalFrom,sum,Option.bind_some,rest _ _ _ (by omega) (.inl rfl) (by decide) (by decide),value]
    · rw [evalFrom,sum,Option.bind_some,rest _ _ _ (by omega) (.inl rfl) (by decide) (by decide),more]
  | sub =>
    refine ⟨acc+sign*1+(-1)*1+k,acc+sign*1+(-1)*2+k,?_,?_,by omega⟩
    · rw [evalFrom,sum,Option.bind_some,rest _ _ _ (by omega) (.inr rfl) (by decide) (by decide),value]
    · rw [evalFrom,sum,Option.bind_some,rest _ _ _ (by omega) (.inr rfl) (by decide) (by decide),more]
  | mul =>
    refine ⟨acc+sign*1+k,acc+sign*2+k,?_,?_,by omega⟩
    · exact rest acc sign 1 (by omega) signs (by decide) (by decide)
    · exact rest acc sign 2 (by omega) signs (by decide) (by decide)
  | div =>
    refine ⟨acc+sign*1+k,acc+sign*0+k,?_,?_,by omega⟩
    · exact rest acc sign 1 (by omega) signs (by decide) (by decide)
    · exact rest acc sign 0 (by omega) signs (by decide) (by decide)

theorem step_one (a : Op) : ∃ acc sign : Int, acc.natAbs ≤ 1 ∧ (sign = 1 ∨ sign = -1) ∧ ∀ rest, evalFrom 0 1 1 ((a,one) :: rest) = evalFrom acc sign 1 rest := by
  cases a with
  | add => exact ⟨1,1,by decide,.inl rfl,fun _ => rfl⟩
  | sub => exact ⟨1,-1,by decide,.inr rfl,fun _ => rfl⟩
  | mul => exact ⟨0,1,by decide,.inl rfl,fun _ => rfl⟩
  | div => exact ⟨0,1,by decide,.inl rfl,fun _ => rfl⟩

theorem ones_found (ops : List Op) (member : o ∈ ops) : ∃ e, (ops.map fun o => (o,one)).find? (·.1 = o) = some e ∧ e.2 = one := by
  cases found : (ops.map fun o => (o,one)).find? (·.1 = o) with
  | none =>
    have missing := List.find?_eq_none.mp found (o,one) (List.mem_map_of_mem member)
    simp at missing
  | some e =>
    obtain ⟨_,_,rfl⟩ := List.mem_map.mp (List.mem_of_find?_eq_some found)
    exact ⟨_,rfl,rfl⟩

theorem ones_length {ops : List Op} (first : x.digits.length = 1) (second : y.digits.length = 1) :
    (chainText ((a,x) :: (b,y) :: ops.map fun o => (o,one))).length = 2*(ops.length+2) := by
  have rest : (chainText (ops.map fun o => (o,one))).length = 2*ops.length := by
    induction ops with
    | nil => rfl
    | cons o ops ih =>
      rw [map_cons,chainText,flatMap_cons,List.length_append]
      change 2+(chainText _).length = 2*(ops.length+1)
      omega
  simp only [chainText,flatMap_cons,List.length_append,length_cons,first,second] at rest ⊢
  omega

theorem run_expression_exact (call : List UInt8 → Option Value) (s : Scope) (ops : List Op) (line : ops.length ≤ 15) :
    (∀ first rest v, rest.map Prod.fst = ops → (∀ l ∈ first :: rest.map Prod.snd, Plain l) → (exprText first rest).length < MAX_LINE_LENGTH →
      eval first rest = some v → runExpression call s (exprText first rest) = some (.int v)) ↔ ops.length ≤ 1 := by
  constructor
  · intro right
    by_contra more
    obtain ⟨a,b,ops,rfl⟩ : ∃ a b more, ops = a :: b :: more := by
      cases ops with
      | nil => exact absurd (Nat.zero_le 1) more
      | cons a ops =>
        cases ops with
        | nil => exact absurd (Nat.le_refl 1) more
        | cons b ops => exact ⟨a,b,ops,rfl⟩
    rw [length_cons,length_cons] at line
    -- a chain of ones with one two in it, where what is used are ones
    have used : ∀ x ∈ [one,two], ∀ y ∈ [one,two], (a = chosen (a :: b :: ops) → x = one) → (a ≠ chosen (a :: b :: ops) → y = one) →
        ∀ v, evalFrom 0 1 1 ((a,x) :: (b,y) :: ops.map fun o => (o,one)) = some v →
          calculateValues (chosen (a :: b :: ops)).char (.int 1) (.int 1) = some (.int v) := by
      intro x xs y ys first second v value
      have names : ((a,x) :: (b,y) :: ops.map fun o => (o,one)).map Prod.fst = a :: b :: ops := by simp [Function.comp_def]
      have digit : ∀ l ∈ [one,two], l.digits.length = 1 ∧ Plain l := by simp [Plain,one,two,Literal.value,nextDigit,MAX_NAME_LINGTH]
      have run := right one _ v names (by simp [digit x xs,digit y ys,Function.comp_def,digit one List.mem_cons_self])
        (by rw [exprText,List.length_append,ones_length (x := x) (y := y) (digit x xs).1 (digit y ys).1]; exact (show 1+_ < 32 by omega)) value
      obtain ⟨e,found,same⟩ : ∃ e, ((a,x) :: (b,y) :: ops.map fun o => (o,one)).find? (·.1 = chosen (a :: b :: ops)) = some e ∧ e.2 = one := by
        by_cases head : a = chosen (a :: b :: ops)
        · exact ⟨(a,x),List.find?_cons_of_pos (decide_eq_true head),first head⟩
        · rw [List.find?_cons_of_neg (by simpa using head),second head]
          exact ones_found (b :: ops) ((List.mem_cons.mp (chosen_mem (List.cons_ne_nil a (b :: ops)))).resolve_left (Ne.symm head))
      rw [runExpression_chosen _ _ _ _ (by simp),names,calculate_two s one _ _ found (by decide) (by rw [same]; decide),same] at run
      exact (Option.bind_eq_some_iff.mp run).choose_spec.2
    by_cases head : a = chosen (a :: b :: ops)
    · obtain ⟨acc,sign,small,signs,step⟩ := step_one a
      obtain ⟨u,v,ones,other,differ⟩ := two_differs acc b ops (by omega) signs
      have first := used one (.head _) one (.head _) (fun _ => rfl) (fun _ => rfl) u (by rw [step,ones])
      have second := used one (.head _) two (by simp) (fun _ => rfl) (absurd head) v (by rw [step,other])
      rw [first] at second
      cases second
      exact differ rfl
    · obtain ⟨u,v,ones,other,differ⟩ := two_differs 0 a (b :: ops) (by rw [length_cons]; omega) (.inl (Eq.refl 1))
      have first := used one (.head _) one (.head _) (fun _ => rfl) (fun _ => rfl) u ones
      have second := used two (by simp) one (.head _) (fun same => absurd same head) (fun _ => rfl) v other
      rw [first] at second
      cases second
      exact differ rfl
  · intro few first rest v names plain _ value
    cases rest with
    | nil =>
      obtain ⟨rfl,_⟩ := fits_some value
      rw [exprText,chainText,List.flatMap_nil,List.append_nil,runExpression_literal call s first (plain first List.mem_cons_self).1,Int.zero_add,Int.one_mul]
    | cons e rest =>
      cases rest with
      | cons => subst names; exact absurd few (by simp)
      | nil =>
      obtain ⟨o,l⟩ := e
      have only : chosen [o] = o := List.mem_singleton.mp (chosen_mem (List.cons_ne_nil o []))
      rw [runExpression_chosen call s first [(o,l)] (List.cons_ne_nil o []),map_cons,List.map_nil,only]
      exact calculate_one s first l o (plain first (.head _)) (plain l (by simp)) value

-- 2+3
theorem run_expression_sum : runExpression (fun _ => none) ⟨[],[]⟩ [50,43,51] = some (.int 5) :=
  (run_expression_exact (fun _ => none) ⟨[],[]⟩ [.add] (by decide)).mpr (by decide) two
    [(.add,⟨[51],List.forall_mem_singleton.mpr rfl,by decide⟩)] 5 rfl (by simp [Plain,two,Literal.value,nextDigit,MAX_NAME_LINGTH]) (by decide) rfl

-- 1+2+3: the third piece is not looked at.
theorem run_expression_two_pieces : runExpression (fun _ => none) ⟨[],[]⟩ [49,43,50,43,51] = some (.int 3) := by decide

end Xv6.Script
