import Xv6.Script.Decimal

namespace Xv6.Script

-- script.c: the values of variables and expressions. none is exit(), or an access out of bounds.

def MAX_LINE_LENGTH : Nat := 32
def MAX_NAME_LINGTH : Nat := 24
def MAX_VARS_NUMBER : Nat := 8

-- The type of a Var and what its value points to.
inductive Value where
  | void
  | int (n : Int)
  | char (c : UInt8)
  | string (s : List UInt8)
deriving DecidableEq

structure Var where
  name : List UInt8
  value : Value
deriving DecidableEq

-- The variables of the running function up to the first VOID, and the global ones.
structure Scope where
  vars : List Var
  globals : List Var
deriving DecidableEq

def strcatN (dest src : List UInt8) : List UInt8 := if MAX_LINE_LENGTH ≤ src.length+dest.length then dest else dest ++ src

-- The pieces that are not empty, with the quotes open so far and the piece so far.
def splitFrom (pattern : UInt8) : Bool → Bool → List UInt8 → List UInt8 → List (List UInt8)
  | _,_,piece,[] => if piece = [] then [] else [piece]
  | single,double,piece,c :: src =>
    if c = pattern ∧ single = false ∧ double = false then
      if piece = [] then splitFrom pattern single double [] src else piece :: splitFrom pattern single double [] src
    else splitFrom pattern (single ^^ (c == 39)) (double ^^ (c == 34)) (piece ++ [c]) src

-- A piece has to fit its block with a NUL, and the pieces an array of the given size with a NULL.
def split (src : List UInt8) (pattern : UInt8) (room : Nat) : Option (List (List UInt8)) :=
  let pieces := splitFrom pattern false false [] src
  if (∀ p ∈ pieces, p.length < MAX_NAME_LINGTH) ∧ pieces.length < room then some pieces else none

-- '(' behind the first character, which is no bracket, and ')' behind it.
def isFunction : List UInt8 → Bool
  | [] => false
  | c :: part => c != 40 && c != 41 && (part.dropWhile (· ≠ 40)).contains 41

def escaped (c : UInt8) : UInt8 :=
  match c with
  | 97 => 7 | 98 => 8 | 102 => 12 | 110 => 10 | 114 => 13 | 116 => 9 | 118 => 11 | 92 => 92 | 39 => 39 | 34 => 34 | _ => 0

def getCharValue : List UInt8 → UInt8
  | [_,c,_] => c
  | [_,92,c,_] => escaped c
  | _ => 0

def unescape : List UInt8 → List UInt8
  | [] => []
  | [92] => [0]
  | 92 :: c :: rest => escaped c :: unescape rest
  | c :: rest => c :: unescape rest

def getStringValue (part : List UInt8) : List UInt8 := (unescape part.tail.dropLast).takeWhile (· ≠ 0)

-- Of an empty part the result is not initialised.
def getVar (s : Scope) : List UInt8 → Option Value
  | [] => none
  | c :: rest =>
    if atoi (c :: rest) ≠ 0 ∨ c = 48 then some (.int (atoi (c :: rest)))
    else if c = 39 then some (.char (getCharValue (c :: rest)))
    else if c = 34 then some (.string (getStringValue (c :: rest)))
    else ((s.vars.find? fun v => v.name = c :: rest).or (s.globals.find? fun v => v.name = c :: rest)).map Var.value

-- char is signed.
def signed (c : UInt8) : Int := (c.toNat : Int).bmod 256

def low (n : Int) : UInt8 := UInt8.ofNat (n % 256).toNat

def asText : Value → List UInt8
  | .int n => itoa n
  | .char c => if c = 0 then [] else [c]
  | .string s => s
  | .void => []

-- What set_var puts into a variable that has the value old.
def assign : Value → Value → Option Value
  | .int _,.int n => some (.int n)
  | .int _,.char c => some (.int (signed c))
  | .char _,.int n => some (.char (low n))
  | .char _,.char c => some (.char c)
  | .string _,.void => none
  | .string _,v => some (.string (asText v))
  | _,_ => none

-- The loops of set_var go on to the last variable of the name.
def setLast (name : List UInt8) (v : Value) : List Var → Option (List Var)
  | [] => none
  | x :: rest =>
    if rest.any (·.name = name) then (setLast name v rest).map (x :: ·)
    else if x.name = name then (assign x.value v).map fun w => ⟨x.name,w⟩ :: rest
    else none

def setVar (s : Scope) (name : List UInt8) (v : Value) : Option Scope :=
  if s.vars.any (·.name = name) then (setLast name v s.vars).map fun vars => { s with vars := vars }
  else (setLast name v s.globals).map fun globals => { s with globals := globals }

def number : Value → Option Int
  | .int n => some n
  | .char c => some (signed c)
  | _ => none

-- The machine's operations; division traps where it has no result.
def operate (kind : UInt8) (a b : Int) : Option Int :=
  match kind with
  | 43 => some (a+b)
  | 45 => some (a-b)
  | 42 => some (a*b)
  | 47 => if b = 0 ∨ (a = -2147483648 ∧ b = -1) then none else some (a.tdiv b)
  | _ => none

def calculateValues (kind : UInt8) (left right : Value) : Option Value :=
  match number left,number right with
  | some a,some b => (operate kind a b).map fun n => match left,right with
    | .char _,.char _ => .char (low n)
    | _,_ => .int (n.bmod 4294967296)
  | _,_ => some (if kind = 43 ∧ left ≠ .void ∧ right ≠ .void then .string (strcatN (asText left) (asText right)) else .void)

def calculate (s : Scope) (expression : List UInt8) (kind : UInt8) : Option Value :=
  match split expression kind MAX_VARS_NUMBER with
  | some (left :: right :: _) => match getVar s left,getVar s right with
    | some a,some b => calculateValues kind a b
    | _,_ => none
  | _ => none

-- call is push_function and run_function.
def runExpression (call : List UInt8 → Option Value) (s : Scope) (expression : List UInt8) : Option Value :=
  if isFunction expression then call expression
  else if 43 ∈ expression then calculate s expression 43
  else if 45 ∈ expression then calculate s expression 45
  else if 42 ∈ expression then calculate s expression 42
  else if 47 ∈ expression then calculate s expression 47
  else getVar s expression

-- A literal and the number it stands for.
structure Literal where
  digits : List UInt8
  all : ∀ c ∈ digits, isDigit c = true
  filled : digits ≠ []

def Literal.value (l : Literal) : Int := l.digits.foldl nextDigit 0

theorem digit_least (digit : isDigit c = true) : (48 : Int) ≤ c.toNat := by
  have least : 48 ≤ c.toNat := of_decide_eq_true (Bool.and_eq_true_iff.mp digit).1
  omega

theorem foldl_digits_least (ds : List UInt8) : (∀ c ∈ ds, isDigit c = true) → ∀ n, 0 ≤ n → n ≤ ds.foldl nextDigit n := by
  induction ds with
  | nil => exact fun _ n _ => Int.le_refl n
  | cons c ds ih =>
    intro digits n least
    have digit := digit_least (digits c (.head _))
    have more : n ≤ nextDigit n c := by
      unfold nextDigit
      omega
    exact Int.le_trans more (ih (fun d member => digits d (List.mem_cons_of_mem c member)) _ (Int.le_trans least more))

theorem Literal.value_nonneg (l : Literal) : 0 ≤ l.value := foldl_digits_least l.digits l.all 0 (Int.le_refl 0)

theorem foldl_wraps (ds : List UInt8) : ∀ n : Int, ds.foldl (fun n c => (nextDigit n c).bmod 4294967296) (n.bmod 4294967296) =
    (ds.foldl nextDigit n).bmod 4294967296 := by
  induction ds with
  | nil => exact fun _ => rfl
  | cons c ds ih =>
    intro n
    rw [List.foldl_cons,List.foldl_cons,← ih,nextDigit,nextDigit,← Int.bmod_add_bmod,Int.bmod_mul_bmod,Int.bmod_add_bmod]

-- A number ends where the digits do.
theorem Literal.atoi_eq (l : Literal) (small : l.value < 2147483648) (stop : ∀ c ∈ rest.head?, isDigit c = false) :
    atoi (l.digits ++ rest) = l.value := by
  have taken : (l.digits ++ rest).takeWhile isDigit = l.digits := by
    rw [List.takeWhile_append_of_pos l.all]
    cases rest with
    | nil => rw [List.takeWhile_nil,List.append_nil]
    | cons c rest => rw [List.takeWhile_cons_of_neg (by rw [stop c rfl]; decide),List.append_nil]
  have least := l.value_nonneg
  have digit : ∀ c ∈ (l.digits ++ rest).head?, isDigit c = true := by
    intro c first
    rw [List.head?_append,Option.or_of_isSome (List.isSome_head?.mpr l.filled)] at first
    exact l.all c (List.mem_of_mem_head? first)
  rw [atoi_unsigned digit,readDigits,taken]
  exact (foldl_wraps l.digits 0).trans (Int.bmod_eq_of_le (by change _ ≤ l.value; omega) (by change l.value < _; omega))

theorem getVar_literal (s : Scope) (l : Literal) (small : l.value < 2147483648) (stop : ∀ c ∈ rest.head?, isDigit c = false) :
    getVar s (l.digits ++ rest) = some (.int l.value) := by
  have value := l.atoi_eq small stop
  cases start : l.digits with
  | nil => exact absurd start l.filled
  | cons c ds =>
    have zero : l.value = 0 → c = 48 := by
      intro zero
      have digits := l.all
      rw [start] at digits
      rw [Literal.value,start,List.foldl_cons] at zero
      have digit := digit_least (digits c (.head _))
      have step : nextDigit 0 c = c.toNat-48 := by
        unfold nextDigit
        omega
      have first := foldl_digits_least ds (fun d member => digits d (List.mem_cons_of_mem c member)) (nextDigit 0 c) (by omega)
      exact UInt8.toNat_inj.mp (show c.toNat = 48 by omega)
    rw [start,List.cons_append] at value
    rw [List.cons_append,getVar,value,if_pos (by by_cases null : l.value = 0; exact .inr (zero null); exact .inl null)]

theorem Literal.not_mem (l : Literal) (other : isDigit c = false) : c ∉ l.digits := fun member => absurd (l.all c member) (by rw [other]; decide)

theorem not_function (none : 41 ∉ part) : isFunction part = false := by
  cases part with
  | nil => rfl
  | cons c part =>
    refine Bool.eq_false_iff.mpr fun found => none (List.mem_cons_of_mem c ?_)
    exact (List.dropWhile_sublist _).subset (List.contains_iff_mem.mp (Bool.and_eq_true_iff.mp found).2)

theorem runExpression_literal (call : List UInt8 → Option Value) (s : Scope) (l : Literal) (small : l.value < 2147483648) :
    runExpression call s l.digits = some (.int l.value) := by
  have value : getVar s (l.digits ++ []) = _ := getVar_literal s l small (by simp)
  rw [List.append_nil] at value
  rw [runExpression,not_function (l.not_mem (by decide)),if_neg Bool.false_ne_true,if_neg (l.not_mem (by decide)),if_neg (l.not_mem (by decide)),
    if_neg (l.not_mem (by decide)),if_neg (l.not_mem (by decide)),value]

-- What is no separator and no quote goes to the piece.
theorem splitFrom_word (w : List UInt8) : ∀ piece, p ∉ w → 39 ∉ w → 34 ∉ w →
    splitFrom p false false piece (w ++ rest) = splitFrom p false false (piece ++ w) rest := by
  induction w with
  | nil => exact fun piece _ _ _ => by rw [List.append_nil,List.nil_append]
  | cons c w ih =>
    intro piece other single double
    simp only [List.mem_cons,not_or] at other single double
    rw [List.cons_append,splitFrom,if_neg fun same => other.1 same.1.symm,beq_false_of_ne (Ne.symm single.1),beq_false_of_ne (Ne.symm double.1)]
    exact (ih (piece ++ [c]) other.2 single.2 double.2).trans (by rw [List.append_assoc,List.singleton_append])

theorem splitFrom_end (filled : piece ≠ []) : splitFrom p false false piece [] = [piece] := by rw [splitFrom,if_neg filled]

theorem splitFrom_next (filled : piece ≠ []) : splitFrom p false false piece (p :: src) = piece :: splitFrom p false false [] src := by
  rw [splitFrom,if_pos ⟨rfl,rfl,rfl⟩,if_neg filled]

end Xv6.Script
