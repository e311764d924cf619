import Xv6.Script.Values

namespace Xv6.Script

-- get_condition_result: the comparison of two operands.

def strcmp : List UInt8 → List UInt8 → Int
  | a :: p,b :: q => if a = b then strcmp p q else a.toNat-b.toNat
  | a :: _,[] => a.toNat
  | [],b :: _ => -b.toNat
  | [],[] => 0

-- 0 for an operator that is none of the six.
def compared (operator : List UInt8) (o : Ordering) : Int :=
  if operator = [62] then (o == .gt).toInt
  else if operator = [60] then (o == .lt).toInt
  else if operator = [62,61] then (o != .lt).toInt
  else if operator = [60,61] then (o != .gt).toInt
  else if operator = [61,61] then (o == .eq).toInt
  else if operator = [33,61] then (o != .eq).toInt
  else 0

-- The right number is read as a char of an INT and as an int of a CHAR, where junk is what is behind the block's first byte.
def readRight (junk : Nat) : Value → Option Int
  | .int n => some (signed (low n))
  | .char c => some ((c.toNat+256*junk : Int).bmod 4294967296)
  | _ => none

def calculateCondition (junk : Nat) (left right : Value) (operator : List UInt8) : Option Int :=
  match left,right with
  | .string p,.string q => some (compared operator (compare (strcmp p q) 0))
  | _,_ => match number left,readRight junk right with
    | some a,some b => some (compared operator (compare a b))
    | _,_ => none

def isOperator (c : UInt8) : Bool := c == 62 || c == 60 || c == 61 || c == 33

def truth : Value → Int
  | .int n => n
  | .char c => signed c
  | .string s => (s != []).toInt
  | .void => 0

-- Both operands have to fit a name with a NUL.
def getConditionResult (junk : Nat) (s : Scope) (part : List UInt8) : Option Int :=
  match part.dropWhile (!isOperator ·) with
  | [] => (getVar s part).map truth
  | c :: rest =>
    let left := part.takeWhile (!isOperator ·)
    let right := if rest.head? = some 61 then rest.tail else rest
    if left.length < MAX_NAME_LINGTH ∧ right.length < MAX_NAME_LINGTH then
      match getVar s left,getVar s right with
      | some a,some b => calculateCondition junk a b (c :: rest.take (if rest.head? = some 61 then 1 else 0))
      | _,_ => none
    else none

inductive Relation where
  | gt | lt | ge | le | eq | ne

def Relation.text : Relation → List UInt8
  | gt => [62] | lt => [60] | ge => [62,61] | le => [60,61] | eq => [61,61] | ne => [33,61]

def Relation.holds : Relation → Ordering → Bool
  | gt,o => o.isGT | lt,o => o.isLT | ge,o => o.isGE | le,o => o.isLE | eq,o => o.isEq | ne,o => o.isNe

-- Numbers by their value and strings by their bytes.
def order : Value → Value → Option Ordering
  | .string p,.string q => some (compareOfLessAndEq p q)
  | a,b => match number a,number b with
    | some m,some n => some (compare m n)
    | _,_ => none

-- What the right operand has to be to be read as it is.
def ReadWell (junk : Nat) : Value → Prop
  | .int n => -128 ≤ n ∧ n < 128
  | .char c => (c.toNat+256*junk : Int).bmod 4294967296 = signed c
  | _ => True

theorem compared_text (r : Relation) (o : Ordering) : compared r.text o = (r.holds o).toInt := by cases r <;> cases o <;> rfl

theorem head_filled (whole : (0 : UInt8) ∉ a :: p) : a.toNat ≠ 0 :=
  fun zero => whole (UInt8.toNat_inj.mp (show a.toNat = (0 : UInt8).toNat from zero) ▸ List.mem_cons_self)

theorem strcmp_order : ∀ p q : List UInt8, 0 ∉ p → 0 ∉ q → (strcmp p q < 0 ↔ p < q) ∧ (strcmp p q = 0 ↔ p = q)
  | [],[],_,_ => by simp [strcmp]
  | a :: p,[],whole,_ => by simp [strcmp,head_filled whole]
  | [],b :: q,_,whole => by simp [strcmp,head_filled whole,Nat.pos_of_ne_zero]
  | a :: p,b :: q,left,right => by
    have rest := strcmp_order p q (fun member => left (List.mem_cons_of_mem a member)) (fun member => right (List.mem_cons_of_mem b member))
    rw [strcmp,List.cons_lt_cons_iff,List.cons.injEq]
    split
    · rename_i same
      simp only [same,true_and,rest,UInt8.lt_irrefl,false_or,and_self]
    · rename_i apart
      have differ : a.toNat ≠ b.toNat := fun same => apart (UInt8.toNat_inj.mp same)
      simp only [apart,false_and,or_false,UInt8.lt_iff_toNat_lt,iff_false]
      omega

theorem compared_eq {m w : Int} (one : compared Relation.eq.text (compare m w) = 1) : w = m := by
  rw [compared_text] at one
  cases ordered : compare m w with
  | eq => exact (Std.LawfulEqOrd.eq_of_compare ordered).symm
  | lt => rw [ordered] at one; cases one
  | gt => rw [ordered] at one; cases one

theorem signed_low (n : Int) : signed (low n) = n.bmod 256 := by
  have same : ((low n).toNat : Int) = n % 256 := by
    rw [low,UInt8.toNat_ofNat']
    omega
  unfold signed
  rw [same]
  exact Int.emod_bmod n 256

theorem readWell_iff (junk : Nat) (v : Value) : ReadWell junk v ↔ readRight junk v = number v := by
  cases v with
  | int n =>
    rw [ReadWell,readRight,number,Option.some.injEq,signed_low]
    constructor
    · exact fun fits => Int.bmod_eq_of_le (by omega) (by omega)
    · intro same
      have least : -(256/2) ≤ n.bmod 256 := Int.le_bmod (by decide)
      have most : n.bmod 256 < (256+1)/2 := Int.bmod_lt (by decide)
      omega
  | char c => rw [ReadWell,readRight,number,Option.some.injEq]
  | void => exact iff_of_true trivial rfl
  | string s => exact iff_of_true trivial rfl

theorem calculateCondition_order (junk : Nat) (r : Relation) (left : ∀ p, a = .string p → 0 ∉ p) (right : ∀ q, b = .string q → 0 ∉ q)
    (ordered : order a b = some o) (read : readRight junk b = number b) : calculateCondition junk a b r.text = some (r.holds o).toInt := by
  unfold order at ordered
  split at ordered
  · rename_i p q
    obtain ⟨less,same⟩ := strcmp_order p q (left p rfl) (right q rfl)
    cases ordered
    rw [calculateCondition,compared_text,show compare (strcmp p q) 0 = compareOfLessAndEq p q by simp only [compare,compareOfLessAndEq,less,same]]
  rename_i numbers
  rw [calculateCondition.eq_2 _ _ _ _ numbers,read]
  split at ordered
  · cases ordered
    rw [compared_text]
  · cases ordered

-- The comparison behind a left operand without an operator.
theorem getConditionResult_parts (junk : Nat) (s : Scope) (r : Relation) (clear : ∀ c ∈ left, isOperator c = false) (apart : right.head? ≠ some 61)
    (foundLeft : getVar s left = some a) (foundRight : getVar s right = some b) : getConditionResult junk s (left ++ (r.text ++ right)) =
      if left.length < MAX_NAME_LINGTH ∧ right.length < MAX_NAME_LINGTH then calculateCondition junk a b r.text else none := by
  have plain : ∀ c ∈ left, (!isOperator c) = true := fun c member => by rw [clear c member]; rfl
  rw [getConditionResult,List.dropWhile_append_of_pos plain,List.takeWhile_append_of_pos plain]
  cases r <;> simp [Relation.text,isOperator,apart,foundLeft,foundRight]

-- A comparison with every left operand of every scope is right.
def Compares (junk : Nat) (right : List UInt8) (b : Value) : Prop :=
  ∀ s left a o r, getVar s left = some a → getVar s right = some b → order a b = some o → (∀ p, a = .string p → 0 ∉ p) →
    (∀ c ∈ left, isOperator c = false) → left.length < MAX_NAME_LINGTH →
      getConditionResult junk s (left ++ (Relation.text r ++ right)) = some (r.holds o).toInt

end Xv6.Script
