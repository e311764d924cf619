import Xv6.Script.Scope

namespace Xv6.Script

-- A byte of the buffer of a line: zero behind the text; behind is the first byte
-- after the buffer.
def byteAt (behind : UInt8) (part : List UInt8) (i : Nat) : UInt8 := if i = MAX_LINE_LENGTH then behind else part.getD i 0

def writtenOut (v : List UInt8) (c : UInt8) : List UInt8 := strcatN (strcatN (v ++ [61]) v) [c,49]

-- One of the two halves of convert_inc_dec: the scan for c stops at the NUL at the
-- latest, and the byte after that place is read.
def convert (behind : UInt8) (part : List UInt8) (c : UInt8) : Option (List UInt8) :=
  let var := part.takeWhile (· ≠ c)
  if byteAt behind part (var.length+1) = c then some (writtenOut var c) else none

def convertIncDec (behind : UInt8) (part : List UInt8) : List UInt8 := ((convert behind part 43).or (convert behind part 45)).getD part

def sign (up : Bool) : UInt8 := if up then 43 else 45

theorem convert_none (none : c ∉ w) (nonzero : c ≠ 0) (behind : UInt8) :
    convert behind w c = if w.length+1 = MAX_LINE_LENGTH ∧ behind = c then some (writtenOut w c) else Option.none := by
  have whole : w.takeWhile (· ≠ c) = w :=
    List.takeWhile_eq_self_iff.mpr fun d member => by simpa using fun same : d = c => none (same ▸ member)
  have zero : w.getD (w.length+1) 0 = 0 := by simp
  simp only [convert,whole,byteAt,zero]
  by_cases last : w.length+1 = MAX_LINE_LENGTH
  · simp [last]
  · simp [last,nonzero.symm]

theorem convert_found (none : c ∉ w) (early : w.length+1 < MAX_LINE_LENGTH) (behind d : UInt8) (rest : List UInt8) :
    convert behind (w ++ c :: d :: rest) c = if d = c then some (writtenOut w c) else Option.none := by
  have before : (w ++ c :: d :: rest).takeWhile (· ≠ c) = w := by
    rw [List.takeWhile_append_of_pos fun e member => by simpa using fun same : e = c => none (same ▸ member)]
    simp
  have after : byteAt behind (w ++ c :: d :: rest) (w.length+1) = d := by
    rw [byteAt,if_neg (by omega)]
    simp
  simp only [convert,before,after]

theorem Identifier.signs (identifier : Identifier v) (up : Bool) : sign up ∉ v := by
  intro member
  rcases identifier.1 _ member with letter | digit
  · cases up <;> cases letter
  · cases up <;> cases digit

-- The name twice and the sign: a piece that does not fit is left out.
theorem writtenOut_fits (v : List UInt8) (c : UInt8) : writtenOut v c = v ++ 61 :: v ++ [c,49] ↔ v.length ≤ 14 := by
  constructor
  · intro whole
    have size := congrArg List.length whole
    simp only [writtenOut,strcatN,MAX_LINE_LENGTH] at size
    grind
  · intro fits
    grind [writtenOut,strcatN,MAX_LINE_LENGTH]

theorem writtenOut_longer (v : List UInt8) (c : UInt8) : v.length < (writtenOut v c).length := by
  have keeps : ∀ dest src : List UInt8, dest.length ≤ (strcatN dest src).length := fun dest src => by
    unfold strcatN
    split <;> simp
  exact Nat.lt_of_lt_of_le (by simp) ((keeps (v ++ [61]) v).trans (keeps _ _))

theorem convertIncDec_other (none : convert behind part (sign !up) = none) : convertIncDec behind part = (convert behind part (sign up)).getD part := by
  cases up with
  | true =>
    have minus : convert behind part 45 = Option.none := none
    rw [convertIncDec,minus,Option.or_none]
    rfl
  | false =>
    have plus : convert behind part 43 = Option.none := none
    rw [convertIncDec,plus,Option.none_or]
    rfl

theorem sign_facts (up : Bool) : sign up ≠ 0 ∧ sign up ≠ 49 ∧ sign up ≠ 61 ∧ sign (!up) ≠ sign up := by cases up <;> decide

theorem increment_written (identifier : Identifier v) (short : v.length < MAX_NAME_LINGTH) (up : Bool) (behind : UInt8) :
    convertIncDec behind (v ++ [sign up,sign up]) = writtenOut v (sign up) := by
  have name : v.length < 24 := short
  obtain ⟨_,_,_,differ⟩ := sign_facts up
  have other : convert behind (v ++ [sign up,sign up]) (sign !up) = none := by
    rw [convert_none (by simp [identifier.signs,differ]) (sign_facts !up).1,if_neg]
    simp [MAX_LINE_LENGTH]
    omega
  rw [convertIncDec_other other,convert_found (identifier.signs up) (by simp [MAX_LINE_LENGTH]; omega),if_pos rfl]
  rfl

-- Written out, the text has 2|v|+3 bytes: the scan for the other sign reads the
-- byte behind the buffer when they fill it.
theorem increment_kept (identifier : Identifier v) (fits : v.length ≤ 14) (up : Bool) (behind : UInt8) :
    convertIncDec behind (v ++ 61 :: v ++ [sign up,49]) = v ++ 61 :: v ++ [sign up,49] ↔ v.length < 14 ∨ behind ≠ sign (!up) := by
  obtain ⟨_,one,equals,differ⟩ := sign_facts up
  have outside : ∀ up, sign up ∉ v ++ 61 :: v := fun up => by simp [identifier.signs,(sign_facts up).2.2.1]
  have size : (v ++ 61 :: v ++ [sign up,49]).length = 2*v.length+3 := by simp; omega
  have own : convert behind (v ++ 61 :: v ++ [sign up,49]) (sign up) = none := by
    rw [convert_found (outside up) (by simp [MAX_LINE_LENGTH]; omega),if_neg one.symm]
  rw [@convertIncDec_other _ _ (!up) (by rw [Bool.not_not]; exact own)]
  have absent : sign (!up) ∉ v ++ 61 :: v ++ [sign up,49] := by
    simp [identifier.signs,(sign_facts !up).2.1,(sign_facts !up).2.2.1,differ]
  rw [convert_none absent (sign_facts !up).1,size]
  by_cases full : 2*v.length+3+1 = MAX_LINE_LENGTH ∧ behind = sign (!up)
  · rw [if_pos full]
    have longer := writtenOut_longer (v ++ 61 :: v ++ [sign up,49]) (sign !up)
    have last : ¬ v.length < 14 := by simp [MAX_LINE_LENGTH] at full; omega
    constructor
    · intro same
      rw [Option.getD_some] at same
      rw [same] at longer
      omega
    · simp [last,full.2]
  · rw [if_neg full]
    simp [MAX_LINE_LENGTH] at full
    grind

theorem increment_exact (v : List UInt8) (identifier : Identifier v) (short : v.length < MAX_NAME_LINGTH) (up : Bool) (behind : UInt8) :
    (convertIncDec behind (v ++ [sign up,sign up]) = v ++ 61 :: v ++ [sign up,49] ∧
      convertIncDec behind (convertIncDec behind (v ++ [sign up,sign up])) = convertIncDec behind (v ++ [sign up,sign up])) ↔
      v.length < 14 ∨ (v.length = 14 ∧ behind ≠ sign (!up)) := by
  rw [increment_written identifier short,writtenOut_fits]
  constructor
  · rintro ⟨fits,again⟩
    rw [(writtenOut_fits v _).mpr fits,increment_kept identifier fits] at again
    grind
  · intro cond
    have fits : v.length ≤ 14 := by omega
    refine ⟨fits,?_⟩
    rw [(writtenOut_fits v _).mpr fits,increment_kept identifier fits]
    tauto

-- i++
theorem increment_i : convertIncDec 0 [105,43,43] = [105,61,105,43,49] ∧ convertIncDec 0 (convertIncDec 0 [105,43,43]) = convertIncDec 0 [105,43,43] :=
  (increment_exact [105] ⟨by simp [nameChar],105,rfl,rfl⟩ (by decide) true 0).mpr (.inl (by decide))

-- The name of fifteen letters loses the +1, the one of sixteen its second half.
theorem increment_long : (∀ n ∈ [15,16], Identifier (List.replicate n 97) ∧ n < MAX_NAME_LINGTH) ∧
    convertIncDec 0 (List.replicate 15 97 ++ [43,43]) = List.replicate 15 97 ++ 61 :: List.replicate 15 97 ∧
    convertIncDec 0 (List.replicate 16 97 ++ [43,43]) = List.replicate 16 97 ++ [61,43,49] := by
  refine ⟨?_,by decide +kernel,by decide +kernel⟩
  simp [Identifier,nameChar,MAX_NAME_LINGTH]

end Xv6.Script
