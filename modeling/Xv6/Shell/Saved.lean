import Xv6.Shell.History

namespace Xv6.Shell
open Lines
open List (append_assoc append_nil cons_append length_append length_cons mem_append nil_append take_left)

-- What getHistory makes of a file, told by the strings that it copies into history one after the
-- other.

def writes (h : Nat → UInt8) (nums : Nat) : List (List UInt8) → Nat → UInt8
  | [] => h
  | w :: ws => writes (strcpy (memset h (entry nums) hItems) (entry nums) w) (nums+1) ws

def Reader.copies (s : Reader) (ws : List (List UInt8)) : Reader := ws.foldl Reader.copy s

theorem Reader.copyFirst_eq (s : Reader) (line : List UInt8) : s.copyFirst line = s.copy (s.pre ++ line) := by
  unfold Reader.copyFirst Reader.copy
  rw [strcat_eq]

theorem Reader.copies_eq (s : Reader) (ws : List (List UInt8)) :
    s.copies ws = { s with nums := s.nums + ws.length, history := writes s.history s.nums ws } := by
  induction ws generalizing s with
  | nil => rfl
  | cons w ws ih =>
    show (s.copy w).copies ws = _
    rw [ih,length_cons,Nat.add_comm ws.length,← Nat.add_assoc]
    rfl

theorem writes_append (h : Nat → UInt8) (nums : Nat) (ws vs : List (List UInt8)) :
    writes h nums (ws ++ vs) = writes (writes h nums ws) (nums+ws.length) vs := by
  induction ws generalizing h nums with
  | nil => rfl
  | cons w ws ih =>
    rw [cons_append,writes,writes,ih,length_cons,Nat.add_comm ws.length,Nat.add_assoc]

theorem writes_keep (h : Nat → UInt8) (nums i : Nat) (ws : List (List UInt8)) (fit : ∀ w ∈ ws, w.length < hLen)
    (later : i < nums) (soon : nums + ws.length ≤ i + hItems) (within : t < hLen) : writes h nums ws (entry i + t) = h (entry i + t) := by
  induction ws generalizing h nums with
  | nil => rfl
  | cons w ws ih =>
    rw [length_cons] at soon
    have short := fit w (.head _)
    have apart : entry i + t < entry nums ∨ entry nums + hLen ≤ entry i + t := by
      unfold entry hLen hItems at *
      omega
    rw [writes,ih _ _ (fun v member => fit v (List.mem_cons_of_mem _ member)) (by omega) (by omega),strcpy_other _ _ (by omega),memset,if_neg]
    unfold hLen hItems at *
    omega

theorem writes_entry (h : Nat → UInt8) (nums i : Nat) (ws : List (List UInt8)) (inside : i < ws.length) (soon : ws.length ≤ i + hItems)
    (fit : ∀ j, i < j → j < ws.length → (ws.getD j []).length < hLen) (within : t < hLen) (short : t ≤ (ws.getD i []).length) :
    writes h nums ws (entry (nums+i) + t) = (ws.getD i []).getD t 0 := by
  induction ws generalizing h nums i with
  | nil => exact absurd inside (Nat.not_lt_zero _)
  | cons w ws ih =>
    rw [length_cons] at inside soon
    cases i with
    | zero =>
      have later : ∀ v ∈ ws, v.length < hLen := by
        intro v member
        obtain ⟨j,small,rfl⟩ := List.getElem_of_mem member
        have bound := fit (j+1) (by omega) (by rw [length_cons]; omega)
        rw [List.getD_cons_succ,List.getD_eq_getElem?_getD,List.getElem?_eq_getElem small,Option.getD_some] at bound
        exact bound
      rw [List.getD_cons_zero] at short ⊢
      rw [Nat.add_zero,writes,writes_keep _ (nums+1) nums ws later (by omega) (by omega) within]
      by_cases last : t = w.length
      · rw [last,strcpy_nul,List.getD_eq_getElem?_getD,List.getElem?_eq_none (Nat.le_refl _),Option.getD_none]
      · exact strcpy_char _ _ _ (by omega)
    | succ i =>
      rw [List.getD_cons_succ] at short ⊢
      rw [writes,show nums+(i+1) = nums+1+i by omega]
      refine ih _ (nums+1) i (by omega) (by omega) (fun j less small => ?_) short
      have bound := fit (j+1) (by omega) (by rw [length_cons]; omega)
      rw [List.getD_cons_succ] at bound
      exact bound

theorem copyLines_eq (text a z : List UInt8) (s : Reader) (loc : Nat) (low : loc+1 ≤ a.length) :
    s.copyLines (a ++ text ++ z) loc (newlines a.length text) = s.copies (glue (a.drop (loc+1)) (cut 10 text).1) := by
  induction text generalizing a s loc with
  | nil => rfl
  | cons c text ih =>
    have shift : a ++ c :: text ++ z = (a ++ [c]) ++ text ++ z := by simp only [append_assoc,cons_append,nil_append]
    have longer : a.length+1 = (a ++ [c]).length := by rw [length_append,List.length_singleton]
    rw [newlines,cut]
    split
    · rename_i newline
      have line : substring (a ++ c :: text ++ z) (loc+1) a.length = a.drop (loc+1) := by
        rw [substring,append_assoc,List.drop_append_of_le_length low,← List.length_drop,take_left]
      rw [Reader.copyLines,line,shift,longer,ih _ _ _ (by omega)]
      have none : (a ++ [c]).drop (a.length+1) = [] := List.drop_eq_nil_iff.mpr (by omega)
      rw [none,glue_nil,glue,append_nil]
      rfl
    · rw [shift,longer,ih _ _ _ (by omega),List.drop_append_of_le_length low,glue_glue]

theorem newlines_cons (p : Nat) (found : newlines p text = loc :: locs) : ∃ a more, text = a ++ 10 :: more ∧ 10 ∉ a ∧ loc = p + a.length ∧
    locs = newlines (loc+1) more := by
  induction text generalizing p with
  | nil => cases found
  | cons c text ih =>
    rw [newlines] at found
    split at found
    · rename_i newline
      cases found
      exact ⟨[],text,by rw [newline]; rfl,List.not_mem_nil,rfl,rfl⟩
    rename_i other
    obtain ⟨a,more,rfl,clean,rfl,rfl⟩ := ih (p+1) found
    refine ⟨c :: a,more,rfl,?_,by rw [length_cons]; omega,rfl⟩
    rw [List.mem_cons,not_or]
    exact ⟨Ne.symm other,clean⟩

theorem newlines_nil (p : Nat) (none : newlines p text = []) : 10 ∉ text := by
  induction text generalizing p with
  | nil => exact List.not_mem_nil
  | cons c text ih =>
    rw [newlines] at none
    split at none
    · cases none
    · rename_i other
      rw [List.mem_cons,not_or]
      exact ⟨Ne.symm other,ih (p+1) none⟩

theorem newlines_append (p : Nat) (x y : List UInt8) : newlines p (x ++ y) = newlines p x ++ newlines (p+x.length) y := by
  induction x generalizing p with
  | nil => rfl
  | cons c x ih =>
    rw [cons_append,newlines,newlines,ih,length_cons,show p+1+x.length = p+(x.length+1) by omega]
    split <;> rfl

theorem newlines_clean (p : Nat) (clean : 10 ∉ text) : newlines p text = [] := by
  cases found : newlines p text with
  | nil => rfl
  | cons loc locs =>
    obtain ⟨a,more,rfl,-⟩ := newlines_cons p found
    exact absurd (List.mem_append.mpr (.inr (.head _))) clean

theorem newlines_last (text : List UInt8) (some : newlines 0 text ≠ []) : (newlines 0 text).getLastD 0 + 1 = (joined 10 (cut 10 text).1).length := by
  have whole := joined_cut 10 text
  have rest := cut_rest 10 text
  generalize (cut 10 text).2 = r at whole rest
  rcases List.eq_nil_or_concat (cut 10 text).1 with none | ⟨ls,l,lines⟩
  · rw [none] at whole
    rw [← whole,joined,List.flatMap_nil,nil_append] at some
    exact absurd (newlines_clean 0 rest) some
  rw [lines] at whole ⊢
  rw [List.concat_eq_append,joined_append,joined_cons] at whole ⊢
  rw [← whole,newlines_append,newlines_clean _ rest,append_nil,newlines_append,newlines_append,newlines,if_pos rfl]
  have none : joined (10 : UInt8) [] = [] := rfl
  rw [none,newlines,← append_assoc,List.getLastD_concat,length_append,length_append,List.length_singleton]
  omega

def Reader.stale (behind : List UInt8) (s : Reader) (len : Nat) : List UInt8 := (s.buf.drop len ++ behind).takeWhile (· ≠ 0)

theorem takeWhile_solid {chunk : List UInt8} (solid : 0 ∉ chunk) (l : List UInt8) :
    (chunk ++ l).takeWhile (· ≠ 0) = chunk ++ l.takeWhile (· ≠ 0) :=
  List.takeWhile_append_of_pos fun _ member => decide_eq_true fun zero => solid (zero ▸ member)

variable {behind chunk : List UInt8} {s : Reader}

-- The strings copied are the lines of the text, the first one behind pre.
def Reader.copied (behind : List UInt8) (s : Reader) (chunk : List UInt8) : Reader :=
  { s with buf := chunk ++ s.buf.drop chunk.length }.copies (glue s.pre (cut 10 (chunk ++ s.stale behind chunk.length)).1)

theorem turn_copied (solid : 0 ∉ chunk) (line : 10 ∈ chunk) : s.turn behind chunk =
    if chunk.length = bufSize ∧ (joined 10 (cut 10 (chunk ++ s.stale behind chunk.length)).1).length < chunk.length then
      some { s.copied behind chunk with
        pre := (substring (chunk ++ s.buf.drop chunk.length ++ behind) (joined 10 (cut 10 (chunk ++ s.stale behind chunk.length)).1).length
          chunk.length).takeWhile (· ≠ 0),
        buf := List.replicate bufSize 0 }
    else some (s.copied behind chunk) := by
  have text : (chunk ++ s.buf.drop chunk.length ++ behind).takeWhile (· ≠ 0) = chunk ++ s.stale behind chunk.length := by
    rw [append_assoc,takeWhile_solid solid]
    rfl
  have suffix : ∃ z, chunk ++ s.buf.drop chunk.length ++ behind = chunk ++ s.stale behind chunk.length ++ z := by
    rw [← text]
    exact ⟨_,(List.takeWhile_append_dropWhile).symm⟩
  obtain ⟨z,memory⟩ := suffix
  unfold Reader.turn
  simp only [text]
  have last := newlines_last (chunk ++ s.stale behind chunk.length)
  cases found : newlines 0 (chunk ++ s.stale behind chunk.length) with
  | nil => exact absurd (List.mem_append.mpr (.inl line)) (newlines_nil 0 found)
  | cons loc locs =>
    rw [found] at last
    have last := last (List.cons_ne_nil _ _)
    obtain ⟨a,more,split,clean,place,rest⟩ := newlines_cons 0 found
    rw [Nat.zero_add] at place
    have first : substring (chunk ++ s.buf.drop chunk.length ++ behind) 0 loc = a := by
      rw [memory,split,substring,List.drop_zero,Nat.sub_zero,place,append_assoc,take_left]
    have lines : ∀ t : Reader, t.copyLines (chunk ++ s.buf.drop chunk.length ++ behind) loc locs = t.copies (cut 10 more).1 := by
      intro t
      have shape : a ++ 10 :: more ++ z = (a ++ [10]) ++ more ++ z := by simp only [append_assoc,cons_append,nil_append]
      have long : loc+1 = (a ++ [10]).length := by rw [place,length_append,List.length_singleton]
      have none : (a ++ [10]).drop (loc+1) = [] := List.drop_eq_nil_iff.mpr (by omega)
      rw [memory,split,shape,rest,long,copyLines_eq more _ z t loc (by omega),none,glue_nil]
    have copied : ({ s with buf := chunk ++ s.buf.drop chunk.length }.copyFirst (substring (chunk ++ s.buf.drop chunk.length ++ behind) 0 loc)).copyLines
        (chunk ++ s.buf.drop chunk.length ++ behind) loc locs = s.copied behind chunk := by
      rw [first,lines,Reader.copyFirst_eq,Reader.copied,split,cut_line clean,glue]
      rfl
    simp only [copied,last]
    have place : (loc :: locs).getLastD 0 < chunk.length - 1 ↔ (joined 10 (cut 10 (chunk ++ s.stale behind chunk.length)).1).length < chunk.length := by
      omega
    simp only [place]

theorem cut_stale (clean : 10 ∉ z) (x : List UInt8) : (cut 10 (x ++ z)).1 = (cut 10 x).1 := by
  rw [cut_append,cut_clean clean]
  exact append_nil _

theorem turn_nums (solid : 0 ∉ chunk) (line : 10 ∈ chunk) : ∃ s', s.turn behind chunk = some s' ∧
    s'.nums = s.nums + chunk.count 10 + (s.stale behind chunk.length).count 10 := by
  have count : (s.copied behind chunk).nums = s.nums + chunk.count 10 + (s.stale behind chunk.length).count 10 := by
    rw [Reader.copied,Reader.copies_eq]
    rw [glue_length,cut_count,List.count_append,Nat.add_assoc]
  rw [turn_copied solid line]
  split
  · exact ⟨_,rfl,count⟩
  · exact ⟨_,rfl,count⟩

theorem substring_behind (a b z : List UInt8) : substring (a ++ b ++ z) a.length (a ++ b).length = b := by
  rw [substring,append_assoc,List.drop_left,length_append,Nat.add_sub_cancel_left,take_left]

structure Turned (s : Reader) (chunk : List UInt8) (s' : Reader) : Prop where
  nums : s'.nums = s.nums + (cut 10 chunk).1.length
  history : s'.history = writes s.history s.nums (glue s.pre (cut 10 chunk).1)
  ended : chunk.length = bufSize → (cut 10 chunk).2 = [] → s'.pre = s.pre ∧ s'.buf = chunk
  broken : chunk.length = bufSize → (cut 10 chunk).2 ≠ [] → s'.pre = (cut 10 chunk).2 ∧ s'.buf = List.replicate bufSize 0

theorem turn_clean (solid : 0 ∉ chunk) (line : 10 ∈ chunk) (size : s.buf.length = bufSize) (clean : 10 ∉ s.stale behind chunk.length) :
    ∃ s', s.turn behind chunk = some s' ∧ Turned s chunk s' := by
  have whole := joined_cut 10 chunk
  have lengths := congrArg List.length whole
  rw [length_append] at lengths
  have copied : s.copied behind chunk = ⟨chunk ++ s.buf.drop chunk.length,s.pre,s.nums + (cut 10 chunk).1.length,
      writes s.history s.nums (glue s.pre (cut 10 chunk).1)⟩ := by
    rw [Reader.copied,Reader.copies_eq,cut_stale clean,glue_length]
  have rest : (substring (chunk ++ s.buf.drop chunk.length ++ behind) (joined 10 (cut 10 chunk).1).length chunk.length).takeWhile (· ≠ 0) =
      (cut 10 chunk).2 := by
    have part := substring_behind (joined 10 (cut 10 chunk).1) (cut 10 chunk).2 (s.buf.drop chunk.length ++ behind)
    rw [whole,← append_assoc] at part
    have solidRest : 0 ∉ (cut 10 chunk).2 := by
      intro zero
      rw [← whole] at solid
      exact solid (List.mem_append.mpr (.inr zero))
    rw [part]
    simpa only [append_nil,List.takeWhile_nil] using takeWhile_solid solidRest []
  rw [turn_copied solid line,cut_stale clean,copied,rest]
  split
  · rename_i open_
    refine ⟨_,rfl,rfl,rfl,fun _ ended => ?_,fun _ _ => ⟨rfl,rfl⟩⟩
    rw [ended,List.length_nil] at lengths
    omega
  rename_i closed
  refine ⟨_,rfl,rfl,rfl,fun full _ => ⟨rfl,?_⟩,fun full broken => absurd ?_ closed⟩
  · rw [List.drop_eq_nil_iff.mpr (by omega),append_nil]
  · have positive := List.length_pos_of_ne_nil broken
    exact ⟨full,by omega⟩

end Xv6.Shell
