import Xv6.Lib.Lines
import Xv6.User.Editor
import Mathlib.Data.List.TakeWhile

namespace Xv6.User.Editor
open Lines
open List (append_assoc append_nil count_append length_append nil_append)

-- What main makes of a file, and what com_save writes.

def MAX_LINE_LENGTH : Nat := 256

-- A string that would not fit is not appended at all.
def strcatN (dest src : List UInt8) : List UInt8 :=
  if src = [] then dest else if MAX_LINE_LENGTH ≤ src.length+dest.length then dest else dest ++ src

-- text[0] to text[line] are there.
structure Loading where
  text : Text
  line : Nat

def Loading.start : Loading := ⟨ofLines [[]],0⟩

-- The bytes of buf from next on. true: text is full, and main does not read on.
def loadBuf (rest : List UInt8) (s : Loading) : Loading × Bool :=
  let s := { s with text := Function.update s.text s.line (some (strcatN ((s.text s.line).getD []) (rest.takeWhile (· ≠ 10)))) }
  match _left : rest.dropWhile (· ≠ 10) with
  | [] => (s,false)
  | _ :: next =>
    if MAX_LINE_NUMBER-1 ≤ s.line then (s,true)
    else
      let s := ⟨Function.update s.text (s.line+1) (some []),s.line+1⟩
      if next = [] then (s,false) else loadBuf next s
termination_by rest.length
decreasing_by
  have short := (List.dropWhile_suffix (l := rest) (· ≠ 10)).length_le
  rw [_left,List.length_cons] at short
  omega

-- One read after the other, of up to BUF_SIZE bytes, until one gives none.
def load : List (List UInt8) → Loading → Loading
  | [],s => s
  | buf :: rest,s =>
    if buf = [] then s
    else
      match loadBuf buf s with
      | (s,true) => s
      | (s,false) => load rest s

def openFile (reads : List (List UInt8)) : Option State :=
  let s := load reads .start
  (showText s.text (MAX_LINE_NUMBER+1) 0).map fun _ => ⟨s.text,false,true⟩

def saveFrom (text : Text) : Nat → Nat → Option (List UInt8)
  | 0,_ => none
  | turns+1,i =>
    match look text i with
    | none => none
    | some none => some []
    | some (some line) => (saveFrom text turns (i+1)).map fun later => 10 :: line ++ later

def comSave (s : State) : Option (List UInt8) :=
  match s.text 0 with
  | none => some []
  | some line => (saveFrom s.text (MAX_LINE_NUMBER+1) 1).map fun later => line ++ later

def fileLines (file : List UInt8) : List (List UInt8) := (cut 10 file).1 ++ [(cut 10 file).2]

theorem fileLines_length (file : List UInt8) : (fileLines file).length = file.count 10 + 1 := by
  rw [fileLines,length_append,cut_count,List.length_singleton]

theorem fileLines_clean (clean : 10 ∉ file) : fileLines file = [file] := by
  rw [fileLines,cut_clean clean]
  rfl

theorem fileLines_line (clean : 10 ∉ line) (rest : List UInt8) : fileLines (line ++ 10 :: rest) = line :: fileLines rest := by
  rw [fileLines,cut_line clean]
  rfl

theorem fileLines_append (x y : List UInt8) : fileLines (x ++ y) = (cut 10 x).1 ++ fileLines ((cut 10 x).2 ++ y) := by
  have tail := cut_clean (cut_rest 10 x)
  unfold fileLines
  rw [cut_append 10 x y,cut_append 10 (cut 10 x).2 y,tail]
  simp only [nil_append,append_assoc]

theorem append_last (before : List (List UInt8)) (line part : List UInt8) (short : (line ++ part).length < MAX_LINE_LENGTH) :
    Function.update (ofLines (before ++ [line])) before.length (some (strcatN ((ofLines (before ++ [line]) before.length).getD []) part)) =
      ofLines (before ++ [line ++ part]) := by
  have here : ofLines (before ++ [line]) before.length = some line := by simp [ofLines]
  have whole : strcatN line part = line ++ part := by
    unfold strcatN
    split
    · rename_i none
      rw [none,append_nil]
    · rw [if_neg]
      rw [length_append] at short
      omega
  rw [here,Option.getD_some,whole,set_lines (by simp)]
  simp

def Loading.add (s : Loading) (part : List UInt8) : Loading :=
  { s with text := Function.update s.text s.line (some (strcatN ((s.text s.line).getD []) part)) }

theorem loadBuf_part (plain : 10 ∉ rest) (s : Loading) : loadBuf rest s = (s.add rest,false) := by
  have all : ∀ c ∈ rest, decide (c ≠ 10) = true := fun c member => decide_eq_true fun newline => plain (newline ▸ member)
  rw [loadBuf,List.takeWhile_eq_self_iff.mpr all]
  split
  · rfl
  · rename_i left
    rw [List.dropWhile_eq_nil_iff.mpr all] at left
    cases left

theorem loadBuf_line (plain : 10 ∉ part) (next : List UInt8) (s : Loading) : loadBuf (part ++ 10 :: next) s =
    if MAX_LINE_NUMBER-1 ≤ s.line then (s.add part,true)
    else if next = [] then (⟨Function.update (s.add part).text (s.line+1) (some []),s.line+1⟩,false)
    else loadBuf next ⟨Function.update (s.add part).text (s.line+1) (some []),s.line+1⟩ := by
  have all : ∀ c ∈ part, decide (c ≠ 10) = true := fun c member => decide_eq_true fun newline => plain (newline ▸ member)
  have take : (part ++ 10 :: next).takeWhile (fun c => decide (c ≠ 10)) = part := by
    rw [List.takeWhile_append_of_pos all,List.takeWhile_cons_of_neg (by decide),append_nil]
  have drop : (part ++ 10 :: next).dropWhile (fun c => decide (c ≠ 10)) = 10 :: next := by
    rw [List.dropWhile_append_of_pos all,List.dropWhile_cons_of_neg (by decide)]
  rw [loadBuf,take]
  split
  · rename_i left
    rw [drop] at left
    cases left
  · rename_i left
    rw [drop] at left
    cases left
    rfl

theorem loadBuf_spec (rest : List UInt8) : ∀ (before : List (List UInt8)) (line : List UInt8), 10 ∉ line →
    (∀ l ∈ fileLines (line ++ rest), l.length < MAX_LINE_LENGTH) → before.length+(fileLines (line ++ rest)).length ≤ MAX_LINE_NUMBER →
    loadBuf rest ⟨ofLines (before ++ [line]),before.length⟩ =
      (⟨ofLines (before ++ fileLines (line ++ rest)),before.length+(line ++ rest).count 10⟩,false) := by
  induction len : rest.length using Nat.strongRecOn generalizing rest with
  | ind n ih =>
    intro before line plain short few
    by_cases some : 10 ∈ rest
    · obtain ⟨part,next,rfl,first⟩ := List.eq_append_cons_of_mem some
      have clean : 10 ∉ line ++ part := by simp [plain,first]
      have split : fileLines (line ++ (part ++ 10 :: next)) = (line ++ part) :: fileLines next := by
        rw [← append_assoc,fileLines_line clean]
      have count : (line ++ (part ++ 10 :: next)).count 10 = 1+next.count 10 := by
        rw [← append_assoc,count_append,List.count_eq_zero.mpr clean,List.count_cons_self]
        omega
      rw [split] at short few ⊢
      rw [List.length_cons,fileLines_length] at few
      have added : Loading.add ⟨ofLines (before ++ [line]),before.length⟩ part = ⟨ofLines (before ++ [line ++ part]),before.length⟩ := by
        rw [Loading.add,append_last before line part (short _ List.mem_cons_self)]
      have opened : Function.update (ofLines (before ++ [line ++ part])) (before.length+1) (Option.some []) = ofLines (before ++ [line ++ part] ++ [[]]) := by
        have next := append_lines (before ++ [line ++ part]) []
        rwa [length_append,List.length_singleton] at next
      rw [loadBuf_line first,added,count]
      dsimp only
      rw [if_neg (by omega),opened]
      have lines : before ++ (line ++ part) :: fileLines next = before ++ [line ++ part] ++ fileLines next := by
        rw [append_assoc]
        rfl
      have place : before.length+(1+next.count 10) = (before ++ [line ++ part]).length+next.count 10 := by
        rw [length_append,List.length_singleton]
        omega
      have start : before.length+1 = (before ++ [line ++ part]).length := by rw [length_append,List.length_singleton]
      rw [lines,place,start]
      by_cases stop : next = []
      · subst stop
        rw [if_pos rfl]
        rfl
      rw [if_neg stop]
      refine ih next.length ?_ next rfl (before ++ [line ++ part]) [] List.not_mem_nil ?_ ?_
      · rw [← len,length_append,List.length_cons]
        omega
      · exact fun l member => short l (.tail _ member)
      · rw [nil_append,fileLines_length]
        omega
    · have clean : 10 ∉ line ++ rest := by simp [plain,some]
      rw [fileLines_clean clean] at short ⊢
      rw [loadBuf_part some,Loading.add,append_last before line rest (short _ List.mem_cons_self),List.count_eq_zero.mpr clean]
      rfl

structure Fits (file : List UInt8) : Prop where
  short : ∀ line ∈ fileLines file, line.length < MAX_LINE_LENGTH
  few : (fileLines file).length ≤ MAX_LINE_NUMBER

theorem Fits.start (fits : Fits (x ++ y)) : Fits x := by
  have whole := fits.short
  rw [fileLines_append] at whole
  refine ⟨fun line member => ?_,?_⟩
  · rw [fileLines,List.mem_append,List.mem_singleton] at member
    rcases member with early | rfl
    · exact whole line (List.mem_append_left _ early)
    -- the line that is still open only grows
    obtain ⟨longer,there,more⟩ : ∃ longer ∈ fileLines ((cut 10 x).2 ++ y), (cut 10 x).2.length ≤ longer.length := by
      by_cases newline : 10 ∈ y
      · obtain ⟨part,next,rfl,first⟩ := List.eq_append_cons_of_mem newline
        have clean : 10 ∉ (cut 10 x).2 ++ part := by simp [cut_rest,first]
        rw [← append_assoc,fileLines_line clean]
        exact ⟨_,.head _,by simp⟩
      · have clean : 10 ∉ (cut 10 x).2 ++ y := by simp [cut_rest,newline]
        rw [fileLines_clean clean]
        exact ⟨_,.head _,by simp⟩
    exact Nat.lt_of_le_of_lt more (whole longer (List.mem_append_right _ there))
  · have few := fits.few
    rw [fileLines_length,count_append] at few
    rw [fileLines_length]
    omega

theorem load_spec (reads : List (List UInt8)) : ∀ done : List UInt8, (∀ buf ∈ reads, buf ≠ []) → Fits (done ++ reads.flatten) →
    (load reads ⟨ofLines (fileLines done),done.count 10⟩).text = ofLines (fileLines (done ++ reads.flatten)) := by
  induction reads with
  | nil =>
    intro done _ _
    rw [load,List.flatten_nil,append_nil]
  | cons buf reads ih =>
    intro done some fits
    rw [List.flatten_cons,← append_assoc] at fits ⊢
    have now := fits.start
    have short := now.short
    have few := now.few
    have step : loadBuf buf ⟨ofLines (fileLines done),done.count 10⟩ = (⟨ofLines (fileLines (done ++ buf)),(done ++ buf).count 10⟩,false) := by
      rw [fileLines_append] at short few ⊢
      rw [length_append] at few
      have spec := loadBuf_spec buf (cut 10 done).1 (cut 10 done).2 (cut_rest 10 done)
        (fun line member => short line (List.mem_append_right _ member)) few
      rw [cut_count] at spec
      rw [fileLines,spec,count_append,count_append,List.count_eq_zero.mpr (cut_rest 10 done),Nat.zero_add]
    rw [load,if_neg (some buf List.mem_cons_self),step]
    exact ih (done ++ buf) (fun later member => some later (.tail _ member)) fits

theorem saveFrom_lines (turns : Nat) : ∀ {i}, i ≤ lines.length → lines.length < i+turns → lines.length ≤ MAX_LINE_NUMBER →
    saveFrom (ofLines lines) turns i = if lines.length < MAX_LINE_NUMBER then some ((lines.drop i).flatMap (10 :: ·)) else none := by
  induction turns with
  | zero => intro i low high _; omega
  | succ turns ih =>
    intro i low high few
    rw [saveFrom,look]
    by_cases last : i = lines.length
    · subst last
      by_cases room : lines.length < MAX_LINE_NUMBER
      · rw [if_pos room,if_pos room]
        simp [ofLines]
      · rw [if_neg room,if_neg room]
    have inside : i < lines.length := by omega
    rw [if_pos (by omega)]
    simp only [ofLines,List.getElem?_eq_getElem inside]
    rw [ih (by omega) (by omega) few,List.drop_eq_getElem_cons inside,List.flatMap_cons]
    split
    · rfl
    · rfl

theorem lines_written (ls : List (List UInt8)) (r : List UInt8) :
    ∀ line later, ls ++ [r] = line :: later → line ++ later.flatMap (10 :: ·) = joined 10 ls ++ r := by
  induction ls with
  | nil =>
    intro line later eq
    cases eq
    simp [joined]
  | cons first ls ih =>
    intro line later eq
    rw [List.cons_append,List.cons.injEq] at eq
    obtain ⟨rfl,rfl⟩ := eq
    cases rest : ls ++ [r] with
    | nil => simp at rest
    | cons next more =>
      rw [List.flatMap_cons,List.cons_append,ih next more rest,joined_cons,append_assoc]
      rfl

theorem saved_as_loaded (reads : List (List UInt8)) (some : ∀ buf ∈ reads, buf ≠ []) (fits : Fits reads.flatten) :
    (openFile reads).bind comSave = Option.some reads.flatten ↔ (fileLines reads.flatten).length < MAX_LINE_NUMBER := by
  have text : (load reads .start).text = ofLines (fileLines reads.flatten) := load_spec reads [] some fits
  have few := fits.few
  rw [openFile,text,showText_lines (MAX_LINE_NUMBER+1) (Nat.zero_le _) (by omega) few]
  by_cases room : (fileLines reads.flatten).length < MAX_LINE_NUMBER
  · rw [if_pos room,Option.map_some,Option.bind_some,comSave]
    cases lines : fileLines reads.flatten with
    | nil => simp [fileLines] at lines
    | cons line later =>
      rw [lines] at room few
      have bytes := lines_written _ _ line later lines
      rw [joined_cut] at bytes
      have first : ofLines (line :: later) 0 = Option.some line := rfl
      simp only [first]
      rw [saveFrom_lines (MAX_LINE_NUMBER+1) (by simp) (by omega) few,if_pos room,Option.map_some,List.drop_succ_cons,List.drop_zero,bytes]
      exact iff_of_true rfl room
  · rw [if_neg room]
    exact iff_of_false (by simp) room

theorem saved_two_lines : (openFile [[97],[10]]).bind comSave = some [97,10] := by
  refine (saved_as_loaded [[97],[10]] (by decide) ⟨?_,?_⟩).mpr ?_
  · decide
  · decide
  · decide

-- 255 newlines are 256 lines: com_save looks for a NULL behind the array.
theorem full_text_not_saved : Fits (List.replicate 255 10) ∧ (openFile [List.replicate 255 10]).bind comSave = none := by
  have lines : fileLines (List.replicate 255 10) = List.replicate 256 [] := by decide +kernel
  have fits : Fits (List.replicate 255 10) := by
    refine ⟨fun line member => ?_,?_⟩
    · rw [lines] at member
      rw [List.eq_of_mem_replicate member]
      decide
    · rw [lines,List.length_replicate]
      exact Nat.le_refl 256
  have whole : [List.replicate 255 (10 : UInt8)].flatten = List.replicate 255 10 := by rw [List.flatten_cons,List.flatten_nil,append_nil]
  have filled : ∀ buf ∈ [List.replicate 255 (10 : UInt8)], buf ≠ [] := fun buf member => by
    rw [List.mem_singleton.mp member]
    exact List.cons_ne_nil 10 (List.replicate 254 10)
  have text := load_spec [List.replicate 255 10] [] filled (by rw [nil_append,whole]; exact fits)
  rw [nil_append,whole,lines] at text
  have loaded : (load [List.replicate 255 10] .start).text = ofLines (List.replicate 256 []) := text
  have size : (List.replicate 256 ([] : List UInt8)).length = MAX_LINE_NUMBER := List.length_replicate
  have stuck : showText (ofLines (List.replicate 256 [])) (MAX_LINE_NUMBER+1) 0 = none :=
    (showText_lines _ (Nat.zero_le _) (by omega) (Nat.le_of_eq size)).trans (if_neg (by omega))
  refine ⟨fits,?_⟩
  rw [openFile,loaded,stuck]
  rfl

end Xv6.User.Editor
