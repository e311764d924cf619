import Xv6.Shell.Saved

namespace Xv6.Shell
open Lines
open List (append_nil drop_eq_nil_iff drop_zero getD_eq_getElem?_getD length_append length_cons length_drop length_map length_nil length_take mem_append mem_map nil_append not_mem_nil)

-- A saved history that is read back in pieces of 256 bytes.

structure Command where
  text : List UInt8
  solid : 0 ∉ text
  oneLine : 10 ∉ text
  short : text.length ≤ 98

def texts (cmds : List Command) : List (List UInt8) := cmds.map Command.text

def historyFile (cmds : List Command) : List UInt8 := cmds.foldl (fun file cmd => recordHistory file (cmd.text ++ [10])) []

theorem historyFile_eq (cmds : List Command) : historyFile cmds = joined 10 (texts cmds) := by
  have from_ : ∀ file, cmds.foldl (fun file cmd => recordHistory file (cmd.text ++ [10])) file = file ++ joined 10 (texts cmds) := by
    induction cmds with
    | nil => exact fun file => (append_nil file).symm
    | cons cmd cmds ih =>
      intro file
      rw [List.foldl_cons,ih,recordHistory]
      simp only [texts,List.map_cons,joined_cons,List.append_assoc,List.cons_append,nil_append]
  exact from_ []

section
variable (cmds : List Command)

def done (n : Nat) : List (List UInt8) := (cut 10 ((historyFile cmds).take n)).1

def part (n : Nat) : List UInt8 := (cut 10 ((historyFile cmds).take n)).2

def begins (i : Nat) : Nat := start 10 (texts cmds) i

end

variable {cmds : List Command} {n : Nat}

theorem text_of (inside : i < (texts cmds).length) : ∃ cmd ∈ cmds, (texts cmds).get ⟨i,inside⟩ = cmd.text := by
  have member := List.get_mem (texts cmds) ⟨i,inside⟩
  obtain ⟨cmd,among,same⟩ := List.mem_map.mp member
  exact ⟨cmd,among,same.symm⟩

theorem texts_clean : ∀ l ∈ texts cmds, 10 ∉ l := by
  intro l member
  obtain ⟨cmd,-,rfl⟩ := List.mem_map.mp member
  exact cmd.oneLine

theorem cut_file (cmds : List Command) : cut 10 (historyFile cmds) = (texts cmds,[]) := by
  have whole : cut 10 (joined 10 (texts cmds) ++ []) = (texts cmds,[]) := cut_joined texts_clean not_mem_nil
  rw [append_nil] at whole
  rw [historyFile_eq,whole]

structure Boundary (cmds : List Command) (n : Nat) : Prop where
  lines : done cmds n = (texts cmds).take (done cmds n).length
  place : begins cmds (done cmds n).length + (part cmds n).length = n
  rest : ((done cmds n).length = cmds.length ∧ part cmds n = []) ∨
    ∃ (inside : (done cmds n).length < (texts cmds).length) (more : List UInt8), (texts cmds).get ⟨_,inside⟩ = part cmds n ++ more

theorem get_middle {ls ms : List (List UInt8)} (same : ls = ms ++ l :: more) (inside : ms.length < ls.length) : ls.get ⟨ms.length,inside⟩ = l := by
  subst same
  simp only [List.get_eq_getElem,List.getElem_append_right (Nat.le_refl _),Nat.sub_self,List.getElem_cons_zero]

theorem boundary (inside : n ≤ (historyFile cmds).length) : Boundary cmds n := by
  have whole := cut_append 10 ((historyFile cmds).take n) ((historyFile cmds).drop n)
  rw [List.take_append_drop,cut_file,Prod.mk.injEq] at whole
  obtain ⟨lines,rest⟩ := whole
  have taken : done cmds n = (texts cmds).take (done cmds n).length := by
    rw [lines]
    exact List.take_left.symm
  refine ⟨taken,?_,?_⟩
  · have bytes := congrArg List.length (joined_cut 10 ((historyFile cmds).take n))
    rw [length_append,length_take,Nat.min_eq_left inside] at bytes
    rw [begins,start,← taken]
    exact bytes
  · cases later : (cut 10 ((historyFile cmds).drop n)).1 with
    | nil =>
      left
      rw [later] at lines rest
      refine ⟨?_,(List.append_eq_nil_iff.mp rest.symm).1⟩
      have count := congrArg List.length lines
      rw [glue,append_nil,texts,length_map] at count
      exact count.symm
    | cons first more =>
      right
      rw [later,glue] at lines
      have count := congrArg List.length lines
      rw [length_append,length_cons] at count
      have small : (done cmds n).length < (texts cmds).length := by
        unfold done
        omega
      exact ⟨small,first,get_middle lines small⟩

theorem begins_lt (less : i < j) (inside : j ≤ cmds.length) : begins cmds i < begins cmds j := by
  refine start_lt 10 less ?_
  rw [texts,length_map]
  exact inside

section
variable (at_ : Boundary cmds n)
include at_

theorem Boundary.next (more : (done cmds n).length < cmds.length) : n < begins cmds ((done cmds n).length+1) := by
  rcases at_.rest with ⟨all,-⟩ | ⟨inside,rest,line⟩
  · omega
  have place := at_.place
  have step := start_succ 10 inside
  rw [line,length_append] at step
  unfold begins at *
  omega

theorem Boundary.short : (part cmds n).length ≤ 98 ∧ 0 ∉ part cmds n := by
  rcases at_.rest with ⟨-,none⟩ | ⟨inside,more,line⟩
  · rw [none]
    exact ⟨Nat.zero_le _,not_mem_nil⟩
  obtain ⟨cmd,-,text⟩ := text_of inside
  rw [line] at text
  have long := cmd.short
  have solid := cmd.solid
  rw [← text] at long solid
  rw [length_append] at long
  exact ⟨by omega,fun zero => solid (List.mem_append.mpr (.inl zero))⟩

theorem done_le : (done cmds n).length ≤ cmds.length := by
  rcases at_.rest with ⟨all,-⟩ | ⟨inside,-⟩
  · exact Nat.le_of_eq all
  · rw [texts,length_map] at inside
    exact Nat.le_of_lt inside

theorem broken_iff : part cmds n ≠ [] ↔ ∀ i ≤ cmds.length, begins cmds i ≠ n := by
  have place := at_.place
  constructor
  · intro broken i low same
    have positive := List.length_pos_of_ne_nil broken
    rcases at_.rest with ⟨-,none⟩ | ⟨inside,-⟩
    · exact broken none
    rw [texts,length_map] at inside
    have next := at_.next inside
    rcases Nat.lt_trichotomy i ((done cmds n).length+1) with less | equal | more
    · rcases Nat.lt_or_eq_of_le (Nat.lt_succ_iff.mp less) with before | here
      · have order := begins_lt before (Nat.le_of_lt inside)
        omega
      · rw [here] at same
        omega
    · rw [equal] at same
      omega
    · have order := begins_lt more low
      omega
  · intro none whole
    rw [whole,length_nil,Nat.add_zero] at place
    exact none _ (done_le at_) place

end

def piece (cmds : List Command) (n len : Nat) : List UInt8 := ((historyFile cmds).drop n).take len

theorem cut_grow (cmds : List Command) (n len : Nat) : done cmds (n+len) = done cmds n ++ glue (part cmds n) (cut 10 (piece cmds n len)).1 ∧
    part cmds (n+len) = carry (part cmds n) (cut 10 (piece cmds n len)).1 (cut 10 (piece cmds n len)).2 := by
  have both := cut_append 10 ((historyFile cmds).take n) (piece cmds n len)
  rw [piece,← List.take_add,Prod.ext_iff] at both
  exact both

-- Command i begins at a multiple of 256, behind another one that breaks a line.
def Tainted (cmds : List Command) (i : Nat) : Prop :=
  ∃ a b, 0 < a ∧ a < b ∧ begins cmds i = bufSize * b ∧ ∀ l ≤ cmds.length, begins cmds l ≠ bufSize * a

-- The strings that were copied for the lines complete in the first n bytes: a tainted command
-- has the rest of an earlier line before it.
def Copied (cmds : List Command) (n : Nat) (ws : List (List UInt8)) : Prop :=
  ws.length = (done cmds n).length ∧
  ∀ i < ws.length, ∃ p, ws.getD i [] = p ++ (texts cmds).getD i [] ∧ 0 ∉ p ∧ (p ≠ [] ↔ Tainted cmds i)

theorem getD_of_take {ls ms : List (List UInt8)} (taken : ls = ms.take ls.length) (inside : i < ls.length) : ms.getD i [] = ls.getD i [] := by
  rw [taken,getD_eq_getElem?_getD,getD_eq_getElem?_getD,List.getElem?_take,if_pos inside]

theorem not_tainted (between : ∀ b, begins cmds i ≠ bufSize * b) : ¬ Tainted cmds i := fun ⟨_,b,_,_,place,_⟩ => between b place

theorem Copied.grow {n len : Nat} {pre : List UInt8} (copied : Copied cmds n ws) (multiple : n = bufSize * j) (small : len ≤ bufSize)
    (inside : n+len ≤ (historyFile cmds).length) (lines : (cut 10 (piece cmds n len)).1 = a :: more) (solid : 0 ∉ pre)
    (broken : part cmds n ≠ [] → pre = part cmds n) (stale : part cmds n = [] → (pre ≠ [] ↔ Tainted cmds (done cmds n).length)) :
    Copied cmds (n+len) (ws ++ glue pre (cut 10 (piece cmds n len)).1) := by
  obtain ⟨count,old⟩ := copied
  have here : Boundary cmds n := boundary (by omega)
  have there : Boundary cmds (n+len) := boundary inside
  have grown := (cut_grow cmds n len).1
  rw [lines,glue] at grown ⊢
  have total : (done cmds (n+len)).length = ws.length + (more.length+1) := by rw [grown,length_append,length_cons,count]
  have text : ∀ i < ws.length + (more.length+1), (texts cmds).getD i [] = (done cmds n ++ (part cmds n ++ a) :: more).getD i [] := by
    intro i less
    rw [← grown]
    exact getD_of_take there.lines (by omega)
  refine ⟨by rw [total,length_append,length_cons],?_⟩
  intro i less
  rw [length_append,length_cons] at less
  rcases Nat.lt_trichotomy i ws.length with before | first | after
  · obtain ⟨p,same,clean,tainted⟩ := old i before
    refine ⟨p,?_,clean,tainted⟩
    rw [← same,getD_eq_getElem?_getD,List.getElem?_append_left before,← getD_eq_getElem?_getD]
  · have copy : (ws ++ (pre ++ a) :: more).getD i [] = pre ++ a := by
      rw [first,getD_eq_getElem?_getD,List.getElem?_append_right (Nat.le_refl _),Nat.sub_self]
      rfl
    have line : (texts cmds).getD i [] = part cmds n ++ a := by
      rw [text i less,first,getD_eq_getElem?_getD,List.getElem?_append_right (by omega),count,Nat.sub_self]
      rfl
    rw [copy,line]
    by_cases whole : part cmds n = []
    · rw [whole,nil_append,first,count]
      exact ⟨pre,rfl,solid,stale whole⟩
    rw [broken whole]
    refine ⟨[],rfl,not_mem_nil,iff_of_false (fun other => other rfl) (not_tainted fun b place => ?_)⟩
    have positive := List.length_pos_of_ne_nil whole
    have short := here.short.1
    have at_ := here.place
    rw [first,count] at place
    unfold bufSize at *
    omega
  · have copy : (ws ++ (pre ++ a) :: more).getD i [] = (done cmds n ++ (part cmds n ++ a) :: more).getD i [] := by
      obtain ⟨l,rfl⟩ := Nat.exists_eq_add_of_lt after
      simp only [getD_eq_getElem?_getD]
      rw [List.getElem?_append_right (by omega),List.getElem?_append_right (by omega),count,
        show (done cmds n).length + l + 1 - (done cmds n).length = l+1 by omega]
      rfl
    rw [copy,text i less]
    refine ⟨[],rfl,not_mem_nil,iff_of_false (fun other => other rfl) (not_tainted fun b place => ?_)⟩
    have most := done_le there
    have low := here.next (by omega)
    have high := begins_lt (show i < (done cmds (n+len)).length by omega) most
    have end_ := there.place
    have order : begins cmds ((done cmds n).length+1) ≤ begins cmds i := by
      rcases Nat.lt_or_eq_of_le (show (done cmds n).length+1 ≤ i by omega) with less | same
      · exact Nat.le_of_lt (begins_lt less (by omega))
      · exact Nat.le_of_eq (congrArg _ same)
    unfold bufSize at *
    omega

theorem file_solid (cmds : List Command) : 0 ∉ historyFile cmds := by
  rw [historyFile_eq]
  intro zero
  obtain ⟨l,member,inside⟩ := List.mem_flatMap.mp zero
  obtain ⟨cmd,-,rfl⟩ := List.mem_map.mp member
  rcases List.mem_append.mp inside with text | newline
  · exact cmd.solid text
  · exact absurd (List.mem_singleton.mp newline) (by decide)

theorem piece_solid (cmds : List Command) (n len : Nat) : 0 ∉ piece cmds n len := fun zero =>
  file_solid cmds (List.mem_of_mem_drop (List.mem_of_mem_take zero))

theorem piece_length (inside : n+len ≤ (historyFile cmds).length) : (piece cmds n len).length = len := by
  rw [piece,length_take,length_drop]
  omega

theorem piece_line (inside : n+len ≤ (historyFile cmds).length) (long : len = bufSize ∨ 0 < len ∧ n+len = (historyFile cmds).length) :
    10 ∈ piece cmds n len := by
  by_contra clean
  have there : Boundary cmds (n+len) := boundary inside
  have grown := (cut_grow cmds n len).2
  rw [cut_clean clean] at grown
  have more : (part cmds (n+len)).length = (part cmds n).length + len := by
    rw [grown,carry,List.isEmpty_nil,if_pos rfl,length_append,piece_length inside]
  rcases long with full | ⟨some,last⟩
  · have short := there.short.1
    unfold bufSize at full
    omega
  · have none : part cmds (n+len) = [] := by
      rw [part,last,List.take_length,cut_file]
    rw [none,length_nil] at more
    omega

theorem piece_last (cmds : List Command) (last : (historyFile cmds).length ≤ n+bufSize) :
    piece cmds n bufSize = piece cmds n ((historyFile cmds).length - n) := by
  rw [piece,piece,List.take_of_length_le (Nat.le_of_eq length_drop),List.take_of_length_le]
  rw [length_drop]
  omega

theorem piece_newline (more : n < (historyFile cmds).length) : 10 ∈ piece cmds n bufSize := by
  by_cases full : n+bufSize ≤ (historyFile cmds).length
  · exact piece_line full (.inl rfl)
  · rw [piece_last cmds (by omega)]
    exact piece_line (by omega) (.inr ⟨by omega,by omega⟩)

theorem piece_append (cmds : List Command) (n : Nat) : piece cmds n bufSize ++ (historyFile cmds).drop (n+bufSize) = (historyFile cmds).drop n := by
  rw [piece,← List.drop_drop,List.take_append_drop]

theorem ends_in_newline {x : List UInt8} (line : 10 ∈ x) (closed : (cut 10 x).2 = []) : ∃ l, x = l ++ [10] := by
  have whole := joined_cut 10 x
  rw [closed,append_nil] at whole
  rcases List.eq_nil_or_concat (cut 10 x).1 with none | ⟨ls,l,lines⟩
  · rw [none] at whole
    rw [← whole] at line
    cases line
  · refine ⟨joined 10 ls ++ l,?_⟩
    rw [lines,List.concat_eq_append,joined_append,joined_cons] at whole
    rw [← whole,List.append_assoc]
    rfl

structure Taken (cmds : List Command) (h : Nat → UInt8) (j : Nat) (s : Reader) : Prop where
  copied : ∃ ws, Copied cmds (bufSize * j) ws ∧ s.nums = ws.length ∧ s.history = writes h 0 ws
  pre : s.pre ≠ [] ↔ ∃ a, 0 < a ∧ a ≤ j ∧ part cmds (bufSize * a) ≠ []
  solid : 0 ∉ s.pre
  size : s.buf.length = bufSize
  broken : part cmds (bufSize * j) ≠ [] → s.pre = part cmds (bufSize * j) ∧ s.buf = List.replicate bufSize 0
  whole : part cmds (bufSize * j) = [] → 0 < j → 0 ∉ s.buf ∧ ∃ l, s.buf = l ++ [10]

section
variable {h : Nat → UInt8} {s : Reader} {behind : List UInt8}

theorem Taken.start (cmds : List Command) (h : Nat → UInt8) (size : buf.length = bufSize) : Taken cmds h 0 ⟨buf,[],0,h⟩ := by
  refine ⟨⟨[],⟨rfl,fun i none => absurd none (Nat.not_lt_zero i)⟩,rfl,rfl⟩,?_,not_mem_nil,size,fun broken => absurd rfl broken,
    fun _ positive => absurd positive (Nat.lt_irrefl 0)⟩
  refine iff_of_false (fun other => other rfl) ?_
  rintro ⟨a,positive,low,-⟩
  omega

theorem Taken.stale (taken : Taken cmds h j s) (inside : bufSize * j ≤ (historyFile cmds).length) (whole : part cmds (bufSize * j) = []) :
    s.pre ≠ [] ↔ Tainted cmds (done cmds (bufSize * j)).length := by
  have here := boundary inside
  have place := here.place
  rw [whole,length_nil,Nat.add_zero] at place
  have broken : ∀ a ≤ j, (part cmds (bufSize * a) ≠ [] ↔ ∀ l ≤ cmds.length, begins cmds l ≠ bufSize * a) := fun a low =>
    broken_iff (boundary (Nat.le_trans (Nat.mul_le_mul_left _ low) inside))
  rw [taken.pre]
  constructor
  · rintro ⟨a,positive,low,parted⟩
    have other : a ≠ j := fun same => parted (same ▸ whole)
    exact ⟨a,j,positive,by omega,place,(broken a low).mp parted⟩
  · rintro ⟨a,b,positive,less,same,none⟩
    rw [place] at same
    have equal : j = b := Nat.eq_of_mul_eq_mul_left (by decide) same
    exact ⟨a,positive,by omega,(broken a (by omega)).mpr none⟩

theorem Taken.lines (taken : Taken cmds h j s) (inside : bufSize * j + len ≤ (historyFile cmds).length) (small : len ≤ bufSize)
    (line : 10 ∈ piece cmds (bufSize * j) len) (turned : Turned s (piece cmds (bufSize * j) len) s') :
    ∃ ws, Copied cmds (bufSize * j + len) ws ∧ s'.nums = ws.length ∧ s'.history = writes h 0 ws := by
  obtain ⟨ws,copied,nums,history⟩ := taken.copied
  have some : (cut 10 (piece cmds (bufSize * j) len)).1 ≠ [] := by
    intro none
    have count := cut_count 10 (piece cmds (bufSize * j) len)
    rw [none] at count
    exact Nat.ne_of_lt (List.count_pos_iff.mpr line) count
  obtain ⟨a,more,lines⟩ := List.exists_cons_of_ne_nil some
  refine ⟨ws ++ glue s.pre (cut 10 (piece cmds (bufSize * j) len)).1,?_,?_,?_⟩
  · exact copied.grow rfl small inside lines taken.solid (fun broken => (taken.broken broken).1) (taken.stale (by omega))
  · rw [turned.nums,nums,length_append,glue_length]
  · rw [turned.history,history,nums,writes_append,Nat.zero_add]

theorem Taken.turn (taken : Taken cmds h j s) (inside : bufSize * (j+1) ≤ (historyFile cmds).length) (clean : 10 ∉ behind.takeWhile (· ≠ 0)) :
    ∃ s', s.turn behind (piece cmds (bufSize * j) bufSize) = some s' ∧ Taken cmds h (j+1) s' := by
  rw [Nat.mul_succ] at inside
  have full := piece_length inside
  have line := piece_line inside (.inl rfl)
  have none : 10 ∉ s.stale behind (piece cmds (bufSize * j) bufSize).length := by
    rw [Reader.stale,full,List.drop_eq_nil_iff.mpr (Nat.le_of_eq taken.size)]
    exact clean
  obtain ⟨s',turn,turned⟩ := turn_clean (piece_solid _ _ _) line taken.size none
  refine ⟨s',turn,?_⟩
  have rest : part cmds (bufSize * (j+1)) = (cut 10 (piece cmds (bufSize * j) bufSize)).2 := by
    have count := cut_count 10 (piece cmds (bufSize * j) bufSize)
    have positive := List.count_pos_iff.mpr line
    rw [Nat.mul_succ,(cut_grow ..).2,carry]
    cases lines : (cut 10 (piece cmds (bufSize * j) bufSize)).1 with
    | nil =>
      rw [lines,length_nil] at count
      omega
    | cons a more => rfl
  have copied := taken.lines inside .refl line turned
  by_cases closed : part cmds (bufSize * (j+1)) = []
  · obtain ⟨pre,buf⟩ := turned.ended full (rest ▸ closed)
    refine ⟨copied,?_,pre ▸ taken.solid,buf ▸ full,fun broken => absurd closed broken,fun _ _ => ?_⟩
    · rw [pre,taken.pre]
      constructor
      · rintro ⟨a,positive,low,parted⟩
        exact ⟨a,positive,by omega,parted⟩
      · rintro ⟨a,positive,low,parted⟩
        have other : a ≠ j+1 := fun same => parted (same ▸ closed)
        exact ⟨a,positive,by omega,parted⟩
    · rw [buf]
      exact ⟨piece_solid _ _ _,ends_in_newline line (rest ▸ closed)⟩
  · obtain ⟨pre,buf⟩ := turned.broken full (rest ▸ closed)
    rw [← rest] at pre
    refine ⟨copied,?_,?_,?_,fun _ => ⟨pre,buf⟩,fun whole => absurd whole closed⟩
    · rw [pre]
      exact iff_of_true closed ⟨j+1,by omega,.refl,closed⟩
    · rw [pre]
      exact (boundary inside).short.2
    · rw [buf,List.length_replicate]

theorem run_nil (fuel : Nat) : Reader.run behind fuel s [] = some s := by
  cases fuel with
  | zero => rfl
  | succ fuel => rw [Reader.run,if_pos rfl]

theorem run_turn (fuel : Nat) (more : n < (historyFile cmds).length) : Reader.run behind (fuel+1) s ((historyFile cmds).drop n) =
    (s.turn behind (piece cmds n bufSize)).bind fun s => Reader.run behind fuel s ((historyFile cmds).drop (n+bufSize)) := by
  have some : (historyFile cmds).drop n ≠ [] := fun none => by
    have long := List.drop_eq_nil_iff.mp none
    omega
  rw [Reader.run,if_neg some,List.drop_drop]
  rfl

theorem Taken.run (taken : Taken cmds h j s) (d : Nat) (inside : bufSize * (j+d) ≤ (historyFile cmds).length)
    (clean : 0 < d → 10 ∉ behind.takeWhile (· ≠ 0)) : ∃ s', Taken cmds h (j+d) s' ∧ ∀ fuel,
      Reader.run behind (fuel+d) s ((historyFile cmds).drop (bufSize * j)) = Reader.run behind fuel s' ((historyFile cmds).drop (bufSize * (j+d))) := by
  induction d generalizing j s with
  | zero => exact ⟨s,taken,fun _ => rfl⟩
  | succ d ih =>
    rw [show j+(d+1) = j+1+d by omega] at inside ⊢
    have near : bufSize * (j+1) ≤ (historyFile cmds).length := Nat.le_trans (Nat.mul_le_mul_left _ (by omega)) inside
    have within : bufSize * j < (historyFile cmds).length := by
      unfold bufSize at *
      omega
    obtain ⟨next,turn,after⟩ := taken.turn near (clean (by omega))
    obtain ⟨last,final,rest⟩ := ih after inside fun _ => clean (by omega)
    refine ⟨last,final,fun fuel => ?_⟩
    rw [← Nat.add_assoc,run_turn _ within,turn]
    exact rest fuel

theorem run_nums (fuel n : Nat) (enough : (historyFile cmds).length ≤ n+fuel) : ∃ s', Reader.run behind fuel s ((historyFile cmds).drop n) = some s' ∧
    s.nums + ((historyFile cmds).drop n).count 10 ≤ s'.nums := by
  induction fuel generalizing n s with
  | zero =>
    rw [List.drop_eq_nil_iff.mpr (by omega)]
    exact ⟨s,rfl,.refl⟩
  | succ fuel ih =>
    by_cases more : n < (historyFile cmds).length
    · obtain ⟨next,turn,nums⟩ : ∃ next, s.turn behind (piece cmds n bufSize) = some next ∧ _ := turn_nums (piece_solid _ _ _) (piece_newline more)
      obtain ⟨last,run,count⟩ := ih (n+bufSize) (by unfold bufSize; omega)
      refine ⟨last,?_,?_⟩
      · rw [run_turn _ more,turn]
        exact run
      · rw [← piece_append,List.count_append]
        omega
    · rw [List.drop_eq_nil_iff.mpr (by omega),run_nil]
      exact ⟨s,rfl,.refl⟩

theorem Taken.last (taken : Taken cmds h j s) (more : bufSize * j < (historyFile cmds).length) (short : (historyFile cmds).length < bufSize * (j+1))
    (clean : 10 ∉ s.stale behind ((historyFile cmds).length - bufSize * j)) (fuel : Nat) :
    ∃ s', Reader.run behind (fuel+1) s ((historyFile cmds).drop (bufSize * j)) = some s' ∧
      ∃ ws, Copied cmds (historyFile cmds).length ws ∧ s'.nums = ws.length ∧ s'.history = writes h 0 ws := by
  rw [Nat.mul_succ] at short
  have inside : bufSize * j + ((historyFile cmds).length - bufSize * j) ≤ (historyFile cmds).length := by omega
  have size := piece_length inside
  have line := piece_newline more
  rw [piece_last cmds (by omega)] at line
  obtain ⟨next,turn,turned⟩ := turn_clean (piece_solid _ _ _) line taken.size (size.symm ▸ clean)
  refine ⟨next,?_,?_⟩
  · rw [run_turn _ more,piece_last cmds (by omega),turn,List.drop_eq_nil_iff.mpr (by omega)]
    exact run_nil fuel
  · have copied := taken.lines inside (by omega) line turned
    rw [Nat.add_sub_cancel' (Nat.le_of_lt more)] at copied
    exact copied

theorem run_extra (more : n < (historyFile cmds).length) (nums : s.nums = ((historyFile cmds).take n).count 10)
    (extra : 10 ∈ s.stale behind (piece cmds n bufSize).length) (fuel : Nat) (enough : (historyFile cmds).length ≤ n+fuel+1) :
    ∃ s', Reader.run behind (fuel+1) s ((historyFile cmds).drop n) = some s' ∧ cmds.length < s'.nums := by
  obtain ⟨next,turn,counted⟩ : ∃ next, s.turn behind (piece cmds n bufSize) = some next ∧ _ := turn_nums (piece_solid _ _ _) (piece_newline more)
  obtain ⟨last,run,count⟩ : ∃ last, Reader.run behind fuel next ((historyFile cmds).drop (n+bufSize)) = some last ∧ _ :=
    run_nums fuel (n+bufSize) (by unfold bufSize; omega)
  refine ⟨last,?_,?_⟩
  · rw [run_turn _ more,turn]
    exact run
  · have positive := List.count_pos_iff.mpr extra
    have total : (historyFile cmds).count 10 = cmds.length := by
      rw [← cut_count,cut_file,texts,length_map]
    rw [← List.take_append_drop n (historyFile cmds),← piece_append,List.count_append,List.count_append] at total
    omega

end

structure Saved (cmds : List Command) (hs : HistoryStruct) : Prop where
  len : hs.len = cmds.length
  start : hs.start = ((cmds.length - 1) % hItems : Nat)
  current : hs.current = ((cmds.length - 1) % hItems : Nat)
  history : ∀ i < cmds.length, cmds.length ≤ i + hItems → Reads hs.history (entry i) ((texts cmds).getD i [])

-- No newline is stale behind a file shorter than the buffer, nor behind the buffer where it is
-- full. A command that begins at a multiple of 256 has a whole buffer from there on.
structure Fresh (cmds : List Command) (buf behind : List UInt8) : Prop where
  short : (historyFile cmds).length < bufSize → 10 ∉ (buf.drop (historyFile cmds).length ++ behind).takeWhile (· ≠ 0)
  full : bufSize ≤ (historyFile cmds).length → 10 ∉ behind.takeWhile (· ≠ 0)
  whole : ∀ i < cmds.length, ∀ b, 0 < b → begins cmds i = bufSize * b → begins cmds i + bufSize ≤ (historyFile cmds).length

-- If it is one of the last commands, every multiple of 256 before it is the beginning of one too.
structure Readable (cmds : List Command) (buf behind : List UInt8) : Prop extends Fresh cmds buf behind where
  clean : ∀ i < cmds.length, cmds.length ≤ i + hItems → ¬ Tainted cmds i

theorem text_short (cmds : List Command) (i : Nat) : ((texts cmds).getD i []).length ≤ 98 ∧ 0 ∉ (texts cmds).getD i [] := by
  by_cases inside : i < (texts cmds).length
  · obtain ⟨cmd,-,text⟩ := text_of inside
    rw [getD_eq_getElem?_getD,List.getElem?_eq_getElem inside,Option.getD_some]
    rw [List.get_eq_getElem] at text
    rw [text]
    exact ⟨cmd.short,cmd.solid⟩
  · rw [getD_eq_getElem?_getD,List.getElem?_eq_none (Nat.le_of_not_lt inside)]
    exact ⟨Nat.zero_le _,not_mem_nil⟩

section
variable {h : Nat → UInt8} {ws : List (List UInt8)}

theorem done_all (cmds : List Command) : (done cmds (historyFile cmds).length).length = cmds.length := by
  rw [done,List.take_length,cut_file,texts,length_map]

theorem Copied.text (copied : Copied cmds n ws) (inside : i < ws.length) (clean : ¬ Tainted cmds i) : ws.getD i [] = (texts cmds).getD i [] := by
  obtain ⟨p,same,-,tainted⟩ := copied.2 i inside
  have none : p = [] := by
    by_contra some
    exact clean (tainted.mp some)
  rw [same,none,nil_append]

theorem getD_solid {l : List UInt8} (solid : 0 ∉ l) (inside : t < l.length) : l.getD t 0 ≠ 0 := by
  rw [getD_eq_getElem?_getD,List.getElem?_eq_getElem inside,Option.getD_some]
  exact fun zero => solid (zero ▸ List.getElem_mem inside)

theorem Copied.reads_iff (copied : Copied cmds (historyFile cmds).length ws) :
    (∀ i < cmds.length, cmds.length ≤ i + hItems → Reads (writes h 0 ws) (entry i) ((texts cmds).getD i [])) ↔
      ∀ i < cmds.length, cmds.length ≤ i + hItems → ¬ Tainted cmds i := by
  have count : ws.length = cmds.length := copied.1.trans (done_all cmds)
  have entry_ : ∀ i < cmds.length, cmds.length ≤ i + hItems → (∀ j, i < j → j < cmds.length → ¬ Tainted cmds j) → ∀ t ≤ ((texts cmds).getD i []).length,
      t ≤ (ws.getD i []).length → writes h 0 ws (entry i + t) = (ws.getD i []).getD t 0 := by
    intro i inside visible later t low short
    have small := (text_short cmds i).1
    have written := writes_entry h 0 i ws (by omega) (by omega) (fun j less within => ?_) (by unfold hLen; omega) short
    · rw [Nat.zero_add] at written
      exact written
    · rw [copied.text within (later j less (by omega))]
      have fits := (text_short cmds j).1
      unfold hLen
      omega
  constructor
  · intro reads i inside
    -- The tainted command is taken with all later ones clean.
    induction gap : cmds.length - i using Nat.strongRecOn generalizing i with
    | _ gap ih =>
      intro visible tainted
      have later : ∀ j, i < j → j < cmds.length → ¬ Tainted cmds j := fun j less within => ih _ (by omega) j within rfl (by omega)
      obtain ⟨p,same,solid,iff⟩ := copied.2 i (by omega)
      have long : ((texts cmds).getD i []).length < (ws.getD i []).length := by
        have positive := List.length_pos_of_ne_nil (iff.mpr tainted)
        rw [same,length_append]
        omega
      have byte := entry_ i inside visible later _ .refl (Nat.le_of_lt long)
      rw [(reads i inside visible).nul] at byte
      refine getD_solid ?_ long byte.symm
      rw [same,mem_append,not_or]
      exact ⟨solid,(text_short cmds i).2⟩
  · intro clean i inside visible
    have later : ∀ j, i < j → j < cmds.length → ¬ Tainted cmds j := fun j less within => clean j within (by omega)
    have byte := entry_ i inside visible later
    rw [copied.text (by omega) (clean i inside visible)] at byte
    refine ⟨fun t less => byte t (Nat.le_of_lt less) (Nat.le_of_lt less),(text_short cmds i).2,?_⟩
    rw [byte _ (Nat.le_refl _) (Nat.le_refl _),getD_eq_getElem?_getD,List.getElem?_eq_none (Nat.le_refl _),Option.getD_none]

theorem begins_all (cmds : List Command) : begins cmds cmds.length = (historyFile cmds).length := by
  have all : (texts cmds).length ≤ cmds.length := Nat.le_of_eq (length_map _)
  rw [begins,start,List.take_of_length_le all,historyFile_eq]

def Outcome (cmds : List Command) (h : Nat → UInt8) (buf behind : List UInt8) (s : Reader) : Prop :=
  (Fresh cmds buf behind ∧ ∃ ws, Copied cmds (historyFile cmds).length ws ∧ s.nums = ws.length ∧ s.history = writes h 0 ws) ∨
  (¬ Fresh cmds buf behind ∧ cmds.length < s.nums)

section
variable {buf behind : List UInt8}

theorem file_positive (some : 0 < cmds.length) : 0 < (historyFile cmds).length := by
  have order := begins_lt some .refl
  rw [begins_all] at order
  omega

theorem outcome_short (size : buf.length = bufSize) (some : 0 < cmds.length) (short : (historyFile cmds).length < bufSize) :
    ∃ s, Reader.run behind (historyFile cmds).length ⟨buf,[],0,h⟩ (historyFile cmds) = .some s ∧ Outcome cmds h buf behind s := by
  have positive := file_positive some
  obtain ⟨fuel,long⟩ : ∃ fuel, (historyFile cmds).length = fuel+1 := ⟨(historyFile cmds).length - 1,by omega⟩
  have begin : (historyFile cmds).drop 0 = historyFile cmds := drop_zero
  have length : (piece cmds 0 bufSize).length = (historyFile cmds).length := by
    rw [piece,drop_zero,length_take]
    omega
  by_cases extra : 10 ∈ (buf.drop (historyFile cmds).length ++ behind).takeWhile (· ≠ 0)
  · have counted : ∃ s', Reader.run behind (fuel+1) ⟨buf,[],0,h⟩ ((historyFile cmds).drop 0) = .some s' ∧ cmds.length < s'.nums :=
      run_extra positive rfl (length ▸ extra) fuel (by omega)
    rw [begin,← long] at counted
    obtain ⟨s,run,more⟩ := counted
    exact ⟨s,run,.inr ⟨fun fresh => fresh.short short extra,more⟩⟩
  have copied := (Taken.start cmds h size).last (by rw [Nat.mul_zero]; exact positive) short extra fuel
  rw [Nat.mul_zero,begin,← long] at copied
  obtain ⟨s,run,ws⟩ := copied
  refine ⟨s,run,.inl ⟨⟨fun _ => extra,fun full => absurd short (Nat.not_lt.mpr full),fun i inside b some place => ?_⟩,ws⟩⟩
  have order := begins_lt inside .refl
  rw [begins_all] at order
  unfold bufSize at *
  omega

theorem Taken.stale_broken (taken : Taken cmds h m s) (broken : part cmds (bufSize * m) ≠ []) (short : len < bufSize) : s.stale behind len = [] := by
  obtain ⟨rest,zeros⟩ : ∃ rest, bufSize - len = rest+1 := ⟨bufSize - len - 1,by omega⟩
  rw [Reader.stale,(taken.broken broken).2,List.drop_replicate,zeros,List.replicate_succ,List.cons_append,List.takeWhile_cons_of_neg (by decide)]

theorem Taken.stale_whole (taken : Taken cmds h m s) (some : 0 < m) (whole : part cmds (bufSize * m) = []) (short : len < bufSize) :
    10 ∈ s.stale behind len := by
  obtain ⟨solid,l,last⟩ := taken.whole whole some
  have size := taken.size
  rw [last,length_append,List.length_singleton] at size
  have kept : s.buf.drop len = l.drop len ++ [10] := by rw [last,List.drop_append_of_le_length (by omega)]
  have solidRest : 0 ∉ s.buf.drop len := fun zero => solid (List.mem_of_mem_drop zero)
  rw [Reader.stale,takeWhile_solid solidRest,kept]
  exact List.mem_append.mpr (.inl (List.mem_append.mpr (.inr (List.mem_singleton.mpr rfl))))

theorem outcome_full (size : buf.length = bufSize) (full : bufSize ≤ (historyFile cmds).length) :
    ∃ s, Reader.run behind (historyFile cmds).length ⟨buf,[],0,h⟩ (historyFile cmds) = .some s ∧ Outcome cmds h buf behind s := by
  have positive : 0 < (historyFile cmds).length := Nat.lt_of_lt_of_le (by decide) full
  have begin : (historyFile cmds).drop 0 = historyFile cmds := drop_zero
  by_cases extra : 10 ∈ behind.takeWhile (· ≠ 0)
  · obtain ⟨fuel,long⟩ : ∃ fuel, (historyFile cmds).length = fuel+1 := ⟨(historyFile cmds).length - 1,by omega⟩
    have stale : 10 ∈ (⟨buf,[],0,h⟩ : Reader).stale behind (piece cmds 0 bufSize).length := by
      rw [piece_length (by omega),Reader.stale,List.drop_eq_nil_iff.mpr (Nat.le_of_eq size)]
      exact extra
    have counted : ∃ s', Reader.run behind (fuel+1) ⟨buf,[],0,h⟩ ((historyFile cmds).drop 0) = .some s' ∧ cmds.length < s'.nums :=
      run_extra positive rfl stale fuel (by omega)
    rw [begin,← long] at counted
    obtain ⟨s,run,more⟩ := counted
    exact ⟨s,run,.inr ⟨fun fresh => fresh.full full extra,more⟩⟩
  · have last : bufSize * ((historyFile cmds).length / bufSize) ≤ (historyFile cmds).length := Nat.mul_div_le ..
    have next : (historyFile cmds).length < bufSize * ((historyFile cmds).length / bufSize + 1) := by
      unfold bufSize
      omega
    generalize buffers : (historyFile cmds).length / bufSize = m at last next
    have some : 0 < m := by
      rw [← buffers]
      exact Nat.div_pos full (by decide)
    obtain ⟨fuel,long⟩ : ∃ fuel, (historyFile cmds).length = fuel+1+m := ⟨(historyFile cmds).length - 1 - m,by unfold bufSize at *; omega⟩
    obtain ⟨s,taken,runs⟩ := (Taken.start cmds h size).run m (by rw [Nat.zero_add]; exact last) fun _ => extra
    have run := runs (fuel+1)
    rw [Nat.zero_add] at taken run
    rw [Nat.mul_zero,begin,← long] at run
    rw [run]
    have places : ∀ i < cmds.length, begins cmds i < (historyFile cmds).length := fun i inside => by
      rw [← begins_all]
      exact begins_lt inside .refl
    have short : (historyFile cmds).length < bufSize → 10 ∉ (buf.drop (historyFile cmds).length ++ behind).takeWhile (· ≠ 0) := fun less =>
      absurd less (Nat.not_lt.mpr full)
    by_cases more : bufSize * m < (historyFile cmds).length
    · have length : (piece cmds (bufSize * m) bufSize).length = (historyFile cmds).length - bufSize * m := by
        rw [piece,length_take,length_drop]
        rw [Nat.mul_succ] at next
        omega
      have less : (historyFile cmds).length - bufSize * m < bufSize := by
        rw [Nat.mul_succ] at next
        omega
      by_cases whole : part cmds (bufSize * m) = []
      · have here := boundary last
        have place := here.place
        rw [whole,length_nil,Nat.add_zero] at place
        obtain ⟨ws,⟨count,-⟩,nums,-⟩ := taken.copied
        rw [nums.symm.trans nums,count,done,cut_count] at nums
        have wide : m ≤ bufSize * m := Nat.le_mul_of_pos_left m (by decide)
        obtain ⟨s',run,many⟩ := run_extra more nums (length ▸ taken.stale_whole some whole less) fuel (by omega)
        refine ⟨s',run,.inr ⟨fun fresh => ?_,many⟩⟩
        have inside : (done cmds (bufSize * m)).length < cmds.length := by
          rcases Nat.lt_or_eq_of_le (done_le here) with fewer | all
          · exact fewer
          · rw [all,begins_all] at place
            omega
        have room := fresh.whole _ inside m some place
        omega
      · have none : s.stale behind ((historyFile cmds).length - bufSize * m) = [] := taken.stale_broken whole less
        obtain ⟨s',run,ws⟩ := taken.last more next (none ▸ not_mem_nil) fuel
        refine ⟨s',run,.inl ⟨⟨short,fun _ => extra,fun i inside b positive place => ?_⟩,ws⟩⟩
        have order := places i inside
        have other : b ≠ m := fun same => (broken_iff (boundary last)).mp whole i (Nat.le_of_lt inside) (same ▸ place)
        have before : b+1 ≤ m := by
          unfold bufSize at *
          omega
        have room := Nat.mul_le_mul_left bufSize before
        rw [Nat.mul_succ] at room
        omega
    · have done_ : bufSize * m = (historyFile cmds).length := by omega
      rw [done_,List.drop_length,run_nil]
      refine ⟨s,rfl,.inl ⟨⟨short,fun _ => extra,fun i inside b positive place => ?_⟩,?_⟩⟩
      · have order := places i inside
        unfold bufSize at *
        omega
      · rw [← done_]
        exact taken.copied

end

-- A saved history reads back exactly where no newline is counted twice and no rest is glued to one
-- of the last commands.
theorem getHistory_saved (cmds : List Command) (some : 0 < cmds.length) (size : buf.length = bufSize) (behind : List UInt8) (hs : HistoryStruct) :
    ∃ read, getHistory buf behind (historyFile cmds) hs = .some read ∧ (Saved cmds read ↔ Readable cmds buf behind) := by
  have outcome : ∃ s, Reader.run behind (historyFile cmds).length ⟨buf,[],0,hs.history⟩ (historyFile cmds) = .some s ∧
      Outcome cmds hs.history buf behind s := by
    rcases Nat.lt_or_ge (historyFile cmds).length bufSize with short | full
    · exact outcome_short size some short
    · exact outcome_full size full
  obtain ⟨s,run,outcome⟩ := outcome
  unfold getHistory
  rw [run]
  refine ⟨_,rfl,?_⟩
  rcases outcome with ⟨fresh,ws,copied,nums,history⟩ | ⟨stale,more⟩
  · have count : s.nums = cmds.length := nums.trans (copied.1.trans (done_all cmds))
    have place : Int.tmod ((s.nums : Int) - 1) hItems = ((cmds.length - 1) % hItems : Nat) := by
      have less : (s.nums : Int) - 1 = (cmds.length - 1 : Nat) := by omega
      rw [less]
      rfl
    constructor
    · intro saved
      have reads := saved.history
      simp only [history] at reads
      exact ⟨fresh,copied.reads_iff.mp reads⟩
    · intro readable
      refine ⟨congrArg _ count,place,place,?_⟩
      simp only [history]
      exact copied.reads_iff.mpr readable.clean
  · refine iff_of_false (fun saved => ?_) fun readable => stale readable.toFresh
    have len : (s.nums : Int) = cmds.length := saved.len
    omega

end

theorem letter_solid : (0 : UInt8) ∉ [(97 : UInt8)] := by decide

def oneLetter : Command := ⟨[97],letter_solid,by decide,by decide⟩

theorem getHistory_one : ∃ read, getHistory (List.replicate bufSize 0) [] (historyFile [oneLetter]) ⟨0,0,0,fun _ => 0⟩ = some read ∧
    Saved [oneLetter] read := by
  obtain ⟨read,run,saved⟩ := getHistory_saved [oneLetter] (by decide) List.length_replicate [] ⟨0,0,0,fun _ => 0⟩
  have begin : ∀ i < [oneLetter].length, begins [oneLetter] i = 0 := fun i inside => by
    obtain rfl : i = 0 := Nat.lt_one_iff.mp inside
    rfl
  refine ⟨read,run,saved.mpr ⟨⟨fun _ => by decide,fun full => absurd full (by decide),fun i inside b some place => ?_⟩,fun i inside _ => ?_⟩⟩
  · rw [begin i inside] at place
    unfold bufSize at place
    omega
  · rintro ⟨a,b,positive,less,place,-⟩
    rw [begin i inside] at place
    unfold bufSize at place
    omega

-- Four commands of 63 characters fill the buffer to its end, and its newlines are counted again
-- behind the fifth.
def long63 : Command := ⟨List.replicate 63 97,by decide,by decide,by decide⟩

theorem history_counted_twice : ∃ read,
    getHistory (List.replicate bufSize 0) [] (historyFile [long63,long63,long63,long63,oneLetter]) ⟨0,0,0,fun _ => 0⟩ = some read ∧
    read.len = 9 ∧ ¬ Saved [long63,long63,long63,long63,oneLetter] read := by
  have counted : (getHistory (List.replicate bufSize 0) [] (historyFile [long63,long63,long63,long63,oneLetter]) ⟨0,0,0,fun _ => 0⟩).map
      HistoryStruct.len = some 9 := by decide +kernel
  obtain ⟨read,run,len⟩ := Option.map_eq_some_iff.mp counted
  refine ⟨read,run,len,fun saved => ?_⟩
  rw [saved.len] at len
  exact absurd len (by decide)

end Xv6.Shell
