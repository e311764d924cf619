import Xv6.Console.Line

namespace Xv6.Console
open Runs
open List (append_assoc append_nil length_append length_nil not_mem_nil)

-- Typing and reading: what the reads return is what was typed, line by line.

-- A read that has not returned. It sleeps until it is woken.
structure Reading where
  target : Nat
  got : List UInt8
  awake : Bool

-- What a line editor has accepted: the characters of the committed lines, and the line in hand.
structure Editor where
  sent : List UInt8
  line : List UInt8
  blanks : Nat

structure Session where
  input : Input
  reading : Option Reading
  results : List (Nat × List UInt8)
  editor : Editor

inductive Act where
  | key (c : Nat)
  | read (n : Nat)
  | wake

def Act.Plain (c : Nat) : Prop := 32 ≤ c ∧ c ≤ 126 ∨ c = 10 ∨ c = 13 ∨ c = 4 ∨ c = 8 ∨ c = 127 ∨ c = 21

-- A character is accepted while there is room besides what has not been read. Newline, Ctrl-D and
-- the last free place commit the line.
def Editor.key (editor : Editor) (unread c : Nat) : Editor :=
  if c = 21 then { editor with line := [] }
  else if c = 8 ∨ c = 127 then { editor with line := editor.line.dropLast }
  else if unread + editor.line.length < inputBuf then
    let c := if c = 13 then 10 else c
    let line := editor.line ++ [UInt8.ofNat c]
    if c = 10 ∨ c = 4 ∨ unread + line.length = inputBuf then ⟨editor.sent ++ line,[],0⟩
    else ⟨editor.sent,line,if c = 32 then editor.blanks+1 else editor.blanks⟩
  else editor

-- Ctrl-D stands for a result of 0 bytes.
def render (out : List UInt8) : List UInt8 := if out = [] then [4] else out

def Input.commits (s : Input) (c : Nat) : Bool :=
  decide (¬ (c = 21 ∨ c = 8 ∨ c = 127) ∧ (s.e - s.r).toNat < inputBuf ∧ (c = 10 ∨ c = 13 ∨ c = 4 ∨ s.e+1 = s.r+128))

namespace Session

def returned (s : Session) : List UInt8 := s.results.flatMap (fun result => render result.2) ++ (s.reading.map Reading.got).getD []

def unread (s : Session) : List UInt8 := s.input.held s.input.r s.input.w

def turn (s : Session) (target : Nat) (got : List UInt8) : Session :=
  match consoleread target (target - got.length) s.input got with
  | (input,out,true) => { s with input := input, reading := none, results := s.results ++ [(target,out)] }
  | (input,out,false) => { s with input := input, reading := some ⟨target,out,false⟩ }

-- One read at a time, each of some bytes; keys come at any time.
inductive Step : Session → Act → Session → Prop where
  | key : s.input.consoleintr c = some next → Step s (.key c) { s with
      input := next,
      reading := s.reading.map fun reading => { reading with awake := reading.awake || s.input.commits c },
      editor := s.editor.key (s.editor.sent.length - s.returned.length) c }
  | read : s.reading = none → 0 < n → Step s (.read n) (s.turn n [])
  | wake : s.reading = some ⟨target,got,true⟩ → Step s .wake (s.turn target got)

structure Fresh (s : Session) : Prop where
  read : s.input.r = s.input.w
  empty : s.input.e = s.input.w
  fresh : s.input.firstInput = true
  idle : s.reading = none
  results : s.results = []
  editor : s.editor = ⟨[],[],0⟩

-- The keys considered, with at most 31 blanks typed in a line.
def Sparse (s : Session) : Act → Prop
  | .key c => Act.Plain c ∧ (c = 32 → s.editor.blanks < 31)
  | _ => True

structure Answer (n : Nat) (out : List UInt8) : Prop where
  short : out.length ≤ n
  solid : 4 ∉ out
  single : ∀ before after, out = before ++ 10 :: after → after = []

end Session

def Clean (got : List UInt8) : Prop := 4 ∉ got ∧ 10 ∉ got

namespace Clean
variable {got : List UInt8}

theorem nil : Clean [] := ⟨not_mem_nil,not_mem_nil⟩

theorem add (clean : Clean got) (other : c ≠ 4) (inner : c ≠ 10) : Clean (got ++ [c]) :=
  ⟨by simp [clean.1,other.symm],by simp [clean.2,inner.symm]⟩

theorem answer (clean : Clean got) (short : got.length ≤ target) : Session.Answer target got :=
  ⟨short,clean.1,fun _ _ whole => absurd (whole ▸ List.mem_append_right _ (.head _)) clean.2⟩

theorem newline (clean : Clean got) (short : got.length < target) : Session.Answer target (got ++ [10]) := by
  refine ⟨?_,by simp [clean.1],fun before after whole => ?_⟩
  · rw [length_append]
    exact short
  · rcases List.append_eq_append_iff.mp whole with ⟨more,rfl,rest⟩ | ⟨more,rfl,rest⟩
    · cases more with
      | nil =>
        cases rest
        rfl
      | cons c more =>
        have := congrArg List.length rest
        simp at this
    · cases more with
      | nil =>
        cases rest
        rfl
      | cons c more =>
        cases rest
        exact absurd (by simp) clean.2

end Clean

def Taken (target : Nat) (all : List UInt8) : Input × List UInt8 × Bool → Prop
  | (t,out,true) => Session.Answer target out ∧ render out ++ t.held t.r t.w = all
  | (t,out,false) => Clean out ∧ out.length < target ∧ t.r = t.w ∧ out = all

theorem render_some (some : out ≠ []) : render out = out := if_neg some

theorem consoleread_taken (target : Nat) : ∀ n (s : Input) (got : List UInt8), n + got.length = target → 0 < target → Clean got →
    Taken target (got ++ s.held s.r s.w) (consoleread target n s got) := by
  intro n
  induction n with
  | zero =>
    intro s got count some clean
    have more : got ≠ [] := by
      rintro rfl
      rw [length_nil] at count
      omega
    exact ⟨clean.answer (by omega),by rw [render_some more]⟩
  | succ n ih =>
    intro s got count some clean
    rw [consoleread]
    split
    · rename_i none
      refine ⟨clean,by omega,none,?_⟩
      rw [none,Input.held_self,append_nil]
    rename_i more
    have next := Input.held_cons (s := s) more
    simp only
    split
    · rename_i eof
      split
      · have part : got ≠ [] := by
          rintro rfl
          rw [length_nil] at count
          omega
        refine ⟨clean.answer (by omega),?_⟩
        rw [render_some part]
        rw [BitVec.add_sub_cancel]
      · have first : got = [] := by
          rw [← List.length_eq_zero_iff]
          omega
        subst first
        refine ⟨clean.answer (Nat.zero_le _),?_⟩
        rw [next,eof]
        rfl
    · split
      · rename_i newline
        refine ⟨newline ▸ clean.newline (by omega),?_⟩
        rw [render_some (by simp),next,append_assoc]
        rfl
      rename_i other inner
      have count : n + (got ++ [s.buf (s.r.toNat % inputBuf)]).length = target := by
        rw [length_append,List.length_singleton]
        omega
      have rest := ih { s with r := s.r+1 } _ count some (clean.add other inner)
      rw [append_assoc] at rest
      rw [next]
      exact rest

namespace Input
variable {s : Input} {x y : Word}

theorem held_append (inside : (y - x).toNat ≤ (z - x).toNat) : s.held x y ++ s.held y z = s.held x z := by
  have place : y = x + BitVec.ofNat 32 (y - x).toNat := by
    rw [BitVec.ofNat_toNat,BitVec.setWidth_eq,BitVec.add_comm,BitVec.sub_add_cancel]
  have first := held_cut (s := s) inside
  have second := held_drop (s := s) inside
  rw [← place] at first second
  rw [first,second,List.take_append_drop]

theorem held_snoc (more : x ≠ y) : s.held x (y-1) ++ [s.buf ((y-1).toNat % inputBuf)] = s.held x y := by
  have whole := held_append (s := s) (x := x) (y := y-1) (z := y) (by bv_omega)
  rw [held_cons (y := y) (by bv_omega),BitVec.sub_add_cancel,held_self] at whole
  exact whole

theorem killFrom_line : ∀ n (e : Word), (e - s.w).toNat = n → 10 ∉ s.held s.w e → killFrom s.buf s.w n e = s.w := by
  intro n
  induction n with
  | zero =>
    intro e none _
    rw [killFrom]
    bv_omega
  | succ n ih =>
    intro e count unbroken
    rw [← held_snoc (by bv_omega)] at unbroken
    have inner := fun same => unbroken (List.mem_append_right _ (List.mem_singleton.mpr same))
    rw [killFrom,if_pos ⟨by bv_omega,fun same => inner same.symm⟩]
    exact ih (e-1) (by bv_omega) fun member => unbroken (List.mem_append_left _ member)

theorem held_put_before (inside : (y - x).toNat ≤ (s.e - x).toNat) (room : (s.e - x).toNat < inputBuf) (c : UInt8) : (s.put c).held x y = s.held x y := by
  have place : y = x + BitVec.ofNat 32 (y - x).toNat := by
    rw [BitVec.ofNat_toNat,BitVec.setWidth_eq,BitVec.add_comm,BitVec.sub_add_cancel]
  have next : (y - x).toNat ≤ (s.e+1 - x).toNat := by
    unfold inputBuf at room
    bv_omega
  have after := held_cut (s := s.put c) next
  have before := held_cut (s := s) inside
  rw [← place] at after before
  rw [after,before,held_put room,List.take_append_of_le_length (by rw [held_length]; exact inside)]

end Input

-- The input buffer holds what the editor has: behind what was read, the rest of the committed lines
-- and the line in hand. The blanks of the line are counted.
structure Follows (read : List UInt8) (s : Input) (editor : Editor) : Prop where
  order : (s.w - s.r).toNat ≤ (s.e - s.r).toNat
  full : (s.e - s.r).toNat ≤ inputBuf
  sent : read ++ s.held s.r s.w = editor.sent
  line : s.line = editor.line
  unbroken : 10 ∉ editor.line
  fresh : s.firstInput = true → editor.line = [] ∧ editor.blanks = 0
  bottom : s.firstInput = false → 1 ≤ s.blankLen ∧ s.blankLen ≤ 1 + editor.blanks ∧ s.blanks 0 = s.w
  few : editor.blanks ≤ 31

namespace Follows
variable {read : List UInt8} {s : Input} {editor : Editor}

section
variable (follows : Follows read s editor)
include follows

theorem unread : editor.sent.length - read.length = (s.w - s.r).toNat := by
  rw [← follows.sent,length_append,Input.held_length]
  omega

theorem line_length : editor.line.length = (s.e - s.w).toNat := by
  rw [← follows.line,Input.line,Input.held_length]

theorem total : (s.w - s.r).toNat + editor.line.length = (s.e - s.r).toNat := by
  have order := follows.order
  have full := follows.full
  rw [follows.line_length]
  bv_omega

theorem killLine : Follows read s.killLine { editor with line := [] } := by
  have killed : s.killLine = { s with e := s.w } := by
    have empty := Input.killFrom_line _ s.e rfl (by rw [← Input.line,follows.line]; exact follows.unbroken)
    rw [Input.killLine,empty]
  rw [killed]
  exact ⟨.refl,Nat.le_trans follows.order follows.full,follows.sent,Input.held_self ..,not_mem_nil,
    fun fresh => ⟨rfl,(follows.fresh fresh).2⟩,follows.bottom,follows.few⟩

theorem erase (more : s.e ≠ s.w) (one : 1 ≤ n) (less : n ≤ 1 + editor.blanks) (bottom : blanks 0 = s.w) (typed : s.firstInput = false) :
    Follows read { s with constantTab := -1, blanks := blanks, blankLen := n, tabLoc := x, e := s.e-1 } { editor with line := editor.line.dropLast } := by
  have order := follows.order
  have full := follows.full
  unfold inputBuf at full
  refine ⟨?_,?_,follows.sent,?_,?_,?_,?_,follows.few⟩
  · bv_omega
  · unfold inputBuf
    bv_omega
  · show s.held s.w (s.e-1) = editor.line.dropLast
    rw [← follows.line,Input.line,← Input.held_snoc more.symm,List.dropLast_concat]
  · exact fun member => follows.unbroken (List.dropLast_subset _ member)
  · intro fresh
    rw [typed] at fresh
    cases fresh
  · exact fun _ => ⟨one,less,bottom⟩

theorem backspace : ∃ t, s.backspace = some t ∧ t.r = s.r ∧ Follows read t { editor with line := editor.line.dropLast } := by
  unfold Input.backspace
  simp only
  split
  · rename_i more
    have typed : s.firstInput = false := by
      by_contra fresh
      have none := (follows.fresh (by simpa using fresh)).1
      have length := follows.line_length
      rw [none,length_nil] at length
      bv_omega
    obtain ⟨one,less,bottom⟩ := follows.bottom typed
    have few := follows.few
    rw [if_neg (by omega)]
    split
    · rename_i here
      have two : s.blankLen ≠ 1 := by
        intro single
        rw [single,Nat.sub_self,bottom] at here
        exact more here
      rw [if_neg two]
      refine ⟨_,rfl,rfl,follows.erase more (by omega) (by omega) ?_ typed⟩
      rw [Function.update_of_ne (by omega)]
      exact bottom
    · exact ⟨_,rfl,rfl,follows.erase more one less bottom typed⟩
  · rename_i none
    have same : s.e = s.w := by simpa using none
    have empty : editor.line = [] := by
      rw [← List.length_eq_zero_iff,follows.line_length,same,BitVec.sub_self]
      rfl
    refine ⟨_,rfl,rfl,follows.order,follows.full,follows.sent,?_,?_,fun fresh => ?_,follows.bottom,follows.few⟩
    · rw [empty]
      exact follows.line.trans empty
    · rw [empty]
      exact not_mem_nil
    · rw [empty]
      exact ⟨rfl,(follows.fresh fresh).2⟩

theorem initBlank_bottom : 1 ≤ s.initBlank.blankLen ∧ s.initBlank.blankLen ≤ 1 + editor.blanks ∧ s.initBlank.blanks 0 = s.w := by
  unfold Input.initBlank
  split
  · exact ⟨.refl,Nat.le_add_right ..,rfl⟩
  · rename_i typed
    exact follows.bottom (by simpa using typed)

theorem stored (b : UInt8) (sparse : c = 32 → editor.blanks < 31) :
    ∃ t, ({ s.initBlank with constantTab := -1 }.put b).blank c = some t ∧ t.r = s.r ∧ t.w = s.w ∧ t.e = s.e+1 ∧ t.buf = (s.put b).buf ∧
      t.firstInput = false ∧ 1 ≤ t.blankLen ∧ t.blankLen ≤ 1 + (if c = 32 then editor.blanks+1 else editor.blanks) ∧ t.blanks 0 = s.w := by
  obtain ⟨one,less,bottom⟩ := follows.initBlank_bottom
  rw [Input.initBlank_eq]
  unfold Input.blank
  split
  · rename_i space
    have few := sparse space
    have room : s.initBlank.blankLen < 32 := by omega
    split
    · refine ⟨_,rfl,rfl,rfl,rfl,rfl,rfl,Nat.le_add_left ..,?_,?_⟩
      · show s.initBlank.blankLen+1 ≤ _
        omega
      · show Function.update s.initBlank.blanks s.initBlank.blankLen _ 0 = s.w
        rw [Function.update_of_ne (by omega)]
        exact bottom
    · rename_i full
      exact absurd room full
  · exact ⟨_,rfl,rfl,rfl,rfl,rfl,rfl,one,less,bottom⟩

theorem char (plain : 32 ≤ c ∧ c ≤ 126 ∨ c = 10 ∨ c = 13 ∨ c = 4) (sparse : c = 32 → editor.blanks < 31) :
    ∃ t, s.char c = some t ∧ t.r = s.r ∧ Follows read t (editor.key (s.w - s.r).toNat c) := by
  have total := follows.total
  have order := follows.order
  unfold Input.char Editor.key
  rw [if_neg (show ¬ c = 21 by omega),if_neg (show ¬ (c = 8 ∨ c = 127) by omega),total]
  by_cases free : (s.e - s.r).toNat < inputBuf
  · rw [if_pos (show c ≠ 0 ∧ _ from ⟨by omega,free⟩),if_pos free]
    simp only
    generalize byte : (if c = 13 then 10 else c) = d
    have printable : d < 256 ∧ (d = 32 → c = 32) := by
      split at byte <;> omega
    obtain ⟨t,done,readAt,begun,last,cells,typed,one,less,bottom⟩ := follows.stored (UInt8.ofNat d) (fun space => sparse (printable.2 space))
    rw [done]
    have length : (editor.line ++ [UInt8.ofNat d]).length = editor.line.length + 1 := by
      rw [length_append,List.length_singleton]
    have queue : t.held s.r s.w = s.held s.r s.w := by
      rw [Input.held,cells]
      exact Input.held_put_before order free _
    have line : t.held s.w (s.e+1) = editor.line ++ [UInt8.ofNat d] := by
      rw [Input.held,cells,← follows.line]
      exact Input.held_put (by have := follows.line_length; omega) _
    have ends : (d = 10 ∨ d = 4 ∨ t.e = t.r + 128) ↔ (d = 10 ∨ d = 4 ∨ (s.w - s.r).toNat + (editor.line ++ [UInt8.ofNat d]).length = inputBuf) := by
      have last : t.e = t.r + 128 ↔ (s.w - s.r).toNat + (editor.line ++ [UInt8.ofNat d]).length = inputBuf := by
        rw [length,← Nat.add_assoc,total,last,readAt]
        unfold inputBuf at free ⊢
        constructor
        · intro same
          bv_omega
        · intro same
          bv_omega
      rw [last]
    have longer : (s.w - t.r).toNat ≤ (t.e - t.r).toNat ∧ (t.e - t.r).toNat ≤ inputBuf := by
      rw [last,readAt]
      unfold inputBuf at free ⊢
      constructor <;> bv_omega
    refine ⟨t.commit d,rfl,?_,?_⟩
    · rcases t.commit_cases d with same | same <;> rw [same] <;> exact readAt
    · unfold Input.commit
      split
      · rename_i commits
        rw [if_pos (ends.mp commits)]
        refine ⟨.refl,longer.2,?_,Input.held_self ..,not_mem_nil,fun _ => ⟨rfl,rfl⟩,fun typed => (by cases typed),Nat.zero_le _⟩
        show read ++ t.held t.r t.e = _
        rw [readAt,last,← Input.held_append (y := s.w) (by rw [last,readAt] at longer; exact longer.1),queue,line,← append_assoc,follows.sent]
      rename_i stays
      rw [if_neg fun commits => stays (ends.mpr commits)]
      refine ⟨by rw [begun]; exact longer.1,longer.2,?_,?_,?_,?_,fun _ => ⟨one,less,bottom.trans begun.symm⟩,?_⟩
      · rw [readAt,begun,queue]
        exact follows.sent
      · rw [Input.line,begun,last]
        exact line
      · rw [List.mem_append,List.mem_singleton]
        rintro (member | same)
        · exact follows.unbroken member
        · have newline := congrArg UInt8.toNat same
          rw [UInt8.toNat_ofNat_of_lt' printable.1] at newline
          exact stays (.inl newline.symm)
      · intro fresh
        rw [typed] at fresh
        cases fresh
      · have few := follows.few
        split
        · rename_i space
          exact sparse (printable.2 space)
        · exact few
  · rw [if_neg fun accepted => free accepted.2,if_neg free]
    exact ⟨s,rfl,rfl,follows⟩

theorem key (plain : Act.Plain c) (sparse : c = 32 → editor.blanks < 31) :
    ∃ t, s.consoleintr c = some t ∧ t.r = s.r ∧ Follows read t (editor.key (s.w - s.r).toNat c) := by
  unfold Act.Plain at plain
  unfold Input.consoleintr
  rw [if_neg (show ¬ c = 16 by omega)]
  by_cases kill : c = 21
  · rw [if_pos kill,Editor.key,if_pos kill]
    exact ⟨_,rfl,rfl,follows.killLine⟩
  rw [if_neg kill]
  by_cases back : c = 8 ∨ c = 127
  · rw [if_pos back,Editor.key,if_neg kill,if_pos back]
    exact follows.backspace
  · rw [if_neg back]
    iterate 6 rw [if_neg (by omega)]
    exact follows.char (by omega) sparse

theorem advance (behind : k ≤ (s.w - s.r).toNat) (same : more ++ s.held (s.r + BitVec.ofNat 32 k) s.w = editor.sent) :
    Follows more { s with r := s.r + BitVec.ofNat 32 k } editor := by
  have order := follows.order
  have full := follows.full
  unfold inputBuf at full
  refine ⟨?_,?_,same,follows.line,follows.unbroken,follows.fresh,follows.bottom,follows.few⟩
  · bv_omega
  · unfold inputBuf
    bv_omega

end
end Follows

namespace Input
variable {s t : Input}

theorem char_quiet (done : s.char c = some t) (other : ¬ (c = 21 ∨ c = 8 ∨ c = 127)) (quiet : s.commits c = false) : t.w = s.w := by
  unfold Input.char at done
  split at done
  · rename_i accepted
    simp only at done
    obtain ⟨u,blanked,rfl⟩ := Option.map_eq_some_iff.mp done
    have same := blank_eq blanked
    rw [initBlank_eq] at same
    have stays : ¬ ((if c = 13 then 10 else c) = 10 ∨ (if c = 13 then 10 else c) = 4 ∨ u.e = u.r + 128) := by
      rw [same]
      intro ends
      have commits : s.commits c = true := by
        refine decide_eq_true ⟨other,accepted.2,?_⟩
        rcases ends with newline | eof | full
        · split at newline <;> omega
        · split at eof <;> omega
        · exact .inr (.inr (.inr full))
      rw [commits] at quiet
      cases quiet
    unfold commit
    rw [if_neg stays,same]
    rfl
  · cases done
    rfl

theorem backspace_w (done : s.backspace = some t) : t.w = s.w := by
  unfold Input.backspace at done
  simp only at done
  split_ifs at done
  all_goals
    cases done
    rfl

theorem quiet (done : s.consoleintr c = some t) (plain : Act.Plain c) (quiet : s.commits c = false) : t.w = s.w := by
  unfold Act.Plain at plain
  unfold consoleintr at done
  rw [if_neg (show ¬ c = 16 by omega)] at done
  split_ifs at done with kill back
  · cases done
    rfl
  · exact backspace_w done
  all_goals try omega
  exact char_quiet done (by omega) quiet

end Input

namespace Session

structure Kept (s : Session) : Prop where
  follows : Follows s.returned s.input s.editor
  answers : ∀ result ∈ s.results, Answer result.1 result.2
  pending : ∀ reading, s.reading = some reading → Clean reading.got ∧ reading.got.length < reading.target
  asleep : ∀ reading, s.reading = some reading → reading.awake = false → s.input.r = s.input.w

variable {s t : Session}

theorem Kept.turn (kept : s.Kept) (clean : Clean got) (short : got.length < target)
    (begun : s.returned = s.results.flatMap (fun result => render result.2) ++ got) : (s.turn target got).Kept := by
  have taken := consoleread_taken target (target - got.length) s.input got (by omega) (by omega) clean
  obtain ⟨k,behind,same⟩ := Input.consoleread_eq target (target - got.length) s.input got
  have sent := kept.follows.sent
  rw [begun,append_assoc] at sent
  unfold Session.turn
  generalize consoleread target (target - got.length) s.input got = result at taken same
  obtain ⟨next,out,done⟩ := result
  cases done with
  | true =>
    obtain ⟨answer,rest⟩ := taken
    obtain rfl : next = _ := same
    refine ⟨kept.follows.advance behind ?_,?_,fun _ none => (by cases none),fun _ none => (by cases none)⟩
    · rw [Session.returned,List.flatMap_append,List.flatMap_singleton]
      show (_ ++ render out) ++ [] ++ _ = _
      rw [append_nil,append_assoc]
      exact (congrArg _ rest).trans sent
    · intro result member
      rcases List.mem_append.mp member with old | new
      · exact kept.answers result old
      · rw [List.mem_singleton.mp new]
        exact answer
  | false =>
    obtain ⟨clean,short,none,rest⟩ := taken
    obtain rfl : next = _ := same
    refine ⟨kept.follows.advance behind ?_,kept.answers,?_,fun _ _ _ => none⟩
    · have empty : s.input.held (s.input.r + BitVec.ofNat 32 k) s.input.w = [] := by
        rw [show s.input.r + BitVec.ofNat 32 k = s.input.w from none,Input.held_self]
      rw [empty,append_nil]
      exact (congrArg _ rest).trans sent
    · intro reading held
      cases held
      exact ⟨clean,short⟩

theorem returned_key (s : Session) (f : Reading → Reading) (next : Input) (editor : Editor) (keeps : ∀ reading, (f reading).got = reading.got) :
    ({ s with input := next, reading := s.reading.map f, editor := editor } : Session).returned = s.returned := by
  unfold Session.returned
  cases s.reading with
  | none => rfl
  | some reading => exact congrArg _ (keeps reading)

theorem Kept.key (kept : s.Kept) (plain : Act.Plain c) (sparse : c = 32 → s.editor.blanks < 31) : ∃ t, Step s (.key c) t ∧ t.Kept := by
  obtain ⟨next,done,readAt,follows⟩ := kept.follows.key plain sparse
  refine ⟨_,.key done,?_,kept.answers,?_,?_⟩
  · rw [kept.follows.unread,returned_key]
    · exact follows
    · exact fun _ => rfl
  · intro reading held
    obtain ⟨before,was,rfl⟩ := Option.map_eq_some_iff.mp held
    exact kept.pending before was
  · intro reading held asleep
    obtain ⟨before,was,rfl⟩ := Option.map_eq_some_iff.mp held
    have quiet : before.awake = false ∧ s.input.commits c = false := by simpa using asleep
    rw [readAt,Input.quiet done plain quiet.2]
    exact kept.asleep before was quiet.1

theorem Kept.step (kept : s.Kept) (moved : Only Sparse Step s event t) : t.Kept := by
  obtain ⟨sparse,step⟩ := moved
  cases step with
  | key done =>
    obtain ⟨u,again,after⟩ := kept.key sparse.1 sparse.2
    cases again with
    | key same =>
      rw [done] at same
      cases same
      exact after
  | read idle some =>
    refine kept.turn Clean.nil some ?_
    rw [Session.returned,idle]
    rfl
  | wake held =>
    obtain ⟨clean,short⟩ := kept.pending _ held
    refine kept.turn clean short ?_
    rw [Session.returned,held]
    rfl

theorem Fresh.kept (fresh : s.Fresh) : s.Kept := by
  have none : s.returned = [] := by
    rw [Session.returned,fresh.results,fresh.idle]
    rfl
  refine ⟨?_,?_,?_,?_⟩
  · rw [none,fresh.editor]
    refine ⟨?_,?_,?_,?_,not_mem_nil,fun _ => ⟨rfl,rfl⟩,fun typed => ?_,Nat.zero_le _⟩
    · exact Nat.le_of_eq (by rw [fresh.empty])
    · rw [fresh.empty,fresh.read,BitVec.sub_self]
      exact Nat.zero_le _
    · rw [fresh.read,Input.held_self]
      rfl
    · rw [Input.line,fresh.empty]
      exact Input.held_self ..
    · rw [fresh.fresh] at typed
      cases typed
  · rw [fresh.results]
    exact fun _ member => absurd member not_mem_nil
  · rw [fresh.idle]
    exact fun _ held => (by cases held)
  · rw [fresh.idle]
    exact fun _ held => (by cases held)

theorem run_kept (run : Run Fresh (Only Sparse Step) events s) : s.Kept :=
  run.invariant (fun _ fresh => fresh.kept) fun _ _ _ kept moved => kept.step moved

end Session

-- What the reads have returned, with each Ctrl-D as a result of 0 bytes, and then what waits in the
-- buffer are the characters sent. A read that sleeps unwoken has nothing to read, and no key fails.
theorem line_discipline (run : Run Session.Fresh (Only Session.Sparse Session.Step) events s) :
    s.returned ++ s.unread = s.editor.sent ∧
    (∀ result ∈ s.results, Session.Answer result.1 result.2) ∧
    (∀ reading, s.reading = some reading → reading.awake = false → s.unread = []) ∧
    ∀ c, s.Sparse (.key c) → ∃ t, Session.Step s (.key c) t := by
  have kept := Session.run_kept run
  refine ⟨kept.follows.sent,kept.answers,fun reading held asleep => ?_,fun c sparse => ?_⟩
  · rw [Session.unread,kept.asleep reading held asleep]
    exact Input.held_self ..
  · obtain ⟨t,step,-⟩ := kept.key sparse.1 sparse.2
    exact ⟨t,step⟩

theorem line_discipline_a : ∃ s, Run Session.Fresh (Only Session.Sparse Session.Step) [.read 5,.key 10,.key 97] s ∧
    s.results = [(5,[97,10])] ∧ s.returned ++ s.unread = s.editor.sent := by
  have start : Session.Fresh ⟨boot,none,[],⟨[],[],0⟩⟩ := ⟨rfl,rfl,rfl,rfl,rfl,rfl⟩
  have run : ∃ s, Run Session.Fresh (Only Session.Sparse Session.Step) [.read 5,.key 10,.key 97] s ∧ s.results = [(5,[97,10])] :=
    ⟨_,.step (.step (.step (.start start) ⟨⟨.inl (by decide),by decide⟩,.key rfl⟩) ⟨⟨.inr (.inl rfl),by decide⟩,.key rfl⟩) ⟨trivial,.read rfl (by decide)⟩,rfl⟩
  obtain ⟨s,run,results⟩ := run
  exact ⟨s,run,results,(line_discipline run).1⟩

end Xv6.Console
