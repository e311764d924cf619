import Xv6.Console.Order

namespace Xv6.Console
open Function (update update_of_ne update_self)
open Runs

-- The stack of blanks and the beginning of the word to complete.

namespace Input
variable (s : Input)

def Plain : Prop := s.firstInput = true ∨ s.blankLen = 1

-- The keys besides room. Backspace comes on a line that has been typed in, Ctrl-U and the arrows
-- where no blank is on the stack, and Tab where the buffer is not full.
def Tidy (s : Input) : Event → Prop
  | .key c =>
    s.Fits (.key c) ∧
    if c = 21 then s.Plain
    else if c = 8 ∨ c = 127 then s.e ≠ s.w → s.firstInput = false
    else if c = 9 then s.programStatus = .shell → s.off s.e < inputBuf
    else if c = 226 ∨ c = 227 then s.programStatus = .shell → s.Plain
    else if c = 32 then s.firstInput = true ∨ s.blankLen < 32
    else True
  | _ => True

-- The places on the stack go up from the beginning of the line to its end, and the word begins
-- at the last of them, or at the beginning of the line, or is not known.
structure Stacked (w e : Word) (blanks : Nat → Word) (blankLen : Nat) : Prop where
  some : 0 < blankLen
  few : blankLen ≤ 32
  bottom : blanks 0 = w
  upward : ∀ i, i+1 < blankLen → (blanks i - w).toNat < (blanks (i+1) - w).toNat
  top : (blanks (blankLen-1) - w).toNat ≤ (e - w).toNat

structure Booked : Prop where
  kept : s.Kept
  fresh : s.firstInput = true → s.tabLoc = -1 ∨ s.tabLoc = s.w
  stack : s.firstInput = false → Stacked s.w s.e s.blanks s.blankLen
  word : s.firstInput = false → s.tabLoc = -1 ∨ s.tabLoc = s.w ∨ s.tabLoc = s.blanks (s.blankLen-1)
  cycle : s.constantTab ≠ -1 → s.firstInput = false ∧ (s.blanks (s.blankLen-1) - s.w).toNat ≤ (s.lastTabLoc - s.w).toNat

end Input

namespace Input
variable {s t : Input} {w e : Word} {blanks : Nat → Word} {blankLen : Nat}

theorem Stacked.single (bottom : blanks 0 = w) : Stacked w e blanks 1 := by
  refine ⟨by omega,by omega,bottom,fun i inside => absurd inside (by omega),?_⟩
  rw [bottom]
  bv_omega

section
variable (stack : Stacked w e blanks blankLen)
include stack

theorem Stacked.longer (longer : (e - w).toNat ≤ (x - w).toNat) : Stacked w x blanks blankLen :=
  ⟨stack.some,stack.few,stack.bottom,stack.upward,Nat.le_trans stack.top longer⟩

theorem Stacked.push (room : blankLen < 32) (fits : (e - w).toNat < 4294967295) :
    Stacked w (e+1) (update blanks blankLen (e+1)) (blankLen+1) := by
  have some := stack.some
  refine ⟨by omega,by omega,?_,fun i inside => ?_,?_⟩
  · rw [update_of_ne (by omega)]
    exact stack.bottom
  · rw [update_of_ne (show i ≠ blankLen by omega)]
    by_cases last : i+1 = blankLen
    · subst last
      rw [update_self]
      have top := stack.top
      rw [Nat.add_sub_cancel] at top
      bv_omega
    · rw [update_of_ne last]
      exact stack.upward i (by omega)
  · exact Nat.le_of_eq (by rw [Nat.add_sub_cancel,update_self])

theorem Stacked.pop (here : e = blanks (blankLen-1)) (more : e ≠ w) :
    1 < blankLen ∧ Stacked w (e-1) (update blanks (blankLen-1) 0) (blankLen-1) := by
  have several : 1 < blankLen := by
    rcases Nat.lt_or_eq_of_le stack.some with many | one
    · exact many
    · rw [← one] at here
      exact absurd (here.trans stack.bottom) more
  refine ⟨several,by omega,Nat.le_trans (Nat.sub_le _ _) stack.few,?_,fun i inside => ?_,?_⟩
  · rw [update_of_ne (by omega)]
    exact stack.bottom
  · rw [update_of_ne (by omega),update_of_ne (by omega)]
    exact stack.upward i (by omega)
  · rw [update_of_ne (by omega)]
    have below := stack.upward (blankLen-2) (by omega)
    rw [show blankLen-2+1 = blankLen-1 by omega,← here] at below
    rw [show blankLen-1-1 = blankLen-2 by omega]
    bv_omega

theorem Stacked.shorter (other : e ≠ blanks (blankLen-1)) (more : e ≠ w) : Stacked w (e-1) blanks blankLen := by
  refine ⟨stack.some,stack.few,stack.bottom,stack.upward,?_⟩
  have top := stack.top
  bv_omega

end

section
variable (booked : s.Booked)
include booked

theorem Booked.backspace (typed : s.e ≠ s.w → s.firstInput = false) : ∃ t, s.backspace = some t ∧ t.Booked := by
  have kept : ∀ t, s.backspace = some t → t.Kept := fun t done => booked.kept.backspace done
  unfold Input.backspace at *
  simp only at *
  by_cases more : s.e ≠ s.w
  · have stack := booked.stack (typed more)
    rw [if_pos more,if_neg (by have some := stack.some; have few := stack.few; omega)] at *
    by_cases here : s.e = s.blanks (s.blankLen-1)
    · obtain ⟨several,popped⟩ := stack.pop here more
      rw [if_pos here,if_neg (by omega)] at *
      refine ⟨_,rfl,kept _ rfl,fun fresh => ?_,fun _ => popped,fun _ => .inr (.inr ?_),fun other => absurd rfl other⟩
      · rw [typed more] at fresh
        cases fresh
      · show s.blanks (s.blankLen-2) = update s.blanks (s.blankLen-1) 0 (s.blankLen-1-1)
        rw [update_of_ne (by omega)]
        rfl
    · rw [if_neg here] at *
      exact ⟨_,rfl,kept _ rfl,booked.fresh,fun _ => stack.shorter here more,booked.word,fun other => absurd rfl other⟩
  · rw [if_neg more] at *
    exact ⟨_,rfl,kept _ rfl,booked.fresh,booked.stack,booked.word,fun other => absurd rfl other⟩

theorem Booked.command (ended : s.constantTab = -1) (room : s.Room cs.length) : (s.command cs).Booked := by
  have kept := booked.kept.command ended room
  unfold Input.command at *
  simp only at *
  rw [insert_eq] at *
  exact ⟨kept,fun _ => .inr rfl,fun typed => (by cases typed),fun typed => (by cases typed),fun other => absurd ended other⟩

theorem Booked.insert (room : s.Room cs.length) : (s.insert cs).Booked := by
  have kept := booked.kept.insert room
  have line := booked.kept.1
  rw [insert_eq] at *
  refine ⟨kept,booked.fresh,fun typed => (booked.stack typed).longer ?_,booked.word,booked.cycle⟩
  unfold Room off inputBuf at *
  bv_omega

theorem Booked.replaced (plain : s.Plain) (kept : t.Kept) (ended : t.constantTab = -1) (w : t.w = s.w) (tabLoc : t.tabLoc = s.tabLoc)
    (blanks : t.blanks = s.blanks) (blankLen : t.blankLen = s.blankLen) (firstInput : t.firstInput = s.firstInput) : t.Booked := by
  refine ⟨kept,fun fresh => ?_,fun typed => ?_,fun typed => ?_,fun other => absurd ended other⟩
  · rw [tabLoc,w]
    exact booked.fresh (firstInput ▸ fresh)
  · rw [firstInput] at typed
    have one : s.blankLen = 1 := plain.resolve_left fun fresh => by rw [fresh] at typed; cases typed
    rw [w,blanks,blankLen,one]
    exact .single (booked.stack typed).bottom
  · rw [tabLoc,w,blanks,blankLen]
    exact booked.word (firstInput ▸ typed)

theorem Booked.killLine (plain : s.Plain) (ended : s.constantTab = -1) : s.killLine.Booked :=
  booked.replaced plain (booked.kept.killLine ended) ended rfl rfl rfl rfl rfl

section
variable (plain : s.Plain) (room : ∀ i, s.off s.w + (s.hs.history i).chars.length ≤ inputBuf)
include plain room

theorem Booked.up : s.up.Booked := by
  have kept := booked.kept.up room
  unfold Input.up Input.recalled at *
  simp only at *
  split at kept
  · rename_i first
    rw [if_pos first]
    rw [insert_eq] at *
    exact booked.replaced plain kept rfl rfl rfl rfl rfl rfl
  · rename_i later
    rw [if_neg later]
    rw [insert_eq] at *
    exact booked.replaced plain kept rfl rfl rfl rfl rfl rfl

theorem Booked.down : s.down.Booked := by
  have kept := booked.kept.down room
  unfold Input.down Input.recalled at *
  simp only at *
  split at kept
  · rename_i last
    rw [if_pos last]
    exact booked.replaced plain kept rfl rfl rfl rfl rfl rfl
  · rename_i before
    rw [if_neg before]
    rw [insert_eq] at *
    exact booked.replaced plain kept rfl rfl rfl rfl rfl rfl

end

theorem Booked.initBlank : Stacked s.w s.e s.initBlank.blanks s.initBlank.blankLen ∧
    (s.tabLoc = -1 ∨ s.tabLoc = s.w ∨ s.tabLoc = s.initBlank.blanks (s.initBlank.blankLen-1)) := by
  unfold Input.initBlank
  split
  · rename_i fresh
    exact ⟨.single rfl,(booked.fresh fresh).imp_right .inl⟩
  · rename_i typed
    rw [Bool.not_eq_true] at typed
    exact ⟨booked.stack typed,booked.word typed⟩

theorem Booked.top : (s.initBlank.blanks (s.initBlank.blankLen-1) - s.w).toNat ≤ (s.base - s.w).toNat := by
  unfold base
  split
  · exact booked.initBlank.1.top
  · rename_i other
    obtain ⟨typed,below⟩ := booked.cycle other
    rw [Input.initBlank,typed]
    exact below

end

theorem checkPrefix_defined (inside : (s.e - s.tabLoc).toNat < inputBuf) : ∃ t, s.checkPrefix = some t := by
  unfold checkPrefix
  rw [if_neg (by omega)]
  split
  · exact ⟨_,rfl⟩
  split
  · exact ⟨_,rfl⟩
  · split
    · exact ⟨_,rfl⟩
    · exact ⟨_,rfl⟩

section
variable (booked : s.Booked) (cycle : s.tabLoc = -1 → s.constantTab = -1)
include booked cycle

theorem Booked.ready (tab : Int) : { s.ready with constantTab := tab }.Booked := by
  obtain ⟨stack,word⟩ := booked.initBlank
  obtain ⟨low,high⟩ := booked.kept.base
  have top := booked.top
  rw [ready_eq cycle,initBlank_eq]
  refine ⟨⟨⟨low,Nat.le_trans high booked.kept.1.2⟩,fun _ => ⟨low,.refl⟩⟩,fun fresh => (by cases fresh),
    fun _ => ⟨stack.some,stack.few,stack.bottom,stack.upward,top⟩,fun _ => ?_,fun _ => ⟨rfl,top⟩⟩
  split
  · exact .inr (.inl rfl)
  · exact word

theorem Booked.ready_inside (free : s.off s.e < inputBuf) :
    (s.ready.e - s.ready.tabLoc).toNat < inputBuf := by
  obtain ⟨-,word⟩ := booked.initBlank
  obtain ⟨low,high⟩ := booked.kept.base
  have top := booked.top
  rw [ready_eq cycle]
  unfold off inputBuf at *
  split
  · bv_omega
  rename_i set
  rcases word with unset | begin | last
  · exact absurd unset set
  · rw [begin]
    bv_omega
  · rw [last]
    bv_omega

theorem Booked.tab (room : ∀ i < s.ec.len, s.off s.base + (s.ec.commands i).chars.length ≤ inputBuf) (free : s.off s.e < inputBuf) :
    ∃ t, s.tab = some t ∧ t.Booked := by
  rw [tab_ready]
  obtain ⟨t,done⟩ := checkPrefix_defined (booked.ready_inside cycle free)
  refine ⟨t,done,?_⟩
  have ready := booked.ready cycle
  rcases checkPrefix_cases done with ⟨i,inside,-,rfl⟩ | rfl
  · refine (ready i).insert ?_
    have same := ready_eq cycle
    rw [initBlank_eq] at same
    rw [same] at inside ⊢
    have fits := room i inside
    have shorter : ∀ k, ((s.ec.commands i).chars.drop k).length ≤ (s.ec.commands i).chars.length := fun k => by
      rw [List.length_drop]
      omega
    exact Nat.le_trans (Nat.add_le_add_left (shorter _) _) fits
  · exact ready 0

end

theorem Booked.commit (booked : s.Booked) (ended : s.constantTab = -1) : (s.commit c).Booked := by
  rcases commit_cases s c with stays | ends
  · rw [stays]
    exact booked
  · rw [ends]
    exact ⟨ended ▸ KeptAt.commit booked.kept,fun _ => .inr rfl,fun typed => (by cases typed),fun typed => (by cases typed),fun other => absurd ended other⟩

theorem Booked.char (booked : s.Booked) (room : c = 32 → s.firstInput = true ∨ s.blankLen < 32) : ∃ t, s.char c = some t ∧ t.Booked := by
  unfold Input.char
  split
  · rename_i accepted
    obtain ⟨stack,word⟩ := booked.initBlank
    have line := booked.kept.1
    have typed : KeptAt s.r s.w (s.e+1) s.lastTabLoc (-1) := KeptAt.add (KeptAt.ended line.1 line.2) accepted.2
    have longer : (s.e - s.w).toNat ≤ (s.e+1 - s.w).toNat ∧ (s.e - s.w).toNat < 4294967295 := by
      obtain ⟨-,free⟩ := accepted
      unfold inputBuf at *
      bv_omega
    rw [initBlank_eq]
    simp only
    generalize byte : (if c = 13 then 10 else c) = d
    unfold blank
    split
    · rename_i space
      have few : s.initBlank.blankLen < 32 := by
        have typed : c = 32 := by
          split at byte <;> omega
        unfold Input.initBlank
        split
        · show 1 < 32
          omega
        · rename_i old
          exact (room typed).resolve_left old
      split
      · refine ⟨_,rfl,Booked.commit ⟨typed,fun fresh => (by cases fresh),fun _ => stack.push few longer.2,fun _ => .inr (.inr ?_),
          fun other => absurd rfl other⟩ rfl⟩
        simp [Input.put]
      · rename_i full
        exact absurd few full
    · exact ⟨_,rfl,Booked.commit ⟨typed,fun fresh => (by cases fresh),fun _ => stack.longer longer.1,fun _ => word,fun other => absurd rfl other⟩ rfl⟩
  · exact ⟨s,rfl,booked⟩

theorem Booked.key (booked : s.Booked) (tidy : s.Tidy (.key c)) : ∃ t, s.consoleintr c = some t ∧ t.Booked := by
  obtain ⟨fits,tidy⟩ := tidy
  have acts := consoleintr_acts fits
  generalize s.consoleintr c = result at acts
  cases acts with
  | stays => exact ⟨s,rfl,booked⟩
  | kill is =>
    subst is
    exact ⟨_,rfl,booked.killLine (by simpa using tidy) (by simpa [Fits] using fits)⟩
  | back is =>
    refine booked.backspace ?_
    rw [if_neg (by omega),if_pos is] at tidy
    exact tidy
  | command ended room => exact ⟨_,rfl,booked.command ended room⟩
  | insert room => exact ⟨_,rfl,booked.insert room⟩
  | tab is shell =>
    subst is
    exact booked.tab (fits_tab fits shell).1 (fits_tab fits shell).2 (by simpa [shell] using tidy)
  | up is shell =>
    subst is
    exact ⟨_,rfl,booked.up (by simpa [shell] using tidy) (by simpa [Fits,shell] using fits)⟩
  | down is shell =>
    subst is
    exact ⟨_,rfl,booked.down (by simpa [shell] using tidy) (by simpa [Fits,shell] using fits)⟩
  | char =>
    refine booked.char fun space => ?_
    subst space
    simpa using tidy

theorem Booked.step (booked : s.Booked) (tidy : s.Tidy event) : ∃ t, perform s event = some t ∧ t.Booked := by
  cases event with
  | key c => exact booked.key tidy
  | read target n =>
    obtain ⟨k,low,same⟩ := consoleread_eq target n s []
    refine ⟨_,rfl,?_⟩
    rw [same]
    exact ⟨KeptAt.advance booked.kept low,booked.fresh,booked.stack,booked.word,booked.cycle⟩
  | status p => exact ⟨_,rfl,booked.kept,booked.fresh,booked.stack,booked.word,booked.cycle⟩
  | setHistory hs => exact ⟨_,rfl,booked.kept,booked.fresh,booked.stack,booked.word,booked.cycle⟩
  | setExeCmd ec => exact ⟨_,rfl,booked.kept,fun _ => .inl rfl,booked.stack,fun _ => .inl rfl,booked.cycle⟩

theorem boot_booked : boot.Booked :=
  ⟨boot_kept,fun _ => .inl rfl,fun typed => (by cases typed),fun typed => (by cases typed),fun other => absurd rfl other⟩

theorem run_booked (run : Run (· = boot) (Only Tidy Step) events s) : s.Booked := by
  refine run.invariant (fun s start => start ▸ boot_booked) fun s event next booked moved => ?_
  obtain ⟨t,done,after⟩ := booked.step moved.1
  obtain rfl : t = next := Option.some.inj (done.symm.trans moved.2)
  exact after

end Input

-- Every entry blanks[blank_len-1] that a key reads or writes has an index in [0,32), and checkPrefix
-- is called with 0 ≤ input.e - tab_loc < INPUT_BUF.
def InBounds (s : Input) : Event → Prop
  | .key c =>
    (c = 8 ∨ c = 127 → s.e ≠ s.w → 1 ≤ s.blankLen ∧ s.blankLen ≤ 32 ∧ (s.e = s.blanks (s.blankLen-1) → 2 ≤ s.blankLen)) ∧
    (c = 32 → s.off s.e < inputBuf → s.initBlank.blankLen < 32) ∧
    (c = 9 → s.programStatus = .shell → (s.ready.e - s.ready.tabLoc).toNat < inputBuf)
  | _ => True

namespace Input
variable {s t : Input}

theorem backspace_none : s.backspace = none ↔
    ¬ (s.e ≠ s.w → 1 ≤ s.blankLen ∧ s.blankLen ≤ 32 ∧ (s.e = s.blanks (s.blankLen-1) → 2 ≤ s.blankLen)) := by
  unfold Input.backspace
  simp only
  split_ifs with h1 h2 h3 h4
  · simp only [true_iff]
    intro inside
    have some := inside h1
    omega
  · simp only [true_iff]
    intro inside
    have two := (inside h1).2.2 h3
    omega
  · simp only [false_iff,not_not]
    intro _
    omega
  · simp only [false_iff,not_not]
    exact fun _ => ⟨by omega,by omega,fun same => absurd same h3⟩
  · simp only [false_iff,not_not]
    exact fun more => absurd more h1

theorem checkPrefix_none : s.checkPrefix = none ↔ ¬ (s.e - s.tabLoc).toNat < inputBuf := by
  unfold checkPrefix
  split_ifs with h1 h2
  · simpa using h1
  · split <;> simpa using h1
  · split
    · simpa using h1
    · split <;> simpa using h1

theorem char_none : s.char c = none ↔ ¬ (c = 32 → s.off s.e < inputBuf → s.initBlank.blankLen < 32) := by
  unfold Input.char blank
  split
  · rename_i accepted
    by_cases space : c = 32
    · subst space
      have free : s.off s.e < inputBuf := accepted.2
      simp [Input.put,free]
    · have other : (if c = 13 then 10 else c) ≠ 32 := by split <;> omega
      simp [space,other]
  · rename_i refused
    simp only [reduceCtorEq,false_iff,not_not]
    intro space free
    exact absurd ⟨by omega,free⟩ refused

theorem tabKey_none : s.tabKey = none ↔ ¬ (s.programStatus = .shell → (s.ready.e - s.ready.tabLoc).toNat < inputBuf) := by
  unfold Input.tabKey
  cases status : s.programStatus with
  | shell =>
    simp only [tab_ready,checkPrefix_none,true_implies]
  | cat | editor | other => simp

end Input

theorem perform_none : perform s event = none ↔ ¬ InBounds s event := by
  cases event with
  | key c =>
    show s.consoleintr c = none ↔ _
    unfold Input.consoleintr InBounds
    split_ifs with h1 h2 h3 h4 h5 h6 h7 h8 h9
    · simp [h1]
    · simp [h2]
    · rw [Input.backspace_none]
      have others : c ≠ 32 ∧ c ≠ 9 := by omega
      simp [h3,others]
    · simp [h4]
    · simp [h5]
    · rw [Input.tabKey_none]
      simp [h6]
    · simp [h7]
    · simp [h8]
    · rcases h9 with h9 | h9 <;> simp [h9]
    · rw [Input.char_none]
      simp [h3,h6]
  | read target n => simp [perform,InBounds]
  | status p => simp [perform,InBounds]
  | setHistory hs => simp [perform,InBounds]
  | setExeCmd ec => simp [perform,InBounds]

theorem bookkeeping_in_bounds (run : Run (· = boot) (Only Input.Tidy Step) events s) (tidy : s.Tidy event) : InBounds s event := by
  obtain ⟨t,done,-⟩ := (Input.run_booked run).step tidy
  by_contra outside
  rw [perform_none.mpr outside] at done
  cases done

theorem in_bounds_after_blank : ∃ s, Run (· = boot) (Only Input.Tidy Step) [.key 32] s ∧ InBounds s (.key 8) := by
  have typed : ∃ s, Only Input.Tidy Step boot (.key 32) s ∧ s.Tidy (.key 8) := by
    refine ⟨_,⟨⟨by simp [Input.Fits],by simp [boot]⟩,rfl⟩,by simp [Input.Fits],?_⟩
    simp only [show (8 : Nat) ≠ 21 by decide,if_false,true_or,if_true]
    exact fun _ => rfl
  obtain ⟨s,moved,tidy⟩ := typed
  have run : Run (· = boot) (Only Input.Tidy Step) [.key 32] s := .step (.start rfl) moved
  exact ⟨s,run,bookkeeping_in_bounds run tidy⟩

-- Up and Backspace look at blanks[-1] after boot; Ctrl-U leaves the word of a blank behind the end
-- of the line, and Tab writes buffer[-2].
theorem bookkeeping_out_of_bounds :
    (∃ s, Run (· = boot) Step [.key 226,.setHistory oneCommand] s ∧ ¬ InBounds s (.key 8)) ∧
    ∃ s, Run (· = boot) Step [.key 21,.key 98,.key 32,.key 97] s ∧ ¬ InBounds s (.key 9) := by
  have up : (follow [.key 226,.setHistory oneCommand]).map (fun s => (perform s (.key 8)).isNone) = some true := by decide +kernel
  have kill : (follow [.key 21,.key 98,.key 32,.key 97]).map (fun s => (perform s (.key 9)).isNone) = some true := by decide +kernel
  obtain ⟨s,reached,none⟩ := Option.map_eq_some_iff.mp up
  obtain ⟨t,arrived,none'⟩ := Option.map_eq_some_iff.mp kill
  exact ⟨⟨s,follow_run reached,perform_none.mp (Option.isNone_iff_eq_none.mp none)⟩,t,follow_run arrived,
    perform_none.mp (Option.isNone_iff_eq_none.mp none')⟩

end Xv6.Console
