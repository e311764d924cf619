import Xv6.Lib.Runs
import Xv6.Console.Input

namespace Xv6.Console
open Runs

-- The counters of the input buffer over any sequence of keys, reads and settings.

inductive Event where
  | key (c : Nat)
  | read (target n : Nat)
  | status (p : Status)
  | setHistory (hs : History)
  | setExeCmd (ec : Commands)

def perform (s : Input) : Event → Option Input
  | .key c => s.consoleintr c
  | .read target n => some (consoleread target n s []).1
  | .status p => some { s with programStatus := p }
  | .setHistory hs => some { s with hs := hs, first := true }
  | .setExeCmd ec => some { s with ec := ec, tabLoc := -1 }

def Step (s : Input) (event : Event) (next : Input) : Prop := perform s event = some next

def boot : Input where
  lock := fun _ => 0
  buf := fun _ => 0
  r := 0
  w := 0
  e := 0
  tabLoc := -1
  constantTab := -1
  lastTabLoc := -1
  blanks := fun _ => 0
  blankLen := 0
  firstInput := true
  first := false
  hs := ⟨0,0,0,fun _ => ⟨[],by decide,List.not_mem_nil⟩⟩
  ec := ⟨0,by decide,fun _ => ⟨[],by decide,List.not_mem_nil⟩⟩
  programStatus := .shell

namespace Input
variable (s : Input)

def off (x : Word) : Nat := (x - s.r).toNat

def Ordered : Prop := s.off s.w ≤ s.off s.e ∧ s.off s.e ≤ inputBuf

-- The turns that the erase loop of a key makes.
def erasures (c : Nat) : Nat :=
  if c = 21 then (s.e - s.killLine.e).toNat
  else if c = 226 ∨ c = 227 then if s.programStatus = .shell then (s.e - s.w).toNat else 0
  else if c = 9 ∧ s.programStatus = .shell ∧ s.constantTab ≠ -1 then (s.e - if s.tabLoc = -1 then 0 else s.lastTabLoc).toNat
  else 0

def base : Word := if s.constantTab = -1 then s.e else s.lastTabLoc

def Room (n : Nat) : Prop := s.off s.e + n ≤ inputBuf

-- A key that puts in a text needs room for it. Ctrl-U, ESC and Ctrl-S come between two Tabs only
-- where the first is over (constant_tab = -1), setExeCmd before a Tab likewise.
def Fits (s : Input) : Event → Prop
  | .key c =>
    if c = 21 then s.constantTab = -1
    else if c = 27 then
      match s.programStatus with
      | .shell | .cat => s.constantTab = -1 ∧ s.Room 4
      | .editor => s.constantTab = -1 ∧ s.Room 5
      | .other => True
    else if c = 19 then s.programStatus = .editor → s.constantTab = -1 ∧ s.Room 5
    else if c = 9 then
      match s.programStatus with
      | .shell => (s.tabLoc = -1 → s.constantTab = -1) ∧
          ∀ i < s.ec.len, s.off s.base + (s.ec.commands i).chars.length ≤ inputBuf
      | .cat | .editor => s.Room 4
      | .other => True
    else if c = 226 ∨ c = 227 then s.programStatus = .shell → ∀ i, s.off s.w + (s.hs.history i).chars.length ≤ inputBuf
    else True
  | _ => True

-- While Tab is being pressed, the completion began inside the line.
def KeptAt (r w e lastTabLoc : Word) (constantTab : Int) : Prop :=
  ((w - r).toNat ≤ (e - r).toNat ∧ (e - r).toNat ≤ inputBuf) ∧
  (constantTab ≠ -1 → (w - r).toNat ≤ (lastTabLoc - r).toNat ∧ (lastTabLoc - r).toNat ≤ (e - r).toNat)

def Kept : Prop := KeptAt s.r s.w s.e s.lastTabLoc s.constantTab

end Input

namespace Input
variable {s : Input}

theorem put_eq (s : Input) (c : UInt8) : s.put c = { s with buf := (s.put c).buf, e := s.e+1 } := rfl

theorem insert_eq (s : Input) (cs : List UInt8) : s.insert cs = { s with buf := (s.insert cs).buf, e := s.e + BitVec.ofNat 32 cs.length } := by
  induction cs generalizing s with
  | nil =>
    show s = { s with e := s.e + 0#32 }
    rw [BitVec.add_zero]
  | cons c cs ih =>
    show (s.put c).insert cs = { s with buf := ((s.put c).insert cs).buf, e := s.e + BitVec.ofNat 32 (cs.length+1) }
    rw [ih,put_eq]
    have place : s.e + 1 + BitVec.ofNat 32 cs.length = s.e + BitVec.ofNat 32 (cs.length+1) := by
      rw [BitVec.add_assoc,Nat.add_comm,BitVec.ofNat_add]
      rfl
    simp only [place]

variable {r w e last : Word} {pos : Int}

theorem KeptAt.ended (line : (w - r).toNat ≤ (e - r).toNat) (full : (e - r).toNat ≤ inputBuf) : KeptAt r w e last (-1) :=
  ⟨⟨line,full⟩,fun other => absurd rfl other⟩

theorem KeptAt.add (kept : KeptAt r w e last pos) (room : (e - r).toNat + n ≤ inputBuf) : KeptAt r w (e + BitVec.ofNat 32 n) last pos := by
  obtain ⟨⟨line,full⟩,cycle⟩ := kept
  unfold inputBuf at *
  refine ⟨⟨by bv_omega,by unfold inputBuf; bv_omega⟩,fun other => ?_⟩
  obtain ⟨low,high⟩ := cycle other
  exact ⟨low,by bv_omega⟩

theorem KeptAt.cut (kept : KeptAt r w e last pos) (low : (w - r).toNat ≤ (x - r).toNat) (high : (x - r).toNat ≤ (e - r).toNat) : KeptAt r w x last (-1) :=
  .ended low (Nat.le_trans high kept.1.2)

theorem KeptAt.commit (kept : KeptAt r w e last pos) : KeptAt r e e last (-1) := .ended .refl kept.1.2

theorem killFrom_between (buf : Nat → UInt8) (w : Word) : ∀ n (e : Word), n ≤ (e - w).toNat →
    (killFrom buf w n e - w).toNat ≤ (e - w).toNat ∧ (e - killFrom buf w n e).toNat ≤ n := by
  intro n
  induction n with
  | zero =>
    intro e _
    rw [killFrom]
    exact ⟨.refl,by bv_omega⟩
  | succ n ih =>
    intro e low
    rw [killFrom]
    split
    · rename_i more
      have step := ih (e-1) (by bv_omega)
      generalize killFrom buf w n (e-1) = x at step
      bv_omega
    · exact ⟨.refl,by bv_omega⟩

theorem Kept.killLine (kept : s.Kept) (ended : s.constantTab = -1) : s.killLine.Kept := by
  obtain ⟨low,-⟩ := killFrom_between s.buf s.w _ s.e .refl
  show KeptAt s.r s.w (killFrom s.buf s.w (s.e - s.w).toNat s.e) s.lastTabLoc s.constantTab
  rw [ended]
  generalize killFrom s.buf s.w (s.e - s.w).toNat s.e = x at low
  obtain ⟨⟨line,full⟩,-⟩ := kept
  unfold inputBuf at full
  refine .ended (by bv_omega) (by unfold inputBuf; bv_omega)

theorem Kept.erase (kept : s.Kept) (more : s.e ≠ s.w) : KeptAt s.r s.w (s.e-1) s.lastTabLoc (-1) := by
  obtain ⟨⟨line,full⟩,-⟩ := kept
  unfold inputBuf at full
  refine .ended (by bv_omega) (by unfold inputBuf; bv_omega)

theorem Kept.backspace (kept : s.Kept) (done : s.backspace = some t) : t.Kept := by
  unfold Input.backspace at done
  simp only at done
  split at done
  · rename_i more
    split at done
    · cases done
    split at done
    · split at done
      · cases done
      · cases done
        exact kept.erase more
    · cases done
      exact kept.erase more
  · cases done
    exact .ended kept.1.1 kept.1.2

theorem Kept.command (kept : s.Kept) (ended : s.constantTab = -1) (room : s.Room cs.length) : (s.command cs).Kept := by
  have begun : KeptAt s.r s.e s.e s.lastTabLoc s.constantTab := ended ▸ kept.commit
  unfold Input.command
  simp only
  rw [insert_eq]
  have after := (begun.add room).commit
  rw [ended]
  exact after

theorem Kept.insert (kept : s.Kept) (room : s.Room cs.length) : (s.insert cs).Kept := by
  rw [insert_eq]
  exact KeptAt.add kept room

theorem initBlank_eq (s : Input) : s.initBlank = { s with firstInput := false, blankLen := s.initBlank.blankLen, blanks := s.initBlank.blanks } := by
  unfold initBlank
  split
  · rfl
  · rename_i typed
    rw [Bool.not_eq_true] at typed
    rw [← typed]

theorem search_some {ec : Commands} (found : search ec p k = some i) : k ≤ i ∧ i < ec.len ∧ p.isPrefixOf (ec.commands i).chars = true := by
  have member := List.mem_range'_1.mp (List.mem_of_find?_eq_some found)
  have holds := List.find?_some found
  exact ⟨member.1,by omega,holds⟩

theorem checkPrefix_cases (done : s.checkPrefix = some t) :
    (∃ i, i < s.ec.len ∧ s.typed.isPrefixOf (s.ec.commands i).chars = true ∧ t = s.complete i) ∨ t = { s with constantTab := 0 } := by
  unfold checkPrefix at done
  split at done
  · cases done
  split at done
  · rename_i i found
    cases done
    exact .inl ⟨i,(search_some found).2.1,(search_some found).2.2,rfl⟩
  split at done
  · cases done
    exact .inr rfl
  split at done
  · rename_i i found
    cases done
    exact .inl ⟨i,(search_some found).2.1,(search_some found).2.2,rfl⟩
  · cases done
    exact .inr rfl

theorem checkPrefix_kept (line : (s.w - s.r).toNat ≤ (s.e - s.r).toNat) (last : s.lastTabLoc = s.e)
    (full : (s.e - s.r).toNat ≤ inputBuf) (room : ∀ i < s.ec.len, (s.e - s.r).toNat + (s.ec.commands i).chars.length ≤ inputBuf)
    (done : s.checkPrefix = some t) : t.Kept := by
  have kept : ∀ tab, KeptAt s.r s.w s.e s.lastTabLoc tab := fun tab => ⟨⟨line,full⟩,fun _ => by rw [last]; exact ⟨line,.refl⟩⟩
  rcases checkPrefix_cases done with ⟨i,inside,-,rfl⟩ | rfl
  · refine Kept.insert (kept i) ?_
    have fits := room i inside
    have shorter := List.length_drop (i := s.typed.length) (l := (s.ec.commands i).chars)
    show (s.e - s.r).toNat + _ ≤ inputBuf
    omega
  · exact kept 0

def ready (s : Input) : Input :=
  let s := s.initBlank
  let s := if s.tabLoc = -1 then { s with tabLoc := s.w, lastTabLoc := 0 } else s
  if s.constantTab ≠ -1 then { s with e := s.lastTabLoc } else { s with lastTabLoc := s.e }

theorem tab_ready (s : Input) : s.tab = s.ready.checkPrefix := rfl

theorem ready_eq (cycle : s.tabLoc = -1 → s.constantTab = -1) :
    s.ready = { s.initBlank with tabLoc := if s.tabLoc = -1 then s.w else s.tabLoc, e := s.base, lastTabLoc := s.base } := by
  unfold ready base
  rw [initBlank_eq]
  by_cases ended : s.constantTab = -1
  · by_cases unset : s.tabLoc = -1
    · simp only [if_pos unset,ended,ne_eq,not_true_eq_false,if_false,if_true]
    · simp only [if_neg unset,ended,ne_eq,not_true_eq_false,if_false,if_true]
  · have set : ¬ s.tabLoc = -1 := fun unset => ended (cycle unset)
    simp only [if_neg set,ne_eq,ended,not_false_eq_true,if_true,if_false]

theorem Kept.base (kept : s.Kept) : (s.w - s.r).toNat ≤ (s.base - s.r).toNat ∧ (s.base - s.r).toNat ≤ (s.e - s.r).toNat := by
  unfold Input.base
  split
  · exact ⟨kept.1.1,.refl⟩
  · rename_i other
    exact kept.2 other

theorem Kept.tab (kept : s.Kept) (cycle : s.tabLoc = -1 → s.constantTab = -1)
    (room : ∀ i < s.ec.len, s.off s.base + (s.ec.commands i).chars.length ≤ inputBuf) (done : s.tab = some t) : t.Kept := by
  rw [tab_ready,ready_eq cycle,initBlank_eq] at done
  exact checkPrefix_kept kept.base.1 rfl (Nat.le_trans kept.base.2 kept.1.2) room done

theorem Kept.recalled (kept : s.Kept) (room : s.off s.w + (s.hs.history i).chars.length ≤ inputBuf) :
    ({ s with constantTab := -1, e := s.w }.recalled i).Kept := by
  have full := kept.1
  have cut : KeptAt s.r s.w s.w s.lastTabLoc (-1) := kept.cut .refl full.1
  exact Kept.insert cut room

section
variable (kept : s.Kept) (room : ∀ i, s.off s.w + (s.hs.history i).chars.length ≤ inputBuf)
include kept room

theorem Kept.up : s.up.Kept := by
  unfold Input.up
  simp only
  split
  · exact kept.recalled (room _)
  · exact kept.recalled (room _)

theorem Kept.down : s.down.Kept := by
  unfold Input.down
  simp only
  split
  · exact kept.cut .refl kept.1.1
  · exact kept.recalled (room _)

end

theorem blank_eq (done : s.blank c = some t) : t = { s with blankLen := t.blankLen, blanks := t.blanks, tabLoc := t.tabLoc } := by
  unfold blank at done
  split at done
  · split at done
    · cases done
      rfl
    · cases done
  · cases done
    rfl

theorem commit_cases (s : Input) (c : Nat) : s.commit c = s ∨ s.commit c = { s with firstInput := true, w := s.e, tabLoc := s.e } := by
  unfold commit
  split
  · exact .inr rfl
  · exact .inl rfl

theorem Kept.char (kept : s.Kept) (done : s.char c = some t) : t.Kept := by
  unfold Input.char at done
  split at done
  · rename_i accepted
    simp only at done
    obtain ⟨u,blanked,rfl⟩ := Option.map_eq_some_iff.mp done
    have typed : KeptAt s.r s.w (s.e+1) s.lastTabLoc (-1) := KeptAt.add (KeptAt.ended kept.1.1 kept.1.2) accepted.2
    have same := blank_eq blanked
    rw [initBlank_eq] at same
    have next : u.Kept := by
      rw [same]
      exact typed
    rcases commit_cases u (if c = 13 then 10 else c) with stays | ends
    · rw [stays]
      exact next
    · rw [ends,same]
      exact typed.commit
  · cases done
    exact kept

theorem consoleread_eq (target : Nat) : ∀ n (s : Input) got, ∃ k ≤ (s.w - s.r).toNat, (consoleread target n s got).1 = { s with r := s.r + BitVec.ofNat 32 k } := by
  intro n
  induction n with
  | zero =>
    intro s got
    refine ⟨0,Nat.zero_le _,?_⟩
    rw [consoleread]
    rw [BitVec.add_zero]
  | succ n ih =>
    intro s got
    rw [consoleread]
    split
    · refine ⟨0,Nat.zero_le _,?_⟩
      rw [BitVec.add_zero]
    rename_i more
    have left : 1 ≤ (s.w - s.r).toNat := by bv_omega
    simp only
    split
    · split
      · refine ⟨0,Nat.zero_le _,?_⟩
        rw [BitVec.add_zero,BitVec.add_sub_cancel]
      · exact ⟨1,left,rfl⟩
    split
    · exact ⟨1,left,rfl⟩
    obtain ⟨k,low,same⟩ := ih { s with r := s.r+1 } (got ++ [s.buf (s.r.toNat % inputBuf)])
    refine ⟨k+1,?_,?_⟩
    · have low : k ≤ (s.w - (s.r+1)).toNat := low
      bv_omega
    · rw [same,Nat.add_comm k 1,BitVec.ofNat_add,← BitVec.add_assoc]
      rfl

theorem KeptAt.advance (kept : KeptAt r w e last pos) (behind : k ≤ (w - r).toNat) : KeptAt (r + BitVec.ofNat 32 k) w e last pos := by
  obtain ⟨⟨line,full⟩,cycle⟩ := kept
  unfold inputBuf at full
  refine ⟨⟨by bv_omega,by unfold inputBuf; bv_omega⟩,fun other => ?_⟩
  obtain ⟨low,high⟩ := cycle other
  exact ⟨by bv_omega,by bv_omega⟩

theorem fits_tab (fits : s.Fits (.key 9)) (shell : s.programStatus = .shell) :
    (s.tabLoc = -1 → s.constantTab = -1) ∧ ∀ i < s.ec.len, s.off s.base + (s.ec.commands i).chars.length ≤ inputBuf := by
  simpa only [Fits,shell,show (9 : Nat) ≠ 21 by decide,show (9 : Nat) ≠ 27 by decide,show (9 : Nat) ≠ 19 by decide,if_false,if_true] using fits

-- What a key does that finds room for its text.
inductive Acts (s : Input) (c : Nat) : Option Input → Prop where
  | stays : Acts s c (some s)
  | kill : c = 21 → Acts s c (some s.killLine)
  | back : c = 8 ∨ c = 127 → Acts s c s.backspace
  | command : s.constantTab = -1 → s.Room cs.length → Acts s c (some (s.command cs))
  | insert : s.Room cs.length → Acts s c (some (s.insert cs))
  | tab : c = 9 → s.programStatus = .shell → Acts s c s.tab
  | up : c = 226 → s.programStatus = .shell → Acts s c (some s.up)
  | down : c = 227 → s.programStatus = .shell → Acts s c (some s.down)
  | char : Acts s c (s.char c)

theorem consoleintr_acts (fits : s.Fits (.key c)) : Acts s c (s.consoleintr c) := by
  unfold consoleintr shellOnly
  split_ifs with h1 h2 h3 h4 h5 h6 h7 shell h8 shell h9
  · exact .stays
  · exact .kill h2
  · exact .back h3
  · subst h4
    unfold escape
    cases status : s.programStatus with
    | shell | cat =>
      have room : s.constantTab = -1 ∧ s.Room 4 := by simpa [Fits,status] using fits
      exact .command room.1 room.2
    | editor =>
      have room : s.constantTab = -1 ∧ s.Room 5 := by simpa [Fits,status] using fits
      exact .command room.1 room.2
    | other => exact .stays
  · subst h5
    unfold save
    cases status : s.programStatus with
    | editor =>
      have room : s.constantTab = -1 ∧ s.Room 5 := by simpa [Fits,status] using fits
      exact .command room.1 room.2
    | shell | cat | other => exact .stays
  · subst h6
    unfold tabKey
    cases status : s.programStatus with
    | shell => exact .tab rfl status
    | cat | editor => exact .insert (by simpa [Fits,status] using fits)
    | other => exact .stays
  · exact .up h7 shell
  · exact .stays
  · exact .down h8 shell
  · exact .stays
  · exact .stays
  · exact .char

theorem Kept.key (kept : s.Kept) (fits : s.Fits (.key c)) (done : s.consoleintr c = some t) : t.Kept := by
  have acts := consoleintr_acts fits
  generalize s.consoleintr c = result at acts done
  cases acts with
  | stays =>
    cases done
    exact kept
  | kill is =>
    cases done
    subst is
    exact kept.killLine (by simpa [Fits] using fits)
  | back => exact kept.backspace done
  | command ended room =>
    cases done
    exact kept.command ended room
  | insert room =>
    cases done
    exact kept.insert room
  | tab is shell =>
    subst is
    exact kept.tab (fits_tab fits shell).1 (fits_tab fits shell).2 done
  | up is shell =>
    cases done
    subst is
    exact kept.up (by simpa [Fits,shell] using fits)
  | down is shell =>
    cases done
    subst is
    exact kept.down (by simpa [Fits,shell] using fits)
  | char => exact kept.char done

theorem Kept.step (kept : s.Kept) (moved : Only Fits Step s event t) : t.Kept := by
  obtain ⟨fits,done⟩ := moved
  cases event with
  | key c => exact kept.key fits done
  | read target n =>
    obtain ⟨k,low,same⟩ := consoleread_eq target n s []
    cases done
    rw [same]
    exact KeptAt.advance kept low
  | status p =>
    cases done
    exact kept
  | setHistory hs =>
    cases done
    exact kept
  | setExeCmd ec =>
    cases done
    exact kept

theorem boot_kept : boot.Kept := KeptAt.ended (by decide) (by decide)

theorem run_kept (run : Run (· = boot) (Only Fits Step) events s) : s.Kept := by
  refine run.invariant (fun s start => ?_) fun s event next kept moved => kept.step moved
  rw [start]
  exact boot_kept

theorem Kept.erasures (kept : s.Kept) (fits : s.Fits (.key c)) : s.erasures c ≤ (s.e - s.w).toNat := by
  unfold Input.erasures
  split_ifs with h1 h2 shell h3 unset
  · exact (killFrom_between s.buf s.w _ s.e .refl).2
  · exact Nat.le_refl _
  · exact Nat.zero_le _
  · obtain ⟨rfl,shell,other⟩ := h3
    exact absurd ((fits_tab fits shell).1 unset) other
  · obtain ⟨low,high⟩ := kept.2 h3.2.2
    have full := kept.1.2
    bv_omega
  · exact Nat.zero_le _

end Input

-- Where every key finds room for its text and no Tab is begun again after the line was killed or
-- committed, the counters stay in order and no erase loop leaves the line.
theorem counters_ordered (run : Run (· = boot) (Only Input.Fits Step) events s) :
    s.Ordered ∧ ∀ c, s.Fits (.key c) → s.erasures c ≤ (s.e - s.w).toNat :=
  ⟨(Input.run_kept run).1,fun _ fits => (Input.run_kept run).erasures fits⟩

def oneCommand : History := ⟨1,0,0,fun _ => ⟨[108,115],by decide,by decide⟩⟩

def follow : List Event → Option Input
  | [] => some boot
  | event :: events => (follow events).bind fun s => perform s event

theorem follow_run (reached : follow events = some s) : Run (· = boot) Step events s := by
  induction events generalizing s with
  | nil =>
    cases reached
    exact .start rfl
  | cons event events ih =>
    obtain ⟨before,earlier,done⟩ := Option.bind_eq_some_iff.mp reached
    exact .step (ih earlier) done

theorem ordered_after_a : ∃ s, Run (· = boot) (Only Input.Fits Step) [.key 97] s ∧ s.Ordered ∧ s.erasures 8 ≤ (s.e - s.w).toNat := by
  have typed : ∃ s, Only Input.Fits Step boot (.key 97) s := ⟨_,by simp [Input.Fits],rfl⟩
  obtain ⟨s,moved⟩ := typed
  have run : Run (· = boot) (Only Input.Fits Step) [.key 97] s := .step (.start rfl) moved
  exact ⟨s,run,(counters_ordered run).1,(counters_ordered run).2 8 (by simp [Input.Fits])⟩

-- ESC after 125 characters goes beyond the buffer. Ctrl-U between two Tabs sends the erase loop
-- backwards through all places but one.
theorem counters_overrun :
    (∃ s, Run (· = boot) Step (.key 27 :: List.replicate 125 (.key 97)) s ∧ s.off s.e = 129 ∧ ¬ s.Ordered) ∧
    ∃ s, Run (· = boot) Step [.key 21,.key 9,.key 97] s ∧ s.erasures 9 = 4294967295 ∧ (s.e - s.w).toNat = 0 := by
  have escaped : (follow (.key 27 :: List.replicate 125 (.key 97))).map (fun s => s.off s.e) = some 129 := by decide +kernel
  have killed : (follow [.key 21,.key 9,.key 97]).map (fun s => (s.erasures 9,(s.e - s.w).toNat)) = some (4294967295,0) := by decide +kernel
  obtain ⟨s,reached,far⟩ := Option.map_eq_some_iff.mp escaped
  obtain ⟨t,arrived,turns⟩ := Option.map_eq_some_iff.mp killed
  rw [Prod.mk.injEq] at turns
  refine ⟨⟨s,follow_run reached,far,fun ordered => ?_⟩,t,follow_run arrived,turns⟩
  have full := ordered.2
  rw [far] at full
  exact absurd full (by decide)

end Xv6.Console
