import Mathlib.Data.List.DropRight
import Xv6.Console.Line

namespace Xv6.Console

-- Tab after Tab goes round the entries of the table that begin with the last word of the line.

section
variable {p : Nat → Bool} {n i m : Nat}

theorem search_split (below : i < n) (holds : p i = true) :
    (List.range n).filter p = (List.range i).filter p ++ i :: (List.range' (i+1) (n-(i+1))).filter p := by
  have parts : List.range n = List.range (i+1) ++ List.range' (i+1) (n-(i+1)) := by
    have whole := List.range'_append_1 (s := 0) (m := i+1) (n := n-(i+1))
    rw [Nat.zero_add,show i+1+(n-(i+1)) = n by omega,← List.range_eq_range',← List.range_eq_range'] at whole
    exact whole.symm
  rw [parts,List.filter_append,List.range_succ,List.filter_append,List.filter_singleton,holds,List.append_assoc]
  rfl

theorem search_next (here : ((List.range n).filter p)[m]? = some i) :
    (List.range' (i+1) (n-(i+1))).find? p = ((List.range n).filter p)[m+1]? := by
  have member := List.mem_filter.mp (List.mem_of_getElem? here)
  have parts := search_split (List.mem_range.mp member.1) member.2
  rw [parts] at here ⊢
  rcases Nat.lt_trichotomy m ((List.range i).filter p).length with before | same | after
  · rw [List.getElem?_append_left before] at here
    have below := List.mem_range.mp (List.mem_filter.mp (List.mem_of_getElem? here)).1
    omega
  · rw [List.getElem?_append_right (by omega),show m+1 - ((List.range i).filter p).length = 0+1 by omega,List.getElem?_cons_succ,
      ← List.head?_eq_getElem?,List.head?_filter]
  · rw [List.getElem?_append_right (by omega),show m - ((List.range i).filter p).length = (m - ((List.range i).filter p).length - 1) + 1 by omega,
      List.getElem?_cons_succ] at here
    have above := List.mem_range'_1.mp (List.mem_filter.mp (List.mem_of_getElem? here)).1
    omega

end

def front (text : List UInt8) : List UInt8 := text.rdropWhile (· ≠ 32)

def word (text : List UInt8) : List UInt8 := text.rtakeWhile (· ≠ 32)

def Commands.places (ec : Commands) (q : List UInt8) : List Nat :=
  (List.range ec.len).filter fun i => q.isPrefixOf (ec.commands i).chars

def Commands.matching (ec : Commands) (q : List UInt8) : List (List UInt8) := (ec.places q).map fun i => (ec.commands i).chars

-- The line after k Tabs, k ≥ 1.
def completed (ec : Commands) (text : List UInt8) (k : Nat) : List UInt8 :=
  if some : ec.matching (word text) = [] then text
  else front text ++ (ec.matching (word text)).get ⟨(k-1) % (ec.matching (word text)).length,Nat.mod_lt _ (List.length_pos_iff.mpr some)⟩

namespace Input
variable {s t : Input} {ec : Commands} {q : List UInt8}

theorem search_first (ec : Commands) (q : List UInt8) : search ec q 0 = (ec.places q)[0]? := by
  unfold search Commands.places
  rw [← List.head?_eq_getElem?,List.head?_filter,List.range_eq_range']
  rfl

theorem search_after (here : (ec.places q)[m]? = some i) : search ec q (i+1) = (ec.places q)[m+1]? := search_next here

def advance (ec : Commands) (q : List UInt8) (pos : Int) : Option Nat :=
  (search ec q (pos+1).toNat).or (search ec q 0)

theorem checkPrefix_advance (inside : (s.e - s.tabLoc).toNat < inputBuf) :
    s.checkPrefix = some (match advance s.ec s.typed s.constantTab with
      | some i => s.complete i
      | none => { s with constantTab := 0 }) := by
  unfold checkPrefix advance
  rw [if_neg (by omega)]
  cases found : search s.ec s.typed (s.constantTab+1).toNat with
  | some i => rfl
  | none =>
    simp only [Option.none_or]
    split
    · rename_i zero
      rw [zero] at found
      rw [show search s.ec s.typed 0 = none from found]
    · cases search s.ec s.typed 0 with
      | some i => rfl
      | none => rfl

def turn (ec : Commands) (q : List UInt8) (k : Nat) : Int :=
  if k = 0 then -1
  else match (ec.places q)[(k-1) % (ec.places q).length]? with
    | some i => i
    | none => 0

theorem search_none (none : ec.places q = []) (k : Nat) : search ec q k = Option.none := by
  cases found : search ec q k with
  | none => rfl
  | some i =>
    obtain ⟨-,inside,holds⟩ := search_some found
    have member : i ∈ ec.places q := List.mem_filter.mpr ⟨List.mem_range.mpr inside,holds⟩
    rw [none] at member
    cases member

theorem advance_turn (ec : Commands) (q : List UInt8) (k : Nat) : advance ec q (turn ec q k) = (ec.places q)[k % (ec.places q).length]? := by
  unfold advance turn
  by_cases none : ec.places q = []
  · rw [search_none none,search_none none,none]
    rfl
  have several : 0 < (ec.places q).length := List.length_pos_iff.mpr none
  rw [search_first]
  cases k with
  | zero =>
    rw [if_pos rfl,Nat.zero_mod]
    show (search ec q 0).or _ = _
    rw [search_first,Option.or_self]
  | succ k =>
    rw [if_neg (Nat.succ_ne_zero k),Nat.add_sub_cancel]
    have inside := Nat.mod_lt k several
    have here : (ec.places q)[k % (ec.places q).length]? = some ((ec.places q).get ⟨_,inside⟩) := List.getElem?_eq_getElem inside
    rw [here]
    show (search ec q ((ec.places q).get ⟨_,inside⟩ + 1)).or _ = _
    rw [search_after here]
    by_cases last : k % (ec.places q).length + 1 < (ec.places q).length
    · rw [Nat.add_mod,Nat.mod_eq_of_lt (show 1 < (ec.places q).length by omega),Nat.mod_eq_of_lt last,List.getElem?_eq_getElem last]
      rfl
    have whole := Nat.div_add_mod k (ec.places q).length
    have wraps : k+1 = (ec.places q).length * (k / (ec.places q).length + 1) := by
      rw [Nat.mul_succ]
      omega
    rw [List.getElem?_eq_none (by omega),Option.none_or,wraps,Nat.mul_mod_right]

theorem completed_some (here : (ec.places (word text))[k % (ec.places (word text)).length]? = some i) :
    completed ec text (k+1) = front text ++ (ec.commands i).chars := by
  obtain ⟨inside,same⟩ := List.getElem?_eq_some_iff.mp here
  have some : ec.matching (word text) ≠ [] := by
    intro none
    rw [Commands.matching,List.map_eq_nil_iff] at none
    rw [none] at inside
    cases inside
  unfold completed
  rw [dif_neg some]
  congr 1
  simp only [Commands.matching,List.get_eq_getElem,List.getElem_map,List.length_map,Nat.add_sub_cancel,same]

theorem completed_none (none : (ec.places (word text))[k % (ec.places (word text)).length]? = Option.none) : completed ec text (k+1) = text := by
  have empty : ec.places (word text) = [] := by
    by_contra some
    have inside := Nat.mod_lt k (List.length_pos_iff.mpr some)
    rw [List.getElem?_eq_getElem inside] at none
    cases none
  unfold completed
  rw [dif_pos (by rw [Commands.matching,empty,List.map_nil])]

theorem typed_held (low : s.e.toNat < 2^31) (order : s.tabLoc.toNat ≤ s.e.toNat) : s.typed = (s.held s.tabLoc s.e).takeWhile (· ≠ 0) := by
  unfold typed
  split
  · have span : Ring.count (2^32) s.tabLoc.toNat s.e.toNat = (s.e - s.tabLoc).toNat := count_word ..
    unfold held Ring.contents
    rw [span]
    congr 1
    apply List.map_congr_left
    intro i inside
    rw [List.mem_range] at inside
    have place : (s.tabLoc + BitVec.ofNat 32 i).toInt = ((s.tabLoc.toNat + i : Nat) : Int) := by
      rw [BitVec.toInt_eq_toNat_of_lt (by bv_omega)]
      congr 1
      bv_omega
    unfold bufAt
    rw [place]
    rfl
  · have same : s.tabLoc = s.e := by bv_omega
    rw [same,held_self]
    rfl

structure Cycling (ec : Commands) (w : Word) (text : List UInt8) (k : Nat) (s : Input) : Prop where
  shell : s.programStatus = .shell
  table : s.ec = ec
  begun : s.w = w
  place : (if s.tabLoc = -1 then s.w else s.tabLoc) = w + BitVec.ofNat 32 (front text).length
  cycle : s.tabLoc = -1 → s.constantTab = -1
  base : s.base = w + BitVec.ofNat 32 text.length
  kept : s.held w s.base = text
  turn : s.constantTab = turn ec (word text) k

structure Prepared (ec : Commands) (w : Word) (text : List UInt8) (k : Nat) (s : Input) : Prop where
  shell : s.programStatus = .shell
  table : s.ec = ec
  begun : s.w = w
  place : s.tabLoc = w + BitVec.ofNat 32 (front text).length
  base : s.e = w + BitVec.ofNat 32 text.length
  last : s.lastTabLoc = s.e
  kept : s.held w s.e = text
  turn : s.constantTab = turn ec (word text) k

section
variable {w : Word} {text : List UInt8} (low : w.toNat < 2^31 - 256) (short : text.length ≤ 64) (solid : 0 ∉ text)

theorem front_word (text : List UInt8) : front text ++ word text = text := List.rdropWhile_append_rtakeWhile

theorem front_le (text : List UInt8) : (front text).length ≤ text.length := by
  have whole := congrArg List.length (front_word text)
  rw [List.length_append] at whole
  omega

include low short solid

theorem typed_word (place : s.tabLoc = w + BitVec.ofNat 32 (front text).length) (last : s.e = w + BitVec.ofNat 32 text.length)
    (kept : s.held w s.e = text) : s.typed = word text := by
  have fewer := front_le text
  have span : (front text).length ≤ (s.e - w).toNat := by
    rw [last]
    bv_omega
  rw [typed_held (by rw [last]; bv_omega) (by rw [last,place]; bv_omega),place,held_drop span,kept]
  have rest := congrArg (List.drop (front text).length) (front_word text)
  rw [List.drop_left] at rest
  rw [← rest,List.takeWhile_eq_self_iff]
  intro c member
  have inside : c ∈ text := by
    rw [← front_word text]
    exact List.mem_append_right _ member
  exact decide_eq_true fun zero => solid (zero ▸ inside)

omit low short solid in
theorem Cycling.ready (cycling : Cycling ec w text k s) : Prepared ec w text k s.ready := by
  have kept := cycling.kept
  rw [ready_eq cycling.cycle,initBlank_eq]
  exact ⟨cycling.shell,cycling.table,cycling.begun,cycling.place,cycling.base,rfl,kept,cycling.turn⟩

omit solid in
theorem Prepared.again (prepared : Prepared ec w text k s) (room : text.length + cs.length ≤ inputBuf)
    (moved : pos ≠ -1) (next : pos = Input.turn ec (word text) (k+1)) : Cycling ec w text (k+1) ({ s with constantTab := pos }.insert cs) ∧
      ({ s with constantTab := pos }.insert cs).line = text ++ cs := by
  have fewer := front_le text
  have span : (s.e - w).toNat = text.length := by
    rw [prepared.base]
    bv_omega
  have begun := prepared.begun
  have text' : ({ s with constantTab := pos }.insert cs).held w ({ s with constantTab := pos }.insert cs).e = text ++ cs := by
    rw [held_insert (by show (s.e - w).toNat + _ ≤ _; omega)]
    exact congrArg (· ++ cs) prepared.kept
  have length := congrArg List.length text'
  rw [held_length,List.length_append] at length
  have old := held_cut (s := { s with constantTab := pos }.insert cs) (x := w) (n := text.length) (y := ({ s with constantTab := pos }.insert cs).e) (by omega)
  rw [text',List.take_left] at old
  rw [insert_eq] at text' old ⊢
  have set : s.tabLoc ≠ -1 := by
    rw [prepared.place]
    bv_omega
  refine ⟨⟨prepared.shell,prepared.table,begun,?_,fun none => absurd none set,?_,?_,next⟩,?_⟩
  · rw [if_neg set]
    exact prepared.place
  · rw [Input.base,if_neg moved]
    exact prepared.last.trans prepared.base
  · rw [Input.base,if_neg moved]
    exact (congrArg (held _ w) (prepared.last.trans prepared.base)).trans old
  · exact (congrArg (fun x => held _ x _) begun).trans text'

theorem Prepared.checkPrefix (prepared : Prepared ec w text k s) :
    ∃ t, s.checkPrefix = some t ∧ Cycling ec w text (k+1) t ∧ t.line = completed ec text (k+1) := by
  have fewer := front_le text
  have inside : (s.e - s.tabLoc).toNat < inputBuf := by
    rw [prepared.base,prepared.place]
    unfold inputBuf
    bv_omega
  have same : s.typed = word text := typed_word low short solid prepared.place prepared.base prepared.kept
  have next := advance_turn ec (word text) k
  have turned : Input.turn ec (word text) (k+1) = match (ec.places (word text))[k % (ec.places (word text)).length]? with
      | some i => (i : Int)
      | none => 0 := by
    rw [Input.turn,if_neg (Nat.succ_ne_zero k),Nat.add_sub_cancel]
  have done := checkPrefix_advance inside
  have found : advance s.ec s.typed s.constantTab = (ec.places (word text))[k % (ec.places (word text)).length]? := by
    rw [same,prepared.table,prepared.turn,next]
  rw [found] at done
  cases here : (ec.places (word text))[k % (ec.places (word text)).length]? with
  | some i =>
    rw [here] at turned done
    obtain ⟨rest,whole⟩ : word text <+: (ec.commands i).chars :=
      List.isPrefixOf_iff_prefix.mp (List.mem_filter.mp (List.mem_of_getElem? here)).2
    have small := (ec.commands i).short
    have added : (s.ec.commands i).chars.drop s.typed.length = rest := by
      rw [same,prepared.table,← whole,List.drop_left]
    rw [← whole,List.length_append] at small
    refine ⟨_,done,?_⟩
    rw [completed_some here,← whole,← List.append_assoc,front_word]
    simp only
    unfold complete
    rw [added]
    exact prepared.again low short (by unfold inputBuf; omega) (by omega) turned.symm
  | none =>
    rw [here] at turned done
    refine ⟨_,done,?_⟩
    rw [completed_none here]
    have room : text.length + ([] : List UInt8).length ≤ inputBuf := Nat.le_trans short (by decide)
    have step := prepared.again low short room (by decide) turned.symm
    rw [List.append_nil] at step
    exact step

theorem Cycling.tab (cycling : Cycling ec w text k s) : ∃ t, s.consoleintr 9 = some t ∧ Cycling ec w text (k+1) t ∧ t.line = completed ec text (k+1) := by
  have pressed : s.consoleintr 9 = s.ready.checkPrefix := by
    show s.tabKey = _
    rw [tabKey,cycling.shell]
    exact tab_ready s
  rw [pressed]
  exact (cycling.ready).checkPrefix low short solid

theorem Cycling.tabs (cycling : Cycling ec w text 0 s) (k : Nat) : ∃ t, (List.replicate k 9).foldlM consoleintr s = some t ∧ Cycling ec w text k t ∧
    (1 ≤ k → t.line = completed ec text k) := by
  induction k with
  | zero => exact ⟨s,rfl,cycling,fun some => absurd some (by omega)⟩
  | succ k ih =>
    obtain ⟨t,before,after,-⟩ := ih
    obtain ⟨u,pressed,next,text⟩ := after.tab low short solid
    refine ⟨u,?_,next,fun _ => text⟩
    rw [List.replicate_succ',List.foldlM_append,before]
    show (List.foldlM consoleintr t [9]) = _
    rw [List.foldlM_cons,pressed]
    rfl

end

theorem front_blank (text : List UInt8) : front (text ++ [32]) = text ++ [32] := List.rdropWhile_concat_neg _ _ _ (by decide)

theorem front_letter (text : List UInt8) (letter : c ≠ 32) : front (text ++ [c]) = front text :=
  List.rdropWhile_concat_pos _ _ _ (by simpa using letter)

structure Typing (ec : Commands) (w : Word) (text : List UInt8) (s : Input) : Prop where
  shell : s.programStatus = .shell
  table : s.ec = ec
  begun : s.w = w
  read : s.r = w
  place : (if s.tabLoc = -1 then s.w else s.tabLoc) = w + BitVec.ofNat 32 (front text).length
  last : s.e = w + BitVec.ofNat 32 text.length
  kept : s.held w s.e = text
  none : s.constantTab = -1
  blanks : if s.firstInput then text = [] else s.blankLen = 1 + text.count 32

section
variable {w : Word} {text : List UInt8} {c : UInt8}

theorem Typing.char (typing : Typing ec w text s) (low : w.toNat < 2^31 - 256) (short : text.length < 64) (printable : 32 ≤ c.toNat ∧ c.toNat ≤ 126)
    (few : (text ++ [c]).count 32 ≤ 31) : ∃ t, s.consoleintr c.toNat = some t ∧ Typing ec w (text ++ [c]) t := by
  have span : (s.e - w).toNat = text.length := by
    rw [typing.last]
    bv_omega
  have next : s.e+1 = w + BitVec.ofNat 32 (text ++ [c]).length := by
    rw [typing.last,List.length_append,List.length_singleton,BitVec.ofNat_add,← BitVec.add_assoc]
    rfl
  have longer : (s.put c).held w (s.e+1) = text ++ [c] := by
    rw [held_put (by unfold inputBuf; omega),typing.kept]
  have blanked : s.initBlank.blankLen = 1 + text.count 32 := by
    have blanks := typing.blanks
    unfold initBlank
    split at blanks
    · rename_i fresh
      rw [if_pos fresh,blanks]
      rfl
    · rename_i old
      rw [if_neg old]
      exact blanks
  have pressed : s.consoleintr c.toNat = s.char c.toNat := by
    unfold consoleintr
    iterate 9 rw [if_neg (by omega)]
  have accepted : c.toNat ≠ 0 ∧ (s.e - s.r).toNat < inputBuf := by
    rw [typing.read,span]
    exact ⟨by omega,by unfold inputBuf; omega⟩
  rw [pressed,Input.char,if_pos accepted]
  simp only [show c.toNat ≠ 13 by omega,if_false,UInt8.ofNat_toNat]
  have stays : ∀ t : Input, t.e = s.e+1 → t.r = s.r → t.commit c.toNat = t := by
    intro t last read
    have far : t.e ≠ t.r + 128 := by
      rw [last,read,typing.read,typing.last]
      bv_omega
    unfold commit
    rw [if_neg]
    rintro (newline | eof | full)
    · omega
    · omega
    · exact far full
  rw [initBlank_eq]
  unfold blank
  split
  · rename_i space
    have blank : c = 32 := UInt8.toNat_inj.mp space
    subst blank
    rw [List.count_append] at few
    have room : s.initBlank.blankLen < 32 := by
      rw [blanked]
      have one : [(32 : UInt8)].count 32 = 1 := rfl
      omega
    split
    · refine ⟨_,congrArg some (stays _ rfl rfl),?_⟩
      refine ⟨typing.shell,typing.table,typing.begun,typing.read,?_,next,longer,rfl,?_⟩
      · have set : s.e+1 ≠ -1 := by
          rw [typing.last]
          bv_omega
        rw [front_blank]
        exact (if_neg set).trans next
      · rw [blanked,List.count_append]
        rfl
    · rename_i full
      exact absurd room full
  · rename_i other
    refine ⟨_,congrArg some (stays _ rfl rfl),?_⟩
    have letter : c ≠ 32 := fun blank => other (blank ▸ rfl)
    refine ⟨typing.shell,typing.table,typing.begun,typing.read,?_,next,longer,rfl,?_⟩
    · rw [front_letter text letter]
      exact typing.place
    · show s.initBlank.blankLen = 1 + (text ++ [c]).count 32
      rw [blanked,List.count_append,List.count_singleton]
      simp [letter]

theorem Typing.typed (typing : Typing ec w text s) (low : w.toNat < 2^31 - 256) (more : List UInt8) (short : (text ++ more).length ≤ 64)
    (printable : ∀ c ∈ more, 32 ≤ c.toNat ∧ c.toNat ≤ 126) (few : (text ++ more).count 32 ≤ 31) :
    ∃ t, (more.map UInt8.toNat).foldlM consoleintr s = some t ∧ Typing ec w (text ++ more) t := by
  induction more generalizing text s with
  | nil =>
    rw [List.append_nil]
    exact ⟨s,rfl,typing⟩
  | cons c more ih =>
    have split : text ++ c :: more = text ++ [c] ++ more := (List.append_assoc text [c] more).symm
    rw [split] at short few ⊢
    have fewer : (text ++ [c]).count 32 ≤ 31 := by
      rw [List.count_append] at few
      omega
    rw [List.length_append,List.length_append,List.length_singleton] at short
    obtain ⟨t,pressed,after⟩ := typing.char low (by omega) (printable c (.head _)) fewer
    obtain ⟨u,rest,last⟩ := ih after (by simp only [List.length_append,List.length_singleton]; omega) (fun d member => printable d (.tail _ member)) few
    refine ⟨u,?_,last⟩
    rw [List.map_cons,List.foldlM_cons,pressed]
    exact rest

theorem Typing.cycling (typing : Typing ec w text s) : Cycling ec w text 0 s := by
  have last : s.base = s.e := if_pos typing.none
  refine ⟨typing.shell,typing.table,typing.begun,typing.place,fun _ => typing.none,last.trans typing.last,?_,typing.none⟩
  rw [last]
  exact typing.kept

end
end Input

theorem tabs_cycle (s : Input) (text : List UInt8) (k : Nat) (shell : s.programStatus = .shell) (read : s.r = s.w) (empty : s.e = s.w)
    (low : s.w.toNat < 2^31 - 256) (none : s.constantTab = -1) (fresh : s.firstInput = true) (place : s.tabLoc = -1 ∨ s.tabLoc = s.w)
    (short : text.length ≤ 64) (printable : ∀ c ∈ text, 32 ≤ c.toNat ∧ c.toNat ≤ 126) (few : text.count 32 ≤ 31) (some : 1 ≤ k) :
    ∃ t, (text.map UInt8.toNat ++ List.replicate k 9).foldlM Input.consoleintr s = Option.some t ∧ t.line = completed s.ec text k := by
  have begun : Input.Typing s.ec s.w [] s := by
    refine ⟨shell,rfl,rfl,read,?_,?_,?_,none,?_⟩
    · rw [show (front []).length = 0 from rfl,BitVec.ofNat_eq_ofNat,BitVec.add_zero]
      rcases place with unset | set
      · exact if_pos unset
      · rw [set]
        exact ite_self _
    · rw [List.length_nil,BitVec.add_zero]
      exact empty
    · rw [empty]
      exact Input.held_self ..
    · rw [if_pos fresh]
  obtain ⟨t,typed,after⟩ := begun.typed low text short printable few
  have solid : (0 : UInt8) ∉ text := fun member => absurd (printable 0 member).1 (by decide)
  obtain ⟨u,pressed,-,line⟩ := after.cycling.tabs low short solid k
  refine ⟨u,?_,line some⟩
  rw [List.foldlM_append,typed]
  exact pressed

theorem ls_solid : (0 : UInt8) ∉ [(108 : UInt8),115] := by decide

def oneEntry : Commands := ⟨1,by decide,fun _ => ⟨[108,115],by decide,ls_solid⟩⟩

theorem tabs_cycle_ls : ∃ t, [108,9].foldlM Input.consoleintr { boot with ec := oneEntry } = some t ∧ t.line = [108,115] :=
  tabs_cycle { boot with ec := oneEntry } [108] 1 rfl rfl rfl (by decide) rfl rfl (.inl rfl) (by decide)
    (fun c member => by rw [List.mem_singleton.mp member]; decide) (by decide) (by decide)

end Xv6.Console
