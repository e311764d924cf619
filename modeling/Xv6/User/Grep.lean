import Xv6.Lib.Lines
import Xv6.User.Match

namespace Xv6.User.Grep
open Lines
open List (append_assoc length_append length_cons not_mem_nil)

-- grep: lines out of the pieces that read gives.

abbrev Memory := Nat → UInt8

-- The memory of the process ends at top; strchr may run into it.
inductive Seek where
  | found (q : Nat)
  | null
  | fault
deriving DecidableEq, Repr

def strchr (mem : Memory) (c : UInt8) : Nat → Nat → Seek
  | 0,_ => .fault
  | left+1,s => if mem s = 0 then .null else if mem s = c then .found s else strchr mem c left (s+1)

def bytes (mem : Memory) (p q : Nat) : List UInt8 := (List.range (q-p)).map fun t => mem (p+t)

structure Layout where
  buf : Nat
  top : Nat

structure State where
  mem : Memory
  m : Int
  out : List (List UInt8)

-- The lines from p on. *q is a NUL while match looks, and '\n' again only where the line matches.
def scan (L : Layout) (pattern : List UInt8) : Nat → Nat → State → Option (Nat × State)
  | 0,_,_ => none
  | turns+1,p,s =>
    match strchr s.mem 10 (L.top-p) p with
    | .fault => none
    | .null => some (p,s)
    | .found q =>
      if matchText pattern (bytes s.mem p q) then scan L pattern turns (q+1) { s with out := s.out ++ [bytes s.mem p (q+1)] }
      else scan L pattern turns (q+1) { s with mem := Function.update s.mem q 0 }

def store (mem : Memory) (a : Nat) (piece : List UInt8) : Memory :=
  fun x => if a ≤ x then piece.getD (x-a) (mem x) else mem x

-- memmove copies upwards, and p is not below buf. A negative count copies nothing.
def memmove (mem : Memory) (dst src : Nat) (n : Int) : Memory :=
  fun x => if dst ≤ x ∧ (x : Int) < dst+n then mem (src+(x-dst)) else mem x

-- One turn of the outer loop: read has put piece at buf+m.
def turn (L : Layout) (pattern : List UInt8) (s : State) (piece : List UInt8) : Option State :=
  let s := { s with mem := store s.mem (L.buf+s.m).toNat piece, m := s.m+piece.length }
  match scan L pattern (L.top-L.buf) L.buf s with
  | none => none
  | some (p,s) =>
    let m := if p = L.buf then 0 else s.m
    if 0 < m then
      let m := m-(p-L.buf)
      some { s with m := m, mem := memmove s.mem L.buf p m }
    else some { s with m := m }

def grep (L : Layout) (pattern : List UInt8) : List (List UInt8) → State → Option State
  | [],s => some s
  | [] :: _,s => some s
  | (c :: piece) :: rest,s =>
    match turn L pattern s (c :: piece) with
    | none => none
    | some s => grep L pattern rest s

def At (mem : Memory) : Nat → List UInt8 → Prop
  | _,[] => True
  | a,c :: l => mem a = c ∧ At mem (a+1) l

section
variable {mem new : Memory}

theorem at_append (l r : List UInt8) : At mem a (l ++ r) ↔ At mem a l ∧ At mem (a+l.length) r := by
  induction l generalizing a with
  | nil => simp [At]
  | cons c l ih =>
    rw [List.cons_append,At,At,ih,length_cons,Nat.add_assoc,Nat.add_comm 1,and_assoc]

theorem at_moved (here : At mem a l) (same : ∀ i < l.length, new (b+i) = mem (a+i)) : At new b l := by
  induction l generalizing a b with
  | nil => trivial
  | cons c l ih =>
    rw [length_cons] at same
    refine ⟨(same 0 (by omega)).trans here.1,ih here.2 fun i inside => ?_⟩
    rw [Nat.add_assoc,Nat.add_assoc,Nat.add_comm 1]
    exact same (i+1) (by omega)

theorem at_congr (here : At mem a l) (same : ∀ x, a ≤ x → x < a+l.length → new x = mem x) : At new a l :=
  at_moved here fun i inside => same (a+i) (by omega) (by omega)

theorem at_bytes (here : At mem a l) : bytes mem a (a+l.length) = l := by
  induction l generalizing a with
  | nil => simp [bytes]
  | cons c l ih =>
    have later := ih here.2
    rw [bytes,Nat.add_sub_cancel_left] at later ⊢
    rw [length_cons,List.range_succ_eq_map,List.map_cons,List.map_map,Nat.add_zero,here.1]
    congr 1
    calc List.map ((fun t => mem (a+t)) ∘ Nat.succ) (List.range l.length)
      _ = List.map (fun t => mem (a+1+t)) (List.range l.length) := List.map_congr_left fun t _ => congrArg mem (by omega)
      _ = l := later

theorem store_out (out : x < a ∨ a+piece.length ≤ x) : store mem a piece x = mem x := by
  unfold store
  split
  · rw [List.getD_eq_getElem?_getD,List.getElem?_eq_none (by omega)]
    rfl
  · rfl

theorem store_at (mem : Memory) (a : Nat) (piece : List UInt8) : At (store mem a piece) a piece := by
  have all : ∀ l r, piece = l ++ r → At (store mem a piece) (a+l.length) r := by
    intro l r
    induction r generalizing l with
    | nil => intro _; trivial
    | cons c r ih =>
      intro split
      refine ⟨?_,?_⟩
      · simp [store,split]
      · have later := ih (l ++ [c]) (by rw [split,append_assoc]; rfl)
        rw [length_append] at later
        exact later
  exact all [] piece rfl

theorem memmove_in {i n : Nat} (inside : i < n) : memmove mem dst src n (dst+i) = mem (src+i) := by
  rw [memmove,if_pos (by omega),Nat.add_sub_cancel_left]

theorem strchr_run (here : At mem a l) (plain : c ∉ l) (clean : 0 ∉ l) (inside : a+l.length ≤ top) :
    strchr mem c (top-a) a = strchr mem c (top-(a+l.length)) (a+l.length) := by
  induction l generalizing a with
  | nil => rfl
  | cons d l ih =>
    rw [List.mem_cons,not_or] at plain clean
    rw [length_cons] at inside
    obtain ⟨first,later⟩ := here
    rw [show top-a = top-(a+1)+1 by omega,strchr,first,if_neg (Ne.symm clean.1),if_neg (Ne.symm plain.1),ih later plain.2 clean.2 (by omega),
      length_cons,Nat.add_assoc,Nat.add_comm 1]

theorem strchr_found (here : mem q = c) (byte : c ≠ 0) (inside : q < top) : strchr mem c (top-q) q = .found q := by
  rw [show top-q = top-(q+1)+1 by omega,strchr,if_neg (by rw [here]; exact byte),if_pos here]

end

def printed (pattern x : List UInt8) : List (List UInt8) := ((cut 10 x).1.filter (matchText pattern)).map (· ++ [10])

section
variable {L : Layout} {pattern : List UInt8} {mem new : Memory} {s next : State}

def Clear (L : Layout) (mem : Memory) (e : Nat) : Prop := strchr mem 10 (L.top-e) e = .null

theorem clear_inside (clear : Clear L mem e) : e < L.top := by
  by_contra out
  rw [Clear,show L.top-e = 0 by omega] at clear
  cases clear

theorem strchr_congr (same : ∀ x, a ≤ x → new x = mem x) (n : Nat) : strchr new c n a = strchr mem c n a := by
  induction n generalizing a with
  | zero => rfl
  | succ n ih => rw [strchr,strchr,same a (Nat.le_refl a),ih fun x low => same x (by omega)]

theorem scan_spec (pattern : List UInt8) (turns : Nat) : ∀ {p s l}, At s.mem p l → 0 ∉ l → Clear L s.mem (p+l.length) → l.length < turns →
    ∃ mem, scan L pattern turns p s = some (p+l.length-(cut 10 l).2.length,{ s with mem := mem, out := s.out ++ printed pattern l }) ∧
      ∀ x, p+l.length-(cut 10 l).2.length ≤ x → mem x = s.mem x := by
  induction turns with
  | zero => intro p s l _ _ _ none; omega
  | succ turns ih =>
    intro p s l here clean clear few
    have inside := clear_inside clear
    by_cases some : 10 ∈ l
    · obtain ⟨line,rest,rfl,first⟩ := List.eq_append_cons_of_mem some
      rw [List.mem_append,List.mem_cons,not_or,not_or] at clean
      obtain ⟨at_line,newline,at_rest⟩ := (at_append ..).mp here
      have length : (line ++ 10 :: rest).length = line.length+1+rest.length := by simp only [length_append,length_cons]; omega
      have stop : p+(line ++ 10 :: rest).length = p+line.length+1+rest.length := by omega
      have whole : At s.mem p (line ++ [10]) := (at_append ..).mpr ⟨at_line,newline,trivial⟩
      have words := at_bytes whole
      rw [length_append,List.length_singleton,← Nat.add_assoc] at words
      rw [stop] at clear inside ⊢
      rw [scan,strchr_run at_line first clean.1 (by omega),strchr_found newline (by decide) (by omega),cut_line first]
      dsimp only
      rw [at_bytes at_line,words]
      by_cases hit : matchText pattern line = true
      · rw [if_pos hit]
        obtain ⟨mem,ran,same⟩ := ih (s := { s with out := s.out ++ [line ++ [10]] }) at_rest clean.2.2 clear (by omega)
        refine ⟨mem,?_,same⟩
        rw [ran,printed,printed,cut_line first,List.filter_cons_of_pos hit,List.map_cons,append_assoc]
        rfl
      rw [if_neg hit]
      have off : ∀ x, p+line.length+1 ≤ x → Function.update s.mem (p+line.length) 0 x = s.mem x := fun x low =>
        Function.update_of_ne (by omega) _ _
      have clear_new : Clear L (Function.update s.mem (p+line.length) 0) (p+line.length+1+rest.length) :=
        (strchr_congr (fun x low => off x (by omega)) _).trans clear
      obtain ⟨mem,ran,same⟩ := ih (s := { s with mem := Function.update s.mem (p+line.length) 0 })
        (at_congr at_rest fun x low _ => off x low) clean.2.2 clear_new (by omega)
      refine ⟨mem,?_,fun x low => (same x low).trans (off x ?_)⟩
      · rw [ran,printed,printed,cut_line first,List.filter_cons_of_neg hit]
      · have short := cut_rest_length 10 rest
        omega
    · refine ⟨s.mem,?_,fun _ _ => rfl⟩
      rw [scan,strchr_run here some clean (by omega),clear]
      simp [cut_clean some,printed]

structure Carried (L : Layout) (s : State) (r : List UInt8) : Prop where
  m : s.m = r.length
  here : At s.mem L.buf r
  clean : 0 ∉ r
  plain : 10 ∉ r

theorem turn_spec (pattern : List UInt8) (carried : Carried L s r) (bytes : 0 ∉ piece) (clear : Clear L s.mem (L.buf+r.length+piece.length)) :
    ∃ next, turn L pattern s piece = some next ∧ next.out = s.out ++ printed pattern (r ++ piece) ∧
      Carried L next (if 10 ∈ piece then (cut 10 (r ++ piece)).2 else []) := by
  have clean : 0 ∉ r ++ piece := by simp [carried.clean,bytes]
  have inside := clear_inside clear
  have start : (L.buf+s.m).toNat = L.buf+r.length := by rw [carried.m]; omega
  have here : At (store s.mem (L.buf+r.length) piece) L.buf (r ++ piece) :=
    (at_append ..).mpr ⟨at_congr carried.here fun x _ high => store_out (.inl high),store_at ..⟩
  have still : Clear L (store s.mem (L.buf+r.length) piece) (L.buf+(r ++ piece).length) := by
    rw [length_append,← Nat.add_assoc]
    exact (strchr_congr (fun x low => store_out (.inr low)) _).trans clear
  have few : (r ++ piece).length < L.top-L.buf := by rw [length_append]; omega
  obtain ⟨mem,ran,same⟩ := scan_spec pattern (L.top-L.buf)
    (s := { s with mem := store s.mem (L.buf+r.length) piece, m := s.m+piece.length }) here clean still few
  have whole := joined_cut 10 (r ++ piece)
  have short := cut_rest_length 10 (r ++ piece)
  rw [turn,start]
  rw [ran]
  dsimp only
  by_cases newline : 10 ∈ piece
  · have first : (cut 10 (r ++ piece)).2 ≠ r ++ piece := fun all => cut_rest 10 (r ++ piece) (by rw [all]; exact List.mem_append_right r newline)
    have less : (cut 10 (r ++ piece)).2.length < (r ++ piece).length := by
      refine Nat.lt_of_le_of_ne short fun equal => first ?_
      have lengths := congrArg List.length whole
      rw [length_append] at lengths
      have none := List.length_eq_zero_iff.mp (show (joined 10 (cut 10 (r ++ piece)).1).length = 0 by omega)
      rw [none] at whole
      exact whole
    have sum : s.m+piece.length = ((r ++ piece).length : Int) := by rw [carried.m,length_append]; omega
    have apart : ¬ L.buf+(r ++ piece).length-(cut 10 (r ++ piece)).2.length = L.buf := by omega
    have left : ((r ++ piece).length : Int)-((L.buf+(r ++ piece).length-(cut 10 (r ++ piece)).2.length : Nat)-L.buf) =
        (cut 10 (r ++ piece)).2.length := by omega
    rw [if_neg apart,sum,if_pos (by omega),if_pos newline,left]
    refine ⟨_,rfl,rfl,rfl,?_,?_,cut_rest 10 _⟩
    · rw [← whole] at here
      have tail := ((at_append ..).mp here).2
      have place : L.buf+(joined 10 (cut 10 (r ++ piece)).1).length = L.buf+(r ++ piece).length-(cut 10 (r ++ piece)).2.length := by
        have lengths := congrArg List.length whole
        rw [length_append] at lengths
        omega
      rw [place] at tail
      exact at_moved tail fun i inside => (memmove_in inside).trans (same _ (by omega))
    · intro member
      refine clean ?_
      rw [← whole]
      exact List.mem_append_right _ member
  · have none : 10 ∉ r ++ piece := by simp [carried.plain,newline]
    rw [cut_clean none,Nat.add_sub_cancel,if_pos rfl,if_neg (by omega),if_neg newline]
    exact ⟨_,rfl,rfl,rfl,trivial,not_mem_nil,not_mem_nil⟩

theorem printed_append (pattern x y : List UInt8) : printed pattern (x ++ y) = printed pattern x ++ printed pattern ((cut 10 x).2 ++ y) := by
  have tail := cut_clean (cut_rest 10 x)
  unfold printed
  rw [cut_append 10 x y,cut_append 10 (cut 10 x).2 y,tail]
  simp only [List.nil_append,List.filter_append,List.map_append]

theorem printed_clean (none : 10 ∉ x) : printed pattern x = [] := by
  rw [printed,cut_clean none]
  rfl

-- Before a read: behind the new bytes strchr will find nothing, and the piece ends a line unless no newline comes any more.
def Settled (L : Layout) (s : State) (piece : List UInt8) (rest : List (List UInt8)) : Prop :=
  Clear L s.mem (L.buf+s.m+piece.length).toNat ∧ (10 ∈ piece ∨ 10 ∉ rest.flatten)

def Throughout (L : Layout) (pattern : List UInt8) : List (List UInt8) → State → Prop
  | [],_ => True
  | piece :: rest,s => Settled L s piece rest ∧ ∀ next, turn L pattern s piece = some next → Throughout L pattern rest next

theorem grep_spec (pieces : List (List UInt8)) : ∀ {s r}, Carried L s r → 0 ∉ pieces.flatten → (∀ piece ∈ pieces, piece ≠ []) →
    Throughout L pattern pieces s → ∃ last, grep L pattern pieces s = some last ∧ last.out = s.out ++ printed pattern (r ++ pieces.flatten) := by
  induction pieces with
  | nil =>
    intro s r carried _ _ _
    refine ⟨s,rfl,?_⟩
    rw [List.flatten_nil,List.append_nil,printed_clean carried.plain,List.append_nil]
  | cons piece rest ih =>
    intro s r carried clean some fine
    rw [List.flatten_cons,List.mem_append,not_or] at clean
    obtain ⟨⟨clear,ends⟩,later⟩ := fine
    have place : (L.buf+s.m+piece.length).toNat = L.buf+r.length+piece.length := by rw [carried.m]; omega
    rw [place] at clear
    obtain ⟨next,ran,out,carries⟩ := turn_spec pattern carried clean.1 clear
    obtain ⟨last,done,written⟩ := ih carries clean.2 (fun piece member => some piece (.tail _ member)) (later next ran)
    have step : grep L pattern (piece :: rest) s = grep L pattern rest next := by
      cases piece with
      | nil => exact absurd rfl (some [] List.mem_cons_self)
      | cons c piece => rw [grep,ran]
    refine ⟨last,step.trans done,?_⟩
    rw [written,out,append_assoc,List.flatten_cons,← append_assoc r]
    congr 1
    by_cases newline : 10 ∈ piece
    · rw [if_pos newline,← printed_append]
    · have none : 10 ∉ rest.flatten := ends.resolve_left newline
      rw [if_neg newline,printed_clean (by simp [carried.plain,newline]),printed_clean (by simpa using none),printed_clean (by simp [carried.plain,newline,none])]
      rfl

end

theorem Carried.start (L : Layout) (mem : Memory) : Carried L ⟨mem,0,[]⟩ [] := ⟨rfl,trivial,not_mem_nil,not_mem_nil⟩

theorem grep_writes_lines {mem : Memory} (pieces : List (List UInt8)) (clean : 0 ∉ pieces.flatten) (filled : ∀ piece ∈ pieces, piece ≠ [])
    (fine : Throughout L pattern pieces ⟨mem,0,[]⟩) :
    ∃ last, grep L pattern pieces ⟨mem,0,[]⟩ = some last ∧ last.out = printed pattern pieces.flatten :=
  grep_spec pieces (.start L mem) clean filled fine

theorem grep_writes_a : ∃ last, grep ⟨0,2048⟩ [97] [[97,10]] ⟨fun _ => 0,0,[]⟩ = some last ∧ last.out = [[97,10]] := by
  have fine : Throughout ⟨0,2048⟩ [97] [[97,10]] ⟨fun _ => 0,0,[]⟩ := ⟨⟨rfl,.inl (by decide)⟩,fun _ _ => trivial⟩
  obtain ⟨last,ran,out⟩ := grep_writes_lines [[97,10]] (by decide) (by decide) fine
  refine ⟨last,ran,out.trans ?_⟩
  simp [printed,cut,glue,carry,matchText,matchFrom,matchhere]

-- "h" and then "i\n" are the line "hi", but the first piece has no newline and is dropped.
theorem grep_drops_piece : ∃ last, grep ⟨0,2048⟩ [104] [[104],[105,10]] ⟨fun _ => 0,0,[]⟩ = some last ∧ last.out = [] ∧
    printed [104] [[104],[105,10]].flatten = [[104,105,10]] := by
  have first : turn ⟨0,2048⟩ [104] ⟨fun _ => 0,0,[]⟩ [104] = some ⟨store (fun _ => 0) 0 [104],0,[]⟩ := rfl
  have clear : Clear ⟨0,2048⟩ (store (fun _ => 0) 0 [104]) 2 := rfl
  obtain ⟨last,second,out,_⟩ := turn_spec [104] (.start ⟨0,2048⟩ (store (fun _ => 0) 0 [104])) (show 0 ∉ [105,10] by decide) clear
  refine ⟨last,?_,out.trans ?_,?_⟩
  · rw [grep,first]
    dsimp only
    rw [grep,second]
    rfl
  · simp [printed,cut,glue,matchText,matchFrom,matchhere]
  · simp [printed,cut,glue,carry,matchText,matchFrom,matchhere]

end Xv6.User.Grep
