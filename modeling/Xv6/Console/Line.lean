import Xv6.Lib.Ring
import Xv6.Console.Order

namespace Xv6.Console

-- The line that is being typed, and the keys that bring back an earlier one.

namespace Input
variable {s : Input} {x : Word} {cs : List UInt8}

-- The bytes from one place of the buffer to another.
def held (s : Input) (x y : Word) : List UInt8 := Ring.contents inputBuf (2^32) s.buf x.toNat y.toNat

def line (s : Input) : List UInt8 := s.held s.w s.e

theorem count_word (x y : Word) : Ring.count (2^32) x.toNat y.toNat = (y - x).toNat := by
  unfold Ring.count
  bv_omega

theorem held_length (s : Input) (x y : Word) : (s.held x y).length = (y - x).toNat := by
  rw [held,Ring.contents_length,count_word]

theorem held_self (s : Input) (x : Word) : s.held x x = [] := Ring.contents_self _ x.isLt

theorem held_cons (more : x ≠ y) : s.held x y = s.buf (x.toNat % inputBuf) :: s.held (x+1) y := by
  have place : (x+1).toNat = (x.toNat+1) % 2^32 := BitVec.toNat_add ..
  unfold held
  rw [place]
  exact Ring.contents_take (by decide) x.isLt y.isLt (by rw [count_word]; bv_omega) s.buf

theorem held_put (room : (s.e - x).toNat < inputBuf) (c : UInt8) : (s.put c).held x (s.e+1) = s.held x s.e ++ [c] := by
  have place : (s.e+1).toNat = (s.e.toNat+1) % 2^32 := BitVec.toNat_add ..
  unfold held
  rw [place]
  exact Ring.contents_put (by decide) x.isLt s.e.isLt (by rw [count_word]; exact room) s.buf c (by decide)

theorem held_insert (room : (s.e - x).toNat + cs.length ≤ inputBuf) : (s.insert cs).held x (s.insert cs).e = s.held x s.e ++ cs := by
  induction cs generalizing s with
  | nil => exact (List.append_nil _).symm
  | cons c cs ih =>
    rw [List.length_cons] at room
    have next : ((s.put c).e - x).toNat = (s.e - x).toNat + 1 := by
      show (s.e + 1 - x).toNat = _
      unfold inputBuf at room
      bv_omega
    have rest := ih (s := s.put c) (by omega)
    show ((s.put c).insert cs).held x ((s.put c).insert cs).e = _
    rw [rest]
    show (s.put c).held x (s.e+1) ++ cs = _
    rw [held_put (by omega),List.append_assoc]
    rfl

theorem held_cut (fewer : n ≤ (y - x).toNat) : s.held x (x + BitVec.ofNat 32 n) = (s.held x y).take n := by
  have place : (x + BitVec.ofNat 32 n).toNat = (x.toNat + n) % 2^32 := by
    rw [BitVec.toNat_add,BitVec.toNat_ofNat,Nat.add_mod_mod]
  unfold held
  rw [place]
  exact Ring.contents_cut s.buf x.isLt y.isLt (by rw [count_word]; exact fewer)

theorem held_drop (fewer : n ≤ (y - x).toNat) : s.held (x + BitVec.ofNat 32 n) y = (s.held x y).drop n := by
  have place : (x + BitVec.ofNat 32 n).toNat = (x.toNat + n) % 2^32 := by
    rw [BitVec.toNat_add,BitVec.toNat_ofNat,Nat.add_mod_mod]
  unfold held
  rw [place]
  exact Ring.contents_drop (by decide) s.buf x.isLt y.isLt (by rw [count_word]; exact fewer)

end Input

inductive Arrow where
  | up | down
deriving DecidableEq, Repr

def Arrow.key : Arrow → Nat
  | .up => 226
  | .down => 227

def Arrow.move (n p : Nat) : Arrow → Nat
  | .up => min (p+1) n
  | .down => p-1

-- The command that is p back, with command i of all that were stored at i % H_ITEMS; none for p = 0.
def History.recent (hs : History) (p : Nat) : List UInt8 :=
  if p = 0 then [] else (hs.history (Fin.ofNat 32 (hs.len - p))).chars

-- Where the cursor is p, the flag and the index say so. Only hs.current changes in hs.
structure Pointing (hs : History) (p : Nat) (s : Input) : Prop where
  shell : s.programStatus = .shell
  len : s.hs.len = hs.len
  start : s.hs.start = hs.start
  history : s.hs.history = hs.history
  near : p ≤ min hs.len 32
  fresh : p = 0 → s.first = true ∧ s.hs.current = hs.start
  back : p ≠ 0 → s.first = false ∧ s.hs.current = Fin.ofNat 32 (hs.len - p)

namespace Input
variable {s : Input}

theorem line_recalled (s : Input) (i : Fin 32) : ({ s with constantTab := -1, e := s.w }.recalled i).line = (s.hs.history i).chars := by
  have short := (s.hs.history i).short
  have begun : (({ s with constantTab := -1, e := s.w, hs := { s.hs with current := i } } : Input).insert (s.hs.history i).chars).w = s.w := by
    rw [insert_eq]
  unfold line Input.recalled
  simp only
  rw [begun,held_insert]
  · rw [held_self,List.nil_append]
  · rw [BitVec.sub_self]
    exact Nat.le_of_lt (by rw [BitVec.toNat_zero,Nat.zero_add]; exact short)

theorem recalled_typed (typed : s.first = false) (i : Fin 32) :
    { s with constantTab := -1, e := s.w }.recalled i = { { s with constantTab := -1, e := s.w }.recalled i with first := false } := by
  unfold Input.recalled
  rw [insert_eq]
  simp only [typed]

section
variable (started : s.hs.start.val = (s.hs.len-1) % 32) (here : s.hs.current = Fin.ofNat 32 (s.hs.len - p)) (back : p ≠ 0) (near : p ≤ min s.hs.len 32)
include started here back near

theorem older_back : s.older = Fin.ofNat 32 (s.hs.len - min (p+1) (min s.hs.len 32)) := by
  have place : s.hs.current.val = (s.hs.len - p) % 32 := congrArg Fin.val here
  unfold older
  split_ifs with full more more
  all_goals
    simp only [Fin.ext_iff,Fin.sub_def,Fin.add_def,Fin.ofNat,Fin.val_one,ne_eq] at *
    omega

theorem newer_back (more : p ≠ 1) : s.newer = Fin.ofNat 32 (s.hs.len - (p-1)) := by
  have place : s.hs.current.val = (s.hs.len - p) % 32 := congrArg Fin.val here
  unfold newer
  split_ifs with full less less
  all_goals
    simp only [Fin.ext_iff,Fin.lt_def,Fin.add_def,Fin.ofNat,Fin.val_one,ne_eq] at *
    omega

theorem newest_back : s.hs.current = s.hs.start ↔ p = 1 := by
  have place : s.hs.current.val = (s.hs.len - p) % 32 := congrArg Fin.val here
  rw [Fin.ext_iff,place,started]
  omega

end
end Input

namespace Pointing
variable {hs : History} {s t : Input}

section
variable (pointing : Pointing hs p s)
include pointing

theorem recalled (near : q ≤ min hs.len 32) (back : q ≠ 0) (there : i = Fin.ofNat 32 (hs.len - q))
    (done : t = { { s with constantTab := -1, e := s.w }.recalled i with first := false }) : Pointing hs q t ∧ t.line = hs.recent q := by
  subst there done
  have text := Input.line_recalled s (Fin.ofNat 32 (hs.len - q))
  refine ⟨?_,?_⟩
  · unfold Input.recalled
    rw [Input.insert_eq]
    exact ⟨pointing.shell,pointing.len,pointing.start,pointing.history,near,fun zero => absurd zero back,fun _ => ⟨rfl,rfl⟩⟩
  · unfold History.recent
    rw [if_neg back,← pointing.history]
    exact text

variable (some : 1 ≤ hs.len) (started : hs.start.val = (hs.len-1) % 32)
include some started

theorem up : Pointing hs (Arrow.up.move (min hs.len 32) p) s.up ∧ s.up.line = hs.recent (Arrow.up.move (min hs.len 32) p) := by
  have near := pointing.near
  refine pointing.recalled (i := if s.first then s.hs.current else s.older) (Nat.min_le_right ..) ?_ ?_ ?_
  · show min (p+1) (min hs.len 32) ≠ 0
    omega
  · by_cases zero : p = 0
    · obtain ⟨fresh,here⟩ := pointing.fresh zero
      subst zero
      rw [fresh,if_pos rfl,here]
      apply Fin.ext
      rw [started]
      show _ = (hs.len - min (0+1) (min hs.len 32)) % 32
      rw [Nat.min_eq_left (by omega)]
    · obtain ⟨typed,here⟩ := pointing.back zero
      rw [typed,if_neg Bool.false_ne_true]
      rw [← pointing.len] at here near started ⊢
      exact Input.older_back (by rw [pointing.start]; exact started) here zero near
  · unfold Input.up
    simp only
    split
    · rfl
    · rename_i typed
      exact Input.recalled_typed (by simpa using typed) s.older

omit some in
theorem down : Pointing hs (Arrow.down.move (min hs.len 32) p) s.down ∧ s.down.line = hs.recent (Arrow.down.move (min hs.len 32) p) := by
  have newest : s.hs.current = s.hs.start ↔ p ≤ 1 := by
    by_cases zero : p = 0
    · simp [zero,pointing.start,(pointing.fresh zero).2]
    · have one := Input.newest_back (by rw [pointing.len,pointing.start]; exact started) (by rw [pointing.len]; exact (pointing.back zero).2) zero
        (by rw [pointing.len]; exact pointing.near)
      rw [one]
      omega
  unfold Input.down
  simp only
  split
  · rename_i here
    have zero : p-1 = 0 := by
      have := newest.mp here
      omega
    show Pointing hs (p-1) _ ∧ Input.line _ = hs.recent (p-1)
    rw [zero]
    exact ⟨⟨pointing.shell,pointing.len,pointing.start,pointing.history,Nat.zero_le _,fun _ => ⟨rfl,here.trans pointing.start⟩,
      fun back => absurd rfl back⟩,Input.held_self ..⟩
  · rename_i later
    have far : ¬ p ≤ 1 := fun one => later (newest.mpr one)
    obtain ⟨typed,here⟩ := pointing.back (by omega)
    have near := pointing.near
    refine pointing.recalled (show p-1 ≤ _ by omega) (show p-1 ≠ 0 by omega) ?_ (Input.recalled_typed typed s.newer)
    rw [← pointing.len] at here near started ⊢
    exact Input.newer_back (by rw [pointing.start]; exact started) here (by omega) near (by omega)

theorem arrow (key : Arrow) : ∃ t, s.consoleintr key.key = Option.some t ∧
    Pointing hs (key.move (min hs.len 32) p) t ∧ t.line = hs.recent (key.move (min hs.len 32) p) := by
  cases key with
  | up =>
    refine ⟨s.up,?_,pointing.up some started⟩
    show Option.some (s.shellOnly Input.up) = _
    rw [Input.shellOnly,if_pos pointing.shell]
  | down =>
    refine ⟨s.down,?_,pointing.down started⟩
    show Option.some (s.shellOnly Input.down) = _
    rw [Input.shellOnly,if_pos pointing.shell]

theorem arrows (keys : List Arrow) (shown : s.line = hs.recent p) : ∃ t, keys.foldlM (fun s key => s.consoleintr key.key) s = Option.some t ∧
    t.line = hs.recent (keys.foldl (Arrow.move (min hs.len 32)) p) := by
  induction keys generalizing s p with
  | nil => exact ⟨s,rfl,shown⟩
  | cons key keys ih =>
    obtain ⟨t,pressed,next,text⟩ := pointing.arrow some started key
    obtain ⟨u,rest,last⟩ := ih next text
    refine ⟨u,?_,last⟩
    rw [List.foldlM_cons,pressed]
    exact rest

end
end Pointing

theorem arrows_clamped (s : Input) (keys : List Arrow) (shell : s.programStatus = .shell) (some : 1 ≤ s.hs.len)
    (started : s.hs.start.val = (s.hs.len-1) % 32) (newest : s.hs.current = s.hs.start) (fresh : s.first = true) (typed : keys = [] → s.e = s.w) :
    ∃ t, keys.foldlM (fun s key => s.consoleintr key.key) s = Option.some t ∧
      t.line = s.hs.recent (keys.foldl (Arrow.move (min s.hs.len 32)) 0) := by
  have pointing : Pointing s.hs 0 s := ⟨shell,rfl,rfl,rfl,Nat.zero_le _,fun _ => ⟨fresh,newest⟩,fun back => absurd rfl back⟩
  cases keys with
  | nil =>
    refine ⟨s,rfl,?_⟩
    show s.held s.w s.e = []
    rw [typed rfl]
    exact Input.held_self ..
  | cons key keys =>
    obtain ⟨t,pressed,next,text⟩ := pointing.arrow some started key
    obtain ⟨u,rest,last⟩ := next.arrows some started keys text
    refine ⟨u,?_,last⟩
    rw [List.foldlM_cons,pressed]
    exact rest

theorem arrows_clamped_ls : ∃ t, [Arrow.up,.up,.down].foldlM (fun s key => s.consoleintr key.key) { boot with hs := oneCommand, first := true } = some t ∧
    t.line = oneCommand.recent 0 :=
  arrows_clamped { boot with hs := oneCommand, first := true } [.up,.up,.down] rfl (by decide) (by decide) rfl rfl (fun none => by cases none)

end Xv6.Console
