import Xv6.Shell.Reload

namespace Xv6.Console
open Shell

-- sysfile.c: sys_setHistory and sys_setExeCmd. User memory is a map of addresses.

abbrev Memory := Nat → UInt8

structure ExecutedCmd where
  len : Int
  commands : Nat → UInt8

def maxExecmd : Nat := 128
def execmdLen : Nat := 64

structure Tables where
  hs : HistoryStruct
  ec : ExecutedCmd
  first : Int
  tabLoc : Int

def readInt (mem : Memory) (p : Nat) : Int :=
  (BitVec.ofNat 32 ((mem p).toNat + 256 * (mem (p+1)).toNat + 65536 * (mem (p+2)).toNat + 16777216 * (mem (p+3)).toNat)).toInt

-- The characters that strlen counts; there are 2^32 addresses.
def cstringAt (mem : Memory) (p : Nat) : Nat → List UInt8
  | 0 => []
  | left+1 => if mem p = 0 then [] else mem p :: cstringAt mem (p+1) left

def cstring (mem : Memory) (p : Nat) : List UInt8 := cstringAt mem p 4294967296

-- argptr leaves the pointer at 0 where it fails, and nobody looks at what it returns. arg is what
-- argint fetches.
def argptr (sz : Nat) (arg : Option Nat) (size : Nat) : Option Nat :=
  arg.bind fun i => if i ≥ sz ∨ i + size > sz then none else some i

def pointer (sz : Nat) (arg : Option Nat) (size : Nat) : Nat := (argptr sz arg size).getD 0

def strncpy (m : Memory) (s : Nat) (t : List UInt8) : Memory := fun q => if s ≤ q ∧ q < s + t.length then t.getD (q-s) 0 else m q

structure Call where
  ret : Int
  tables : Tables
  copies : List (Nat × List UInt8)

def copies (mem : Memory) (base stride : Nat) (len : Int) : List (Nat × List UInt8) :=
  (List.range len.toNat).map fun i => (i,cstring mem (base + stride * i))

def copyAll (stride : Nat) (copies : List (Nat × List UInt8)) : Memory := copies.foldl (fun m c => strncpy m (stride * c.1) c.2) fun _ => 0

def sysSetHistory (mem : Memory) (sz : Nat) (arg : Option Nat) (t : Tables) : Call :=
  let p := pointer sz arg 4108
  let len := readInt mem p
  let copied := copies mem (p+12) hLen len
  ⟨0,{ t with hs := ⟨len,readInt mem (p+4),readInt mem (p+8),copyAll hLen copied⟩, first := 1 },copied⟩

def sysSetExeCmd (mem : Memory) (sz : Nat) (arg : Option Nat) (t : Tables) : Call :=
  let p := pointer sz arg 8196
  let len := readInt mem p
  let copied := copies mem (p+4) execmdLen len
  ⟨0,{ t with ec := ⟨len,copyAll execmdLen copied⟩, tabLoc := -1 },copied⟩

-- An error without effect; or every copy inside a table of that many entries of that size, and
-- then a position in the history that is one.
def Stays (entries size : Nat) (t : Tables) (call : Call) : Prop :=
  (call.ret ≠ 0 ∧ call.tables.hs = t.hs ∧ call.tables.ec = t.ec) ∨
  ((∀ c ∈ call.copies, c.1 < entries ∧ c.2.length ≤ size - 1) ∧ 0 ≤ call.tables.hs.current ∧ call.tables.hs.current < hItems)

-- A struct that the calls can take: not too long, with a NUL in every entry.
structure Sound (mem : Memory) (base entries size : Nat) (len : Int) : Prop where
  few : len ≤ entries
  ended : ∀ i : Nat, i < len → ∃ n < size, mem (base + size * i + n) = 0

section
variable {mem : Memory} {p base entries size : Nat}

theorem cstringAt_short (bound : Nat) (left : Nat) (enough : bound < left) :
    (cstringAt mem p left).length ≤ bound ↔ ∃ n < bound + 1, mem (p+n) = 0 := by
  induction left generalizing p bound with
  | zero => omega
  | succ left ih =>
    rw [cstringAt]
    split
    · rename_i zero
      exact iff_of_true (Nat.zero_le _) ⟨0,by omega,zero⟩
    rename_i other
    cases bound with
    | zero =>
      refine iff_of_false (fun short => absurd short (by rw [List.length_cons]; omega)) ?_
      rintro ⟨n,small,zero⟩
      obtain rfl : n = 0 := by omega
      exact other zero
    | succ bound =>
      rw [List.length_cons,Nat.add_le_add_iff_right,ih bound (by omega)]
      constructor
      · rintro ⟨n,small,zero⟩
        exact ⟨n+1,by omega,by rw [← zero,show p+(n+1) = p+1+n by omega]⟩
      · rintro ⟨n,small,zero⟩
        cases n with
        | zero => exact absurd zero other
        | succ n => exact ⟨n,by omega,by rw [← zero,show p+(n+1) = p+1+n by omega]⟩

theorem copies_sound (some : 0 < size) (small : size ≤ 128) (len : Int) :
    (∀ c ∈ copies mem base size len, c.1 < entries ∧ c.2.length ≤ size - 1) ↔ Sound mem base entries size len := by
  have short : ∀ i : Nat, (cstring mem (base + size * i)).length ≤ size - 1 ↔ ∃ n < size, mem (base + size * i + n) = 0 := by
    intro i
    have exact_ : (cstringAt mem (base + size * i) 4294967296).length ≤ size - 1 ↔ _ := cstringAt_short (size - 1) 4294967296 (by omega)
    rw [Nat.sub_add_cancel some] at exact_
    exact exact_
  constructor
  · intro all
    refine ⟨?_,fun i less => (short i).mp (all _ (List.mem_map.mpr ⟨i,List.mem_range.mpr (by omega),rfl⟩)).2⟩
    by_contra many
    have last := (all _ (List.mem_map.mpr ⟨entries,List.mem_range.mpr (by omega),rfl⟩)).1
    exact Nat.lt_irrefl _ last
  · rintro sound c member
    obtain ⟨i,less,rfl⟩ := List.mem_map.mp member
    have inside := List.mem_range.mp less
    have few := sound.few
    exact ⟨show i < entries by omega,(short i).mpr (sound.ended i (by omega))⟩

end

-- The two calls stay in bounds exactly on structs that are sound where the pointer ends up.
theorem tables_stay (mem : Memory) (sz : Nat) (arg : Option Nat) (t : Tables) :
    (Stays hItems hLen t (sysSetHistory mem sz arg t) ↔
      Sound mem (pointer sz arg 4108 + 12) hItems hLen (readInt mem (pointer sz arg 4108)) ∧
      0 ≤ readInt mem (pointer sz arg 4108 + 8) ∧ readInt mem (pointer sz arg 4108 + 8) < hItems) ∧
    (Stays maxExecmd execmdLen t (sysSetExeCmd mem sz arg t) ↔
      Sound mem (pointer sz arg 8196 + 4) maxExecmd execmdLen (readInt mem (pointer sz arg 8196)) ∧ 0 ≤ t.hs.current ∧ t.hs.current < hItems) := by
  constructor
  · unfold Stays sysSetHistory
    simp only [ne_eq,not_true_eq_false,false_and,false_or]
    rw [copies_sound (by decide) (by decide)]
  · unfold Stays sysSetExeCmd
    simp only [ne_eq,not_true_eq_false,false_and,false_or]
    rw [copies_sound (by decide) (by decide)]

structure Lies (mem : Memory) (p : Nat) (hs : HistoryStruct) : Prop where
  len : readInt mem p = hs.len
  start : readInt mem (p+4) = hs.start
  current : readInt mem (p+8) = hs.current
  history : ∀ q, mem (p+12+q) = hs.history q

def noTables : Tables := ⟨⟨0,0,0,fun _ => 0⟩,⟨0,fun _ => 0⟩,0,0⟩

-- What the shell passes after it has read an empty history, and one of 33 commands: the position
-- is -1 then, and the entry 32 is written.
theorem shell_out_of_bounds :
    (∃ read mem, getHistory (List.replicate bufSize 0) [] [] ⟨0,0,0,fun _ => 0⟩ = some read ∧ Lies mem 4096 read ∧
      (sysSetHistory mem 12288 (some 4096) noTables).tables.hs.current = -1 ∧
      ¬ Stays hItems hLen noTables (sysSetHistory mem 12288 (some 4096) noTables)) ∧
    (∃ read mem, getHistory (List.replicate bufSize 0) [] (historyFile (List.replicate 33 oneLetter)) ⟨0,0,0,fun _ => 0⟩ = some read ∧
      Lies mem 4096 read ∧ (∃ text, (32,text) ∈ (sysSetHistory mem 12288 (some 4096) noTables).copies) ∧
      ¬ Stays hItems hLen noTables (sysSetHistory mem 12288 (some 4096) noTables)) := by
  have stays : ∀ mem, Stays hItems hLen noTables (sysSetHistory mem 12288 (some 4096) noTables) →
      (∀ c ∈ (sysSetHistory mem 12288 (some 4096) noTables).copies, c.1 < 32) ∧ 0 ≤ readInt mem 4104 := by
    rintro mem (⟨failed,-⟩ | ⟨inside,low,-⟩)
    · exact absurd rfl failed
    · exact ⟨fun c member => (inside c member).1,low⟩
  constructor
  · refine ⟨⟨0,-1,-1,fun _ => 0⟩,fun a => if 4100 ≤ a ∧ a < 4108 then 255 else 0,by rfl,⟨by decide +kernel,by decide +kernel,by decide +kernel,fun q => ?_⟩,
      by decide +kernel,fun bad => absurd (stays _ bad).2 (by decide +kernel)⟩
    exact if_neg (by omega)
  · have read : (getHistory (List.replicate bufSize 0) [] (historyFile (List.replicate 33 oneLetter)) ⟨0,0,0,fun _ => 0⟩).map
        (fun r => (r.len,r.start,r.current)) = some (33,0,0) := by decide +kernel
    obtain ⟨⟨len,start,current,history⟩,run,same⟩ := Option.map_eq_some_iff.mp read
    cases same
    have lies : Lies (fun a => if a < 4108 then if a = 4096 then 33 else 0 else history (a-4108)) 4096 ⟨33,0,0,history⟩ := by
      refine ⟨by rfl,by rfl,by rfl,fun q => ?_⟩
      show (if 4096+12+q < 4108 then _ else history (4096+12+q-4108)) = history q
      rw [if_neg (by omega),show 4096+12+q-4108 = q by omega]
    have entry : ∃ text, (32,text) ∈ (sysSetHistory (fun a => if a < 4108 then if a = 4096 then 33 else 0 else history (a-4108)) 12288 (some 4096)
        noTables).copies := by
      refine ⟨_,List.mem_map.mpr ⟨32,List.mem_range.mpr ?_,rfl⟩⟩
      have len : readInt (fun a => if a < 4108 then if a = 4096 then 33 else 0 else history (a-4108)) 4096 = 33 := lies.len
      show 32 < (readInt _ 4096).toNat
      rw [len]
      decide
    obtain ⟨text,member⟩ := entry
    exact ⟨_,_,run,lies,⟨text,member⟩,fun bad => absurd ((stays _ bad).1 _ member) (Nat.lt_irrefl 32)⟩

end Xv6.Console
