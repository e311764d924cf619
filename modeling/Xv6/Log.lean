import Xv6.Disk

namespace Xv6
open Bytes

-- log.c over the disk and the buffers it pins. A clean buffer equals its
-- sector, so only the buffers that log_write marked B_DIRTY carry contents of
-- their own. `writes` records every sector write in program order.
structure Store where
  disk : Disk
  dirty : Nat → Option Block
  start : Nat
  size : Nat
  lh : List Nat
  busy : Bool
  writes : List (Nat × Block)

namespace Store

def bread (s : Store) (b : Nat) : Block := (s.dirty b).getD (s.disk b)

def bwrite (s : Store) (b : Nat) (data : Block) : Store :=
  {s with disk := Function.update s.disk b data, dirty := Function.update s.dirty b none,
          writes := s.writes ++ [(b,data)]}

def headWord (b : Block) : Nat := ld32 b.byte 0
def headN (b : Block) : Nat := if headWord b < 2147483648 then headWord b else 0
def headSectors (b : Block) : List Nat := (List.range (headN b)).map fun i => ld32 b.byte (4+4*i)

def putSectors (m : Bytes.Store) : Nat → List Nat → Bytes.Store
  | _,[] => m
  | i,b::bs => putSectors (st32 m (4+4*i) b) (i+1) bs

def putHead (b : Block) (lh : List Nat) : Block :=
  .ofStore (putSectors (st32 b.byte 0 lh.length) 0 lh)

def readHead (s : Store) : Store := {s with lh := headSectors (s.bread s.start)}

def writeHead (s : Store) : Store := s.bwrite s.start (putHead (s.bread s.start) s.lh)

def installFrom (s : Store) : Nat → List Nat → Store
  | _,[] => s
  | tail,b::bs => installFrom (s.bwrite b (s.bread (s.start+tail+1))) (tail+1) bs

def installTrans (s : Store) : Store := s.installFrom 0 s.lh

def recoverFromLog (s : Store) : Store := writeHead {installTrans (readHead s) with lh := []}

def beginTrans (s : Store) : Except Stop Store :=
  if s.busy then .error .sleeps else .ok {s with busy := true}

def commitTrans (s : Store) : Store :=
  let s := if 0 < s.lh.length then writeHead {installTrans (writeHead s) with lh := []} else s
  {s with busy := false}

-- b is the caller's buffer, already holding data. The slot search stops at the
-- first equal sector (absorption) or at n, which `idxOf` returns when absent.
def logWrite (s : Store) (b : Nat) (data : Block) : Except Stop Store :=
  if LOGSIZE ≤ s.lh.length ∨ s.size-1 ≤ s.lh.length then .error (.panic .tooBigTransaction)
  else if !s.busy then .error (.panic .writeOutsideTrans)
  else
    let i := s.lh.idxOf b
    let after := s.bwrite (s.start+i+1) data
    .ok {after with
      lh := if i < s.lh.length then s.lh.set i b else s.lh ++ [b]
      dirty := Function.update after.dirty b (some data)}

def boot (start size : Nat) (d : Disk) : Store :=
  ⟨d,fun _ => none,start,size,[],false,[]⟩

def initlog (start size : Nat) (d : Disk) : Store := recoverFromLog (boot start size d)

theorem bwrite_disk (s : Store) : (s.bwrite b data).disk = Function.update s.disk b data := rfl
@[simp] theorem bwrite_start (s : Store) : (s.bwrite b data).start = s.start := rfl
@[simp] theorem bwrite_lh (s : Store) : (s.bwrite b data).lh = s.lh := rfl

theorem installFrom_start (s : Store) (t : Nat) (bs : List Nat) :
    (s.installFrom t bs).start = s.start := by
  induction bs generalizing s t with
  | nil => rfl
  | cons b bs ih => simp [installFrom,ih]

theorem installFrom_size (s : Store) (t : Nat) (bs : List Nat) :
    (s.installFrom t bs).size = s.size := by
  induction bs generalizing s t with
  | nil => rfl
  | cons b bs ih => simp [installFrom,ih,bwrite]

theorem putSectors_low (m : Bytes.Store) (i o : Nat) (bs : List Nat) (below : o < 4+4*i) :
    putSectors m i bs o = m o := by
  induction bs generalizing m i with
  | nil => rfl
  | cons b bs ih => rw [putSectors,ih _ _ (by omega),st32,copy_out _ _ (by omega)]

theorem putSectors_at (m : Bytes.Store) (i j : Nat) (bs : List Nat) (inside : j < bs.length)
    (words : ∀ b ∈ bs, b < 4294967296) :
    ld32 (putSectors m i bs) (4+4*(i+j)) = bs[j] := by
  induction bs generalizing m i j with
  | nil => simp at inside
  | cons b bs ih =>
    cases j with
    | zero =>
      rw [putSectors,ld32_congr (p := st32 m (4+4*i) b)]
      · rw [ld32_st32]; exact Nat.mod_eq_of_lt (words b (by simp))
      · intro t small; exact putSectors_low _ _ _ _ (by omega)
    | succ j =>
      have shifted := ih (st32 m (4+4*i) b) (i+1) j (by simpa using inside)
        (fun x member => words x (by simp [member]))
      rw [show i+(j+1) = i+1+j by omega]
      simpa [putSectors] using shifted

theorem headWord_putHead (b : Block) (lh : List Nat) (fits : lh.length < 2147483648) :
    headWord (putHead b lh) = lh.length := by
  rw [headWord,putHead,Block.ld32_ofStore _ (by omega),
    ld32_congr (fun t small => putSectors_low _ _ _ _ (by omega)),
    ld32_st32]
  exact Nat.mod_eq_of_lt (by omega)

theorem headN_putHead (b : Block) (lh : List Nat) (fits : lh.length < 2147483648) :
    headN (putHead b lh) = lh.length := by
  simp [headN,headWord_putHead b lh fits,fits]

theorem headN_zero (zero : headWord b = 0) : headN b = 0 := by simp [headN,zero]

theorem headSectors_putHead (b : Block) (lh : List Nat) (fits : lh.length ≤ LOGSIZE)
    (words : ∀ x ∈ lh, x < 4294967296) : headSectors (putHead b lh) = lh := by
  unfold LOGSIZE at fits
  have count := headN_putHead b lh (by omega)
  apply List.ext_getElem
  · simp [headSectors,count]
  intro j _ inside
  have found := putSectors_at (st32 b.byte 0 lh.length) 0 j lh inside words
  simp only [headSectors,List.getElem_map,List.getElem_range]
  rw [putHead,Block.ld32_ofStore _ (by omega)]
  simpa using found

-- What a log_write that returns has done.
structure LogWritten (s next : Store) (b : Nat) (data : Block) : Prop where
  cap : s.lh.length < LOGSIZE
  room : s.lh.length < s.size-1
  busy : s.busy = true
  disk : next.disk = Function.update s.disk (s.start+s.lh.idxOf b+1) data
  dirty : next.dirty = Function.update (Function.update s.dirty (s.start+s.lh.idxOf b+1) none) b (some data)
  lh : next.lh = if b ∈ s.lh then s.lh else s.lh ++ [b]
  start : next.start = s.start
  size : next.size = s.size
  stays : next.busy = s.busy
  writes : next.writes = s.writes ++ [(s.start+s.lh.idxOf b+1,data)]

theorem logWrite_written (ran : s.logWrite b data = .ok next) : LogWritten s next b data := by
  unfold logWrite at ran
  split at ran
  · cases ran
  rename_i full
  split at ran
  · cases ran
  rename_i open_
  cases ran
  refine ⟨by omega,by omega,by simpa using open_,rfl,rfl,?_,rfl,rfl,rfl,rfl⟩
  by_cases member : b ∈ s.lh
  · have found : s.lh.idxOf b < s.lh.length := List.idxOf_lt_length_iff.mpr member
    have same : s.lh.set (s.lh.idxOf b) b = s.lh := by
      have here : s.lh[s.lh.idxOf b] = b := List.getElem_idxOf found
      nth_rewrite 2 [← here]
      exact List.set_getElem_self found
    simp only [found,if_true,member,same]
  · have missing : ¬ s.lh.idxOf b < s.lh.length := fun found => member (List.idxOf_lt_length_iff.mp found)
    simp only [missing,if_false,member]

section
variable {s next : Store} (ran : LogWritten s next b data)
include ran

theorem LogWritten.mem : x ∈ next.lh ↔ x ∈ s.lh ∨ x = b := by
  rw [ran.lh]
  split
  · rename_i member
    exact ⟨.inl,fun either => either.elim id fun same => same ▸ member⟩
  · simp

theorem LogWritten.nodup (distinct : s.lh.Nodup) : next.lh.Nodup := by
  rw [ran.lh]
  split
  · exact distinct
  rename_i missing
  refine List.nodup_append.mpr ⟨distinct,by simp,fun x member y single => ?_⟩
  rw [List.mem_singleton.mp single]
  exact fun same => missing (same ▸ member)

theorem LogWritten.length : next.lh.length ≤ s.lh.length+1 := by
  rw [ran.lh]
  split <;> simp

theorem LogWritten.pinned (dirty : next.dirty x ≠ none) (other : x ≠ b) : s.dirty x ≠ none := by
  rw [ran.dirty,Function.update_of_ne other] at dirty
  by_cases log : x = s.start+s.lh.idxOf b+1
  · rw [log,Function.update_self] at dirty
    exact absurd rfl dirty
  · rwa [Function.update_of_ne log] at dirty

end

end Store
end Xv6
