import Xv6.LogCrash
import Mathlib.Data.List.Nodup

namespace Xv6.Fs
open Function (update_of_ne update_self)
open Bytes LogCrash

-- The log as the file system sees it: a disk whose blocks outside of the log are what
-- bread gives. log_write changes one of them, a commit none.

structure Sane (a : Area) (s : Store) : Prop where
  start : s.start = a.start
  size : s.size = a.size
  distinct : s.lh.Nodup
  words : ∀ b ∈ s.lh, b < 4294967296
  outside : ∀ b ∈ s.lh, a.Outside b
  cap : s.lh.length ≤ LOGSIZE
  room : s.lh.length < a.size
  pinned : ∀ x, s.dirty x ≠ none → x ∈ s.lh
  slot : ∀ t b, s.lh[t]? = some b → s.dirty b = some (s.disk (s.start+t+1))
  idle : s.busy = false → s.lh = []

section
variable {a : Area} {s next : Store}

def Full (s : Store) : Prop := LOGSIZE ≤ s.lh.length ∨ s.size-1 ≤ s.lh.length

theorem Sane.written (sane : Sane a s) (out : a.Outside b) (word : b < 4294967296) (ran : Store.LogWritten s next b data) :
    Sane a next := by
  have within : s.lh.idxOf b ≤ s.lh.length := List.idxOf_le_length
  have start := sane.start
  have size := sane.size
  have cap := ran.cap
  have room := ran.room
  have longer := ran.length
  -- No log block is a home block.
  have apart : ∀ x ∈ s.lh, x ≠ s.start+s.lh.idxOf b+1 := by
    intro x member
    rw [start,Nat.add_assoc]
    exact outside_ne_log (sane.outside x member) (by omega)
  have other : b ≠ s.start+s.lh.idxOf b+1 := by
    rw [start,Nat.add_assoc]
    exact outside_ne_log out (by omega)
  constructor
  case start => exact ran.start.trans start
  case size => exact ran.size.trans size
  case distinct => exact ran.nodup sane.distinct
  case words =>
    intro x member
    rcases ran.mem.mp member with before | rfl
    · exact sane.words x before
    · exact word
  case outside =>
    intro x member
    rcases ran.mem.mp member with before | rfl
    · exact sane.outside x before
    · exact out
  case cap => omega
  case room => omega
  case pinned =>
    intro x dirty
    by_cases here : x = b
    · exact ran.mem.mpr (.inr here)
    · exact ran.mem.mpr (.inl (sane.pinned x (ran.pinned dirty here)))
  case slot =>
    intro t x at_t
    rw [ran.dirty,ran.disk,ran.start]
    by_cases here : x = b
    · -- The slot of b is where the data went.
      subst here
      have index : t = s.lh.idxOf x := by
        rw [ran.lh] at at_t
        split at at_t
        · obtain ⟨inside,here⟩ := List.getElem?_eq_some_iff.mp at_t
          rw [← here]
          exact (sane.distinct.idxOf_getElem t inside).symm
        · rename_i missing
          rw [List.idxOf_of_notMem missing]
          by_contra early
          rw [List.getElem?_append] at at_t
          split at at_t
          · exact missing (List.mem_of_getElem? at_t)
          · rename_i late
            have := (List.getElem?_eq_some_iff.mp at_t).1
            simp only [List.length_singleton] at this
            omega
      subst index
      rw [update_self,update_self]
    · have before : s.lh[t]? = some x := by
        rw [ran.lh] at at_t
        split at at_t
        · exact at_t
        · rw [List.getElem?_append] at at_t
          split at at_t
          · exact at_t
          · exact absurd (List.mem_singleton.mp (List.mem_of_getElem? at_t)) here
      have index : t ≠ s.lh.idxOf b := by
        rintro rfl
        have same := (List.getElem?_eq_some_iff.mp before).2
        rw [List.getElem_idxOf] at same
        exact here same.symm
      rw [update_of_ne here,update_of_ne (apart x (List.mem_of_getElem? before)),
        update_of_ne (show s.start+t+1 ≠ s.start+s.lh.idxOf b+1 by omega)]
      exact sane.slot t x before
  case idle =>
    intro idle
    rw [ran.stays,ran.busy] at idle
    cases idle

theorem Sane.bread (sane : Sane a s) (ran : Store.LogWritten s next b data) (x : Nat) (out : a.Outside x) :
    next.bread x = if x = b then data else s.bread x := by
  have within : s.lh.idxOf b ≤ s.lh.length := List.idxOf_le_length
  have size := sane.size
  have room := ran.room
  have other : x ≠ s.start+s.lh.idxOf b+1 := by
    rw [sane.start,Nat.add_assoc]
    exact outside_ne_log out (by omega)
  unfold Store.bread
  rw [ran.dirty,ran.disk,update_of_ne other]
  split
  · rename_i here
    subst here
    rw [update_self]; rfl
  · rename_i elsewhere
    rw [update_of_ne elsewhere,update_of_ne other]

theorem logWrite_ok (free : ¬ Full s) (busy : s.busy = true) (b : Nat) (data : Block) :
    ∃ next, s.logWrite b data = .ok next ∧ Store.LogWritten s next b data := by
  have ran : ∃ next, s.logWrite b data = .ok next := by
    unfold Store.logWrite
    unfold Full at free
    rw [if_neg free,busy]
    exact ⟨_,rfl⟩
  obtain ⟨next,ran⟩ := ran
  exact ⟨next,ran,Store.logWrite_written ran⟩

theorem apply_slots (sane : Sane a s) (x : Nat) :
    Writes.apply (slots s) s.disk x = s.bread x := by
  unfold Store.bread
  by_cases member : x ∈ s.lh
  · obtain ⟨t,at_t⟩ := List.mem_iff_getElem?.mp member
    rw [sane.slot t x at_t]
    refine Writes.apply_mem (by rw [slots_keys]; exact sane.distinct) (List.mem_mapIdx.mpr ?_)
    obtain ⟨inside,here⟩ := List.getElem?_eq_some_iff.mp at_t
    exact ⟨t,inside,by rw [here]; rfl⟩
  · have clean : s.dirty x = none := by
      by_contra dirty
      exact member (sane.pinned x dirty)
    rw [clean,Writes.apply_other]
    · rfl
    · intro w mem same
      apply member
      rw [← slots_keys s,← same]
      exact List.mem_map_of_mem mem

theorem Sane.opened (sane : Sane a s) (busy : s.busy = true) : Open a s.disk s (slots s) [] where
  start := sane.start
  size := sane.size
  busy := busy
  distinct := sane.distinct
  words := sane.words
  outside := sane.outside
  cap := sane.cap
  room := sane.room
  pinned x := by
    by_cases clean : s.dirty x = none
    · exact .inl clean
    · exact .inr ⟨x,sane.pinned x clean,rfl⟩
  disk := rfl
  logged := by simp
  meaning _ := rfl
  empty := by simp [slots]

theorem Sane.commit (sane : Sane a s) :
    Sane a s.commitTrans ∧ s.commitTrans.busy = false ∧ ∀ x, a.Outside x → s.commitTrans.bread x = s.bread x := by
  by_cases none : s.lh = []
  · have same : s.commitTrans = { s with busy := false } := by simp [Store.commitTrans,none]
    rw [same]
    exact ⟨{ sane with idle := fun _ => none },rfl,fun _ _ => rfl⟩
  have busy : s.busy = true := by
    by_contra idle
    exact none (sane.idle (by simpa using idle))
  obtain ⟨head,clear,done⟩ := commit_writes (sane.opened busy) none
  obtain ⟨start,size,lh,idle,pinned,_⟩ := done.idle
  refine ⟨⟨start,size,by simp [lh],by simp [lh],by simp [lh],by simp [lh],by simpa [lh] using a.header,fun x dirty => absurd (pinned x) dirty,
    by simp [lh],fun _ => lh⟩,idle,fun x out => ?_⟩
  have away : x ≠ a.start := outside_ne_log out a.header
  rw [← apply_slots sane x]
  unfold Store.bread
  rw [pinned x,done.disk,Writes.apply_cons,Writes.apply_append]
  simp only [Option.getD_none,Writes.apply_cons,Writes.apply_nil,update_of_ne away]
  exact Writes.apply_congr _ _ _ _ (.inr (update_of_ne away _ _))

theorem Sane.begin (sane : Sane a s) : Sane a { s with busy := true } :=
  { sane with idle := fun impossible => by cases impossible }

end
end Xv6.Fs
