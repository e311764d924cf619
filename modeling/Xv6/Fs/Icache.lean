import Xv6.Fs.Inode

namespace Xv6.Fs.Core
open Bytes Exec LogCrash

-- References to inodes: iget, idup and iput.

section
variable {s mid next : State} {E : Stop → State → Prop}

structure Got (s next : State) (ip i : Nat) : Prop where
  inum : (next.icache ip).inum = i
  slot : (0 < (s.icache ip).ref ∧ next.icache ip = { s.icache ip with ref := (s.icache ip).ref+1 }) ∨
    ((s.icache ip).ref = 0 ∧ next.icache ip = { s.icache ip with inum := i, ref := 1, busy := false, valid := false })
  state : next = { s with icache := Function.update s.icache ip (next.icache ip) }

theorem Got.ref (got : Got s next ip i) : (next.icache ip).ref = (s.icache ip).ref+1 := by
  rcases got.slot with ⟨_,eq⟩ | ⟨free,eq⟩
  · rw [eq]
  · rw [eq,free]

theorem Got.other (got : Got s next ip i) (apart : x ≠ ip) : next.icache x = s.icache x := by
  rw [got.state]
  exact Function.update_of_ne apart _ _

def Fresh (s : State) (ip i : Nat) : Prop := (s.icache ip).ref = 0 → ∀ x < 50, 0 < (s.icache x).ref → (s.icache x).inum ≠ i

theorem iget_spec (full : (∀ x < 50, (s.icache x).ref ≠ 0) → E (.panic .igetNoInodes) s) :
    Sat (iget i) s E fun ip next => ip < 50 ∧ Fresh s ip i ∧ Got s next ip i := by
  rw [iget,sat_get_bind]
  cases found : (List.range 50).find? fun x => 0 < (s.icache x).ref ∧ (s.icache x).inum = i with
  | some ip =>
    have inside := List.mem_range.mp (List.mem_of_find?_eq_some found)
    have here := List.find?_some found
    simp only [decide_eq_true_eq] at here
    rw [sat_setInode,sat_pure]
    refine ⟨inside,fun free => absurd here.1 (by omega),?_,.inl ⟨here.1,?_⟩,?_⟩
    · simp [here.2]
    · simp
    · simp
  | none =>
    have fresh : ∀ x < 50, 0 < (s.icache x).ref → (s.icache x).inum ≠ i := by
      intro x small live same
      have := List.find?_eq_none.mp found x (List.mem_range.mpr small)
      simp [live,same] at this
    cases free : (List.range 50).find? fun x => (s.icache x).ref = 0 with
    | none =>
      refine (sat_stop ..).mpr (full fun x small zero => ?_)
      have := List.find?_eq_none.mp free x (List.mem_range.mpr small)
      simp [zero] at this
    | some ip =>
      have inside := List.mem_range.mp (List.mem_of_find?_eq_some free)
      have zero := List.find?_some free
      simp only [decide_eq_true_eq] at zero
      rw [sat_setInode,sat_pure]
      refine ⟨inside,fun _ => fresh,?_,.inr ⟨zero,?_⟩,?_⟩
      · simp
      · simp
      · simp

theorem not_full {P : Prop} (spot : ∃ x < 50, (s.icache x).ref = 0) (all : ∀ x < 50, (s.icache x).ref ≠ 0) : P := by
  obtain ⟨x,small,free⟩ := spot
  exact absurd free (all x small)

theorem sat_iput (f : Unit → M α) (Q : α → State → Prop)
    (stays : ¬ ((s.icache ip).ref = 1 ∧ (s.icache ip).valid ∧ (s.icache ip).din.nlink = 0))
    (rest : Sat (f ()) { s with icache := Function.update s.icache ip { s.icache ip with ref := (s.icache ip).ref-1 } } E Q) :
    Sat (iput ip >>= f) s E Q := by
  rw [iput,sat_bind,sat_inode,if_neg stays]
  exact (sat_modify ..).mpr rest

structure Framed (s next : State) (dp : Nat) (d : Dinode) : Prop where
  ref : ∀ x, (next.icache x).ref = (s.icache x).ref
  live : ∀ x, 0 < (s.icache x).ref → next.icache x = if x = dp then { s.icache x with din := d } else s.icache x
  held : next.held = s.held
  devsw : next.devsw = s.devsw
  ftable : next.ftable = s.ftable
  commits : next.commits = s.commits

section
variable (got : Got s mid ip i) (live : 0 < (s.icache dp).ref)
  (state : next = { mid with log := log, icache := Function.update mid.icache dp { mid.icache dp with din := d } })
include got live state

theorem Got.framed :
    Framed s { next with icache := Function.update next.icache ip { next.icache ip with ref := (next.icache ip).ref-1 } } dp d := by
  have more := got.ref
  have others : ∀ x, x ≠ ip → mid.icache x = s.icache x := fun x apart => got.other apart
  have rest : mid = { s with icache := mid.icache } := by
    rw [got.state]
  subst state
  refine ⟨fun x => ?_,fun x used => ?_,?_,?_,?_,?_⟩
  · by_cases here : x = ip
    · subst here
      by_cases dir : x = dp
      · subst dir; simp [more]
      · simp [dir,more]
    · by_cases dir : x = dp
      · subst dir; simp [here,others x here]
      · simp [here,dir,others x here]
  · by_cases here : x = ip
    · subst here
      rcases got.slot with ⟨_,eq⟩ | ⟨free,_⟩
      · by_cases dir : x = dp
        · subst dir; simp [eq]
        · simp [dir,eq]
      · omega
    · by_cases dir : x = dp
      · subst dir; simp [here,others x here]
      · simp [here,dir,others x here]
  all_goals rw [rest]

theorem Got.stays :
    ¬ ((next.icache ip).ref = 1 ∧ (next.icache ip).valid ∧ (next.icache ip).din.nlink = 0) := by
  rintro ⟨last,valid,_⟩
  subst state
  by_cases dir : ip = dp
  · subst dir
    have := got.ref
    simp at last
    omega
  simp only [Function.update_of_ne dir] at last valid
  rcases got.slot with ⟨used,eq⟩ | ⟨_,eq⟩
  · rw [eq] at last
    simp at last
    omega
  · rw [eq] at valid
    cases valid

end

end
end Xv6.Fs.Core
