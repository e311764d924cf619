import Mathlib.Logic.Function.Basic
import Mathlib.Tactic.Common

namespace Slots

-- A finite map kept in numbered slots: a key goes to the first vacant slot or, without one,
-- behind the last; it is found by a search from the start and erased in place.
structure Table (K V : Type) where
  count : Nat
  entry : Nat → Option (K × V)

namespace Table
variable {K V : Type}

def vacant (t : Table K V) : Nat := ((List.range t.count).find? fun k => (t.entry k).isNone).getD t.count

def put (t : Table K V) (k : Nat) (e : Option (K × V)) : Table K V := ⟨max t.count (k+1),Function.update t.entry k e⟩

def Unique (t : Table K V) : Prop :=
  ∀ j k key v w, j < t.count → k < t.count → t.entry j = some (key,v) → t.entry k = some (key,w) → j = k

theorem vacant_cases (t : Table K V) : t.vacant = t.count ∨ t.vacant < t.count ∧ t.entry t.vacant = none := by
  unfold vacant
  cases found : (List.range t.count).find? fun k => (t.entry k).isNone with
  | none => exact .inl rfl
  | some k =>
    have inside := List.mem_range.mp (List.mem_of_find?_eq_some found)
    have clear := List.find?_some found
    exact .inr ⟨inside,by simpa using clear⟩

theorem put_vacant (t : Table K V) (e : K × V) :
    ∀ k < (t.put t.vacant (some e)).count, (t.put t.vacant (some e)).entry k = some f ↔
      k = t.vacant ∧ f = e ∨ k < t.count ∧ t.entry k = some f := by
  intro k inside
  have slot := vacant_cases t
  simp only [put] at inside ⊢
  by_cases here : k = t.vacant
  · subst here
    rw [Function.update_self]
    constructor
    · intro eq
      cases eq
      exact .inl ⟨rfl,rfl⟩
    · rintro (⟨_,rfl⟩ | ⟨small,eq⟩)
      · rfl
      · rcases slot with last | ⟨_,none⟩
        · omega
        · rw [none] at eq
          cases eq
  · rw [Function.update_of_ne here]
    constructor
    · intro eq
      exact .inr ⟨by omega,eq⟩
    · rintro (⟨same,_⟩ | ⟨_,eq⟩)
      · exact absurd same here
      · exact eq

theorem vacant_lt (t : Table K V) (e : Option (K × V)) : t.vacant < (t.put t.vacant e).count :=
  Nat.lt_of_lt_of_le (Nat.lt_succ_self _) (Nat.le_max_right _ _)

theorem count_erase {t : Table K V} (small : k < t.count) : (t.put k none).count = t.count := Nat.max_eq_left small

theorem entry_erase (t : Table K V) (k j : Nat) : (t.put k none).entry j = some e ↔ j ≠ k ∧ t.entry j = some e := by
  simp only [put,Function.update_apply]
  split
  · rename_i here; simp [here]
  · rename_i other; simp [other]

theorem Unique.erase {t : Table K V} (unique : t.Unique) (small : k < t.count) : (t.put k none).Unique := by
  intro i j other a b one two first second
  rw [count_erase small] at one two
  exact unique i j other a b one two ((entry_erase t k i).mp first).2 ((entry_erase t k j).mp second).2

section
variable [DecidableEq K] {t : Table K V} {key : K} {v : V}

def hit (t : Table K V) (key : K) (k : Nat) : Bool := (t.entry k).map Prod.fst = some key

def find (t : Table K V) (key : K) : Option Nat := (List.range t.count).find? (t.hit key)

def get (t : Table K V) (key : K) : Option V := (t.find key).bind fun k => (t.entry k).map Prod.snd

theorem hit_iff : t.hit key k = true ↔ ∃ v, t.entry k = some (key,v) := by
  unfold hit
  cases t.entry k with
  | none => simp
  | some e => obtain ⟨a,b⟩ := e; simp

theorem find_some (found : t.find key = some k) : k < t.count ∧ ∃ v, t.entry k = some (key,v) := by
  have member := List.mem_of_find?_eq_some found
  exact ⟨List.mem_range.mp member,hit_iff.mp (List.find?_some found)⟩

theorem find_none (missing : t.find key = none) (small : k < t.count) : t.entry k ≠ some (key,v) := by
  intro eq
  have := List.find?_eq_none.mp missing k (List.mem_range.mpr small)
  exact this (hit_iff.mpr ⟨v,eq⟩)

theorem get_some (unique : t.Unique) : t.get key = some v ↔ ∃ k < t.count, t.entry k = some (key,v) := by
  unfold get
  cases found : t.find key with
  | none =>
    simp only [Option.bind_none,reduceCtorEq,false_iff]
    rintro ⟨k,small,eq⟩
    exact find_none found small eq
  | some k =>
    obtain ⟨small,w,eq⟩ := find_some found
    simp only [Option.bind_some,eq,Option.map_some,Option.some.injEq]
    constructor
    · rintro rfl
      exact ⟨k,small,eq⟩
    · rintro ⟨j,inside,same⟩
      obtain rfl := unique j k key v w inside small same eq
      rw [same] at eq
      cases eq
      rfl

theorem get_find (found : t.get key = some v) : ∃ k, t.find key = some k ∧ k < t.count ∧ t.entry k = some (key,v) := by
  obtain ⟨k,first,entry⟩ := Option.bind_eq_some_iff.mp found
  obtain ⟨small,w,here⟩ := find_some first
  rw [here] at entry
  cases entry
  exact ⟨k,first,small,here⟩

theorem get_none : t.get key = none ↔ t.find key = none := by
  unfold get
  cases found : t.find key with
  | none => simp
  | some k =>
    obtain ⟨_,v,eq⟩ := find_some found
    simp [eq]

theorem Unique.insert (unique : t.Unique) (absent : t.get key = none) : (t.put t.vacant (some (key,v))).Unique := by
  have fresh : ∀ k < t.count, ∀ w, t.entry k ≠ some (key,w) := fun k small w => find_none (get_none.mp absent) small
  intro j k other a b one two first second
  rw [put_vacant t _ j one] at first
  rw [put_vacant t _ k two] at second
  rcases first with ⟨rfl,same⟩ | ⟨small,eq⟩ <;> rcases second with ⟨rfl,same'⟩ | ⟨small',eq'⟩
  · rfl
  · cases same
    exact absurd eq' (fresh k small' b)
  · cases same'
    exact absurd eq (fresh j small a)
  · exact unique j k other a b small small' eq eq'

theorem get_insert (unique : t.Unique) (absent : t.get key = none) :
    (t.put t.vacant (some (key,v))).get = Function.update t.get key (some v) := by
  funext other
  refine Option.ext fun w => ?_
  rw [get_some (unique.insert absent),Function.update_apply]
  constructor
  · rintro ⟨k,inside,eq⟩
    rcases (put_vacant t _ k inside).mp eq with ⟨_,same⟩ | ⟨small,old⟩
    · cases same
      rw [if_pos rfl]
    · rw [if_neg]
      · exact (get_some unique).mpr ⟨k,small,old⟩
      · rintro rfl
        exact find_none (get_none.mp absent) small old
  · split
    · rename_i same
      intro eq
      cases eq
      subst same
      exact ⟨t.vacant,vacant_lt t _,(put_vacant t _ _ (vacant_lt t _)).mpr (.inl ⟨rfl,rfl⟩)⟩
    · intro eq
      obtain ⟨k,small,eq⟩ := (get_some unique).mp eq
      have inside : k < (t.put t.vacant (some (key,v))).count := Nat.lt_of_lt_of_le small (Nat.le_max_left _ _)
      exact ⟨k,inside,(put_vacant t _ k inside).mpr (.inr ⟨small,eq⟩)⟩

theorem get_erase (unique : t.Unique) (found : t.find key = some k) : (t.put k none).get = Function.update t.get key none := by
  obtain ⟨small,v,at_k⟩ := find_some found
  funext other
  refine Option.ext fun w => ?_
  rw [get_some (unique.erase small),count_erase small,Function.update_apply]
  constructor
  · rintro ⟨j,inside,eq⟩
    obtain ⟨apart,eq⟩ := (entry_erase t k j).mp eq
    rw [if_neg]
    · exact (get_some unique).mpr ⟨j,inside,eq⟩
    · rintro rfl
      exact apart (unique j k _ w v inside small eq at_k)
  · split
    · intro eq
      cases eq
    rename_i apart
    intro eq
    obtain ⟨j,inside,eq⟩ := (get_some unique).mp eq
    refine ⟨j,inside,(entry_erase t k j).mpr ⟨?_,eq⟩⟩
    rintro rfl
    rw [at_k] at eq
    cases eq
    exact apart rfl

end
end Table
end Slots
