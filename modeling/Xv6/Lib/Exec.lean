import Mathlib.Tactic.Common

namespace Exec

-- Programs over a state that may stop early; a stop keeps the state it left.
def Prog (σ ε α : Type) := σ → Except ε α × σ

namespace Prog
variable {σ ε α β : Type}

def bind (m : Prog σ ε α) (f : α → Prog σ ε β) : Prog σ ε β := fun s =>
  match m s with
  | (.ok a,next) => f a next
  | (.error e,next) => (.error e,next)

instance : Monad (Prog σ ε) where
  pure a := fun s => (.ok a,s)
  bind := bind

def get : Prog σ ε σ := fun s => (.ok s,s)
def modify (f : σ → σ) : Prog σ ε Unit := fun s => (.ok (),f s)
def stop (e : ε) : Prog σ ε α := fun s => (.error e,s)
end Prog

section
variable {σ ε α β : Type}

-- A run of m from s ends in Q if it returns and in E if it stops.
def Sat (m : Prog σ ε α) (s : σ) (E : ε → σ → Prop) (Q : α → σ → Prop) : Prop :=
  match m s with
  | (.ok a,next) => Q a next
  | (.error e,next) => E e next

theorem Sat.mono {m : Prog σ ε α} (run : Sat m s E P) (stops : ∀ e next, E e next → F e next)
    (returns : ∀ a next, P a next → Q a next) : Sat m s F Q := by
  unfold Sat at run ⊢
  split
  · rename_i ran; rw [ran] at run; exact returns _ _ run
  · rename_i ran; rw [ran] at run; exact stops _ _ run

theorem Sat.post {m : Prog σ ε α} (run : Sat m s E P) (returns : ∀ a next, P a next → Q a next) : Sat m s E Q :=
  run.mono (fun _ _ held => held) returns

theorem Sat.stops {m : Prog σ ε α} (run : Sat m s E P) (stops : ∀ e next, E e next → F e next) : Sat m s F P :=
  run.mono stops fun _ _ held => held

theorem Sat.never {m : Prog σ ε α} (run : Sat m s (fun _ _ => False) P) : Sat m s F P := run.stops fun _ _ no => no.elim

theorem Sat.and {m : Prog σ ε α} (one : Sat m s E P) (two : Sat m s F Q) :
    Sat m s (fun e next => E e next ∧ F e next) fun a next => P a next ∧ Q a next := by
  unfold Sat at one two ⊢
  split
  · rename_i ran; rw [ran] at one two; exact ⟨one,two⟩
  · rename_i ran; rw [ran] at one two; exact ⟨one,two⟩

@[simp] theorem sat_pure (a : α) (s : σ) (E : ε → σ → Prop) (Q : α → σ → Prop) :
    Sat (pure a : Prog σ ε α) s E Q ↔ Q a s := Iff.rfl

theorem Sat.done {a : α} (post : Q a s) : Sat (pure a : Prog σ ε α) s E Q := post

@[simp] theorem sat_get (s : σ) (E : ε → σ → Prop) (Q : σ → σ → Prop) :
    Sat (Prog.get : Prog σ ε σ) s E Q ↔ Q s s := Iff.rfl

@[simp] theorem sat_modify (f : σ → σ) (s : σ) (E : ε → σ → Prop) (Q : Unit → σ → Prop) :
    Sat (Prog.modify f : Prog σ ε Unit) s E Q ↔ Q () (f s) := Iff.rfl

@[simp] theorem sat_stop (e : ε) (s : σ) (E : ε → σ → Prop) (Q : α → σ → Prop) :
    Sat (Prog.stop e : Prog σ ε α) s E Q ↔ E e s := Iff.rfl

theorem sat_bind (m : Prog σ ε α) (f : α → Prog σ ε β) (s : σ) (E : ε → σ → Prop) (Q : β → σ → Prop) :
    Sat (m >>= f) s E Q ↔ Sat m s E fun a next => Sat (f a) next E Q := by
  show (match Prog.bind m f s with | (.ok a,next) => Q a next | (.error e,next) => E e next) ↔ _
  unfold Prog.bind Sat
  cases m s with
  | mk result next => cases result <;> rfl

theorem Sat.bind {m : Prog σ ε α} {f : α → Prog σ ε β} (first : Sat m s E P)
    (rest : ∀ a next, P a next → Sat (f a) next E Q) : Sat (m >>= f) s E Q :=
  (sat_bind m f s E Q).mpr (first.post rest)

@[simp] theorem sat_get_bind (f : σ → Prog σ ε β) (s : σ) (E : ε → σ → Prop) (Q : β → σ → Prop) :
    Sat (Prog.get >>= f) s E Q ↔ Sat (f s) s E Q := sat_bind _ _ _ _ _

@[simp] theorem sat_modify_bind (g : σ → σ) (f : Unit → Prog σ ε β) (s : σ) (E : ε → σ → Prop) (Q : β → σ → Prop) :
    Sat (Prog.modify g >>= f) s E Q ↔ Sat (f ()) (g s) E Q := sat_bind _ _ _ _ _

@[simp] theorem sat_pure_bind (a : α) (f : α → Prog σ ε β) (s : σ) (E : ε → σ → Prop) (Q : β → σ → Prop) :
    Sat (pure a >>= f) s E Q ↔ Sat (f a) s E Q := sat_bind _ _ _ _ _

@[simp] theorem sat_stop_bind (e : ε) (f : α → Prog σ ε β) (s : σ) (E : ε → σ → Prop) (Q : β → σ → Prop) :
    Sat (Prog.stop e >>= f) s E Q ↔ E e s := sat_bind _ _ _ _ _

theorem Sat.returned {m : Prog σ ε α} (run : Sat m s E Q) (ran : m s = (.ok a,next)) : Q a next := by
  unfold Sat at run; rw [ran] at run; exact run

theorem Sat.ran {m : Prog σ ε α} (run : Sat m s E Q) : Sat m s E fun a next => m s = (.ok a,next) ∧ Q a next := by
  unfold Sat at run ⊢
  split
  · rename_i ran; rw [ran] at run; exact ⟨ran,run⟩
  · rename_i ran; rw [ran] at run; exact run

theorem Sat.returns {m : Prog σ ε α} (run : Sat m s (fun _ _ => False) Q) :
    ∃ a next, m s = (.ok a,next) ∧ Q a next := by
  unfold Sat at run
  split at run
  · rename_i a next ran; exact ⟨a,next,ran,run⟩
  · exact run.elim
end

section Keeps
variable {σ ε α β : Type} {R : σ → σ → Prop}

def Keeps (R : σ → σ → Prop) (m : Prog σ ε α) : Prop := ∀ s, Sat m s (fun _ next => R s next) fun _ next => R s next

theorem keeps_pure (refl : ∀ s, R s s) (a : α) : Keeps R (pure a : Prog σ ε α) := fun s => (sat_pure ..).mpr (refl s)

theorem keeps_stop (refl : ∀ s, R s s) (e : ε) : Keeps R (Prog.stop e : Prog σ ε α) := fun s => (sat_stop ..).mpr (refl s)

theorem keeps_modify {f : σ → σ} (moves : ∀ s, R s (f s)) : Keeps R (Prog.modify f : Prog σ ε Unit) :=
  fun s => (sat_modify ..).mpr (moves s)

theorem keeps_get {f : σ → Prog σ ε α} (rest : ∀ s, Keeps R (f s)) : Keeps R (Prog.get >>= f) :=
  fun s => (sat_get_bind ..).mpr (rest s s)

theorem Keeps.bind {m : Prog σ ε α} {f : α → Prog σ ε β} (first : Keeps R m) (trans : ∀ {a b c}, R a b → R b c → R a c)
    (rest : ∀ a, Keeps R (f a)) : Keeps R (m >>= f) := fun s =>
  (first s).bind fun a next moved => (rest a next).mono (fun _ _ later => trans moved later) fun _ _ later => trans moved later

theorem Keeps.ite {c : Prop} [Decidable c] {m k : Prog σ ε α} (yes : Keeps R m) (no : Keeps R k) :
    Keeps R (if c then m else k) := by
  split
  · exact yes
  · exact no

end Keeps

-- From here on programs are only taken apart by these rules, never run by the unifier.
attribute [irreducible] Sat

end Exec
