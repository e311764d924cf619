import Xv6.Lib.Runs
import Mathlib.Logic.Function.Basic

namespace Threads
open Function (update update_idem update_of_ne update_self)
open Runs

-- Sequential code made of atomic operations: the next operation, and how to go on with
-- its result.
inductive Code (Op : Type) (Res : Op → Type) (α : Type) where
  | ret (a : α)
  | op (o : Op) (k : Res o → Code Op Res α)

namespace Code
variable {Op : Type} {Res : Op → Type}

def bind : Code Op Res α → (α → Code Op Res β) → Code Op Res β
  | .ret a,f => f a
  | .op o k,f => .op o fun r => (k r).bind f

instance : Monad (Code Op Res) where
  pure := .ret
  bind := .bind

def call (o : Op) : Code Op Res (Res o) := .op o .ret

end Code

section
variable {σ P G Op : Type} {Res : Op → Type} {α β : Type} [DecidableEq P]

structure Sys (σ P Op : Type) (Res : Op → Type) (α : Type) where
  shared : σ
  code : P → Code Op Res α

def advance (exec : P → (o : Op) → σ → Option (Res o × σ)) (s : Sys σ P Op Res α) (p : P) : Option (Sys σ P Op Res α) :=
  match s.code p with
  | .ret _ => none
  | .op o k => match exec p o s.shared with
    | none => none
    | some (r,t) => some ⟨t,Function.update s.code p (k r)⟩

inductive Event (P : Type) where
  | act (p : P)
  | call (p : P)
  | env

-- begins says which code a process may go on to when its last one has returned, env what
-- happens outside of the processes.
inductive Step (exec : P → (o : Op) → σ → Option (Res o × σ)) (begins : σ → P → α → Code Op Res α → Prop) (env : σ → σ → Prop) :
    Sys σ P Op Res α → Event P → Sys σ P Op Res α → Prop where
  | act : advance exec s p = some t → Step exec begins env s (.act p) t
  | call : s.code p = .ret a → begins s.shared p a c → Step exec begins env s (.call p) ⟨s.shared,Function.update s.code p c⟩
  | env : env s.shared t → Step exec begins env s .env ⟨t,s.code⟩

theorem Step.acts {exec : P → (o : Op) → σ → Option (Res o × σ)} {begins : σ → P → α → Code Op Res α → Prop} {env : σ → σ → Prop}
    {s : Sys σ P Op Res α} {k : Res o → Code Op Res α} (next : s.code p = .op o k) (ran : exec p o s.shared = some (r,t)) :
    Step exec begins env s (.act p) ⟨t,update s.code p (k r)⟩ :=
  .act (by simp only [advance,next,ran])

-- A proof outline gives each process a view of its own, that only its own operations
-- change, and one invariant over the shared state and all views. So what a view says is
-- not disturbed by the other processes.
def Meets (exec : P → (o : Op) → σ → Option (Res o × σ)) (I : σ → (P → G) → Prop) (p : P) :
    Code Op Res α → G → (α → G → Prop) → Prop
  | .ret a,view,post => post a view
  | .op o k,view,post => ∀ s views r t, I s views → views p = view → exec p o s = some (r,t) →
      ∃ next, I t (Function.update views p next) ∧ Meets exec I p (k r) next post

variable {exec : P → (o : Op) → σ → Option (Res o × σ)} {I : σ → (P → G) → Prop} {p : P} {view : G}

theorem Meets.mono {post after : α → G → Prop} {c : Code Op Res α} (meets : Meets exec I p c view post)
    (weaker : ∀ a view, post a view → after a view) : Meets exec I p c view after := by
  induction c generalizing view with
  | ret a => exact weaker a view meets
  | op o k ih =>
    intro s views r t inv here ran
    obtain ⟨next,kept,rest⟩ := meets s views r t inv here ran
    exact ⟨next,kept,ih r rest⟩

theorem Meets.bind {mid : α → G → Prop} {post : β → G → Prop} {c : Code Op Res α} {f : α → Code Op Res β}
    (meets : Meets exec I p c view mid) (rest : ∀ a view, mid a view → Meets exec I p (f a) view post) :
    Meets exec I p (c >>= f) view post := by
  induction c generalizing view with
  | ret a => exact rest a view meets
  | op o k ih =>
    intro s views r t inv here ran
    obtain ⟨next,kept,later⟩ := meets s views r t inv here ran
    exact ⟨next,kept,ih r later⟩

theorem Meets.next {after : G} {post : β → G → Prop} {c : Code Op Res α} {f : α → Code Op Res β}
    (meets : Meets exec I p c view fun _ w => w = after) (rest : ∀ a, Meets exec I p (f a) after post) :
    Meets exec I p (c >>= f) view post := meets.bind fun a _ went => went ▸ rest a

theorem Meets.reads {x : α} {post : β → G → Prop} {c : Code Op Res α} {f : α → Code Op Res β}
    (meets : Meets exec I p c view fun a w => a = x ∧ w = view) (rest : Meets exec I p (f x) view post) :
    Meets exec I p (c >>= f) view post := meets.bind fun _ _ ⟨found,same⟩ => found ▸ same ▸ rest

theorem Meets.call {post : Res o → G → Prop}
    (rule : ∀ s views r t, I s views → views p = view → exec p o s = some (r,t) →
      ∃ next, I t (update views p next) ∧ post r next) :
    Meets exec I p (Code.call o) view post := rule

theorem Meets.before {other : G} {post : α → G → Prop} {k : Res o → Code Op Res α}
    (shift : ∀ s views, I s views → views p = view → I s (update views p other))
    (meets : Meets exec I p (.op o k) other post) : Meets exec I p (.op o k) view post := by
  intro s views r t inv here ran
  obtain ⟨next,kept,rest⟩ := meets s _ r t (shift s views inv here) (update_self ..) ran
  rw [update_idem] at kept
  exact ⟨next,kept,rest⟩

theorem Run.meets {start : Sys σ P Op Res α → Prop} {begins : σ → P → α → Code Op Res α → Prop} {env : σ → σ → Prop}
    {post : P → α → G → Prop} (run : Run start (Step exec begins env) events s)
    (first : ∀ s, start s → ∃ views, I s.shared views ∧ ∀ p, Meets exec I p (s.code p) (views p) (post p))
    (calls : ∀ s views p a c, I s views → post p a (views p) → begins s p a c →
      ∃ next, I s (update views p next) ∧ Meets exec I p c next (post p))
    (outer : ∀ s views t, I s views → env s t → I t views) :
    ∃ views, I s.shared views ∧ ∀ p, Meets exec I p (s.code p) (views p) (post p) := by
  refine run.invariant first ?_
  rintro s event t ⟨views,inv,meets⟩ step
  -- Only the process that moves changes its view.
  have others : ∀ p c next, Meets exec I p c next (post p) →
      ∀ q, Meets exec I q (update s.code p c q) (update views p next q) (post q) := by
    intro p c next later q
    by_cases same : q = p
    · subst same; simpa only [update_self] using later
    · simpa only [update_of_ne same] using meets q
  cases step with
  | @act s p t ran =>
    have own := meets p
    simp only [advance] at ran
    split at ran
    · cases ran
    rename_i o k next
    rw [next] at own
    split at ran
    · cases ran
    rename_i r u done
    cases ran
    obtain ⟨later,kept,rest⟩ := own s.shared views r u inv rfl done
    exact ⟨update views p later,kept,others p (k r) later rest⟩
  | call returned begun =>
    rename_i p a c
    have own := meets p
    rw [returned] at own
    obtain ⟨next,kept,rest⟩ := calls s.shared views p a c inv own begun
    exact ⟨update views p next,kept,others p c next rest⟩
  | env outside => exact ⟨views,outer s.shared views _ inv outside,meets⟩

-- Given moves, played from a state while they can be made. What calls are is fixed by
-- code, fine decides whether one may begin.
inductive Move (P C : Type) where
  | act (p : P)
  | call (p : P) (c : C)
  | env

def play (exec : P → (o : Op) → σ → Option (Res o × σ)) (code : C → Code Op Res α) (fine : σ → P → C → Bool) (env : σ → Option σ) :
    List (Move P C) → Sys σ P Op Res α → Option (Sys σ P Op Res α)
  | [],s => some s
  | .act p :: moves,s => (advance exec s p).bind (play exec code fine env moves)
  | .call p c :: moves,s => match s.code p with
    | .ret _ => if fine s.shared p c then play exec code fine env moves ⟨s.shared,Function.update s.code p (code c)⟩ else none
    | .op .. => none
  | .env :: moves,s => (env s.shared).bind fun t => play exec code fine env moves ⟨t,s.code⟩

theorem Run.play {C : Type} {start : Sys σ P Op Res α → Prop} {code : C → Code Op Res α} {fine : σ → P → C → Bool}
    {env : σ → Option σ} {begins : σ → P → α → Code Op Res α → Prop} {outer : σ → σ → Prop} (moves : List (Move P C))
    (calls : ∀ s p a c, fine s p c = true → begins s p a (code c)) (outside : ∀ s t, env s = some t → outer s t)
    (run : Run start (Step exec begins outer) events s) (played : play exec code fine env moves s = some t) :
    ∃ events, Run start (Step exec begins outer) events t := by
  induction moves generalizing events s with
  | nil => cases played; exact ⟨_,run⟩
  | cons move moves ih =>
    cases move with
    | act p =>
      obtain ⟨u,moved,rest⟩ := Option.bind_eq_some_iff.mp played
      exact ih (run.step (.act moved)) rest
    | call p c =>
      simp only [Threads.play] at played
      split at played
      · rename_i a returned
        split at played
        · rename_i may
          exact ih (run.step (.call returned (calls s.shared p a c may))) played
        · cases played
      · cases played
    | env =>
      obtain ⟨u,moved,rest⟩ := Option.bind_eq_some_iff.mp played
      exact ih (run.step (.env (outside _ _ moved))) rest

end
end Threads
