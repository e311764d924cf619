import Xv6.Lib.Sleep

namespace SleepLock
open Function (update update_of_ne update_self)

-- Locks made of a busy flag and a channel: who finds the flag set sleeps on the lock's
-- channel, who clears it wakes the channel.
structure Sound {P R : Type} (busy : R → Bool) (holds : P → R → Prop) (asleep : P → Option R) : Prop where
  once : ∀ p q r, holds p r → holds q r → p = q
  flagged : ∀ p r, holds p r → busy r = true
  owned : ∀ r, busy r = true → ∃ p, holds p r
  heard : ∀ p r, asleep p = some r → busy r = true

section
variable {P R : Type} {busy : R → Bool} {holds : P → R → Prop} {asleep : P → Option R}

theorem Sound.take [DecidableEq R] (sound : Sound busy holds asleep) (free : busy r = false) (p : P) :
    Sound (update busy r true) (fun q t => holds q t ∨ (q = p ∧ t = r)) asleep := by
  -- Nobody holds a lock whose flag is clear.
  have unheld : ∀ q, ¬ holds q r := fun q taken => by
    have set := sound.flagged q r taken
    rw [free] at set
    cases set
  refine ⟨?_,?_,?_,?_⟩
  · rintro q s t (one | ⟨rfl,rfl⟩) (two | ⟨rfl,same⟩)
    · exact sound.once q s t one two
    · exact absurd (same ▸ one) (unheld q)
    · exact absurd two (unheld s)
    · rfl
  · rintro q t (one | ⟨rfl,rfl⟩)
    · by_cases same : t = r
      · exact same ▸ update_self ..
      · rw [update_of_ne same]; exact sound.flagged q t one
    · exact update_self ..
  · intro t set
    by_cases same : t = r
    · exact ⟨p,.inr ⟨rfl,same⟩⟩
    · rw [update_of_ne same] at set
      obtain ⟨q,taken⟩ := sound.owned t set
      exact ⟨q,.inl taken⟩
  · intro q t slept
    by_cases same : t = r
    · exact same ▸ update_self ..
    · rw [update_of_ne same]; exact sound.heard q t slept

theorem Sound.release [DecidableEq R] (sound : Sound busy holds asleep) (r : R) :
    Sound (update busy r false) (fun q t => holds q t ∧ t ≠ r) (Sleep.wakeup asleep r) := by
  refine ⟨fun q s t one two => sound.once q s t one.1 two.1,?_,?_,?_⟩
  · rintro q t ⟨taken,other⟩
    rw [update_of_ne other]; exact sound.flagged q t taken
  · intro t set
    by_cases same : t = r
    · rw [same,update_self] at set; cases set
    · rw [update_of_ne same] at set
      obtain ⟨q,taken⟩ := sound.owned t set
      exact ⟨q,taken,same⟩
  · intro q t slept
    obtain ⟨before,other⟩ := Sleep.wakeup_some.mp slept
    rw [update_of_ne other]; exact sound.heard q t before

theorem Sound.sleep [DecidableEq P] (sound : Sound busy holds asleep) (set : busy r = true) (p : P) :
    Sound busy holds (update asleep p (some r)) := by
  refine ⟨sound.once,sound.flagged,sound.owned,?_⟩
  intro q t slept
  by_cases same : q = p
  · rw [same,update_self] at slept
    exact Option.some.inj slept ▸ set
  · rw [update_of_ne same] at slept
    exact sound.heard q t slept

theorem Sound.wake (sound : Sound busy holds asleep) {later : P → Option R}
    (fewer : ∀ p r, later p = some r → asleep p = some r) : Sound busy holds later :=
  ⟨sound.once,sound.flagged,sound.owned,fun p r slept => sound.heard p r (fewer p r slept)⟩

theorem Sound.congr (sound : Sound busy holds asleep) {busy' : R → Bool} {holds' : P → R → Prop} {asleep' : P → Option R}
    (flags : ∀ r, busy' r = busy r) (owners : ∀ p r, holds' p r ↔ holds p r) (sleepers : ∀ p, asleep' p = asleep p) :
    Sound busy' holds' asleep' := by
  obtain rfl : busy' = busy := funext flags
  obtain rfl : holds' = holds := funext fun p => funext fun r => propext (owners p r)
  obtain rfl : asleep' = asleep := funext sleepers
  exact sound

end
end SleepLock
