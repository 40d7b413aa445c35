import Mathlib.Data.Option.Basic
import Mathlib.Tactic.Common

/-!
# Mutexes

Threads `T` take and give up mutexes `B`.  `holds t` is the mutex that a thread holds by its place in
its code, and `lock b` is the holder that the mutex knows; `Held` says that they agree as far as the
threads can tell, and it is kept by taking a free mutex and by giving up a held one.
-/

namespace Mutex

variable {T B : Type*}

/-- A thread that holds a mutex is its holder. -/
def Held (holds : T → Option B) (lock : B → Option T) : Prop :=
  ∀ t b, holds t = some b → lock b = some t

variable {holds holds' : T → Option B} {lock : B → Option T}

/-- **Mutual exclusion.** -/
theorem Held.unique (h : Held holds lock) {t u : T} {b : B} (ht : holds t = some b)
    (hu : holds u = some b) : t = u :=
  Option.some.inj ((h t b ht).symm.trans (h u b hu))

theorem Held.congr (h : Held holds lock) (he : ∀ t, holds' t = holds t) : Held holds' lock := by
  intro t b ht
  rw [he] at ht
  exact h t b ht

variable [DecidableEq T] [DecidableEq B]

/-- A thread takes a free mutex. -/
theorem Held.acquire (h : Held holds lock) {t : T} {b : B} (hfree : lock b = none) :
    Held (fun u => if u = t then some b else holds u) (fun c => if c = b then some t else lock c) := by
  intro u c hu
  dsimp only at hu ⊢
  by_cases hut : u = t
  · rw [if_pos hut] at hu
    rw [if_pos (Option.some.inj hu).symm, hut]
  · rw [if_neg hut] at hu
    have hc : c ≠ b := by
      rintro rfl
      rw [h u c hu] at hfree
      cases hfree
    rw [if_neg hc]
    exact h u c hu

/-- A thread gives up the mutex it holds. -/
theorem Held.release (h : Held holds lock) {t : T} {b : B} (ht : holds t = some b) :
    Held (fun u => if u = t then none else holds u) (fun c => if c = b then none else lock c) := by
  intro u c hu
  dsimp only at hu ⊢
  by_cases hut : u = t
  · rw [if_pos hut] at hu
    cases hu
  · rw [if_neg hut] at hu
    have hc : c ≠ b := by
      rintro rfl
      exact hut (h.unique hu ht)
    rw [if_neg hc]
    exact h u c hu

end Mutex
