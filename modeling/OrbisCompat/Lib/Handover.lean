import Mathlib.Logic.Function.Basic
import Mathlib.Tactic.Common

/-!
# Blocks handed from one thread to another

Each live block is held by one thread, and each thread holds one block at most: `Held`.  A thread takes a fresh block, hands it
to a thread that holds none, or drops it.
-/

namespace Handover

variable {T P : Type*}

/-- The live blocks are those held, each by one thread. -/
structure Held (live : P → Prop) (holds : T → Option P) : Prop where
  live_of_holds : ∀ {t : T} {p : P}, holds t = some p → live p
  exists_holder : ∀ {p : P}, live p → ∃ t, holds t = some p
  unique : ∀ {t u : T} {p : P}, holds t = some p → holds u = some p → t = u

variable {live live' : P → Prop} {holds holds' : T → Option P}

/-- Before anything. -/
theorem Held.none : Held (fun _ : P => False) (fun _ : T => none) where
  live_of_holds h := by cases h
  exists_holder h := h.elim
  unique h := by cases h

theorem Held.congr (h : Held live holds) (hlive : ∀ p, live' p ↔ live p) (hholds : ∀ t, holds' t = holds t) :
    Held live' holds' where
  live_of_holds ht := (hlive _).mpr (h.live_of_holds (hholds _ ▸ ht))
  exists_holder hp := by
    obtain ⟨t, ht⟩ := h.exists_holder ((hlive _).mp hp)
    exact ⟨t, (hholds t).trans ht⟩
  unique ht hu := h.unique (hholds _ ▸ ht) (hholds _ ▸ hu)

variable [DecidableEq T] {t u : T} {p : P}

/-- A thread without a block takes a fresh one. -/
theorem Held.take (h : Held live holds) (hfresh : ¬ live p) (ht : holds t = Option.none)
    (hlive : ∀ q, live' q ↔ q = p ∨ live q) (hholds : ∀ v, holds' v = if v = t then some p else holds v) :
    Held live' holds' where
  live_of_holds {v q} hv := by
    rw [hholds] at hv
    rw [hlive]
    split_ifs at hv
    · exact Or.inl (Option.some.inj hv).symm
    · exact Or.inr (h.live_of_holds hv)
  exists_holder {q} hq := by
    rcases (hlive q).mp hq with rfl | hold
    · exact ⟨t, by rw [hholds, if_pos rfl]⟩
    · obtain ⟨v, hv⟩ := h.exists_holder hold
      have hne : v ≠ t := by
        rintro rfl
        rw [ht] at hv
        cases hv
      exact ⟨v, by rw [hholds, if_neg hne, hv]⟩
  unique {v w q} hv hw := by
    rw [hholds] at hv hw
    split_ifs at hv hw with hvt hwt hwt
    · rw [hvt, hwt]
    · obtain rfl := Option.some.inj hv
      exact absurd (h.live_of_holds hw) hfresh
    · obtain rfl := Option.some.inj hw
      exact absurd (h.live_of_holds hv) hfresh
    · exact h.unique hv hw

/-- A thread hands its block to one that has none. -/
theorem Held.pass (h : Held live holds) (ht : holds t = some p) (hu : holds u = Option.none)
    (hlive : ∀ q, live' q ↔ live q)
    (hholds : ∀ v, holds' v = if v = u then some p else if v = t then Option.none else holds v) : Held live' holds' where
  live_of_holds {v q} hv := by
    rw [hholds] at hv
    rw [hlive]
    split_ifs at hv
    · exact Option.some.inj hv ▸ h.live_of_holds ht
    · exact h.live_of_holds hv
  exists_holder {q} hq := by
    obtain ⟨v, hv⟩ := h.exists_holder ((hlive q).mp hq)
    by_cases hvt : v = t
    · rw [hvt, ht] at hv
      exact ⟨u, by rw [hholds, if_pos rfl, hv]⟩
    · have hne : v ≠ u := by
        rintro rfl
        rw [hu] at hv
        cases hv
      exact ⟨v, by rw [hholds, if_neg hne, if_neg hvt, hv]⟩
  unique {v w q} hv hw := by
    rw [hholds] at hv hw
    split_ifs at hv hw with hvu hwu hwt hvt hwu hwt
    · rw [hvu, hwu]
    · exact absurd (h.unique hw (Option.some.inj hv ▸ ht)) hwt
    · exact absurd (h.unique hv (Option.some.inj hw ▸ ht)) hvt
    · exact h.unique hv hw

/-- A thread drops its block. -/
theorem Held.drop (h : Held live holds) (ht : holds t = some p) (hlive : ∀ q, live' q ↔ live q ∧ q ≠ p)
    (hholds : ∀ v, holds' v = if v = t then Option.none else holds v) : Held live' holds' where
  live_of_holds {v q} hv := by
    rw [hholds] at hv
    split_ifs at hv with hvt
    refine (hlive q).mpr ⟨h.live_of_holds hv, ?_⟩
    rintro rfl
    exact hvt (h.unique hv ht)
  exists_holder {q} hq := by
    obtain ⟨hold, hne⟩ := (hlive q).mp hq
    obtain ⟨v, hv⟩ := h.exists_holder hold
    have hvt : v ≠ t := by
      rintro rfl
      exact hne (Option.some.inj (hv.symm.trans ht))
    exact ⟨v, by rw [hholds, if_neg hvt, hv]⟩
  unique {v w q} hv hw := by
    rw [hholds] at hv hw
    split_ifs at hv hw
    exact h.unique hv hw

end Handover
