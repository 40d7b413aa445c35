import Mathlib.Data.List.Perm.Lattice

/-!
# What is asked for and what is done

Each owner of a type `T` is asked for one thing and does it once.  `Ledger key pending asked done` says that what is asked for
is done or pending with its owner, and not both; when nothing is pending, what is done is what was asked for, each once
(`Ledger.perm`).
-/

/-- The account of `asked`, whose owners are `key`s. -/
structure Ledger {E T : Type*} (key : E → T) (pending : T → Prop) (asked done : List E) : Prop where
  nodup : (asked.map key).Nodup
  done_nodup : done.Nodup
  mem_asked : ∀ e ∈ done, e ∈ asked
  settled : ∀ e ∈ done, ¬ pending (key e)
  split : ∀ e ∈ asked, e ∈ done ∨ pending (key e)
  owner : ∀ t, pending t → ∃ e ∈ asked, key e = t

namespace Ledger

variable {E T : Type*} {key : E → T} {pending pending' : T → Prop} {asked done : List E} {a : E}

/-- Before anything. -/
theorem empty (key : E → T) (hpending : ∀ t, ¬ pending t) : Ledger key pending [] [] where
  nodup := List.nodup_nil
  done_nodup := List.nodup_nil
  mem_asked _ he := he
  settled _ he := by cases he
  split _ he := by cases he
  owner t ht := absurd ht (hpending t)

theorem congr (h : Ledger key pending asked done) (hpending : ∀ t, pending' t ↔ pending t) :
    Ledger key pending' asked done where
  nodup := h.nodup
  done_nodup := h.done_nodup
  mem_asked := h.mem_asked
  settled e he hp := h.settled e he ((hpending _).mp hp)
  split e he := (h.split e he).imp_right (hpending _).mpr
  owner t ht := h.owner t ((hpending t).mp ht)

/-- A new owner is asked. -/
theorem ask (h : Ledger key pending asked done) (hnew : ∀ e ∈ asked, key e ≠ key a)
    (hpending : ∀ t, pending' t ↔ t = key a ∨ pending t) : Ledger key pending' (a :: asked) done where
  nodup := by
    rw [List.map_cons, List.nodup_cons]
    refine ⟨fun hmem => ?_, h.nodup⟩
    obtain ⟨e, he, heq⟩ := List.mem_map.mp hmem
    exact hnew e he heq
  done_nodup := h.done_nodup
  mem_asked e he := List.mem_cons_of_mem _ (h.mem_asked e he)
  settled e he hp := by
    rcases (hpending _).mp hp with heq | hold
    · exact hnew e (h.mem_asked e he) heq
    · exact h.settled e he hold
  split := by
    refine List.forall_mem_cons.mpr ⟨Or.inr ((hpending _).mpr (Or.inl rfl)), fun e he => ?_⟩
    exact (h.split e he).imp_right fun hp => (hpending _).mpr (Or.inr hp)
  owner t ht := by
    rcases (hpending t).mp ht with rfl | hold
    · exact ⟨a, List.mem_cons_self, rfl⟩
    · obtain ⟨e, he, heq⟩ := h.owner t hold
      exact ⟨e, List.mem_cons_of_mem _ he, heq⟩

/-- Two things with one owner are one. -/
theorem eq_of_key (h : Ledger key pending asked done) {b : E} (ha : a ∈ asked) (hb : b ∈ asked) (heq : key a = key b) :
    a = b := List.inj_on_of_nodup_map h.nodup ha hb heq

/-- An owner does what it was asked for. -/
theorem finish (h : Ledger key pending asked done) (ha : a ∈ asked) (hp : pending (key a))
    (hpending : ∀ t, pending' t ↔ pending t ∧ t ≠ key a) : Ledger key pending' asked (a :: done) where
  nodup := h.nodup
  done_nodup := List.nodup_cons.mpr ⟨fun hmem => h.settled a hmem hp, h.done_nodup⟩
  mem_asked := List.forall_mem_cons.mpr ⟨ha, h.mem_asked⟩
  settled := by
    refine List.forall_mem_cons.mpr ⟨fun hp' => ((hpending _).mp hp').2 rfl, fun e he hp' => ?_⟩
    exact h.settled e he ((hpending _).mp hp').1
  split e he := by
    rcases h.split e he with hdone | hpend
    · exact Or.inl (List.mem_cons_of_mem _ hdone)
    · by_cases heq : key e = key a
      · exact Or.inl (List.mem_cons.mpr (Or.inl (h.eq_of_key he ha heq)))
      · exact Or.inr ((hpending _).mpr ⟨hpend, heq⟩)
  owner t ht := h.owner t ((hpending t).mp ht).1

/-- **The account.** -/
theorem perm (h : Ledger key pending asked done) (hpending : ∀ t, ¬ pending t) : done.Perm asked := by
  rw [List.perm_ext_iff_of_nodup h.done_nodup h.nodup.of_map]
  refine fun e => ⟨h.mem_asked e, fun he => ?_⟩
  exact (h.split e he).resolve_right (hpending _)

end Ledger
