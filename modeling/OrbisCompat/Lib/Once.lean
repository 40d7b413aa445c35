import Mathlib.Data.List.Basic
import Mathlib.Tactic.Common

/-!
# Doing something once

For each key `g` of a type `G`, threads `T` try to do something once: a thread *enters*, and then
*finishes* or *gives up*; after a finish, whoever comes *skips*; after giving up the next one may enter.
A history is a list of events, newest first, and `Story g es p` says that the events of `g` in `es` obey
this and leave `g` in the phase `p`.

What a caller wants to know of such a history follows by induction on it: one thread is inside at most
(`Story.inside_unique`), a skip comes after a finish (`Story.exists_finish_of_skip`), nobody enters after a
finish (`Story.not_mem_enter_of_finish`), and one enters after giving up
(`Story.length_enters_of_giveUp`).
-/

namespace Once

variable {T G : Type*}

/-- How far a key is. -/
inductive Phase (T : Type*)
  | untouched
  | busy (t : T)
  | done

/-- What a thread does at a key. -/
inductive Event (T G : Type*)
  | enter (t : T) (g : G)
  | skip (t : T) (g : G)
  | finish (t : T) (g : G)
  | giveUp (t : T) (g : G)
  deriving DecidableEq, Repr

/-- The key of an event. -/
def Event.key : Event T G → G
  | enter _ g | skip _ g | finish _ g | giveUp _ g => g

/-- The event is an `enter` at `g`. -/
def Event.enters [DecidableEq G] (g : G) : Event T G → Bool
  | enter _ g' => g' = g
  | _ => false

/-- The events of `g` in a history, newest first, lead to the phase. -/
inductive Story (g : G) : List (Event T G) → Phase T → Prop
  | nil : Story g [] .untouched
  | other {es : List (Event T G)} {p : Phase T} {e : Event T G} :
      Story g es p → e.key ≠ g → Story g (e :: es) p
  | enter {es : List (Event T G)} (t : T) : Story g es .untouched → Story g (.enter t g :: es) (.busy t)
  | skip {es : List (Event T G)} (t : T) : Story g es .done → Story g (.skip t g :: es) .done
  | finish {es : List (Event T G)} {t : T} :
      Story g es (.busy t) → Story g (.finish t g :: es) .done
  | giveUp {es : List (Event T G)} {t : T} :
      Story g es (.busy t) → Story g (.giveUp t g :: es) .untouched

/-- The thread is between an `enter` and the `finish` or `giveUp` that goes with it. -/
def Inside (es : List (Event T G)) (t : T) (g : G) : Prop :=
  ∃ later past, es = later ++ .enter t g :: past ∧ .finish t g ∉ later ∧ .giveUp t g ∉ later

namespace Story

variable {g : G} {es later past : List (Event T G)} {p : Phase T} {t : T}

/-- What happened before is a story too. -/
theorem before (h : Story g (later ++ past) p) : ∃ q, Story g past q := by
  induction later generalizing p with
  | nil => exact ⟨p, h⟩
  | cons e later ih =>
    cases h with
    | other h _ => exact ih h
    | enter _ h => exact ih h
    | skip _ h => exact ih h
    | finish h => exact ih h
    | giveUp h => exact ih h

/-- Done is done by a finish. -/
theorem exists_finish (h : Story g es .done) : ∃ u, Event.finish u g ∈ es := by
  generalize hp : Phase.done = p at h
  induction h with
  | other _ _ ih =>
    obtain ⟨u, hu⟩ := ih hp
    exact ⟨u, List.mem_cons_of_mem _ hu⟩
  | skip _ _ ih =>
    obtain ⟨u, hu⟩ := ih rfl
    exact ⟨u, List.mem_cons_of_mem _ hu⟩
  | @finish es u => exact ⟨u, List.mem_cons_self⟩
  | nil | enter | giveUp => cases hp

/-- **A skip comes after a finish.** -/
theorem exists_finish_of_skip (h : Story g (later ++ .skip t g :: past) p) :
    ∃ u, Event.finish u g ∈ past := by
  obtain ⟨q, hq⟩ := h.before
  cases hq with
  | other _ hne => exact absurd rfl hne
  | skip _ hdone => exact hdone.exists_finish

/-- After a finish the key stays done. -/
theorem done_of_finish (h : Story g (later ++ .finish t g :: past) p) :
    p = .done ∧ ∀ u, Event.enter u g ∉ later := by
  induction later generalizing p with
  | nil =>
    cases h with
    | other _ hne => exact absurd rfl hne
    | finish _ => exact ⟨rfl, fun _ => List.not_mem_nil⟩
  | cons e later ih =>
    cases h with
    | other h hne =>
      obtain ⟨hp, hlater⟩ := ih h
      refine ⟨hp, fun u hu => ?_⟩
      rcases List.mem_cons.mp hu with rfl | hu
      · exact hne rfl
      · exact hlater u hu
    | enter _ h => cases (ih h).1
    | skip _ h =>
      refine ⟨rfl, fun u hu => ?_⟩
      rcases List.mem_cons.mp hu with hu | hu
      · cases hu
      · exact (ih h).2 u hu
    | finish h => cases (ih h).1
    | giveUp h => cases (ih h).1

/-- **Nobody enters after a finish.** -/
theorem not_mem_enter_of_finish (h : Story g (later ++ .finish t g :: past) p) (u : T) :
    Event.enter u g ∉ later := h.done_of_finish.2 u

/-- While a thread is inside, the key is busy with it. -/
theorem eq_busy_of_inside (h : Story g es p) (ht : Inside es t g) : p = .busy t := by
  obtain ⟨later, past, rfl, hfinish, hgiveUp⟩ := ht
  induction later generalizing p with
  | nil =>
    cases h with
    | other _ hne => exact absurd rfl hne
    | enter _ _ => rfl
  | cons e later ih =>
    rw [List.mem_cons, not_or] at hfinish hgiveUp
    have ih' : ∀ {q : Phase T}, Story g (later ++ .enter t g :: past) q → q = .busy t :=
      fun h => ih h hfinish.2 hgiveUp.2
    cases h with
    | other h _ => exact ih' h
    | enter _ h => cases ih' h
    | skip _ h => cases ih' h
    | finish h =>
      cases ih' h
      exact absurd rfl hfinish.1
    | giveUp h =>
      cases ih' h
      exact absurd rfl hgiveUp.1

/-- A busy key has its thread inside. -/
theorem inside_of_busy (h : Story g es (.busy t)) : Inside es t g := by
  generalize hp : Phase.busy t = p at h
  induction h with
  | @other es p e _ hne ih =>
    obtain ⟨later, past, rfl, hfinish, hgiveUp⟩ := ih hp
    refine ⟨e :: later, past, rfl, fun hmem => ?_, fun hmem => ?_⟩
    · rcases List.mem_cons.mp hmem with rfl | hmem
      · exact hne rfl
      · exact hfinish hmem
    · rcases List.mem_cons.mp hmem with rfl | hmem
      · exact hne rfl
      · exact hgiveUp hmem
  | @enter es u h _ =>
    obtain rfl : t = u := by injection hp
    exact ⟨[], es, rfl, List.not_mem_nil, List.not_mem_nil⟩
  | nil | skip | finish | giveUp => cases hp

/-- **One thread is inside at most.** -/
theorem inside_unique (h : Story g es p) {u : T} (ht : Inside es t g) (hu : Inside es u g) : t = u := by
  have hp := h.eq_busy_of_inside ht
  rw [h.eq_busy_of_inside hu] at hp
  injection hp with hp
  exact hp.symm

variable [DecidableEq G]

/-- After giving up, the key is untouched until one thread enters. -/
theorem enters_of_giveUp (h : Story g (later ++ .giveUp t g :: past) p)
    (hagain : ∀ u, Event.giveUp u g ∉ later) :
    p = .untouched ∧ later.filter (Event.enters g) = [] ∨
      p ≠ .untouched ∧ (later.filter (Event.enters g)).length = 1 := by
  induction later generalizing p with
  | nil =>
    left
    cases h with
    | other _ hne => exact absurd rfl hne
    | giveUp _ => exact ⟨rfl, rfl⟩
  | cons e later ih =>
    have ih' : ∀ {q : Phase T}, Story g (later ++ .giveUp t g :: past) q →
        q = .untouched ∧ later.filter (Event.enters g) = [] ∨
          q ≠ .untouched ∧ (later.filter (Event.enters g)).length = 1 :=
      fun h => ih h fun u hu => hagain u (List.mem_cons_of_mem _ hu)
    cases h with
    | other h hne =>
      have he : e.enters g = false := by
        cases e with
        | enter u g' => simpa [Event.enters, Event.key] using hne
        | _ => rfl
      rw [List.filter_cons_of_neg (by simp [he])]
      exact ih' h
    | enter u h =>
      right
      obtain ⟨-, hnil⟩ | ⟨hne, -⟩ := ih' h
      · rw [List.filter_cons_of_pos (by simp [Event.enters]), hnil]
        exact ⟨nofun, rfl⟩
      · exact absurd rfl hne
    | skip _ h =>
      rw [List.filter_cons_of_neg (by simp [Event.enters])]
      exact ih' h
    | finish h =>
      right
      obtain ⟨h0, -⟩ | ⟨-, hone⟩ := ih' h
      · cases h0
      · rw [List.filter_cons_of_neg (by simp [Event.enters])]
        exact ⟨nofun, hone⟩
    | @giveUp _ u _ => exact absurd List.mem_cons_self (hagain u)

/-- **After giving up, one thread at most enters** before somebody gives up again. -/
theorem length_enters_of_giveUp (h : Story g (later ++ .giveUp t g :: past) p)
    (hagain : ∀ u, Event.giveUp u g ∉ later) : (later.filter (Event.enters g)).length ≤ 1 := by
  obtain ⟨-, hnil⟩ | ⟨-, hone⟩ := h.enters_of_giveUp hagain
  · rw [hnil]
    exact Nat.zero_le 1
  · exact Nat.le_of_eq hone

/-- Until then the key is untouched. -/
theorem untouched_of_giveUp (h : Story g (later ++ .giveUp t g :: past) p)
    (hagain : ∀ u, Event.giveUp u g ∉ later) (henter : ∀ u, Event.enter u g ∉ later) :
    p = .untouched := by
  obtain ⟨hp, -⟩ | ⟨-, hone⟩ := h.enters_of_giveUp hagain
  · exact hp
  · exfalso
    obtain ⟨e, he⟩ := List.exists_mem_of_length_pos (hone ▸ Nat.one_pos)
    obtain ⟨hmem, hen⟩ := List.mem_filter.mp he
    cases e with
    | enter u g' =>
      obtain rfl : g' = g := by simpa [Event.enters] using hen
      exact henter u hmem
    | _ => cases hen

end Story

end Once
