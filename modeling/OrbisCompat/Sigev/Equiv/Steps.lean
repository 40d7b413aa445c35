import Mathlib.Tactic.Common
import OrbisCompat.Sigev.System

/-!
# What a step can do

One lemma for each kind of step: what it needs of the state before, and what it makes of it.
-/

namespace OrbisCompat.Sigev

variable {s s' : State} {a : Agent} {t : ℕ}

theorem createClaim_cases {ev : Sigevent} (hs : step s (.createClaim a ev) = some s') :
    s' = s ∨ ∃ i, s.firstFree = some i ∧
      s' = (((s.setSlot i { s.slot i with used := true }).setCall a (.claimed i ev)).setOwner i
        (.creating a)).newTimer i := by
  unfold step at hs
  dsimp only at hs
  split_ifs at hs
  split at hs
  next => exact Or.inl (Option.some.inj hs).symm
  next i hfree => exact Or.inr ⟨i, hfree, (Option.some.inj hs).symm⟩

theorem createKtimer_cases {id : Option ℤ} (hs : step s (.createKtimer a id) = some s') :
    ∃ i ev, s.call a = .claimed i ev ∧ (s' = s.setCall a (.failing i) ∨
      ∃ n, s' = { s.setCall a (.storing i ev n Field.order) with ktimers := n :: s.ktimers }) := by
  unfold step at hs
  dsimp only at hs
  split at hs
  next i ev hc => exact ⟨i, ev, hc, Or.inl (Option.some.inj hs).symm⟩
  next i ev n hc => exact ⟨i, ev, hc, Or.inr ⟨n, (Option.some.inj hs).symm⟩⟩
  next => cases hs

theorem createStore_cases (hs : step s (.createStore a) = some s') :
    ∃ i ev id f rest, s.call a = .storing i ev id (f :: rest) ∧
      s' = ((s.setSlot i ((s.slot i).store ev id f)).setCall a (.storing i ev id rest)).setOff i
        (f == .armed || s.off i) := by
  unfold step at hs
  dsimp only at hs
  split at hs
  next i ev id f rest hc => exact ⟨i, ev, id, f, rest, hc, (Option.some.inj hs).symm⟩
  next => cases hs

theorem createSpawn_cases {ok : Bool} (hs : step s (.createSpawn a ok) = some s') :
    ∃ i ev id, s.call a = .storing i ev id [] ∧
      (s' = (((s.setSlot i { s.slot i with thread := some s.spawned }).setCall a .idle).setOwner i
          .live).spawn ⟨i, .start, ev, s.timer i⟩ ∨
        s' = { s.setCall a (.failing i) with ktimers := s.ktimers.erase id }) := by
  unfold step at hs
  dsimp only at hs
  split at hs
  next i ev id hc =>
    refine ⟨i, ev, id, hc, ?_⟩
    split_ifs at hs
    · exact Or.inl (Option.some.inj hs).symm
    · exact Or.inr (Option.some.inj hs).symm
  next => cases hs

theorem createRelease_cases (hs : step s (.createRelease a) = some s') :
    ∃ i, s.call a = .failing i ∧
      s' = ((s.setSlot i { s.slot i with used := false }).setCall a .idle).setOwner i
        (.free none) := by
  unfold step at hs
  dsimp only at hs
  split at hs
  next i hc => exact ⟨i, hc, (Option.some.inj hs).symm⟩
  next => cases hs

theorem settimeEnter_cases {i : SlotId} {flags : ℕ} {inp : Option Itimerspec}
    (hs : step s (.settimeEnter a i flags inp) = some s') :
    (s.slot i).used = true ∧ s' = s.setCall a (.setting i flags inp) := by
  unfold step at hs
  dsimp only at hs
  split_ifs at hs with hguard
  simp only [Bool.and_eq_true] at hguard
  exact ⟨hguard.2, (Option.some.inj hs).symm⟩

theorem settimeLocked_cases {now : Timespec} {woken : Option ℕ}
    (hs : step s (.settimeLocked a now woken) = some s') :
    ∃ i flags inp, s.call a = .setting i flags inp ∧ s.signals i woken = true ∧
      s' = ((((s.wake woken).setSlot i ((s.slot i).settimeLocked flags inp now))).setCall a
        .idle).setOff i (Slot.disarms inp) := by
  unfold step at hs
  dsimp only at hs
  split at hs
  next i flags inp hc =>
    split_ifs at hs with hw
    refine ⟨i, flags, inp, hc, hw, ?_⟩
    rw [← Option.some.inj hs]
    cases woken <;> rfl
  next => cases hs

theorem deleteEnter_cases {i : SlotId} (hs : step s (.deleteEnter a i) = some s') :
    (s.slot i).used = true ∧ s.owner i = .live ∧
      s' = (s.setCall a (.deleting i)).setOwner i (.deleting a) := by
  unfold step at hs
  dsimp only at hs
  split_ifs at hs with hguard
  simp only [Bool.and_eq_true, beq_iff_eq] at hguard
  exact ⟨hguard.1.2, hguard.2, (Option.some.inj hs).symm⟩

theorem deleteLocked_cases {woken : Option ℕ} (hs : step s (.deleteLocked a woken) = some s') :
    ∃ i, s.call a = .deleting i ∧ s.signals i woken = true ∧
      s' = ((s.wake woken).setSlot i (s.slot i).deleteLocked).setCall a (.stopped i) := by
  unfold step at hs
  dsimp only at hs
  split at hs
  next i hc =>
    split_ifs at hs with hw
    refine ⟨i, hc, hw, ?_⟩
    rw [← Option.some.inj hs]
    cases woken <;> rfl
  next => cases hs

/-- The join returns when the thread has left `body`, or at once to the thread itself. -/
theorem deleteJoin_cases (hs : step s (.deleteJoin a) = some s') :
    ∃ i left, s.call a = .stopped i ∧
      (left = (s.slot i).thread ∨
        left = none ∧ ∀ t, (s.slot i).thread = some t → (s.thread t).pc = .exited) ∧
      s' = (s.setCall a (.joined i)).setOwner i (.leaving a left) := by
  unfold step at hs
  dsimp only at hs
  split at hs
  next i hc =>
    split at hs
    next hnone => exact ⟨i, none, hc, Or.inl hnone.symm, (Option.some.inj hs).symm⟩
    next u hsome =>
      split_ifs at hs with hself hexit
      · exact ⟨i, some u, hc, Or.inl hsome.symm, (Option.some.inj hs).symm⟩
      · refine ⟨i, none, hc, Or.inr ⟨rfl, fun t ht => ?_⟩, (Option.some.inj hs).symm⟩
        rw [hsome] at ht
        rwa [← Option.some.inj ht]
  next => cases hs

theorem deleteKtimer_cases (hs : step s (.deleteKtimer a) = some s') :
    ∃ i, s.call a = .joined i ∧
      s' = { s.setCall a (.forgetting i) with ktimers := s.ktimers.erase (s.slot i).under } := by
  unfold step at hs
  dsimp only at hs
  split at hs
  next i hc => exact ⟨i, hc, (Option.some.inj hs).symm⟩
  next => cases hs

theorem deleteClear_cases (hs : step s (.deleteClear a) = some s') :
    ∃ i, s.call a = .forgetting i ∧
      s' = ((s.setSlot i (s.slot i).forget).setCall a .idle).setOwner i
        (.free (s.owner i).left) := by
  unfold step at hs
  dsimp only at hs
  split at hs
  next i hc => exact ⟨i, hc, (Option.some.inj hs).symm⟩
  next => cases hs

/-- `body` goes to the head of its loop, or comes back from its timed wait. -/
theorem body_cases {now : Timespec} (hs : step s (.body t now) = some s') :
    (((s.thread t).pc = .start ∨ (s.thread t).pc = .woken ∨ (s.thread t).pc = .returned) ∧
      s' = s.setPc t (s.slot (s.thread t).slot).loopHead) ∨
    ∃ out, (s.thread t).pc = (if out then .timedOut else .wokenTimed) ∧
      s' = (s.setSlot (s.thread t).slot
        ((s.slot (s.thread t).slot).afterTimedWait out now).1).setPc t
          ((s.slot (s.thread t).slot).afterTimedWait out now).2 := by
  have hs : bodyStep s t now = some s' := hs
  unfold bodyStep at hs
  dsimp only at hs
  cases hpc : (s.thread t).pc <;> rw [hpc] at hs
  case start | woken | returned => exact Or.inl ⟨by simp, (Option.some.inj hs).symm⟩
  case wokenTimed => exact Or.inr ⟨false, rfl, (Option.some.inj hs).symm⟩
  case timedOut => exact Or.inr ⟨true, rfl, (Option.some.inj hs).symm⟩
  all_goals cases hs

theorem timeout_cases (hs : step s (.timeout t) = some s') :
    (s.thread t).pc = .timedWaiting ∧ s' = s.setPc t .timedOut := by
  unfold step at hs
  dsimp only at hs
  split_ifs at hs with hpc
  exact ⟨hpc, (Option.some.inj hs).symm⟩

theorem spurious_cases (hs : step s (.spurious t) = some s') :
    (s.thread t).pc.parked = true ∧ s' = s.setPc t (s.thread t).pc.unpark := by
  unfold step at hs
  dsimp only at hs
  split_ifs at hs with hpc
  exact ⟨hpc, (Option.some.inj hs).symm⟩

theorem callStart_cases (hs : step s (.callStart t) = some s') :
    ∃ fn val, (s.thread t).pc = .decided fn val ∧
      s' = s.setPc t (if fn ≠ 0 then .calling fn val else .returned) := by
  unfold step at hs
  dsimp only at hs
  split at hs
  next fn val hpc => exact ⟨fn, val, hpc, (Option.some.inj hs).symm⟩
  next => cases hs

theorem callReturn_cases (hs : step s (.callReturn t) = some s') :
    (s.thread t).pc.inCallback = true ∧
      s' = { s.setPc t .returned with fired := s.fired + 1 } := by
  unfold step at hs
  dsimp only at hs
  split_ifs at hs with hguard
  rw [Bool.and_eq_true] at hguard
  exact ⟨hguard.1, (Option.some.inj hs).symm⟩

end OrbisCompat.Sigev
