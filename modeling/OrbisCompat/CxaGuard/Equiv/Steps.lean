import OrbisCompat.CxaGuard.System

/-!
# What a step can do

The critical sections, guard by guard, and one lemma for each kind of step: what it needs of the state
before, and what it makes of it.
-/

namespace OrbisCompat.CxaGuard

namespace Memory

variable (m : Memory) (g h : Guard)

@[simp] theorem setGuard_guard (b : GuardBytes) :
    (m.setGuard g b).guard h = if h = g then b else m.guard h := rfl

theorem releaseLocked_guard :
    (m.releaseLocked g).1.guard h = if h = g then ⟨true, false, false⟩ else m.guard h := by
  unfold releaseLocked clear
  simp only [setGuard_guard]
  split_ifs <;> rfl

theorem abortLocked_guard :
    (m.abortLocked g).1.guard h = if h = g then ⟨(m.guard g).done, false, false⟩ else m.guard h := by
  unfold abortLocked clear
  simp only [setGuard_guard]

theorem releaseLocked_wake : (m.releaseLocked g).2 = (m.guard g).waiting := by
  unfold releaseLocked clear
  simp only [setGuard_guard, if_true]

theorem abortLocked_wake : (m.abortLocked g).2 = (m.guard g).waiting := rfl

theorem releaseLocked_owners : (m.releaseLocked g).1.owners = m.owners.ownerClear g := rfl

theorem abortLocked_owners : (m.abortLocked g).1.owners = m.owners.ownerClear g := rfl

/-- The guard is put down as being initialized by `self`. -/
def claim (self : ℕ) : Memory :=
  { m.setGuard g { m.guard g with pending := true } with owners := m.owners.ownerSet g self }

/-- Somebody waits for the guard. -/
def await : Memory := m.setGuard g { m.guard g with waiting := true }

theorem claim_guard (self : ℕ) :
    (m.claim g self).guard h = if h = g then { m.guard g with pending := true } else m.guard h := rfl

theorem await_guard :
    (m.await g).guard h = if h = g then { m.guard g with waiting := true } else m.guard h := rfl

end Memory

variable {anchor : ℕ → ℕ} {s s' : State} {t : ℕ} {g : Guard}

theorem start_cases (hs : step anchor s (.start t) = some s') :
    t ∉ s.live ∧ s' = { s with live := t :: s.live } := by
  unfold step at hs
  dsimp only at hs
  split_ifs at hs with hlive
  exact ⟨hlive, (Option.some.inj hs).symm⟩

theorem exit_cases (hs : step anchor s (.exit t) = some s') :
    s.pc t = .idle ∧ s.holds t = [] ∧ s' = { s with live := s.live.filter (· ≠ t) } := by
  unfold step at hs
  dsimp only at hs
  split_ifs at hs with hidle
  exact ⟨hidle.1, hidle.2, (Option.some.inj hs).symm⟩

theorem acquire_cases (hs : step anchor s (.acquire t g) = some s') :
    t ∈ s.live ∧ s.pc t = .idle ∧ s' = s.setPc t (.trying g) := by
  unfold step at hs
  dsimp only at hs
  split_ifs at hs with hidle
  exact ⟨hidle.1, hidle.2, (Option.some.inj hs).symm⟩

/-- One turn of the loop of `__cxa_guard_acquire` at `g`. -/
inductive TurnAt (anchor : ℕ → ℕ) (s : State) (t : ℕ) (parks : Bool) (g : Guard) : State → Prop
  | initialized : (s.mem.guard g).done = true →
      TurnAt anchor s t parks g ((s.setPc t .idle).record (.skip t g))
  | mine : (s.mem.guard g).done = false → (s.mem.guard g).pending = false →
      TurnAt anchor s t parks g ((((s.setMem (s.mem.claim g (anchor t))).setPc t .idle).setHolds t
        (g :: s.holds t)).record (.enter t g))
  | recursion : (s.mem.guard g).done = false → (s.mem.guard g).pending = true →
      s.mem.owners.ownerIsSelf g (anchor t) = true →
      TurnAt anchor s t parks g (s.setPc t (.reporting g))
  | wait : (s.mem.guard g).done = false → (s.mem.guard g).pending = true →
      s.mem.owners.ownerIsSelf g (anchor t) = false →
      TurnAt anchor s t parks g ((s.setMem (s.mem.await g)).setPc t
        (if parks then .parked g else .trying g))

theorem turnStep_spec (anchor : ℕ → ℕ) (s : State) (t : ℕ) (parks : Bool) (g : Guard) :
    TurnAt anchor s t parks g (turnStep anchor s t parks g) := by
  unfold turnStep Memory.acquireLocked
  cases hdone : (s.mem.guard g).done with
  | true =>
    simp only [if_true]
    exact .initialized hdone
  | false =>
    cases hpending : (s.mem.guard g).pending with
    | false => exact .mine hdone hpending
    | true =>
      cases hself : s.mem.owners.ownerIsSelf g (anchor t) with
      | true => exact .recursion hdone hpending hself
      | false => exact .wait hdone hpending hself

theorem step_turn {parks : Bool} (hpc : s.pc t = .trying g) :
    step anchor s (.turn t parks) = some (turnStep anchor s t parks g) := by
  unfold step
  dsimp only
  rw [hpc]

theorem turn_cases {parks : Bool} (hs : step anchor s (.turn t parks) = some s') :
    ∃ g, s.pc t = .trying g ∧ TurnAt anchor s t parks g s' := by
  unfold step at hs
  dsimp only at hs
  split at hs
  next g hpc =>
    obtain rfl := Option.some.inj hs
    exact ⟨g, hpc, turnStep_spec anchor s t parks g⟩
  next => cases hs

/-- `__cxa_guard_release` or `__cxa_guard_abort` at `g`, to the end of the critical section. -/
inductive LeaveAt (s : State) (t : ℕ) (g : Guard) : State → Prop
  | release : LeaveAt s t g (leaveStep s t g (s.mem.releaseLocked g) (.finish t g))
  | abort : LeaveAt s t g (leaveStep s t g (s.mem.abortLocked g) (.giveUp t g))

theorem release_cases (hs : step anchor s (.release t g) = some s') :
    s.pc t = .idle ∧ g ∈ s.holds t ∧ LeaveAt s t g s' := by
  unfold step at hs
  dsimp only at hs
  split_ifs at hs with hidle
  obtain rfl := Option.some.inj hs
  exact ⟨hidle.1, hidle.2, .release⟩

theorem abort_cases (hs : step anchor s (.abort t g) = some s') :
    s.pc t = .idle ∧ g ∈ s.holds t ∧ LeaveAt s t g s' := by
  unfold step at hs
  dsimp only at hs
  split_ifs at hs with hidle
  obtain rfl := Option.some.inj hs
  exact ⟨hidle.1, hidle.2, .abort⟩

theorem broadcast_cases (hs : step anchor s (.broadcast t) = some s') :
    (∃ g, s.pc t = .waking g) ∧ s' = s.broadcast.setPc t .idle := by
  unfold step at hs
  dsimp only at hs
  split at hs
  next g hpc => exact ⟨⟨g, hpc⟩, (Option.some.inj hs).symm⟩
  next => cases hs

theorem spurious_cases (hs : step anchor s (.spurious t) = some s') :
    ∃ g, s.pc t = .parked g ∧ s' = s.setPc t (.trying g) := by
  unfold step at hs
  dsimp only at hs
  split at hs
  next g hpc => exact ⟨g, hpc, (Option.some.inj hs).symm⟩
  next => cases hs

end OrbisCompat.CxaGuard
