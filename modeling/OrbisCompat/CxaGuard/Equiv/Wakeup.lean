import OrbisCompat.CxaGuard.Equiv.Steps

/-!
# The condition variable of the guards never loses a wakeup

A waiter sets `FLAG_WAITING` and is parked before anybody else has the mutex.  Whoever clears the flag has
read it in the same critical section, and broadcasts next: the waiter is covered by the flag before and by
that thread after, whatever happens to the guard in between, until the broadcast unparks everybody.
-/

namespace OrbisCompat.CxaGuard

/-- A waiter at the guard will be unparked: by whoever leaves the initializer, or by a thread on its way
to the broadcast. -/
def Covered (s : State) (g : Guard) : Prop :=
  ((s.mem.guard g).waiting = true ∧ (s.mem.guard g).pending = true) ∨ ∃ u, s.pc u = .waking g

/-- **The invariant.** -/
def AllCovered (s : State) : Prop := ∀ t g, s.pc t = .parked g → Covered s g

namespace AllCovered

variable {s s' : State} {t : ℕ} {g : Guard}

/-- A thread that is not about to broadcast gets on, and the guards in use stay so. -/
theorem move (h : AllCovered s) {pc : Pc} {m : Memory} (ht : ∀ g, s.pc t ≠ .waking g)
    (hflags : ∀ g, (s.mem.guard g).waiting = true → (s.mem.guard g).pending = true →
      (m.guard g).waiting = true ∧ (m.guard g).pending = true)
    (hpark : ∀ g, pc = .parked g → (m.guard g).waiting = true ∧ (m.guard g).pending = true) :
    AllCovered ((s.setMem m).setPc t pc) := by
  intro u g hu
  rw [State.setPc_pc] at hu
  split_ifs at hu with hut
  · exact Or.inl (hpark g hu)
  · rcases h u g hu with ⟨hwaiting, hpending⟩ | ⟨v, hv⟩
    · exact Or.inl (hflags g hwaiting hpending)
    · right
      refine ⟨v, ?_⟩
      rw [State.setPc_pc, if_neg]
      · exact hv
      · rintro rfl
        exact ht g hv

theorem setPc (h : AllCovered s) {pc : Pc} (ht : ∀ g, s.pc t ≠ .waking g)
    (hpark : ∀ g, pc ≠ .parked g) : AllCovered (s.setPc t pc) :=
  h.move (m := s.mem) ht (fun _ hw hp => ⟨hw, hp⟩) fun g hg => absurd hg (hpark g)

theorem turnAt {anchor : ℕ → ℕ} {parks : Bool} (h : AllCovered s) (hpc : s.pc t = .trying g)
    (hs : TurnAt anchor s t parks g s') : AllCovered s' := by
  have ht : ∀ g, s.pc t ≠ .waking g := by
    intro g
    rw [hpc]
    exact nofun
  cases hs with
  | initialized => exact h.setPc ht nofun
  | mine =>
    refine h.move (m := s.mem.claim g (anchor t)) ht (fun g' hw hp => ?_) nofun
    rw [Memory.claim_guard]
    split_ifs with hg
    · subst hg
      exact ⟨hw, rfl⟩
    · exact ⟨hw, hp⟩
  | recursion => exact h.setPc ht nofun
  | wait _ hpending =>
    refine h.move (m := s.mem.await g) ht (fun g' hw hp => ?_) fun g' hg' => ?_
    · rw [Memory.await_guard]
      split_ifs with hg
      · subst hg
        exact ⟨rfl, hp⟩
      · exact ⟨hw, hp⟩
    · -- the flag is set for the guard that the thread parks at
      obtain rfl : g = g' := by
        split_ifs at hg'
        exact Pc.parked.inj hg'
      rw [Memory.await_guard, if_pos rfl]
      exact ⟨rfl, hpending⟩

/-- **A release or an abort**: the thread that clears the flag has read it, and broadcasts next. -/
theorem leave (h : AllCovered s) (ht : s.pc t = .idle) {r : Memory × Bool} (e : Event)
    (hwake : r.2 = (s.mem.guard g).waiting) (hothers : ∀ g', g' ≠ g → r.1.guard g' = s.mem.guard g') :
    AllCovered (leaveStep s t g r e) := by
  intro u g' hu
  have hpc : ∀ v, (leaveStep s t g r e).pc v =
      if v = t then (if r.2 then .waking g else .idle) else s.pc v := fun _ => rfl
  rw [hpc] at hu
  by_cases hut : u = t
  · rw [if_pos hut] at hu
    split_ifs at hu
  · rw [if_neg hut] at hu
    rcases h u g' hu with ⟨hwaiting, hpending⟩ | ⟨v, hv⟩
    · by_cases hg : g' = g
      · subst hg
        right
        refine ⟨t, ?_⟩
        rw [hpc, if_pos rfl, hwake, if_pos hwaiting]
      · left
        show (r.1.guard g').waiting = true ∧ (r.1.guard g').pending = true
        rw [hothers g' hg]
        exact ⟨hwaiting, hpending⟩
    · right
      refine ⟨v, ?_⟩
      rw [hpc, if_neg]
      · exact hv
      · rintro rfl
        rw [ht] at hv
        cases hv

theorem leaveAt (h : AllCovered s) (ht : s.pc t = .idle) (hs : LeaveAt s t g s') : AllCovered s' := by
  cases hs with
  | release =>
    apply h.leave ht
    · exact Memory.releaseLocked_wake _ _
    · exact fun g' hg => (Memory.releaseLocked_guard _ _ _).trans (if_neg hg)
  | abort =>
    apply h.leave ht
    · exact Memory.abortLocked_wake _ _
    · exact fun g' hg => (Memory.abortLocked_guard _ _ _).trans (if_neg hg)

/-- **Every step keeps the invariant.** -/
theorem step {anchor : ℕ → ℕ} (h : AllCovered s) {l : Label}
    (hs : CxaGuard.step anchor s l = some s') : AllCovered s' := by
  cases l with
  | start t =>
    obtain ⟨-, rfl⟩ := start_cases hs
    exact h
  | exit t =>
    obtain ⟨-, -, rfl⟩ := exit_cases hs
    exact h
  | acquire t g =>
    obtain ⟨-, hpc, rfl⟩ := acquire_cases hs
    apply h.setPc
    · rw [hpc]
      exact nofun
    · exact nofun
  | turn t parks =>
    obtain ⟨g, hpc, hturn⟩ := turn_cases hs
    exact h.turnAt hpc hturn
  | release t g =>
    obtain ⟨hpc, -, hleave⟩ := release_cases hs
    exact h.leaveAt hpc hleave
  | abort t g =>
    obtain ⟨hpc, -, hleave⟩ := abort_cases hs
    exact h.leaveAt hpc hleave
  | broadcast t =>
    obtain ⟨-, rfl⟩ := broadcast_cases hs
    -- nobody is parked any more
    intro u g hu
    rw [State.setPc_pc, State.broadcast_pc] at hu
    split_ifs at hu
    cases hpc : s.pc u <;> rw [hpc] at hu <;> cases hu
  | spurious t =>
    obtain ⟨g, hpc, rfl⟩ := spurious_cases hs
    apply h.setPc
    · rw [hpc]
      exact nofun
    · exact nofun

end AllCovered

theorem Reaches.allCovered {anchor : ℕ → ℕ} {ok : State → Label → Prop} {ls : List Label} {s : State}
    (h : Reaches anchor ok ls s) : AllCovered s :=
  Lts.Run.preserves (P := AllCovered) (fun _ _ _ hs hstep => hs.step hstep.2) h
    (by rintro t g ⟨⟩)

/-- **No lost wakeup.**  A thread parked on behalf of a guard has its flag set and the guard pending, or
some thread has left a release or an abort of the guard with the flag read as set and has yet to
broadcast. -/
theorem Reaches.waiting_or_waking {anchor : ℕ → ℕ} {ok : State → Label → Prop} {ls : List Label}
    {s : State} (h : Reaches anchor ok ls s) {t : ℕ} {g : Guard} (hpc : s.pc t = .parked g) :
    ((s.mem.guard g).waiting = true ∧ (s.mem.guard g).pending = true) ∨
      ∃ u, s.pc u = .waking g := h.allCovered t g hpc

/-- A thread waits while another one aborts, and a third one initializes and releases before the first
broadcast. -/
def gapLabels : List Label :=
  [.start 0, .start 1, .start 2, .acquire 0 7, .turn 0 true, .acquire 1 7, .turn 1 true, .abort 0 7,
    .acquire 2 7, .turn 2 true, .release 2 7]

theorem waiting_or_waking_gap : ∃ s, Reaches (· + 1) (fun _ _ => True) gapLabels s ∧
    s.pc 1 = .parked 7 ∧ s.pc 2 = .idle ∧ (((s.mem.guard 7).waiting = true ∧
      (s.mem.guard 7).pending = true) ∨ ∃ u, s.pc u = .waking 7) := by
  obtain ⟨s, hs, hp⟩ := Lts.exists_run_of_exec
    (p := fun s : State => decide (s.pc 1 = .parked 7 ∧ s.pc 2 = .idle))
    (show (Lts.exec (Lts.guard (fun _ _ => True) (step (· + 1))) State.init gapLabels).any _ = true by
      decide)
  obtain ⟨hparked, hidle⟩ := of_decide_eq_true hp
  exact ⟨s, hs.of_guard, hparked, hidle, Reaches.waiting_or_waking hs.of_guard hparked⟩

end OrbisCompat.CxaGuard
