import OrbisCompat.Sigev.Equiv.Service

/-!
# A disarmed timer does not fire

`body` decides to call after a timed wait: the wait gives up with `ETIMEDOUT`, takes the mutex again,
and looks at `stop`, at the clock and at the deadline, but not at `armed`.  And the call itself comes
after the mutex is given up.  So a `timer_settime` that disarms can come too late twice: between the
timeout and the decision, and between the decision and the call.

When it comes at neither time (`QuietDisarm`), a thread in or past its timed wait has an armed slot
behind it, or a stopped one (`Quiet`): the disarm found it still parked, and unparked it.
-/

namespace OrbisCompat.Sigev

/-- On the way from a timeout to a call, with nothing left to stop it. -/
def Pc.delivering (x : Slot) : Pc → Bool
  | .timedOut => !x.stop
  | .decided fn _ => fn != 0
  | _ => false

/-- No `timer_settime` disarms a slot whose notification thread is on the way from its timeout to its
call. -/
def QuietDisarm (s : State) : Label → Prop
  | .settimeLocked a _ _ =>
    match s.call a with
    | .setting i _ inp => Slot.disarms inp = true → ∀ t < s.spawned, (s.thread t).slot = i →
        (s.thread t).pc.delivering (s.slot i) = false
    | _ => True
  | _ => True

instance (s : State) (l : Label) : Decidable (QuietDisarm s l) := by
  unfold QuietDisarm
  split
  · split <;> infer_instance
  · infer_instance

theorem quietDisarm_iff {s : State} {a : Agent} {now : Timespec} {woken : Option ℕ} {i : SlotId}
    {flags : ℕ} {inp : Option Itimerspec} (hc : s.call a = .setting i flags inp) :
    QuietDisarm s (.settimeLocked a now woken) ↔ (Slot.disarms inp = true → ∀ t < s.spawned,
      (s.thread t).slot = i → (s.thread t).pc.delivering (s.slot i) = false) := by
  show (match s.call a with | .setting i _ inp => _ | _ => True) ↔ _
  rw [hc]

/-- What a thread in or past its timed wait rests on. -/
def Backed (x : Slot) (off : Bool) : Pc → Prop
  | .timedWaiting | .timedOut => x.armed = true ∨ x.stop = true
  | .decided fn _ => fn ≠ 0 → off = false
  | _ => True

/-- **The invariant.** -/
structure Quiet (s : State) : Prop where
  off : ∀ i, (s.slot i).armed = true → s.off i = false
  backed : ∀ t, Backed (s.slot (s.thread t).slot) (s.off (s.thread t).slot) (s.thread t).pc

theorem Backed.exited (x : Slot) (off : Bool) {pc : Pc} (h : pc = .exited) : Backed x off pc := by
  rw [h]
  trivial

theorem Backed.unpark (x : Slot) (off : Bool) {pc : Pc} (h : pc.parked = true) :
    Backed x off pc.unpark := by
  rcases Pc.unpark_of_parked h with hpc | hpc <;> rw [hpc] <;> trivial

theorem Backed.congr {x y : Slot} {off : Bool} {pc : Pc} (h : Backed x off pc)
    (harmed : y.armed = x.armed) (hstop : y.stop = x.stop) : Backed y off pc := by
  cases pc <;> simp only [Backed, harmed, hstop] at * <;> exact h

/-- The timed wait starts with the slot armed. -/
theorem backed_loopHead (x : Slot) (off : Bool) : Backed x off x.loopHead := by
  unfold Slot.loopHead
  split_ifs with h1 h2
  · trivial
  · trivial
  · left
    simpa [h2] using h1

theorem quiet_init : Quiet State.init where
  off := fun _ h => by cases h
  backed := fun _ => trivial

namespace Quiet

variable {s s' : State}

/-- One slot changes. -/
theorem setSlot (h : Quiet s) {i : SlotId} {x : Slot} {b : Bool}
    (harmed : x.armed = true → b = false)
    (hback : ∀ t, (s.thread t).slot = i → Backed x b (s.thread t).pc) :
    Quiet ((s.setSlot i x).setOff i b) := by
  constructor
  · intro j hj
    rw [State.setOff_slot, State.setSlot_slot] at hj
    rw [State.setOff_off]
    split_ifs at hj ⊢
    · exact harmed hj
    · exact h.off j hj
  · intro t
    show Backed (if (s.thread t).slot = i then x else _) (if (s.thread t).slot = i then b else _) _
    split_ifs with hi
    · exact hback t hi
    · exact h.backed t

/-- One slot changes, and not in `armed` and `stop`. -/
theorem setSlot_same (h : Quiet s) {i : SlotId} {x : Slot} (harmed : x.armed = (s.slot i).armed)
    (hstop : x.stop = (s.slot i).stop) : Quiet (s.setSlot i x) := by
  have hset : Quiet ((s.setSlot i x).setOff i (s.off i)) := by
    refine h.setSlot (fun hx => h.off i (harmed ▸ hx)) fun t ht => ?_
    have hback := h.backed t
    rw [ht] at hback
    exact hback.congr harmed hstop
  rwa [State.setOff_self (by rfl)] at hset

theorem setPc (h : Quiet s) {t : ℕ} {pc : Pc}
    (hpc : Backed (s.slot (s.thread t).slot) (s.off (s.thread t).slot) pc) : Quiet (s.setPc t pc) := by
  refine ⟨h.off, fun u => ?_⟩
  show Backed (s.slot ((s.setPc t pc).thread u).slot) (s.off ((s.setPc t pc).thread u).slot)
    ((s.setPc t pc).thread u).pc
  rw [State.setPc_thread]
  split_ifs with hu
  · exact hpc
  · exact h.backed u

theorem spawn (h : Quiet s) {x : Thread} (hpc : x.pc = .start) : Quiet (s.spawn x) := by
  refine ⟨h.off, fun u => ?_⟩
  show Backed (s.slot ((s.spawn x).thread u).slot) (s.off ((s.spawn x).thread u).slot)
    ((s.spawn x).thread u).pc
  rw [State.spawn_thread]
  split_ifs with hu
  · rw [hpc]
    trivial
  · exact h.backed u

theorem wake (h : Quiet s) {i : SlotId} {woken : Option ℕ} (hw : s.signals i woken = true) :
    Quiet (s.wake woken) := by
  cases woken with
  | none => exact h
  | some t =>
    apply h.setPc
    apply Backed.unpark
    exact State.parked_of_signals hw

end Quiet

/-! ### The signal of `timer_settime` and `timer_delete` -/

/-- The signal does nothing to a thread that is not parked. -/
theorem State.wake_pc_of_not_parked {s : State} {i : SlotId} {woken : Option ℕ}
    (hw : s.signals i woken = true) {t : ℕ} (h : (s.thread t).pc.parked = false) :
    ((s.wake woken).thread t).pc = (s.thread t).pc := by
  cases woken with
  | none => rfl
  | some u =>
    have hu : t ≠ u := by
      rintro rfl
      rw [parked_of_signals hw] at h
      cases h
    show (if t = u then _ else s.thread t : Thread).pc = _
    rw [if_neg hu]

/-- The signal unparks the only thread of the slot. -/
theorem Owned.wake_pc_of_parked {s : State} (h : Owned s) {i : SlotId} {woken : Option ℕ}
    (hw : s.signals i woken = true) {t : ℕ} (ht : (s.thread t).slot = i)
    (hparked : (s.thread t).pc.parked = true) :
    ((s.wake woken).thread t).pc = .woken ∨ ((s.wake woken).thread t).pc = .wokenTimed := by
  have hal : (s.thread t).alive := Pc.ne_exited_of_parked hparked
  have hlt : t < s.spawned := Nat.lt_of_not_le fun hge => h.fresh t hge hal
  have hat : s.parkedAt i t = true := by simp [State.parkedAt, ht, hparked]
  cases woken with
  | none =>
    have hnone := List.all_eq_true.mp hw t (List.mem_range.mpr hlt)
    rw [hat] at hnone
    cases hnone
  | some u =>
    -- a second thread of the slot would be the same
    obtain rfl : u = t := by
      apply h.unique
      · rw [ht]
        exact State.slot_of_signals hw
      · exact Pc.ne_exited_of_parked (State.parked_of_signals hw)
      · exact hal
    have hpc : ((s.wake (some u)).thread u).pc = (s.thread u).pc.unpark := by
      show (if u = u then _ else _ : Thread).pc = _
      rw [if_pos rfl]
    rw [hpc]
    exact Pc.unpark_of_parked hparked

/-! ### The steps -/

theorem Slot.armed_settimeLocked (x : Slot) (flags : ℕ) (inp : Option Itimerspec) (now : Timespec) :
    (x.settimeLocked flags inp now).armed = !disarms inp := by
  unfold settimeLocked disarms
  cases inp with
  | none => rfl
  | some v =>
    dsimp only
    cases hzero : v.value.isZero <;> simp

theorem Slot.store_armed (x : Slot) (ev : Sigevent) (id : ℤ) (f : Field) :
    (x.store ev id f).armed = (f != .armed && x.armed) := by cases f <;> rfl

/-- The decision to call is taken with the slot armed, when the timeout was. -/
theorem armed_of_decided {x : Slot} {off out : Bool} {now : Timespec} {fn val : ℕ}
    (hback : out = true → Backed x off .timedOut) (h : (x.afterTimedWait out now).2 = .decided fn val) :
    x.armed = true := by
  unfold Slot.afterTimedWait at h
  split_ifs at h with hstop hout hbefore
  · exact absurd (Or.inl h) (Owned.loopHead_not_calls _ _ _)
  · exact absurd (Or.inl h) (Owned.loopHead_not_calls _ _ _)
  all_goals
    have hout : out = true := by simpa using hout
    exact (hback hout).resolve_right hstop

theorem armed_of_afterTimedWait {x : Slot} {out : Bool} {now : Timespec}
    (h : (x.afterTimedWait out now).1.armed = true) : x.armed = true := by
  unfold Slot.afterTimedWait at h
  split_ifs at h <;> exact h

theorem backed_afterTimedWait {x : Slot} {off out : Bool} {now : Timespec}
    (hoff : x.armed = true → off = false) (hback : out = true → Backed x off .timedOut) :
    Backed (x.afterTimedWait out now).1 off (x.afterTimedWait out now).2 := by
  cases hpc : (x.afterTimedWait out now).2 with
  | timedWaiting | timedOut =>
    -- it is the head of the loop, and the slot is as it was
    unfold Slot.afterTimedWait at hpc ⊢
    split_ifs at hpc ⊢ with hstop hout hbefore
    all_goals
      have hloop := backed_loopHead x off
      rwa [show x.loopHead = _ from hpc] at hloop
  | decided fn val => exact fun _ => hoff (armed_of_decided hback hpc)
  | _ => trivial

namespace Quiet

variable {s s' : State}

theorem step_createStore (h : Quiet s) (ho : Owned s) {a : Agent}
    (hs : step s (.createStore a) = some s') : Quiet s' := by
  obtain ⟨i, ev, id, f, rest, hc, rfl⟩ := createStore_cases hs
  obtain ⟨howner, -⟩ := ho.callOk hc
  have hset : Quiet ((s.setSlot i ((s.slot i).store ev id f)).setOff i (f == .armed || s.off i)) := by
    refine h.setSlot (fun harmed => ?_) fun t ht => ?_
    · rw [Slot.store_armed, Bool.and_eq_true, bne_iff_ne] at harmed
      rw [h.off i harmed.2, Bool.or_false, beq_eq_false_iff_ne]
      exact harmed.1
    · -- nobody is in `body`
      apply Backed.exited
      exact not_not.mp (ho.not_alive_of_creating howner ht)
  exact ⟨hset.off, hset.backed⟩

theorem step_settimeLocked (h : Quiet s) (ho : Owned s) {a : Agent} {now : Timespec}
    {woken : Option ℕ} (hok : QuietDisarm s (.settimeLocked a now woken))
    (hs : step s (.settimeLocked a now woken) = some s') : Quiet s' := by
  obtain ⟨i, flags, inp, hc, hw, rfl⟩ := settimeLocked_cases hs
  have harmed := Slot.armed_settimeLocked (s.slot i) flags inp now
  have hset : Quiet (((s.wake woken).setSlot i ((s.slot i).settimeLocked flags inp now)).setOff i
      (Slot.disarms inp)) := by
    refine (h.wake hw).setSlot (fun hx => ?_) fun t ht => ?_
    · rw [harmed] at hx
      simpa using hx
    · cases hdis : Slot.disarms inp with
      | false =>
        rw [hdis] at harmed
        cases ((s.wake woken).thread t).pc with
        | timedWaiting => exact Or.inl harmed
        | timedOut => exact Or.inl harmed
        | decided fn val => exact fun _ => rfl
        | _ => trivial
      | true =>
        rw [State.wake_thread_slot] at ht
        cases hparked : (s.thread t).pc.parked with
        | true => rcases ho.wake_pc_of_parked hw ht hparked with hpc | hpc <;> rw [hpc] <;> trivial
        | false =>
          -- what the signal does not reach is not on the way to a call
          rw [State.wake_pc_of_not_parked hw hparked]
          by_cases hal : (s.thread t).alive
          · have hlt : t < s.spawned := Nat.lt_of_not_le fun hge => ho.fresh t hge hal
            have hquiet := (quietDisarm_iff hc).mp hok hdis t hlt ht
            cases hpc : (s.thread t).pc with
            | timedWaiting =>
              rw [hpc] at hparked
              cases hparked
            | timedOut =>
              right
              rw [(Slot.sameTimer_settimeLocked (s.slot i) flags inp now).stop]
              simpa [hpc, Pc.delivering] using hquiet
            | decided fn val =>
              intro hfn
              simp [hpc, Pc.delivering, hfn] at hquiet
            | _ => trivial
          · exact Backed.exited _ _ (not_not.mp hal)
  exact ⟨hset.off, hset.backed⟩

theorem step_deleteLocked (h : Quiet s) {a : Agent} {woken : Option ℕ}
    (hs : step s (.deleteLocked a woken) = some s') : Quiet s' := by
  obtain ⟨i, -, hw, rfl⟩ := deleteLocked_cases hs
  have hwake := h.wake hw
  have hset : Quiet (((s.wake woken).setSlot i (s.slot i).deleteLocked).setOff i (s.off i)) := by
    refine hwake.setSlot (fun hx => by cases hx) fun t ht => ?_
    have hback := hwake.backed t
    rw [ht, State.wake_off] at hback
    cases hpc : ((s.wake woken).thread t).pc with
    | timedWaiting => exact Or.inr rfl
    | timedOut => exact Or.inr rfl
    | decided fn val =>
      rw [hpc] at hback
      exact hback
    | _ => trivial
  rw [State.setOff_self (by rw [State.setSlot_off, State.wake_off])] at hset
  exact ⟨hset.off, hset.backed⟩

theorem step_body (h : Quiet s) (ho : Owned s) {t : ℕ} {now : Timespec}
    (hs : step s (.body t now) = some s') : Quiet s' := by
  rcases body_cases hs with ⟨-, rfl⟩ | ⟨out, hpc, rfl⟩
  · exact h.setPc (backed_loopHead _ _)
  · have hal : (s.thread t).alive := by
      intro hexit
      rw [hexit] at hpc
      split_ifs at hpc
    have hback : out = true →
        Backed (s.slot (s.thread t).slot) (s.off (s.thread t).slot) .timedOut := by
      rintro rfl
      have hbackt := h.backed t
      rwa [hpc] at hbackt
    constructor
    · intro j hj
      rw [State.setPc_slot, State.setSlot_slot] at hj
      split_ifs at hj with hji
      · subst hji
        exact h.off _ (armed_of_afterTimedWait hj)
      · exact h.off j hj
    · intro u
      by_cases hu : u = t
      · subst hu
        simp only [State.setPc_thread, State.setPc_slot, State.setPc_off, State.setSlot_slot,
          State.setSlot_off, State.setSlot_thread, if_true]
        exact backed_afterTimedWait (h.off _) hback
      · simp only [State.setPc_thread, State.setPc_slot, State.setPc_off, State.setSlot_slot,
          State.setSlot_off, State.setSlot_thread, if_neg hu]
        split_ifs with hslot
        · -- nobody else is in `body` there
          apply Backed.exited
          by_contra hexit
          exact hu (ho.unique hslot hexit hal)
        · exact h.backed u

/-- **Every step keeps the invariant.** -/
theorem step (h : Quiet s) (ho : Owned s) {l : Label} (hok : QuietDisarm s l)
    (hs : Sigev.step s l = some s') : Quiet s' := by
  cases l with
  | createClaim a ev =>
    obtain rfl | ⟨i, -, rfl⟩ := createClaim_cases hs
    · exact h
    · have hset : Quiet (s.setSlot i { s.slot i with used := true }) := h.setSlot_same rfl rfl
      exact ⟨hset.off, hset.backed⟩
  | createKtimer a id =>
    obtain ⟨i, ev, -, rfl | ⟨n, rfl⟩⟩ := createKtimer_cases hs
    · exact ⟨h.off, h.backed⟩
    · exact ⟨h.off, h.backed⟩
  | createStore a => exact h.step_createStore ho hs
  | createSpawn a ok =>
    obtain ⟨i, ev, id, -, rfl | rfl⟩ := createSpawn_cases hs
    · apply spawn
      · have hset : Quiet (s.setSlot i { s.slot i with thread := some s.spawned }) :=
          h.setSlot_same rfl rfl
        exact ⟨hset.off, hset.backed⟩
      · rfl
    · exact ⟨h.off, h.backed⟩
  | createRelease a =>
    obtain ⟨i, -, rfl⟩ := createRelease_cases hs
    have hset : Quiet (s.setSlot i { s.slot i with used := false }) := h.setSlot_same rfl rfl
    exact ⟨hset.off, hset.backed⟩
  | settimeEnter a i flags inp =>
    obtain ⟨-, rfl⟩ := settimeEnter_cases hs
    exact ⟨h.off, h.backed⟩
  | settimeLocked a now woken => exact h.step_settimeLocked ho hok hs
  | deleteEnter a i =>
    obtain ⟨-, -, rfl⟩ := deleteEnter_cases hs
    exact ⟨h.off, h.backed⟩
  | deleteLocked a woken => exact h.step_deleteLocked hs
  | deleteJoin a =>
    obtain ⟨i, left, -, -, rfl⟩ := deleteJoin_cases hs
    exact ⟨h.off, h.backed⟩
  | deleteKtimer a =>
    obtain ⟨i, -, rfl⟩ := deleteKtimer_cases hs
    exact ⟨h.off, h.backed⟩
  | deleteClear a =>
    obtain ⟨i, -, rfl⟩ := deleteClear_cases hs
    have hset : Quiet (s.setSlot i (s.slot i).forget) := h.setSlot_same rfl rfl
    exact ⟨hset.off, hset.backed⟩
  | body t now => exact h.step_body ho hs
  | timeout t =>
    obtain ⟨hpc, rfl⟩ := timeout_cases hs
    have hback := h.backed t
    rw [hpc] at hback
    exact h.setPc hback
  | spurious t =>
    obtain ⟨hpc, rfl⟩ := spurious_cases hs
    exact h.setPc (Backed.unpark _ _ hpc)
  | callStart t =>
    obtain ⟨fn, val, -, rfl⟩ := callStart_cases hs
    apply h.setPc
    split_ifs <;> trivial
  | callReturn t =>
    obtain ⟨-, rfl⟩ := callReturn_cases hs
    have hset := @setPc s h t .returned trivial
    exact ⟨hset.off, hset.backed⟩

end Quiet

/-! ### Runs -/

/-- The steps that neither take a slot from a thread still in it nor disarm in the middle of a
delivery. -/
def InTime (s : State) (l : Label) : Prop := NoReuse s l ∧ QuietDisarm s l

instance (s : State) (l : Label) : Decidable (InTime s l) := inferInstanceAs (Decidable (_ ∧ _))

theorem Reaches.quiet {ls : List Label} {s : State} (h : Reaches InTime ls s) :
    Owned s ∧ Quiet s :=
  Lts.Run.preserves (P := fun s => Owned s ∧ Quiet s)
    (fun _ _ _ hs hstep => ⟨hs.1.step hstep.1.1 hstep.2, hs.2.step hs.1 hstep.1.2 hstep.2⟩) h
    ⟨owned_init, quiet_init⟩

/-- The notification threads decide to call only while their slot is armed, and no call starts
between a disarm and the next arming. -/
structure FiresArmed (s : State) : Prop where
  decides : ∀ t now s' fn val, step s (.body t now) = some s' →
    (s'.thread t).pc = .decided fn val → (s.slot (s.thread t).slot).armed = true
  starts : ∀ t s' fn val, step s (.callStart t) = some s' →
    (s'.thread t).pc = .calling fn val → s.off (s.thread t).slot = false

theorem Quiet.toFiresArmed {s : State} (h : Quiet s) : FiresArmed s := by
  constructor
  · intro t now s' fn val hs hpc'
    rcases body_cases hs with ⟨-, rfl⟩ | ⟨out, hpc, rfl⟩
    · rw [State.setPc_thread, if_pos rfl] at hpc'
      exact absurd (Or.inl hpc') (Owned.loopHead_not_calls _ _ _)
    · rw [State.setPc_thread, if_pos rfl] at hpc'
      refine @armed_of_decided _ (s.off (s.thread t).slot) _ _ _ _ ?_ hpc'
      rintro rfl
      have hback := h.backed t
      rwa [hpc] at hback
  · intro t s' fn val hs hpc'
    obtain ⟨fn', val', hpc, rfl⟩ := callStart_cases hs
    rw [State.setPc_thread, if_pos rfl] at hpc'
    have hback := h.backed t
    rw [hpc] at hback
    apply hback
    intro hzero
    simp [hzero] at hpc'

theorem Timespec.not_before_self (t : Timespec) : t.before t = false := by
  simp [before]

/-- At the deadline, a slot that is not stopped is delivered, armed or not. -/
theorem afterTimedWait_deadline {x : Slot} (hstop : x.stop = false) :
    (x.afterTimedWait true x.value).2 = .decided x.fn x.val := by
  simp [Slot.afterTimedWait, hstop, Timespec.not_before_self]

/-- What is on the way to a call gets there, whatever has become of the slot. -/
theorem FiresArmed.of_delivering {s : State} (h : FiresArmed s) {t : ℕ} {x : Slot}
    (hdel : (s.thread t).pc.delivering x = true) (hstop : (s.slot (s.thread t).slot).stop = x.stop) :
    (s.slot (s.thread t).slot).armed = true ∨ s.off (s.thread t).slot = false := by
  cases hpc : (s.thread t).pc with
  | timedOut =>
    have hx : x.stop = false := by simpa [hpc, Pc.delivering] using hdel
    left
    refine h.decides t (s.slot (s.thread t).slot).value _ (s.slot (s.thread t).slot).fn
      (s.slot (s.thread t).slot).val (by
        show bodyStep s t _ = _
        unfold bodyStep
        rw [hpc]) ?_
    rw [State.setPc_thread, if_pos rfl]
    exact afterTimedWait_deadline (hstop.trans hx)
  | decided fn val =>
    have hfn : fn ≠ 0 := by simpa [hpc, Pc.delivering] using hdel
    right
    refine h.starts t (s.setPc t (.calling fn val)) fn val ?_ ?_
    · simp [step, hpc, hfn]
    · rw [State.setPc_thread, if_pos rfl]
  | _ => simp [hpc, Pc.delivering] at hdel

/-- A disarm in the middle of a delivery does not stop it: the condition is exact. -/
theorem Reaches.firesArmed_settime_iff {ls : List Label} {s s' : State} (h : Reaches InTime ls s)
    {a : Agent} {now : Timespec} {woken : Option ℕ}
    (hs : step s (.settimeLocked a now woken) = some s') :
    FiresArmed s' ↔ QuietDisarm s (.settimeLocked a now woken) := by
  obtain ⟨ho, hq⟩ := h.quiet
  constructor
  · intro hfires
    obtain ⟨i, flags, inp, hc, hw, rfl⟩ := settimeLocked_cases hs
    rw [quietDisarm_iff hc]
    intro hdis t hlt ht
    by_contra hdel
    rw [Bool.not_eq_false] at hdel
    have hparked : (s.thread t).pc.parked = false := by
      cases hpc : (s.thread t).pc <;> first | rfl | simp [hpc, Pc.delivering] at hdel
    have hpc := State.wake_pc_of_not_parked hw hparked
    have hslot := (State.wake_thread_slot s woken t).trans ht
    have hstill := @FiresArmed.of_delivering _ hfires t (s.slot i) (by
      show ((s.wake woken).thread t).pc.delivering _ = true
      rw [hpc]
      exact hdel)
    simp only [State.setOff_slot, State.setOff_off, State.setOff_thread, State.setCall_slot,
      State.setCall_thread, State.setSlot_slot, State.setSlot_thread, hslot, if_true,
      Slot.armed_settimeLocked, hdis] at hstill
    have hstop := (Slot.sameTimer_settimeLocked (s.slot i) flags inp now).stop
    simpa using hstill hstop
  · exact fun hok => (hq.step_settimeLocked ho hok hs).toFiresArmed

/-! ### A disarm between the timeout and the decision -/

end OrbisCompat.Sigev
