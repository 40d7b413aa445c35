import OrbisCompat.Sigev.Equiv.OneToOne
import OrbisCompat.Sigev.Expiry

/-!
# A refused setting

`timer_settime` of a slot hands the setting to the kernel timer underneath and then makes it the slot's own,
whatever `ktimer_settime` returned.  So the failure is not returned, and the slot moves on without the kernel
timer unless the setting asks for what the slot is set to already (`Slot.Holds`).
-/

namespace OrbisCompat.Sigev

/-- The same armed flag, deadline and interval. -/
structure Slot.SameSetting (x y : Slot) : Prop where
  armed : x.armed = y.armed
  value : x.value = y.value
  interval : x.interval = y.interval

/-- What `timer_settime` sets a timer to: an absolute deadline and an interval, or nothing. -/
def requested (flags : ℕ) (inp : Option Itimerspec) (now : Timespec) : Option Itimerspec :=
  inp.bind fun v => if v.value.isZero then none else some ⟨deadlineOf flags v now, v.interval⟩

/-- What a slot is set to. -/
def Slot.setting (x : Slot) : Option Itimerspec := if x.armed then some ⟨x.value, x.interval⟩ else none

/-- What `ktimer_settime` leaves a kernel timer set to: when it refuses, what it was set to. -/
def kernelSetting (rc : ℤ) (before : Option Itimerspec) (flags : ℕ) (inp : Option Itimerspec)
    (now : Timespec) : Option Itimerspec := if rc = 0 then requested flags inp now else before

/-- The slot is set to what is asked for already. -/
def Slot.Holds (x : Slot) (flags : ℕ) (inp : Option Itimerspec) (now : Timespec) : Prop :=
  x.setting = requested flags inp now

instance (x : Slot) (flags : ℕ) (inp : Option Itimerspec) (now : Timespec) :
    Decidable (x.Holds flags inp now) := inferInstanceAs (Decidable (_ = _))

/-- A refused `timer_settime` returns the failure and leaves the slot as it was set. -/
def RefusalKept (L : Layout) (w : World) (t : Handle) (i : SlotId) (flags : ℕ) (inp : Option Itimerspec)
    (now : Timespec) (rc : ℤ) : Prop :=
  rc ≠ 0 → (timerSettime L w t flags inp now rc).ret = rc ∧
    ((timerSettime L w t flags inp now rc).world.slot i).SameSetting (w.slot i)

variable {L : Layout} {w : World} {t : Handle} {i : SlotId} {flags : ℕ} {inp : Option Itimerspec}
  {now : Timespec} {rc : ℤ}

/-- The critical section sets the slot to what is asked for, -/
theorem Slot.setting_settimeLocked (x : Slot) (flags : ℕ) (inp : Option Itimerspec) (now : Timespec) :
    (x.settimeLocked flags inp now).setting = requested flags inp now := by
  unfold settimeLocked requested
  cases inp with
  | none => rfl
  | some v =>
    dsimp only [Option.bind_some]
    by_cases hz : v.value.isZero = true
    · rw [if_pos hz, if_pos hz]
      rfl
    · rw [if_neg hz, if_neg hz]
      rfl

/-- and changes nothing else when it disarms. -/
theorem Slot.settimeLocked_of_none {x : Slot} (h : requested flags inp now = none) :
    x.settimeLocked flags inp now = { x with armed := false } := by
  unfold settimeLocked
  cases inp with
  | none => rfl
  | some v =>
    unfold requested at h
    rw [Option.bind_some] at h
    split_ifs at h with hz
    exact if_pos hz

theorem Slot.SameSetting.setting {x y : Slot} (h : x.SameSetting y) : x.setting = y.setting := by
  unfold Slot.setting
  rw [h.armed, h.value, h.interval]

/-- The critical section leaves the slot as it was set exactly when it is set so already. -/
theorem Slot.sameSetting_iff {x : Slot} :
    (x.settimeLocked flags inp now).SameSetting x ↔ x.Holds flags inp now := by
  constructor
  · intro h
    unfold Holds
    rw [← h.setting, setting_settimeLocked]
  · intro h
    have hset : (x.settimeLocked flags inp now).setting = x.setting :=
      (setting_settimeLocked x flags inp now).trans h.symm
    cases harmed : x.armed with
    | false =>
      have hnone : requested flags inp now = none := by
        rw [← h, setting, harmed]
        rfl
      rw [settimeLocked_of_none hnone]
      exact ⟨harmed.symm, rfl, rfl⟩
    | true =>
      -- the settings are there and equal
      unfold setting at hset
      rw [harmed, if_pos rfl] at hset
      split_ifs at hset with harmed'
      obtain ⟨hvalue, hinterval⟩ := Itimerspec.mk.inj (Option.some.inj hset)
      exact ⟨harmed'.trans harmed.symm, hvalue, hinterval⟩

theorem timerSettime_live (h : slotOf L w t = some i) :
    timerSettime L w t flags inp now rc =
      ⟨w.setSlot i ((w.slot i).settimeLocked flags inp now), 0,
        [.settime (w.slot i).under flags inp]⟩ := by
  unfold timerSettime
  rw [h]

/-- **Refused settings.**  On a live slot a refusal is never kept: `0` is returned whatever the kernel said.
The slot stays as it was set exactly when it is set to what is asked for already; and when the slot and the
kernel timer agreed before a refusal, they agree after it exactly then. -/
theorem refusalKept_iff (h : slotOf L w t = some i) :
    (RefusalKept L w t i flags inp now rc ↔ rc = 0) ∧
    (((timerSettime L w t flags inp now rc).world.slot i).SameSetting (w.slot i) ↔
      (w.slot i).Holds flags inp now) ∧
    (rc ≠ 0 → (((timerSettime L w t flags inp now rc).world.slot i).setting =
      kernelSetting rc (w.slot i).setting flags inp now ↔ (w.slot i).Holds flags inp now)) := by
  have hslot : (timerSettime L w t flags inp now rc).world.slot i =
      (w.slot i).settimeLocked flags inp now := by
    rw [timerSettime_live h]
    exact if_pos rfl
  refine ⟨⟨fun hkept => ?_, fun hrc hne => absurd hrc hne⟩, ?_, fun hrc => ?_⟩
  · by_contra hne
    have hret := (hkept hne).1
    rw [timerSettime_live h] at hret
    exact hne hret.symm
  · rw [hslot]
    exact Slot.sameSetting_iff
  · rw [hslot, Slot.setting_settimeLocked, kernelSetting, if_neg hrc]
    exact eq_comm

/-- One `SIGEV_THREAD` timer. -/
def oneTimer : World :=
  (Session.init.next sessionLayout (.create 0 (some ⟨sigevThread, 0, 7, 0x4000⟩) true
    ⟨none, 0, 3, some 1⟩)).world

theorem refusalKept_iff_oneTimer :
    RefusalKept sessionLayout oneTimer 0x100000 0 0 (some ⟨⟨1, 0⟩, ⟨0, 0⟩⟩) ⟨10, 0⟩ 0 ∧
      ¬ RefusalKept sessionLayout oneTimer 0x100000 0 0 (some ⟨⟨1, -5⟩, ⟨0, 0⟩⟩) ⟨10, 0⟩ (-1) := by
  have hlive : slotOf sessionLayout oneTimer 0x100000 = some 0 := by decide +kernel
  exact ⟨(refusalKept_iff hlive).1.mpr rfl, fun hkept => absurd ((refusalKept_iff hlive).1.mp hkept)
    (by decide)⟩

/-- The kernel refuses a second of nanoseconds; the call returns `0` and arms the slot with it. -/
theorem not_refusalKept_second : slotOf sessionLayout oneTimer 0x100000 = some 0 ∧
    (oneTimer.slot 0).armed = false ∧
    (timerSettime sessionLayout oneTimer 0x100000 1 (some ⟨⟨50, 1000000000⟩, ⟨0, 0⟩⟩) ⟨10, 0⟩ (-1)).ret = 0 ∧
    ((timerSettime sessionLayout oneTimer 0x100000 1 (some ⟨⟨50, 1000000000⟩, ⟨0, 0⟩⟩) ⟨10, 0⟩
      (-1)).world.slot 0).armed = true ∧
    ¬ RefusalKept sessionLayout oneTimer 0x100000 0 1 (some ⟨⟨50, 1000000000⟩, ⟨0, 0⟩⟩) ⟨10, 0⟩ (-1) := by
  refine ⟨by decide +kernel, by decide +kernel, by decide +kernel, by decide +kernel, fun hkept => ?_⟩
  exact absurd (hkept (by decide)).1 (by decide +kernel)

end OrbisCompat.Sigev
