import OrbisCompat.Sigev.Equiv.Service
import OrbisCompat.Sigev.Expiry

/-!
# Notifications come on time

The deadline of a slot is the place in the progression `V`, `V + I`, `V + 2 * I`, … that the decisions so far
have got to (`OnTime`).  Between two critical sections of `timer_settime` and `timer_delete` nothing but
`body` changes it, and `body` does so only when it decides; so every decision is for the next place, whatever
wakes the thread and whatever the clock does (`OnTime.step`).

That a timer without an interval is decided on once rests on the one notification thread of the slot: a second
one, back from its timed wait, would not see that the slot is disarmed.
-/

namespace OrbisCompat.Sigev

/-! ### Times -/

namespace Timespec

theorem normalised_addTo {t d : Timespec} (ht : t.Normalised) (hd : d.Normalised) :
    (t.addTo d).Normalised := by
  unfold addTo
  dsimp only
  split_ifs with hc
  · exact Radix.digit_carry ht hd hc
  · exact Radix.digit_of_not_carry ht hd hc

/-- The carry of `addTo` adds up. -/
theorem nanos_addTo (t d : Timespec) : (t.addTo d).nanos = t.nanos + d.nanos := by
  unfold addTo nanos
  dsimp only
  rw [← Radix.value_add]
  split_ifs
  · exact Radix.value_carry
  · rfl

/-- The comparison of `body` is that of the times. -/
theorem before_iff {now deadline : Timespec} (hn : now.Normalised) (hd : deadline.Normalised) :
    now.before deadline = true ↔ now.nanos < deadline.nanos := by
  unfold before nanos
  rw [Radix.value_lt_iff _ _ hn hd]
  simp

end Timespec

variable {i : SlotId} {V I : Timespec} {s s' s₁ : State} {seen : List Event}

/-! ### The invariant -/

/-- The decisions in what was seen. -/
abbrev decided (seen : List Event) : List Expiry := seen.filterMap Event.expiry

/-- **The invariant.**  After `seen`, from the arming on. -/
structure OnTime (i : SlotId) (V I : Timespec) (s₁ s : State) (seen : List Event) : Prop where
  interval : (s.slot i).interval = I
  deadline : ∀ (k : ℕ) e, (decided seen)[k]? = some e →
    e.deadline.Normalised ∧ e.deadline.nanos = V.nanos + k * I.nanos
  early : ∀ e ∈ decided seen, e.now.Normalised → e.deadline.nanos ≤ e.now.nanos
  called : s₁.pending i ++ (decided seen).flatMap Expiry.invocation =
    seen.filterMap Event.invocation ++ s.pending i
  next : I.isZero = false ∨ decided seen = [] → (s.slot i).armed = true ∧
    (s.slot i).value.Normalised ∧
    (s.slot i).value.nanos = V.nanos + (decided seen).length * I.nanos
  spent : I.isZero = true → decided seen ≠ [] →
    (decided seen).length = 1 ∧ (s.slot i).armed = false
  /-- A thread in its timed wait found the slot armed, and it still is. -/
  backed : ∀ t, (s.thread t).slot = i → (s.thread t).pc = .timedWaiting ∨ (s.thread t).pc = .timedOut →
    (s.slot i).armed = true

namespace OnTime

/-- What is not about the slot, its threads and what they are at. -/
theorem congr (h : OnTime i V I s₁ s seen) (hslot : s'.slot i = s.slot i)
    (hthread : s'.thread = s.thread) : OnTime i V I s₁ s' seen := by
  have hpending : s'.pending i = s.pending i := by
    unfold State.pending
    rw [hslot, hthread]
  constructor
  · rw [hslot]; exact h.interval
  · exact h.deadline
  · exact h.early
  · rw [hpending]; exact h.called
  · rw [hslot]; exact h.next
  · rw [hslot]; exact h.spent
  · rw [hslot, hthread]; exact h.backed

theorem setSlot_ne (h : OnTime i V I s₁ s seen) {j : SlotId} (hj : i ≠ j) (x : Slot) :
    OnTime i V I s₁ (s.setSlot j x) seen := h.congr (if_neg hj) rfl

/-- A thread gets on with `body` without a decision or a call. -/
theorem setPc (h : OnTime i V I s₁ s seen) {t : ℕ} {pc : Pc}
    (hpending : (s.thread t).slot = i → pc.pending = (s.thread t).pc.pending)
    (hback : (s.thread t).slot = i → pc = .timedWaiting ∨ pc = .timedOut → (s.slot i).armed = true) :
    OnTime i V I s₁ (s.setPc t pc) seen := by
  have hsame : (s.setPc t pc).pending i = s.pending i := by
    unfold State.pending
    apply List.flatMap_congr
    intro u _
    rw [State.setPc_thread]
    by_cases hu : u = t
    · subst hu
      rw [if_pos rfl]
      exact ite_congr rfl hpending fun _ => rfl
    · rw [if_neg hu]
  refine ⟨h.interval, h.deadline, h.early, ?_, h.next, h.spent, fun u hu hpc => ?_⟩
  · rw [hsame]
    exact h.called
  · rw [State.setPc_thread] at hu hpc
    split_ifs at hu hpc with hut
    · exact hback hu hpc
    · exact h.backed u hu hpc

/-- A parked thread is unparked. -/
theorem unpark (h : OnTime i V I s₁ s seen) {t : ℕ} (hparked : (s.thread t).pc.parked = true) :
    OnTime i V I s₁ (s.setPc t (s.thread t).pc.unpark) seen := by
  have hpc := Pc.unpark_of_parked hparked
  apply h.setPc
  · intro _
    have hold : (s.thread t).pc.pending = [] := by
      cases hp : (s.thread t).pc <;> rw [hp] at hparked <;> first | rfl | cases hparked
    rcases hpc with hpc | hpc <;> rw [hpc, hold] <;> rfl
  · rintro - (h' | h') <;> rcases hpc with hpc | hpc <;> rw [hpc] at h' <;> cases h'

/-- A signal unparks a thread. -/
theorem wake (h : OnTime i V I s₁ s seen) {j : SlotId} {woken : Option ℕ}
    (hw : s.signals j woken = true) : OnTime i V I s₁ (s.wake woken) seen := by
  cases woken with
  | none => exact h
  | some t => exact h.unpark (State.parked_of_signals hw)

/-- A thread starts in another slot. -/
theorem spawn (h : OnTime i V I s₁ s seen) (ho : Owned s) {x : Thread} (hx : x.slot ≠ i) :
    OnTime i V I s₁ (s.spawn x) seen := by
  have hfresh : (s.thread s.spawned).pc = .exited := not_not.mp (ho.fresh _ le_rfl)
  have hsame : (s.spawn x).pending i = s.pending i := by
    unfold State.pending
    apply List.flatMap_congr
    intro u _
    rw [State.spawn_thread]
    by_cases hu : u = s.spawned
    · rw [if_pos hu, if_neg hx, hu, hfresh]
      exact (ite_self _).symm
    · rw [if_neg hu]
  refine ⟨h.interval, h.deadline, h.early, ?_, h.next, h.spent, fun u hu hpc => ?_⟩
  · rw [hsame]
    exact h.called
  · rw [State.spawn_thread] at hu hpc
    split_ifs at hu hpc with hus
    · exact absurd hu hx
    · exact h.backed u hu hpc

end OnTime

/-! ### Live slots -/

namespace State.Live

variable {a : Agent}

theorem not_creating (h : s.Live i) : s.owner i ≠ .creating a := by
  rintro ho
  rcases h with h | ⟨b, h, -⟩ <;> rw [ho] at h <;> cases h

theorem not_leaving (h : s.Live i) {left : Option ℕ} : s.owner i ≠ .leaving a left := by
  rintro ho
  rcases h with h | ⟨b, h, -⟩ <;> rw [ho] at h <;> cases h

theorem used (h : s.Live i) (ho : Owned s) : (s.slot i).used = true := by
  rw [← Bool.not_eq_false, ho.used i]
  rintro ⟨left, hfree⟩
  rcases h with h | ⟨b, h, -⟩ <;> rw [hfree] at h <;> cases h

/-- The one thread of the slot. -/
theorem thread (h : s.Live i) (ho : Owned s) {t : ℕ} (ht : (s.thread t).slot = i)
    (hal : (s.thread t).alive) : (s.slot i).thread = some t := by
  have hserver := ho.server t hal
  rw [ht] at hserver
  rcases h with h | ⟨b, h, -⟩ <;> rw [h] at hserver <;> exact hserver

theorem congr (h : s.Live i) (howner : s'.owner i = s.owner i)
    (hcall : ∀ a, s.call a = .deleting i → s'.call a = .deleting i) : s'.Live i := by
  rcases h with h | ⟨a, h, ha⟩
  · exact Or.inl (howner.trans h)
  · exact Or.inr ⟨a, howner.trans h, hcall a ha⟩

/-- An agent that is not deleting the slot gets on with its call. -/
theorem setCall (h : s.Live i) {c : CallState} (hc : s.call a ≠ .deleting i) :
    (s.setCall a c).Live i := by
  rcases h with h | ⟨b, h, hb⟩
  · exact Or.inl h
  · have hba : b ≠ a := by
      rintro rfl
      exact hc hb
    exact Or.inr ⟨b, h, (if_neg hba).trans hb⟩

theorem setCall_of (h : s.Live i) {c c' : CallState} (hc : s.call a = c) (hne : c ≠ .deleting i) :
    (s.setCall a c').Live i :=
  h.setCall (by rwa [hc])

theorem setOwner_ne (h : s.Live i) {j : SlotId} (hj : i ≠ j) (o : Owner) : (s.setOwner j o).Live i :=
  h.congr (if_neg hj) fun _ => id

theorem wake (h : s.Live i) (woken : Option ℕ) : (s.wake woken).Live i := by
  cases woken <;> exact h

/-- What the slot's thread still has to call. -/
theorem pending_eq (h : s.Live i) (ho : Owned s) {t : ℕ} (ht : (s.thread t).slot = i)
    (hal : (s.thread t).alive) : s.pending i = (s.thread t).pc.pending := by
  unfold State.pending
  rw [h.thread ho ht hal]
  simp [ht]

end State.Live

/-! ### The steps of the notification thread -/

/-- `body` comes back from its timed wait without a decision, and the slot is as it was; or with one, and
the slot is disarmed or has its next deadline. -/
theorem Slot.afterTimedWait_cases (x : Slot) (out : Bool) (now : Timespec) :
    ((x.afterTimedWait out now).1 = x ∧
      ((x.afterTimedWait out now).2 = .exited ∨ (x.afterTimedWait out now).2 = x.loopHead)) ∨
    (out = true ∧ now.before x.value = false ∧
      (x.afterTimedWait out now).2 = .decided x.fn x.val ∧
      (x.afterTimedWait out now).1 = if x.interval.isZero then { x with armed := false }
        else { x with value := x.value.addTo x.interval }) := by
  unfold Slot.afterTimedWait
  by_cases hstop : x.stop = true
  · rw [if_pos hstop]
    exact Or.inl ⟨rfl, Or.inl rfl⟩
  rw [if_neg hstop]
  cases out with
  | false => exact Or.inl ⟨rfl, Or.inr rfl⟩
  | true =>
    cases hb : now.before x.value with
    | true => exact Or.inl ⟨rfl, Or.inr rfl⟩
    | false => exact Or.inr ⟨rfl, rfl, rfl, rfl⟩

theorem Slot.loopHead_pending (x : Slot) : x.loopHead.pending = [] := by
  unfold Slot.loopHead
  split_ifs <;> rfl

theorem Slot.armed_of_loopHead {x : Slot} (h : x.loopHead = .timedWaiting ∨ x.loopHead = .timedOut) :
    x.armed = true := by
  unfold Slot.loopHead at h
  split_ifs at h with h1 h2
  · rcases h with h | h <;> cases h
  · rcases h with h | h <;> cases h
  · simpa [h2] using h1

namespace OnTime

variable {t : ℕ}

/-- An armed slot has its next deadline. -/
theorem next_of_armed (h : OnTime i V I s₁ s seen) (harmed : (s.slot i).armed = true) :
    (s.slot i).value.Normalised ∧ (s.slot i).value.nanos = V.nanos + (decided seen).length * I.nanos := by
  refine (h.next ?_).2
  by_contra hno
  rw [not_or, Bool.not_eq_false] at hno
  rw [(h.spent hno.1 hno.2).2] at harmed
  cases harmed

/-- Only the slot's thread can be in its timed wait. -/
theorem eq_of_waiting (ho : Owned s) (ht : (s.thread t).slot = i) (hal : (s.thread t).alive) {u : ℕ}
    (hu : (s.thread u).slot = i)
    (hwait : (s.thread u).pc = .timedWaiting ∨ (s.thread u).pc = .timedOut) : u = t := by
  refine ho.unique (hu.trans ht.symm) (fun hexit => ?_) hal
  rw [hexit] at hwait
  rcases hwait with hwait | hwait <;> cases hwait

/-- **The decision.** -/
theorem expire (h : OnTime i V I s₁ s seen) (ho : Owned s) (hl : s.Live i) (hI : I.Normalised)
    (ht : (s.thread t).slot = i) (hpc : (s.thread t).pc = .timedOut) {now : Timespec}
    (hdue : now.before (s.slot i).value = false) {x : Slot}
    (hx : x = if (s.slot i).interval.isZero then { s.slot i with armed := false }
      else { s.slot i with value := (s.slot i).value.addTo (s.slot i).interval }) :
    OnTime i V I s₁ ((s.setSlot i x).setPc t (.decided (s.slot i).fn (s.slot i).val))
      (seen ++ [.expired ⟨(s.slot i).value, now, (s.slot i).fn, (s.slot i).val⟩]) := by
  set e : Expiry := ⟨(s.slot i).value, now, (s.slot i).fn, (s.slot i).val⟩ with he
  set s' := (s.setSlot i x).setPc t (.decided (s.slot i).fn (s.slot i).val) with hs'
  have hal : (s.thread t).alive := by
    intro hexit
    rw [hexit] at hpc
    cases hpc
  have harmed := h.backed t ht (Or.inr hpc)
  obtain ⟨hnorm, hnanos⟩ := h.next_of_armed harmed
  have hslot : s'.slot i = x := if_pos rfl
  have hds : decided (seen ++ [.expired e]) = decided seen ++ [e] := by simp [Event.expiry]
  -- the slot's thread had nothing to call, and has this call now
  have hpending : s.pending i = [] := by
    rw [hl.pending_eq ho ht hal, hpc]
    rfl
  have hpending' : s'.pending i = e.invocation := by
    have hthread : (s'.slot i).thread = some t := by
      rw [hslot, hx, ← hl.thread ho ht hal]
      split_ifs <;> rfl
    unfold State.pending
    rw [hthread]
    simp [hs', ht, Pc.pending, Expiry.invocation, he]
  constructor
  · rw [hslot, hx]
    split_ifs <;> exact h.interval
  · intro k e' hk
    rw [hds, List.getElem?_append] at hk
    split_ifs at hk with hlt
    · exact h.deadline k e' hk
    · -- the last one
      rw [List.getElem?_singleton] at hk
      split_ifs at hk with hk0
      obtain rfl := Option.some.inj hk
      obtain rfl : k = (decided seen).length := by omega
      exact ⟨hnorm, hnanos⟩
  · intro e' he' hnow
    rw [hds, List.mem_append, List.mem_singleton] at he'
    rcases he' with he' | rfl
    · exact h.early e' he' hnow
    · rw [← Bool.not_eq_true, Timespec.before_iff hnow hnorm] at hdue
      exact not_lt.mp hdue
  · have hcalled := h.called
    rw [hpending, List.append_nil] at hcalled
    rw [hds, List.flatMap_append, ← List.append_assoc, hcalled, hpending']
    simp [Event.invocation]
  · rw [hds, hslot, hx, h.interval]
    rintro (hz | hnil)
    · rw [if_neg (by rw [hz]; exact Bool.false_ne_true)]
      refine ⟨harmed, Timespec.normalised_addTo hnorm hI, ?_⟩
      show ((s.slot i).value.addTo I).nanos = _
      rw [Timespec.nanos_addTo, hnanos, List.length_append, List.length_singleton]
      push_cast
      ring
    · exact absurd hnil (by simp)
  · rw [hds, hslot, hx, h.interval]
    intro hz _
    have hnil : decided seen = [] := by
      by_contra hne
      rw [(h.spent hz hne).2] at harmed
      cases harmed
    rw [if_pos hz, hnil]
    exact ⟨rfl, rfl⟩
  · -- no other thread is in the slot
    intro u hu hwait
    rw [hs', State.setPc_thread] at hu hwait
    split_ifs at hu hwait with hut
    · rcases hwait with hwait | hwait <;> cases hwait
    · exact absurd (eq_of_waiting ho ht hal hu hwait) hut

/-- **The call.** -/
theorem call (h : OnTime i V I s₁ s seen) (ho : Owned s) (hl : s.Live i)
    (ht : (s.thread t).slot = i) {fn val : ℕ} (hpc : (s.thread t).pc = .decided fn val) :
    OnTime i V I s₁ (s.setPc t (if fn ≠ 0 then .calling fn val else .returned))
      (seen ++ (s.thread t).pc.pending.map .called) := by
  set s' := s.setPc t (if fn ≠ 0 then .calling fn val else .returned) with hs'
  have hal : (s.thread t).alive := by
    intro hexit
    rw [hexit] at hpc
    cases hpc
  have hds : decided (seen ++ (s.thread t).pc.pending.map .called) = decided seen := by
    rw [decided, List.filterMap_append, List.filterMap_map]
    simp [Function.comp_def, Event.expiry]
  have hpending' : s'.pending i = [] := by
    have hthread : (s'.slot i).thread = some t := hl.thread ho ht hal
    unfold State.pending
    rw [hthread]
    simp only [hs', State.setPc_thread, if_pos, Option.toList_some, List.flatMap_singleton, ht]
    split_ifs <;> rfl
  refine ⟨h.interval, ?_, ?_, ?_, ?_, ?_, fun u hu hwait => ?_⟩
  · rw [hds]; exact h.deadline
  · rw [hds]; exact h.early
  · rw [hds, h.called, hpending', hl.pending_eq ho ht hal, List.append_nil, List.filterMap_append,
      List.filterMap_map]
    simp [Function.comp_def, Event.invocation]
  · rw [hds]; exact h.next
  · rw [hds]; exact h.spent
  · rw [hs', State.setPc_thread] at hu hwait
    split_ifs at hu hwait with hut hfn
    · rcases hwait with hwait | hwait <;> cases hwait
    · rcases hwait with hwait | hwait <;> cases hwait
    · exact h.backed u hu hwait

end OnTime

/-! ### All steps -/

section Steps

variable {a : Agent} {t : ℕ}

/-- A call starts when the agent is in no other. -/
theorem idle_of_createClaim {ev : Sigevent} (hs : step s (.createClaim a ev) = some s') :
    s.call a = .idle := by
  unfold step at hs
  dsimp only at hs
  split_ifs at hs with hguard
  rw [Bool.and_eq_true, beq_iff_eq] at hguard
  exact hguard.2

theorem idle_of_settimeEnter {j : SlotId} {flags : ℕ} {inp : Option Itimerspec}
    (hs : step s (.settimeEnter a j flags inp) = some s') : s.call a = .idle := by
  unfold step at hs
  dsimp only at hs
  split_ifs at hs with hguard
  simp only [Bool.and_eq_true, beq_iff_eq] at hguard
  exact hguard.1.2

theorem idle_of_deleteEnter {j : SlotId} (hs : step s (.deleteEnter a j) = some s') :
    s.call a = .idle := by
  unfold step at hs
  dsimp only at hs
  split_ifs at hs with hguard
  simp only [Bool.and_eq_true, beq_iff_eq] at hguard
  exact hguard.1.1.2

/-- A timer is being created in another slot. -/
theorem State.Live.ne_of_creating (hl : s.Live i) {j : SlotId} (hj : s.owner j = .creating a) :
    i ≠ j := by
  rintro rfl
  exact hl.not_creating hj

theorem State.Live.ne_of_leaving (hl : s.Live i) {j : SlotId} {left : Option ℕ}
    (hj : s.owner j = .leaving a left) : i ≠ j := by
  rintro rfl
  exact hl.not_leaving hj

/-- `timer_create` works on other slots. -/
theorem step_create (h : OnTime i V I s₁ s seen) (ho : Owned s) (hl : s.Live i) {l : Label}
    (hl' : (∃ ev, l = .createClaim a ev) ∨ (∃ id, l = .createKtimer a id) ∨ l = .createStore a ∨
      (∃ ok, l = .createSpawn a ok) ∨ l = .createRelease a)
    (hs : step s l = some s') : s'.Live i ∧ OnTime i V I s₁ s' seen := by
  rcases hl' with ⟨ev, rfl⟩ | ⟨id, rfl⟩ | rfl | ⟨ok, rfl⟩ | rfl
  · have hidle := idle_of_createClaim hs
    rcases createClaim_cases hs with rfl | ⟨j, hfree, rfl⟩
    · exact ⟨hl, h⟩
    · have hj : i ≠ j := by
        rintro rfl
        have hunused : (s.slot i).used = false := by simpa using List.find?_some hfree
        rw [hl.used ho] at hunused
        cases hunused
      refine ⟨?_, h.congr (if_neg hj) rfl⟩
      exact (hl.setCall_of hidle CallState.noConfusion).setOwner_ne hj _
  · obtain ⟨j, ev, hc, hs⟩ := createKtimer_cases hs
    have hlive : ∀ c, (s.setCall a c).Live i := fun c =>
      hl.setCall_of hc CallState.noConfusion
    rcases hs with rfl | ⟨n, rfl⟩
    · exact ⟨hlive _, h.congr rfl rfl⟩
    · exact ⟨hlive _, h.congr rfl rfl⟩
  · obtain ⟨j, ev, id, f, rest, hc, rfl⟩ := createStore_cases hs
    have hj := hl.ne_of_creating (ho.callOk hc).1
    refine ⟨?_, h.congr (if_neg hj) rfl⟩
    exact hl.setCall_of hc CallState.noConfusion
  · obtain ⟨j, ev, id, hc, hs⟩ := createSpawn_cases hs
    have hj := hl.ne_of_creating (ho.callOk hc).1
    have hlive : ∀ c, (s.setCall a c).Live i := fun c =>
      hl.setCall_of hc CallState.noConfusion
    rcases hs with rfl | rfl
    · refine ⟨(hlive .idle).setOwner_ne hj _, ?_⟩
      exact (h.spawn ho (x := ⟨j, .start, ev, s.timer j⟩) hj.symm).congr (if_neg hj) rfl
    · exact ⟨hlive _, h.congr rfl rfl⟩
  · obtain ⟨j, hc, rfl⟩ := createRelease_cases hs
    have hj := hl.ne_of_creating (ho.callOk hc)
    refine ⟨?_, h.congr (if_neg hj) rfl⟩
    exact (hl.setCall_of hc CallState.noConfusion).setOwner_ne hj _

/-- So do `timer_settime` and `timer_delete`, up to their critical sections. -/
theorem step_reset (h : OnTime i V I s₁ s seen) (ho : Owned s) (hl : s.Live i) {l : Label}
    (hl' : (∃ j flags inp, l = .settimeEnter a j flags inp) ∨
      (∃ now woken, l = .settimeLocked a now woken) ∨ (∃ j, l = .deleteEnter a j) ∨
      (∃ woken, l = .deleteLocked a woken) ∨ l = .deleteJoin a ∨ l = .deleteKtimer a ∨
      l = .deleteClear a)
    (hr : s.resets i l = false) (hs : step s l = some s') :
    s'.Live i ∧ OnTime i V I s₁ s' seen := by
  rcases hl' with ⟨j, flags, inp, rfl⟩ | ⟨now, woken, rfl⟩ | ⟨j, rfl⟩ | ⟨woken, rfl⟩ | rfl | rfl | rfl
  · have hidle := idle_of_settimeEnter hs
    obtain ⟨-, rfl⟩ := settimeEnter_cases hs
    exact ⟨hl.setCall_of hidle CallState.noConfusion, h.congr rfl rfl⟩
  · obtain ⟨j, flags, inp, hc, hw, rfl⟩ := settimeLocked_cases hs
    have hj : i ≠ j := by
      rintro rfl
      simp [State.resets, hc] at hr
    refine ⟨?_, ((h.wake hw).setSlot_ne hj _).congr rfl rfl⟩
    refine State.Live.setCall (s := (s.wake woken).setSlot j _) (hl.wake woken) ?_
    cases woken <;> exact fun he => CallState.noConfusion (hc.symm.trans he)
  · have hidle := idle_of_deleteEnter hs
    obtain ⟨-, -, rfl⟩ := deleteEnter_cases hs
    refine ⟨?_, h.congr rfl rfl⟩
    by_cases hj : i = j
    · subst hj
      exact Or.inr ⟨a, if_pos rfl, if_pos rfl⟩
    · exact (hl.setCall_of hidle CallState.noConfusion).setOwner_ne hj _
  · obtain ⟨j, hc, hw, rfl⟩ := deleteLocked_cases hs
    have hj : i ≠ j := by
      rintro rfl
      simp [State.resets, hc] at hr
    refine ⟨?_, ((h.wake hw).setSlot_ne hj _).congr rfl rfl⟩
    refine State.Live.setCall (s := (s.wake woken).setSlot j _) (hl.wake woken) ?_
    cases woken <;> exact fun he => hj (CallState.deleting.inj (he.symm.trans hc))
  · obtain ⟨j, left, hc, -, rfl⟩ := deleteJoin_cases hs
    obtain ⟨howner, -⟩ := ho.callOk hc
    have hj : i ≠ j := by
      rintro rfl
      rcases hl with hl | ⟨b, hb, hcb⟩
      · rw [hl] at howner
        cases howner
      · -- the one that deletes the slot has not got this far
        rw [hb] at howner
        obtain rfl := Owner.deleting.inj howner
        rw [hcb] at hc
        cases hc
    refine ⟨?_, h.congr rfl rfl⟩
    exact (hl.setCall_of hc CallState.noConfusion).setOwner_ne hj _
  · obtain ⟨j, hc, rfl⟩ := deleteKtimer_cases hs
    refine ⟨?_, h.congr rfl rfl⟩
    exact hl.setCall_of hc CallState.noConfusion
  · obtain ⟨j, hc, rfl⟩ := deleteClear_cases hs
    obtain ⟨left, howner⟩ := ho.callOk hc
    have hj := hl.ne_of_leaving howner
    refine ⟨?_, h.congr (if_neg hj) rfl⟩
    exact (hl.setCall_of hc CallState.noConfusion).setOwner_ne hj _

/-- `body` in a thread of another slot. -/
theorem step_body_ne (h : OnTime i V I s₁ s seen) (hl : s.Live i) {now : Timespec}
    (ht : i ≠ (s.thread t).slot) (hs : step s (.body t now) = some s') :
    s'.Live i ∧ OnTime i V I s₁ s' seen := by
  rcases body_cases hs with ⟨-, rfl⟩ | ⟨out, -, rfl⟩
  · exact ⟨hl, h.setPc (fun hti => absurd hti.symm ht) fun hti => absurd hti.symm ht⟩
  · refine ⟨hl, (h.setSlot_ne ht _).setPc (fun hti => absurd hti.symm ht) fun hti => ?_⟩
    exact absurd hti.symm ht

/-- `body` in the thread of the slot. -/
theorem step_body_self (h : OnTime i V I s₁ s seen) (ho : Owned s) (hl : s.Live i)
    (hI : I.Normalised) {now : Timespec} (ht : (s.thread t).slot = i)
    (hs : step s (.body t now) = some s') :
    s'.Live i ∧ OnTime i V I s₁ s' (seen ++ observe i s (.body t now)) := by
  -- it goes to the head of its loop
  have hhead : (s.thread t).pc.pending = [] →
      OnTime i V I s₁ (s.setPc t (s.slot i).loopHead) seen := by
    intro hpc
    apply h.setPc
    · exact fun _ => (Slot.loopHead_pending _).trans hpc.symm
    · exact fun _ => Slot.armed_of_loopHead
  rcases body_cases hs with ⟨hpc, rfl⟩ | ⟨out, hpc, rfl⟩
  · refine ⟨hl, ?_⟩
    have hobs : observe i s (.body t now) = [] := by
      refine if_neg fun hand => ?_
      rw [hand.2] at hpc
      simp at hpc
    rw [hobs, List.append_nil, ht]
    apply hhead
    rcases hpc with hpc | hpc | hpc <;> rw [hpc] <;> rfl
  · rw [ht]
    have hpend : (s.thread t).pc.pending = [] := by
      rw [hpc]
      cases out <;> rfl
    rcases Slot.afterTimedWait_cases (s.slot i) out now with ⟨hsame, hnext⟩ | ⟨rfl, hdue, hdec, hx⟩
    · -- without a decision
      have hobs : observe i s (.body t now) = [] := by
        unfold observe
        dsimp only
        split_ifs with hand
        · have hout : out = true := by
            rw [hand.2] at hpc
            split_ifs at hpc with hout
            exact hout
          rw [hout] at hnext
          rcases hnext with hnext | hnext <;> rw [hnext]
          cases hhd : (s.slot i).loopHead <;> first | rfl | skip
          exact absurd (Or.inl hhd) (Owned.loopHead_not_calls _ _ _)
        · rfl
      rw [hobs, List.append_nil, hsame, State.setSlot_self]
      refine ⟨hl, ?_⟩
      rcases hnext with hnext | hnext
      · rw [hnext]
        apply h.setPc
        · exact fun _ => hpend.symm
        · rintro - (hw | hw) <;> cases hw
      · rw [hnext]
        exact hhead hpend
    · -- with a decision
      have hpc : (s.thread t).pc = .timedOut := hpc
      have hobs : observe i s (.body t now) =
          [.expired ⟨(s.slot i).value, now, (s.slot i).fn, (s.slot i).val⟩] := by
        unfold observe
        dsimp only
        rw [if_pos ⟨ht, hpc⟩, hdec]
      rw [hobs, hdec]
      exact ⟨hl, h.expire ho hl hI ht hpc hdue hx⟩

/-- The notification threads. -/
theorem step_thread (h : OnTime i V I s₁ s seen) (ho : Owned s) (hl : s.Live i) (hI : I.Normalised)
    {l : Label} (hl' : (∃ now, l = .body t now) ∨ l = .timeout t ∨ l = .spurious t ∨
      l = .callStart t ∨ l = .callReturn t) (hs : step s l = some s') :
    s'.Live i ∧ OnTime i V I s₁ s' (seen ++ observe i s l) := by
  rcases hl' with ⟨now, rfl⟩ | rfl | rfl | rfl | rfl
  · by_cases ht : (s.thread t).slot = i
    · exact step_body_self h ho hl hI ht hs
    · have hobs : observe i s (.body t now) = [] := if_neg fun hand => ht hand.1
      rw [hobs, List.append_nil]
      exact step_body_ne h hl (Ne.symm ht) hs
  · obtain ⟨hpc, rfl⟩ := timeout_cases hs
    refine ⟨hl, ?_⟩
    rw [show observe i s (.timeout t) = [] from rfl, List.append_nil]
    apply h.setPc
    · intro _
      rw [hpc]
      rfl
    · exact fun hti _ => h.backed t hti (Or.inl hpc)
  · obtain ⟨hparked, rfl⟩ := spurious_cases hs
    refine ⟨hl, ?_⟩
    rw [show observe i s (.spurious t) = [] from rfl, List.append_nil]
    exact h.unpark hparked
  · obtain ⟨fn, val, hpc, rfl⟩ := callStart_cases hs
    refine ⟨hl, ?_⟩
    by_cases ht : (s.thread t).slot = i
    · rw [show observe i s (.callStart t) = _ from if_pos ht]
      exact h.call ho hl ht hpc
    · rw [show observe i s (.callStart t) = [] from if_neg ht, List.append_nil]
      exact h.setPc (fun hti => absurd hti ht) fun hti => absurd hti ht
  · obtain ⟨hpc, rfl⟩ := callReturn_cases hs
    refine ⟨hl, ?_⟩
    rw [show observe i s (.callReturn t) = [] from rfl, List.append_nil]
    refine OnTime.congr (s := s.setPc t .returned) (h.setPc (fun _ => ?_) fun _ hw => ?_) rfl rfl
    · cases hp : (s.thread t).pc <;> rw [hp] at hpc <;> first | rfl | cases hpc
    · rcases hw with hw | hw <;> cases hw

/-- **Every step keeps to the progression.** -/
theorem OnTime.step (h : OnTime i V I s₁ s seen) (ho : Owned s) (hl : s.Live i) (hI : I.Normalised)
    {l : Label} (hr : s.resets i l = false) (hs : Sigev.step s l = some s') :
    s'.Live i ∧ OnTime i V I s₁ s' (seen ++ observe i s l) := by
  have hquiet : observe i s l = [] → (s'.Live i ∧ OnTime i V I s₁ s' seen) →
      s'.Live i ∧ OnTime i V I s₁ s' (seen ++ observe i s l) := by
    intro hobs hstep
    rwa [hobs, List.append_nil]
  cases l with
  | createClaim a ev => exact hquiet rfl (step_create (a := a) h ho hl (Or.inl ⟨ev, rfl⟩) hs)
  | createKtimer a id => exact hquiet rfl (step_create (a := a) h ho hl (by simp) hs)
  | createStore a => exact hquiet rfl (step_create (a := a) h ho hl (by simp) hs)
  | createSpawn a ok => exact hquiet rfl (step_create (a := a) h ho hl (by simp) hs)
  | createRelease a => exact hquiet rfl (step_create (a := a) h ho hl (by simp) hs)
  | settimeEnter a j flags inp => exact hquiet rfl (step_reset (a := a) h ho hl (by simp) hr hs)
  | settimeLocked a now woken => exact hquiet rfl (step_reset (a := a) h ho hl (by simp) hr hs)
  | deleteEnter a j => exact hquiet rfl (step_reset (a := a) h ho hl (by simp) hr hs)
  | deleteLocked a woken => exact hquiet rfl (step_reset (a := a) h ho hl (by simp) hr hs)
  | deleteJoin a => exact hquiet rfl (step_reset (a := a) h ho hl (by simp) hr hs)
  | deleteKtimer a => exact hquiet rfl (step_reset (a := a) h ho hl (by simp) hr hs)
  | deleteClear a => exact hquiet rfl (step_reset (a := a) h ho hl (by simp) hr hs)
  | body t now => exact step_thread h ho hl hI (Or.inl ⟨now, rfl⟩) hs
  | timeout t => exact step_thread (t := t) h ho hl hI (by simp) hs
  | spurious t => exact step_thread (t := t) h ho hl hI (by simp) hs
  | callStart t => exact step_thread (t := t) h ho hl hI (by simp) hs
  | callReturn t => exact step_thread (t := t) h ho hl hI (by simp) hs

end Steps

/-! ### Armings -/

/-- A timer for one second from 100.6 s on and then every 0.7 s. -/
def periodic : Itimerspec := ⟨⟨1, 0⟩, ⟨0, 700000000⟩⟩

end OrbisCompat.Sigev
