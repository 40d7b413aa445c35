import OrbisCompat.Sigev.Equiv.Steps

/-!
# Who has a slot

`Owned s` ties the owner of every slot to the calls in progress and to the threads: an agent in the
middle of `timer_create` or `timer_delete` is the owner of its slot, and a thread that has not left
`body` is the one thread that its slot's owner allows (`Owner.server`).  So no two threads serve one
slot.

The steps (`Equiv/Steps.lean`) are put together from a few changes of the state that keep `Owned`, one lemma each: an
agent gets on with a call (`Owned.setCall`), a thread gets on with `body` (`Owned.setPc`), the
deadline of a slot changes (`Owned.setDeadline`), a slot changes hands (`Owned.transfer`).
-/

namespace OrbisCompat.Sigev

/-- The agent that is changing the slot. -/
def Owner.agent : Owner → Option Agent
  | .creating a | .deleting a | .leaving a _ => some a
  | .free _ | .live => none

/-- The one thread that may be in `body`: the slot's own, or one that deleted its timer itself. -/
def Owner.server (thread : Option ℕ) : Owner → Option ℕ
  | .live | .deleting _ => thread
  | .free left | .leaving _ left => left
  | .creating _ => none

/-- What a call in progress knows. -/
def CallOk (s : State) (a : Agent) : CallState → Prop
  | .idle | .setting _ _ _ => True
  | .claimed i _ | .failing i => s.owner i = .creating a
  | .storing i ev _ rest => s.owner i = .creating a ∧
      (Field.fn ∉ rest → (s.slot i).fn = ev.fn) ∧ (Field.val ∉ rest → (s.slot i).val = ev.val)
  | .deleting i => s.owner i = .deleting a
  | .stopped i => s.owner i = .deleting a ∧ (s.slot i).stop = true
  | .joined i | .forgetting i => ∃ left, s.owner i = .leaving a left

/-- The thread has not left `body`. -/
def Thread.alive (x : Thread) : Prop := x.pc ≠ .exited

/-- About to call, or inside the callback. -/
def Pc.calls (pc : Pc) (fn val : ℕ) : Prop := pc = .decided fn val ∨ pc = .calling fn val

theorem Pc.unpark_of_parked {pc : Pc} (h : pc.parked = true) :
    pc.unpark = .woken ∨ pc.unpark = .wokenTimed := by
  cases pc with
  | waiting => exact Or.inl rfl
  | timedWaiting => exact Or.inr rfl
  | _ => cases h

theorem Pc.not_calls_unpark {pc : Pc} {fn val : ℕ} (h : pc.parked = true) :
    ¬ pc.unpark.calls fn val := by
  rcases unpark_of_parked h with hpc | hpc <;> rw [hpc] <;> rintro (hc | hc) <;> cases hc

theorem Pc.ne_exited_of_parked {pc : Pc} (h : pc.parked = true) : pc ≠ .exited := by
  rintro rfl
  cases h

/-- **The invariant.** -/
structure Owned (s : State) : Prop where
  fresh : ∀ t, s.spawned ≤ t → ¬ (s.thread t).alive
  used : ∀ i, (s.slot i).used = false ↔ ∃ left, s.owner i = .free left
  calls : ∀ a, CallOk s a (s.call a)
  server : ∀ t, (s.thread t).alive →
    (s.owner (s.thread t).slot).server (s.slot (s.thread t).slot).thread = some t
  stop : ∀ i t, (s.owner i).left = some t → (s.slot i).stop = true
  timer : ∀ t, (s.thread t).alive → s.timer (s.thread t).slot = (s.thread t).timer
  args : ∀ t, (s.thread t).alive → (s.slot (s.thread t).slot).stop = true ∨
    (s.slot (s.thread t).slot).fn = (s.thread t).ev.fn ∧
      (s.slot (s.thread t).slot).val = (s.thread t).ev.val
  calling : ∀ t fn val, (s.thread t).pc.calls fn val →
    fn = (s.thread t).ev.fn ∧ val = (s.thread t).ev.val

theorem owned_init : Owned State.init where
  fresh := fun _ _ h => h rfl
  used := fun _ => ⟨fun _ => ⟨none, rfl⟩, fun _ => rfl⟩
  calls := fun _ => trivial
  server := fun _ h => absurd rfl h
  stop := fun _ _ h => by cases h
  timer := fun _ h => absurd rfl h
  args := fun _ h => absurd rfl h
  calling := fun _ _ _ h => by rcases h with h | h <;> cases h

namespace State

theorem setSlot_self (s : State) (i : SlotId) : s.setSlot i (s.slot i) = s := by
  unfold setSlot
  congr 1
  funext j
  split_ifs with hj
  · rw [hj]
  · rfl

theorem setOwner_self {x : State} {i : SlotId} {o : Owner} (h : x.owner i = o) :
    x.setOwner i o = x := by
  unfold setOwner
  congr 1
  funext j
  split_ifs with hj
  · rw [hj, h]
  · rfl

theorem setOff_self {x : State} {i : SlotId} {b : Bool} (h : x.off i = b) : x.setOff i b = x := by
  unfold setOff
  congr 1
  funext j
  split_ifs with hj
  · rw [hj, h]
  · rfl

@[simp] theorem wake_slot (s : State) (woken : Option ℕ) : (s.wake woken).slot = s.slot := by
  cases woken <;> rfl

@[simp] theorem wake_owner (s : State) (woken : Option ℕ) : (s.wake woken).owner = s.owner := by
  cases woken <;> rfl

@[simp] theorem wake_off (s : State) (woken : Option ℕ) : (s.wake woken).off = s.off := by
  cases woken <;> rfl

theorem wake_thread_slot (s : State) (woken : Option ℕ) (t : ℕ) :
    ((s.wake woken).thread t).slot = (s.thread t).slot := by
  cases woken with
  | none => rfl
  | some u =>
    show (if t = u then { s.thread u with pc := _ } else s.thread t : Thread).slot = _
    split_ifs with hu
    · rw [hu]
    · rfl

theorem slot_of_signals {s : State} {i : SlotId} {t : ℕ} (h : s.signals i (some t) = true) :
    (s.thread t).slot = i := by
  have h : s.parkedAt i t = true := h
  unfold parkedAt at h
  simp only [Bool.and_eq_true, decide_eq_true_eq] at h
  exact h.1

theorem parked_of_signals {s : State} {i : SlotId} {t : ℕ} (h : s.signals i (some t) = true) :
    (s.thread t).pc.parked = true := by
  have h : s.parkedAt i t = true := h
  unfold parkedAt at h
  simp only [Bool.and_eq_true] at h
  exact h.2

end State

/-- A call in progress knows what it knew while nobody touches the slots of its agent. -/
theorem CallOk.frame {s s' : State} {a : Agent} {c : CallState} (h : CallOk s a c)
    (hsame : ∀ i, (s.owner i).agent = some a → s'.slot i = s.slot i ∧ s'.owner i = s.owner i) :
    CallOk s' a c := by
  cases c with
  | idle => trivial
  | setting i flags inp => trivial
  | claimed i ev =>
    obtain ⟨-, h2⟩ := hsame i (by rw [show s.owner i = _ from h]; rfl)
    exact h2.trans h
  | failing i =>
    obtain ⟨-, h2⟩ := hsame i (by rw [show s.owner i = _ from h]; rfl)
    exact h2.trans h
  | storing i ev id rest =>
    obtain ⟨h1, h2⟩ := hsame i (by rw [h.1]; rfl)
    refine ⟨h2.trans h.1, ?_⟩
    rw [h1]
    exact h.2
  | deleting i =>
    obtain ⟨-, h2⟩ := hsame i (by rw [show s.owner i = _ from h]; rfl)
    exact h2.trans h
  | stopped i =>
    obtain ⟨h1, h2⟩ := hsame i (by rw [h.1]; rfl)
    exact ⟨h2.trans h.1, by rw [h1]; exact h.2⟩
  | joined i =>
    obtain ⟨left, h⟩ := h
    obtain ⟨-, h2⟩ := hsame i (by rw [h]; rfl)
    exact ⟨left, h2.trans h⟩
  | forgetting i =>
    obtain ⟨left, h⟩ := h
    obtain ⟨-, h2⟩ := hsame i (by rw [h]; rfl)
    exact ⟨left, h2.trans h⟩

namespace Owned

variable {s : State}

theorem callOk (h : Owned s) {a : Agent} {c : CallState} (hc : s.call a = c) : CallOk s a c := by
  rw [← hc]
  exact h.calls a

/-- Two threads of one slot are the same thread. -/
theorem unique (h : Owned s) {t u : ℕ} (hslot : (s.thread t).slot = (s.thread u).slot)
    (ht : (s.thread t).alive) (hu : (s.thread u).alive) : t = u := by
  have h1 := h.server t ht
  have h2 := h.server u hu
  rw [hslot, h2] at h1
  exact (Option.some.inj h1).symm

/-- The parts of the state that are not in the invariant. -/
theorem congr (h : Owned s) (ktimers : List ℤ) (fired : ℕ) (off : SlotId → Bool) :
    Owned { s with ktimers := ktimers, fired := fired, off := off } :=
  ⟨h.fresh, h.used, h.calls, h.server, h.stop, h.timer, h.args, h.calling⟩

/-- **An agent gets on with a call.** -/
theorem setCall (h : Owned s) {a : Agent} {c : CallState} (hc : CallOk s a c) :
    Owned (s.setCall a c) := by
  refine ⟨h.fresh, h.used, fun b => ?_, h.server, h.stop, h.timer, h.args, h.calling⟩
  show CallOk (s.setCall a c) b (if b = a then c else s.call b)
  split_ifs with hb
  · subst hb
    exact hc.frame fun i _ => ⟨rfl, rfl⟩
  · exact (h.calls b).frame fun i _ => ⟨rfl, rfl⟩

/-- **A thread gets on with `body`.** -/
theorem setPc (h : Owned s) {t : ℕ} {pc : Pc} (ht : (s.thread t).alive)
    (hc : ∀ fn val, pc.calls fn val → fn = (s.thread t).ev.fn ∧ val = (s.thread t).ev.val) :
    Owned (s.setPc t pc) := by
  -- every thread has the slot, the timer and the arguments it had, and none comes back
  have hback : ∀ u, ((s.setPc t pc).thread u).slot = (s.thread u).slot ∧
      ((s.setPc t pc).thread u).timer = (s.thread u).timer ∧
      ((s.setPc t pc).thread u).ev = (s.thread u).ev ∧
      (((s.setPc t pc).thread u).alive → (s.thread u).alive) := by
    intro u
    rw [State.setPc_thread]
    by_cases hu : u = t
    · subst hu
      rw [if_pos rfl]
      exact ⟨rfl, rfl, rfl, fun _ => ht⟩
    · rw [if_neg hu]
      exact ⟨rfl, rfl, rfl, id⟩
  refine ⟨fun u hu hal => ?_, h.used, fun a => (h.calls a).frame fun i _ => ⟨rfl, rfl⟩,
    fun u hal => ?_, h.stop, fun u hal => ?_, fun u hal => ?_, fun u fn val hcalls => ?_⟩
  · exact h.fresh u hu ((hback u).2.2.2 hal)
  · obtain ⟨h1, -, -, h4⟩ := hback u
    rw [h1]
    exact h.server u (h4 hal)
  · obtain ⟨h1, h2, -, h4⟩ := hback u
    rw [h1, h2]
    exact h.timer u (h4 hal)
  · obtain ⟨h1, -, h3, h4⟩ := hback u
    rw [h1, h3]
    exact h.args u (h4 hal)
  · obtain ⟨-, -, h3, -⟩ := hback u
    rw [h3]
    rw [State.setPc_thread] at hcalls
    split_ifs at hcalls with hu
    · subst hu
      exact hc fn val hcalls
    · exact h.calling u fn val hcalls

/-- Unparking a thread that is parked. -/
theorem wake (h : Owned s) {i : SlotId} {woken : Option ℕ} (hw : s.signals i woken = true) :
    Owned (s.wake woken) := by
  cases woken with
  | none => exact h
  | some t =>
    have hparked := State.parked_of_signals hw
    apply h.setPc (Pc.ne_exited_of_parked hparked)
    intro fn val hcalls
    exact absurd hcalls (Pc.not_calls_unpark hparked)

end Owned

/-- The deadline may differ, and nothing else that matters to who has the slot. -/
structure Slot.SameTimer (x y : Slot) : Prop where
  used : x.used = y.used
  fn : x.fn = y.fn
  val : x.val = y.val
  thread : x.thread = y.thread
  stop : x.stop = y.stop

theorem Slot.store_fn (x : Slot) (ev : Sigevent) (id : ℤ) (f : Field) :
    (x.store ev id f).fn = if f = .fn then ev.fn else x.fn := by cases f <;> rfl

theorem Slot.store_val (x : Slot) (ev : Sigevent) (id : ℤ) (f : Field) :
    (x.store ev id f).val = if f = .val then ev.val else x.val := by cases f <;> rfl

theorem Slot.store_used (x : Slot) (ev : Sigevent) (id : ℤ) (f : Field) :
    (x.store ev id f).used = x.used := by cases f <;> rfl

theorem Slot.sameTimer_settimeLocked (x : Slot) (flags : ℕ) (inp : Option Itimerspec)
    (now : Timespec) : (x.settimeLocked flags inp now).SameTimer x := by
  unfold Slot.settimeLocked
  split
  · exact ⟨rfl, rfl, rfl, rfl, rfl⟩
  · split_ifs <;> exact ⟨rfl, rfl, rfl, rfl, rfl⟩

theorem Slot.sameTimer_afterTimedWait (x : Slot) (timedOut : Bool) (now : Timespec) :
    (x.afterTimedWait timedOut now).1.SameTimer x := by
  unfold Slot.afterTimedWait
  split_ifs <;> exact ⟨rfl, rfl, rfl, rfl, rfl⟩

namespace Owned

variable {s : State}

/-- **The deadline of a slot changes.** -/
theorem setDeadline (h : Owned s) {i : SlotId} {x : Slot} (hx : x.SameTimer (s.slot i)) :
    Owned (s.setSlot i x) := by
  have hsame : ∀ j, ((s.setSlot i x).slot j).SameTimer (s.slot j) := by
    intro j
    rw [State.setSlot_slot]
    split_ifs with hj
    · subst hj; exact hx
    · exact ⟨rfl, rfl, rfl, rfl, rfl⟩
  refine ⟨h.fresh, fun j => ?_, fun a => ?_, fun t ht => ?_, fun j t hl => ?_, h.timer,
    fun t ht => ?_, h.calling⟩
  · rw [(hsame j).used]
    exact h.used j
  · have hc := h.calls a
    show CallOk (s.setSlot i x) a (s.call a)
    cases hcall : s.call a with
    | storing j ev id rest =>
      rw [hcall] at hc
      obtain ⟨h1, h2, h3⟩ := hc
      exact ⟨h1, fun hr => (hsame j).fn.trans (h2 hr), fun hr => (hsame j).val.trans (h3 hr)⟩
    | stopped j =>
      rw [hcall] at hc
      exact ⟨hc.1, (hsame j).stop.trans hc.2⟩
    | _ =>
      rw [hcall] at hc
      exact hc
  · rw [(hsame _).thread]
    exact h.server t ht
  · rw [(hsame j).stop]
    exact h.stop j t hl
  · rw [(hsame _).stop, (hsame _).fn, (hsame _).val]
    exact h.args t ht

/-- **A slot changes hands.** -/
theorem transfer (h : Owned s) {i : SlotId} {a : Agent} {x : Slot} {c : CallState} {o : Owner}
    (hagent : ∀ b, (s.owner i).agent = some b → b = a)
    (hcall : CallOk (((s.setSlot i x).setCall a c).setOwner i o) a c)
    (hused : x.used = false ↔ ∃ left, o = .free left)
    (hserver : ∀ t, (s.thread t).slot = i → (s.thread t).alive → o.server x.thread = some t)
    (hstop : ∀ t, o.left = some t → x.stop = true)
    (hargs : ∀ t, (s.thread t).slot = i → (s.thread t).alive →
      x.stop = true ∨ x.fn = (s.thread t).ev.fn ∧ x.val = (s.thread t).ev.val) :
    Owned (((s.setSlot i x).setCall a c).setOwner i o) := by
  set s' := ((s.setSlot i x).setCall a c).setOwner i o with hs'
  have hslot : ∀ j, s'.slot j = if j = i then x else s.slot j := fun _ => rfl
  have howner : ∀ j, s'.owner j = if j = i then o else s.owner j := fun _ => rfl
  refine ⟨h.fresh, fun j => ?_, fun b => ?_, fun t ht => ?_, fun j t hl => ?_, h.timer,
    fun t ht => ?_, h.calling⟩
  · rw [hslot, howner]
    split_ifs
    · exact hused
    · exact h.used j
  · show CallOk s' b (if b = a then c else s.call b)
    split_ifs with hb
    · subst hb
      exact hcall
    · -- the slots of another agent are not `i`
      refine (h.calls b).frame fun j hj => ?_
      have hji : j ≠ i := by
        rintro rfl
        exact hb (hagent b hj)
      rw [hslot, howner, if_neg hji, if_neg hji]
      exact ⟨rfl, rfl⟩
  · rw [hslot, howner]
    show (if (s.thread t).slot = i then o else _).server
      (if (s.thread t).slot = i then x else _).thread = some t
    split_ifs with hi
    · exact hserver t hi ht
    · exact h.server t ht
  · rw [hslot]
    rw [howner] at hl
    split_ifs at hl ⊢
    · exact hstop t hl
    · exact h.stop j t hl
  · rw [hslot]
    show (if (s.thread t).slot = i then x else _).stop = true ∨
      (if (s.thread t).slot = i then x else _).fn = _ ∧ (if (s.thread t).slot = i then x else _).val = _
    split_ifs with hi
    · exact hargs t hi ht
    · exact h.args t ht

/-- A slot without threads gets a new number. -/
theorem newTimer (h : Owned s) {i : SlotId}
    (hi : ∀ t, (s.thread t).slot = i → ¬ (s.thread t).alive) : Owned (s.newTimer i) := by
  refine ⟨h.fresh, h.used, fun a => (h.calls a).frame fun i _ => ⟨rfl, rfl⟩, h.server, h.stop,
    fun t ht => ?_, h.args, h.calling⟩
  show (if (s.thread t).slot = i then s.timers else s.timer (s.thread t).slot) = (s.thread t).timer
  rw [if_neg fun hti => hi t hti ht]
  exact h.timer t ht

/-- The slot's own thread starts. -/
theorem spawn (h : Owned s) {x : Thread} (hpc : x.pc = .start)
    (hserver : (s.owner x.slot).server (s.slot x.slot).thread = some s.spawned)
    (htimer : s.timer x.slot = x.timer)
    (hargs : (s.slot x.slot).fn = x.ev.fn ∧ (s.slot x.slot).val = x.ev.val) :
    Owned (s.spawn x) := by
  have hthread : ∀ t, (s.spawn x).thread t = if t = s.spawned then x else s.thread t := fun _ => rfl
  refine ⟨fun t ht => ?_, h.used, fun a => (h.calls a).frame fun i _ => ⟨rfl, rfl⟩, fun t ht => ?_,
    h.stop, fun t ht => ?_, fun t ht => ?_, fun t fn val hc => ?_⟩
  · have ht : s.spawned + 1 ≤ t := ht
    rw [hthread, if_neg (by omega)]
    exact h.fresh t (by omega)
  all_goals rw [hthread] at *
  · split_ifs at ht ⊢ with hts
    · rw [hts]; exact hserver
    · exact h.server t ht
  · split_ifs at ht ⊢
    · exact htimer
    · exact h.timer t ht
  · split_ifs at ht ⊢
    · exact Or.inr hargs
    · exact h.args t ht
  · split_ifs at hc ⊢
    · rcases hc with hc | hc <;> rw [hpc] at hc <;> cases hc
    · exact h.calling t fn val hc

end Owned

/-! ### The steps -/

/-- No `timer_create` claims a slot whose last timer was deleted from its own callback, before the
thread of that timer has left `body`. -/
def NoReuse (s : State) : Label → Prop
  | .createClaim _ _ => ∀ t ∈ s.firstFree.bind fun i => (s.owner i).left, (s.thread t).pc = .exited
  | _ => True

instance (s : State) (l : Label) : Decidable (NoReuse s l) :=
  match l with
  | .createClaim _ _ => inferInstanceAs (Decidable (∀ t ∈ _, (s.thread t).pc = .exited))
  | .createKtimer _ _ | .createStore _ | .createSpawn _ _ | .createRelease _ | .settimeEnter _ _ _ _
  | .settimeLocked _ _ _ | .deleteEnter _ _ | .deleteLocked _ _ | .deleteJoin _ | .deleteKtimer _
  | .deleteClear _ | .body _ _ | .timeout _ | .spurious _ | .callStart _ | .callReturn _ => isTrue trivial

namespace Owned

variable {s s' : State}

/-- Nobody is in `body` in a slot that is being created. -/
theorem not_alive_of_creating (h : Owned s) {a : Agent} {i : SlotId} (ho : s.owner i = .creating a)
    {t : ℕ} (ht : (s.thread t).slot = i) : ¬ (s.thread t).alive := by
  intro hal
  have := h.server t hal
  rw [ht, ho] at this
  cases this

theorem step_createClaim (h : Owned s) {a : Agent} {ev : Sigevent}
    (hok : NoReuse s (.createClaim a ev)) (hs : step s (.createClaim a ev) = some s') :
    Owned s' := by
  obtain rfl | ⟨i, hfree, rfl⟩ := createClaim_cases hs
  · exact h
  · have hunused : (s.slot i).used = false := by simpa using List.find?_some hfree
    obtain ⟨left, howner⟩ := (h.used i).mp hunused
    have hdead : ∀ t, (s.thread t).slot = i → ¬ (s.thread t).alive := by
      intro t ht hal
      have hserver := h.server t hal
      rw [ht, howner] at hserver
      obtain rfl : left = some t := hserver
      apply hal
      apply hok
      rw [hfree, Option.bind_some, howner]
      rfl
    refine (h.transfer (fun b hb => ?_) ?_ (by simp) (fun t ht hal => absurd hal (hdead t ht))
      (fun t ht => by cases ht) fun t ht hal => absurd hal (hdead t ht)).newTimer hdead
    · rw [howner] at hb
      cases hb
    · exact if_pos rfl

theorem step_createKtimer (h : Owned s) {a : Agent} {id : Option ℤ}
    (hs : step s (.createKtimer a id) = some s') : Owned s' := by
  obtain ⟨i, ev, hc, hs⟩ := createKtimer_cases hs
  have howner : s.owner i = .creating a := h.callOk hc
  rcases hs with rfl | ⟨n, rfl⟩
  · exact h.setCall howner
  · -- all stores are still to come
    refine (h.setCall ?_).congr _ _ _
    exact ⟨howner, fun hf => absurd (by decide) hf, fun hf => absurd (by decide) hf⟩

theorem step_createStore (h : Owned s) {a : Agent} (hs : step s (.createStore a) = some s') :
    Owned s' := by
  obtain ⟨i, ev, id, f, rest, hc, rfl⟩ := createStore_cases hs
  obtain ⟨howner, hfn, hval⟩ := h.callOk hc
  have hdead := fun t ht => h.not_alive_of_creating howner (t := t) ht
  apply Owned.congr
  rw [← State.setOwner_self (x := (s.setSlot i _).setCall a _) howner]
  refine h.transfer (fun b hb => ?_) ⟨if_pos rfl, fun hr => ?_, fun hr => ?_⟩ ?_
    (fun t ht hal => absurd hal (hdead t ht)) (fun t ht => by cases ht)
    fun t ht hal => absurd hal (hdead t ht)
  · rw [howner] at hb
    exact (Option.some.inj hb).symm
  · show (if i = i then (s.slot i).store ev id f else s.slot i).fn = ev.fn
    rw [if_pos rfl, Slot.store_fn]
    split_ifs with hf
    · rfl
    · exact hfn fun hmem => (List.mem_cons.mp hmem).elim (fun he => hf he.symm) hr
  · show (if i = i then (s.slot i).store ev id f else s.slot i).val = ev.val
    rw [if_pos rfl, Slot.store_val]
    split_ifs with hf
    · rfl
    · exact hval fun hmem => (List.mem_cons.mp hmem).elim (fun he => hf he.symm) hr
  · rw [Slot.store_used, h.used i, howner]

theorem step_createSpawn (h : Owned s) {a : Agent} {ok : Bool}
    (hs : step s (.createSpawn a ok) = some s') : Owned s' := by
  obtain ⟨i, ev, id, hc, hs⟩ := createSpawn_cases hs
  obtain ⟨howner, hfn, hval⟩ := h.callOk hc
  have hdead := fun t ht => h.not_alive_of_creating howner (t := t) ht
  rcases hs with rfl | rfl
  · refine (h.transfer (fun b hb => ?_) ?_ ?_ (fun t ht hal => absurd hal (hdead t ht))
      (fun t ht => by cases ht) fun t ht hal => absurd hal (hdead t ht)).spawn rfl ?_ rfl ?_
    · rw [howner] at hb
      exact (Option.some.inj hb).symm
    · trivial
    · have hused := h.used i
      rw [howner] at hused
      simpa using hused
    · show (if i = i then Owner.live else s.owner i).server
        (if i = i then { s.slot i with thread := some s.spawned } else s.slot i).thread = _
      rw [if_pos rfl, if_pos rfl]
      rfl
    · show (if i = i then { s.slot i with thread := some s.spawned } else s.slot i).fn = _ ∧
        (if i = i then { s.slot i with thread := some s.spawned } else s.slot i).val = _
      rw [if_pos rfl]
      exact ⟨hfn (by simp), hval (by simp)⟩
  · exact (h.setCall (c := .failing i) howner).congr _ _ _

theorem step_createRelease (h : Owned s) {a : Agent} (hs : step s (.createRelease a) = some s') :
    Owned s' := by
  obtain ⟨i, hc, rfl⟩ := createRelease_cases hs
  have howner : s.owner i = .creating a := h.callOk hc
  have hdead := fun t ht => h.not_alive_of_creating howner (t := t) ht
  refine h.transfer (fun b hb => ?_) trivial (by simp) (fun t ht hal => absurd hal (hdead t ht))
    (fun t ht => by cases ht) fun t ht hal => absurd hal (hdead t ht)
  rw [howner] at hb
  exact (Option.some.inj hb).symm

theorem step_settimeEnter (h : Owned s) {a : Agent} {i : SlotId} {flags : ℕ}
    {inp : Option Itimerspec} (hs : step s (.settimeEnter a i flags inp) = some s') : Owned s' := by
  obtain ⟨-, rfl⟩ := settimeEnter_cases hs
  exact h.setCall trivial

theorem step_settimeLocked (h : Owned s) {a : Agent} {now : Timespec} {woken : Option ℕ}
    (hs : step s (.settimeLocked a now woken) = some s') : Owned s' := by
  obtain ⟨i, flags, inp, -, hw, rfl⟩ := settimeLocked_cases hs
  refine (((h.wake hw).setDeadline ?_).setCall (a := a) (c := .idle) trivial).congr _ _ _
  rw [State.wake_slot]
  exact Slot.sameTimer_settimeLocked _ _ _ _

theorem step_deleteEnter (h : Owned s) {a : Agent} {i : SlotId}
    (hs : step s (.deleteEnter a i) = some s') : Owned s' := by
  obtain ⟨hused, howner, rfl⟩ := deleteEnter_cases hs
  rw [← State.setSlot_self s i]
  refine h.transfer (fun b hb => ?_) (if_pos rfl) (by simp [hused]) (fun t ht hal => ?_)
    (fun t ht => by cases ht) fun t ht hal => ?_
  · rw [howner] at hb; cases hb
  · have hserver := h.server t hal
    rwa [ht, howner] at hserver
  · have hargs := h.args t hal
    rwa [ht] at hargs

theorem step_deleteLocked (h : Owned s) {a : Agent} {woken : Option ℕ}
    (hs : step s (.deleteLocked a woken) = some s') : Owned s' := by
  obtain ⟨i, hc, hw, rfl⟩ := deleteLocked_cases hs
  have howner : s.owner i = .deleting a := h.callOk hc
  have hwake := h.wake hw
  have howner' : (s.wake woken).owner i = .deleting a := by rw [State.wake_owner, howner]
  rw [← State.setOwner_self (x := ((s.wake woken).setSlot i _).setCall a _) howner']
  refine hwake.transfer (fun b hb => ?_) ⟨if_pos rfl, ?_⟩ ?_ (fun t ht hal => ?_)
    (fun t ht => by cases ht) fun t ht hal => Or.inl rfl
  · rw [howner'] at hb
    exact (Option.some.inj hb).symm
  · show (if i = i then (s.slot i).deleteLocked else (s.wake woken).slot i).stop = true
    rw [if_pos rfl]
    rfl
  · have hused := h.used i
    rwa [howner] at hused
  · have hserver := hwake.server t hal
    rw [ht, howner', State.wake_slot] at hserver
    exact hserver

theorem step_deleteJoin (h : Owned s) {a : Agent} (hs : step s (.deleteJoin a) = some s') :
    Owned s' := by
  obtain ⟨i, left, hc, hleft, rfl⟩ := deleteJoin_cases hs
  obtain ⟨howner, hstop⟩ := h.callOk hc
  rw [← State.setSlot_self s i]
  refine h.transfer (fun b hb => ?_) ⟨left, if_pos rfl⟩ ?_ (fun t ht hal => ?_) (fun _ _ => hstop)
    fun t _ _ => Or.inl hstop
  · rw [howner] at hb
    exact (Option.some.inj hb).symm
  · rw [h.used i, howner]
    simp
  · -- the slot's thread is the one that the join did not wait for
    have hserver := h.server t hal
    rw [ht, howner] at hserver
    have hthread : (s.slot i).thread = some t := hserver
    rcases hleft with rfl | ⟨-, hexit⟩
    · exact hthread
    · exact absurd (hexit t hthread) hal

theorem step_deleteKtimer (h : Owned s) {a : Agent} (hs : step s (.deleteKtimer a) = some s') :
    Owned s' := by
  obtain ⟨i, hc, rfl⟩ := deleteKtimer_cases hs
  have howner : ∃ left, s.owner i = .leaving a left := h.callOk hc
  exact (h.setCall (c := .forgetting i) howner).congr _ _ _

theorem step_deleteClear (h : Owned s) {a : Agent} (hs : step s (.deleteClear a) = some s') :
    Owned s' := by
  obtain ⟨i, hc, rfl⟩ := deleteClear_cases hs
  obtain ⟨left, howner⟩ := h.callOk hc
  rw [howner]
  have hserver : ∀ t, (s.thread t).slot = i → (s.thread t).alive → left = some t := by
    intro t ht hal
    have hserver := h.server t hal
    rwa [ht, howner] at hserver
  have hstop : ∀ t, left = some t → (s.slot i).stop = true := by
    intro t ht
    apply h.stop i t
    rw [howner]
    exact ht
  refine h.transfer (fun b hb => ?_) trivial ?_ hserver hstop
    fun t ht hal => Or.inl (hstop t (hserver t ht hal))
  · rw [howner] at hb
    exact (Option.some.inj hb).symm
  · simp [Slot.forget, Owner.left]

/-! ### The steps of the notification threads -/

theorem loopHead_not_calls (x : Slot) (fn val : ℕ) : ¬ x.loopHead.calls fn val := by
  unfold Slot.loopHead
  rintro (h | h) <;> split_ifs at h

/-- What `body` decides to call is what the slot holds, and the slot is not stopped. -/
theorem afterTimedWait_calls {x : Slot} {timedOut : Bool} {now : Timespec} {fn val : ℕ}
    (h : (x.afterTimedWait timedOut now).2.calls fn val) :
    x.stop = false ∧ fn = x.fn ∧ val = x.val := by
  unfold Slot.afterTimedWait at h
  split_ifs at h with hstop hto hbefore
  · rcases h with h | h <;> cases h
  · exact absurd h (loopHead_not_calls _ _ _)
  · exact absurd h (loopHead_not_calls _ _ _)
  all_goals
    rcases h with h | h
    · cases h
      exact ⟨by simpa using hstop, rfl, rfl⟩
    · cases h

/-- The thread comes back from `pthread_cond_timedwait`. -/
theorem afterTimedWait (h : Owned s) {t : ℕ} (hal : (s.thread t).alive) (timedOut : Bool)
    (now : Timespec) :
    Owned ((s.setSlot (s.thread t).slot
      ((s.slot (s.thread t).slot).afterTimedWait timedOut now).1).setPc t
      ((s.slot (s.thread t).slot).afterTimedWait timedOut now).2) := by
  refine (h.setDeadline (Slot.sameTimer_afterTimedWait _ _ _)).setPc hal fun fn val hc => ?_
  obtain ⟨hstop, hfn, hval⟩ := afterTimedWait_calls hc
  rcases h.args t hal with hs | ⟨h1, h2⟩
  · rw [hstop] at hs; cases hs
  · exact ⟨hfn.trans h1, hval.trans h2⟩

theorem step_body (h : Owned s) {t : ℕ} {now : Timespec} (hs : step s (.body t now) = some s') :
    Owned s' := by
  rcases body_cases hs with ⟨hpc, rfl⟩ | ⟨out, hpc, rfl⟩
  · refine h.setPc (fun hexit => ?_) fun fn val hc => absurd hc (loopHead_not_calls _ _ _)
    rw [hexit] at hpc
    simp at hpc
  · refine h.afterTimedWait (fun hexit => ?_) out now
    rw [hexit] at hpc
    split_ifs at hpc

theorem step_timeout (h : Owned s) {t : ℕ} (hs : step s (.timeout t) = some s') : Owned s' := by
  obtain ⟨hpc, rfl⟩ := timeout_cases hs
  refine h.setPc (fun hexit => ?_) ?_
  · rw [hexit] at hpc
    cases hpc
  · rintro fn val (hc | hc) <;> cases hc

theorem step_spurious (h : Owned s) {t : ℕ} (hs : step s (.spurious t) = some s') : Owned s' := by
  obtain ⟨hpc, rfl⟩ := spurious_cases hs
  exact h.setPc (Pc.ne_exited_of_parked hpc) fun fn val hc => absurd hc (Pc.not_calls_unpark hpc)

theorem step_callStart (h : Owned s) {t : ℕ} (hs : step s (.callStart t) = some s') :
    Owned s' := by
  obtain ⟨fn, val, hpc, rfl⟩ := callStart_cases hs
  have hcalling := h.calling t fn val (Or.inl hpc)
  refine h.setPc (fun hexit => ?_) ?_
  · rw [hexit] at hpc
    cases hpc
  · split_ifs
    · rintro fn' val' (hc | hc) <;> cases hc
      exact hcalling
    · rintro fn' val' (hc | hc) <;> cases hc

theorem step_callReturn (h : Owned s) {t : ℕ} (hs : step s (.callReturn t) = some s') :
    Owned s' := by
  obtain ⟨hpc, rfl⟩ := callReturn_cases hs
  refine (@Owned.setPc s h t .returned (fun hexit => ?_) ?_).congr _ _ _
  · rw [hexit] at hpc
    cases hpc
  · rintro fn val (hc | hc) <;> cases hc

/-- **Every step keeps who has a slot.** -/
theorem step (h : Owned s) {l : Label} (hok : NoReuse s l) (hs : Sigev.step s l = some s') :
    Owned s' := by
  cases l with
  | createClaim a ev => exact h.step_createClaim hok hs
  | createKtimer a id => exact h.step_createKtimer hs
  | createStore a => exact h.step_createStore hs
  | createSpawn a ok => exact h.step_createSpawn hs
  | createRelease a => exact h.step_createRelease hs
  | settimeEnter a i flags inp => exact h.step_settimeEnter hs
  | settimeLocked a now woken => exact h.step_settimeLocked hs
  | deleteEnter a i => exact h.step_deleteEnter hs
  | deleteLocked a woken => exact h.step_deleteLocked hs
  | deleteJoin a => exact h.step_deleteJoin hs
  | deleteKtimer a => exact h.step_deleteKtimer hs
  | deleteClear a => exact h.step_deleteClear hs
  | body t now => exact h.step_body hs
  | timeout t => exact h.step_timeout hs
  | spurious t => exact h.step_spurious hs
  | callStart t => exact h.step_callStart hs
  | callReturn t => exact h.step_callReturn hs

end Owned

end OrbisCompat.Sigev
