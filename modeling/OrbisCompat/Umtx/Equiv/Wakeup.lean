import OrbisCompat.Lib.Mutex
import OrbisCompat.Umtx.System

/-!
# The futex never loses a wakeup

A thread that waits has seen the word as expected, with the mutex of the bucket held, and keeps the
mutex until it is parked.  So a store that comes after the comparison is by a thread that cannot
broadcast before the waiter is parked, and from then on the broadcast reaches it.  A bucket shared with
other addresses only adds threads that a broadcast unparks.
-/

namespace OrbisCompat.Umtx

/-- The word is what the wait expects, or some thread has yet to broadcast for it. -/
def Covered (s : State) (w : Wait) : Prop := s.word w.addr = w.val ∨ ∃ u, s.owes u w.addr = true

/-- **The invariant.** -/
structure Inv (s : State) : Prop where
  held : Mutex.Held (fun t => (s.pc t).holds) s.lock
  covered : ∀ t w, (s.pc t).waiting = some w → Covered s w

theorem inv_init (word : Addr → UInt32) : Inv (State.init word) where
  held := by rintro t b ⟨⟩
  covered := by rintro t w ⟨⟩

theorem Pc.holds_broadcastAt (pc : Pc) (b : BucketId) : (pc.broadcastAt b).holds = pc.holds := by
  cases pc with
  | parked w reg =>
    unfold broadcastAt
    dsimp only
    split_ifs <;> rfl
  | _ => rfl

/-- What still waits after a broadcast has the mutex of another bucket to park on, or holds this
one. -/
theorem Pc.waiting_broadcastAt {pc : Pc} {b : BucketId} {w : Wait}
    (h : (pc.broadcastAt b).waiting = some w) :
    pc.waiting = some w ∧ (w.bucket = b → pc.holds = some b) := by
  cases pc with
  | claim w' k =>
    obtain rfl := Option.some.inj h
    exact ⟨rfl, fun hb => congrArg some hb⟩
  | park w' reg =>
    obtain rfl := Option.some.inj h
    exact ⟨rfl, fun hb => congrArg some hb⟩
  | parked w' reg =>
    unfold broadcastAt at h
    dsimp only at h
    split_ifs at h with hb
    · cases h
    · obtain rfl := Option.some.inj h
      exact ⟨rfl, fun hb' => absurd hb' hb⟩
  | _ => cases h

namespace Inv

variable {s s' : State} {t : ℕ} {pc : Pc}

/-- **A thread gets on**, with the mutexes it had. -/
theorem setPc (h : Inv s) (hholds : pc.holds = (s.pc t).holds)
    (hwait : ∀ w, pc.waiting = some w → Covered s w) : Inv (s.setPc t pc) := by
  constructor
  · apply h.held.congr
    intro u
    rw [State.setPc_pc]
    split_ifs with hu
    · rw [hholds, hu]
    · rfl
  · intro u w hw
    rw [State.setPc_pc] at hw
    split_ifs at hw
    · exact hwait w hw
    · exact h.covered u w hw

/-- A thread that waits keeps waiting. -/
theorem setPc_waiting (h : Inv s) {w : Wait} (ht : (s.pc t).waiting = some w)
    (hholds : pc.holds = (s.pc t).holds) (hwait : pc.waiting = some w) : Inv (s.setPc t pc) := by
  apply h.setPc hholds
  intro w' hw'
  rw [hwait] at hw'
  obtain rfl := Option.some.inj hw'
  exact h.covered t w ht

/-- **A thread takes a mutex.** -/
theorem acquire (h : Inv s) {b : BucketId} (hfree : s.lock b = none) (hholds : pc.holds = some b)
    (hwait : pc.waiting = none) : Inv ((s.setLock b (some t)).setPc t pc) := by
  constructor
  · have hheld := h.held.acquire (t := t) hfree
    apply hheld.congr
    intro u
    rw [State.setPc_pc]
    split_ifs
    · exact hholds
    · rfl
  · intro u w hw
    rw [State.setPc_pc] at hw
    split_ifs at hw
    · rw [hwait] at hw
      cases hw
    · exact h.covered u w hw

/-- **A thread gives up the mutex it holds**, and is parked or goes on without it. -/
theorem release (h : Inv s) {b : BucketId} (ht : (s.pc t).holds = some b) (hholds : pc.holds = none)
    (hwait : ∀ w, pc.waiting = some w → Covered s w) :
    Inv ((s.setLock b none).setPc t pc) := by
  constructor
  · have hheld := h.held.release ht
    apply hheld.congr
    intro u
    rw [State.setPc_pc]
    split_ifs
    · exact hholds
    · rfl
  · intro u w hw
    rw [State.setPc_pc] at hw
    split_ifs at hw
    · exact hwait w hw
    · exact h.covered u w hw

/-- A call returns. -/
theorem ret (h : Inv (s.setPc t .idle)) (r : Answer) : Inv (s.ret t r) := ⟨h.held, h.covered⟩

theorem setWaiter (h : Inv s) (k : WaiterId) (x : Waiter) : Inv (s.setWaiter k x) :=
  ⟨h.held, h.covered⟩

/-- **A store**: whoever waits for the word is covered by the storing thread. -/
theorem store (h : Inv s) (addr : Addr) (val : UInt32) :
    Inv ((s.store addr val).setOwes t addr true) := by
  refine ⟨h.held, fun u w hw => ?_⟩
  by_cases ha : w.addr = addr
  · right
    refine ⟨t, ?_⟩
    show (if t = t ∧ w.addr = addr then true else _) = true
    rw [if_pos ⟨rfl, ha⟩]
  · rcases h.covered u w hw with hword | ⟨v, hv⟩
    · left
      show (if w.addr = addr then val else s.word w.addr) = w.val
      rw [if_neg ha, hword]
    · right
      refine ⟨v, ?_⟩
      show (if v = t ∧ w.addr = addr then true else s.owes v w.addr) = true
      rw [if_neg fun hv => ha hv.2, hv]

/-- **A broadcast**: what it pays for is unparked, and what is about to park on the same bucket would
hold the mutex. -/
theorem broadcast (h : Inv s) {addr : Addr} (ht : (s.pc t).holds = some (bucketFor addr))
    (hholds : pc.holds = some (bucketFor addr)) (hwait : pc.waiting = none) :
    Inv (((s.broadcast (bucketFor addr)).setPc t pc).setOwes t addr false) := by
  constructor
  · apply h.held.congr
    intro u
    rw [State.setOwes_pc, State.setPc_pc, State.broadcast_pc]
    split_ifs with hu
    · rw [hholds, hu, ht]
    · exact Pc.holds_broadcastAt _ _
  · intro u w hw
    rw [State.setOwes_pc, State.setPc_pc, State.broadcast_pc] at hw
    split_ifs at hw with hu
    · rw [hwait] at hw
      cases hw
    · obtain ⟨hw', hbucket⟩ := Pc.waiting_broadcastAt hw
      have ha : w.addr ≠ addr := by
        rintro rfl
        exact hu (h.held.unique (hbucket rfl) ht)
      rcases h.covered u w hw' with hword | ⟨v, hv⟩
      · exact Or.inl hword
      · right
        refine ⟨v, ?_⟩
        show (if v = t ∧ w.addr = addr then false else s.owes v w.addr) = true
        rw [if_neg fun hv => ha hv.2, hv]

theorem callStep (h : Inv s) (ht : s.pc t = .idle) (obj : Addr) (op : ℤ) (val : UInt64)
    (timed : Bool) : Inv (Umtx.callStep s t obj op val timed) := by
  unfold Umtx.callStep
  split
  · apply h.setPc
    · rw [ht]; rfl
    · rintro w ⟨⟩
  · apply h.setPc
    · rw [ht]; rfl
    · rintro w ⟨⟩
  · apply Inv.ret
    apply h.setPc
    · rw [ht]
    · rintro w ⟨⟩

/-- One case for each place in `_umtx_op`. -/
theorem runStep (h : Inv s) (hs : Umtx.runStep s t = some s') : Inv s' := by
  have hcov := h.covered t
  unfold Umtx.runStep at hs
  cases hpc : s.pc t <;> rw [hpc] at hs hcov
  case waitLock w =>
    dsimp only at hs
    split_ifs at hs with hfree
    obtain rfl := Option.some.inj hs
    exact h.acquire hfree rfl rfl
  case compare w =>
    obtain rfl := Option.some.inj hs
    apply h.setPc
    · rw [hpc]
      split_ifs <;> rfl
    · intro w' hw'
      split_ifs at hw' with hword
      · cases hw'
      · obtain rfl := Option.some.inj hw'
        exact Or.inl (not_not.mp hword)
  case differs w =>
    obtain rfl := Option.some.inj hs
    apply Inv.ret
    apply h.release (by rw [hpc]; rfl) rfl
    rintro w' ⟨⟩
  case claim w k =>
    -- with a register or without, the thread waits for the same word
    have hwait : (s.pc t).waiting = some w := by rw [hpc]; rfl
    dsimp only at hs
    split_ifs at hs
    · split at hs
      · obtain rfl := Option.some.inj hs
        exact (h.setWaiter _ _).setPc_waiting hwait (by
          rw [show (s.setWaiter _ _).pc t = _ from hpc]; rfl) rfl
      · obtain rfl := Option.some.inj hs
        exact h.setPc_waiting hwait (by rw [hpc]; rfl) rfl
    · obtain rfl := Option.some.inj hs
      exact h.setPc_waiting hwait (by rw [hpc]; rfl) rfl
  case park w reg =>
    obtain rfl := Option.some.inj hs
    exact h.release (by rw [hpc]; rfl) rfl hcov
  case woken w reg ret =>
    dsimp only at hs
    split_ifs at hs with hfree
    obtain rfl := Option.some.inj hs
    exact h.acquire hfree rfl rfl
  case release w reg ret =>
    cases reg with
    | none =>
      obtain rfl := Option.some.inj hs
      apply h.setPc
      · rw [hpc]; rfl
      · rintro w' ⟨⟩
    | some k =>
      obtain rfl := Option.some.inj hs
      apply (h.setWaiter _ _).setPc
      · rw [show (s.setWaiter _ _).pc t = _ from hpc]; rfl
      · rintro w' ⟨⟩
  case unlock w ret =>
    obtain rfl := Option.some.inj hs
    apply Inv.ret
    apply h.release (by rw [hpc]; rfl) rfl
    rintro w' ⟨⟩
  case wakeLock addr =>
    dsimp only at hs
    split_ifs at hs with hfree
    obtain rfl := Option.some.inj hs
    exact h.acquire hfree rfl rfl
  case broadcast addr =>
    obtain rfl := Option.some.inj hs
    exact h.broadcast (by rw [hpc]; rfl) rfl rfl
  case wakeUnlock addr =>
    obtain rfl := Option.some.inj hs
    apply Inv.ret
    apply h.release (by rw [hpc]; rfl) rfl
    rintro w' ⟨⟩
  all_goals cases hs

/-- An unparked thread no longer waits. -/
theorem unpark (h : Inv s) {w : Wait} {reg : Option WaiterId} (ht : s.pc t = .parked w reg)
    (ret : Option Errno) : Inv (s.setPc t (.woken w reg ret)) := by
  apply h.setPc
  · rw [ht]; rfl
  · rintro w' ⟨⟩

/-- **Every step keeps the invariant.** -/
theorem step (h : Inv s) {l : Label} (hs : Umtx.step s l = some s') : Inv s' := by
  cases l with
  | store t addr val =>
    unfold Umtx.step at hs
    dsimp only at hs
    split_ifs at hs
    obtain rfl := Option.some.inj hs
    exact h.store addr val
  | call t obj op val timed =>
    unfold Umtx.step at hs
    dsimp only at hs
    split_ifs at hs with ht
    obtain rfl := Option.some.inj hs
    exact h.callStep ht obj op val timed
  | run t => exact h.runStep hs
  | spurious t =>
    unfold Umtx.step at hs
    dsimp only at hs
    split at hs
    next w reg ht =>
      obtain rfl := Option.some.inj hs
      exact h.unpark ht none
    next => cases hs
  | timeout t =>
    unfold Umtx.step at hs
    dsimp only at hs
    split at hs
    next w reg ht =>
      split_ifs at hs
      obtain rfl := Option.some.inj hs
      exact h.unpark ht _
    next => cases hs

end Inv

theorem Reaches.inv {word : Addr → UInt32} {ls : List Label} {s : State} (h : Reaches word ls s) :
    Inv s :=
  Lts.Run.preserves (P := Inv) (fun _ _ _ hs hstep => hs.step hstep) h (inv_init word)

/-- **The futex never loses a wakeup.**  When a thread is parked on a word that is not what it
expects, some thread that stored to the word has not yet performed the broadcast of its `WAKE`. -/
theorem Reaches.exists_owes {word : Addr → UInt32} {ls : List Label} {s : State}
    (h : Reaches word ls s) {t : ℕ} {w : Wait} {reg : Option WaiterId}
    (hparked : s.pc t = .parked w reg) (hword : s.word w.addr ≠ w.val) :
    ∃ u, s.owes u w.addr = true := by
  refine (h.inv.covered t w ?_).resolve_left hword
  rw [hparked]
  rfl

/-- A thread parks on a word that holds `0`, and another one stores `1` to it. -/
def storedLabels : List Label :=
  [.call 0 0x1000 11 0 false, .run 0, .run 0, .run 0, .run 0, .store 1 0x1000 1]

theorem exists_owes_stored : ∃ s, Reaches (fun _ => 0) storedLabels s ∧
    s.pc 0 = .parked ⟨0x1000, 0, false⟩ (some 0) ∧ ∃ u, s.owes u 0x1000 = true := by
  obtain ⟨s, hs, hp⟩ := Lts.exists_run_of_exec
    (p := fun s : State => decide (s.pc 0 = .parked ⟨0x1000, 0, false⟩ (some 0) ∧ s.word 0x1000 = 1))
    (show (Lts.exec step (State.init fun _ => 0) storedLabels).any _ = true by decide)
  obtain ⟨hparked, hword⟩ := of_decide_eq_true hp
  refine ⟨s, hs, hparked, Reaches.exists_owes (w := ⟨0x1000, 0, false⟩) hs hparked ?_⟩
  rw [hword]
  decide

end OrbisCompat.Umtx
