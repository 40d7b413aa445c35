import Mathlib.Data.List.MinMax
import OrbisCompat.ThreadAtexit.Equiv.Stages

/-!
# The exit of a thread

A thread that registers, exits and registers on from its destructors always gets through its rounds
without touching a node that is not allocated (`runThread_stage`).

* `lastInFirstOut_iff`: its destructors run in reverse order of registration exactly when at every depth
  that is reached only the oldest registration has a destructor that registers.
* `delivered_iff`: every registration is run and freed exactly when none is nested deeper than there
  are rounds.
-/

namespace OrbisCompat.ThreadAtexit

open NodeHeap

variable {M : Malloc} {t : Thread} {left : List (ℕ × Node)}

/-- **A thread.** What it leaves behind is the level of the nesting after the last round. -/
theorem runThread_stage (M : Malloc) (rounds : ℕ) (life : List Call) :
    ∃ t left, runThread M rounds life = some t ∧ Stage t left [] [] ∧
      (left.map fun x => x.2.dtor) = level life rounds ∧
      (LastInFirstOut t.log ↔
        ∀ k < rounds, ∀ d ∈ (level life k).dropLast, registers d.calls = []) := by
  obtain ⟨pushed, hcalled, hpushed, horder⟩ := runCalls_stage (M := M) life Stage.init
  rw [List.append_nil] at hcalled
  obtain ⟨t, left, hexit, hleft, hmap, horder'⟩ := threadExit_stage (M := M) rounds hcalled
  refine ⟨t, left, hexit, hleft, ?_, ?_⟩
  · rw [hmap, hpushed]
    rfl
  · rw [horder', horder, hpushed]
    exact and_iff_right lastInFirstOut_nil

/-- **Order.** The destructors run last in, first out exactly when at every depth that a round reaches
only the destructor of the oldest registration registers. -/
theorem lastInFirstOut_iff (M : Malloc) (rounds : ℕ) (life : List Call) :
    ∃ t, runThread M rounds life = some t ∧ (LastInFirstOut t.log ↔
      ∀ k < rounds, ∀ d ∈ (level life k).dropLast, registers d.calls = []) := by
  obtain ⟨t, left, hrun, -, -, horder⟩ := runThread_stage M rounds life
  exact ⟨t, hrun, horder⟩

/-- An allocator: the address after the highest one in use. -/
def bump : Malloc where
  addr t := (t.heap.map Prod.fst).foldr max 0 + 1
  addr_ne_zero _ := Nat.succ_ne_zero _
  addr_fresh _ hmem := Nat.not_succ_le_self _ (List.le_max_of_le' 0 hmem le_rfl)

/-- Two registrations; the destructor of the second makes a third. -/
def nested : List Call := [({}, .mk 1 10 []), ({}, .mk 2 20 [({}, .mk 3 30 [])])]

/-- The first registration runs ahead of the third. -/
theorem nested_not_lastInFirstOut : ∃ t,
    runThread bump pthreadDestructorIterations nested = some t ∧ ¬ LastInFirstOut t.log := by
  have hlog : (runThread bump pthreadDestructorIterations nested).map Thread.log = some
      [.free 2, .start 2 3 30, .free 0, .start 0 1 10, .free 1, .register 2 3 30, .start 1 2 20,
        .register 1 2 20, .register 0 1 10] := rfl
  obtain ⟨t, hrun, ht⟩ := Option.map_eq_some_iff.mp hlog
  refine ⟨t, hrun, fun h => ?_⟩
  have hhead := h [.free 2, .start 2 3 30, .free 0] 0 1 10 _ ht
  exact absurd hhead (by decide)

/-! ### Delivery -/

theorem mem_registrations {n func obj : ℕ} {log : List Event} :
    (n, func, obj) ∈ registrations log ↔ .register n func obj ∈ log := by
  unfold registrations
  rw [List.mem_filterMap]
  constructor
  · rintro ⟨e, he, heq⟩
    cases e with
    | register m func' obj' =>
      obtain ⟨rfl, rfl, rfl⟩ := Option.some.inj heq
      exact he
    | start m func' obj' => cases heq
    | free m => cases heq
  · exact fun h => ⟨_, h, rfl⟩

/-- The starts of one registration. -/
theorem filter_starts (n : ℕ) (log : List Event) : log.filter (Event.starts n) =
    ((starts log).filter fun e => e.1 == n).map fun e => .start e.1 e.2.1 e.2.2 := by
  induction log with
  | nil => rfl
  | cons e log ih =>
    cases e with
    | register m func obj => exact ih
    | free m => exact ih
    | start m func obj =>
      have hcons : starts (.start m func obj :: log) = (m, func, obj) :: starts log := rfl
      cases hm : m == n with
      | true => simp [hcons, Event.starts, hm, ih]
      | false => simp [hcons, Event.starts, hm, ih]

theorem count_free (n : ℕ) (log : List Event) : log.count (.free n) = (frees log).count n := by
  induction log with
  | nil => rfl
  | cons e log ih =>
    cases e with
    | register m func obj => rw [List.count_cons_of_ne Event.noConfusion]; exact ih
    | start m func obj => rw [List.count_cons_of_ne Event.noConfusion]; exact ih
    | free m =>
      have hcons : frees (.free m :: log) = m :: frees log := rfl
      rw [hcons, List.count_cons, List.count_cons, ih]
      simp

theorem filter_eq_singleton {l : List (ℕ × ℕ × ℕ)} (hl : (l.map Prod.fst).Nodup) {e : ℕ × ℕ × ℕ}
    (he : e ∈ l) : l.filter (fun x => x.1 == e.1) = [e] := by
  induction l with
  | nil => cases he
  | cons x l ih =>
    obtain ⟨hx, hl⟩ := List.nodup_cons.mp hl
    rcases List.mem_cons.mp he with rfl | he
    · rw [List.filter_cons, if_pos (beq_self_eq_true _), List.filter_eq_nil_iff.mpr]
      intro y hy heq
      exact hx (List.mem_map.mpr ⟨y, hy, beq_iff_eq.mp heq⟩)
    · rw [List.filter_cons_of_neg, ih hl he]
      intro heq
      exact hx (beq_iff_eq.mp heq ▸ List.mem_map_of_mem he)

/-- Between rounds everything registered has run exactly when the list is empty. -/
theorem Stage.delivered_iff_nil (h : Stage t left [] []) : Delivered t.log ↔ left = [] := by
  have hregs := h.registrations
  have hfrees := h.frees
  rw [List.append_nil] at hregs
  rw [List.map_nil, List.append_nil] at hfrees
  have hnd : ((starts t.log ++ left.map entry).map Prod.fst).Nodup :=
    (hregs.map Prod.fst).nodup_iff.mp h.nodup_registrations
  constructor
  · intro hdelivered
    cases left with
    | nil => rfl
    | cons x left =>
      -- the registration at the head of the list has not started
      have hx : entry x ∈ ThreadAtexit.registrations t.log :=
        hregs.mem_iff.mpr (List.mem_append_right _ List.mem_cons_self)
      have hstart := (hdelivered _ _ _ (mem_registrations.mp hx)).1
      rw [filter_starts] at hstart
      have hnone : ((starts t.log).filter fun e => e.1 == x.2.serial) = [] := by
        rw [List.filter_eq_nil_iff]
        intro y hy heq
        rw [List.map_append] at hnd
        refine List.disjoint_of_nodup_append hnd (List.mem_map_of_mem hy) ?_
        rw [beq_iff_eq.mp heq]
        exact List.mem_cons_self
      rw [hnone] at hstart
      cases hstart
  · rintro rfl n func obj hreg
    rw [List.map_nil, List.append_nil] at hregs hnd
    have hmem : (n, func, obj) ∈ starts t.log := hregs.mem_iff.mp (mem_registrations.mpr hreg)
    constructor
    · rw [filter_starts, filter_eq_singleton hnd hmem]
      rfl
    · rw [count_free]
      refine List.count_eq_one_of_mem (hfrees.nodup_iff.mp hnd) (hfrees.mem_iff.mp ?_)
      exact List.mem_map_of_mem hmem

/-- A call that fails leaves the list, and everything else of the thread, as it was. -/
theorem cxaThreadAtexitImpl_failed {c : Call} (h : (cxaThreadAtexitImpl M t c).2 = -1) :
    (cxaThreadAtexitImpl M t c).1 = t := by
  by_cases hc : c.1.ok = true
  · rw [cxaThreadAtexitImpl_of_ok hc] at h
    exact absurd (show (0 : ℤ) = -1 from h) (by decide)
  · rw [cxaThreadAtexitImpl_of_not_ok (by simpa using hc)]

/-- **Delivery.** A thread that exits runs every destructor it registered exactly once, on its object, and
frees its node, while failing calls change nothing, exactly when no registration is nested deeper than
`PTHREAD_DESTRUCTOR_ITERATIONS`. -/
theorem delivered_iff (M : Malloc) (life : List Call) :
    ∃ t, runThread M pthreadDestructorIterations life = some t ∧
      ((Delivered t.log ∧ ∀ t' c, (cxaThreadAtexitImpl M t' c).2 = -1 →
          (cxaThreadAtexitImpl M t' c).1 = t') ↔
        level life pthreadDestructorIterations = []) := by
  obtain ⟨t, left, hrun, hstage, hmap, -⟩ := runThread_stage M pthreadDestructorIterations life
  refine ⟨t, hrun, ?_⟩
  rw [and_iff_left fun t' c => cxaThreadAtexitImpl_failed, hstage.delivered_iff_nil, ← hmap,
    List.map_eq_nil_iff]

/-- A destructor that registers one that registers one, and so on. -/
def chain : ℕ → Dtor
  | 0 => .mk 0 0 []
  | n + 1 => .mk (n + 1) (n + 1) [({}, chain n)]

/-- Five registrations, each from the destructor of the one before: the last never runs. -/
theorem chain_not_delivered : ∃ t,
    runThread bump pthreadDestructorIterations [({}, chain 4)] = some t ∧ ¬ Delivered t.log := by
  have hlog : (runThread bump pthreadDestructorIterations [({}, chain 4)]).map Thread.log = some
      [.free 3, .register 4 0 0, .start 3 1 1, .free 2, .register 3 1 1, .start 2 2 2, .free 1,
        .register 2 2 2, .start 1 3 3, .free 0, .register 1 3 3, .start 0 4 4, .register 0 4 4] := rfl
  obtain ⟨t, hrun, ht⟩ := Option.map_eq_some_iff.mp hlog
  refine ⟨t, hrun, fun h => ?_⟩
  rw [ht] at h
  exact absurd (h 4 0 0 (by decide)).1 (by decide)

end OrbisCompat.ThreadAtexit
