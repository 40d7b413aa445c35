import Mathlib.Data.List.Basic
import OrbisCompat.ThreadStack.Basic

/-!
# A thread is created as without the interposer

Whatever fails, `pthread_create` calls `scePthreadCreate` once and returns what it returns, and the thread calls
its start routine once (`Transparent`).  The payload of the trampoline has two owners, and one of them frees it:
the thread, or the creator when there is no thread.

A copy of the attributes takes over the detach state and the guard size; the others have the platform's defaults
in it, so it differs from the caller's in more than the stack size unless these have them too
(`sameButStack_iff`).
-/

namespace OrbisCompat.ThreadStack

/-- A call of `scePthreadCreate`. -/
def Event.creation : Event → Option (Passed × Entry × ℤ)
  | .create attr entry rc => some (attr, entry, rc)
  | _ => none

/-- A call of a start routine. -/
def Event.started : Event → Option (ℕ × ℕ)
  | .run fn arg => some (fn, arg)
  | _ => none

/-- What a call has done, and the thread it has started, when it wanted a stack of the size `want`. -/
structure Transparent (want floor start arg : ℕ) (a : Answers) (o : Outcome) (thread : List Event) :
    Prop where
  /-- `scePthreadCreate` is called once, and its result returned. -/
  created : o.events.filterMap Event.creation = [(o.passed, o.entry, o.ret)]
  /-- What is not the caller's own is a copy with the floor for its stack size, which had to be raised. -/
  passed : ∀ c, o.passed = .copy c →
    c.stacksize = floor ∧ floor ≠ 0 ∧ want < floor ∧ a.init = 0 ∧ a.setstacksize = 0
  /-- A copy that was initialised is destroyed once. -/
  destroyed : o.events.count (.attrDestroy .raised) = o.events.count (.attrInit .raised 0) ∧
    o.events.count (.attrInit .raised 0) ≤ 1
  /-- The thread calls the start routine once. -/
  started : o.ret = 0 → thread.filterMap Event.started = [(start, arg)]
  /-- The payload is freed once, by the thread or by the creator, and nothing else is. -/
  freed : ∀ p, (o.events ++ if o.ret = 0 then thread else []).count (.free p) =
    if a.malloc = some p then 1 else 0

variable {fresh : Attr} {cache stack stack' start arg : ℕ} {attr : Option Attr} {a : Answers}
  {a' : SelfAnswers}

/-! ### The parts of a call -/

/-- The events of `stackOfSelf` are about its own attributes. -/
structure OwnAttr (es : List Event) : Prop where
  creation : es.filterMap Event.creation = []
  started : es.filterMap Event.started = []
  init : es.count (.attrInit .raised 0) = 0
  destroy : es.count (.attrDestroy .raised) = 0
  free : ∀ p, es.count (.free p) = 0

theorem ownAttr_nil : OwnAttr [] := ⟨rfl, rfl, rfl, rfl, fun _ => rfl⟩

theorem OwnAttr.append {es es' : List Event} (h : OwnAttr es) (h' : OwnAttr es') : OwnAttr (es ++ es') := by
  refine ⟨?_, ?_, ?_, ?_, fun p => ?_⟩
  · rw [List.filterMap_append, h.creation, h'.creation, List.append_nil]
  · rw [List.filterMap_append, h.started, h'.started, List.append_nil]
  · rw [List.count_append, h.init, h'.init]
  · rw [List.count_append, h.destroy, h'.destroy]
  · rw [List.count_append, h.free, h'.free]

/-- An initialisation that fails leaves nothing to destroy. -/
theorem ownAttr_failed {rc : ℤ} (h : rc ≠ 0) : OwnAttr [.attrInit .raised rc] :=
  ⟨rfl, rfl, by simp [h], rfl, fun _ => rfl⟩

theorem ownAttr_stackOfSelf (stack : ℕ) (a : SelfAnswers) : OwnAttr (stackOfSelf stack a).events := by
  unfold stackOfSelf
  split_ifs <;> exact ⟨rfl, rfl, rfl, rfl, fun _ => rfl⟩

theorem ownAttr_resolveFloor (cache stack : ℕ) (a : SelfAnswers) :
    OwnAttr (resolveFloor cache stack a).events := by
  unfold resolveFloor
  split_ifs
  · exact ownAttr_nil
  · exact ownAttr_stackOfSelf stack a

/-- `createThread` calls `scePthreadCreate` once, and frees the payload when there is no thread. -/
theorem createThread_eq (passed : Passed) (entry : Entry) (sa : Option ℕ) (rc : ℤ) :
    createThread passed entry sa rc =
      .create passed entry rc :: if rc ≠ 0 then (sa.map Event.free).toList else [] := by
  unfold createThread
  split_ifs
  · cases sa <;> rfl
  · rfl

theorem createThread_creation (passed : Passed) (entry : Entry) (sa : Option ℕ) (rc : ℤ) :
    (createThread passed entry sa rc).filterMap Event.creation = [(passed, entry, rc)] := by
  rw [createThread_eq]
  split_ifs
  · cases sa <;> rfl
  · rfl

/-- It counts for nothing else. -/
theorem createThread_count (passed : Passed) (entry : Entry) (sa : Option ℕ) (rc : ℤ) {e : Event}
    (hcreate : e ≠ .create passed entry rc) (hfree : ∀ p, e ≠ .free p) :
    (createThread passed entry sa rc).count e = 0 := by
  rw [createThread_eq, List.count_cons_of_ne hcreate.symm]
  split_ifs
  · cases sa with
    | none => rfl
    | some p => exact List.count_eq_zero_of_not_mem (by simpa using hfree p)
  · rfl

theorem createThread_free (passed : Passed) (entry : Entry) (sa : Option ℕ) (rc : ℤ) (p : ℕ) :
    (createThread passed entry sa rc).count (.free p) = if rc ≠ 0 ∧ sa = some p then 1 else 0 := by
  rw [createThread_eq]
  by_cases hrc : rc ≠ 0
  · cases sa with
    | none => simp
    | some q => by_cases hq : q = p <;> simp [hq, hrc]
  · rw [if_neg hrc, if_neg fun hand => hrc hand.1]
    rfl

/-- The thread calls the start routine that the caller gave, with its argument. -/
theorem threadRun_started (malloc : Option ℕ) (start arg stack : ℕ) (a : SelfAnswers) :
    (threadRun stack a (entryOf malloc start arg)).filterMap Event.started = [(start, arg)] := by
  cases malloc with
  | none => rfl
  | some p =>
    have hself := ownAttr_stackOfSelf stack a
    show (threadTrampoline p ⟨start, arg⟩ stack a).filterMap Event.started = _
    unfold threadTrampoline
    dsimp only
    rw [List.filterMap_append, List.filterMap_append, hself.started]
    split_ifs <;> rfl

/-- It frees the payload that it is given. -/
theorem threadRun_free (malloc : Option ℕ) (start arg stack : ℕ) (a : SelfAnswers) (p : ℕ) :
    (threadRun stack a (entryOf malloc start arg)).count (.free p) =
      if malloc = some p then 1 else 0 := by
  cases malloc with
  | none => simp [entryOf, threadRun]
  | some q =>
    have hself := ownAttr_stackOfSelf stack a
    show (threadTrampoline q ⟨start, arg⟩ stack a).count (.free p) = _
    unfold threadTrampoline
    dsimp only
    rw [List.count_append, List.count_append, hself.free]
    by_cases hq : q = p <;> split_ifs <;> simp_all

/-! ### The call -/

/-- The exits of `pthread_create`: without a copy, with the caller's attributes; or with one, which is
destroyed after the creation. -/
theorem pthreadCreate_cases (fresh : Attr) (cache stack : ℕ) (attr : Option Attr) (start arg : ℕ)
    (a : Answers) :
    (∃ es, OwnAttr es ∧ pthreadCreate fresh cache stack attr start arg a =
      ⟨a.create, (resolveFloor cache stack a.self).cache, .caller, entryOf a.malloc start arg,
        .malloc a.malloc :: es ++ createThread .caller (entryOf a.malloc start arg) a.malloc a.create⟩) ∨
    (∃ es passed, OwnAttr es ∧ (resolveFloor cache stack a.self).value ≠ 0 ∧
      wanted attr a < (resolveFloor cache stack a.self).value ∧ a.init = 0 ∧
      passed = (if a.setstacksize = 0 then
        .copy { carried fresh attr a with stacksize := (resolveFloor cache stack a.self).value }
        else .caller) ∧
      pthreadCreate fresh cache stack attr start arg a =
        ⟨a.create, (resolveFloor cache stack a.self).cache, passed, entryOf a.malloc start arg,
          .malloc a.malloc :: es ++ [.attrInit .raised 0] ++
            createThread passed (entryOf a.malloc start arg) a.malloc a.create ++
            [.attrDestroy .raised]⟩) := by
  have hown := ownAttr_resolveFloor cache stack a.self
  unfold pthreadCreate
  dsimp only
  by_cases hzero : (resolveFloor cache stack a.self).value = 0
  · rw [if_pos hzero]
    exact Or.inl ⟨_, hown, rfl⟩
  rw [if_neg hzero]
  by_cases hwant : wanted attr a ≥ (resolveFloor cache stack a.self).value
  · rw [if_pos hwant]
    exact Or.inl ⟨_, hown, rfl⟩
  rw [if_neg hwant]
  by_cases hinit : a.init = 0
  · rw [if_neg (not_not.mpr hinit), hinit]
    exact Or.inr ⟨_, _, hown, hzero, Nat.lt_of_not_le hwant, rfl, rfl, rfl⟩
  · rw [if_pos hinit]
    refine Or.inl ⟨_, hown.append (ownAttr_failed hinit), ?_⟩
    rw [← List.cons_append]

/-- **A broken interposer behaves like an absent one.**  Whatever of `malloc`, the attribute calls and
`scePthreadCreate` fails, whatever the floor, for any attributes of the caller, with the size that they are read to
have: none for `NULL` and for attributes that cannot be read. -/
theorem transparent_wanted (fresh : Attr) (cache stack : ℕ) (attr : Option Attr) (start arg : ℕ) (a : Answers)
    (stack' : ℕ) (a' : SelfAnswers) :
    Transparent (wanted attr a) (resolveFloor cache stack a.self).value start arg a
      (pthreadCreate fresh cache stack attr start arg a)
      (threadRun stack' a' (pthreadCreate fresh cache stack attr start arg a).entry) := by
  have hstart := threadRun_started a.malloc start arg stack' a'
  have hfree := threadRun_free a.malloc start arg stack' a'
  rcases pthreadCreate_cases fresh cache stack attr start arg a with
    ⟨es, hown, heq⟩ | ⟨es, passed, hown, hzero, hwant, hinit, hpassed, heq⟩
  · rw [heq]
    refine ⟨?_, fun c hc => Passed.noConfusion hc, ?_, fun _ => hstart, fun p => ?_⟩ <;> dsimp only
    · rw [List.filterMap_append, List.filterMap_cons_none rfl, hown.creation, createThread_creation]
      rfl
    · simp [hown.init, hown.destroy, createThread_count]
    · rw [List.count_append, List.count_append, createThread_free]
      by_cases hrc : a.create = 0 <;> simp [hrc, hown.free, hfree]
  · rw [heq]
    refine ⟨?_, fun c hc => ?_, ?_, fun _ => hstart, fun p => ?_⟩ <;> dsimp only at *
    · rw [List.filterMap_append, List.filterMap_append, List.filterMap_append,
        List.filterMap_cons_none rfl, hown.creation, createThread_creation]
      rfl
    · rw [hpassed] at hc
      split_ifs at hc with hset
      cases hc
      exact ⟨rfl, hzero, hwant, hinit, hset⟩
    · simp [hown.init, hown.destroy, createThread_count]
    · by_cases hrc : a.create = 0 <;>
        simp [List.count_append, createThread_free, hrc, hown.free, hfree]

/-- What `pthread_attr_init` may store. -/
def someFresh : Attr := ⟨65536, 0, 16384, 1, 700, 4, 2, 0⟩

/-- With a floor of 2 MiB, attributes of 8 MiB that cannot be read are replaced by a copy with 2 MiB. -/
theorem not_transparent_unread :
    let a : Answers := { malloc := some 0x2000, getstacksize := 22 }
    let o := pthreadCreate someFresh 2097152 0 (some { someFresh with stacksize := 8388608 }) 0x1000 7 a
    o.passed = .copy { someFresh with stacksize := 2097152 } ∧
      ¬ Transparent 8388608 2097152 0x1000 7 a o (threadRun 2097152 {} o.entry) := by
  refine ⟨by decide, fun h => ?_⟩
  exact absurd (h.passed { someFresh with stacksize := 2097152 } (by decide)).2.2.1 (by decide)

/-! ### The other attributes -/

/-- The same attributes but for the stack size. -/
def Attr.SameButStack (x y : Attr) : Prop := { x with stacksize := y.stacksize } = y

instance (x y : Attr) : Decidable (x.SameButStack y) := inferInstanceAs (Decidable (_ = _))

/-- Every call about attributes succeeds. -/
structure Answers.AttrCallsSucceed (a : Answers) : Prop where
  getstacksize : a.getstacksize = 0
  init : a.init = 0
  getdetachstate : a.getdetachstate = 0
  setdetachstate : a.setdetachstate = 0
  getguardsize : a.getguardsize = 0
  setguardsize : a.setguardsize = 0
  setstacksize : a.setstacksize = 0

/-- What is not carried across is what `pthread_attr_init` stores. -/
structure Attr.Plain (fresh x : Attr) : Prop where
  schedpolicy : x.schedpolicy = fresh.schedpolicy
  priority : x.priority = fresh.priority
  inheritsched : x.inheritsched = fresh.inheritsched
  scope : x.scope = fresh.scope
  stackaddr : x.stackaddr = fresh.stackaddr

/-- Raising a stack changes nothing else: the attributes that are handed over are the caller's but for the stack
size, and so are they beside those of a caller that chose a size from the floor on. -/
structure RaisesOnlyStack (fresh : Attr) (cache stack start arg : ℕ) (a : Answers) (x : Attr) : Prop where
  own : ∃ c, (pthreadCreate fresh cache stack (some x) start arg a).passed.attr (some x) = some c ∧
    c.SameButStack x
  other : ∀ y, x.SameButStack y → (resolveFloor cache stack a.self).value ≤ y.stacksize →
    ∃ c d, (pthreadCreate fresh cache stack (some x) start arg a).passed.attr (some x) = some c ∧
      (pthreadCreate fresh cache stack (some y) start arg a).passed.attr (some y) = some d ∧
      c.SameButStack d

variable {x y : Attr}

/-- A stack below the floor is raised in a copy. -/
theorem passed_of_lt (fresh : Attr) (start arg : ℕ) (hok : a.AttrCallsSucceed)
    (hx : x.stacksize < (resolveFloor cache stack a.self).value) :
    (pthreadCreate fresh cache stack (some x) start arg a).passed =
      .copy { fresh with
        detachstate := x.detachstate
        guardsize := x.guardsize
        stacksize := (resolveFloor cache stack a.self).value } := by
  have hwant : wanted (some x) a = x.stacksize := if_neg (not_not.mpr hok.getstacksize)
  have hcarried : carried fresh (some x) a =
      { fresh with detachstate := x.detachstate, guardsize := x.guardsize } := by
    unfold carried
    dsimp only
    rw [if_pos ⟨hok.getguardsize, hok.setguardsize⟩, if_pos ⟨hok.getdetachstate, hok.setdetachstate⟩]
  unfold pthreadCreate
  dsimp only
  rw [if_neg (Nat.ne_of_gt (Nat.zero_lt_of_lt hx)), hwant, if_neg (Nat.not_le_of_lt hx),
    if_neg (not_not.mpr hok.init), if_pos hok.setstacksize, hcarried]

/-- One from the floor on is left alone. -/
theorem passed_of_le (hok : a.AttrCallsSucceed) (hy : (resolveFloor cache stack a.self).value ≤ y.stacksize) :
    (pthreadCreate fresh cache stack (some y) start arg a).passed = .caller := by
  have hwant : wanted (some y) a = y.stacksize := if_neg (not_not.mpr hok.getstacksize)
  unfold pthreadCreate
  dsimp only
  by_cases hzero : (resolveFloor cache stack a.self).value = 0
  · rw [if_pos hzero]
  · rw [if_neg hzero, hwant, if_pos hy]

/-- The copy agrees with attributes but for the stack size when what it does not take over does. -/
theorem copy_sameButStack_iff (fresh x y : Attr) (floor : ℕ) (hxy : x.SameButStack y) :
    Attr.SameButStack { fresh with
      detachstate := x.detachstate
      guardsize := x.guardsize
      stacksize := floor } y ↔ Attr.Plain fresh x := by
  unfold Attr.SameButStack at *
  rw [← hxy]
  constructor
  · intro h
    injection h with _ _ _ hpolicy hpriority hinherit hscope haddr
    exact ⟨hpolicy.symm, hpriority.symm, hinherit.symm, hscope.symm, haddr.symm⟩
  · rintro ⟨hpolicy, hpriority, hinherit, hscope, haddr⟩
    rw [hpolicy, hpriority, hinherit, hscope, haddr]

/-- **Raising a stack.**  It changes nothing else exactly when the attributes that are not carried across have
the values that `pthread_attr_init` stores. -/
theorem raisesOnlyStack_iff (hok : a.AttrCallsSucceed)
    (hx : x.stacksize < (resolveFloor cache stack a.self).value) :
    RaisesOnlyStack fresh cache stack start arg a x ↔ Attr.Plain fresh x := by
  have hpassed := passed_of_lt fresh start arg hok hx
  constructor
  · rintro ⟨⟨c, hc, hsame⟩, -⟩
    rw [hpassed] at hc
    obtain rfl := Option.some.inj hc
    exact (copy_sameButStack_iff fresh x x _ rfl).mp hsame
  · intro hplain
    refine ⟨⟨_, by rw [hpassed]; rfl, (copy_sameButStack_iff fresh x x _ rfl).mpr hplain⟩, ?_⟩
    intro y hxy hy
    refine ⟨_, y, by rw [hpassed]; rfl, ?_, (copy_sameButStack_iff fresh x y _ hxy).mpr hplain⟩
    rw [passed_of_le hok hy]
    rfl

/-- A detached thread with the platform's defaults otherwise. -/
theorem raisesOnlyStack_iff_detached :
    RaisesOnlyStack someFresh 2097152 0 0x1000 7 { malloc := none } { someFresh with detachstate := 1 } :=
  (raisesOnlyStack_iff ⟨rfl, rfl, rfl, rfl, rfl, rfl, rfl⟩ (by decide)).mpr ⟨rfl, rfl, rfl, rfl, rfl⟩

/-- One with a priority of its own loses it. -/
theorem not_raisesOnlyStack_priority :
    let a : Answers := { malloc := none }
    (pthreadCreate someFresh 2097152 0 (some { someFresh with priority := 256 }) 0x1000 7 a).passed =
        .copy { someFresh with stacksize := 2097152 } ∧
      ¬ RaisesOnlyStack someFresh 2097152 0 0x1000 7 a { someFresh with priority := 256 } := by
  refine ⟨by decide, fun h => ?_⟩
  obtain ⟨c, hc, hsame⟩ := h.own
  obtain rfl : ({ someFresh with stacksize := 2097152 } : Attr) = c := Option.some.inj hc
  exact absurd hsame (by decide)

end OrbisCompat.ThreadStack
