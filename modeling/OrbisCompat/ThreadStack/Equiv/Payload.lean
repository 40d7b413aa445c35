import OrbisCompat.Lib.Handover
import OrbisCompat.Lib.Ledger
import OrbisCompat.ThreadStack.Payload
import Mathlib.Data.List.Perm.Subperm

/-!
# `src/orbis_thread.cpp`: the payload changes hands

* `Pc.holds`: the payload is its creator's until `scePthreadCreate` has returned 0, and the new thread's from there to its
  `free`; every `StartArg` on the heap is held by one thread (`Inv.held`);
* `Pc.Content`: what a holder has stored, or is going to read, is what the block holds;
* `Inv.runs`, `Inv.counts`: the start routines asked for and called, the threads that came up on the trampoline and those counted;
* `step_cases`: from a state with the invariant no step uses a block that is not there, and `Inv.step`;
* `payload_spec`: in every run of any number of threads.
-/

namespace OrbisCompat.ThreadStack.Payload

/-- The payload that a thread has to free or to hand on. -/
def Pc.holds : Pc → Option ℕ
  | storingFn p _ _ | storingArg p _ _ | creating _ _ (some p) | failed p | readingFn p | readingArg p _ | freeing p _ _ => some p
  | _ => none

/-- The start routine is still to be called. -/
def Pc.Pending : Pc → Prop
  | readingFn _ | readingArg _ _ | freeing _ _ _ | deciding _ _ | installing _ _ | reporting _ _ | starting _ _ => True
  | _ => False

/-- The trampoline has still to count the thread. -/
def Pc.Uncounted : Pc → Prop
  | readingFn _ | readingArg _ _ | freeing _ _ _ | deciding _ _ | installing _ _ => True
  | _ => False

/-- What is in the payload of the thread, and what the thread has been created for. -/
def Pc.Content (s : State) (t : ℕ) : Pc → Prop
  | storingFn p _ _ => s.heap p = some (.startArg none none)
  | storingArg p start _ => s.heap p = some (.startArg (some start) none)
  | creating start arg (some p) => s.heap p = some (.startArg (some start) (some arg))
  | readingFn p => ∃ fn arg, ⟨t, fn, arg⟩ ∈ s.asked ∧ s.heap p = some (.startArg (some fn) (some arg))
  | readingArg p fn => ∃ arg, ⟨t, fn, arg⟩ ∈ s.asked ∧ s.heap p = some (.startArg (some fn) (some arg))
  | freeing _ fn arg | deciding fn arg | installing fn arg | reporting fn arg | starting fn arg => ⟨t, fn, arg⟩ ∈ s.asked
  | _ => True

/-- The block is a payload. -/
def State.IsPayload (s : State) (p : ℕ) : Prop := ∃ fn arg, s.heap p = some (.startArg fn arg)

/-- `g_altOk + g_altFailed + g_altSkipped`. -/
def State.altTotal (s : State) : ℕ := Word64.add (Word64.add s.altOk s.altFailed) s.altSkipped

/-- **The invariant.** -/
structure Inv (s : State) : Prop where
  held : Handover.Held s.IsPayload fun t => (s.pc t).holds
  content : ∀ t, (s.pc t).Content s t
  runs : Ledger Start.thread (fun t => (s.pc t).Pending) s.asked s.ran
  counts : Ledger id (fun t => (s.pc t).Uncounted) s.hopped s.counted
  present : ∀ e ∈ s.asked, s.pc e.thread ≠ .absent
  hopped : ∀ u ∈ s.hopped, s.pc u ≠ .absent
  total : s.altTotal = s.counted.length % 2 ^ 64
  reports : s.reports = if s.altReported then 1 else 0
  sound : s.fault = false

/-! ### What a step does -/

/-- A thread's place, read by `f`. -/
theorem apply_setPc {α : Type*} (f : Pc → α) (s : State) (t u : ℕ) (pc : Pc) :
    f ((s.setPc t pc).pc u) = if u = t then f pc else f (s.pc u) := apply_ite f (u = t) pc (s.pc u)

/-- From one place to another with the same payload and the same things to do. -/
structure Move (pc pc' : Pc) : Prop where
  holds : pc'.holds = pc.holds
  pending : pc'.Pending ↔ pc.Pending
  uncounted : pc'.Uncounted ↔ pc.Uncounted
  present : pc' ≠ .absent

/-- The ways a step changes a state with the invariant. -/
inductive Step (s : State) : State → Prop
  | move (t : ℕ) (pc : Pc) : Move (s.pc t) pc → pc.Content s t → Step s (s.setPc t pc)
  | take (t p start arg : ℕ) :
      s.pc t = .allocating start arg → s.heap p = none →
      Step s ((s.setBlock p (some (.startArg none none))).setPc t (.storingFn p start arg))
  | store (t p : ℕ) (fn arg : Option ℕ) (pc : Pc) :
      (s.pc t).holds = some p → Move (s.pc t) pc → pc.Content (s.setBlock p (some (.startArg fn arg))) t →
      Step s ((s.setBlock p (some (.startArg fn arg))).setPc t pc)
  | drop (t p : ℕ) (pc : Pc) :
      (s.pc t).holds = some p → pc.holds = none → (pc.Pending ↔ (s.pc t).Pending) → (pc.Uncounted ↔ (s.pc t).Uncounted) →
      pc ≠ .absent → pc.Content s t → Step s ((s.setBlock p none).setPc t pc)
  | hop (t u start arg p : ℕ) :
      s.pc t = .creating start arg (some p) → s.pc u = .absent →
      Step s (({ s with asked := ⟨u, start, arg⟩ :: s.asked, hopped := u :: s.hopped }.setPc t .idle).setPc u (.readingFn p))
  | direct (t u start arg : ℕ) :
      s.pc t = .creating start arg none → s.pc u = .absent →
      Step s (({ s with asked := ⟨u, start, arg⟩ :: s.asked }.setPc t .idle).setPc u (.starting start arg))
  | count (t fn arg : ℕ) (pc : Pc) (ok failed skipped : ℕ) :
      (s.pc t).Uncounted → (s.pc t).holds = none → ⟨t, fn, arg⟩ ∈ s.asked → pc = .starting fn arg ∨ pc = .reporting fn arg →
      Word64.add (Word64.add ok failed) skipped = Word64.add s.altTotal 1 →
      Step s (({ s with altOk := ok, altFailed := failed, altSkipped := skipped }.count t).setPc t pc)
  | exchange (t fn arg : ℕ) :
      s.pc t = .reporting fn arg →
      Step s ({ s with altReported := true, reports := if s.altReported then s.reports else s.reports + 1 }.setPc t
        (.starting fn arg))
  | run (t fn arg : ℕ) :
      s.pc t = .starting fn arg → Step s ({ s with ran := ⟨t, fn, arg⟩ :: s.ran }.setPc t .idle)
  | other (p : ℕ) (b : Option Block) :
      s.heap p = none ∨ s.heap p = some .other → b = none ∨ b = some .other → Step s (s.setBlock p b)

variable {s s' : State}

theorem step_of_malloc {t start arg : ℕ} {p : Option ℕ} (hpc : s.pc t = .allocating start arg)
    (h : mallocStep s t start arg p = some s') : Step s s' := by
  cases p with
  | none =>
    obtain rfl := Option.some.inj h
    exact .move t _ (by rw [hpc]; exact ⟨rfl, Iff.rfl, Iff.rfl, by simp⟩) trivial
  | some p =>
    simp only [mallocStep] at h
    split_ifs at h with hfree
    exact Option.some.inj h ▸ .take t p start arg hpc hfree

theorem step_of_store {t : ℕ} (hi : Inv s) (h : storeStep s t (s.pc t) = some s') : Step s s' := by
  have hcontent := hi.content t
  generalize hpc : s.pc t = pc at h hcontent
  cases pc with
  | storingFn p start arg =>
    have hblock : s.heap p = some (.startArg none none) := hcontent
    simp only [storeStep, hblock] at h
    exact Option.some.inj h ▸ .store t p (some start) none (.storingArg p start arg) (by rw [hpc]; rfl)
      (by rw [hpc]; exact ⟨rfl, Iff.rfl, Iff.rfl, by simp⟩) (if_pos rfl)
  | storingArg p start arg =>
    have hblock : s.heap p = some (.startArg (some start) none) := hcontent
    simp only [storeStep, hblock] at h
    exact Option.some.inj h ▸ .store t p (some start) (some arg) (.creating start arg (some p)) (by rw [hpc]; rfl)
      (by rw [hpc]; exact ⟨rfl, Iff.rfl, Iff.rfl, by simp⟩) (if_pos rfl)
  | _ => cases h

theorem step_of_create {t start arg u : ℕ} {sa : Option ℕ} {rc : ℤ} (hpc : s.pc t = .creating start arg sa)
    (h : createStep s t start arg sa rc u = some s') : Step s s' := by
  unfold createStep at h
  cases sa with
  | some p =>
    split_ifs at h with hrc habsent
    · exact Option.some.inj h ▸ .move t (.failed p) (by rw [hpc]; exact ⟨rfl, Iff.rfl, Iff.rfl, by simp⟩) trivial
    · exact Option.some.inj h ▸ .hop t u start arg p hpc habsent
  | none =>
    split_ifs at h with hrc habsent
    · exact Option.some.inj h ▸ .move t .idle (by rw [hpc]; exact ⟨rfl, Iff.rfl, Iff.rfl, by simp⟩) trivial
    · exact Option.some.inj h ▸ .direct t u start arg hpc habsent

theorem step_of_load {t : ℕ} (hi : Inv s) (h : loadStep s t (s.pc t) = some s') : Step s s' := by
  have hcontent := hi.content t
  generalize hpc : s.pc t = pc at h hcontent
  cases pc with
  | readingFn p =>
    obtain ⟨fn, arg, hmem, hblock⟩ := hcontent
    simp only [loadStep, hblock] at h
    exact Option.some.inj h ▸ .move t (.readingArg p fn) (by rw [hpc]; exact ⟨rfl, Iff.rfl, Iff.rfl, by simp⟩)
      ⟨arg, hmem, hblock⟩
  | readingArg p fn =>
    obtain ⟨arg, hmem, hblock⟩ := hcontent
    simp only [loadStep, hblock] at h
    exact Option.some.inj h ▸ .move t (.freeing p fn arg) (by rw [hpc]; exact ⟨rfl, Iff.rfl, Iff.rfl, by simp⟩) hmem
  | _ => cases h

/-- The block of a holder is there. -/
theorem free_of_holds {t p : ℕ} (hi : Inv s) (h : (s.pc t).holds = some p) : s.free p = s.setBlock p none := by
  obtain ⟨fn, arg, hblock⟩ := hi.held.live_of_holds h
  simp only [State.free, hblock]

/-- **Inversion.** -/
theorem step_cases {l : Label} (hi : Inv s) (h : step s l = some s') : Step s s' := by
  cases l with
  | foreign t =>
    simp only [step] at h
    split_ifs at h with hpc
    exact Option.some.inj h ▸ .move t .idle (by rw [hpc]; exact ⟨rfl, Iff.rfl, Iff.rfl, by simp⟩) trivial
  | exit t =>
    simp only [step] at h
    split_ifs at h with hpc
    exact Option.some.inj h ▸ .move t .gone (by rw [hpc]; exact ⟨rfl, Iff.rfl, Iff.rfl, by simp⟩) trivial
  | call t start arg =>
    simp only [step] at h
    split_ifs at h with hpc
    exact Option.some.inj h ▸ .move t (.allocating start arg) (by rw [hpc]; exact ⟨rfl, Iff.rfl, Iff.rfl, by simp⟩) trivial
  | malloc t p =>
    simp only [step] at h
    split at h
    · next hpc => exact step_of_malloc hpc h
    · cases h
  | store t => exact step_of_store hi h
  | create t rc u =>
    simp only [step] at h
    split at h
    · next hpc => exact step_of_create hpc h
    · cases h
  | load t => exact step_of_load hi h
  | free t =>
    simp only [step] at h
    split at h
    · next p hpc =>
      have hholds : (s.pc t).holds = some p := by rw [hpc]; rfl
      rw [free_of_holds hi hholds] at h
      exact Option.some.inj h ▸ .drop t p .idle hholds rfl (by rw [hpc]; rfl) (by rw [hpc]; rfl) (by simp) trivial
    · next p fn arg hpc =>
      have hholds : (s.pc t).holds = some p := by rw [hpc]; rfl
      have hcontent : (Pc.freeing p fn arg).Content s t := hpc ▸ hi.content t
      rw [free_of_holds hi hholds] at h
      exact Option.some.inj h ▸
        .drop t p (.deciding fn arg) hholds rfl (by rw [hpc]; rfl) (by rw [hpc]; rfl) (by simp) hcontent
    · cases h
  | stack t rc size =>
    simp only [step] at h
    split at h
    · next fn arg hpc =>
      have hcontent : (Pc.deciding fn arg).Content s t := hpc ▸ hi.content t
      split_ifs at h
      · exact Option.some.inj h ▸
          .move t (.installing fn arg) (by rw [hpc]; exact ⟨rfl, Iff.rfl, Iff.rfl, by simp⟩) hcontent
      · refine Option.some.inj h ▸ .count t fn arg (.starting fn arg) _ _ _ (by rw [hpc]; trivial) (by rw [hpc]; rfl) hcontent
          (Or.inl rfl) ?_
        unfold State.altTotal Word64.add
        omega
    · cases h
  | altStack t rc =>
    simp only [step] at h
    split at h
    · next fn arg hpc =>
      have hcontent : (Pc.installing fn arg).Content s t := hpc ▸ hi.content t
      split_ifs at h
      · refine Option.some.inj h ▸ .count t fn arg (.reporting fn arg) _ _ _ (by rw [hpc]; trivial) (by rw [hpc]; rfl) hcontent
          (Or.inr rfl) ?_
        unfold State.altTotal Word64.add
        omega
      · refine Option.some.inj h ▸ .count t fn arg (.reporting fn arg) _ _ _ (by rw [hpc]; trivial) (by rw [hpc]; rfl) hcontent
          (Or.inr rfl) ?_
        unfold State.altTotal Word64.add
        omega
    · cases h
  | exchange t =>
    simp only [step] at h
    split at h
    · next fn arg hpc => exact Option.some.inj h ▸ .exchange t fn arg hpc
    · cases h
  | run t =>
    simp only [step] at h
    split at h
    · next fn arg hpc => exact Option.some.inj h ▸ .run t fn arg hpc
    · cases h
  | otherMalloc p =>
    simp only [step] at h
    split_ifs at h with hfree
    exact Option.some.inj h ▸ .other p _ (Or.inl hfree) (Or.inr rfl)
  | otherFree p =>
    simp only [step] at h
    split_ifs at h with hother
    exact Option.some.inj h ▸ .other p _ (Or.inr hother) (Or.inl rfl)

/-! ### The steps keep the invariant -/

/-- A thread that goes on with the same value of `f`. -/
theorem setPc_eq {α : Type*} (f : Pc → α) {t : ℕ} {pc : Pc} (h : f pc = f (s.pc t)) (u : ℕ) :
    f ((s.setPc t pc).pc u) = f (s.pc u) := by
  rw [apply_setPc f]
  split_ifs with hu
  · rw [h, hu]
  · rfl

theorem setPc_iff (f : Pc → Prop) {t : ℕ} {pc : Pc} (h : f pc ↔ f (s.pc t)) (u : ℕ) :
    f ((s.setPc t pc).pc u) ↔ f (s.pc u) := Iff.of_eq (setPc_eq f (propext h) u)

theorem setPc_present {t u : ℕ} {pc : Pc} (h : pc ≠ .absent) (hu : s.pc u ≠ .absent) : (s.setPc t pc).pc u ≠ .absent := by
  rw [State.setPc_pc]
  split_ifs
  · exact h
  · exact hu

/-- What a thread has is there while its payload is not touched. -/
theorem Pc.Content.mono {pc : Pc} {t : ℕ} (h : pc.Content s t) (hheap : ∀ p, pc.holds = some p → s'.heap p = s.heap p)
    (hasked : ∀ e ∈ s.asked, e ∈ s'.asked) : pc.Content s' t := by
  cases pc with
  | storingFn p start arg => exact (hheap p rfl).trans h
  | storingArg p start arg => exact (hheap p rfl).trans h
  | creating start arg sa =>
    cases sa with
    | none => trivial
    | some p => exact (hheap p rfl).trans h
  | readingFn p =>
    obtain ⟨fn, arg, hmem, hblock⟩ := h
    exact ⟨fn, arg, hasked _ hmem, (hheap p rfl).trans hblock⟩
  | readingArg p fn =>
    obtain ⟨arg, hmem, hblock⟩ := h
    exact ⟨arg, hasked _ hmem, (hheap p rfl).trans hblock⟩
  | freeing p fn arg => exact hasked _ h
  | deciding fn arg => exact hasked _ h
  | installing fn arg => exact hasked _ h
  | reporting fn arg => exact hasked _ h
  | starting fn arg => exact hasked _ h
  | _ => trivial

/-- The contents after one thread has gone on. -/
theorem content_setPc {t : ℕ} {pc : Pc} (hpc : s'.pc = (s.setPc t pc).pc) (hnew : pc.Content s' t)
    (hold : ∀ u, u ≠ t → (s.pc u).Content s' u) (u : ℕ) : (s'.pc u).Content s' u := by
  rw [hpc, State.setPc_pc]
  split_ifs with hu
  · exact hu ▸ hnew
  · exact hold u hu

/-- The payloads of the other threads are not the one that a thread holds. -/
theorem Inv.other_block (hi : Inv s) {t u p : ℕ} (ht : (s.pc t).holds = some p) (hu : u ≠ t) {q : ℕ}
    (hq : (s.pc u).holds = some q) : q ≠ p := by
  rintro rfl
  exact hu (hi.held.unique hq ht)

theorem Inv.move (hi : Inv s) {t : ℕ} {pc : Pc} (h : Move (s.pc t) pc) (hcontent : pc.Content s t) : Inv (s.setPc t pc) where
  held := hi.held.congr (fun _ => Iff.rfl) (setPc_eq Pc.holds h.holds)
  content := content_setPc rfl (hcontent.mono (fun _ _ => rfl) fun _ he => he)
    fun u _ => (hi.content u).mono (fun _ _ => rfl) fun _ he => he
  runs := hi.runs.congr (setPc_iff Pc.Pending h.pending)
  counts := hi.counts.congr (setPc_iff Pc.Uncounted h.uncounted)
  present e he := setPc_present h.present (hi.present e he)
  hopped u hu := setPc_present h.present (hi.hopped u hu)
  total := hi.total
  reports := hi.reports
  sound := hi.sound

theorem Inv.take (hi : Inv s) {t p start arg : ℕ} (hpc : s.pc t = .allocating start arg) (hfree : s.heap p = none) :
    Inv ((s.setBlock p (some (.startArg none none))).setPc t (.storingFn p start arg)) where
  held := by
    have hfresh : ¬ s.IsPayload p := by
      rintro ⟨fn, arg, hblock⟩
      rw [hfree] at hblock
      cases hblock
    refine hi.held.take hfresh (t := t) (by rw [hpc]; rfl) (fun q => ?_) (apply_setPc Pc.holds s t · (.storingFn p start arg))
    show (∃ fn arg, (if q = p then _ else _) = _) ↔ _
    split_ifs with hq
    · simp [hq]
    · simp [hq, State.IsPayload]
  content := by
    refine content_setPc (s := s) rfl (if_pos rfl) fun u hu => (hi.content u).mono (fun q hq => if_neg ?_) fun _ he => he
    rintro rfl
    obtain ⟨fn, arg, hblock⟩ := hi.held.live_of_holds hq
    rw [hfree] at hblock
    cases hblock
  runs := hi.runs.congr (setPc_iff (s := s) Pc.Pending (by rw [hpc]; rfl))
  counts := hi.counts.congr (setPc_iff (s := s) Pc.Uncounted (by rw [hpc]; rfl))
  present e he := setPc_present (s := s) (by simp) (hi.present e he)
  hopped u hu := setPc_present (s := s) (by simp) (hi.hopped u hu)
  total := hi.total
  reports := hi.reports
  sound := hi.sound

theorem Inv.store (hi : Inv s) {t p : ℕ} {fn arg : Option ℕ} {pc : Pc} (ht : (s.pc t).holds = some p)
    (h : Move (s.pc t) pc) (hcontent : pc.Content (s.setBlock p (some (.startArg fn arg))) t) :
    Inv ((s.setBlock p (some (.startArg fn arg))).setPc t pc) where
  held := by
    refine hi.held.congr (fun q => ?_) (setPc_eq Pc.holds h.holds)
    show (∃ fn' arg', (if q = p then _ else _) = _) ↔ _
    split_ifs with hq
    · exact iff_of_true ⟨fn, arg, rfl⟩ (hq ▸ hi.held.live_of_holds ht)
    · rfl
  content := by
    refine content_setPc (s := s) rfl (hcontent.mono (fun _ _ => rfl) fun _ he => he) fun u hu => ?_
    exact (hi.content u).mono (fun q hq => if_neg (hi.other_block ht hu hq)) fun _ he => he
  runs := hi.runs.congr (setPc_iff Pc.Pending h.pending)
  counts := hi.counts.congr (setPc_iff Pc.Uncounted h.uncounted)
  present e he := setPc_present (s := s) h.present (hi.present e he)
  hopped u hu := setPc_present (s := s) h.present (hi.hopped u hu)
  total := hi.total
  reports := hi.reports
  sound := hi.sound

theorem Inv.drop (hi : Inv s) {t p : ℕ} {pc : Pc} (ht : (s.pc t).holds = some p) (hholds : pc.holds = none)
    (hpending : pc.Pending ↔ (s.pc t).Pending) (huncounted : pc.Uncounted ↔ (s.pc t).Uncounted) (hpresent : pc ≠ .absent)
    (hcontent : pc.Content s t) : Inv ((s.setBlock p none).setPc t pc) where
  held := by
    refine hi.held.drop ht (fun q => ?_) fun u => ?_
    · show (∃ fn arg, (if q = p then _ else _) = _) ↔ _
      split_ifs with hq
      · simp [hq]
      · simp [hq, State.IsPayload]
    · rw [← hholds]
      exact apply_setPc Pc.holds s t u pc
  content := by
    refine content_setPc (s := s) rfl (hcontent.mono (fun q hq => ?_) fun _ he => he) fun u hu => ?_
    · rw [hholds] at hq
      cases hq
    · exact (hi.content u).mono (fun q hq => if_neg (hi.other_block ht hu hq)) fun _ he => he
  runs := hi.runs.congr (setPc_iff Pc.Pending hpending)
  counts := hi.counts.congr (setPc_iff Pc.Uncounted huncounted)
  present e he := setPc_present (s := s) hpresent (hi.present e he)
  hopped u hu := setPc_present (s := s) hpresent (hi.hopped u hu)
  total := hi.total
  reports := hi.reports
  sound := hi.sound

/-- Where the threads are after `scePthreadCreate` has returned 0. -/
theorem create_pc {α : Type*} (f : Pc → α) (s : State) (t u v : ℕ) (pc : Pc) :
    f (((s.setPc t .idle).setPc u pc).pc v) = if v = u then f pc else if v = t then f .idle else f (s.pc v) := by
  rw [apply_setPc f, apply_setPc f]

/-- What the two threads have not had. -/
theorem create_iff (f : Pc → Prop) {t : ℕ} (u : ℕ) {pc : Pc} (hnew : f pc) (hidle : ¬ f .idle) (ht : ¬ f (s.pc t)) (v : ℕ) :
    f (((s.setPc t .idle).setPc u pc).pc v) ↔ v = u ∨ f (s.pc v) := by
  rw [create_pc f]
  split_ifs with hvu hvt
  · exact iff_of_true hnew (Or.inl hvu)
  · exact iff_of_false hidle fun h => h.elim hvu (hvt ▸ ht)
  · exact (or_iff_right hvu).symm

/-- What does not change for the two threads. -/
theorem create_eq {α : Type*} (f : Pc → α) {t u : ℕ} {pc : Pc} (hu : f pc = f (s.pc u)) (ht : f .idle = f (s.pc t)) (v : ℕ) :
    f (((s.setPc t .idle).setPc u pc).pc v) = f (s.pc v) := by
  rw [create_pc f]
  split_ifs with hvu hvt
  · rw [hvu, hu]
  · rw [hvt, ht]
  · rfl

theorem create_content {t u : ℕ} {pc : Pc} (hpc : s'.pc = ((s.setPc t .idle).setPc u pc).pc) (hnew : pc.Content s' u)
    (hold : ∀ v, v ≠ u → v ≠ t → (s.pc v).Content s' v) (v : ℕ) : (s'.pc v).Content s' v := by
  refine content_setPc (s := s.setPc t .idle) hpc hnew (fun v hv => ?_) v
  rw [State.setPc_pc]
  split_ifs with hvt
  · trivial
  · exact hold v hv hvt

theorem Inv.hop (hi : Inv s) {t u start arg p : ℕ} (hpc : s.pc t = .creating start arg (some p)) (hu : s.pc u = .absent) :
    Inv (({ s with asked := ⟨u, start, arg⟩ :: s.asked, hopped := u :: s.hopped }.setPc t .idle).setPc u (.readingFn p)) where
  held := by
    refine hi.held.pass (t := t) (u := u) (p := p) (by rw [hpc]; rfl) (by rw [hu]; rfl) (fun _ => Iff.rfl) fun v => ?_
    exact create_pc Pc.holds s t u v (.readingFn p)
  content := by
    have hblock : (Pc.creating start arg (some p)).Content s t := hpc ▸ hi.content t
    refine create_content (s := s) rfl ⟨start, arg, List.mem_cons_self, hblock⟩ fun v _ _ => ?_
    exact (hi.content v).mono (fun _ _ => rfl) fun _ he => List.mem_cons_of_mem _ he
  runs := by
    refine hi.runs.ask (fun e he heq => hi.present e he (heq ▸ hu)) ?_
    exact create_iff (s := s) Pc.Pending u trivial not_false (by rw [hpc]; exact not_false)
  counts := by
    refine hi.counts.ask (a := u) (fun e he (heq : e = u) => hi.hopped e he (heq ▸ hu)) ?_
    exact create_iff (s := s) Pc.Uncounted u trivial not_false (by rw [hpc]; exact not_false)
  present := by
    refine List.forall_mem_cons.mpr ⟨?_, fun e he => ?_⟩
    · show (if u = u then _ else _) ≠ _
      simp
    · exact setPc_present (s := s.setPc t .idle) (by simp) (setPc_present (by simp) (hi.present e he))
  hopped := by
    refine List.forall_mem_cons.mpr ⟨?_, fun v hv => ?_⟩
    · show (if u = u then _ else _) ≠ _
      simp
    · exact setPc_present (s := s.setPc t .idle) (by simp) (setPc_present (by simp) (hi.hopped v hv))
  total := hi.total
  reports := hi.reports
  sound := hi.sound

theorem Inv.direct (hi : Inv s) {t u start arg : ℕ} (hpc : s.pc t = .creating start arg none) (hu : s.pc u = .absent) :
    Inv (({ s with asked := ⟨u, start, arg⟩ :: s.asked }.setPc t .idle).setPc u (.starting start arg)) where
  held := by
    refine hi.held.congr (fun _ => Iff.rfl) ?_
    exact create_eq (s := s) Pc.holds (by rw [hu]; rfl) (by rw [hpc]; rfl)
  content := by
    refine create_content (s := s) rfl List.mem_cons_self fun v _ _ => ?_
    exact (hi.content v).mono (fun _ _ => rfl) fun _ he => List.mem_cons_of_mem _ he
  runs := by
    refine hi.runs.ask (fun e he heq => hi.present e he (heq ▸ hu)) ?_
    exact create_iff (s := s) Pc.Pending u trivial not_false (by rw [hpc]; exact not_false)
  counts := by
    refine hi.counts.congr fun v => Iff.of_eq ?_
    exact create_eq (s := s) Pc.Uncounted (by rw [hu]; rfl) (by rw [hpc]; rfl) v
  present := by
    refine List.forall_mem_cons.mpr ⟨?_, fun e he => ?_⟩
    · show (if u = u then _ else _) ≠ _
      simp
    · exact setPc_present (s := s.setPc t .idle) (by simp) (setPc_present (by simp) (hi.present e he))
  hopped v hv := setPc_present (s := s.setPc t .idle) (by simp) (setPc_present (by simp) (hi.hopped v hv))
  total := hi.total
  reports := hi.reports
  sound := hi.sound

theorem Inv.count (hi : Inv s) {t fn arg ok failed skipped : ℕ} {pc : Pc} (hunc : (s.pc t).Uncounted)
    (hholds : (s.pc t).holds = none) (hmem : ⟨t, fn, arg⟩ ∈ s.asked) (hpc : pc = .starting fn arg ∨ pc = .reporting fn arg)
    (htotal : Word64.add (Word64.add ok failed) skipped = Word64.add s.altTotal 1) :
    Inv (({ s with altOk := ok, altFailed := failed, altSkipped := skipped }.count t).setPc t pc) := by
  have hafter : pc.holds = none ∧ pc.Pending ∧ ¬ pc.Uncounted ∧ pc ≠ .absent ∧ pc.Content s t := by
    rcases hpc with rfl | rfl
    · exact ⟨rfl, trivial, False.elim, by simp, hmem⟩
    · exact ⟨rfl, trivial, False.elim, by simp, hmem⟩
  obtain ⟨hnone, hpend, hnot, hpresent, hcontent⟩ := hafter
  have hwas : (s.pc t).Pending := by
    generalize s.pc t = was at hunc
    cases was <;> trivial
  exact {
    held := hi.held.congr (fun _ => Iff.rfl) (setPc_eq (s := s) Pc.holds (hnone.trans hholds.symm))
    content := content_setPc (s := s) rfl (hcontent.mono (fun _ _ => rfl) fun _ he => he)
      fun u _ => (hi.content u).mono (fun _ _ => rfl) fun _ he => he
    runs := hi.runs.congr (setPc_iff (s := s) Pc.Pending (iff_of_true hpend hwas))
    counts := by
      obtain ⟨u, hu, rfl⟩ := hi.counts.owner t hunc
      refine hi.counts.finish hu hunc fun v => ?_
      refine Iff.trans (Iff.of_eq (apply_setPc Pc.Uncounted s (id u) v pc)) ?_
      split_ifs with hv
      · exact iff_of_false hnot fun h => h.2 hv
      · exact (and_iff_left hv).symm
    present := fun e he => setPc_present (s := s) hpresent (hi.present e he)
    hopped := fun u hu => setPc_present (s := s) hpresent (hi.hopped u hu)
    total := by
      refine htotal.trans ?_
      show Word64.add _ 1 = (s.counted.length + 1) % 2 ^ 64
      rw [hi.total, Word64.add, Nat.mod_add_mod]
    reports := hi.reports
    sound := hi.sound }

theorem Inv.exchange (hi : Inv s) {t fn arg : ℕ} (hpc : s.pc t = .reporting fn arg) :
    Inv ({ s with altReported := true, reports := if s.altReported then s.reports else s.reports + 1 }.setPc t
      (.starting fn arg)) where
  held := hi.held.congr (fun _ => Iff.rfl) (setPc_eq (s := s) Pc.holds (by rw [hpc]; rfl))
  content := by
    have hmem : (Pc.reporting fn arg).Content s t := hpc ▸ hi.content t
    exact content_setPc (s := s) rfl hmem fun u _ => (hi.content u).mono (fun _ _ => rfl) fun _ he => he
  runs := hi.runs.congr (setPc_iff (s := s) Pc.Pending (by rw [hpc]; rfl))
  counts := hi.counts.congr (setPc_iff (s := s) Pc.Uncounted (by rw [hpc]; rfl))
  present e he := setPc_present (s := s) (by simp) (hi.present e he)
  hopped u hu := setPc_present (s := s) (by simp) (hi.hopped u hu)
  total := hi.total
  reports := by
    show (if s.altReported then s.reports else s.reports + 1) = 1
    rw [hi.reports]
    split_ifs <;> rfl
  sound := hi.sound

theorem Inv.run (hi : Inv s) {t fn arg : ℕ} (hpc : s.pc t = .starting fn arg) :
    Inv ({ s with ran := ⟨t, fn, arg⟩ :: s.ran }.setPc t .idle) where
  held := hi.held.congr (fun _ => Iff.rfl) (setPc_eq (s := s) Pc.holds (by rw [hpc]; rfl))
  content := content_setPc (s := s) rfl trivial fun u _ => (hi.content u).mono (fun _ _ => rfl) fun _ he => he
  runs := by
    have hmem : (Pc.starting fn arg).Content s t := hpc ▸ hi.content t
    refine hi.runs.finish (a := ⟨t, fn, arg⟩) hmem (by rw [hpc]; trivial) fun v => ?_
    refine Iff.trans (Iff.of_eq (apply_setPc Pc.Pending s t v .idle)) ?_
    split_ifs with hv
    · exact iff_of_false False.elim fun h => h.2 hv
    · exact (and_iff_left hv).symm
  counts := hi.counts.congr (setPc_iff (s := s) Pc.Uncounted (by rw [hpc]; rfl))
  present e he := setPc_present (s := s) (by simp) (hi.present e he)
  hopped u hu := setPc_present (s := s) (by simp) (hi.hopped u hu)
  total := hi.total
  reports := hi.reports
  sound := hi.sound

theorem Inv.other (hi : Inv s) {p : ℕ} {b : Option Block} (hwas : s.heap p = none ∨ s.heap p = some .other)
    (hb : b = none ∨ b = some .other) : Inv (s.setBlock p b) where
  held := by
    refine hi.held.congr (fun q => ?_) fun _ => rfl
    show (∃ fn arg, (if q = p then b else s.heap q) = _) ↔ _
    split_ifs with hq
    · subst hq
      refine iff_of_false ?_ ?_
      · rcases hb with rfl | rfl <;> simp
      · rcases hwas with hnone | hother
        · simp [State.IsPayload, hnone]
        · simp [State.IsPayload, hother]
    · rfl
  content t := by
    refine (hi.content t).mono (fun q hq => if_neg ?_) fun _ he => he
    rintro rfl
    obtain ⟨fn, arg, hblock⟩ := hi.held.live_of_holds hq
    rcases hwas with hnone | hother
    · rw [hnone] at hblock
      cases hblock
    · rw [hother] at hblock
      cases hblock
  runs := hi.runs
  counts := hi.counts
  present := hi.present
  hopped := hi.hopped
  total := hi.total
  reports := hi.reports
  sound := hi.sound

/-- **One step.** -/
theorem Inv.step (hi : Inv s) (h : Step s s') : Inv s' := by
  cases h with
  | move t pc hmove hcontent => exact hi.move hmove hcontent
  | take t p start arg hpc hfree => exact hi.take hpc hfree
  | store t p fn arg pc ht hmove hcontent => exact hi.store ht hmove hcontent
  | drop t p pc ht hholds hpending huncounted hpresent hcontent =>
    exact hi.drop ht hholds hpending huncounted hpresent hcontent
  | hop t u start arg p hpc hu => exact hi.hop hpc hu
  | direct t u start arg hpc hu => exact hi.direct hpc hu
  | count t fn arg pc ok failed skipped hunc hholds hmem hpc htotal => exact hi.count hunc hholds hmem hpc htotal
  | exchange t fn arg hpc => exact hi.exchange hpc
  | run t fn arg hpc => exact hi.run hpc
  | other p b hwas hb => exact hi.other hwas hb

/-! ### Runs -/

/-- The main thread has nothing to do with the file. -/
theorem init_pc (t : ℕ) : State.init.pc t = .idle ∨ State.init.pc t = .absent := by
  unfold State.init
  by_cases ht : t = 0 <;> simp [ht]

theorem Inv.init : Inv State.init where
  held := by
    refine Handover.Held.none.congr (fun p => ?_) fun t => ?_
    · simp [State.IsPayload, State.init]
    · rcases init_pc t with h | h <;> rw [h] <;> rfl
  content t := by rcases init_pc t with h | h <;> rw [h] <;> trivial
  runs := Ledger.empty _ fun t => by rcases init_pc t with h | h <;> rw [h] <;> exact not_false
  counts := Ledger.empty _ fun t => by rcases init_pc t with h | h <;> rw [h] <;> exact not_false
  present _ he := by cases he
  hopped _ hu := by cases hu
  total := rfl
  reports := rfl
  sound := rfl

theorem inv_of_reaches {ls : List Label} (h : Reaches ls s) : Inv s :=
  h.preserves (fun _ _ _ hi hst => hi.step (step_cases hi hst)) Inv.init

/-- **The payload**, at any point of any run of any number of threads: no `StartArg` is used when it is not there; the start
routines that have been called are among those asked for, each thread's once; when no thread has its own still to call, they are
those asked for, and the trampoline has counted the threads that came up on it; when no thread holds a payload, there is none;
and the first thread is reported once at most. -/
theorem payload_spec (ls : List Label) (s : State) (h : Reaches ls s) :
    s.fault = false ∧ (s.asked.map Start.thread).Nodup ∧ s.ran.Subperm s.asked ∧
      ((∀ t, ¬ (s.pc t).Pending) → s.ran.Perm s.asked ∧ s.altTotal = s.hopped.length % 2 ^ 64) ∧
      ((∀ t, (s.pc t).holds = none) → ∀ p, ¬ s.IsPayload p) ∧ s.reports ≤ 1 := by
  have hi := inv_of_reaches h
  refine ⟨hi.sound, hi.runs.nodup, ?_, fun hidle => ⟨hi.runs.perm hidle, ?_⟩, fun hnone p hp => ?_, ?_⟩
  · exact List.subperm_of_subset hi.runs.done_nodup hi.runs.mem_asked
  · have hcounted : ∀ t, ¬ (s.pc t).Uncounted := by
      intro t hunc
      refine hidle t ?_
      generalize s.pc t = pc at hunc
      cases pc <;> trivial
    rw [hi.total, (hi.counts.perm hcounted).length_eq]
  · obtain ⟨t, ht⟩ := hi.held.exists_holder hp
    rw [hnone t] at ht
    cases ht
  · rw [hi.reports]
    split_ifs <;> omega

/-- A creation that fails, and two that succeed; the second one of these gets the block of the first one back from `malloc`. -/
def threeCalls : List Label :=
  [.call 0 7 70, .malloc 0 (some 64), .store 0, .store 0, .create 0 35 1, .free 0, .otherMalloc 64, .otherFree 64,
    .call 0 8 80, .malloc 0 (some 64), .store 0, .store 0, .create 0 0 1, .load 1, .load 1, .free 1,
    .call 0 9 90, .malloc 0 (some 64), .store 0, .stack 1 0 524288, .store 0, .create 0 0 2, .altStack 1 0, .exchange 1,
    .load 2, .load 2, .free 2, .stack 2 0 65536, .run 2, .run 1]

theorem payload_spec_threeCalls : ∃ s, Reaches threeCalls s ∧ s.ran = [⟨1, 8, 80⟩, ⟨2, 9, 90⟩] ∧
    (s.altOk, s.altFailed, s.altSkipped) = (1, 0, 1) ∧ s.ran.Subperm s.asked := by
  have hexec : (Lts.exec step State.init threeCalls).any
      (fun s => s.ran = [⟨1, 8, 80⟩, ⟨2, 9, 90⟩] ∧ (s.altOk, s.altFailed, s.altSkipped) = (1, 0, 1)) = true := by
    decide +kernel
  obtain ⟨s, hrun, hp⟩ := Lts.exists_run_of_exec hexec
  rw [decide_eq_true_eq] at hp
  exact ⟨s, hrun, hp.1, hp.2, (payload_spec threeCalls s hrun).2.2.1⟩

end OrbisCompat.ThreadStack.Payload
