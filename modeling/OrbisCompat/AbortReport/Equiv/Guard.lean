import OrbisCompat.AbortReport.System

/-!
# `src/orbis_abort_report.c`: the guard of the copy on file

* `Inv.holder`: `s_in_report` is set exactly while one report of one thread makes its copy;
* `Inv.logged`, `Inv.copied`: each thread's lines are on klog in the order of its calls, and a line is on klog before it is in the
  file;
* `exists_way_out`: a thread leaves all its reports by steps of its own, however deep they are and whoever holds the guard;
* `guard_spec`: in every run of any number of threads.
-/

namespace OrbisCompat.AbortReport

/-! ### What a step does -/

/-- The ways a step changes a state. -/
inductive Step (s : State) : State → Prop
  | call (t : ℕ) (line : List UInt8) :
      mayCall (s.stack t) = true →
      Step s ({ s with calls := fun u => if u = t then line :: s.calls t else s.calls u }.setStack t
        (.starting line :: s.stack t))
  | klog (t : ℕ) (line : List UInt8) (fs : List Frame) :
      s.stack t = .starting line :: fs → Step s ({ s with klog := (t, line) :: s.klog }.setStack t (.printed line :: fs))
  | skip (t : ℕ) (line : List UInt8) (fs : List Frame) :
      s.stack t = .printed line :: fs → s.inReport = true → Step s (s.setStack t fs)
  | take (t : ℕ) (line : List UInt8) (fs : List Frame) :
      s.stack t = .printed line :: fs → s.inReport = false →
      Step s ({ s with inReport := true }.setStack t (.opening line :: fs))
  | move (t : ℕ) (f f' : Frame) (fs : List Frame) :
      s.stack t = f :: fs → f.copying = true → f'.copying = true → (∀ path line, f' = .writing path line → f = .opening line) →
      (∀ line, f' ≠ .opening line) → Step s (s.setStack t (f' :: fs))
  | write (t : ℕ) (path line : List UInt8) (fs : List Frame) :
      s.stack t = .writing path line :: fs → Step s ({ s with file := (path, line) :: s.file }.setStack t (.clearing :: fs))
  | clear (t : ℕ) (fs : List Frame) :
      s.stack t = .clearing :: fs → Step s ({ s with inReport := false }.setStack t fs)

/-- **Inversion.** -/
theorem step_cases {s s' : State} {l : Label} (h : step s l = some s') : Step s s' := by
  cases l with
  | call t line =>
    simp only [step] at h
    split_ifs at h with hmay
    exact Option.some.inj h ▸ .call t line hmay
  | klog t =>
    simp only [step] at h
    split at h
    · next hst => exact Option.some.inj h ▸ .klog t _ _ hst
    · cases h
  | exchange t =>
    simp only [step] at h
    split at h
    · next hst =>
      split_ifs at h with hin
      · exact Option.some.inj h ▸ .skip t _ _ hst hin
      · exact Option.some.inj h ▸ .take t _ _ hst (Bool.not_eq_true _ ▸ hin)
    · cases h
  | fopen t env opened =>
    simp only [step] at h
    split at h
    · next hst =>
      split_ifs at h
      · refine Option.some.inj h ▸ .move t _ (.writing _ _) _ hst rfl rfl (fun path line heq => ?_) (fun _ => by simp)
        rw [(Frame.writing.inj heq).2]
      · exact Option.some.inj h ▸ .move t _ .clearing _ hst rfl rfl (fun _ _ => by simp) (fun _ => by simp)
    · cases h
  | fputs t written =>
    simp only [step] at h
    split at h
    · next hst =>
      split_ifs at h
      · exact Option.some.inj h ▸ .write t _ _ _ hst
      · exact Option.some.inj h ▸ .move t _ .clearing _ hst rfl rfl (fun _ _ => by simp) (fun _ => by simp)
    · cases h
  | store t =>
    simp only [step] at h
    split at h
    · next hst => exact Option.some.inj h ▸ .clear t _ hst
    · cases h

/-! ### The invariant -/

/-- How many of a thread's reports make their copy. -/
def copies (fs : List Frame) : ℕ := fs.countP Frame.copying

@[simp] theorem copies_cons (f : Frame) (fs : List Frame) :
    copies (f :: fs) = copies fs + if f.copying then 1 else 0 := List.countP_cons

/-- The line of a report that has not been printed yet. -/
def pendingLine : List Frame → List (List UInt8)
  | .starting line :: _ => [line]
  | _ => []

/-- The line that a report is going to put into the file. -/
def Frame.line? : Frame → Option (List UInt8)
  | printed line | opening line | writing _ line => some line
  | starting _ | clearing => none

/-- The lines of a thread on klog. -/
def ofThread (t : ℕ) (klog : List (ℕ × List UInt8)) : List (List UInt8) := (klog.filter (·.1 = t)).map Prod.snd

theorem ofThread_self (t : ℕ) (line : List UInt8) (klog : List (ℕ × List UInt8)) :
    ofThread t ((t, line) :: klog) = line :: ofThread t klog := by
  rw [ofThread, List.filter_cons_of_pos (by simp)]
  rfl

theorem ofThread_of_ne {t u : ℕ} (h : u ≠ t) (line : List UInt8) (klog : List (ℕ × List UInt8)) :
    ofThread u ((t, line) :: klog) = ofThread u klog := by
  rw [ofThread, List.filter_cons_of_neg (by simpa using Ne.symm h)]
  rfl

theorem mem_ofThread_cons {u : ℕ} {line : List UInt8} {klog : List (ℕ × List UInt8)} (h : line ∈ ofThread u klog)
    (e : ℕ × List UInt8) : line ∈ ofThread u (e :: klog) := by
  unfold ofThread at h ⊢
  rw [List.filter_cons]
  split_ifs
  · exact List.mem_cons_of_mem _ h
  · exact h

/-- No report but the innermost one is before its `sceKernelDebugOutText`. -/
def AllPrinted (fs : List Frame) : Prop := ∀ f ∈ fs, ∀ line, f ≠ .starting line

/-- **The invariant.** -/
structure Inv (s : State) : Prop where
  holder : ∃ holder : Option ℕ, s.inReport = holder.isSome ∧ ∀ t, copies (s.stack t) = if holder = some t then 1 else 0
  logged : ∀ t, s.calls t = pendingLine (s.stack t) ++ ofThread t s.klog
  inner : ∀ t, AllPrinted (s.stack t).tail
  framed : ∀ t, ∀ f ∈ s.stack t, ∀ line, f.line? = some line → line ∈ ofThread t s.klog
  copied : ∀ e ∈ s.file, ∃ t, e.2 ∈ ofThread t s.klog

variable {s s' : State} {t : ℕ} {f f' : Frame} {fs : List Frame} {line : List UInt8}

theorem AllPrinted.pendingLine (h : AllPrinted fs) : pendingLine fs = [] := by
  cases fs with
  | nil => rfl
  | cons f fs =>
    cases f with
    | starting line => exact absurd rfl (h _ List.mem_cons_self line)
    | _ => rfl

/-- A property of each thread's reports, when one thread's change. -/
theorem forall_setStack {P : ℕ → List Frame → Prop} (s : State) (hnew : P t fs) (hold : ∀ u, u ≠ t → P u (s.stack u)) (u : ℕ) :
    P u ((s.setStack t fs).stack u) := by
  rw [State.setStack_stack]
  split_ifs with hu
  · exact hu ▸ hnew
  · exact hold u hu

/-- Not more and not less of a thread's reports make their copy. -/
theorem holder_setStack (hcopies : copies fs = copies (s.stack t))
    (h : ∃ holder : Option ℕ, s.inReport = holder.isSome ∧ ∀ t, copies (s.stack t) = if holder = some t then 1 else 0) :
    ∃ holder : Option ℕ, s.inReport = holder.isSome ∧ ∀ u, copies ((s.setStack t fs).stack u) = if holder = some u then 1 else 0 := by
  obtain ⟨holder, hin, hall⟩ := h
  exact ⟨holder, hin, forall_setStack (P := fun u fs => copies fs = if holder = some u then 1 else 0) s
    (hcopies.trans (hall t)) fun u _ => hall u⟩

theorem Inv.call (hi : Inv s) (hmay : mayCall (s.stack t) = true) :
    Inv ({ s with calls := fun u => if u = t then line :: s.calls t else s.calls u }.setStack t (.starting line :: s.stack t)) where
  holder := holder_setStack (s := { s with calls := _ }) (by simp [Frame.copying]) hi.holder
  logged u := by
    have hnone : pendingLine (s.stack t) = [] := by
      generalize s.stack t = fs at hmay
      cases fs with
      | nil => rfl
      | cons f fs => cases f <;> first | rfl | cases hmay
    show (if u = t then _ else _) = pendingLine (if u = t then _ else _) ++ _
    split_ifs with hu
    · rw [hi.logged t, hnone, hu]
      rfl
    · exact hi.logged u
  inner := forall_setStack (P := fun _ fs => AllPrinted fs.tail) _ (fun f hf line heq => by
    subst heq
    generalize hst : s.stack t = fs at hmay hf
    cases fs with
    | nil => cases hf
    | cons f fs =>
      rcases List.mem_cons.mp hf with rfl | hmem
      · cases hmay
      · exact hi.inner t _ (by rw [hst]; exact hmem) line rfl) fun u _ => hi.inner u
  framed := by
    refine forall_setStack (P := fun u fs => ∀ f ∈ fs, ∀ line, f.line? = some line → line ∈ ofThread u s.klog) _ ?_
      fun u _ => hi.framed u
    exact List.forall_mem_cons.mpr ⟨fun _ h => (by cases h), hi.framed t⟩
  copied := hi.copied

theorem Inv.klog (hi : Inv s) (hst : s.stack t = .starting line :: fs) :
    Inv ({ s with klog := (t, line) :: s.klog }.setStack t (.printed line :: fs)) where
  holder := holder_setStack (s := { s with klog := _ }) (by rw [hst]; rfl) hi.holder
  logged u := by
    show s.calls u = pendingLine (if u = t then _ else _) ++ ofThread u ((t, line) :: s.klog)
    split_ifs with hu
    · rw [hu, hi.logged t, hst, ofThread_self]
      rfl
    · rw [hi.logged u, ofThread_of_ne hu]
  inner := forall_setStack (P := fun _ fs => AllPrinted fs.tail) _ (by have := hi.inner t; rwa [hst] at this) fun u _ => hi.inner u
  framed := by
    refine forall_setStack (P := fun u fs => ∀ f ∈ fs, ∀ l, f.line? = some l → l ∈ ofThread u ((t, line) :: s.klog)) _ ?_
      fun u _ f hf l hl => mem_ofThread_cons (hi.framed u f hf l hl) _
    refine List.forall_mem_cons.mpr ⟨fun l hl => ?_, fun f hf l hl => ?_⟩
    · obtain rfl := Option.some.inj hl
      rw [ofThread_self]
      exact List.mem_cons_self
    · exact mem_ofThread_cons (hi.framed t f (by rw [hst]; exact List.mem_cons_of_mem _ hf) l hl) _
  copied e he := by
    obtain ⟨u, hu⟩ := hi.copied e he
    exact ⟨u, mem_ofThread_cons hu _⟩

/-- The innermost report of a thread goes on, or is over, once it has been printed. -/
theorem Inv.go_on (hi : Inv s) (hst : s.stack t = f :: fs) (hf : ∀ line, f ≠ .starting line) {gs : List Frame} {b : Bool}
    {file : List (List UInt8 × List UInt8)}
    (hholder : ∃ holder : Option ℕ, b = holder.isSome ∧
      ∀ u, copies ((s.setStack t gs).stack u) = if holder = some u then 1 else 0)
    (hgs : gs = fs ∨ ∃ g, gs = g :: fs ∧ (∀ line, g ≠ .starting line) ∧ ∀ line, g.line? = some line → f.line? = some line)
    (hfile : ∀ e ∈ file, e ∈ s.file ∨ f.line? = some e.2) :
    Inv ({ s with inReport := b, file := file }.setStack t gs) := by
  have hfs : AllPrinted fs := by
    have := hi.inner t
    rwa [hst] at this
  have hall : AllPrinted gs := by
    rcases hgs with rfl | ⟨g, rfl, hg, -⟩
    · exact hfs
    · exact List.forall_mem_cons.mpr ⟨hg, hfs⟩
  have hpending : pendingLine (f :: fs) = [] := AllPrinted.pendingLine (List.forall_mem_cons.mpr ⟨hf, hfs⟩)
  have hlines : ∀ g ∈ gs, ∀ l, g.line? = some l → l ∈ ofThread t s.klog := by
    intro g hg l hl
    have hold := hi.framed t
    rw [hst] at hold
    rcases hgs with rfl | ⟨g', rfl, -, hline⟩
    · exact hold g (List.mem_cons_of_mem _ hg) l hl
    · rcases List.mem_cons.mp hg with rfl | hmem
      · exact hold f List.mem_cons_self l (hline l hl)
      · exact hold g (List.mem_cons_of_mem _ hmem) l hl
  exact {
    holder := hholder
    logged := forall_setStack (P := fun u fs => s.calls u = pendingLine fs ++ ofThread u s.klog) _
      (by rw [hall.pendingLine, hi.logged t, hst, hpending]) fun u _ => hi.logged u
    inner := forall_setStack (P := fun _ fs => AllPrinted fs.tail) _ (fun g hg => hall g (List.mem_of_mem_tail hg))
      fun u _ => hi.inner u
    framed := forall_setStack (P := fun u fs => ∀ f ∈ fs, ∀ l, f.line? = some l → l ∈ ofThread u s.klog) _ hlines
      fun u _ => hi.framed u
    copied := fun e he => by
      rcases hfile e he with hold | hline
      · exact hi.copied e hold
      · exact ⟨t, hi.framed t f (by rw [hst]; exact List.mem_cons_self) _ hline⟩ }

/-- **One step.** -/
theorem Inv.step (hi : Inv s) (h : Step s s') : Inv s' := by
  cases h with
  | call t line hmay => exact hi.call hmay
  | klog t line fs hst => exact hi.klog hst
  | skip t line fs hst hin =>
    refine hi.go_on hst (fun _ => by simp) (holder_setStack ?_ hi.holder) (Or.inl rfl) fun _ => Or.inl
    rw [hst]
    rfl
  | take t line fs hst hin =>
    obtain ⟨holder, hsome, hall⟩ := hi.holder
    obtain rfl : holder = none := by
      cases holder with
      | none => rfl
      | some u => rw [hin] at hsome; cases hsome
    have hcopies := hall t
    rw [hst, copies_cons] at hcopies
    refine hi.go_on hst (fun _ => by simp) ⟨some t, rfl, ?_⟩ (Or.inr ⟨.opening line, rfl, fun _ => by simp, fun _ h => h⟩)
      fun _ => Or.inl
    refine forall_setStack (P := fun u fs => copies fs = if some t = some u then 1 else 0) s ?_ fun u hu => ?_
    · rw [copies_cons, if_pos rfl]
      simp [Frame.copying] at hcopies ⊢
      exact hcopies
    · rw [hall u, if_neg (by simp), if_neg (by simpa using Ne.symm hu)]
  | move t f f' fs hst hf hf' hwriting hopening =>
    refine hi.go_on hst (fun _ heq => by simp [heq, Frame.copying] at hf) (holder_setStack ?_ hi.holder)
      (Or.inr ⟨f', rfl, fun _ heq => by simp [heq, Frame.copying] at hf', fun l hl => ?_⟩) fun _ => Or.inl
    · rw [hst, copies_cons, copies_cons, hf, hf']
    · cases f' with
      | writing path line =>
        obtain rfl := Option.some.inj hl
        rw [hwriting path _ rfl]
        rfl
      | opening line => exact absurd rfl (hopening line)
      | clearing => cases hl
      | _ => cases hf'
  | write t path line fs hst =>
    refine hi.go_on hst (fun _ => by simp) (holder_setStack ?_ hi.holder)
      (Or.inr ⟨.clearing, rfl, fun _ => by simp, fun _ h => by cases h⟩) fun e he => ?_
    · rw [hst]
      rfl
    · rcases List.mem_cons.mp he with rfl | hold
      · exact Or.inr rfl
      · exact Or.inl hold
  | clear t fs hst =>
    obtain ⟨holder, hsome, hall⟩ := hi.holder
    have hone := hall t
    rw [hst, copies_cons, Frame.copying, if_pos rfl] at hone
    have hheld : holder = some t := by
      by_contra hne
      rw [if_neg hne] at hone
      omega
    rw [if_pos hheld] at hone
    refine hi.go_on hst (fun _ => by simp) ⟨none, rfl, ?_⟩ (Or.inl rfl) fun _ => Or.inl
    refine forall_setStack (P := fun u fs => copies fs = if none = some u then 1 else 0) s ?_ fun u hu => ?_
    · rw [if_neg (by simp)]
      omega
    · rw [hall u, hheld, if_neg (by simpa using Ne.symm hu), if_neg (by simp)]

theorem Inv.init : Inv State.init where
  holder := ⟨none, rfl, fun _ => rfl⟩
  logged _ := rfl
  inner _ _ hf := by cases hf
  framed _ _ hf := by cases hf
  copied _ he := by cases he

/-! ### The way out -/

/-- The steps that the reports of a thread still have to take. -/
def Frame.work : Frame → ℕ
  | starting _ => 5
  | printed _ => 4
  | opening _ => 3
  | writing _ _ => 2
  | clearing => 1

def work (fs : List Frame) : ℕ := (fs.map Frame.work).sum

theorem work_cons (f : Frame) (fs : List Frame) : work (f :: fs) = f.work + work fs := by
  rw [work, List.map_cons, List.sum_cons]
  rfl

theorem work_le (fs : List Frame) : work fs ≤ 5 * fs.length := by
  induction fs with
  | nil => exact Nat.zero_le _
  | cons f fs ih =>
    have hle : f.work ≤ 5 := by cases f <;> simp [Frame.work]
    rw [work_cons, List.length_cons]
    omega

/-- A report that goes on has less to do. -/
theorem work_lt_of_setStack (u : State) {gs : List Frame} (hst : s.stack t = f :: fs)
    (hgs : gs = fs ∨ ∃ g, gs = g :: fs ∧ g.work < f.work) : work ((u.setStack t gs).stack t) < work (s.stack t) := by
  have hpos : 0 < f.work := by cases f <;> simp [Frame.work]
  rw [State.setStack_stack, if_pos rfl, hst, work_cons]
  rcases hgs with rfl | ⟨g, rfl, hlt⟩
  · omega
  · rw [work_cons]
    omega

/-- A thread in a report has a step of its own to take, whatever the others do, and less to do after it. -/
theorem exists_step (hst : s.stack t = f :: fs) :
    ∃ l s', l.thread = t ∧ AbortReport.step s l = some s' ∧ work (s'.stack t) < work (s.stack t) := by
  cases f with
  | starting line =>
    exact ⟨.klog t, _, rfl, by simp only [AbortReport.step, hst]; rfl,
      work_lt_of_setStack _ hst (Or.inr ⟨.printed line, rfl, by simp [Frame.work]⟩)⟩
  | printed line =>
    cases hin : s.inReport with
    | true =>
      exact ⟨.exchange t, s.setStack t fs, rfl, by simp only [AbortReport.step, hst, hin, if_true],
        work_lt_of_setStack _ hst (Or.inl rfl)⟩
    | false =>
      exact ⟨.exchange t, { s with inReport := true }.setStack t (.opening line :: fs), rfl, by
        simp only [AbortReport.step, hst, hin, Bool.false_eq_true, if_false],
        work_lt_of_setStack _ hst (Or.inr ⟨.opening line, rfl, by simp [Frame.work]⟩)⟩
  | opening line =>
    exact ⟨.fopen t none true, s.setStack t (.writing (logPath none) line :: fs), rfl, by
      simp only [AbortReport.step, hst, if_true],
      work_lt_of_setStack _ hst (Or.inr ⟨_, rfl, by simp [Frame.work]⟩)⟩
  | writing path line =>
    exact ⟨.fputs t true, { s with file := (path, line) :: s.file }.setStack t (.clearing :: fs), rfl, by
      simp only [AbortReport.step, hst, if_true],
      work_lt_of_setStack _ hst (Or.inr ⟨.clearing, rfl, by simp [Frame.work]⟩)⟩
  | clearing =>
    exact ⟨.store t, { s with inReport := false }.setStack t fs, rfl, by simp only [AbortReport.step, hst],
      work_lt_of_setStack _ hst (Or.inl rfl)⟩

/-- **No deadlock.**  A thread leaves all its reports by steps of its own. -/
theorem exists_way_out (s : State) (t : ℕ) :
    ∃ ls s', (∀ l ∈ ls, l.thread = t) ∧ ls.length ≤ work (s.stack t) ∧ Lts.Run (Lts.Next AbortReport.step) s ls s' ∧
      s'.stack t = [] := by
  -- by induction on what is left to do
  generalize hn : work (s.stack t) = n
  induction n using Nat.strong_induction_on generalizing s with
  | _ n ih =>
    rcases hst : s.stack t with _ | ⟨f, fs⟩
    · exact ⟨[], s, nofun, Nat.zero_le _, .nil s, hst⟩
    · obtain ⟨l, u, hl, hstep, hlt⟩ := exists_step hst
      obtain ⟨ls, s', hown, hlen, hrun, hnil⟩ := ih _ (hn ▸ hlt) u rfl
      refine ⟨l :: ls, s', List.forall_mem_cons.mpr ⟨hl, hown⟩, ?_, .cons hstep hrun, hnil⟩
      rw [List.length_cons]
      omega

/-- **The reports**, at any point of any run of any number of threads and however they call one another: one report at most makes its
copy, and `s_in_report` tells whether one does; what a thread has on klog are the lines of its reports, in order, up to one that
it is about to print; what is in the file is on klog; and a thread gets out of its reports by at most five steps of its own for
each. -/
theorem guard_spec (ls : List Label) (s : State) (h : Reaches ls s) :
    (∃ holder : Option ℕ, s.inReport = holder.isSome ∧ ∀ t, copies (s.stack t) = if holder = some t then 1 else 0) ∧
      (∀ t, s.calls t = pendingLine (s.stack t) ++ ofThread t s.klog) ∧
      (∀ e ∈ s.file, ∃ t, e.2 ∈ ofThread t s.klog) ∧
      ∀ t, ∃ ls' s', (∀ l ∈ ls', l.thread = t) ∧ ls'.length ≤ 5 * (s.stack t).length ∧
        Lts.Run (Lts.Next AbortReport.step) s ls' s' ∧ s'.stack t = [] := by
  have hi : Inv s := h.preserves (fun _ _ _ hu hst => hu.step (step_cases hst)) Inv.init
  refine ⟨hi.holder, hi.logged, hi.copied, fun t => ?_⟩
  obtain ⟨ls', s', hown, hlen, hrun, hnil⟩ := exists_way_out s t
  exact ⟨ls', s', hown, hlen.trans (work_le _), hrun, hnil⟩

/-- A report calls itself while it opens the file, and another thread reports meanwhile. -/
def nested : List Label :=
  [.call 1 [65], .klog 1, .exchange 1, .call 1 [66], .call 2 [67], .klog 2, .klog 1, .exchange 2, .exchange 1,
    .fopen 1 (some []) true, .fputs 1 true]

theorem guard_spec_nested : ∃ s, Reaches nested s ∧ s.file = [(abortLogDefault, [65])] ∧
    s.klog = [(1, [66]), (2, [67]), (1, [65])] ∧
    ∃ holder : Option ℕ, s.inReport = holder.isSome ∧ ∀ t, copies (s.stack t) = if holder = some t then 1 else 0 := by
  have hexec : (Lts.exec AbortReport.step State.init nested).any
      (fun s => s.file = [(abortLogDefault, [65])] ∧ s.klog = [(1, [66]), (2, [67]), (1, [65])]) = true := by decide +kernel
  obtain ⟨s, hrun, hp⟩ := Lts.exists_run_of_exec hexec
  rw [decide_eq_true_eq] at hp
  exact ⟨s, hrun, hp.1, hp.2, (guard_spec nested s hrun).1⟩

end OrbisCompat.AbortReport
