import Mathlib.Data.List.Basic
import Mathlib.Order.Bounds.Defs
import Mathlib.Order.Lattice
import Mathlib.Order.MinMax

/-!
# Labelled transition systems

A system is a relation `step : S → L → S → Prop`.  `Run step s ls t` says that the labels `ls` lead
from `s` to `t`, one step each.  A property that every step keeps holds at the end of every run
from a state where it holds (`Run.preserves`).

`Guarded ok step` is the system restricted to the steps that satisfy `ok`; a run of it is a run "whose
steps all meet the condition" (`Run.mono` forgets or weakens the condition).

The states on the way of a run are those it `Visits`.  A quantity that every step raises to at least the
value of another is the greatest value of that other on the way (`Run.isGreatest`).  A property that a
step keeps exactly when it meets a condition holds all the way exactly when all steps meet it
(`Run.visits_iff_guarded`).

A system given by a function `next : S → L → Option S` is executable: `exec next s ls` follows the
labels, and what it reaches is reached by a run (`run_of_exec`).  `guard ok next` stops at a step that
does not satisfy `ok` (`Run.of_guard`).

`trace next obs s ls` is what `obs` sees of the steps that follow the labels from `s`, in order.  A property of
a state and of what was seen up to it is an invariant of the steps with their observations
(`Run.preserves_trace`).
-/

namespace Lts

variable {S L : Type*}

/-- `Run step s ls t`: following the labels `ls` from `s` ends in `t`. -/
inductive Run (step : S → L → S → Prop) : S → List L → S → Prop
  | nil (s : S) : Run step s [] s
  | cons {s t u : S} {l : L} {ls : List L} : step s l t → Run step t ls u → Run step s (l :: ls) u

/-- The steps of `step` whose source state and label satisfy `ok`. -/
def Guarded (ok : S → L → Prop) (step : S → L → S → Prop) : S → L → S → Prop :=
  fun s l t => ok s l ∧ step s l t

/-- The relation of an executable system. -/
def Next (next : S → L → Option S) : S → L → S → Prop := fun s l t => next s l = some t

/-- Follow a list of labels. -/
def exec (next : S → L → Option S) : S → List L → Option S
  | s, [] => some s
  | s, l :: ls => (next s l).bind fun t => exec next t ls

variable {step step' : S → L → S → Prop}

/-- **Invariants.** What every step keeps holds at the end of every run. -/
theorem Run.preserves {P : S → Prop} (hstep : ∀ s l t, P s → step s l t → P t) {s t : S}
    {ls : List L} (h : Run step s ls t) (hs : P s) : P t := by
  induction h with
  | nil => exact hs
  | cons hst _ ih => exact ih (hstep _ _ _ hs hst)

/-- A run of one system is a run of any system that has all its steps. -/
theorem Run.mono (hsub : ∀ s l t, step s l t → step' s l t) {s t : S} {ls : List L}
    (h : Run step s ls t) : Run step' s ls t := by
  induction h with
  | nil s => exact .nil s
  | cons hst _ ih => exact .cons (hsub _ _ _ hst) ih

/-- One step more. -/
theorem Run.snoc {s t u : S} {l : L} {ls : List L} (h : Run step s ls t) (hst : step t l u) :
    Run step s (ls ++ [l]) u := by
  induction h with
  | nil s => exact .cons hst (.nil u)
  | cons hst' _ ih => exact .cons hst' (ih hst)

/-! ### The states on the way -/

/-- `u` is a state on the way of the labels `ls` from `s` to `t`. -/
def Visits (step : S → L → S → Prop) (s : S) (ls : List L) (t u : S) : Prop :=
  ∃ ls₁ ls₂, ls = ls₁ ++ ls₂ ∧ Run step s ls₁ u ∧ Run step u ls₂ t

theorem Run.visits_start {s t : S} {ls : List L} (h : Run step s ls t) : Visits step s ls t s :=
  ⟨[], ls, rfl, .nil s, h⟩

theorem Visits.cons {s s' t u : S} {l : L} {ls : List L} (hst : step s l s')
    (h : Visits step s' ls t u) : Visits step s (l :: ls) t u := by
  obtain ⟨ls₁, ls₂, rfl, h₁, h₂⟩ := h
  exact ⟨l :: ls₁, ls₂, rfl, .cons hst h₁, h₂⟩

/-- What every step to a state with `Q` keeps holds at the end of every run through states with `Q`. -/
theorem Run.preserves_visits {P Q : S → Prop} (hstep : ∀ s l t, P s → step s l t → Q t → P t) {s t : S}
    {ls : List L} (h : Run step s ls t) (hall : ∀ u, Visits step s ls t u → Q u) (hs : P s) : P t := by
  induction h with
  | nil => exact hs
  | cons hst hrest ih =>
    refine ih (fun u hu => hall u (hu.cons hst)) (hstep _ _ _ hs hst ?_)
    exact hall _ (hrest.visits_start.cons hst)

section Maximum

variable {α : Type*} [LinearOrder α] {f g : S → α} {I : S → Prop}

/-- A running maximum never falls. -/
theorem Run.le_of_max (hI : ∀ s l t, I s → step s l t → I t)
    (hmax : ∀ s l t, I s → step s l t → g t = max (g s) (f t)) {s t : S} {ls : List L}
    (h : Run step s ls t) (hs : I s) : g s ≤ g t := by
  induction h with
  | nil => exact le_rfl
  | cons hst _ ih =>
    refine le_trans ?_ (ih (hI _ _ _ hs hst))
    rw [hmax _ _ _ hs hst]
    exact le_max_left _ _

/-- A running maximum is where it started, or a value on the way. -/
theorem Run.exists_max (hI : ∀ s l t, I s → step s l t → I t)
    (hmax : ∀ s l t, I s → step s l t → g t = max (g s) (f t)) {s t : S} {ls : List L}
    (h : Run step s ls t) (hs : I s) : g t = g s ∨ ∃ u, Visits step s ls t u ∧ f u = g t := by
  induction h with
  | nil => exact Or.inl rfl
  | cons hst hrest ih =>
    rcases ih (hI _ _ _ hs hst) with heq | ⟨u, hu, hf⟩
    · rw [hmax _ _ _ hs hst] at heq
      rcases max_choice (g _) (f _) with hold | hnew
      · exact Or.inl (heq.trans hold)
      · exact Or.inr ⟨_, hrest.visits_start.cons hst, (heq.trans hnew).symm⟩
    · exact Or.inr ⟨u, hu.cons hst, hf⟩

/-- **Running maxima.** If every step takes `g` to the maximum of `g` and `f`, then `g` is the greatest
value of `f` on the way. -/
theorem Run.isGreatest (hI : ∀ s l t, I s → step s l t → I t)
    (hmax : ∀ s l t, I s → step s l t → g t = max (g s) (f t)) {s t : S} {ls : List L}
    (h : Run step s ls t) (hs : I s) (h0 : g s = f s) :
    IsGreatest {x | ∃ u, Visits step s ls t u ∧ f u = x} (g t) := by
  constructor
  · rcases h.exists_max hI hmax hs with heq | hex
    · exact ⟨s, h.visits_start, h0.symm.trans heq.symm⟩
    · exact hex
  · rintro x ⟨u, ⟨ls₁, ls₂, -, h₁, h₂⟩, rfl⟩
    have hu : I u ∧ f u ≤ g u := by
      refine h₁.preserves (P := fun s => I s ∧ f s ≤ g s) (fun s l t hP hst => ?_) ⟨hs, h0.ge⟩
      exact ⟨hI _ _ _ hP.1 hst, by rw [hmax _ _ _ hP.1 hst]; exact le_max_right _ _⟩
    exact hu.2.trans (h₂.le_of_max hI hmax hu.1)

end Maximum

/-- The steps of `next` whose source state and label satisfy `ok`. -/
def guard (ok : S → L → Prop) [∀ s l, Decidable (ok s l)] (next : S → L → Option S) :
    S → L → Option S := fun s l => if ok s l then next s l else none

theorem next_guard {ok : S → L → Prop} [∀ s l, Decidable (ok s l)] {next : S → L → Option S}
    {s t : S} {l : L} (h : guard ok next s l = some t) : Guarded ok (Next next) s l t := by
  unfold guard at h
  split_ifs at h with hok
  exact ⟨hok, h⟩

/-- **Exact conditions.** In a system whose steps lead to one state each, let `I` be kept by every step,
and let a step from a state with `P` keep `P` exactly when it satisfies `ok`.  Then `P` holds in all states
on the way exactly when all steps satisfy `ok`. -/
theorem Run.visits_iff_guarded {I P : S → Prop} {ok : S → L → Prop}
    (hdet : ∀ s l t t', step s l t → step s l t' → t = t')
    (hI : ∀ s l t, I s → step s l t → I t)
    (hP : ∀ s l t, I s → P s → step s l t → (P t ↔ ok s l)) {s t : S} {ls : List L}
    (h : Run step s ls t) (hs : I s) (hp : P s) :
    (∀ u, Visits step s ls t u → P u) ↔ Run (Guarded ok step) s ls t := by
  induction h with
  | nil s =>
    refine ⟨fun _ => .nil s, fun _ u hu => ?_⟩
    obtain ⟨ls₁, ls₂, hls, h₁, -⟩ := hu
    obtain rfl : ls₁ = [] := (List.append_eq_nil_iff.mp hls.symm).1
    cases h₁
    exact hp
  | cons hst hrest ih =>
    have hiff := hP _ _ _ hs hp hst
    have hI' := hI _ _ _ hs hst
    constructor
    · intro hall
      have hP' := hall _ (hrest.visits_start.cons hst)
      exact .cons ⟨hiff.mp hP', hst⟩ ((ih hI' hP').mp fun u hu => hall u (hu.cons hst))
    · intro hg u hu
      cases hg with
      | cons hst' hrest' =>
        obtain rfl := hdet _ _ _ _ hst hst'.2
        have hP' := hiff.mpr hst'.1
        obtain ⟨ls₁, ls₂, hls, h₁, h₂⟩ := hu
        cases h₁ with
        | nil => exact hp
        | cons hst₁ hrest₁ =>
          rw [List.cons_append] at hls
          obtain ⟨rfl, htail⟩ := List.cons.inj hls
          obtain rfl := hdet _ _ _ _ hst hst₁
          exact (ih hI' hP').mpr hrest' u ⟨_, _, htail, hrest₁, h₂⟩

/-- A function leads to one state. -/
theorem next_det {next : S → L → Option S} (s : S) (l : L) (t t' : S) (h : Next next s l t)
    (h' : Next next s l t') : t = t' := Option.some.inj (h.symm.trans h')

/-- What `exec` reaches is reached by a run. -/
theorem run_of_exec {next : S → L → Option S} {s t : S} {ls : List L}
    (h : exec next s ls = some t) : Run (Next next) s ls t := by
  induction ls generalizing s with
  | nil =>
    obtain rfl := Option.some.inj h
    exact .nil s
  | cons l ls ih =>
    obtain ⟨u, hu, hrest⟩ := Option.bind_eq_some_iff.mp h
    exact .cons hu (ih hrest)

/-- A run to a state of which `p` holds, by following the labels. -/
theorem exists_run_of_exec {next : S → L → Option S} {s : S} {ls : List L} {p : S → Bool}
    (h : (exec next s ls).any p = true) : ∃ t, Run (Next next) s ls t ∧ p t = true := by
  obtain ⟨t, ht, hp⟩ := (Option.any_eq_true _ _).mp h
  exact ⟨t, run_of_exec ht, hp⟩

/-! ### What is seen on the way -/

section Trace

variable {O : Type*} {obs : S → L → List O}

/-- What is seen of the steps, in order. -/
def trace (next : S → L → Option S) (obs : S → L → List O) : S → List L → List O
  | _, [] => []
  | s, l :: ls => obs s l ++ (next s l).elim [] fun t => trace next obs t ls

theorem trace_cons {next : S → L → Option S} {s t : S} {l : L} (ls : List L) (h : next s l = some t) :
    trace next obs s (l :: ls) = obs s l ++ trace next obs t ls := by
  rw [trace, h, Option.elim_some]

/-- **Exact conditions on what is seen.** Let `I` be kept by the steps that satisfy `ok`, and let all that is seen
of a step from a state with `I` have `Q` exactly when the step satisfies `ok`.  Then all that is seen on the way
has `Q` exactly when all steps satisfy `ok`. -/
theorem Run.forall_trace_iff {next : S → L → Option S} {I : S → Prop} {ok : S → L → Prop} {Q : O → Prop}
    (hobs : ∀ s l t, I s → next s l = some t → ((∀ o ∈ obs s l, Q o) ↔ ok s l))
    (hI : ∀ s l t, I s → ok s l → next s l = some t → I t) {s t : S} {ls : List L}
    (h : Run (Next next) s ls t) (hs : I s) :
    (∀ o ∈ trace next obs s ls, Q o) ↔ Run (Guarded ok (Next next)) s ls t := by
  induction h with
  | nil s => exact iff_of_true (fun o ho => by cases ho) (.nil s)
  | cons hst _ ih =>
    have hiff := hobs _ _ _ hs hst
    rw [trace_cons _ hst, List.forall_mem_append, hiff]
    constructor
    · rintro ⟨hok, hrest⟩
      exact .cons ⟨hok, hst⟩ ((ih (hI _ _ _ hs hok hst)).mp hrest)
    · intro hg
      cases hg with
      | cons hst' hrest' =>
        obtain rfl := next_det _ _ _ _ hst hst'.2
        exact ⟨hst'.1, (ih (hI _ _ _ hs hst'.1 hst)).mpr hrest'⟩

end Trace

theorem Run.of_guard {ok : S → L → Prop} [∀ s l, Decidable (ok s l)] {next : S → L → Option S}
    {s t : S} {ls : List L} (h : Run (Next (guard ok next)) s ls t) :
    Run (Guarded ok (Next next)) s ls t :=
  h.mono fun _ _ _ => next_guard

end Lts
