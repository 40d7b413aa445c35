import OrbisCompat.Lib.LowWater
import OrbisCompat.Mem.Equiv.Steps

/-!
# `src/orbis_mem.cpp`: the low-water mark and what is printed of it

* `water_step`: seen through `State.water`, a step of a thread is a step of the loop over `flexLow` or none, so it keeps
  the invariant of the loop;
* `Reports`: a thread that has loaded `flexLow` has a value of it that is at most the answer of its own query,
  unless that failed and it reports 0;
* `lowWater_spec`: at any point of any run `flexLow` is the start or an answer of the kernel and at most every answer
  whose thread is through the loop; it is the least of them when nobody is in the loop; and every line that has been
  printed has a low-water mark that the cell held, not below what it holds now, and at most the amount available
  next to it.
-/

namespace OrbisCompat.Mem

/-! ### The loop -/

/-- Where the thread is in the loop over `flexLow`. -/
def Pc.water : Pc → LowWater.Pc ℕ
  | loading _ v => .loading v
  | trying _ v low => .trying v low
  | _ => .out

/-- `flexLow` and the threads in the loop over it. -/
def State.water (s : State) : LowWater.State ℕ ℕ := ⟨s.flexLow, fun t => (s.pc t).water, s.queried, s.settled⟩

/-- The loop after a thread has gone on. -/
theorem water_eq {s s' : State} {w : LowWater.State ℕ ℕ} {t : ℕ} (pc : Pc) (hpc : s'.pc = (s.setPc t pc).pc)
    (hw : w.pc = fun u => if u = t then pc.water else (s.pc u).water) (hcell : s'.flexLow = w.cell)
    (hseen : s'.queried = w.seen) (hset : s'.settled = w.settled) : s'.water = w := by
  have hfun : (fun u => (s'.pc u).water) = w.pc := by
    ext u
    rw [hpc, hw]
    exact apply_ite Pc.water (u = t) pc (s.pc u)
  unfold State.water
  rw [hfun, hcell, hseen, hset]

/-- A thread that goes on outside the loop. -/
theorem water_of_out {s s' : State} {t : ℕ} {p : Pc} (pc : Pc) (hat : s.pc t = p) (hsame : p.water = pc.water)
    (hpc : s'.pc = (s.setPc t pc).pc) (hlow : s'.flexLow = s.flexLow) (hq : s'.queried = s.queried)
    (hset : s'.settled = s.settled) : s'.water = s.water := by
  refine water_eq pc hpc ?_ hlow hq hset
  ext u
  split_ifs with hu
  · rw [hu, ← hsame, ← hat]
    rfl
  · rfl

/-- **The loop is the loop of the library.** -/
theorem water_step {s s' : State} (h : Step s s') :
    s'.water = s.water ∨ ∃ l, LowWater.step s.water l = some s'.water := by
  cases h with
  | new t r hpc => exact Or.inl (water_of_out (.noting r) hpc rfl rfl rfl rfl rfl)
  | census t place hpc => exact Or.inl (water_of_out (.querying (.census place)) hpc rfl rfl rfl rfl rfl)
  | note t r pc hpc hor => exact Or.inl (water_of_out pc hpc (by rcases hor with rfl | rfl <;> rfl) rfl rfl rfl rfl)
  | store t r hpc => exact Or.inl (water_of_out (.allocating r) hpc rfl rfl rfl rfl rfl)
  | pointer t r p hpc _ => exact Or.inl (water_of_out .idle hpc rfl rfl rfl rfl rfl)
  | refuse t r hpc => exact Or.inl (water_of_out (.refused r) hpc rfl rfl rfl rfl rfl)
  | silent t r hpc _ => exact Or.inl (water_of_out .idle hpc rfl rfl rfl rfl rfl)
  | announce t r hpc _ => exact Or.inl (water_of_out (.querying (.refusal r)) hpc rfl rfl rfl rfl rfl)
  | query t w rc v hpc => exact Or.inl (water_of_out (.answered w rc v) hpc rfl rfl rfl rfl rfl)
  | failed t w rc v hpc => exact Or.inl (water_of_out (.reporting w { flex := 0 } w.items) hpc rfl rfl rfl rfl rfl)
  | read t w d d' i todo hpc _ _ _ => exact Or.inl (water_of_out (.reporting w d' todo) hpc rfl rfl rfl rfl rfl)
  | print t w d line todo hpc => exact Or.inl (water_of_out (.reporting w d todo) hpc rfl rfl rfl rfl rfl)
  | counted t place d hpc => exact Or.inl (water_of_out .idle hpc rfl rfl rfl rfl rfl)
  | told t r d hpc => exact Or.inl (water_of_out .idle hpc rfl rfl rfl rfl rfl)
  | enter t w rc v hpc =>
    have hout : s.water.pc t = .out := congrArg Pc.water hpc
    exact Or.inr ⟨.enter t v, by
      rw [LowWater.step_enter v hout]
      refine congrArg some (Eq.symm ?_)
      exact water_eq (s := s) (t := t) (.loading w v) rfl rfl rfl rfl rfl⟩
  | load t w v hpc =>
    have hload : s.water.pc t = .loading v := congrArg Pc.water hpc
    exact Or.inr ⟨.load t, by
      rw [LowWater.step_load hload]
      refine congrArg some (Eq.symm ?_)
      exact water_eq (s := s) (t := t) (.trying w v s.flexLow) rfl rfl rfl rfl rfl⟩
  | again t w v low hpc hlt =>
    have htry : s.water.pc t = .trying v low := congrArg Pc.water hpc
    exact Or.inr ⟨.turn t true, by
      rw [LowWater.step_turn true htry, LowWater.turnStep, if_pos hlt, if_neg (by simp)]
      refine congrArg some (Eq.symm ?_)
      exact water_eq (s := s) (t := t) (.trying w v s.flexLow) rfl rfl rfl rfl rfl⟩
  | swap t w v low hpc hlt hcell =>
    have htry : s.water.pc t = .trying v low := congrArg Pc.water hpc
    exact Or.inr ⟨.turn t false, by
      rw [LowWater.step_turn false htry, LowWater.turnStep, if_pos hlt, if_pos ⟨hcell, rfl⟩]
      refine congrArg some (Eq.symm ?_)
      exact water_eq (s := s) (t := t) (.reporting w { flex := v } w.items) rfl rfl rfl rfl rfl⟩
  | settle t w v low hpc hlt =>
    have htry : s.water.pc t = .trying v low := congrArg Pc.water hpc
    exact Or.inr ⟨.turn t false, by
      rw [LowWater.step_turn false htry, LowWater.turnStep, if_neg hlt]
      refine congrArg some (Eq.symm ?_)
      exact water_eq (s := s) (t := t) (.reporting w { flex := v } w.items) rfl rfl rfl rfl rfl⟩

/-- What `flexLow` is at the start. -/
def firstLow (baseline : Option ℕ) : ℕ := baseline.getD (2 ^ 64 - 1)

variable {baseline : Option ℕ} {ls : List Label} {s s' : State}

/-- A step does not raise `flexLow`. -/
theorem flexLow_le_of_step {first : ℕ} (hi : LowWater.Inv first s.water) (h : Step s s') : s'.flexLow ≤ s.flexLow := by
  rcases water_step h with heq | ⟨l, hl⟩
  · exact (congrArg LowWater.State.cell heq).le
  · exact (hi.step hl).2

/-- A step forgets no answer. -/
theorem Step.mem_queried (h : Step s s') {v : ℕ} (hv : v ∈ s.queried) : v ∈ s'.queried := by
  cases h with
  | enter => exact List.mem_cons_of_mem _ hv
  | _ => exact hv

/-! ### The reports -/

/-- A value that `flexLow` has held, and not below what it holds. -/
def State.HasHeld (first : ℕ) (s : State) (v : ℕ) : Prop := (v = first ∨ v ∈ s.queried) ∧ s.flexLow ≤ v

/-- At most the amount that is reported with it, which is 0 when the query has failed. -/
def AtMost (low flex : ℕ) : Prop := low ≤ flex ∨ flex = 0

theorem AtMost.kib {low flex : ℕ} (h : AtMost low flex) : AtMost (low / 1024) (flex / 1024) :=
  h.imp (fun hle => Nat.div_le_div_right hle) fun h0 => by rw [h0, Nat.zero_div]

/-- The low-water mark of the line, if it has one, is right. -/
def Line.Tells (first : ℕ) (s : State) : Line → Prop
  | flexible _ avail _ low _ | refusedFlexible avail _ _ low => (∃ v, s.HasHeld first v ∧ low = v / 1024) ∧ AtMost low avail
  | _ => True

/-- What a thread that reports has: before it loads `flexLow` and after. -/
structure Reporting (first : ℕ) (s : State) (w : Purpose) (d : Locals) (todo : List Item) : Prop where
  suffix : todo <:+ w.items
  below : AtMost s.flexLow d.flex
  low : .loadLow ∈ todo ∨ (s.HasHeld first d.low ∧ AtMost d.low d.flex)

/-- **The reports are right**, those that are under way and those that are printed. -/
structure Reports (first : ℕ) (s : State) : Prop where
  threads : ∀ t w d todo, s.pc t = .reporting w d todo → Reporting first s w d todo
  lines : ∀ line ∈ s.log, line.Tells first s

section Step

variable {first : ℕ} {w : Purpose} {d d' : Locals} {todo : List Item}

theorem State.HasHeld.mono {v : ℕ} (h : s.HasHeld first v) (hle : s'.flexLow ≤ s.flexLow)
    (hq : ∀ v ∈ s.queried, v ∈ s'.queried) : s'.HasHeld first v :=
  ⟨h.1.imp_right (hq v), hle.trans h.2⟩

theorem Line.Tells.mono {line : Line} (h : line.Tells first s) (hle : s'.flexLow ≤ s.flexLow)
    (hq : ∀ v ∈ s.queried, v ∈ s'.queried) : line.Tells first s' := by
  have hheld : ∀ low avail, ((∃ v, s.HasHeld first v ∧ low = v / 1024) ∧ AtMost low avail) →
      (∃ v, s'.HasHeld first v ∧ low = v / 1024) ∧ AtMost low avail :=
    fun _ _ ⟨⟨v, hv, heq⟩, hmost⟩ => ⟨⟨v, hv.mono hle hq, heq⟩, hmost⟩
  cases line with
  | flexible => exact hheld _ _ h
  | refusedFlexible => exact hheld _ _ h
  | _ => trivial

theorem Reporting.mono (h : Reporting first s w d todo) (hle : s'.flexLow ≤ s.flexLow)
    (hq : ∀ v ∈ s.queried, v ∈ s'.queried) : Reporting first s' w d todo where
  suffix := h.suffix
  below := h.below.imp_left hle.trans
  low := h.low.imp_right fun hlow => ⟨hlow.1.mono hle hq, hlow.2⟩

/-- The start of a report. -/
theorem Reporting.start (w : Purpose) (hd : AtMost s.flexLow d.flex) : Reporting first s w d w.items where
  suffix := List.suffix_rfl
  below := hd
  low := by
    left
    cases w <;> simp [Purpose.items]

/-- A thread has loaded something. -/
theorem Reporting.read {i : Item} (h : Reporting first s w d (i :: todo)) (hflex : d'.flex = d.flex)
    (hlow : d'.low = s.flexLow ∨ (d'.low = d.low ∧ i ≠ .loadLow)) (hi : LowWater.Inv first s.water) :
    Reporting first s w d' todo where
  suffix := (List.suffix_cons i todo).trans h.suffix
  below := hflex ▸ h.below
  low := by
    rcases hlow with hcell | ⟨hsame, hne⟩
    · refine Or.inr ⟨⟨?_, hcell.ge⟩, ?_⟩
      · rw [hcell]
        exact hi.origin
      · rw [hcell, hflex]
        exact h.below
    · rw [hsame, hflex]
      exact h.low.imp_left fun hmem => (List.mem_cons.mp hmem).resolve_left fun heq => hne heq.symm

/-- The items that are left when a line is printed: the line tells no low-water mark, or it has been loaded. -/
theorem tells_or_loaded (first : ℕ) (d : Locals) {line : Locals → Line} (h : .print line :: todo <:+ w.items) :
    (∀ s' : State, (line d).Tells first s') ∨ (.loadLow ∉ todo ∧ ∀ s' : State, s'.HasHeld first d.low →
      AtMost d.low d.flex → (line d).Tells first s') := by
  cases w with
  | census place =>
    simp only [Purpose.items, List.suffix_cons_iff, List.suffix_nil, List.cons.injEq, Item.print.injEq, reduceCtorEq,
      false_and, or_false, false_or] at h
    rcases h with ⟨rfl, rfl⟩ | ⟨rfl, rfl⟩ | ⟨rfl, rfl⟩
    · refine Or.inr ⟨by simp, fun s' hheld hmost => ?_⟩
      unfold flexibleLine
      split_ifs
      · trivial
      · exact ⟨⟨_, hheld, rfl⟩, hmost.kib⟩
    · refine Or.inl fun s' => ?_
      unfold directLine
      split_ifs <;> trivial
    · exact Or.inl fun _ => trivial
  | refusal r =>
    simp only [Purpose.items, List.suffix_cons_iff, List.suffix_nil, List.cons.injEq, Item.print.injEq, reduceCtorEq,
      false_and, or_false, false_or] at h
    rcases h with ⟨rfl, rfl⟩ | ⟨rfl, rfl⟩ | ⟨rfl, rfl⟩ | ⟨rfl, rfl⟩
    · exact Or.inl fun _ => trivial
    · exact Or.inr ⟨by simp, fun s' hheld hmost => ⟨⟨_, hheld, rfl⟩, hmost.kib⟩⟩
    · exact Or.inl fun _ => trivial
    · exact Or.inl fun _ => trivial

theorem Reporting.line_tells {line : Locals → Line} (h : Reporting first s w d (.print line :: todo)) :
    (line d).Tells first s := by
  rcases tells_or_loaded first d h.suffix with hno | ⟨hnot, hyes⟩
  · exact hno s
  · have hlow := h.low.resolve_left fun hmem => (List.mem_cons.mp hmem).elim (fun heq => by cases heq) hnot
    exact hyes s hlow.1 hlow.2

theorem Reporting.print {line : Locals → Line} (h : Reporting first s w d (.print line :: todo)) :
    Reporting first s w d todo where
  suffix := (List.suffix_cons _ todo).trans h.suffix
  below := h.below
  low := h.low.imp_left fun hmem => (List.mem_cons.mp hmem).resolve_left fun heq => by cases heq

/-- One thread goes on. -/
theorem threads_setPc {t : ℕ} {pc : Pc}
    (hold : ∀ u w d todo, s.pc u = .reporting w d todo → Reporting first s' w d todo)
    (hnew : ∀ w d todo, pc = .reporting w d todo → Reporting first s' w d todo) (u : ℕ) (w : Purpose) (d : Locals)
    (todo : List Item) (h : (s.setPc t pc).pc u = .reporting w d todo) : Reporting first s' w d todo := by
  rw [State.setPc_pc] at h
  split_ifs at h
  · exact hnew w d todo h
  · exact hold u w d todo h

end Step

/-- **One step.** -/
theorem Reports.step {first : ℕ} (h : Reports first s) (hi : LowWater.Inv first s.water) (hst : Step s s') :
    Reports first s' := by
  have hle := flexLow_le_of_step hi hst
  have hq : ∀ v ∈ s.queried, v ∈ s'.queried := fun _ => hst.mem_queried
  have hold : ∀ u w d todo, s.pc u = .reporting w d todo → Reporting first s' w d todo :=
    fun u w d todo hu => (h.threads u w d todo hu).mono hle hq
  have hlines : ∀ line ∈ s.log, line.Tells first s' := fun line hl => (h.lines line hl).mono hle hq
  -- A thread reports after the steps that end `flexAvailable`, and goes on reporting after a read and a print.
  cases hst with
  | failed t w rc v hpc =>
    refine ⟨threads_setPc hold fun w' d todo heq => ?_, hlines⟩
    obtain ⟨rfl, rfl, rfl⟩ := Pc.reporting.inj heq
    exact Reporting.start w (Or.inr rfl)
  | swap t w v low hpc hlt hcell =>
    refine ⟨threads_setPc hold fun w' d todo heq => ?_, hlines⟩
    obtain ⟨rfl, rfl, rfl⟩ := Pc.reporting.inj heq
    exact Reporting.start w (Or.inl le_rfl)
  | settle t w v low hpc hnot =>
    refine ⟨threads_setPc hold fun w' d todo heq => ?_, hlines⟩
    obtain ⟨rfl, rfl, rfl⟩ := Pc.reporting.inj heq
    have hread := hi.read t v low (congrArg Pc.water hpc)
    exact Reporting.start w (Or.inl (hread.trans (not_lt.mp hnot)))
  | read t w d d' i todo hpc hprint hflex hlow =>
    refine ⟨threads_setPc hold fun w' e todo' heq => ?_, hlines⟩
    obtain ⟨rfl, rfl, rfl⟩ := Pc.reporting.inj heq
    exact (h.threads t w d (i :: todo) hpc).read hflex hlow hi |>.mono hle hq
  | print t w d line todo hpc =>
    have hrep := h.threads t w d _ hpc
    refine ⟨threads_setPc hold fun w' e todo' heq => ?_, List.forall_mem_cons.mpr ⟨hrep.line_tells.mono hle hq, hlines⟩⟩
    obtain ⟨rfl, rfl, rfl⟩ := Pc.reporting.inj heq
    exact hrep.print.mono hle hq
  | note t r pc hpc hor =>
    refine ⟨threads_setPc hold fun w' d todo heq => ?_, hlines⟩
    rcases hor with rfl | rfl <;> cases heq
  | _ => exact ⟨threads_setPc hold (fun _ _ _ heq => by cases heq), hlines⟩

/-- The loop and the reports. -/
def Sound (first : ℕ) (s : State) : Prop := LowWater.Inv first s.water ∧ Reports first s

theorem Sound.step {first : ℕ} (h : Sound first s) (hst : Step s s') : Sound first s' := by
  refine ⟨?_, h.2.step h.1 hst⟩
  rcases water_step hst with heq | ⟨l', hl'⟩
  · exact heq ▸ h.1
  · exact (h.1.step hl').1

theorem Sound.start (baseline : Option ℕ) : Sound (firstLow baseline) (State.start baseline) := by
  refine ⟨LowWater.Inv.start _, ?_, ?_⟩
  · intro t w d todo hpc
    cases hpc
  · intro line hl
    cases hl

/-- **The reports.** -/
theorem sound_of_reaches (h : Reaches baseline ls s) : Sound (firstLow baseline) s :=
  Lts.Run.preserves (fun _ _ _ hu hst => hu.step (step_cases hst)) h (Sound.start baseline)

/-- No thread is in the loop of `flexAvailable`. -/
def State.NoLoop (s : State) : Prop := ∀ t, (s.pc t).water = .out

/-- **The low-water mark**, at any point of any run of any number of threads. -/
theorem lowWater_spec (baseline : Option ℕ) (ls : List Label) (s : State) (h : Reaches baseline ls s) :
    (s.flexLow = firstLow baseline ∨ s.flexLow ∈ s.queried) ∧ (∀ v ∈ s.settled, s.flexLow ≤ v) ∧
      (s.NoLoop → IsLeast (insert (firstLow baseline) {v | v ∈ s.queried}) s.flexLow) ∧
      ∀ line ∈ s.log, line.Tells (firstLow baseline) s := by
  obtain ⟨hi, hrep⟩ := sound_of_reaches h
  exact ⟨hi.origin, hi.below, hi.isLeast, hrep.lines⟩

/-- Two threads take the census; the swap of the second one fails after that of the first. -/
def race : List Label :=
  [.memCensus 1 "a", .memCensus 2 "b", .query 1 0 8192, .query 2 0 4096, .storeErr 1, .storeErr 2, .loadLow 1, .loadLow 2,
    .turn 1 false, .turn 2 false, .turn 2 false, .item 1 0 0 0, .item 1 0 0 0, .item 1 0 0 0, .item 1 0 0 0, .item 1 0 0 0]

theorem lowWater_spec_race : ∃ s, Reaches none race s ∧ s.flexLow = 4096 ∧ s.log = [.flexible "a" 8 0 4 (-8)] ∧
    ∀ line ∈ s.log, line.Tells (firstLow none) s := by
  have hexec : (Lts.exec step (State.start none) race).any
      (fun s => s.flexLow = 4096 ∧ s.log = [.flexible "a" 8 0 4 (-8)]) = true := by decide +kernel
  obtain ⟨s, hrun, hp⟩ := Lts.exists_run_of_exec hexec
  rw [decide_eq_true_eq] at hp
  exact ⟨s, hrun, hp.1, hp.2, (lowWater_spec none race s hrun).2.2.2⟩

end OrbisCompat.Mem
