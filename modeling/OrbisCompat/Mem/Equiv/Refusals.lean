import OrbisCompat.Mem.Equiv.Census
import Mathlib.Data.List.Perm.Subperm

/-!
# `src/orbis_mem.cpp`: the refusals that are announced

`announceOom` counts the refusals in an `int` and is silent from the ninth on.  Refusals meet in any order and their
reports interleave line by line.

* `passed`: the refusals that get past the counter, which wraps; the first eight of them up to `2 ^ 31`
  (`passed_of_le`);
* `Told`: every refusal that is past the counter has its first line on the log, or a thread that is going to print it;
* `refusals_spec`: the first lines on the log are those of the first eight refusals, each once.
-/

namespace OrbisCompat.Mem

/-- The refused requests, newest first, that get past the `fetch_add`. -/
def passed : List Request → List Request
  | [] => []
  | r :: rs => if Word32.toInt (rs.length % 2 ^ 32) ≥ 8 then passed rs else r :: passed rs

theorem toInt_mod_of_lt {n : ℕ} (h : n < 2 ^ 31) : Word32.toInt (n % 2 ^ 32) = n := by
  have hmod : n % 2 ^ 32 = n := Nat.mod_eq_of_lt (by omega)
  rw [hmod, Word32.toInt, if_pos h]

/-- Up to `2 ^ 31` refusals the first eight pass. -/
theorem passed_of_le {rs : List Request} (h : rs.length ≤ 2 ^ 31) : (passed rs).reverse = rs.reverse.take 8 := by
  induction rs with
  | nil => simp [passed]
  | cons r rs ih =>
    rw [List.length_cons] at h
    have hlt : rs.length < 2 ^ 31 := by omega
    have hold := ih hlt.le
    rw [passed, toInt_mod_of_lt hlt, List.reverse_cons, List.take_append, List.length_reverse]
    split_ifs with hge
    · rw [hold, show 8 - rs.length = 0 by omega, List.take_zero, List.append_nil]
    · rw [List.reverse_cons, hold, List.take_of_length_le (l := [r])]
      show 1 ≤ 8 - rs.length
      omega

/-! ### The first lines -/

/-- What the first line of a report of a refusal prints. -/
def Request.header (r : Request) : ℕ × ℕ := (r.size, r.align.getD 0)

/-- The line is the first one of a report of a refusal. -/
def Line.header : Line → Option (ℕ × ℕ)
  | refused want align => some (want, align)
  | _ => none

/-- What prints it. -/
def headline (r : Request) : Item := .print fun _ => .refused r.size (r.align.getD 0)

/-- The thread is going to print it. -/
def Pc.Owes (r : Request) : Pc → Prop
  | querying w | answered w _ _ | loading w _ | trying w _ _ => w = .refusal r
  | reporting w _ todo => w = .refusal r ∧ headline r ∈ todo
  | _ => False

theorem owes_items (w : Purpose) (d : Locals) (r : Request) : (Pc.reporting w d w.items).Owes r ↔ w = .refusal r := by
  refine and_iff_left_of_imp ?_
  rintro rfl
  simp [Purpose.items, headline]

theorem owes_read {w : Purpose} {d d' : Locals} {i : Item} {todo : List Item} (hi : ∀ line, i ≠ .print line) (r : Request) :
    (Pc.reporting w d (i :: todo)).Owes r ↔ (Pc.reporting w d' todo).Owes r := by
  have hne : headline r ≠ i := fun heq => hi _ heq.symm
  show _ ∧ _ ↔ _ ∧ _
  rw [List.mem_cons, or_iff_right hne]

/-- A line that a thread prints is the first one of its refusal, and the thread owes it no more, or it is no first line. -/
theorem owes_print {w : Purpose} {d : Locals} {line : Locals → Line} {todo : List Item}
    (h : .print line :: todo <:+ w.items) :
    (∃ r, w = .refusal r ∧ (line d).header = some r.header ∧ (Pc.reporting w d (.print line :: todo)).Owes r ∧
      ∀ r', ¬ (Pc.reporting w d todo).Owes r') ∨
    ((line d).header = none ∧ ∀ r, (Pc.reporting w d (.print line :: todo)).Owes r ↔ (Pc.reporting w d todo).Owes r) := by
  cases w with
  | census place =>
    refine Or.inr ⟨?_, fun r => by simp [Pc.Owes]⟩
    simp only [Purpose.items, List.suffix_cons_iff, List.suffix_nil, List.cons.injEq, Item.print.injEq, reduceCtorEq,
      false_and, or_false, false_or] at h
    rcases h with ⟨rfl, -⟩ | ⟨rfl, -⟩ | ⟨rfl, -⟩
    · unfold flexibleLine
      split_ifs <;> rfl
    · unfold directLine
      split_ifs <;> rfl
    · rfl
  | refusal r =>
    -- The other lines are not the first one, which tells them apart as functions of the locals.
    have hother : ∀ (line : Locals → Line) (todo : List Item), (∀ d, (line d).header = none) →
        ∀ r', (Pc.reporting (.refusal r) d (.print line :: todo)).Owes r' ↔ (Pc.reporting (.refusal r) d todo).Owes r' := by
      intro line todo hnone r'
      have hne : headline r' ≠ .print line := by
        intro heq
        have := hnone d
        rw [← Item.print.inj heq] at this
        cases this
      show _ ∧ _ ↔ _ ∧ _
      rw [List.mem_cons, or_iff_right hne]
    simp only [Purpose.items, List.suffix_cons_iff, List.suffix_nil, List.cons.injEq, Item.print.injEq, reduceCtorEq,
      false_and, or_false, false_or] at h
    rcases h with ⟨rfl, rfl⟩ | ⟨rfl, rfl⟩ | ⟨rfl, rfl⟩ | ⟨rfl, rfl⟩
    · refine Or.inl ⟨r, rfl, rfl, ⟨rfl, List.mem_cons_self⟩, fun r' howes => ?_⟩
      have hmem := howes.2
      simp only [headline, List.mem_cons, Item.print.injEq, reduceCtorEq, false_or, List.not_mem_nil, or_false] at hmem
      rcases hmem with heq | heq | heq <;> cases congrFun heq d
    · exact Or.inr ⟨rfl, hother _ _ fun _ => rfl⟩
    · exact Or.inr ⟨rfl, hother _ _ fun _ => rfl⟩
    · exact Or.inr ⟨rfl, hother _ _ fun _ => rfl⟩

/-! ### The invariant -/

/-- The first lines on the log and those that are owed are those of the refusals past the counter. -/
def Balanced (s : State) : Prop :=
  ∃ owed : List (ℕ × Request), owed.Nodup ∧ (∀ t r, (t, r) ∈ owed ↔ (s.pc t).Owes r) ∧
    (s.log.filterMap Line.header ++ owed.map (·.2.header)).Perm (s.announced.map Request.header)

/-- **The account of the refusals.** -/
structure Told (s : State) : Prop where
  count : s.oomAnnounced = s.refusals.length % 2 ^ 32
  announced : s.announced = passed s.refusals
  balanced : Balanced s
  results : ∀ p ∈ s.results, (∃ q, q ≠ 0 ∧ p.2 = .pointer q) ∨ p.2 = p.1.refused

variable {s s' : State} {t : ℕ}

/-- A thread goes on that owes what it owed. -/
theorem Balanced.go_on (h : Balanced s) (pc : Pc) (hpc : s'.pc = (s.setPc t pc).pc)
    (howes : ∀ r, (s.pc t).Owes r ↔ pc.Owes r) (hlog : s'.log.filterMap Line.header = s.log.filterMap Line.header)
    (hann : s'.announced = s.announced) : Balanced s' := by
  obtain ⟨owed, hnodup, hmem, hperm⟩ := h
  refine ⟨owed, hnodup, fun u r => ?_, by rwa [hlog, hann]⟩
  rw [hmem, hpc, State.setPc_pc]
  split_ifs with hu
  · rw [hu, howes]
  · rfl

/-- A refusal gets past the counter. -/
theorem Balanced.announce {r : Request} (h : Balanced s) (pc : Pc) (hpc : s'.pc = (s.setPc t pc).pc)
    (hbefore : ∀ r', ¬ (s.pc t).Owes r') (hafter : ∀ r', pc.Owes r' ↔ r' = r) (hlog : s'.log = s.log)
    (hann : s'.announced = r :: s.announced) : Balanced s' := by
  obtain ⟨owed, hnodup, hmem, hperm⟩ := h
  have hnew : (t, r) ∉ owed := fun hin => hbefore r ((hmem t r).mp hin)
  refine ⟨(t, r) :: owed, List.nodup_cons.mpr ⟨hnew, hnodup⟩, fun u r' => ?_, ?_⟩
  · rw [List.mem_cons, Prod.mk.injEq, hmem, hpc, State.setPc_pc]
    split_ifs with hu
    · rw [hafter, hu]
      simp [hbefore r']
    · simp [hu]
  · rw [hlog, hann, List.map_cons, List.map_cons]
    exact List.perm_middle.trans (hperm.cons _)

/-- A first line is printed. -/
theorem Balanced.print {r : Request} {line : Line} (h : Balanced s) (pc : Pc) (hpc : s'.pc = (s.setPc t pc).pc)
    (hbefore : ∀ r', (s.pc t).Owes r' ↔ r' = r) (hafter : ∀ r', ¬ pc.Owes r') (hline : line.header = some r.header)
    (hlog : s'.log = line :: s.log) (hann : s'.announced = s.announced) : Balanced s' := by
  obtain ⟨owed, hnodup, hmem, hperm⟩ := h
  have hin : (t, r) ∈ owed := (hmem t r).mpr ((hbefore r).mpr rfl)
  refine ⟨owed.erase (t, r), hnodup.erase _, fun u r' => ?_, ?_⟩
  · rw [hnodup.mem_erase_iff, hmem, hpc, State.setPc_pc]
    split_ifs with hu
    · rw [hu, hbefore]
      simp only [ne_eq, Prod.mk.injEq, true_and, not_and_self, hafter]
    · simp [hu]
  · rw [hlog, hann, List.filterMap_cons_some hline]
    refine List.Perm.trans ?_ hperm
    have herase : (owed.map (·.2.header)).Perm (r.header :: (owed.erase (t, r)).map (·.2.header)) :=
      (List.perm_cons_erase hin).map (·.2.header)
    exact List.perm_middle.symm.trans (herase.symm.append_left _)

/-- The thread goes on within its report, or outside all reports. -/
theorem owes_congr {p pc : Pc} {r : Request} (hat : s.pc t = p) (hiff : p.Owes r ↔ pc.Owes r) :
    (s.pc t).Owes r ↔ pc.Owes r := by rw [hat, hiff]

/-- A step keeps the balance. -/
theorem Balanced.step {first : ℕ} (h : Balanced s) (hrep : Reports first s) (hst : Step s s') : Balanced s' := by
  cases hst with
  | new t r hpc => exact h.go_on (.noting r) rfl (fun _ => owes_congr hpc Iff.rfl) rfl rfl
  | census t place hpc =>
    exact h.go_on _ rfl (fun _ => owes_congr hpc ⟨False.elim, fun heq => by cases heq⟩) rfl rfl
  | note t r pc hpc hor =>
    refine h.go_on _ rfl (fun _ => owes_congr hpc ?_) rfl rfl
    rcases hor with rfl | rfl <;> exact Iff.rfl
  | store t r hpc => exact h.go_on (.allocating r) rfl (fun _ => owes_congr hpc Iff.rfl) rfl rfl
  | pointer t r p hpc _ => exact h.go_on .idle rfl (fun _ => owes_congr hpc Iff.rfl) rfl rfl
  | refuse t r hpc => exact h.go_on _ rfl (fun _ => owes_congr hpc Iff.rfl) rfl rfl
  | silent t r hpc _ => exact h.go_on .idle rfl (fun _ => owes_congr hpc Iff.rfl) rfl rfl
  | announce t r hpc _ =>
    refine h.announce (.querying (.refusal r)) rfl (fun r' howes => ?_) (fun r' => ?_) rfl rfl
    · rw [hpc] at howes
      exact howes
    · show Purpose.refusal r = .refusal r' ↔ r' = r
      rw [Purpose.refusal.injEq, eq_comm]
  | query t w rc v hpc => exact h.go_on _ rfl (fun _ => owes_congr hpc Iff.rfl) rfl rfl
  | failed t w rc v hpc =>
    exact h.go_on (.reporting w { flex := 0 } w.items) rfl (fun r => owes_congr hpc (owes_items w _ r).symm) rfl rfl
  | enter t w rc v hpc => exact h.go_on (.loading w v) rfl (fun _ => owes_congr hpc Iff.rfl) rfl rfl
  | load t w v hpc => exact h.go_on _ rfl (fun _ => owes_congr hpc Iff.rfl) rfl rfl
  | again t w v low hpc _ => exact h.go_on _ rfl (fun _ => owes_congr hpc Iff.rfl) rfl rfl
  | swap t w v low hpc _ _ =>
    exact h.go_on (.reporting w { flex := v } w.items) rfl (fun r => owes_congr hpc (owes_items w _ r).symm) rfl rfl
  | settle t w v low hpc _ =>
    exact h.go_on (.reporting w { flex := v } w.items) rfl (fun r => owes_congr hpc (owes_items w _ r).symm) rfl rfl
  | read t w d d' i todo hpc hi _ _ => exact h.go_on _ rfl (fun r => owes_congr hpc (owes_read hi r)) rfl rfl
  | print t w d line todo hpc =>
    rcases owes_print (d := d) (hrep.threads t w d _ hpc).suffix with ⟨r, rfl, hline, howes, hno⟩ | ⟨hnone, hiff⟩
    · refine h.print (.reporting _ d todo) rfl (fun r' => ?_) hno hline rfl rfl
      rw [hpc]
      constructor
      · intro howes'
        exact (Purpose.refusal.inj howes'.1).symm
      · rintro rfl
        exact howes
    · refine h.go_on (.reporting w d todo) rfl (fun r => owes_congr hpc (hiff r)) ?_ rfl
      exact List.filterMap_cons_none hnone
  | counted t place d hpc =>
    exact h.go_on _ rfl (fun _ => owes_congr hpc ⟨fun howes => (by cases howes.1), False.elim⟩) rfl rfl
  | told t r d hpc =>
    exact h.go_on .idle rfl (fun _ => owes_congr hpc ⟨fun howes => (by cases howes.2), False.elim⟩) rfl rfl

/-- **One step.** -/
theorem Told.step {first : ℕ} (h : Told s) (hrep : Reports first s) (hst : Step s s') : Told s' := by
  have hbal := h.balanced.step hrep hst
  -- The counter and the results change where a refusal is counted and where a call ends.
  cases hst with
  | silent t r hpc hge =>
    refine ⟨?_, ?_, hbal, List.forall_mem_cons.mpr ⟨Or.inr rfl, h.results⟩⟩
    · show (s.oomAnnounced + 1) % 2 ^ 32 = (s.refusals.length + 1) % 2 ^ 32
      rw [h.count]
      omega
    · show s.announced = passed (r :: s.refusals)
      rw [passed, ← h.count, if_pos hge, h.announced]
  | announce t r hpc hlt =>
    refine ⟨?_, ?_, hbal, h.results⟩
    · show (s.oomAnnounced + 1) % 2 ^ 32 = (s.refusals.length + 1) % 2 ^ 32
      rw [h.count]
      omega
    · show r :: s.announced = passed (r :: s.refusals)
      rw [passed, ← h.count, if_neg hlt, h.announced]
  | pointer t r p hpc hp =>
    exact ⟨h.count, h.announced, hbal, List.forall_mem_cons.mpr ⟨Or.inl ⟨p, hp, rfl⟩, h.results⟩⟩
  | told t r d hpc => exact ⟨h.count, h.announced, hbal, List.forall_mem_cons.mpr ⟨Or.inr rfl, h.results⟩⟩
  | _ => exact ⟨h.count, h.announced, hbal, h.results⟩

theorem Told.start (baseline : Option ℕ) : Told (State.start baseline) where
  count := rfl
  announced := rfl
  balanced := ⟨[], List.nodup_nil, fun _ _ => ⟨fun hmem => (by cases hmem), False.elim⟩, List.Perm.refl _⟩
  results _ hp := by cases hp

variable {baseline : Option ℕ} {ls : List Label}

theorem told_of_reaches (h : Reaches baseline ls s) : Told s := by
  have hboth : Sound (firstLow baseline) s ∧ Told s := by
    apply Lts.Run.preserves (P := fun u => Sound (firstLow baseline) u ∧ Told u) _ h ⟨Sound.start _, Told.start _⟩
    intro u l u' hu hst
    exact ⟨hu.1.step (step_cases hst), hu.2.step hu.1.2 (step_cases hst)⟩
  exact hboth.2

/-- **The refusals.**  The first lines of reports on the log are, each once, those of refusals that got past the
counter, and of all of them when every thread is idle; up to `2 ^ 31` refusals these are the first eight.  A call of
`operator new` ends with a pointer that is not null, or as a refused one does. -/
theorem refusals_spec (baseline : Option ℕ) (ls : List Label) (s : State) (h : Reaches baseline ls s) :
    (s.refusals.length ≤ 2 ^ 31 → s.announced.reverse = s.refusals.reverse.take 8) ∧
      (s.log.filterMap Line.header).Subperm (s.announced.map Request.header) ∧
      ((∀ t, s.pc t = .idle) → (s.log.filterMap Line.header).Perm (s.announced.map Request.header)) ∧
      ∀ p ∈ s.results, (∃ q, q ≠ 0 ∧ p.2 = .pointer q) ∨ p.2 = p.1.refused := by
  have htold := told_of_reaches h
  obtain ⟨owed, -, hmem, hperm⟩ := htold.balanced
  refine ⟨fun hle => htold.announced ▸ passed_of_le hle, ?_, fun hidle => ?_, htold.results⟩
  · exact (List.sublist_append_left _ _).subperm.trans hperm.subperm
  · have hnil : owed = [] := by
      refine List.eq_nil_iff_forall_not_mem.mpr fun p hp => ?_
      have howes := (hmem p.1 p.2).mp hp
      rw [hidle] at howes
      exact howes
    rwa [hnil, List.map_nil, List.append_nil] at hperm

/-- A `nothrow` form is refused, and its kernel query fails. -/
def refusal : List Label :=
  [.new 7 ⟨0, some 4, false⟩, .note 7, .alloc 7 ⟨12, 99⟩, .fetchAdd 7, .query 7 5 0, .storeErr 7] ++
    List.replicate 9 (.item 7 0 0 0) ++ [.done 7]

theorem refusals_spec_refusal : ∃ s, Reaches (some 2048) refusal s ∧ s.results = [(⟨0, some 4, false⟩, .null)] ∧
    s.announced.reverse = s.refusals.reverse.take 8 := by
  have hexec : (Lts.exec step (State.start (some 2048)) refusal).any
      (fun s => s.results = [(⟨0, some 4, false⟩, .null)] ∧ s.refusals.length ≤ 2 ^ 31) = true := by decide +kernel
  obtain ⟨s, hrun, hp⟩ := Lts.exists_run_of_exec hexec
  rw [decide_eq_true_eq] at hp
  exact ⟨s, hrun, hp.1, (refusals_spec (some 2048) refusal s hrun).1 hp.2⟩

end OrbisCompat.Mem
