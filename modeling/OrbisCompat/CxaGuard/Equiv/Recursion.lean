import OrbisCompat.CxaGuard.Equiv.ExactlyOnce
import OrbisCompat.CxaGuard.Equiv.Owners

/-!
# Recursion is reported, and nothing else is

The owner table records some of the threads inside an initializer, never a wrong one: an entry is made
when the guard becomes pending and cleared when it ceases to be (`Recorded`).  When the threads that live
at the same time read different values at `%fs:0`, an entry therefore names its thread, and
`owner_is_self` answers yes for the very thread that is initializing the guard, and for it whenever the
guard has an entry.  A guard that found the table full has none; then its thread waits.
-/

namespace OrbisCompat.CxaGuard

open Once (Inside)

/-- A thread that starts reads a value at `%fs:0` that is not zero and that no living thread reads. -/
def DistinctAnchors (anchor : ℕ → ℕ) (s : State) : Label → Prop
  | .start t => anchor t ≠ 0 ∧ ∀ u ∈ s.live, anchor u ≠ anchor t
  | _ => True

instance (anchor : ℕ → ℕ) (s : State) (l : Label) : Decidable (DistinctAnchors anchor s l) := by
  unfold DistinctAnchors
  split <;> infer_instance

/-- The living threads can be told apart, and nobody else is at work. -/
structure Named (anchor : ℕ → ℕ) (s : State) : Prop where
  nonzero : ∀ t ∈ s.live, anchor t ≠ 0
  injective : ∀ t ∈ s.live, ∀ u ∈ s.live, anchor t = anchor u → t = u
  idle : ∀ t, t ∉ s.live → s.pc t = .idle ∧ s.holds t = []

namespace Named

variable {anchor : ℕ → ℕ} {s s' : State} {t : ℕ} {g : Guard}

theorem mem_live_of_pc (h : Named anchor s) (ht : s.pc t ≠ .idle) : t ∈ s.live := by
  by_contra hlive
  exact ht (h.idle t hlive).1

theorem mem_live_of_holds (h : Named anchor s) (ht : g ∈ s.holds t) : t ∈ s.live := by
  by_contra hlive
  rw [(h.idle t hlive).2] at ht
  cases ht

/-- A living thread does something, and the idle ones stay idle. -/
theorem move (h : Named anchor s) (ht : t ∈ s.live) (hlive : s'.live = s.live)
    (hpc : ∀ u, u ≠ t → s.pc u = .idle → s'.pc u = .idle)
    (hholds : ∀ u, u ≠ t → s'.holds u = s.holds u) : Named anchor s' := by
  constructor
  · rw [hlive]
    exact h.nonzero
  · rw [hlive]
    exact h.injective
  · intro u hu
    rw [hlive] at hu
    have hut : u ≠ t := by
      rintro rfl
      exact hu ht
    obtain ⟨hidle, hnil⟩ := h.idle u hu
    exact ⟨hpc u hut hidle, (hholds u hut).trans hnil⟩

theorem setPc (h : Named anchor s) (ht : t ∈ s.live) (pc : Pc) : Named anchor (s.setPc t pc) := by
  apply h.move ht
  · rfl
  · intro u hu hidle
    rw [State.setPc_pc, if_neg hu]
    exact hidle
  · exact fun _ _ => rfl

theorem start (h : Named anchor s) (ht : anchor t ≠ 0) (hne : ∀ u ∈ s.live, anchor u ≠ anchor t) :
    Named anchor { s with live := t :: s.live } := by
  constructor
  · intro u hu
    rcases List.mem_cons.mp hu with rfl | hu
    · exact ht
    · exact h.nonzero u hu
  · intro u hu v hv heq
    rcases List.mem_cons.mp hu with hut | hu <;> rcases List.mem_cons.mp hv with hvt | hv
    · rw [hut, hvt]
    · rw [hut] at heq
      exact absurd heq.symm (hne v hv)
    · rw [hvt] at heq
      exact absurd heq (hne u hu)
    · exact h.injective u hu v hv heq
  · exact fun u hu => h.idle u fun hmem => hu (List.mem_cons_of_mem _ hmem)

theorem exit (h : Named anchor s) (hpc : s.pc t = .idle) (hholds : s.holds t = []) :
    Named anchor { s with live := s.live.filter (· ≠ t) } := by
  have hsub : ∀ u, u ∈ s.live.filter (· ≠ t) → u ∈ s.live := fun _ hu => List.mem_of_mem_filter hu
  refine ⟨fun u hu => h.nonzero u (hsub u hu),
    fun u hu v hv => h.injective u (hsub u hu) v (hsub v hv), fun u hu => ?_⟩
  by_cases hut : u = t
  · rw [hut]
    exact ⟨hpc, hholds⟩
  · exact h.idle u fun hmem => hu (List.mem_filter.mpr ⟨hmem, by simpa using hut⟩)

theorem step (h : Named anchor s) {l : Label} (hok : DistinctAnchors anchor s l)
    (hs : CxaGuard.step anchor s l = some s') : Named anchor s' := by
  cases l with
  | start t =>
    obtain ⟨-, rfl⟩ := start_cases hs
    exact h.start hok.1 hok.2
  | exit t =>
    obtain ⟨hpc, hholds, rfl⟩ := exit_cases hs
    exact h.exit hpc hholds
  | acquire t g =>
    obtain ⟨hlive, -, rfl⟩ := acquire_cases hs
    exact h.setPc hlive _
  | turn t parks =>
    obtain ⟨g, hpc, hturn⟩ := turn_cases hs
    have ht : t ∈ s.live := h.mem_live_of_pc (by rw [hpc]; exact nofun)
    cases hturn with
    | initialized =>
      have hidle := h.setPc ht .idle
      exact ⟨hidle.nonzero, hidle.injective, hidle.idle⟩
    | mine =>
      apply h.move ht
      · rfl
      · intro u hu hidle
        exact (if_neg hu).trans hidle
      · exact fun u hu => if_neg hu
    | recursion => exact h.setPc ht _
    | wait =>
      have hwait := h.setPc ht (if parks then .parked g else .trying g)
      exact ⟨hwait.nonzero, hwait.injective, hwait.idle⟩
  | release t g | abort t g =>
    obtain ⟨hheld, hleave⟩ : g ∈ s.holds t ∧ LeaveAt s t g s' := by
      first
      | exact (release_cases hs).2
      | exact (abort_cases hs).2
    apply h.move (h.mem_live_of_holds hheld)
    · cases hleave <;> rfl
    · intro u hu hidle
      cases hleave <;> exact (if_neg hu).trans hidle
    · intro u hu
      cases hleave <;> exact if_neg hu
  | broadcast t =>
    obtain ⟨⟨g, hpc⟩, rfl⟩ := broadcast_cases hs
    apply h.move (h.mem_live_of_pc (t := t) (by rw [hpc]; exact nofun))
    · rfl
    · intro u hu hidle
      rw [State.setPc_pc, if_neg hu, State.broadcast_pc, hidle]
      rfl
    · exact fun _ _ => rfl
  | spurious t =>
    obtain ⟨g, hpc, rfl⟩ := spurious_cases hs
    exact h.setPc (h.mem_live_of_pc (by rw [hpc]; exact nofun)) _

end Named

/-- **The invariant.** -/
structure Recorded (anchor : ℕ → ℕ) (s : State) : Prop where
  distinct : s.mem.owners.Distinct
  owner : ∀ i g, (s.mem.owners i).guard = some g →
    ∃ t, g ∈ s.holds t ∧ (s.mem.owners i).owner = anchor t
  reporting : ∀ t g, s.pc t = .reporting g → g ∈ s.holds t
  parked : ∀ t g, s.pc t = .parked g → g ∈ s.holds t → ∀ i, (s.mem.owners i).guard ≠ some g

namespace Recorded

variable {anchor : ℕ → ℕ} {s s' : State} {t : ℕ} {g : Guard}

theorem setPc (h : Recorded anchor s) {pc : Pc} (hreport : ∀ g, pc = .reporting g → g ∈ s.holds t)
    (hpark : ∀ g, pc = .parked g → g ∈ s.holds t → ∀ i, (s.mem.owners i).guard ≠ some g) :
    Recorded anchor (s.setPc t pc) := by
  refine ⟨h.distinct, h.owner, fun u g hu => ?_, fun u g hu => ?_⟩ <;> rw [State.setPc_pc] at hu <;>
    split_ifs at hu with hut
  · rw [hut]
    exact hreport g hu
  · exact h.reporting u g hu
  · rw [hut]
    exact hpark g hu
  · exact h.parked u g hu

/-- The table is as it was, whatever the flags of the guards. -/
theorem setMem (h : Recorded anchor s) {m : Memory} (hm : m.owners = s.mem.owners) :
    Recorded anchor (s.setMem m) := by
  constructor
  · rw [State.setMem_mem, hm]
    exact h.distinct
  · rw [State.setMem_mem, hm]
    exact h.owner
  · exact h.reporting
  · rw [State.setMem_mem, hm]
    exact h.parked

/-- **A guard becomes pending**: the new entry is of a guard that nobody has acquired. -/
theorem claim (h : Recorded anchor s) (hnone : ∀ u, g ∉ s.holds u) :
    Recorded anchor ((((s.setMem (s.mem.claim g (anchor t))).setPc t .idle).setHolds t
      (g :: s.holds t)).record (.enter t g)) := by
  have hentry := s.mem.owners.ownerSet_apply g (anchor t)
  have hnew : ∀ i, (s.mem.owners i).guard ≠ some g := by
    intro i hi
    obtain ⟨u, hu, -⟩ := h.owner i g hi
    exact hnone u hu
  have hholds : ∀ u g', g' ∈ s.holds u → g' ∈ if u = t then g :: s.holds t else s.holds u := by
    intro u g' hg'
    split_ifs with hu
    · rw [hu] at hg'
      exact List.mem_cons_of_mem _ hg'
    · exact hg'
  refine ⟨Owners.distinct_ownerSet h.distinct hnew, fun i g' hi => ?_, fun u g' hu => ?_,
    fun u g' hu hheld i hi => ?_⟩
  · rcases hentry i with hsame | ⟨-, hset⟩
    · have hi : (s.mem.owners.ownerSet g (anchor t) i).guard = some g' := hi
      rw [hsame] at hi
      obtain ⟨u, hu, howner⟩ := h.owner i g' hi
      exact ⟨u, hholds u g' hu, (congrArg Entry.owner hsame).trans howner⟩
    · obtain rfl : g = g' := Option.some.inj ((congrArg Entry.guard hset).symm.trans hi)
      refine ⟨t, ?_, congrArg Entry.owner hset⟩
      show g ∈ if t = t then g :: s.holds t else s.holds t
      rw [if_pos rfl]
      exact List.mem_cons_self
  · have hu : (if u = t then Pc.idle else s.pc u) = .reporting g' := hu
    split_ifs at hu
    exact hholds u g' (h.reporting u g' hu)
  · have hu : (if u = t then Pc.idle else s.pc u) = .parked g' := hu
    split_ifs at hu with hut
    have hheld : g' ∈ if u = t then g :: s.holds t else s.holds u := hheld
    rw [if_neg hut] at hheld
    rcases hentry i with hsame | ⟨-, hset⟩
    · exact h.parked u g' hu hheld i ((congrArg Entry.guard hsame).symm.trans hi)
    · obtain rfl : g = g' := Option.some.inj ((congrArg Entry.guard hset).symm.trans hi)
      exact hnone u hheld

/-- **A guard ceases to be pending**: its entry, if it has one, goes. -/
theorem leave (h : Recorded anchor s) {r : Memory × Bool} (e : Event)
    (hr : r.1.owners = s.mem.owners.ownerClear g) : Recorded anchor (leaveStep s t g r e) := by
  have hpc : ∀ u, (leaveStep s t g r e).pc u =
      if u = t then (if r.2 then .waking g else .idle) else s.pc u := fun _ => rfl
  have howners : (leaveStep s t g r e).mem.owners = s.mem.owners.ownerClear g := hr
  have hclear : ∀ i g', ((s.mem.owners.ownerClear g) i).guard = some g' → g' ≠ g ∧
      (s.mem.owners.ownerClear g) i = s.mem.owners i ∧ (s.mem.owners i).guard = some g' := by
    intro i g' hi
    rw [Owners.ownerClear_apply h.distinct] at hi ⊢
    split_ifs at hi ⊢ with hg
    refine ⟨?_, rfl, hi⟩
    rintro rfl
    exact hg hi
  refine ⟨?_, fun i g' hi => ?_, fun u g' hu => ?_, fun u g' hu hheld i hi => ?_⟩
  · rw [howners]
    exact Owners.distinct_ownerClear h.distinct
  · rw [howners] at hi ⊢
    obtain ⟨hne, hsame, hi⟩ := hclear i g' hi
    obtain ⟨u, hu, howner⟩ := h.owner i g' hi
    refine ⟨u, ?_, (congrArg Entry.owner hsame).trans howner⟩
    show g' ∈ if u = t then (s.holds t).erase g else s.holds u
    split_ifs with hut
    · rw [List.mem_erase_of_ne hne, ← hut]
      exact hu
    · exact hu
  · rw [hpc] at hu
    split_ifs at hu with hut
    show g' ∈ if u = t then (s.holds t).erase g else s.holds u
    rw [if_neg hut]
    exact h.reporting u g' hu
  · rw [hpc] at hu
    split_ifs at hu with hut
    rw [howners] at hi
    have hheld : g' ∈ if u = t then (s.holds t).erase g else s.holds u := hheld
    rw [if_neg hut] at hheld
    exact h.parked u g' hu hheld i (hclear i g' hi).2.2

/-- A recorded owner that is inside is the thread that the entry names. -/
theorem ownerIsSelf_of_mem (h : Recorded anchor s) (hn : Named anchor s) (ht : Told s) {i : Fin owners}
    (hi : (s.mem.owners i).guard = some g) (hheld : g ∈ s.holds t) :
    s.mem.owners.ownerIsSelf g (anchor t) = true := by
  have hnonzero := hn.nonzero t (hn.mem_live_of_holds hheld)
  obtain ⟨u, hu, howner⟩ := h.owner i g hi
  obtain ⟨p, hstory, -⟩ := ht.story g
  obtain rfl := hstory.inside_unique (ht.mem_holds_iff.mp hu) (ht.mem_holds_iff.mp hheld)
  rw [Owners.ownerIsSelf_eq h.distinct hi hnonzero, howner]
  exact beq_self_eq_true _

/-- Whom `owner_is_self` recognizes is inside. -/
theorem mem_of_ownerIsSelf (h : Recorded anchor s) (hn : Named anchor s) (hlive : t ∈ s.live)
    (hself : s.mem.owners.ownerIsSelf g (anchor t) = true) : g ∈ s.holds t := by
  obtain ⟨i, hi, howner⟩ := Owners.exists_of_ownerIsSelf hself
  obtain ⟨u, hu, howner'⟩ := h.owner i g hi
  obtain rfl := hn.injective t hlive u (hn.mem_live_of_holds hu) (howner.symm.trans howner')
  exact hu

theorem turnAt {parks : Bool} (h : Recorded anchor s) (hn : Named anchor s) (ht : Told s)
    (hpc : s.pc t = .trying g) (hs : TurnAt anchor s t parks g s') : Recorded anchor s' := by
  cases hs with
  | initialized =>
    have hidle : Recorded anchor (s.setPc t .idle) := h.setPc nofun nofun
    exact ⟨hidle.distinct, hidle.owner, hidle.reporting, hidle.parked⟩
  | mine hdone hpending =>
    obtain ⟨p, -, hmatch⟩ := ht.story g
    obtain rfl := hmatch.eq_untouched hdone hpending
    exact h.claim hmatch.2.2
  | recursion _ _ hself =>
    refine h.setPc (fun g' hg' => ?_) nofun
    obtain rfl := Pc.reporting.inj hg'
    exact h.mem_of_ownerIsSelf hn (hn.mem_live_of_pc (by rw [hpc]; exact nofun)) hself
  | wait _ _ hself =>
    refine (h.setMem (m := s.mem.await g) rfl).setPc (fun g' hg' => ?_) fun g' hg' hheld i hi => ?_
    · split_ifs at hg'
    · obtain rfl : g = g' := by
        split_ifs at hg'
        exact Pc.parked.inj hg'
      have hself' := h.ownerIsSelf_of_mem hn ht hi hheld
      rw [hself] at hself'
      cases hself'

theorem leaveAt (h : Recorded anchor s) (hs : LeaveAt s t g s') : Recorded anchor s' := by
  cases hs with
  | release => exact h.leave _ (Memory.releaseLocked_owners _ _)
  | abort => exact h.leave _ (Memory.abortLocked_owners _ _)

/-- **Every step keeps the invariant.** -/
theorem step (h : Recorded anchor s) (hn : Named anchor s) (ht : Told s) {l : Label}
    (hs : CxaGuard.step anchor s l = some s') : Recorded anchor s' := by
  cases l with
  | start t =>
    obtain ⟨-, rfl⟩ := start_cases hs
    exact ⟨h.distinct, h.owner, h.reporting, h.parked⟩
  | exit t =>
    obtain ⟨-, -, rfl⟩ := exit_cases hs
    exact ⟨h.distinct, h.owner, h.reporting, h.parked⟩
  | acquire t g =>
    obtain ⟨-, -, rfl⟩ := acquire_cases hs
    exact h.setPc nofun nofun
  | turn t parks =>
    obtain ⟨g, hpc, hturn⟩ := turn_cases hs
    exact h.turnAt hn ht hpc hturn
  | release t g =>
    obtain ⟨-, -, hleave⟩ := release_cases hs
    exact h.leaveAt hleave
  | abort t g =>
    obtain ⟨-, -, hleave⟩ := abort_cases hs
    exact h.leaveAt hleave
  | broadcast t =>
    obtain ⟨-, rfl⟩ := broadcast_cases hs
    have hall : Recorded anchor s.broadcast := by
      refine ⟨h.distinct, h.owner, fun u g hu => ?_, fun u g hu => ?_⟩ <;>
        rw [State.broadcast_pc] at hu <;> cases hpc : s.pc u <;> rw [hpc] at hu <;> cases hu
      exact h.reporting u g hpc
    exact hall.setPc nofun nofun
  | spurious t =>
    obtain ⟨g, -, rfl⟩ := spurious_cases hs
    exact h.setPc nofun nofun

end Recorded

end OrbisCompat.CxaGuard
