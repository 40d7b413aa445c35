import Mathlib.Order.Bounds.Basic
import Mathlib.Tactic.Common

/-!
# A low-water mark without a lock

Threads lower a cell to the least value any of them has seen.  A thread that has seen `v` loads the cell and then
takes turns: while `v` is below what it last read, it tries to swap `v` in for that value.  The swap may fail
because the cell has changed, or for no reason (it is *weak*); either way the thread then knows what the cell
holds.

The cell never rises, is at most every value whose thread is through, and is a value some thread has seen or the first
one (`Inv`, `Inv.step`).  When no thread is in the loop, it is the least of them (`Inv.isLeast`).
-/

namespace LowWater

variable {T α : Type*} [DecidableEq T] [LinearOrder α]

/-- Where a thread is. -/
inductive Pc (α : Type*)
  | out
  | loading (v : α)
  /-- In the loop, with what it has read of the cell. -/
  | trying (v low : α)
  deriving DecidableEq

/-- The value that a thread is in the loop for. -/
def Pc.value : Pc α → Option α
  | out => none
  | loading v | trying v _ => some v

/-- The cell and the threads.  The last two fields are the values seen so far and those whose threads are through. -/
structure State (T α : Type*) where
  cell : α
  pc : T → Pc α
  seen : List α
  settled : List α

inductive Label (T α : Type*)
  | enter (t : T) (v : α)
  | load (t : T)
  /-- One turn, and whether its swap fails for no reason. -/
  | turn (t : T) (spurious : Bool)

namespace State

@[simps] def setPc (s : State T α) (t : T) (pc : Pc α) : State T α :=
  { s with pc := fun u => if u = t then pc else s.pc u }

/-- The thread is through. -/
@[simps! cell seen settled] def leave (s : State T α) (t : T) (v : α) : State T α :=
  { s.setPc t .out with settled := v :: s.settled }

end State

/-- One turn of the loop. -/
def turnStep (s : State T α) (t : T) (v low : α) (spurious : Bool) : State T α :=
  if v < low then
    if s.cell = low ∧ spurious = false then { s.leave t v with cell := v } else s.setPc t (.trying v s.cell)
  else s.leave t v

def step (s : State T α) : Label T α → Option (State T α)
  | .enter t v => if s.pc t = .out then some { s.setPc t (.loading v) with seen := v :: s.seen } else none
  | .load t =>
    match s.pc t with
    | .loading v => some (s.setPc t (.trying v s.cell))
    | _ => none
  | .turn t spurious =>
    match s.pc t with
    | .trying v low => some (turnStep s t v low spurious)
    | _ => none

theorem step_enter {s : State T α} {t : T} (v : α) (h : s.pc t = .out) :
    step s (.enter t v) = some { s.setPc t (.loading v) with seen := v :: s.seen } := by simp only [step, if_pos h]

theorem step_load {s : State T α} {t : T} {v : α} (h : s.pc t = .loading v) :
    step s (.load t) = some (s.setPc t (.trying v s.cell)) := by simp only [step, h]

theorem step_turn {s : State T α} {t : T} {v low : α} (spurious : Bool) (h : s.pc t = .trying v low) :
    step s (.turn t spurious) = some (turnStep s t v low spurious) := by simp only [step, h]

/-- What a turn leads to. -/
theorem turnStep_cases (s : State T α) (t : T) (v low : α) (spurious : Bool) :
    (v < s.cell ∧ turnStep s t v low spurious = { s.leave t v with cell := v }) ∨
    (low ≤ v ∧ turnStep s t v low spurious = s.leave t v) ∨
    turnStep s t v low spurious = s.setPc t (.trying v s.cell) := by
  unfold turnStep
  split_ifs with hlt hswap
  · exact Or.inl ⟨hswap.1 ▸ hlt, rfl⟩
  · exact Or.inr (Or.inr rfl)
  · exact Or.inr (Or.inl ⟨not_lt.mp hlt, rfl⟩)

/-- What a step leads to. -/
theorem step_cases {s s' : State T α} {l : Label T α} (h : step s l = some s') :
    (∃ t v, s.pc t = .out ∧ s' = { s.setPc t (.loading v) with seen := v :: s.seen }) ∨
    (∃ t v, (s.pc t).value = some v ∧ s' = s.setPc t (.trying v s.cell)) ∨
    (∃ t v low, s.pc t = .trying v low ∧
      ((v < s.cell ∧ s' = { s.leave t v with cell := v }) ∨ (low ≤ v ∧ s' = s.leave t v))) := by
  cases l with
  | enter t v =>
    simp only [step] at h
    split_ifs at h with hout
    exact Or.inl ⟨t, v, hout, (Option.some.inj h).symm⟩
  | load t =>
    simp only [step] at h
    split at h
    · next v hpc => exact Or.inr (Or.inl ⟨t, v, by rw [hpc]; rfl, (Option.some.inj h).symm⟩)
    · cases h
  | turn t spurious =>
    simp only [step] at h
    split at h
    · next v low hpc =>
      obtain rfl := Option.some.inj h
      rcases turnStep_cases s t v low spurious with hswap | hleave | hagain
      · exact Or.inr (Or.inr ⟨t, v, low, hpc, Or.inl hswap⟩)
      · exact Or.inr (Or.inr ⟨t, v, low, hpc, Or.inr hleave⟩)
      · exact Or.inr (Or.inl ⟨t, v, by rw [hpc]; rfl, hagain⟩)
    · cases h

/-- **What the loop keeps**, `first` being what the cell held at first. -/
structure Inv (first : α) (s : State T α) : Prop where
  below : ∀ v ∈ s.settled, s.cell ≤ v
  le_first : s.cell ≤ first
  origin : s.cell = first ∨ s.cell ∈ s.seen
  /-- What a thread has read is not below the cell. -/
  read : ∀ t v low, s.pc t = .trying v low → s.cell ≤ low
  inSeen : ∀ t v, (s.pc t).value = some v → v ∈ s.seen
  /-- A value seen is settled or still in the loop. -/
  split : ∀ v ∈ s.seen, v ∈ s.settled ∨ ∃ t, (s.pc t).value = some v

omit [DecidableEq T] in
/-- The start: no thread in the loop and nothing seen. -/
theorem Inv.start (first : α) : Inv first (⟨first, fun _ => .out, [], []⟩ : State T α) where
  below _ hv := by cases hv
  le_first := le_rfl
  origin := Or.inl rfl
  read _ _ _ hpc := by cases hpc
  inSeen _ _ hpc := by cases hpc
  split _ hv := by cases hv

omit [LinearOrder α] in
/-- The value of the other threads stays in the loop. -/
theorem exists_value_setPc {s : State T α} {t : T} {pc : Pc α} {v : α}
    (h : (s.pc t).value = some v → pc.value = some v) (hex : ∃ u, (s.pc u).value = some v) :
    ∃ u, ((s.setPc t pc).pc u).value = some v := by
  obtain ⟨u, hu⟩ := hex
  refine ⟨u, ?_⟩
  rw [State.setPc_pc]
  split_ifs with hut
  · exact h (hut ▸ hu)
  · exact hu

theorem Inv.enter {first : α} {s : State T α} (h : Inv first s) {t : T} (v : α) (hout : s.pc t = .out) :
    Inv first { s.setPc t (.loading v) with seen := v :: s.seen } where
  below := h.below
  le_first := h.le_first
  origin := h.origin.imp_right (List.mem_cons_of_mem _)
  read u w low hpc := by
    rw [State.setPc_pc] at hpc
    split_ifs at hpc
    exact h.read u w low hpc
  inSeen u w hpc := by
    rw [State.setPc_pc] at hpc
    split_ifs at hpc
    · exact List.mem_cons.mpr (Or.inl (Option.some.inj hpc).symm)
    · exact List.mem_cons_of_mem _ (h.inSeen u w hpc)
  split w hw := by
    rcases List.mem_cons.mp hw with rfl | hold
    · exact Or.inr ⟨t, by rw [State.setPc_pc, if_pos rfl]; rfl⟩
    · refine (h.split w hold).imp_right (exists_value_setPc fun hv => ?_)
      rw [hout] at hv
      cases hv

theorem Inv.read_cell {first : α} {s : State T α} (h : Inv first s) {t : T} {v : α}
    (hpc : (s.pc t).value = some v) : Inv first (s.setPc t (.trying v s.cell)) where
  below := h.below
  le_first := h.le_first
  origin := h.origin
  read u w low hu := by
    rw [State.setPc_pc] at hu
    split_ifs at hu
    · exact (Pc.trying.inj hu).2.le
    · exact h.read u w low hu
  inSeen u w hu := by
    rw [State.setPc_pc] at hu
    split_ifs at hu with hut
    · exact h.inSeen t w (hpc.trans hu)
    · exact h.inSeen u w hu
  split w hw := (h.split w hw).imp_right (exists_value_setPc fun hv => hpc.symm.trans hv)

/-- A thread leaves, and the cell is not above its value. -/
theorem Inv.leave {first : α} {s : State T α} (h : Inv first s) {t : T} {v cell : α} (hpc : (s.pc t).value = some v)
    (hcell : cell = s.cell ∨ cell = v) (hle : cell ≤ s.cell) (hv : cell ≤ v) :
    Inv first { s.leave t v with cell := cell } where
  below := List.forall_mem_cons.mpr ⟨hv, fun w hw => hle.trans (h.below w hw)⟩
  le_first := hle.trans h.le_first
  origin := by
    rcases hcell with rfl | rfl
    · exact h.origin
    · exact Or.inr (h.inSeen t _ hpc)
  read u w low hu := by
    change (s.setPc t .out).pc u = _ at hu
    rw [State.setPc_pc] at hu
    split_ifs at hu
    exact hle.trans (h.read u w low hu)
  inSeen u w hu := by
    change ((s.setPc t .out).pc u).value = _ at hu
    rw [State.setPc_pc] at hu
    split_ifs at hu
    · cases hu
    · exact h.inSeen u w hu
  split w hw := by
    rcases h.split w hw with hset | hex
    · exact Or.inl (List.mem_cons_of_mem _ hset)
    · by_cases hwv : w = v
      · exact Or.inl (List.mem_cons.mpr (Or.inl hwv))
      · refine Or.inr (exists_value_setPc (fun hv => ?_) hex)
        exact absurd (Option.some.inj (hv.symm.trans hpc)) hwv

/-- A step keeps it, and does not raise the cell. -/
theorem Inv.step {first : α} {s s' : State T α} {l : Label T α} (h : Inv first s)
    (hst : LowWater.step s l = some s') : Inv first s' ∧ s'.cell ≤ s.cell := by
  rcases step_cases hst with ⟨t, v, hout, rfl⟩ | ⟨t, v, hpc, rfl⟩ | ⟨t, v, low, hpc, hleave⟩
  · exact ⟨h.enter v hout, le_rfl⟩
  · exact ⟨h.read_cell hpc, le_rfl⟩
  · have hval : (s.pc t).value = some v := by rw [hpc]; rfl
    rcases hleave with ⟨hlt, rfl⟩ | ⟨hle, rfl⟩
    · exact ⟨h.leave hval (Or.inr rfl) hlt.le le_rfl, hlt.le⟩
    · exact ⟨h.leave hval (Or.inl rfl) le_rfl ((h.read t v low hpc).trans hle), le_rfl⟩

omit [DecidableEq T] in
/-- **The mark.** When no thread is in the loop, the cell is the least of the first value and those seen. -/
theorem Inv.isLeast {first : α} {s : State T α} (h : Inv first s) (hout : ∀ t, s.pc t = .out) :
    IsLeast (insert first {v | v ∈ s.seen}) s.cell := by
  constructor
  · exact h.origin
  · rintro v (rfl | hv)
    · exact h.le_first
    · rcases h.split v hv with hset | ⟨t, ht⟩
      · exact h.below v hset
      · rw [hout t] at ht
        cases ht

end LowWater
