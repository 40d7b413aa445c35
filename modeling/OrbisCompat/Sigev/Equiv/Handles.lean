import Mathlib.Data.Fintype.Card
import Mathlib.Tactic.Common
import OrbisCompat.Sigev.Calls

/-!
# Handles, slots and kernel timers

What a call does to the used slots and to the kernel timers, one lemma for each of its outcomes.

* `slotOf_address`, `slotOf_plain`: the address of a slot resolves to that slot while it is used, and a
  plain kernel timer id never resolves to one.
* `createThread_cases`: a `SIGEV_THREAD` timer takes the first unused slot and the kernel timer made
  for it, or the call leaves the used slots and the kernel timers as they were (`World.Keeps`).
* `timerDelete_address`, `timerDelete_plain`: a deletion gives up exactly what its handle stands for.
-/

namespace OrbisCompat.Sigev

variable {L : Layout} {w w' : World}

/-! ### Handles -/

theorem Layout.inside_address (L : Layout) (i : SlotId) : L.Inside (L.address i) := by
  refine ⟨Nat.le_add_right _ _, Nat.add_lt_add_left ?_ _⟩
  exact Nat.mul_lt_mul_of_pos_right i.isLt L.size_pos

theorem Layout.index_address (L : Layout) (i : SlotId) (h : L.Inside (L.address i)) :
    L.index (L.address i) h = i := by
  apply Fin.ext
  show (L.base + i * L.size - L.base) / L.size = i
  rw [Nat.add_sub_cancel_left, Nat.mul_div_cancel _ L.size_pos]

theorem Layout.address_injective (L : Layout) : Function.Injective L.address := by
  intro i j h
  rw [← L.index_address i (L.inside_address i), ← L.index_address j (L.inside_address j)]
  congr 1

theorem slotOf_address (L : Layout) (w : World) (i : SlotId) :
    slotOf L w (L.address i) = if (w.slot i).used then some i else none := by
  unfold slotOf
  rw [dif_pos (L.inside_address i), L.index_address]

theorem handleOf_of_nonneg {id : ℤ} (h0 : 0 ≤ id) (h1 : id < 2 ^ 31) : handleOf id = id.toNat := by
  unfold handleOf
  rw [Int.emod_eq_of_lt h0 (h1.trans (by decide))]

/-- A non-negative `int` comes back from its handle. -/
theorem idOf_handleOf {id : ℤ} (h0 : 0 ≤ id) (h1 : id < 2 ^ 31) : idOf (handleOf id) = id := by
  unfold idOf
  rw [handleOf_of_nonneg h0 h1, Int.toNat_of_nonneg h0]
  exact Int.bmod_eq_of_le (by omega) (by omega)

/-- **Pass-through.** A plain kernel timer id never resolves to a slot. -/
theorem slotOf_plain {id : ℤ} (h : L.IsPlainId id) (w : World) : slotOf L w (handleOf id) = none :=
  dif_neg h.2.2

theorem idOf_plain {id : ℤ} (h : L.IsPlainId id) : idOf (handleOf id) = id := idOf_handleOf h.1 h.2.1

theorem handleOf_inj {id id' : ℤ} (h : L.IsPlainId id) (h' : L.IsPlainId id')
    (heq : handleOf id = handleOf id') : id = id' := by
  rw [← idOf_plain h, ← idOf_plain h', heq]

/-- A plain handle is not the address of a slot. -/
theorem address_ne_plain {id : ℤ} (h : L.IsPlainId id) (i : SlotId) : L.address i ≠ handleOf id :=
  fun heq => h.2.2 (heq ▸ L.inside_address i)

/-! ### Kernel timers -/

theorem World.firstFree_unused {i : SlotId} (h : w.firstFree = some i) : (w.slot i).used = false := by
  simpa using List.find?_some h

/-- Ids being distinct, `ktimer_delete` takes away the timer of that id and no other. -/
theorem World.mem_ktimerDelete (hids : (w.kernel.map KTimer.id).Nodup) {id : ℤ} {k : KTimer} :
    k ∈ (w.ktimerDelete id).kernel ↔ k ∈ w.kernel ∧ k.id ≠ id := by
  rw [World.ktimerDelete_kernel]
  generalize w.kernel = ks at hids
  induction ks with
  | nil => simp
  | cons x xs ih =>
    obtain ⟨hx, hxs⟩ := List.nodup_cons.mp hids
    by_cases heq : x.id = id
    · rw [List.eraseP_cons_of_pos (by simpa using heq)]
      constructor
      · exact fun hk => ⟨List.mem_cons_of_mem _ hk,
          fun he => hx (List.mem_map.mpr ⟨k, hk, he.trans heq.symm⟩)⟩
      · rintro ⟨hk, hne⟩
        exact (List.mem_cons.mp hk).resolve_left fun he => hne (he ▸ heq)
    · rw [List.eraseP_cons_of_neg (by simpa using heq), List.mem_cons, List.mem_cons, ih hxs]
      constructor
      · rintro (rfl | ⟨hk, hne⟩)
        · exact ⟨Or.inl rfl, heq⟩
        · exact ⟨Or.inr hk, hne⟩
      · rintro ⟨rfl | hk, hne⟩
        · exact Or.inl rfl
        · exact Or.inr ⟨hk, hne⟩

@[simp] theorem World.setSlot_self (w : World) (i : SlotId) (x : Slot) : (w.setSlot i x).slot i = x :=
  if_pos rfl

theorem World.setSlot_ne (w : World) {i j : SlotId} (x : Slot) (h : j ≠ i) :
    (w.setSlot i x).slot j = w.slot j :=
  if_neg h

@[simp] theorem World.setSlot_setSlot (w : World) (i : SlotId) (x y : Slot) :
    (w.setSlot i x).setSlot i y = w.setSlot i y := by
  unfold World.setSlot
  congr 1
  funext j
  dsimp only
  split_ifs <;> rfl

theorem World.setSlot_ktimerCreate (w : World) (i : SlotId) (x : Slot) (id : ℤ) (j : Option SlotId) :
    (w.setSlot i x).ktimerCreate id j = (w.ktimerCreate id j).setSlot i x :=
  rfl

/-- What was made last goes away again. -/
theorem World.ktimerDelete_create (w : World) (id : ℤ) (i : Option SlotId) :
    ((w.ktimerCreate id i).ktimerDelete id).kernel = w.kernel := by
  rw [World.ktimerDelete_kernel, World.ktimerCreate_kernel]
  exact List.eraseP_cons_of_pos (beq_self_eq_true _)

/-! ### What a call does to slots and kernel timers -/

/-- The used slots and the kernel timers are as they were. -/
structure World.Keeps (w w' : World) : Prop where
  kernel : w'.kernel = w.kernel
  used : ∀ i, (w'.slot i).used = (w.slot i).used
  under : ∀ i, (w.slot i).used = true → (w'.slot i).under = (w.slot i).under

theorem World.Keeps.rfl (w : World) : w.Keeps w := ⟨by rfl, fun _ => by rfl, fun _ _ => by rfl⟩

theorem World.keeps_setErrno (w : World) (e : Errno) : w.Keeps (w.setErrno e) :=
  ⟨by rfl, fun _ => by rfl, fun _ _ => by rfl⟩

/-- A store to one slot that touches neither field. -/
theorem World.keeps_setSlot (w : World) {i : SlotId} {x : Slot} (hused : x.used = (w.slot i).used)
    (hunder : x.under = (w.slot i).under) : w.Keeps (w.setSlot i x) := by
  refine ⟨by rfl, fun j => ?_, fun j _ => ?_⟩ <;>
  · rw [World.setSlot_slot]
    split_ifs with hj
    · subst hj
      assumption
    · rfl

/-- A store to an unused slot that leaves it unused. -/
theorem World.keeps_of_unused {i : SlotId} (hi : (w.slot i).used = false)
    (hkernel : w'.kernel = w.kernel) (hused : (w'.slot i).used = false)
    (hother : ∀ j, j ≠ i → w'.slot j = w.slot j) : w.Keeps w' := by
  refine ⟨hkernel, fun j => ?_, fun j hj => ?_⟩
  · by_cases hji : j = i
    · rw [hji, hused, hi]
    · rw [hother j hji]
  · rw [hother j fun hji => ?_]
    rw [hji, hi] at hj
    exact Bool.false_ne_true hj

theorem Slot.settimeLocked_keeps (x : Slot) (flags : ℕ) (inp : Option Itimerspec) (now : Timespec) :
    (x.settimeLocked flags inp now).used = x.used ∧
      (x.settimeLocked flags inp now).under = x.under := by
  unfold Slot.settimeLocked
  cases inp with
  | none => exact ⟨rfl, rfl⟩
  | some v =>
    dsimp only
    split_ifs <;> exact ⟨rfl, rfl⟩

theorem Slot.afterTimedWait_keeps (x : Slot) (timedOut : Bool) (now : Timespec) :
    (x.afterTimedWait timedOut now).1.used = x.used ∧
      (x.afterTimedWait timedOut now).1.under = x.under := by
  unfold Slot.afterTimedWait
  split_ifs <;> exact ⟨rfl, rfl⟩

/-- The stores of `timer_create`, all of them. -/
theorem Slot.stored (x : Slot) (ev : Sigevent) (id : ℤ) :
    Field.order.foldl (fun x f => x.store ev id f) x =
      { used := x.used, under := id, fn := ev.fn, val := ev.val, thread := x.thread } := rfl

/-- `timer_create` without `SIGEV_THREAD`. -/
theorem createPlain_cases (w : World) (clk : ℤ) (ev : Option SdkSigevent) (out : Bool) (a : Answers) :
    (a.rc ≠ 0 ∧ (createPlain w clk ev out a).ret ≠ 0 ∧ (createPlain w clk ev out a).timer = none ∧
      (createPlain w clk ev out a).world = w) ∨
    (a.rc = 0 ∧ (createPlain w clk ev out a).ret = 0 ∧
      (createPlain w clk ev out a).timer = some (handleOf a.id) ∧
      (createPlain w clk ev out a).world = w.ktimerCreate a.id none) := by
  unfold createPlain
  by_cases hrc : a.rc = 0
  · right
    rw [if_pos hrc]
    exact ⟨hrc, hrc, rfl, rfl⟩
  · left
    rw [if_neg hrc]
    exact ⟨hrc, hrc, rfl, rfl⟩

/-- `timer_create` with `SIGEV_THREAD`: the first unused slot becomes used, with a kernel timer made for
it underneath, or everything acquired is given up again. -/
theorem createThread_cases (L : Layout) (w : World) (clk : ℤ) (ev : SdkSigevent) (out : Bool)
    (a : Answers) :
    ((createThread L w clk ev out a).ret ≠ 0 ∧ (createThread L w clk ev out a).timer = none ∧
      w.Keeps (createThread L w clk ev out a).world) ∨
    (a.rc = 0 ∧ (createThread L w clk ev out a).ret = 0 ∧ ∃ i x, w.firstFree = some i ∧
      (createThread L w clk ev out a).timer = some (L.address i) ∧ x.used = true ∧ x.under = a.id ∧
      (createThread L w clk ev out a).world = (w.ktimerCreate a.id (some i)).setSlot i x) := by
  have hfail : (-1 : ℤ) ≠ 0 := by decide
  unfold createThread
  by_cases hon : enabled a = true
  · rw [if_neg (by rw [hon]; decide)]
    cases hfree : w.firstFree with
    | none =>
      dsimp only
      exact Or.inl ⟨hfail, rfl, w.keeps_setErrno _⟩
    | some i =>
      have hi := World.firstFree_unused hfree
      dsimp only
      by_cases hrc : a.rc = 0
      · rw [if_neg (not_not.mpr hrc)]
        cases a.thread with
        | none =>
          left
          refine ⟨hfail, rfl, World.keeps_of_unused hi ?_ ?_ fun j hj => ?_⟩
          · exact World.ktimerDelete_create w a.id (some i)
          · exact congrArg Slot.used (World.setSlot_self _ i _)
          · exact (if_neg hj).trans ((if_neg hj).trans (if_neg hj))
        | some t =>
          right
          let x : Slot := { used := true, under := a.id, fn := ev.fn, val := ev.value, thread := some t }
          refine ⟨hrc, rfl, i, x, rfl, rfl, rfl, rfl, ?_⟩
          simp only [World.setSlot_self, Slot.stored, World.setSlot_ktimerCreate,
            World.setSlot_setSlot]
          rfl
      · rw [if_pos hrc]
        left
        refine ⟨hfail, rfl, World.keeps_of_unused hi rfl ?_ fun j hj => ?_⟩
        · exact congrArg Slot.used (World.setSlot_self _ i _)
        · exact (if_neg hj).trans (if_neg hj)
  · rw [if_pos (by rw [Bool.not_eq_true] at hon; rw [hon]; decide)]
    exact Or.inl ⟨hfail, rfl, w.keeps_setErrno _⟩

/-- A call of `timer_create` that fails. -/
theorem timerCreate_keeps {clk : ℤ} {ev : Option SdkSigevent} {out : Bool} {a : Answers}
    (h : (timerCreate L w clk ev out a).ret ≠ 0) : w.Keeps (timerCreate L w clk ev out a).world := by
  have hplain : ∀ e, (createPlain w clk e out a).ret ≠ 0 →
      w.Keeps (createPlain w clk e out a).world := by
    intro e he
    rcases createPlain_cases w clk e out a with ⟨-, -, -, hw⟩ | ⟨-, hret, -⟩
    · rw [hw]
      exact World.Keeps.rfl w
    · exact absurd hret he
  unfold timerCreate at h ⊢
  cases ev with
  | none => exact hplain none h
  | some e =>
    dsimp only at h ⊢
    split_ifs at h ⊢
    · exact hplain (some e) h
    · rcases createThread_cases L w clk e out a with ⟨-, -, hw⟩ | ⟨-, hret, -⟩
      · exact hw
      · exact absurd hret h

theorem timerSettime_keeps (L : Layout) (w : World) (t : Handle) (flags : ℕ) (inp : Option Itimerspec)
    (now : Timespec) (rc : ℤ) : w.Keeps (timerSettime L w t flags inp now rc).world := by
  unfold timerSettime
  cases slotOf L w t with
  | none => exact World.Keeps.rfl w
  | some i =>
    have hx := Slot.settimeLocked_keeps (w.slot i) flags inp now
    exact w.keeps_setSlot hx.1 hx.2

/-- Deleting a `SIGEV_THREAD` timer. -/
theorem timerDelete_address {i : SlotId} (hi : (w.slot i).used = true) :
    (timerDelete L w (L.address i)).world.kernel = (w.ktimerDelete (w.slot i).under).kernel ∧
      ((timerDelete L w (L.address i)).world.slot i).used = false ∧
      ∀ j, j ≠ i → (timerDelete L w (L.address i)).world.slot j = w.slot j := by
  unfold timerDelete
  rw [slotOf_address, if_pos hi]
  dsimp only
  rw [World.setSlot_self]
  refine ⟨rfl, ?_, fun j hj => ?_⟩
  · exact congrArg Slot.used (World.setSlot_self _ i _)
  · exact (if_neg hj).trans (if_neg hj)

/-- Deleting any other. -/
theorem timerDelete_plain {id : ℤ} (h : L.IsPlainId id) (w : World) :
    (timerDelete L w (handleOf id)).world = w.ktimerDelete id := by
  unfold timerDelete
  rw [slotOf_plain h, idOf_plain h]

end OrbisCompat.Sigev
