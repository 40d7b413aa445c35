import Mathlib.Data.Fintype.Card
import OrbisCompat.Sigev.Equiv.Handles

/-!
# Slots and kernel timers, one to one

`OneToOne` holds between any two calls of a sequential run (`reaches_oneToOne`), whatever fails on the
way: the used slots are those of the `SIGEV_THREAD` timers created and not deleted, each over a kernel
timer of its own, and no two live handles are the same.
-/

namespace OrbisCompat.Sigev

variable {L : Layout} {s s' : Session} {w w' : World}

/-- Slots, kernel timers and live handles between two calls. -/
structure OneToOne (L : Layout) (s : Session) : Prop where
  /-- A slot is used when its timer is live, -/
  used_iff : ∀ i, (s.world.slot i).used = true ↔ L.address i ∈ s.threads
  /-- and every live `SIGEV_THREAD` timer has a slot. -/
  thread : ∀ t ∈ s.threads, ∃ i, L.address i = t
  /-- The kernel timers made for slots are those under the used slots. -/
  held_iff : ∀ i id, ⟨id, some i⟩ ∈ s.world.kernel ↔
    (s.world.slot i).used = true ∧ (s.world.slot i).under = id
  /-- The kernel timers without a slot are those of the other handles. -/
  plain_iff : ∀ t, t ∈ s.plain ↔ ∃ id, ⟨id, none⟩ ∈ s.world.kernel ∧ handleOf id = t
  plain_id : ∀ id, ⟨id, none⟩ ∈ s.world.kernel → L.IsPlainId id
  ids : (s.world.kernel.map KTimer.id).Nodup
  threads : s.threads.Nodup
  plain : s.plain.Nodup

namespace OneToOne

theorem init (L : Layout) : OneToOne L Session.init where
  used_iff i := by simp [Session.init]
  thread t ht := by simp [Session.init] at ht
  held_iff i id := by simp [Session.init]
  plain_iff t := by simp [Session.init]
  plain_id id hid := by simp [Session.init] at hid
  ids := List.nodup_nil
  threads := List.nodup_nil
  plain := List.nodup_nil

/-- Kernel timers of one id are one. -/
theorem eq_of_id (h : OneToOne L s) {k k' : KTimer} (hk : k ∈ s.world.kernel)
    (hk' : k' ∈ s.world.kernel) (hid : k.id = k'.id) : k = k' :=
  List.inj_on_of_nodup_map h.ids hk hk' hid

/-- Used slots have kernel timers of their own. -/
theorem under_injOn (h : OneToOne L s) : Set.InjOn (fun i => (s.world.slot i).under)
    {i | (s.world.slot i).used = true} := by
  intro i hi j hj hu
  have heq := h.eq_of_id ((h.held_iff i _).mpr ⟨hi, rfl⟩) ((h.held_iff j _).mpr ⟨hj, rfl⟩) hu
  exact Option.some.inj (KTimer.mk.inj heq).2

theorem handles (h : OneToOne L s) : (s.threads ++ s.plain).Nodup := by
  refine List.nodup_append.mpr ⟨h.threads, h.plain, fun t ht t' ht' heq => ?_⟩
  obtain ⟨i, rfl⟩ := h.thread t ht
  obtain ⟨id, hid, rfl⟩ := (h.plain_iff t').mp ht'
  exact address_ne_plain (h.plain_id id hid) i heq

theorem length_le (h : OneToOne L s) : s.threads.length ≤ kMaxTimers := by
  rw [← List.toFinset_card_of_nodup h.threads]
  have hsub : s.threads.toFinset ⊆ Finset.univ.image L.address := fun t ht => by
    obtain ⟨i, hi⟩ := h.thread t (List.mem_toFinset.mp ht)
    exact Finset.mem_image.mpr ⟨i, Finset.mem_univ i, hi⟩
  calc s.threads.toFinset.card ≤ (Finset.univ.image L.address).card := Finset.card_le_card hsub
    _ ≤ (Finset.univ : Finset SlotId).card := Finset.card_image_le
    _ = kMaxTimers := Finset.card_fin kMaxTimers

/-- What keeps the used slots and the kernel timers keeps the correspondence. -/
theorem keeps (h : OneToOne L s) (hw : s.world.Keeps w') : OneToOne L ⟨w', s.threads, s.plain⟩ where
  used_iff i := by rw [hw.used i]; exact h.used_iff i
  thread := h.thread
  held_iff i id := by
    rw [hw.kernel, h.held_iff i id, hw.used i]
    exact and_congr_right fun hi => by rw [hw.under i hi]
  plain_iff t := by rw [hw.kernel]; exact h.plain_iff t
  plain_id id hid := h.plain_id id (hw.kernel ▸ hid)
  ids := by rw [hw.kernel]; exact h.ids
  threads := h.threads
  plain := h.plain

/-- A new `SIGEV_THREAD` timer. -/
theorem create_thread (h : OneToOne L s) {i : SlotId} {id : ℤ} {x : Slot}
    (hi : (s.world.slot i).used = false) (hid : id ∉ s.world.kernel.map KTimer.id)
    (hused : x.used = true) (hunder : x.under = id) :
    OneToOne L ⟨(s.world.ktimerCreate id (some i)).setSlot i x, L.address i :: s.threads, s.plain⟩ := by
  have hnew : L.address i ∉ s.threads := fun hmem => by
    rw [← h.used_iff i, hi] at hmem
    exact Bool.false_ne_true hmem
  constructor
  · intro j
    by_cases hj : j = i
    · simp [hj, hused]
    · rw [World.setSlot_ne _ x hj, World.ktimerCreate_slot, h.used_iff j, List.mem_cons]
      exact (or_iff_right fun heq => hj (L.address_injective heq)).symm
  · intro t ht
    rcases List.mem_cons.mp ht with rfl | ht
    · exact ⟨i, rfl⟩
    · exact h.thread t ht
  · intro j id'
    rw [World.setSlot_kernel, World.ktimerCreate_kernel, List.mem_cons, h.held_iff j id']
    by_cases hj : j = i
    · subst hj
      rw [World.setSlot_self, hused, hunder, hi]
      simp [eq_comm]
    · rw [World.setSlot_ne _ x hj, World.ktimerCreate_slot]
      simp [hj]
  · intro t
    rw [h.plain_iff t, World.setSlot_kernel, World.ktimerCreate_kernel]
    simp
  · intro id' hid'
    rw [World.setSlot_kernel, World.ktimerCreate_kernel] at hid'
    exact h.plain_id id' (by simpa using hid')
  · exact List.nodup_cons.mpr ⟨hid, h.ids⟩
  · exact List.nodup_cons.mpr ⟨hnew, h.threads⟩
  · exact h.plain

/-- A new timer without `SIGEV_THREAD`. -/
theorem create_plain (h : OneToOne L s) {id : ℤ} (hid : id ∉ s.world.kernel.map KTimer.id)
    (hplain : L.IsPlainId id) :
    OneToOne L ⟨s.world.ktimerCreate id none, s.threads, handleOf id :: s.plain⟩ := by
  have hnew : handleOf id ∉ s.plain := fun hmem => by
    obtain ⟨id', hid', heq⟩ := (h.plain_iff _).mp hmem
    rw [handleOf_inj (h.plain_id id' hid') hplain heq] at hid'
    exact hid (List.mem_map.mpr ⟨_, hid', rfl⟩)
  constructor
  · exact h.used_iff
  · exact h.thread
  · intro j id'
    rw [World.ktimerCreate_kernel, World.ktimerCreate_slot, ← h.held_iff j id']
    simp
  · intro t
    rw [List.mem_cons, h.plain_iff t, World.ktimerCreate_kernel]
    constructor
    · rintro (rfl | ⟨id', hid', rfl⟩)
      · exact ⟨id, List.mem_cons_self, rfl⟩
      · exact ⟨id', List.mem_cons_of_mem _ hid', rfl⟩
    · rintro ⟨id', hid', rfl⟩
      rcases List.mem_cons.mp hid' with heq | hid'
      · exact Or.inl (by rw [(KTimer.mk.inj heq).1])
      · exact Or.inr ⟨id', hid', rfl⟩
  · intro id' hid'
    rcases List.mem_cons.mp hid' with heq | hid'
    · rw [(KTimer.mk.inj heq).1]
      exact hplain
    · exact h.plain_id id' hid'
  · exact List.nodup_cons.mpr ⟨hid, h.ids⟩
  · exact h.threads
  · exact List.nodup_cons.mpr ⟨hnew, h.plain⟩

/-- Deleting one kernel timer keeps the ids of the others apart. -/
theorem ids_delete (h : OneToOne L s) (id : ℤ) :
    ((s.world.ktimerDelete id).kernel.map KTimer.id).Nodup :=
  h.ids.sublist (List.eraseP_sublist.map KTimer.id)

/-- A `SIGEV_THREAD` timer deleted. -/
theorem delete_thread (h : OneToOne L s) {i : SlotId} (hi : (s.world.slot i).used = true)
    (hkernel : w'.kernel = (s.world.ktimerDelete (s.world.slot i).under).kernel)
    (hused : (w'.slot i).used = false) (hother : ∀ j, j ≠ i → w'.slot j = s.world.slot j) :
    OneToOne L ⟨w', s.threads.erase (L.address i), s.plain⟩ := by
  have hmem : ∀ k, k ∈ w'.kernel ↔ k ∈ s.world.kernel ∧ k.id ≠ (s.world.slot i).under := by
    intro k
    rw [hkernel]
    exact World.mem_ktimerDelete h.ids
  have hheld := (h.held_iff i _).mpr ⟨hi, rfl⟩
  constructor
  · intro j
    by_cases hj : j = i
    · subst hj
      simp [hused, h.threads.mem_erase_iff]
    · show (w'.slot j).used = true ↔ L.address j ∈ s.threads.erase (L.address i)
      rw [hother j hj, h.used_iff j, h.threads.mem_erase_iff]
      exact (and_iff_right fun heq => hj (L.address_injective heq)).symm
  · exact fun t ht => h.thread t (List.mem_of_mem_erase ht)
  · intro j id'
    rw [hmem]
    by_cases hj : j = i
    · subst hj
      rw [hused, h.held_iff j id']
      constructor
      · rintro ⟨⟨-, rfl⟩, hne⟩
        exact absurd rfl hne
      · rintro ⟨hfalse, -⟩
        exact absurd hfalse Bool.false_ne_true
    · rw [hother j hj, h.held_iff j id']
      -- the kernel timer that goes is the one made for slot `i`
      refine and_iff_left_of_imp ?_
      rintro ⟨hj', rfl⟩ heq
      exact hj (h.under_injOn hj' hi heq)
  · intro t
    rw [h.plain_iff t]
    constructor
    · rintro ⟨id', hid', rfl⟩
      refine ⟨id', (hmem _).mpr ⟨hid', fun heq => ?_⟩, rfl⟩
      exact Option.some_ne_none i (KTimer.mk.inj (h.eq_of_id hid' hheld heq)).2.symm
    · rintro ⟨id', hid', rfl⟩
      exact ⟨id', ((hmem _).mp hid').1, rfl⟩
  · exact fun id' hid' => h.plain_id id' ((hmem _).mp hid').1
  · show (w'.kernel.map KTimer.id).Nodup
    rw [hkernel]
    exact h.ids_delete _
  · exact h.threads.erase _
  · exact h.plain

/-- A timer without `SIGEV_THREAD` deleted. -/
theorem delete_plain (h : OneToOne L s) {id : ℤ} (hid : ⟨id, none⟩ ∈ s.world.kernel) :
    OneToOne L ⟨s.world.ktimerDelete id, s.threads, s.plain.erase (handleOf id)⟩ := by
  constructor
  · exact h.used_iff
  · exact h.thread
  · intro j id'
    rw [World.mem_ktimerDelete h.ids, h.held_iff j id']
    refine and_iff_left_of_imp fun hj heq => ?_
    have hk := h.eq_of_id ((h.held_iff j id').mpr hj) hid heq
    exact Option.some_ne_none j (KTimer.mk.inj hk).2
  · intro t
    rw [h.plain.mem_erase_iff, h.plain_iff t]
    constructor
    · rintro ⟨hne, id', hid', rfl⟩
      exact ⟨id', (World.mem_ktimerDelete h.ids).mpr ⟨hid', fun heq => hne (by rw [← heq])⟩, rfl⟩
    · rintro ⟨id', hid', rfl⟩
      obtain ⟨hmem, hne⟩ := (World.mem_ktimerDelete h.ids).mp hid'
      refine ⟨fun heq => hne ?_, id', hmem, rfl⟩
      exact handleOf_inj (h.plain_id id' hmem) (h.plain_id id hid) heq
  · exact fun id' hid' => h.plain_id id' ((World.mem_ktimerDelete h.ids).mp hid').1
  · exact h.ids_delete id
  · exact h.threads
  · exact h.plain.erase _

/-- What `timer_create` does. -/
theorem create (h : OneToOne L s) {clk : ℤ} {ev : Option SdkSigevent} {out : Bool} {a : Answers}
    (ha : Proper L s (.create clk ev out a)) : OneToOne L (s.next L (.create clk ev out a)) := by
  have hplain : ∀ e, isThread ev = false →
      OneToOne L ⟨(createPlain s.world clk e out a).world, s.threads,
        (createPlain s.world clk e out a).timer.toList ++ s.plain⟩ := by
    intro e hev
    rcases createPlain_cases s.world clk e out a with ⟨-, -, ht, hw⟩ | ⟨hrc, -, ht, hw⟩
    · rw [ht, hw]
      exact h
    · rw [ht, hw]
      exact h.create_plain (ha hrc).1 ((ha hrc).2 hev)
  unfold Session.next timerCreate
  cases ev with
  | none => exact hplain none rfl
  | some e =>
    dsimp only
    by_cases hn : e.notify = sigevThread
    · rw [if_pos (by simpa [isThread] using hn), if_neg (not_not.mpr hn)]
      rcases createThread_cases L s.world clk e out a with ⟨-, ht, hw⟩ | ⟨hrc, -, i, x, hi, ht, hx, hu, hw⟩
      · rw [ht]
        exact h.keeps hw
      · rw [ht, hw]
        exact h.create_thread (World.firstFree_unused hi) (ha hrc).1 hx hu
    · have hev : isThread (some e) = false := by simpa [isThread] using hn
      rw [if_neg (by rw [hev]; exact Bool.false_ne_true), if_pos hn]
      exact hplain (some e) hev

/-- What `timer_delete` of a live handle does. -/
theorem delete (h : OneToOne L s) {t : Handle} (ht : t ∈ s.threads ∨ t ∈ s.plain) :
    OneToOne L (s.next L (.delete t)) := by
  have hdisj := List.disjoint_of_nodup_append h.handles
  rcases ht with ht | ht
  · obtain ⟨i, rfl⟩ := h.thread t ht
    have hi := (h.used_iff i).mpr ht
    obtain ⟨hkernel, hused, hother⟩ := timerDelete_address (L := L) hi
    have hplain : s.plain.erase (L.address i) = s.plain :=
      List.erase_of_not_mem fun hmem => hdisj ht hmem
    show OneToOne L ⟨_, s.threads.erase _, s.plain.erase _⟩
    rw [hplain]
    exact h.delete_thread hi hkernel hused hother
  · have hthreads : s.threads.erase t = s.threads := List.erase_of_not_mem fun hmem => hdisj hmem ht
    obtain ⟨id, hid, rfl⟩ := (h.plain_iff t).mp ht
    show OneToOne L ⟨_, s.threads.erase _, s.plain.erase _⟩
    rw [hthreads, timerDelete_plain (h.plain_id id hid)]
    exact h.delete_plain hid

end OneToOne

theorem next_oneToOne (h : OneToOne L s) {c : Call} (hc : Proper L s c) : OneToOne L (s.next L c) := by
  cases c with
  | create clk ev out a => exact h.create hc
  | settime t flags inp now rc => exact h.keeps (timerSettime_keeps L s.world t flags inp now rc)
  | delete t => exact h.delete hc
  | body i timedOut now =>
    have hx := Slot.afterTimedWait_keeps (s.world.slot i) timedOut now
    exact h.keeps (s.world.keeps_setSlot hx.1 hx.2)

/-- Between any two calls of a sequential run slots and kernel timers correspond. -/
theorem reaches_oneToOne {cs : List Call} (h : Session.Reaches L cs s) : OneToOne L s := by
  refine Lts.Run.preserves (P := OneToOne L) (fun s c t hs hst => ?_) h (OneToOne.init L)
  obtain ⟨hc, hnext⟩ := hst
  rw [← Option.some.inj hnext]
  exact next_oneToOne hs hc

/-! ### Pass-through -/

/-- The calls on the handle of a kernel timer id hand that id to the kernel and touch no slot. -/
structure PassesThrough (L : Layout) (w : World) (id : ℤ) : Prop where
  slotOf : slotOf L w (handleOf id) = none
  settime : ∀ flags inp now rc,
    timerSettime L w (handleOf id) flags inp now rc = ⟨w, rc, [.settime id flags inp]⟩
  gettime : ∀ rc, timerGettime L w (handleOf id) rc = ⟨w, rc, [.gettime id]⟩
  getoverrun : ∀ rc, timerGetoverrun L w (handleOf id) rc = ⟨w, rc, [.getoverrun id]⟩
  delete : timerDelete L w (handleOf id) = ⟨w.ktimerDelete id, 0, [.delete id]⟩

theorem passesThrough {id : ℤ} (h : L.IsPlainId id) (w : World) : PassesThrough L w id where
  slotOf := slotOf_plain h w
  settime flags inp now rc := by unfold timerSettime; rw [slotOf_plain h, idOf_plain h]
  gettime rc := by unfold timerGettime underOf; rw [slotOf_plain h, idOf_plain h]
  getoverrun rc := by unfold timerGetoverrun underOf; rw [slotOf_plain h, idOf_plain h]
  delete := by unfold timerDelete; rw [slotOf_plain h, idOf_plain h]

/-! ### The correspondence -/

/-- **Slots and kernel timers.** Between any two calls of a sequential run, whatever failed before: the
used slots are those of the `SIGEV_THREAD` timers created and not deleted; each has a kernel timer of its
own, and no kernel timer made for a slot belongs to an unused one; a failing `timer_create` leaves both
as they were; the live handles are distinct, at most eight of them those of slots; and a plain kernel
timer id passes through unchanged. -/
theorem slots_one_to_one {cs : List Call} (h : Session.Reaches L cs s) :
    ((∀ i, (s.world.slot i).used = true ↔ L.address i ∈ s.threads) ∧
      ∀ t ∈ s.threads, ∃ i, L.address i = t) ∧
    ((∀ i, (s.world.slot i).used = true → ⟨(s.world.slot i).under, some i⟩ ∈ s.world.kernel) ∧
      Set.InjOn (fun i => (s.world.slot i).under) {i | (s.world.slot i).used = true} ∧
      ∀ k ∈ s.world.kernel, ∀ i, k.slot = some i →
        (s.world.slot i).used = true ∧ (s.world.slot i).under = k.id) ∧
    (∀ clk ev out a, (timerCreate L s.world clk ev out a).ret ≠ 0 →
      (∀ i, ((timerCreate L s.world clk ev out a).world.slot i).used = (s.world.slot i).used) ∧
      (timerCreate L s.world clk ev out a).world.kernel = s.world.kernel) ∧
    ((s.threads ++ s.plain).Nodup ∧ s.threads.length ≤ kMaxTimers) ∧
    ∀ id, L.IsPlainId id → PassesThrough L s.world id := by
  have hs := reaches_oneToOne h
  refine ⟨⟨hs.used_iff, hs.thread⟩, ⟨fun i hi => (hs.held_iff i _).mpr ⟨hi, rfl⟩, hs.under_injOn, ?_⟩,
    fun clk ev out a hret => ?_, ⟨hs.handles, hs.length_le⟩, fun id hid => passesThrough hid s.world⟩
  · rintro ⟨id, slot⟩ hk i rfl
    exact (hs.held_iff i id).mp hk
  · exact ⟨(timerCreate_keeps hret).used, (timerCreate_keeps hret).kernel⟩

instance (L : Layout) (s : Session) : ∀ c, Decidable (Proper L s c)
  | .create _ _ _ _ => inferInstanceAs (Decidable (_ → _ ∧ _))
  | .settime _ _ _ _ _ | .delete _ => inferInstanceAs (Decidable (_ ∨ _))
  | .body _ _ _ => inferInstanceAs (Decidable True)

/-- Two `SIGEV_THREAD` timers and a plain one; a third `SIGEV_THREAD` timer fails for want of a thread, and
the first one goes. -/
def sessionCalls : List Call :=
  let event : SdkSigevent := ⟨sigevThread, 0, 7, 0x4000⟩
  [.create 0 (some event) true ⟨none, 0, 3, some 1⟩,
    .create 0 none true ⟨none, 0, 4, none⟩,
    .create 0 (some event) true ⟨none, 0, 5, some 2⟩,
    .create 0 (some event) true ⟨none, 0, 6, none⟩,
    .settime 0x100080 0 (some ⟨⟨1, 0⟩, ⟨0, 0⟩⟩) ⟨10, 0⟩ 0,
    .body 1 true ⟨11, 0⟩,
    .delete 0x100000]

/-- A place for the table. -/
def sessionLayout : Layout := ⟨0x100000, 0x80, by decide, by decide⟩

theorem slots_one_to_one_after_calls : ∃ s, Session.Reaches sessionLayout sessionCalls s ∧
    s.threads = [0x100080] ∧ s.plain = [4] ∧ (s.threads ++ s.plain).Nodup := by
  have hexec : (Lts.exec (Lts.guard (Proper sessionLayout)
      fun s c => some (Session.next sessionLayout s c)) Session.init sessionCalls).any
      (fun s => s.threads == [0x100080] && s.plain == [4]) = true := by decide +kernel
  obtain ⟨s, hrun, hs⟩ := Lts.exists_run_of_exec hexec
  simp only [Bool.and_eq_true, beq_iff_eq] at hs
  exact ⟨s, hrun.of_guard, hs.1, hs.2, (slots_one_to_one hrun.of_guard).2.2.2.1.1⟩

end OrbisCompat.Sigev
