import Mathlib.Algebra.Order.Ring.Int
import Mathlib.Data.List.Count
import Mathlib.Data.List.FinRange
import OrbisCompat.Umtx.Register

/-!
# The register tells who is asleep

The slots that the sleeping threads hold are different ones, and they are the occupied slots (`Kept`): a claim
takes a slot that nobody holds, and a release gives up the one that its thread holds.  A thread without a slot
found all of them occupied, by as many other threads (`Kept.length_le`).

`orbis_umtx_waiter_at` indexes the occupied slots in the order of the table (`slotAt_eq`), whatever is in it.
-/

namespace OrbisCompat.Umtx

namespace Register

variable {T : Register} {k j : WaiterId}

theorem set_self (T : Register) (k : WaiterId) (x : Entry) : T.set k x k = x := if_pos rfl

theorem set_ne (T : Register) (x : Entry) (h : j ≠ k) : T.set k x j = T j := if_neg h

theorem occupied_iff : T.occupied k = true ↔ (T k).thread ≠ 0 := by simp [occupied]

/-- A claim takes a free slot, or there is none. -/
theorem claim_cases (T : Register) (me : ThreadId) (addr : Addr) (now : UInt64) :
    (∃ k, T.occupied k = false ∧ T.claim me addr now = (T.set k ⟨me, addr, now⟩, some k)) ∨
    (∀ k, T.occupied k = true) ∧ T.claim me addr now = (T, none) := by
  unfold claim
  cases hfind : (List.finRange waiters).find? fun k => !T.occupied k with
  | some k =>
    have hfree := List.find?_some hfind
    exact Or.inl ⟨k, by simpa using hfree, rfl⟩
  | none =>
    refine Or.inr ⟨fun k => ?_, rfl⟩
    have hk := List.find?_eq_none.mp hfind k (List.mem_finRange k)
    simpa using hk

/-- The occupied slots, in the order of the table. -/
def slots (T : Register) : List WaiterId := (List.finRange waiters).filter T.occupied

theorem mem_slots : k ∈ T.slots ↔ T.occupied k = true := by simp [slots]

theorem nodup_slots (T : Register) : T.slots.Nodup := (List.nodup_finRange waiters).filter _

theorem count_eq (T : Register) : T.count = T.slots.length := List.countP_eq_length_filter

theorem length_slots_of_full (h : ∀ k, T.occupied k = true) : T.slots.length = waiters := by
  unfold slots
  rw [List.filter_eq_self.mpr fun k _ => h k, List.length_finRange]

/-! ### Queries -/

/-- The walk stops at the occupied slot it is asked for. -/
theorem walk_eq (T : Register) (i : ℤ) : ∀ (ks : List WaiterId) (seen : ℤ), seen ≤ i →
    T.walk i ks seen = (ks.filter T.occupied)[(i - seen).toNat]? := by
  intro ks
  induction ks with
  | nil =>
    intro seen _
    rfl
  | cons k ks ih =>
    intro seen hseen
    rw [walk]
    cases hk : T.occupied k with
    | false =>
      rw [if_pos rfl, List.filter_cons_of_neg (by rw [hk]; exact Bool.false_ne_true)]
      exact ih seen hseen
    | true =>
      rw [if_neg (by decide), List.filter_cons_of_pos hk]
      by_cases hi : seen = i
      · rw [if_neg (not_not.mpr hi), hi, sub_self]
        rfl
      · -- one occupied slot fewer to go
        rw [if_pos hi, ih (seen + 1) (by omega), show (i - seen).toNat = (i - (seen + 1)).toNat + 1 by omega,
          List.getElem?_cons_succ]

/-- `orbis_umtx_waiter_at` indexes the occupied slots. -/
theorem slotAt_eq (T : Register) (n : ℕ) : T.slotAt n = T.slots[n]? := by
  unfold slotAt
  rw [walk_eq T n _ 0 (Int.natCast_nonneg n), sub_zero, Int.toNat_natCast]
  rfl

end Register

/-! ### The invariant -/

namespace Sleeping

variable {s s' : Sleeping}

/-- **The invariant.** -/
structure Kept (s : Sleeping) : Prop where
  threads : (s.asleep.map Sleeper.thread).Nodup
  regs : (s.asleep.filterMap Sleeper.reg).Nodup
  entry : ∀ x ∈ s.asleep, ∀ k, x.reg = some k →
    (s.register k).thread = x.thread ∧ (s.register k).addr = x.addr
  occupied : ∀ k, s.register.occupied k = true → ∃ x ∈ s.asleep, x.reg = some k

namespace Kept

theorem init : Kept init where
  threads := List.nodup_nil
  regs := List.nodup_nil
  entry x hx := by cases hx
  occupied k hk := by cases hk

/-- A slot is occupied when a sleeping thread holds it. -/
theorem occupied_iff (h : Kept s) (k : WaiterId) :
    s.register.occupied k = true ↔ k ∈ s.asleep.filterMap Sleeper.reg := by
  rw [List.mem_filterMap]
  constructor
  · exact h.occupied k
  · rintro ⟨x, hx, hreg⟩
    rw [Register.occupied_iff, (h.entry x hx k hreg).1]
    exact x.thread.2

theorem slots_perm (h : Kept s) : s.register.slots.Perm (s.asleep.filterMap Sleeper.reg) := by
  refine (List.perm_ext_iff_of_nodup (Register.nodup_slots _) h.regs).mpr fun k => ?_
  rw [Register.mem_slots]
  exact h.occupied_iff k

/-- The occupied slots belong to sleeping threads. -/
theorem length_le (h : Kept s) : s.register.slots.length ≤ s.asleep.length :=
  h.slots_perm.length_eq.trans_le (List.length_filterMap_le _ _)

/-- A sleeping thread is known by its handle. -/
theorem eq_of_thread (h : Kept s) {x y : Sleeper} (hx : x ∈ s.asleep) (hy : y ∈ s.asleep)
    (hxy : x.thread = y.thread) : x = y := List.inj_on_of_nodup_map h.threads hx hy hxy

/-- And by its slot. -/
theorem eq_of_reg (h : Kept s) {x y : Sleeper} (hx : x ∈ s.asleep) (hy : y ∈ s.asleep) {k : WaiterId}
    (hxk : x.reg = some k) (hyk : y.reg = some k) : x = y := by
  apply h.eq_of_thread hx hy
  apply Subtype.ext
  rw [← (h.entry x hx k hxk).1, (h.entry y hy k hyk).1]

end Kept

/-! ### The steps -/

/-- A thread that was awake goes to sleep with a free slot, or without one when all are occupied. -/
theorem claim_cases {me : ThreadId} {addr : Addr} {now : UInt64}
    (hs : step s (.claim me addr now) = some s') :
    me ∉ s.asleep.map Sleeper.thread ∧
    ((∃ k, s.register.occupied k = false ∧
        s' = ⟨s.register.set k ⟨me, addr, now⟩, ⟨me, addr, some k⟩ :: s.asleep⟩) ∨
      (∀ k, s.register.occupied k = true) ∧ s' = ⟨s.register, ⟨me, addr, none⟩ :: s.asleep⟩) := by
  unfold step at hs
  dsimp only at hs
  split_ifs at hs with hme
  have hs := Option.some.inj hs
  constructor
  · simpa using hme
  · rcases Register.claim_cases s.register me addr now with ⟨k, hk, hclaim⟩ | ⟨hfull, hclaim⟩
    · rw [hclaim] at hs
      exact Or.inl ⟨k, hk, hs.symm⟩
    · rw [hclaim] at hs
      exact Or.inr ⟨hfull, hs.symm⟩

/-- A sleeping thread gives up what it holds. -/
theorem release_cases {me : ThreadId} (hs : step s (.release me) = some s') :
    ∃ x ∈ s.asleep, x.thread = me ∧
      s' = ⟨s.register.release x.reg, s.asleep.filter fun y => y.thread ≠ me⟩ := by
  unfold step at hs
  obtain ⟨x, hfind, hs⟩ := Option.map_eq_some_iff.mp hs
  exact ⟨x, List.mem_of_find?_eq_some hfind, by simpa using List.find?_some hfind, hs.symm⟩

namespace Kept

theorem step_claim (h : Kept s) {me : ThreadId} {addr : Addr} {now : UInt64}
    (hs : step s (.claim me addr now) = some s') : Kept s' := by
  obtain ⟨hme, ⟨k, hk, rfl⟩ | ⟨-, rfl⟩⟩ := claim_cases hs
  · have hfree : k ∉ s.asleep.filterMap Sleeper.reg := by
      rw [← h.occupied_iff, hk]
      exact Bool.false_ne_true
    refine ⟨List.nodup_cons.mpr ⟨hme, h.threads⟩, List.nodup_cons.mpr ⟨hfree, h.regs⟩, ?_, ?_⟩ <;>
      dsimp only
    · intro x hx j hj
      rcases List.mem_cons.mp hx with rfl | hmem
      · obtain rfl := Option.some.inj hj
        rw [Register.set_self]
        exact ⟨rfl, rfl⟩
      · -- the others hold other slots
        have hjk : j ≠ k := by
          rintro rfl
          exact hfree (List.mem_filterMap.mpr ⟨x, hmem, hj⟩)
        rw [Register.set_ne _ _ hjk]
        exact h.entry x hmem j hj
    · intro j hj
      by_cases hjk : j = k
      · exact ⟨_, List.mem_cons_self, by rw [hjk]⟩
      · rw [Register.occupied_iff, Register.set_ne _ _ hjk, ← Register.occupied_iff] at hj
        obtain ⟨x, hx, hreg⟩ := h.occupied j hj
        exact ⟨x, List.mem_cons_of_mem _ hx, hreg⟩
  · refine ⟨List.nodup_cons.mpr ⟨hme, h.threads⟩, h.regs, ?_, ?_⟩ <;> dsimp only
    · intro x hx j hj
      rcases List.mem_cons.mp hx with rfl | hmem
      · cases hj
      · exact h.entry x hmem j hj
    · intro j hj
      obtain ⟨x, hx, hreg⟩ := h.occupied j hj
      exact ⟨x, List.mem_cons_of_mem _ hx, hreg⟩

theorem step_release (h : Kept s) {me : ThreadId} (hs : step s (.release me) = some s') : Kept s' := by
  obtain ⟨x, hx, rfl, rfl⟩ := release_cases hs
  have hsub : (s.asleep.filter fun y => y.thread ≠ x.thread).Sublist s.asleep := List.filter_sublist
  -- what another thread holds stays as it is
  have hother : ∀ y ∈ s.asleep, y.thread ≠ x.thread → ∀ k, y.reg = some k →
      s.register.release x.reg k = s.register k := by
    intro y hy hne k hk
    cases hreg : x.reg with
    | none => rfl
    | some j =>
      apply Register.set_ne
      rintro rfl
      exact hne (congrArg Sleeper.thread (h.eq_of_reg hy hx hk hreg))
  constructor
  · exact h.threads.sublist (hsub.map _)
  · exact h.regs.sublist (hsub.filterMap _)
  · intro y hy k hk
    have hand := List.mem_filter.mp hy
    have hne : y.thread ≠ x.thread := by simpa using hand.2
    show (s.register.release x.reg k).thread = _ ∧ (s.register.release x.reg k).addr = _
    rw [hother y hand.1 hne k hk]
    exact h.entry y hand.1 k hk
  · intro k hk
    -- the slot was occupied before, by a thread that is not the one
    have hbefore : s.register.occupied k = true ∧ x.reg ≠ some k := by
      cases hreg : x.reg with
      | none =>
        rw [hreg] at hk
        exact ⟨hk, by simp⟩
      | some j =>
        rw [hreg] at hk
        have hk : (s.register.set j { s.register j with thread := 0 }).occupied k = true := hk
        by_cases hjk : k = j
        · rw [hjk, Register.occupied_iff, Register.set_self] at hk
          exact absurd rfl hk
        · rw [Register.occupied_iff, Register.set_ne _ _ hjk, ← Register.occupied_iff] at hk
          exact ⟨hk, fun he => hjk (Option.some.inj he).symm⟩
    obtain ⟨y, hy, hreg⟩ := h.occupied k hbefore.1
    refine ⟨y, List.mem_filter.mpr ⟨hy, ?_⟩, hreg⟩
    rw [decide_eq_true_eq]
    intro heq
    rw [h.eq_of_thread hy hx heq] at hreg
    exact hbefore.2 hreg

/-- **Every step keeps the register.** -/
theorem step (h : Kept s) {l : Label} (hs : Sleeping.step s l = some s') : Kept s' := by
  cases l with
  | claim me addr now => exact h.step_claim hs
  | release me => exact h.step_release hs
  | count | waiterAt i =>
    obtain rfl := Option.some.inj hs
    exact h

end Kept

theorem Reaches.kept {ls : List Label} (h : Reaches ls s) : Kept s :=
  Lts.Run.preserves (P := Kept) (fun _ _ _ hs hst => hs.step hst) h Kept.init

/-- While there are no more sleeping threads than slots, each has one. -/
theorem step_registered (h : Kept s) (hreg : ∀ x ∈ s.asleep, x.reg.isSome = true) {l : Label}
    (hs : step s l = some s') (hlen : s'.asleep.length ≤ waiters) :
    ∀ x ∈ s'.asleep, x.reg.isSome = true := by
  cases l with
  | claim me addr now =>
    obtain ⟨-, ⟨k, -, rfl⟩ | ⟨hfull, rfl⟩⟩ := claim_cases hs
    · intro x hx
      rcases List.mem_cons.mp hx with rfl | hx
      · rfl
      · exact hreg x hx
    · -- as many threads as slots were asleep
      have hle := h.length_le
      rw [Register.length_slots_of_full hfull] at hle
      rw [List.length_cons] at hlen
      omega
  | release me =>
    obtain ⟨x, -, -, rfl⟩ := release_cases hs
    exact fun y hy => hreg y (List.mem_filter.mp hy).1
  | count | waiterAt i =>
    obtain rfl := Option.some.inj hs
    exact hreg

/-- With a slot for every sleeping thread. -/
theorem Kept.count_eq (h : Kept s) (hreg : ∀ x ∈ s.asleep, x.reg.isSome = true) :
    s.register.count = s.asleep.length := by
  rw [Register.count_eq, h.slots_perm.length_eq]
  exact List.filterMap_length_eq_length.mpr hreg

end Sleeping

/-! ### The register -/

/-- `orbis_umtx_waiter_at` of `0` to one less than the count answers from the occupied slots, each once, and of
the count returns `0`. -/
structure Register.Listed (T : Register) : Prop where
  slots : ∃ ks : List WaiterId, ks.Nodup ∧ (∀ k, k ∈ ks ↔ T.occupied k = true) ∧
    ((List.range T.count).map fun n : ℕ => T.slotAt n) = ks.map some ∧
    ((List.range T.count).map fun n : ℕ => T.waiterAt n) = ks.map fun k => some (T k)
  past : T.waiterAt T.count = none

theorem Register.listed (T : Register) : T.Listed := by
  have hslots : ((List.range T.count).map fun n : ℕ => T.slotAt n) = T.slots.map some := by
    apply List.ext_getElem
    · simp [T.count_eq]
    · intro n hn _
      rw [List.getElem_map, List.getElem_map, List.getElem_range, T.slotAt_eq, List.getElem?_eq_getElem]
  refine ⟨⟨T.slots, T.nodup_slots, fun k => mem_slots, hslots, ?_⟩, ?_⟩
  · have hmap := congrArg (List.map (Option.map T)) hslots
    rw [List.map_map, List.map_map] at hmap
    exact hmap
  · unfold waiterAt
    rw [T.slotAt_eq, T.count_eq, List.getElem?_eq_none le_rfl]
    rfl

/-- Who has the occupied slots. -/
structure Sleeping.Told (s : Sleeping) : Prop where
  /-- An occupied slot is that of exactly one sleeping thread, -/
  owner : ∀ k, s.register.occupied k = true → ∃! x, x ∈ s.asleep ∧ x.reg = some k
  /-- and holds that thread and the address it waits on. -/
  entry : ∀ x ∈ s.asleep, ∀ k, x.reg = some k →
    (s.register k).thread = x.thread ∧ (s.register k).addr = x.addr
  /-- No thread has two. -/
  once : ∀ j k, s.register.occupied j = true → s.register.occupied k = true →
    (s.register j).thread = (s.register k).thread → j = k

namespace Sleeping

variable {s : Sleeping}

theorem Kept.told (h : Kept s) : Told s := by
  refine ⟨fun k hk => ?_, h.entry, fun j k hj hk heq => ?_⟩
  · obtain ⟨x, hx, hreg⟩ := h.occupied k hk
    exact ⟨x, ⟨hx, hreg⟩, fun y hy => h.eq_of_reg hy.1 hx hy.2 hreg⟩
  · obtain ⟨x, hx, hxj⟩ := h.occupied j hj
    obtain ⟨y, hy, hyk⟩ := h.occupied k hk
    have hthread : x.thread = y.thread := by
      apply Subtype.ext
      rw [← (h.entry x hx j hxj).1, ← (h.entry y hy k hyk).1, heq]
    obtain rfl := h.eq_of_thread hx hy hthread
    exact Option.some.inj (hxj.symm.trans hyk)

/-- **The register tells who is asleep.**  Whatever the order of claims, releases and queries: every occupied
slot is that of one sleeping thread, and no thread has two; as long as no more than `ORBIS_UMTX_WAITERS` threads
were ever asleep at once, there are as many occupied slots as sleeping threads; and in any state of the table
`orbis_umtx_waiter_at` lists the occupied slots. -/
theorem Reaches.tells {ls : List Label} (h : Reaches ls s) :
    Told s ∧
    ((∀ u, Lts.Visits (Lts.Next step) init ls s u → u.asleep.length ≤ waiters) →
      s.register.count = s.asleep.length) ∧
    ∀ T : Register, T.Listed := by
  refine ⟨h.kept.told, fun hall => h.kept.count_eq ?_, Register.listed⟩
  have hboth : Kept s ∧ ∀ x ∈ s.asleep, x.reg.isSome = true := by
    refine Lts.Run.preserves_visits (P := fun s => Kept s ∧ ∀ x ∈ s.asleep, x.reg.isSome = true)
      (fun s l t hP hst hlen => ?_) h hall ⟨Kept.init, fun x hx => by cases hx⟩
    exact ⟨hP.1.step hst, step_registered hP.1 hP.2 hst hlen⟩
  exact hboth.2

/-- Three threads go to sleep, the second one wakes up, and a fourth one takes its slot. -/
def holeLabels : List Label :=
  [.claim ⟨0x1000, by decide⟩ 0xa0 1, .claim ⟨0x2000, by decide⟩ 0xb0 2, .claim ⟨0x3000, by decide⟩ 0xa0 3,
    .release ⟨0x2000, by decide⟩, .count, .claim ⟨0x4000, by decide⟩ 0xc0 4, .waiterAt 1]

theorem tells_hole : ∃ s, Reaches holeLabels s ∧
    s.register.waiterAt 1 = some ⟨0x4000, 0xc0, 4⟩ ∧ Told s := by
  obtain ⟨s, hs, hp⟩ := Lts.exists_run_of_exec
    (p := fun s : Sleeping => s.register.waiterAt 1 == some ⟨0x4000, 0xc0, 4⟩)
    (show (Lts.exec step init holeLabels).any _ = true by decide +kernel)
  exact ⟨s, hs, eq_of_beq hp, (Reaches.tells hs).1⟩

end Sleeping

end OrbisCompat.Umtx
