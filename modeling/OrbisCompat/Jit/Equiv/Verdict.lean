import OrbisCompat.Jit.Equiv.Protect

/-!
# When a verdict of `orbis_jit_protect` is stable

The answer to a range comes from the first entry that contains it (`orbisJitAnswering`).  Entries only
grow, so a range that was asked about stays inside an entry, and the stub is never written to it again.
The verdict is another matter: an entry may grow over a range that was recorded behind it with another
verdict.  `PromoteReaches.stable_iff` says that this is all that can go wrong.
-/

namespace OrbisCompat.Jit

/-- Runs of calls of `orbis_jit_protect`, from the first call on. -/
def PromoteReaches (mem : FlatMem) (rs : List Promotion) (w : ProtectWorld) : Prop :=
  Lts.Run (Lts.Next ProtectWorld.promote) ⟨.init mem, []⟩ rs w

section Answering

variable {s s' : ProtectState} {c : ProtectCall} {i : ℕ}

theorem answering_eq_some : orbisJitAnswering s c.addr c.len = some i ↔
    i < s.sPromoted.n ∧ c.Inside (s.sPromoted.slot i) ∧
      ∀ k < i, ¬c.Inside (s.sPromoted.slot k) := by
  unfold orbisJitAnswering ProtectCall.Inside
  rw [CTable.firstIdx_eq_some]
  simp only [Bool.and_eq_true, decide_eq_true_iff, Bool.and_eq_false_iff, decide_eq_false_iff_not,
    not_and_or, ge_iff_le]

theorem answering_eq_none : orbisJitAnswering s c.addr c.len = none ↔
    ∀ k < s.sPromoted.n, ¬c.Inside (s.sPromoted.slot k) := by
  unfold orbisJitAnswering ProtectCall.Inside
  constructor
  · intro h k hk
    have := CTable.firstIdx_eq_none.mp h k hk
    rwa [Bool.and_eq_false_iff, decide_eq_false_iff_not, decide_eq_false_iff_not,
      ← not_and_or] at this
  · intro h
    refine CTable.firstIdx_eq_none.mpr fun k hk => ?_
    rw [Bool.and_eq_false_iff, decide_eq_false_iff_not, decide_eq_false_iff_not, ← not_and_or]
    exact h k hk

/-- A new entry at the end answers for nothing that was answered for. -/
theorem answering_push {e : Promoted}
    (ht : s'.sPromoted = (s.sPromoted.set s.sPromoted.n e).setLen (s.sPromoted.n + 1))
    (h : orbisJitAnswering s c.addr c.len = some i) :
    orbisJitAnswering s' c.addr c.len = some i ∧ s'.sPromoted.slot i = s.sPromoted.slot i := by
  obtain ⟨hi, hin, hbefore⟩ := answering_eq_some.mp h
  have hslot : ∀ k ≤ i, s'.sPromoted.slot k = s.sPromoted.slot k := by
    intro k hk
    rw [ht]
    show (s.sPromoted.set s.sPromoted.n e).slot k = _
    rw [CTable.set_slot, if_neg (by omega)]
  have hn : s'.sPromoted.n = s.sPromoted.n + 1 := by rw [ht]; rfl
  refine ⟨answering_eq_some.mpr ⟨by omega, ?_, fun k hk => ?_⟩, hslot i le_rfl⟩
  · rwa [hslot i le_rfl]
  · rw [hslot k hk.le]
    exact hbefore k hk

/-- It answers for its own range, which was in no entry. -/
theorem answering_push_self {e : Promoted}
    (ht : s'.sPromoted = (s.sPromoted.set s.sPromoted.n e).setLen (s.sPromoted.n + 1))
    (h : orbisJitAnswering s c.addr c.len = none) (he : c.Inside e) :
    orbisJitAnswering s' c.addr c.len = some s.sPromoted.n ∧
      s'.sPromoted.slot s.sPromoted.n = e := by
  have hslot : s'.sPromoted.slot s.sPromoted.n = e := by
    rw [ht]
    show (s.sPromoted.set s.sPromoted.n e).slot s.sPromoted.n = e
    rw [CTable.set_slot, if_pos rfl]
  have hn : s'.sPromoted.n = s.sPromoted.n + 1 := by rw [ht]; rfl
  refine ⟨answering_eq_some.mpr ⟨by omega, by rwa [hslot], fun k hk => ?_⟩, hslot⟩
  rw [ht]
  show ¬c.Inside ((s.sPromoted.set s.sPromoted.n e).slot k)
  rw [CTable.set_slot, if_neg (by omega)]
  exact answering_eq_none.mp h k hk

/-- **A grown entry** answers for what lies in it and in no entry in front of it; every other range
keeps its entry. -/
theorem answering_grow {e : Promoted} {j : ℕ} (ht : s'.sPromoted = s.sPromoted.set j e)
    (hj : j < s.sPromoted.n) (hgrow : c.Inside (s.sPromoted.slot j) → c.Inside e)
    (h : orbisJitAnswering s c.addr c.len = some i) :
    (c.Inside e ∧ j ≤ i ∧ orbisJitAnswering s' c.addr c.len = some j) ∨
      ((c.Inside e → i < j) ∧ i ≠ j ∧ orbisJitAnswering s' c.addr c.len = some i) := by
  obtain ⟨hi, hin, hbefore⟩ := answering_eq_some.mp h
  have hn : s'.sPromoted.n = s.sPromoted.n := by rw [ht]; rfl
  have hslot : ∀ k, s'.sPromoted.slot k = if k = j then e else s.sPromoted.slot k := by
    intro k
    rw [ht, CTable.set_slot]
  by_cases hswallow : c.Inside e ∧ j ≤ i
  · refine Or.inl ⟨hswallow.1, hswallow.2, answering_eq_some.mpr ⟨by omega, ?_, fun k hk => ?_⟩⟩
    · rw [hslot, if_pos rfl]
      exact hswallow.1
    · rw [hslot, if_neg hk.ne]
      exact hbefore k (hk.trans_le hswallow.2)
  · have hne : i ≠ j := by
      rintro rfl
      exact hswallow ⟨hgrow hin, le_rfl⟩
    have hlt : c.Inside e → i < j := fun he => not_le.mp fun hle => hswallow ⟨he, hle⟩
    refine Or.inr ⟨hlt, hne, answering_eq_some.mpr ⟨by omega, ?_, fun k hk => ?_⟩⟩
    · rwa [hslot, if_neg hne]
    · rw [hslot]
      split_ifs with hkj
      · intro he
        have := hlt he
        omega
      · exact hbefore k hk

/-- A grown entry answers for a range that lies in it and was in no entry. -/
theorem answering_grow_self {e : Promoted} {j : ℕ} (ht : s'.sPromoted = s.sPromoted.set j e)
    (hj : j < s.sPromoted.n) (h : orbisJitAnswering s c.addr c.len = none) (he : c.Inside e) :
    orbisJitAnswering s' c.addr c.len = some j := by
  have hn : s'.sPromoted.n = s.sPromoted.n := by rw [ht]; rfl
  refine answering_eq_some.mpr ⟨by omega, ?_, fun k hk => ?_⟩
  · rwa [ht, CTable.set_slot, if_pos rfl]
  · rw [ht, CTable.set_slot, if_neg hk.ne]
    exact answering_eq_none.mp h k (hk.trans hj)

end Answering

/-! ### What a call can do -/

section Cases

variable {s : ProtectState} {w w' : ProtectWorld} {r : Promotion} {i : ℕ}

/-- `orbis_jit_protect` in terms of the two searches. -/
theorem orbisJitProtect_eq (pf : Platform) (s : ProtectState) (addr len : ℕ) :
    orbisJitProtect pf s addr len =
      let base := orbisJitRoundBase addr
      let end_ := orbisJitRoundEnd addr len
      match orbisJitAnswering s addr len with
      | some i => (s, ⟨addr, len, (s.sPromoted.slot i).ok, none, none, false⟩)
      | none =>
        if pf.mprotect base (Word64.sub end_ base) = false then
          let (s', full) := orbisJitSettle s base end_ false
          (s', ⟨addr, len, false, none, none, full⟩)
        else
          match orbisJitOverlap s addr len with
          | some i =>
            let e := s.sPromoted.slot i
            ({ s with sPromoted := s.sPromoted.set i (e.widen base end_) },
              ⟨addr, len, e.ok, some ⟨base, Word64.sub end_ base⟩, none, false⟩)
          | none =>
            let (mem, ok) := orbisJitVerify pf s.st.mem addr
            let (s', full) := orbisJitSettle { s with st := { s.st with mem := mem } } base end_ ok
            (s', ⟨addr, len, ok, some ⟨base, Word64.sub end_ base⟩, some addr, full⟩) := rfl

/-- An answer from the table touches nothing. -/
theorem orbisJitProtect_answering {addr len : ℕ} (pf : Platform)
    (h : orbisJitAnswering s addr len = some i) :
    orbisJitProtect pf s addr len =
      (s, ⟨addr, len, (s.sPromoted.slot i).ok, none, none, false⟩) := by
  rw [orbisJitProtect_eq, h]

theorem inside_extend_self (r : Promotion) (e : Promoted) {c : ProtectCall} (ha : c.addr = r.addr)
    (hl : c.len = r.len) : c.Inside (r.extend e) := by
  unfold ProtectCall.Inside Promotion.extend Promoted.widen
  rw [ha, hl]
  dsimp only
  constructor <;> split_ifs <;> omega

/-- An entry only grows. -/
theorem inside_extend (r : Promotion) {e : Promoted} {c : ProtectCall} (h : c.Inside e) :
    c.Inside (r.extend e) := by
  obtain ⟨h1, h2⟩ := h
  unfold ProtectCall.Inside Promotion.extend Promoted.widen
  dsimp only
  constructor <;> split_ifs <;> omega

/-- With room in the table the verdict is recorded in a new entry. -/
theorem orbisJitSettle_room (base end_ : ℕ) (ok : Bool) (hroom : s.sPromoted.n < orbisJitMaxPromoted) :
    (orbisJitSettle s base end_ ok).1.sPromoted
      = (s.sPromoted.set s.sPromoted.n ⟨base, end_, ok⟩).setLen (s.sPromoted.n + 1) := by
  unfold orbisJitSettle
  dsimp only
  rw [if_pos hroom]

/-- **One call**: it is answered from the table, or it records a new entry, or it widens one. -/
theorem promote_cases (h : w.promote r = some w') :
    ∃ c, w'.log = c :: w.log ∧ c.addr = r.addr ∧ c.len = r.len ∧
      ((∃ i, orbisJitAnswering w.s r.addr r.len = some i ∧ orbisJitWidens w.s r = none ∧
          w'.s = w.s ∧ c.ok = (w.s.sPromoted.slot i).ok) ∨
       (orbisJitAnswering w.s r.addr r.len = none ∧ orbisJitWidens w.s r = none ∧
          ∃ e, c.Inside e ∧ e.ok = c.ok ∧ w'.s.sPromoted =
            (w.s.sPromoted.set w.s.sPromoted.n e).setLen (w.s.sPromoted.n + 1)) ∨
       ∃ i, orbisJitAnswering w.s r.addr r.len = none ∧ orbisJitWidens w.s r = some i ∧
          i < w.s.sPromoted.n ∧ c.ok = (w.s.sPromoted.slot i).ok ∧
          w'.s.sPromoted = w.s.sPromoted.set i (r.extend (w.s.sPromoted.slot i))) := by
  unfold ProtectWorld.promote at h
  split_ifs at h with hroom
  obtain rfl := Option.some.inj h
  refine ⟨_, rfl, ?_⟩
  unfold orbisJitWidens
  cases hans : orbisJitAnswering w.s r.addr r.len with
  | some i =>
    rw [orbisJitProtect_answering r.pf hans]
    exact ⟨rfl, rfl, Or.inl ⟨i, rfl, by simp, rfl, rfl⟩⟩
  | none =>
    have hself : ∀ ok c, ProtectCall.addr c = r.addr → ProtectCall.len c = r.len →
        c.Inside ⟨orbisJitRoundBase r.addr, orbisJitRoundEnd r.addr r.len, ok⟩ := by
      intro ok c ha hl
      unfold ProtectCall.Inside
      rw [ha, hl]
      exact ⟨le_rfl, le_rfl⟩
    rw [orbisJitProtect_eq, hans]
    dsimp only
    cases hgrant : r.granted with
    | false =>
      rw [if_pos (show r.pf.mprotect _ _ = false from hgrant), if_neg (by simp)]
      exact ⟨rfl, rfl, Or.inr (Or.inl ⟨rfl, rfl, _, hself _ _ rfl rfl, rfl,
        orbisJitSettle_room _ _ _ hroom⟩)⟩
    | true =>
      rw [if_neg (by rw [show r.pf.mprotect _ _ = true from hgrant]; simp), if_pos ⟨rfl, rfl⟩]
      cases hover : orbisJitOverlap w.s r.addr r.len with
      | some i =>
        exact ⟨rfl, rfl, Or.inr (Or.inr ⟨i, rfl, rfl, (CTable.firstIdx_eq_some.mp hover).1, rfl,
          rfl⟩)⟩
      | none =>
        exact ⟨rfl, rfl, Or.inr (Or.inl ⟨rfl, rfl, _, hself _ _ rfl rfl, rfl,
          orbisJitSettle_room _ _ _ hroom⟩)⟩

end Cases

/-! ### Runs -/

/-- Every range asked about lies in an entry. -/
def ProtectWorld.Kept (w : ProtectWorld) : Prop :=
  ∀ c ∈ w.log, ∃ i, orbisJitAnswering w.s c.addr c.len = some i

section Runs

variable {w w' : ProtectWorld} {r : Promotion}

/-- The answer to a range asked about is the verdict of its entry, and nothing is written. -/
theorem ProtectWorld.Kept.repeats_iff (K : w.Kept) : w.Repeats ↔
    ∀ c ∈ w.log, ∀ i, orbisJitAnswering w.s c.addr c.len = some i →
      (w.s.sPromoted.slot i).ok = c.ok := by
  constructor
  · intro h c hc i hi
    obtain ⟨hok, -⟩ := h c hc .idle
    rwa [orbisJitProtect_answering _ hi] at hok
  · intro h c hc pf
    obtain ⟨i, hi⟩ := K c hc
    rw [orbisJitProtect_answering pf hi]
    exact ⟨h c hc i hi, rfl, rfl⟩

/-- **Entries only grow**, so a range that was asked about stays in one. -/
theorem ProtectWorld.Kept.step (K : w.Kept) (h : w.promote r = some w') : w'.Kept := by
  obtain ⟨c, hlog, ha, hl, hcase⟩ := promote_cases h
  intro d hd
  rw [hlog] at hd
  rcases hcase with ⟨i, hans, -, hs, -⟩ | ⟨hans, -, e, he, -, ht⟩ | ⟨i, hans, -, hi, -, ht⟩
  · rw [hs]
    rcases List.mem_cons.mp hd with rfl | hd
    · exact ⟨i, by rwa [ha, hl]⟩
    · exact K d hd
  · rcases List.mem_cons.mp hd with rfl | hd
    · exact ⟨_, (answering_push_self ht (by rwa [ha, hl]) he).1⟩
    · obtain ⟨j, hj⟩ := K d hd
      exact ⟨j, (answering_push ht hj).1⟩
  · rcases List.mem_cons.mp hd with rfl | hd
    · exact ⟨i, answering_grow_self ht hi (by rwa [ha, hl]) (inside_extend_self r _ ha hl)⟩
    · obtain ⟨j, hj⟩ := K d hd
      rcases answering_grow ht hi (inside_extend r) hj with ⟨-, -, h⟩ | ⟨-, -, h⟩
      · exact ⟨i, h⟩
      · exact ⟨j, h⟩

/-- **One call keeps all verdicts exactly when it agrees** with those given before. -/
theorem ProtectWorld.Kept.repeats_step (K : w.Kept) (P : w.Repeats) (h : w.promote r = some w') :
    w'.Repeats ↔ w.Agrees r := by
  rw [K.repeats_iff] at P
  rw [(K.step h).repeats_iff]
  obtain ⟨c, hlog, ha, hl, hcase⟩ := promote_cases h
  rw [hlog]
  rcases hcase with ⟨i, hans, hwid, hs, hok⟩ | ⟨hans, hwid, e, he, hok, ht⟩ |
    ⟨i, hans, hwid, hi, hok, ht⟩
  · refine iff_of_true (fun d hd j hj => ?_) (fun j hj => by rw [hwid] at hj; cases hj)
    rw [hs] at hj ⊢
    rcases List.mem_cons.mp hd with rfl | hd
    · rw [ha, hl, hans] at hj
      obtain rfl := Option.some.inj hj
      exact hok.symm
    · exact P d hd j hj
  · refine iff_of_true (fun d hd j hj => ?_) (fun j hj => by rw [hwid] at hj; cases hj)
    rcases List.mem_cons.mp hd with rfl | hd
    · obtain ⟨hnew, hslot⟩ := answering_push_self ht (by rwa [ha, hl]) he
      obtain rfl := Option.some.inj (hnew.symm.trans hj)
      rw [hslot, hok]
    · obtain ⟨k, hk⟩ := K d hd
      obtain ⟨hold, hslot⟩ := answering_push ht hk
      obtain rfl := Option.some.inj (hold.symm.trans hj)
      rw [hslot]
      exact P d hd k hk
  · -- the widened entry keeps its verdict
    have hoks : ∀ k, (w'.s.sPromoted.slot k).ok = (w.s.sPromoted.slot k).ok := by
      intro k
      rw [ht, CTable.set_slot]
      split_ifs with hki
      · rw [hki]
        rfl
      · rfl
    constructor
    · intro hall j hj d hd hin
      obtain rfl : i = j := Option.some.inj (hwid.symm.trans hj)
      obtain ⟨k, hk⟩ := K d hd
      obtain ⟨-, hink, -⟩ := answering_eq_some.mp hk
      rcases answering_grow ht hi (inside_extend r) hk with ⟨-, -, hnew⟩ | ⟨hlt, -, -⟩
      · have := hall d (List.mem_cons_of_mem _ hd) i hnew
        rw [hoks] at this
        exact Or.inl this.symm
      · exact Or.inr ⟨k, hlt hin, hink⟩
    · intro hagree d hd j hj
      rw [hoks]
      rcases List.mem_cons.mp hd with rfl | hd
      · have hnew := answering_grow_self ht hi (c := d) (by rwa [ha, hl]) (inside_extend_self r _ ha hl)
        obtain rfl := Option.some.inj (hnew.symm.trans hj)
        exact hok.symm
      · obtain ⟨k, hk⟩ := K d hd
        obtain ⟨-, -, hbefore⟩ := answering_eq_some.mp hk
        rcases answering_grow ht hi (inside_extend r) hk with ⟨hin, hle, hnew⟩ | ⟨-, -, hold⟩
        · obtain rfl := Option.some.inj (hnew.symm.trans hj)
          rcases hagree i hwid d hd hin with hsame | ⟨m, hm, hinm⟩
          · exact hsame.symm
          · exact absurd hinm (hbefore m (hm.trans_le hle))
        · obtain rfl := Option.some.inj (hold.symm.trans hj)
          exact P d hd k hk

/-- **When verdicts are stable.**  In every run of `orbis_jit_protect`, for any ranges and any answers of
the platform, with room in the table: in all states on the way, calling again for a range asked about
gives the verdict it was given and writes nothing, exactly when no call grows an entry over a range that
was given the other verdict by an entry behind it. -/
theorem PromoteReaches.stable_iff {mem : FlatMem} {rs : List Promotion} {w : ProtectWorld}
    (h : PromoteReaches mem rs w) :
    (∀ u, Lts.Visits (Lts.Next ProtectWorld.promote) ⟨.init mem, []⟩ rs w u → u.Repeats) ↔
      Lts.Run (Lts.Guarded ProtectWorld.Agrees (Lts.Next ProtectWorld.promote))
        ⟨.init mem, []⟩ rs w := by
  refine Lts.Run.visits_iff_guarded (I := ProtectWorld.Kept) Lts.next_det (fun _ _ _ K h => K.step h)
    (fun _ _ _ K P h => K.repeats_step P h) h ?_ ?_
  · intro c hc
    cases hc
  · intro c hc
    cases hc

end Runs

theorem promote_next {w : ProtectWorld} {r : Promotion} (hroom : w.s.sPromoted.n < orbisJitMaxPromoted) :
    Lts.Next ProtectWorld.promote w r ⟨(orbisJitProtect r.pf w.s r.addr r.len).1,
      (orbisJitProtect r.pf w.s r.addr r.len).2 :: w.log⟩ := if_pos hroom

/-- Two ranges that overlap, on a console that grants everything. -/
theorem stable_overlapping : ∃ w,
    PromoteReaches (fun _ => 0) [⟨.idle, 0x400000, 0x8000⟩, ⟨.idle, 0x406000, 0x4000⟩] w ∧
    w.Repeats := by
  have hrun : PromoteReaches (fun _ => 0)
      [⟨.idle, 0x400000, 0x8000⟩, ⟨.idle, 0x406000, 0x4000⟩] _ :=
    .cons (promote_next (by decide)) (.cons (promote_next (by decide)) (.nil _))
  refine ⟨_, hrun, hrun.stable_iff.mpr ?_ _ ⟨_, [], rfl, hrun, .nil _⟩⟩
  refine .cons ⟨fun i _ c hc => absurd hc List.not_mem_nil, promote_next (by decide)⟩
    (.cons ⟨fun i hi c hc _ => Or.inl ?_, promote_next (by decide)⟩ (.nil _))
  obtain rfl : 0 = i := Option.some.inj (Eq.trans (by decide +kernel) hi)
  obtain rfl := List.mem_singleton.mp hc
  decide +kernel

/-- The second of three ranges is refused and the third, which contains the first two, is granted: it
widens the entry of the first, and the second range has changed its verdict. -/
theorem not_repeats_swallowed : ∃ w,
    PromoteReaches (fun _ => 0) [⟨.idle, 0x801000000, 0x4000⟩,
      ⟨{ Platform.idle with mprotect := fun _ _ => false }, 0x801004000, 0x4000⟩,
      ⟨.idle, 0x801000000, 0x8000⟩] w ∧
    w.log.map (fun c => (c.addr, c.len, c.ok)) = [(0x801000000, 0x8000, true),
      (0x801004000, 0x4000, false), (0x801000000, 0x4000, true)] ∧
    (orbisJitProtect .idle w.s 0x801004000 0x4000).2.ok = true ∧ w.s.sPromoted.n = 2 ∧
    ¬w.Repeats := by
  have hagain : ∀ {w : ProtectWorld} {c : ProtectCall}, c ∈ w.log → c.ok = false →
      (orbisJitProtect .idle w.s c.addr c.len).2.ok = true → ¬w.Repeats := by
    intro w c hc hok hnow hrep
    have := (hrep c hc .idle).1
    rw [hnow, hok] at this
    cases this
  refine ⟨_, .cons (promote_next (by decide)) (.cons (promote_next (by decide))
    (.cons (promote_next (by decide +kernel)) (.nil _))), by decide +kernel, by decide +kernel, by decide +kernel, ?_⟩
  exact hagain (List.mem_cons_of_mem _ List.mem_cons_self) (by decide +kernel) (by decide +kernel)

end OrbisCompat.Jit
