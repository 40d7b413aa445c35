import OrbisCompat.Jit.Equiv.Suballocator
import OrbisCompat.Jit.Protect

/-!
# What the promotion table proves

`Proven s log` relates the table to the calls made so far: every range that was decided is inside an
entry (as long as the table has not overflowed), every granule of an entry with verdict `1` has been
made executable, and once anything was refused the verdict of the module is `0`.

Entries are widened to unions and may overlap.  That is no matter, since a union with a range that it
meets has no granules but those of the two (`Promoted.granules_widen`).
-/

namespace OrbisCompat.Jit

open Extent

variable {anchor : ℕ} {pf : Platform}

/-- The granules of an entry. -/
def Promoted.granules (e : Promoted) : Set ℕ :=
  {g | e.base ≤ g * orbisJitGranule ∧ g * orbisJitGranule < e.end_}

/-- The range that `orbis_jit_protect` works with. -/
structure Rounded (addr len base end_ : ℕ) : Prop where
  granules : ∀ g, g ∈ granulesOf addr len ↔ base ≤ g * orbisJitGranule ∧ g * orbisJitGranule < end_
  base_dvd : orbisJitGranule ∣ base
  end_dvd : orbisJitGranule ∣ end_
  le : base ≤ end_
  end_lt : end_ < 2 ^ 64

theorem rounded {addr len : ℕ} (h : ProperRange addr len) :
    Rounded addr len (addr &&& Word64.not (orbisJitGranule - 1))
      (Word64.alignUp (Word64.add addr len) orbisJitGranule) := by
  obtain ⟨hlen, hwrap⟩ := h
  rw [show orbisJitStub.length = 6 from rfl] at hlen
  unfold orbisJitGranule at *
  have hbase : addr &&& Word64.not (0x4000 - 1) = addr / 0x4000 * 0x4000 :=
    Word64.and_high_mask (k := 14) (by omega) (by norm_num)
  have hend : Word64.alignUp (Word64.add addr len) 0x4000
      = (addr + len + 0x3fff) / 0x4000 * 0x4000 := by
    rw [Word64.add_of_lt (by omega)]
    exact Word64.alignUp_of_lt (k := 14) (by norm_num) (by omega)
  rw [hbase, hend]
  refine ⟨fun g => ?_, Nat.dvd_mul_left _ _, Nat.dvd_mul_left _ _, by omega, by omega⟩
  show g * 0x4000 < addr + len ∧ addr < (g + 1) * 0x4000 ↔ _
  unfold orbisJitGranule
  omega

/-- A granted range makes all its granules executable. -/
theorem Rounded.covers {addr len base end_ g : ℕ} (hr : Rounded addr len base end_)
    {c : ProtectCall} (hc : c.mprotected = some ⟨base, Word64.sub end_ base⟩)
    (hg : g ∈ granulesOf addr len) : c.Covers g := by
  obtain ⟨hlo, hhi⟩ := (hr.granules g).mp hg
  have hend := hr.end_dvd
  refine ⟨_, hc, hlo, ?_⟩
  rw [Word64.sub_of_le hr.le hr.end_lt]
  unfold stop orbisJitGranule at *
  dsimp only
  have := hr.le
  omega

/-- An entry widened by a range that it meets. -/
theorem granules_widen {addr len base end_ g : ℕ} (hr : Rounded addr len base end_) {e : Promoted}
    (hmeet : base < e.end_ ∧ end_ > e.base) :
    g ∈ (e.widen base end_).granules ↔ g ∈ granulesOf addr len ∨ g ∈ e.granules := by
  rw [hr.granules]
  unfold Promoted.widen Promoted.granules
  show _ ∧ _ ↔ _ ∨ _ ∧ _
  dsimp only
  split_ifs <;> omega

/-! ### What a call can do -/

section Cases

variable {s : ProtectState} {addr len base end_ : ℕ}

/-- **`orbis_jit_protect`** finds the range in an entry; or it asks the kernel, and is refused, or widens
an entry that the range meets, or writes the stub to a range that meets none. -/
theorem orbisJitProtect_cases (pf : Platform) (s : ProtectState) (addr len : ℕ) {base end_ : ℕ}
    (hbase : addr &&& Word64.not (orbisJitGranule - 1) = base)
    (hend : Word64.alignUp (Word64.add addr len) orbisJitGranule = end_) :
    (∃ e ∈ s.sPromoted.toList, e.base ≤ base ∧ end_ ≤ e.end_ ∧
      orbisJitProtect pf s addr len = (s, ⟨addr, len, e.ok, none, none, false⟩)) ∨
    orbisJitProtect pf s addr len = ((orbisJitSettle s base end_ false).1,
      ⟨addr, len, false, none, none, (orbisJitSettle s base end_ false).2⟩) ∨
    (∃ i < s.sPromoted.n, ∃ e, s.sPromoted.slot i = e ∧ (base < e.end_ ∧ end_ > e.base) ∧
      orbisJitProtect pf s addr len = ({ s with sPromoted := s.sPromoted.set i (e.widen base end_) },
        ⟨addr, len, e.ok, some ⟨base, Word64.sub end_ base⟩, none, false⟩)) ∨
    (∀ e ∈ s.sPromoted.toList, ¬(base < e.end_ ∧ end_ > e.base)) ∧ ∃ s₁ ok,
      s₁ = { s with st := { s.st with mem := s.st.mem.store addr orbisJitStub } } ∧
      orbisJitProtect pf s addr len = ((orbisJitSettle s₁ base end_ ok).1,
        ⟨addr, len, ok, some ⟨base, Word64.sub end_ base⟩, some addr,
          (orbisJitSettle s₁ base end_ ok).2⟩) := by
  unfold orbisJitProtect
  rw [hbase, hend]
  dsimp only
  cases hin : s.sPromoted.firstIdx fun e => decide (base ≥ e.base) && decide (end_ ≤ e.end_) with
  | some i =>
    obtain ⟨hi, hp, -⟩ := CTable.firstIdx_eq_some.mp hin
    rw [Bool.and_eq_true, decide_eq_true_iff, decide_eq_true_iff] at hp
    exact Or.inl ⟨_, CTable.mem_toList.mpr ⟨i, hi, rfl⟩, hp.1, hp.2, rfl⟩
  | none =>
    right
    by_cases hprot : pf.mprotect base (Word64.sub end_ base) = false
    · rw [if_pos hprot]
      exact Or.inl rfl
    · rw [if_neg hprot]
      right
      cases hmeet : s.sPromoted.firstIdx fun e =>
          decide (base < e.end_) && decide (end_ > e.base) with
      | some i =>
        obtain ⟨hi, hp, -⟩ := CTable.firstIdx_eq_some.mp hmeet
        rw [Bool.and_eq_true, decide_eq_true_iff, decide_eq_true_iff] at hp
        exact Or.inl ⟨i, hi, _, rfl, hp, rfl⟩
      | none =>
        have hnone := CTable.firstIdx_eq_none.mp hmeet
        refine Or.inr ⟨fun e he => ?_, _, _, rfl, rfl⟩
        obtain ⟨i, hi, rfl⟩ := CTable.mem_toList.mp he
        have := hnone i hi
        rwa [Bool.and_eq_false_iff, decide_eq_false_iff_not, decide_eq_false_iff_not,
          ← not_and_or] at this

end Cases

/-! ### The invariant -/

/-- **The invariant**, for the entries of the table, the verdict of the module and the calls made. -/
structure Proven (entries : List Promoted) (state : ℤ) (log : List ProtectCall) : Prop where
  kept : (∀ c ∈ log, c.full = false) → ∀ c ∈ log, ∃ e ∈ entries, c.granules ⊆ e.granules
  covered : ∀ e ∈ entries, e.ok = true → ∀ g ∈ e.granules, ∃ c ∈ log, c.Covers g
  sound : ∀ c ∈ log, c.ok = true → ∀ g ∈ c.granules, ∃ d ∈ log, d.Covers g
  refused : ((∃ c ∈ log, c.ok = false) ∨ ∃ e ∈ entries, e.ok = false) → state = 0

def ProtectWorld.Ok (w : ProtectWorld) : Prop :=
  Proven w.s.sPromoted.toList w.s.st.sState w.log

/-- The verdict of the module only ever gets worse. -/
theorem orbisJitRecord_zero {state : ℤ} {ok : Bool} (h : state = 0 ∨ ok = false) :
    orbisJitRecord state ok = 0 := by
  unfold orbisJitRecord
  rcases h with rfl | rfl <;> simp

namespace Proven

variable {entries : List Promoted} {state : ℤ} {log : List ProtectCall} {c : ProtectCall}
  {e : Promoted}

theorem empty (state : ℤ) : Proven [] state [] := ⟨by simp, by simp, by simp, by simp⟩

/-- A granule that was covered stays covered. -/
theorem covers_cons {g : ℕ} (h : ∃ d ∈ log, d.Covers g) : ∃ d ∈ c :: log, d.Covers g := by
  obtain ⟨d, hd, hg⟩ := h
  exact ⟨d, List.mem_cons_of_mem _ hd, hg⟩

/-- **An answer from the table.** -/
theorem found (P : Proven entries state log) (he : e ∈ entries) (hsub : c.granules ⊆ e.granules)
    (hok : c.ok = e.ok) : Proven entries state (c :: log) := by
  refine ⟨fun hfull d hd => ?_, fun f hf h g hg => covers_cons (P.covered f hf h g hg),
    fun d hd h g hg => covers_cons ?_, fun h => P.refused ?_⟩
  · rcases List.mem_cons.mp hd with rfl | hd
    · exact ⟨e, he, hsub⟩
    · exact P.kept (fun d hd => hfull d (List.mem_cons_of_mem _ hd)) d hd
  · rcases List.mem_cons.mp hd with rfl | hd
    · exact P.covered e he (hok ▸ h) g (hsub hg)
    · exact P.sound d hd h g hg
  · rcases h with ⟨d, hd, h⟩ | h
    · rcases List.mem_cons.mp hd with rfl | hd
      · exact Or.inr ⟨e, he, hok ▸ h⟩
      · exact Or.inl ⟨d, hd, h⟩
    · exact Or.inr h

/-- **A widened entry**: its granules are those it had, and those of the call, which was granted. -/
theorem widen {l₁ l₂ : List Promoted} {e' : Promoted} (P : Proven (l₁ ++ e :: l₂) state log)
    (hgran : ∀ g, g ∈ e'.granules ↔ g ∈ c.granules ∨ g ∈ e.granules) (he' : e'.ok = e.ok)
    (hok : c.ok = e.ok) (hcov : ∀ g ∈ c.granules, c.Covers g) :
    Proven (l₁ ++ e' :: l₂) state (c :: log) := by
  have hall : ∀ {Q : Promoted → Prop}, (∀ f ∈ l₁ ++ e :: l₂, Q f) → Q e' →
      ∀ f ∈ l₁ ++ e' :: l₂, Q f := by
    intro Q h1 h2 f hf
    simp only [List.mem_append, List.mem_cons] at hf h1
    rcases hf with hf | rfl | hf
    · exact h1 f (Or.inl hf)
    · exact h2
    · exact h1 f (Or.inr (Or.inr hf))
  have hex : ∀ {Q : Promoted → Prop}, (∃ f ∈ l₁ ++ e :: l₂, Q f) → (Q e → Q e') →
      ∃ f ∈ l₁ ++ e' :: l₂, Q f := by
    rintro Q ⟨f, hf, h1⟩ h2
    simp only [List.mem_append, List.mem_cons] at hf
    rcases hf with hf | rfl | hf
    · exact ⟨f, by simp [hf], h1⟩
    · exact ⟨e', by simp, h2 h1⟩
    · exact ⟨f, by simp [hf], h1⟩
  have he : e ∈ l₁ ++ e :: l₂ := by simp
  refine ⟨fun hfull d hd => ?_, hall (fun f hf h g hg => covers_cons (P.covered f hf h g hg)) ?_,
    fun d hd h g hg => ?_, fun h => P.refused ?_⟩
  · rcases List.mem_cons.mp hd with rfl | hd
    · exact ⟨e', by simp, fun g hg => (hgran g).mpr (Or.inl hg)⟩
    · exact hex (P.kept (fun d hd => hfull d (List.mem_cons_of_mem _ hd)) d hd)
        fun hsub g hg => (hgran g).mpr (Or.inr (hsub hg))
  · intro h g hg
    rcases (hgran g).mp hg with hg | hg
    · exact ⟨c, List.mem_cons_self, hcov g hg⟩
    · exact covers_cons (P.covered e he (he' ▸ h) g hg)
  · rcases List.mem_cons.mp hd with rfl | hd
    · exact ⟨d, List.mem_cons_self, hcov g hg⟩
    · exact covers_cons (P.sound d hd h g hg)
  · rcases h with ⟨d, hd, h⟩ | ⟨f, hf, h⟩
    · rcases List.mem_cons.mp hd with rfl | hd
      · exact Or.inr ⟨e, he, hok ▸ h⟩
      · exact Or.inl ⟨d, hd, h⟩
    · simp only [List.mem_append, List.mem_cons] at hf
      rcases hf with hf | rfl | hf
      · exact Or.inr ⟨f, by simp [hf], h⟩
      · exact Or.inr ⟨e, he, he' ▸ h⟩
      · exact Or.inr ⟨f, by simp [hf], h⟩

/-- **A new entry**, or none when the table is full; the verdict of the module takes it in. -/
theorem settle {s : ProtectState} {base end_ : ℕ} {ok : Bool}
    (P : Proven s.sPromoted.toList s.st.sState log)
    (hgran : ∀ g, g ∈ c.granules ↔ base ≤ g * orbisJitGranule ∧ g * orbisJitGranule < end_)
    (hok : c.ok = ok) (hfull : c.full = (orbisJitSettle s base end_ ok).2)
    (hcov : ok = true → ∀ g ∈ c.granules, c.Covers g) :
    Proven (orbisJitSettle s base end_ ok).1.sPromoted.toList
      (orbisJitSettle s base end_ ok).1.st.sState (c :: log) := by
  have hstate : ∀ {entries : List Promoted}, (∀ f ∈ entries, f ∈ s.sPromoted.toList ∨ f.ok = ok) →
      ((∃ d ∈ c :: log, d.ok = false) ∨ ∃ f ∈ entries, f.ok = false) →
      orbisJitRecord s.st.sState ok = 0 := by
    intro entries hin h
    refine orbisJitRecord_zero ?_
    rcases h with ⟨d, hd, h⟩ | ⟨f, hf, h⟩
    · rcases List.mem_cons.mp hd with rfl | hd
      · exact Or.inr (hok ▸ h)
      · exact Or.inl (P.refused (Or.inl ⟨d, hd, h⟩))
    · rcases hin f hf with hf | hf
      · exact Or.inl (P.refused (Or.inr ⟨f, hf, h⟩))
      · exact Or.inr (hf ▸ h)
  have hsound : ∀ d ∈ c :: log, d.ok = true → ∀ g ∈ d.granules, ∃ d ∈ c :: log, d.Covers g := by
    intro d hd h g hg
    rcases List.mem_cons.mp hd with rfl | hd
    · exact ⟨d, List.mem_cons_self, hcov (hok ▸ h) g hg⟩
    · exact covers_cons (P.sound d hd h g hg)
  have hold : ∀ f ∈ s.sPromoted.toList, f.ok = true → ∀ g ∈ f.granules,
      ∃ d ∈ c :: log, d.Covers g := fun f hf h g hg => covers_cons (P.covered f hf h g hg)
  unfold orbisJitSettle at hfull ⊢
  dsimp only at hfull ⊢
  split_ifs at hfull ⊢ with hroom
  · dsimp only at hfull ⊢
    rw [CTable.toList_push]
    refine ⟨fun hnone d hd => ?_, fun f hf h g hg => ?_, hsound, hstate fun f hf => ?_⟩
    · rcases List.mem_cons.mp hd with rfl | hd
      · exact ⟨⟨base, end_, ok⟩, by simp, fun g hg => (hgran g).mp hg⟩
      · obtain ⟨e, he, hsub⟩ := P.kept (fun d hd => hnone d (List.mem_cons_of_mem _ hd)) d hd
        exact ⟨e, List.mem_append_left _ he, hsub⟩
    · rcases List.mem_append.mp hf with hf | hf
      · exact hold f hf h g hg
      · obtain rfl := List.mem_singleton.mp hf
        exact ⟨c, List.mem_cons_self, hcov h g ((hgran g).mpr hg)⟩
    · rcases List.mem_append.mp hf with hf | hf
      · exact Or.inl hf
      · obtain rfl := List.mem_singleton.mp hf
        exact Or.inr rfl
  · -- the call that overflows the table is itself in the log
    refine ⟨fun hnone => ?_, hold, hsound, hstate fun f hf => Or.inl hf⟩
    have := hnone c List.mem_cons_self
    rw [hfull] at this
    cases this

end Proven

/-! ### The rest of the file -/

section Refused

variable {s s' : State}

/-- A verdict of `0` is final for `orbis_jit_map` too. -/
theorem orbisJitMap_refused {at' len : ℕ} {r : Option (ℕ × ℕ × ℕ)} (h0 : s.sState = 0)
    (h : orbisJitMap pf s at' len = (s', r)) : s'.sState = 0 := by
  have hrec : ∀ ok, orbisJitRecord s.sState ok = 0 := fun _ => orbisJitRecord_zero (Or.inl h0)
  unfold orbisJitMap at h
  cases hal : pf.allocateDirectMemory len with
  | none =>
    rw [hal] at h
    obtain ⟨rfl, -⟩ := Prod.mk.inj h
    exact h0
  | some phys =>
    rw [hal] at h
    cases hmap : pf.mapNamedDirectMemory at' len with
    | none =>
      rw [hmap] at h
      obtain ⟨rfl, -⟩ := Prod.mk.inj h
      exact h0
    | some got =>
      rw [hmap] at h
      dsimp only at h
      split_ifs at h <;> obtain ⟨rfl, -⟩ := Prod.mk.inj h
      · exact h0
      · exact h0
      · exact hrec _
      · exact hrec _
      · exact hrec _

theorem orbisJitAlloc_refused {size flags p : ℕ} (h0 : s.sState = 0)
    (h : orbisJitAlloc anchor pf s size flags = some (s', p)) : s'.sState = 0 := by
  have htaken : ∀ {t : State} {i : ℕ} {r : State × ℕ}, t.sState = 0 →
      t.takeAt i (orbisJitBlockLen size) = some r →
      orbisJitHeader r.1 r.2 (orbisJitBlockLen size) = (s', p) → s'.sState = 0 := by
    rintro t i ⟨t', q⟩ ht htake hr
    obtain ⟨span, rfl⟩ := takeAt_fields htake
    obtain ⟨rfl, -⟩ := Prod.mk.inj hr
    exact ht
  rcases orbisJitAlloc_inversion h with ⟨i, -, -, r, htake, hr⟩ | ⟨s₁, grown, hgrow, hres⟩
  · exact htaken h0 htake hr
  · have h₁ : s₁.sState = 0 := by
      rcases orbisJitGrow_cases hgrow with ⟨-, rfl⟩ | ⟨-, at', s₂, r, -, hmap, hres⟩
      · exact h0
      · have h₂ := orbisJitMap_refused h0 hmap
        rcases hres with ⟨-, -, rfl⟩ | ⟨-, -, -, -, -, rfl⟩ <;> exact h₂
    rcases hres with ⟨-, rfl⟩ | ⟨-, r, htake, hr⟩
    · exact h₁
    · exact htaken h₁ htake hr

theorem orbisJitAllocAt_refused {addr size p : ℕ} (h0 : s.sState = 0)
    (h : orbisJitAllocAt pf s addr size = some (s', p)) : s'.sState = 0 := by
  rcases orbisJitAllocAt_inversion h with ⟨-, rfl⟩ | ⟨-, -, -, -, s₁, r, hmap, hres⟩
  · exact h0
  · have h₁ := orbisJitMap_refused h0 hmap
    rcases hres with ⟨-, -, rfl⟩ | ⟨-, -, -, -, -, rfl⟩ <;> exact h₁

/-- No call brings a verdict of `0` back. -/
theorem LooseStep.refused {w w' : LooseWorld} {c : Call} (h : LooseStep anchor w c w')
    (h0 : w.st.sState = 0) : w'.st.sState = 0 := by
  cases h with
  | alloc pf _ _ _ h => exact orbisJitAlloc_refused h0 h
  | allocAt pf _ _ _ h => exact orbisJitAllocAt_refused h0 h
  | free addr =>
    show (orbisJitFree w.st addr).sState = 0
    rcases orbisJitFree_inversion w.st addr with h | ⟨i, -, -, ⟨-, -, h⟩ | ⟨-, -, h⟩⟩ <;>
      rw [h] <;> exact h0
  | releaseAll => exact h0
  | write mem => exact h0

end Refused

/-! ### Runs -/

theorem ProtectWorld.Ok.protect {w : ProtectWorld} {addr len : ℕ} (P : w.Ok) (pf : Platform)
    (hrange : ProperRange addr len) : ProtectWorld.Ok
      ⟨(orbisJitProtect pf w.s addr len).1, (orbisJitProtect pf w.s addr len).2 :: w.log⟩ := by
  have hr := rounded hrange
  unfold ProtectWorld.Ok at P ⊢
  rcases orbisJitProtect_cases pf w.s addr len rfl rfl with
    ⟨e, he, hlo, hhi, h⟩ | h | ⟨i, hi, e, hslot, hmeet, h⟩ | ⟨-, s₁, ok, rfl, h⟩
  · rw [h]
    refine P.found he (fun g hg => ?_) rfl
    obtain ⟨h1, h2⟩ := (hr.granules g).mp hg
    exact ⟨hlo.trans h1, h2.trans_le hhi⟩
  · rw [h]
    exact P.settle hr.granules rfl rfl (by simp)
  · rw [h]
    have hsplit := CTable.toList_split w.s.sPromoted hi
    rw [hslot] at hsplit
    rw [hsplit] at P
    dsimp only
    rw [CTable.toList_set_split _ _ hi]
    exact P.widen (fun g => granules_widen hr hmeet) rfl rfl fun g hg => hr.covers rfl hg
  · rw [h]
    exact Proven.settle P hr.granules rfl rfl fun _ g hg => hr.covers rfl hg

theorem ProtectWorld.Ok.step {w w' : ProtectWorld} {c : ProtectLabel} (P : w.Ok)
    (h : ProtectStep anchor w c w') : w'.Ok := by
  cases h with
  | protect pf hrange => exact P.protect pf hrange
  | call hv h =>
    -- the table and the log stay as they are
    refine ⟨P.kept, P.covered, P.sound, fun hrefused => h.refused ?_⟩
    rw [hv]
    exact P.refused hrefused

theorem ProtectReaches.ok {mem : FlatMem} {cs : List ProtectLabel} {w : ProtectWorld}
    (h : ProtectReaches anchor mem cs w) : w.Ok :=
  Lts.Run.preserves (P := ProtectWorld.Ok) (fun _ _ _ P hs => P.step hs) h (Proven.empty _)

@[simp] theorem orbisJitSettle_mem (s : ProtectState) (base end_ : ℕ) (ok : Bool) :
    (orbisJitSettle s base end_ ok).1.st.mem = s.st.mem := by
  unfold orbisJitSettle
  dsimp only
  split_ifs <;> rfl

/-- The stub is all that a call writes. -/
theorem orbisJitProtect_mem (pf : Platform) (s : ProtectState) (addr len : ℕ) :
    (orbisJitProtect pf s addr len).1.st.mem = match (orbisJitProtect pf s addr len).2.stub with
      | some a => s.st.mem.store a orbisJitStub
      | none => s.st.mem := by
  rcases orbisJitProtect_cases pf s addr len rfl rfl with
    ⟨e, -, -, -, h⟩ | h | ⟨i, -, e, -, -, h⟩ | ⟨-, s₁, ok, rfl, h⟩ <;> simp [h]

/-- The stub goes to a range that meets no entry, so to no granule of any range decided before. -/
theorem Proven.stub {s : ProtectState} {log : List ProtectCall} {addr len a x : ℕ}
    (P : Proven s.sPromoted.toList s.st.sState log) (hrange : ProperRange addr len)
    (hroom : ∀ d ∈ log, d.full = false) (ha : a ∈ (orbisJitProtect pf s addr len).2.stub)
    (hx : a ≤ x) (hx' : x < a + orbisJitStub.length) {d : ProtectCall} (hd : d ∈ log) :
    x / orbisJitGranule ∉ d.granules := by
  have hr := rounded hrange
  rcases orbisJitProtect_cases pf s addr len rfl rfl with
    ⟨e, -, -, -, h⟩ | h | ⟨i, -, e, -, -, h⟩ | ⟨hnone, s₁, ok, -, h⟩ <;> rw [h] at ha
  · cases ha
  · cases ha
  · cases ha
  · obtain rfl : addr = a := Option.some.inj ha
    intro hg
    obtain ⟨e, he, hsub⟩ := P.kept hroom d hd
    obtain ⟨he1, he2⟩ := hsub hg
    have hin : x / orbisJitGranule ∈ granulesOf addr len := by
      have hlen := hrange.1
      have hdiv : x / orbisJitGranule * orbisJitGranule ≤ x := Nat.div_mul_le_self _ _
      refine ⟨by omega, lt_of_le_of_lt hx ?_⟩
      exact Nat.lt_mul_of_div_lt (Nat.lt_succ_self _) (by unfold orbisJitGranule; norm_num)
    obtain ⟨h1, h2⟩ := (hr.granules _).mp hin
    exact hnone e he ⟨h1.trans_lt he2, he1.trans_lt h2⟩

/-- **Verdicts are sound, and the stub overwrites no promoted code.**  After any calls, the next call of
`orbis_jit_protect` writes the stub, if the table has not overflowed, only into granules of no range
that was promoted before; it returns `1` only if each granule of its range has been made executable;
and once a call has returned `0`, the state is not `1`. -/
theorem ProtectReaches.sound {mem : FlatMem} {cs : List ProtectLabel} {w : ProtectWorld}
    (h : ProtectReaches anchor mem cs w) (pf : Platform) {addr len : ℕ}
    (hrange : ProperRange addr len) :
    ((∀ d ∈ w.log, d.full = false) → ∀ a ∈ (orbisJitProtect pf w.s addr len).2.stub,
      ∀ x, a ≤ x → x < a + orbisJitStub.length → ∀ d ∈ w.log, d.ok = true →
        x / orbisJitGranule ∉ d.granules) ∧
    ((orbisJitProtect pf w.s addr len).2.ok = true → ∀ g ∈ granulesOf addr len,
      ∃ d ∈ (orbisJitProtect pf w.s addr len).2 :: w.log, d.Covers g) ∧
    ((∃ d ∈ w.log, d.ok = false) → orbisJitState w.s ≠ 1) := by
  have P : Proven w.s.sPromoted.toList w.s.st.sState w.log := h.ok
  have P' := ProtectWorld.Ok.protect (w := w) P pf hrange
  refine ⟨fun hroom a ha x hx hx' d hd _ => P.stub hrange hroom ha hx hx' hd, fun hok g hg => ?_,
    fun hrefused => ?_⟩
  · refine P'.sound _ List.mem_cons_self hok g ?_
    rcases orbisJitProtect_cases pf w.s addr len rfl rfl with
      ⟨e, -, -, -, h⟩ | h | ⟨i, -, e, -, -, h⟩ | ⟨-, s₁, ok, -, h⟩ <;> rw [h] <;> exact hg
  · unfold orbisJitState
    rw [P.refused (Or.inl hrefused)]
    norm_num

/-- Two ranges that overlap, on a console that grants everything: the second is promoted without a
stub, and its last granule is executable. -/
theorem protect_overlapping : ∃ w, ProtectReaches 0 (fun _ => 0) [.protect 0x400000 0x8000] w ∧
    (orbisJitProtect .idle w.s 0x406000 0x4000).2.stub = none ∧
    ∃ d ∈ (orbisJitProtect .idle w.s 0x406000 0x4000).2 :: w.log, d.Covers 0x102 := by
  have hfirst : ProperRange 0x400000 0x8000 := by
    unfold ProperRange orbisJitStub orbisJitGranule; decide
  have hsecond : ProperRange 0x406000 0x4000 := by
    unfold ProperRange orbisJitStub orbisJitGranule; decide
  have hrun : ProtectReaches 0 (fun _ => 0) [.protect 0x400000 0x8000] _ :=
    .cons (.protect .idle hfirst) (.nil _)
  refine ⟨_, hrun, by decide, (hrun.sound .idle hsecond).2.1 (by decide) 0x102 ?_⟩
  unfold granulesOf orbisJitGranule
  exact ⟨by norm_num, by norm_num⟩

end OrbisCompat.Jit
