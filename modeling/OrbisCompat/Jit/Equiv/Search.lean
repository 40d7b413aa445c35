import OrbisCompat.Jit.Search

/-!
# Correctness of `orbisJitFindFree`

What an answer of the address search promises, whatever the kernel reports as the ends of mappings:
every granule of the answered range was asked about and found unmapped, and the range ends inside
the window (`orbisJitFindFree_unmapped`).  The walk may wrap round the address space; the range is
then taken modulo `2 ^ 64`.

When the reported ends lie in the user half of the address space, the range starts inside the window
too (`orbisJitFindFree_mem`), so a search whose window is exactly as long as the request can only
answer the start of the window (`orbisJitFindFree_exact`).
-/

namespace OrbisCompat.Jit

variable {query : ℕ → ℕ → Option ℕ}

theorem orbisJitGranuleUp_eq (e : ℕ) :
    orbisJitGranuleUp e = (e + 16383) % 2 ^ 64 / 16384 * 16384 :=
  Word64.alignUp_two_pow (k := 14) (by norm_num)

theorem dvd_orbisJitGranuleUp (e : ℕ) : 16384 ∣ orbisJitGranuleUp e := by
  rw [orbisJitGranuleUp_eq]; exact Nat.dvd_mul_left _ _

theorem orbisJitGranuleUp_lt (e : ℕ) : orbisJitGranuleUp e < 2 ^ 64 :=
  Word64.alignUp_lt_two_pow _ _

/-- `[r, r + len)` is covered by granules that were asked about and found unmapped. -/
def Unmapped (query : ℕ → ℕ → Option ℕ) (r len : ℕ) : Prop :=
  ∃ j, len ≤ j * 16384 ∧ ∀ i < j, ∃ k, query k ((r + i * 16384) % 2 ^ 64) = none

/-- The loop keeps a run of `j` unmapped granules that ends at `p` and is still too short. -/
theorem orbisJitFindFreeLoop_unmapped {hi len : ℕ} (hlen : 16384 ∣ len) (hlt : len < 2 ^ 64) :
    ∀ (fuel k p run j : ℕ) {r : ℕ}, run < 2 ^ 64 → 16384 ∣ run → p = (run + j * 16384) % 2 ^ 64 →
      (j = 0 ∨ j * 16384 < len) → (∀ i < j, ∃ k, query k ((run + i * 16384) % 2 ^ 64) = none) →
      orbisJitFindFreeLoop query hi len fuel k p run = some r → r ≠ 0 →
      r < 2 ^ 64 ∧ (0 < len → (r + len) % 2 ^ 64 ≤ hi) ∧ 16384 ∣ r ∧ Unmapped query r len := by
  intro fuel
  induction fuel with
  | zero => intro k p run j r _ _ _ _ _ h; simp [orbisJitFindFreeLoop] at h
  | succ fuel ih =>
    intro k p run j r hrun hdvd hp hj hunm h hr
    unfold orbisJitFindFreeLoop at h
    split_ifs at h with hhi
    · cases hq : query k p with
      | some e =>
        -- a taken granule restarts the run past the end it reported
        rw [hq] at h
        dsimp only at h
        have hp' : ∀ q, q < 2 ^ 64 → 16384 ∣ q →
            orbisJitFindFreeLoop query hi len fuel (k + 1) q q = some r → _ := fun q hq1 hq2 hq3 =>
          ih (k + 1) q q 0 (r := r) hq1 hq2 (by simpa using (Nat.mod_eq_of_lt hq1).symm) (Or.inl rfl)
            (by simp) hq3 hr
        split_ifs at h with he
        · exact hp' _ (orbisJitGranuleUp_lt e) (dvd_orbisJitGranuleUp e) h
        · refine hp' _ (Word64.add_lt _ _) ?_ h
          unfold Word64.add orbisJitGranule
          omega
      | none =>
        rw [hq] at h
        dsimp only at h
        have hadd : Word64.add p orbisJitGranule = (run + (j + 1) * 16384) % 2 ^ 64 := by
          unfold Word64.add orbisJitGranule
          omega
        -- the run cannot have come round: a granule multiple below `len` leaves room for one more
        have hsub : Word64.sub (Word64.add p orbisJitGranule) run = (j + 1) * 16384 := by
          rw [hadd]
          unfold Word64.sub
          omega
        have hunm' : ∀ i < j + 1, ∃ k, query k ((run + i * 16384) % 2 ^ 64) = none := by
          intro i hi'
          rcases Nat.lt_succ_iff_lt_or_eq.mp hi' with hi' | rfl
          · exact hunm i hi'
          · exact ⟨k, by rw [← hp]; exact hq⟩
        rw [hsub] at h
        split_ifs at h with hge
        · obtain rfl := Option.some.inj h
          refine ⟨hrun, fun hpos => ?_, hdvd, j + 1, hge, hunm'⟩
          -- the run is no longer than asked for: one granule less was too short
          rw [hadd] at hhi
          have : (j + 1) * 16384 = len := by omega
          rwa [← this]
        · exact ih (k + 1) _ run (j + 1) hrun hdvd hadd (Or.inr (by omega)) hunm' h hr
    · exact absurd (Option.some.inj h).symm hr

/-- **What an answer promises.** -/
theorem orbisJitFindFree_unmapped {lo hi len r : ℕ} (hlen : 16384 ∣ len) (hlt : len < 2 ^ 64)
    (h : orbisJitFindFree query lo hi len = some r) (hr : r ≠ 0) :
    r < 2 ^ 64 ∧ (0 < len → (r + len) % 2 ^ 64 ≤ hi) ∧ 16384 ∣ r ∧ Unmapped query r len :=
  orbisJitFindFreeLoop_unmapped hlen hlt _ _ _ _ 0 (orbisJitGranuleUp_lt lo)
    (dvd_orbisJitGranuleUp lo)
    (by simpa using (Nat.mod_eq_of_lt (orbisJitGranuleUp_lt lo)).symm) (Or.inl rfl) (by simp) h hr

/-- An address in an unmapped range was asked about, at the granule it lies in. -/
theorem Unmapped.exists_query {r len x : ℕ} (h : Unmapped query r len) (hd : 16384 ∣ r)
    (hfit : r + len ≤ 2 ^ 64) (hx : r ≤ x) (hx' : x < r + len) :
    ∃ k, query k (x / 16384 * 16384) = none := by
  obtain ⟨j, hj, hq⟩ := h
  have hi : (x - r) / 16384 < j := by omega
  have hmod : (r + (x - r) / 16384 * 16384) % 2 ^ 64 = x / 16384 * 16384 := by omega
  obtain ⟨k, hk⟩ := hq _ hi
  exact ⟨k, by rw [← hmod]; exact hk⟩

/-- In a window of the user half the walk never goes back. -/
theorem orbisJitFindFreeLoop_mem {lo hi len : ℕ} (hhi : hi < 2 ^ 48)
    (hend : ∀ k x e, query k x = some e → e ≤ userEnd) :
    ∀ (fuel k p run : ℕ) {r : ℕ}, lo ≤ run → run ≤ p → p < 2 ^ 49 →
      orbisJitFindFreeLoop query hi len fuel k p run = some r → r ≠ 0 → lo ≤ r ∧ r ≤ hi := by
  intro fuel
  induction fuel with
  | zero => intro k p run r _ _ _ h; simp [orbisJitFindFreeLoop] at h
  | succ fuel ih =>
    intro k p run r hrun hp hlt h hr
    have hadd : Word64.add p orbisJitGranule = p + 16384 := by
      unfold Word64.add orbisJitGranule; omega
    unfold orbisJitFindFreeLoop at h
    rw [hadd] at h
    split_ifs at h with hin
    · cases hq : query k p with
      | some e =>
        rw [hq] at h
        dsimp only at h
        have he := hend k p e hq
        unfold userEnd at he
        have hup : orbisJitGranuleUp e = (e + 16383) / 16384 * 16384 := by
          rw [orbisJitGranuleUp_eq]; omega
        split_ifs at h with hgt
        · rw [hup] at h
          exact ih (k + 1) _ _ (by omega) le_rfl (by omega) h hr
        · exact ih (k + 1) _ _ (by omega) le_rfl (by omega) h hr
      | none =>
        rw [hq] at h
        dsimp only at h
        split_ifs at h with hge
        · obtain rfl := Option.some.inj h
          exact ⟨hrun, by omega⟩
        · exact ih (k + 1) _ _ hrun (by omega) (by omega) h hr
    · exact absurd (Option.some.inj h).symm hr

/-- An answer starts inside a window of the user half. -/
theorem orbisJitFindFree_mem {lo hi len r : ℕ} (hlo : lo < 2 ^ 48) (hhi : hi < 2 ^ 48)
    (hend : ∀ k x e, query k x = some e → e ≤ userEnd)
    (h : orbisJitFindFree query lo hi len = some r) (hr : r ≠ 0) : lo ≤ r ∧ r ≤ hi := by
  have hup : orbisJitGranuleUp lo = (lo + 16383) / 16384 * 16384 := by
    rw [orbisJitGranuleUp_eq]; omega
  unfold orbisJitFindFree at h
  rw [hup] at h
  exact orbisJitFindFreeLoop_mem hhi hend _ _ _ _ (by omega) le_rfl (by omega) h hr

/-- In a window as long as the request the run that is answered starts the window. -/
theorem orbisJitFindFree_exact {lo len r : ℕ} (hlen : 16384 ∣ len) (hfit : lo + len ≤ userEnd)
    (hend : ∀ k x e, query k x = some e → e ≤ userEnd)
    (h : orbisJitFindFree query lo (lo + len) len = some r) (hr : r ≠ 0) : r = lo := by
  unfold userEnd at hfit
  obtain ⟨hge, hle⟩ := orbisJitFindFree_mem (by omega) (by omega) hend h hr
  obtain ⟨-, hstop, -⟩ := orbisJitFindFree_unmapped hlen (by omega) h hr
  omega

end OrbisCompat.Jit
