import OrbisCompat.Lib.Words
import OrbisCompat.Wchar.Search
import OrbisCompat.Wchar.Equiv.Produced

/-!
# `wcsstr` finds the first occurrence

The two loops for the maximal suffix are the scan of `Words.Scan` (`maximalSuffix_eq`), so the needle is cut at a critical
position.  A turn of the search loop leaves no occurrence behind (`searchLoop_first`), and what it takes over in `mem` has
been compared.
-/

namespace OrbisCompat.Wchar

open Words

variable {h n s : WideString} {i k l x z mem : ℕ}

/-! ### Reads -/

theorem deref_eq (s : List ℕ) (hi : i ≤ s.length) : deref s i = some (s.getD i 0) := by
  unfold deref
  rcases Nat.lt_or_eq_of_le hi with hi | rfl
  · rw [List.getElem?_append_left hi, List.getD_eq_getElem _ _ hi, List.getElem?_eq_getElem hi]
  · rw [List.getElem?_append_right le_rfl, Nat.sub_self, List.getD_eq_default _ _ le_rfl]
    rfl

/-- The letters of a string, the terminator included, in the order of `w32_t`. -/
def letter (s : List ℕ) (i : ℕ) : ℤ := Word32.toInt (s.getD i 0)

theorem getD_lt (s : WideString) (i : ℕ) : s.chars.getD i 0 < 2 ^ 32 := by
  rcases Nat.lt_or_ge i s.chars.length with hi | hi
  · rw [List.getD_eq_getElem _ _ hi]
    exact s.lt_two_pow _ (List.getElem_mem hi)
  · rw [List.getD_eq_default _ _ hi]
    exact Nat.two_pow_pos 32

theorem getD_eq_zero : s.chars.getD i 0 = 0 ↔ s.chars.length ≤ i := by
  refine ⟨fun h0 => ?_, List.getD_eq_default _ _⟩
  by_contra hi
  rw [List.getD_eq_getElem _ _ (Nat.not_le.mp hi)] at h0
  exact s.ne_zero _ (List.getElem_mem _) h0

theorem toInt_inj {a b : ℕ} (ha : a < 2 ^ 32) (hb : b < 2 ^ 32) : Word32.toInt a = Word32.toInt b ↔ a = b := by
  unfold Word32.toInt
  constructor
  · intro hab
    split_ifs at hab <;> omega
  · rintro rfl
    rfl

theorem letter_inj (s t : WideString) (i j : ℕ) : letter s.chars i = letter t.chars j ↔ s.chars.getD i 0 = t.chars.getD j 0 :=
  toInt_inj (getD_lt s i) (getD_lt t j)

theorem letter_eq_zero : letter s.chars i = 0 ↔ s.chars.length ≤ i := by
  rw [← getD_eq_zero, ← toInt_inj (getD_lt s i) (Nat.two_pow_pos 32)]
  rfl

theorem scan_eq {p : ℕ → Option Bool} {e fuel : ℕ} (hgo : ∀ j, k ≤ j → j < e → p j = some true) (hstop : p e = some false)
    (hke : k ≤ e) (hfuel : e < k + fuel) : scan p fuel k = some e := by
  induction fuel generalizing k with
  | zero => omega
  | succ fuel ih =>
    rw [scan]
    rcases Nat.lt_or_eq_of_le hke with hlt | rfl
    · rw [hgo k le_rfl hlt, Option.bind_eq_bind, Option.bind_some, if_pos rfl]
      exact ih (fun j hj => hgo j (by omega)) hlt (by omega)
    · rw [hstop]
      rfl

/-! ### The maximal suffixes -/

theorem add_sub_one {c : ℕ} (hc : c < 2 ^ 62) (k : ℕ) (hk : k < 2 ^ 62) : Word64.add (Word64.sub c 1) (k + 1) = c + k := by
  unfold Word64.add Word64.sub
  omega

theorem sub_sub_one {c k : ℕ} (hck : c ≤ k) (hk : k < 2 ^ 63) : Word64.sub k (Word64.sub c 1) = k - c + 1 := by
  unfold Word64.sub
  omega

theorem maximalSuffix_eq (lt : ℤ → ℤ → Prop) [IsStrictOrder ℤ lt] {gt : ℕ → ℕ → Bool}
    (hgt : ∀ a b, gt a b = true ↔ lt (Word32.toInt b) (Word32.toInt a)) (htri : ∀ a b, a ≠ b → ¬ lt b a → lt a b)
    (hl : l = n.chars.length) {jp p fuel : ℕ} (hscan : Scan lt (letter n.chars) l i (jp + 1) k p)
    (hfuel : 2 * l ≤ i + (jp + 1) + k + fuel) :
    ∃ i' j' k' p', maximalSuffix gt n.chars l fuel (Word64.sub i 1) jp (k + 1) p = some (Word64.sub i' 1, p') ∧
      Scan lt (letter n.chars) l i' j' k' p' ∧ l ≤ j' + k' := by
  have hlen := n.length_lt
  induction fuel generalizing i jp k p with
  | zero =>
    have hij := hscan.lt_candidate
    have hk := hscan.k_lt
    have hle := hscan.le
    omega
  | succ fuel ih =>
    have hij := hscan.lt_candidate
    have hk := hscan.k_lt
    have hle := hscan.le
    have hidx : Word64.add (Word64.sub i 1) (k + 1) = i + k := add_sub_one (by omega) k (by omega)
    have hper : Word64.sub (jp + (k + 1)) (Word64.sub i 1) = jp + 1 + (k + 1) - i := by
      rw [sub_sub_one (by omega) (by omega)]
      omega
    rw [maximalSuffix]
    by_cases hgo : jp + (k + 1) < l
    · have hlt : jp + 1 + k < l := by omega
      rw [if_pos hgo, hidx, hper, deref_eq _ (by omega), deref_eq _ (by omega), Option.bind_eq_bind, Option.bind_some,
        Option.bind_some, show jp + (k + 1) = jp + 1 + k by omega]
      by_cases heq : n.chars.getD (i + k) 0 = n.chars.getD (jp + 1 + k) 0
      · have hletter := (letter_inj n n (i + k) (jp + 1 + k)).mpr heq
        rw [if_pos heq]
        split_ifs with hkp
        · have := hscan.equal_whole hlt hletter hkp
          rw [show jp + 1 + p = jp + p + 1 by omega] at this
          exact ih this (by omega)
        · exact ih (hscan.equal hlt hletter (by omega)) (by omega)
      · rw [if_neg heq]
        split_ifs with hc
        · have := hscan.smaller hlt ((hgt _ _).mp hc)
          rw [show jp + 1 + (k + 1) = jp + 1 + k + 1 by omega] at this ⊢
          exact ih this (by omega)
        · have hne : letter n.chars (i + k) ≠ letter n.chars (jp + 1 + k) := mt (letter_inj n n _ _).mp heq
          have := hscan.greater hlt (htri _ _ hne (mt (hgt _ _).mpr hc))
          rw [show jp = Word64.sub (jp + 1) 1 by unfold Word64.sub; omega]
          rw [show Word64.sub (jp + 1) 1 + 1 = jp + 1 by unfold Word64.sub; omega]
          exact ih this (by omega)
    · rw [if_neg hgo]
      exact ⟨i, jp + 1, k, p, rfl, hscan, by omega⟩

/-! ### The parts of a turn -/

theorem updateEnd_eq (hxz : x ≤ z) (hz : z ≤ h.chars.length) :
    (x + l ≤ h.chars.length ∧ ∃ z', updateEnd h.chars l x z = some z' ∧ x + l ≤ z' ∧ z' ≤ h.chars.length) ∨
      (h.chars.length < x + l ∧ updateEnd h.chars l x z = none) := by
  have hlen := h.length_lt
  have hgrow : l ≤ l ||| 63 := Nat.left_le_or
  have hsub : ∀ z', x ≤ z' → z' ≤ h.chars.length → Word64.sub z' x = z' - x :=
    fun z' hx hz => Word64.sub_of_le hx (by omega)
  have htext : wideText (h.chars.drop z) = h.chars.drop z :=
    List.takeWhile_eq_self_iff.mpr fun c hc => decide_eq_true (h.ne_zero c (List.mem_of_mem_drop hc))
  unfold updateEnd
  rw [hsub z hxz hz]
  dsimp only
  rw [wmemchr_zero, htext, List.length_drop]
  by_cases hnear : z - x < l
  · rw [if_pos hnear]
    by_cases hshort : h.chars.length - z < l ||| 63
    · -- the terminator is found
      rw [if_pos hshort]
      dsimp only
      rw [Nat.add_sub_cancel' hz, hsub _ (by omega) le_rfl]
      split_ifs with hend
      · exact .inr ⟨by omega, rfl⟩
      · exact .inl ⟨by omega, _, rfl, by omega, le_rfl⟩
    · rw [if_neg hshort]
      exact .inl ⟨by omega, _, rfl, by omega, by omega⟩
  · rw [if_neg hnear]
    exact .inl ⟨by omega, z, rfl, by omega, hz⟩

/-- Where the comparison of the right half stops. -/
theorem scan_sameRight (hx : x + n.chars.length ≤ h.chars.length) (hk : k ≤ n.chars.length) :
    ∃ e, scan (sameRight h.chars n.chars x) (n.chars.length + 1) k = some e ∧ k ≤ e ∧ e ≤ n.chars.length ∧
      (∀ t, k ≤ t → t < e → letter h.chars (x + t) = letter n.chars t) ∧
      (e < n.chars.length → letter h.chars (x + e) ≠ letter n.chars e) := by
  have hsame : ∀ t, t < n.chars.length →
      sameRight h.chars n.chars x t = some (decide (letter h.chars (x + t) = letter n.chars t)) := by
    intro t ht
    unfold sameRight
    rw [deref_eq _ ht.le, Option.bind_eq_bind, Option.bind_some, if_neg (mt getD_eq_zero.mp (Nat.not_le.mpr ht)),
      deref_eq _ (by omega), Option.bind_some, Option.some_inj, decide_eq_decide, letter_inj]
    exact eq_comm
  have hend : sameRight h.chars n.chars x n.chars.length = some false := by
    unfold sameRight
    rw [deref_eq _ le_rfl, Option.bind_eq_bind, Option.bind_some, if_pos (getD_eq_zero.mpr le_rfl)]
  -- the first place from `k` on where the test fails
  have hex : ∃ d, k + d = n.chars.length ∨ letter h.chars (x + (k + d)) ≠ letter n.chars (k + d) :=
    ⟨n.chars.length - k, .inl (by omega)⟩
  obtain ⟨d, hd, hmin⟩ : ∃ d, (k + d = n.chars.length ∨ letter h.chars (x + (k + d)) ≠ letter n.chars (k + d)) ∧
      ∀ d' < d, ¬(k + d' = n.chars.length ∨ letter h.chars (x + (k + d')) ≠ letter n.chars (k + d')) :=
    ⟨Nat.find hex, Nat.find_spec hex, fun _ => Nat.find_min hex⟩
  have hdle : k + d ≤ n.chars.length := by
    by_contra hgt
    exact hmin (n.chars.length - k) (by omega) (.inl (by omega))
  have heq : ∀ t, k ≤ t → t < k + d → letter h.chars (x + t) = letter n.chars t := by
    intro t hkt ht
    have := (not_or.mp (hmin (t - k) (by omega))).2
    rw [Nat.add_sub_cancel' hkt] at this
    exact not_not.mp this
  refine ⟨k + d, scan_eq ?_ ?_ (Nat.le_add_right k d) (by omega), Nat.le_add_right k d, hdle, heq, ?_⟩
  · intro t hkt ht
    rw [hsame t (by omega), decide_eq_true (heq t hkt ht)]
  · rcases Nat.lt_or_eq_of_le hdle with hlt | hlast
    · rw [hsame _ hlt, decide_eq_false (hd.resolve_left (by omega))]
    · rw [hlast, hend]
  · intro hlt
    exact hd.resolve_left (by omega)

/-- Where the comparison of the left half stops. -/
theorem compareLeft_eq (mem : ℕ) (hx : x + n.chars.length ≤ h.chars.length) (hk : k ≤ n.chars.length) :
    ∃ e, compareLeft h.chars n.chars x mem k = some e ∧ e ≤ k ∧ (e ≤ mem ∨ 0 < e) ∧
      (∀ t, e ≤ t → t < k → letter h.chars (x + t) = letter n.chars t) ∧
      (mem < e → letter h.chars (x + (e - 1)) ≠ letter n.chars (e - 1)) := by
  induction k with
  | zero => exact ⟨0, rfl, le_rfl, .inl (Nat.zero_le mem), fun t _ ht => absurd ht (Nat.not_lt_zero t), fun hm => absurd hm (Nat.not_lt_zero mem)⟩
  | succ k ih =>
    rw [compareLeft]
    by_cases hmem : k + 1 > mem
    · rw [if_pos hmem, deref_eq _ (by omega), Option.bind_eq_bind, Option.bind_some, deref_eq _ (by omega),
        Option.bind_some]
      by_cases hc : n.chars.getD k 0 = h.chars.getD (x + k) 0
      · obtain ⟨e, he, hek, hpos, heq, hne⟩ := ih (by omega)
        rw [if_pos hc, he]
        refine ⟨e, rfl, by omega, hpos, fun t het htk => ?_, hne⟩
        rcases Nat.lt_or_eq_of_le (Nat.le_of_lt_succ htk) with htk | rfl
        · exact heq t het htk
        · exact (letter_inj h n _ _).mpr hc.symm
      · rw [if_neg hc]
        exact ⟨k + 1, rfl, le_rfl, .inr (Nat.succ_pos k), fun t het htk => by omega,
          fun _ hletter => hc ((letter_inj h n _ _).mp hletter).symm⟩
    · rw [if_neg hmem]
      exact ⟨k + 1, rfl, le_rfl, .inr (Nat.succ_pos k), fun t het htk => by omega, fun hm => absurd hm hmem⟩

/-! ### The search loop -/

/-- The first place where something holds. -/
def IsFirst (P : ℕ → Prop) : Option ℕ → Prop
  | none => ∀ a, ¬ P a
  | some a => P a ∧ ∀ b < a, ¬ P b

/-- An occurrence ends before the terminator of the haystack. -/
theorem OccursAt.le {a : ℕ} (hpos : 0 < n.chars.length) (hocc : OccursAt (letter n.chars) n.chars.length (letter h.chars) a) :
    a + n.chars.length ≤ h.chars.length := by
  by_contra hgt
  have := hocc (n.chars.length - 1) (by omega)
  rw [letter_eq_zero.mpr (show h.chars.length ≤ a + (n.chars.length - 1) by omega)] at this
  have := letter_eq_zero.mp this.symm
  omega

/-- What the search loop is started with: a critical position, a shift that no occurrence is missed by, and what a shift
leaves compared. -/
structure Tables (n : WideString) (c p q mem₀ : ℕ) : Prop where
  cut : Factorization (letter n.chars) n.chars.length c p
  pos : 0 < q
  le : q ≤ n.chars.length
  shift : ∀ r, 0 < r → HasPeriod (letter n.chars) 0 n.chars.length r → q ≤ r
  mem_lt : mem₀ < n.chars.length
  compared : ∀ t < mem₀, c ≤ q + t ∧ q + t < n.chars.length ∧ letter n.chars (q + t) = letter n.chars t

theorem searchLoop_first {c p q mem₀ fuel : ℕ} (T : Tables n c p q mem₀) (hxz : x ≤ z) (hz : z ≤ h.chars.length)
    (hmem : mem < n.chars.length) (heq : ∀ t < mem, letter h.chars (x + t) = letter n.chars t)
    (hbefore : ∀ a < x, ¬ OccursAt (letter n.chars) n.chars.length (letter h.chars) a) (hfuel : h.chars.length < x + fuel) :
    ∃ r, searchLoop h.chars n.chars n.chars.length (Word64.sub c 1) q mem₀ fuel x z mem = some r ∧
      IsFirst (OccursAt (letter n.chars) n.chars.length (letter h.chars)) r := by
  have hcl := T.cut.fits
  have hcpos := T.cut.pos
  have hms : Word64.add (Word64.sub c 1) 1 = c := by
    have hlen := n.length_lt
    exact add_sub_one (by omega) 0 (by norm_num)
  have hlt : n.chars.length < 2 ^ 63 := by
    have hlen := n.length_lt
    omega
  induction fuel generalizing x z mem with
  | zero => omega
  | succ fuel ih =>
    rw [searchLoop]
    rcases updateEnd_eq (l := n.chars.length) hxz hz with ⟨hfit, z', hupd, hxz', hz'⟩ | ⟨hshort, hupd⟩
    · rw [hupd, Option.elim_some, hms]
      obtain ⟨k, hscan, hck, hkl, hright, hne⟩ := scan_sameRight (k := max c mem) hfit (by omega)
      rw [hscan, Option.bind_eq_bind, Option.bind_some, deref_eq _ hkl, Option.bind_some]
      have hbehind : ∀ t, c ≤ t → t < k → letter h.chars (x + t) = letter n.chars t := by
        intro t hct htk
        rcases Nat.lt_or_ge t mem with htm | htm
        · exact heq t htm
        · exact hright t (max_le hct htm) htk
      by_cases hend : n.chars.getD k 0 = 0
      · have hkl' : k = n.chars.length := le_antisymm hkl (getD_eq_zero.mp hend)
        subst hkl'
        obtain ⟨e, hleft, hec, hepos, hfront, hne'⟩ := compareLeft_eq (k := c) mem hfit (by omega)
        rw [if_neg (not_not.mpr hend), hleft, Option.bind_some]
        by_cases hem : e ≤ mem
        · rw [if_pos hem]
          refine ⟨some x, rfl, fun t ht => ?_, hbefore⟩
          rcases Nat.lt_or_ge t mem with htm | htm
          · exact heq t htm
          · rcases Nat.lt_or_ge t c with htc | htc
            · exact hfront t (by omega) htc
            · exact hbehind t htc ht
        · -- the left half differs: the next occurrence is a period away
          rw [if_neg hem]
          have hq := T.pos
          have hql := T.le
          refine ih (by omega) hz' T.mem_lt (fun t ht => ?_) (fun a ha hocc => ?_) (by omega)
          · obtain ⟨hct, htl, hper⟩ := T.compared t ht
            rw [Nat.add_assoc, hbehind _ hct htl, hper]
          · rcases Nat.lt_or_ge x a with hxa | hxa
            · obtain ⟨s, rfl⟩ := Nat.exists_eq_add_of_le hxa.le
              have hper := hasPeriod_of_occursAt T.cut hbehind (by omega) hocc
              have := T.shift s (by omega) hper
              omega
            · rcases Nat.lt_or_eq_of_le hxa with hax | rfl
              · exact hbefore a hax hocc
              · exact hne' (by omega) (hocc (e - 1) (by omega))
      · -- the right half differs
        have hkn : k < n.chars.length := lt_of_le_of_ne hkl fun h0 => hend (getD_eq_zero.mpr h0.ge)
        rw [if_pos hend, sub_sub_one (by omega) (by omega)]
        refine ih (by omega) hz' (by omega) (fun t ht => absurd ht (Nat.not_lt_zero t)) (fun a ha hocc => ?_) (by omega)
        rcases Nat.lt_or_ge a x with hax | hax
        · exact hbefore a hax hocc
        · obtain ⟨s, rfl⟩ := Nat.exists_eq_add_of_le hax
          exact not_occursAt_of_behind T.cut hkn hbehind (hne hkn) (by omega) (by omega) hocc
    · rw [hupd, Option.elim_none]
      refine ⟨none, rfl, fun a hocc => ?_⟩
      rcases Nat.lt_or_ge a x with hax | hax
      · exact hbefore a hax hocc
      · have := OccursAt.le (by omega) hocc
        omega

/-! ### The tables -/

theorem maximalSuffix_start (lt : ℤ → ℤ → Prop) [IsStrictOrder ℤ lt] (gt : ℕ → ℕ → Bool)
    (hgt : ∀ a b, gt a b = true ↔ lt (Word32.toInt b) (Word32.toInt a)) (htri : ∀ a b, a ≠ b → ¬ lt b a → lt a b)
    (hpos : 0 < n.chars.length) :
    ∃ i j k p, maximalSuffix gt n.chars n.chars.length (2 * n.chars.length) (2 ^ 64 - 1) 0 1 1 = some (Word64.sub i 1, p) ∧
      Scan lt (letter n.chars) n.chars.length i j k p ∧ n.chars.length ≤ j + k := by
  have hstart : (2 ^ 64 - 1 : ℕ) = Word64.sub 0 1 := by decide
  rw [hstart]
  exact maximalSuffix_eq lt hgt htri rfl (Scan.start hpos) (by omega)

/-- The later of the two suffixes cuts the needle. -/
theorem factorize_eq (hpos : 0 < n.chars.length) :
    ∃ c p, factorize n.chars n.chars.length = some (Word64.sub c 1, p) ∧
      Factorization (letter n.chars) n.chars.length c p := by
  have hlen := n.length_lt
  obtain ⟨i, j, k, p, hmax, hs, hend⟩ := maximalSuffix_start (n := n) (· < ·)
    (fun a b => Word32.toInt a > Word32.toInt b) (fun a b => decide_eq_true_iff) (fun a b hab hba => by omega) hpos
  obtain ⟨i', j', k', p', hmax', hs', hend'⟩ := maximalSuffix_start (n := n) (· > ·)
    (fun a b => Word32.toInt a < Word32.toInt b) (fun a b => decide_eq_true_iff) (fun a b hab hba => by omega) hpos
  have hi := hs.lt_candidate
  have hj := hs.le
  have hi' := hs'.lt_candidate
  have hj' := hs'.le
  have hadd : ∀ c ≤ n.chars.length, Word64.add (Word64.sub c 1) 1 = c := fun c hc => add_sub_one (by omega) 0 (by omega)
  unfold factorize
  rw [hmax, Option.bind_eq_bind, Option.bind_some]
  dsimp only
  rw [hmax', Option.bind_some]
  dsimp only
  rw [hadd i (by omega), hadd i' (by omega)]
  split_ifs with hlt
  · exact ⟨i', p', rfl, hs'.factorization hend' hs hend (Nat.le_of_lt hlt)⟩
  · exact ⟨i, p, rfl, hs.factorization hend hs' hend' (Nat.not_lt.mp hlt)⟩

theorem getD_terminated (s : List ℕ) (i : ℕ) : (s ++ [0]).getD i 0 = s.getD i 0 := by
  rcases Nat.lt_or_ge i s.length with hi | hi
  · rw [List.getD_append _ _ _ _ hi]
  · rw [List.getD_append_right _ _ _ _ hi, List.getD_eq_default _ _ hi]
    cases i - s.length <;> rfl

theorem wcompare_ne_zero {a b : ℕ} (ha : a < 2 ^ 32) (hb : b < 2 ^ 32) (hne : a ≠ b) : wcompare a b ≠ 0 := by
  have := mt (toInt_inj ha hb).mp hne
  unfold wcompare
  split_ifs
  · decide
  · decide
  · omega

theorem wmemcmp_eq {m : ℕ} {l r : List ℕ} (hl : m ≤ l.length) (hr : m ≤ r.length) (hl' : ∀ c ∈ l, c < 2 ^ 32)
    (hr' : ∀ c ∈ r, c < 2 ^ 32) : ∃ v, wmemcmp m l r = some v ∧ (v = 0 ↔ ∀ t < m, l.getD t 0 = r.getD t 0) := by
  induction m generalizing l r with
  | zero => exact ⟨0, rfl, iff_of_true rfl fun t ht => absurd ht (Nat.not_lt_zero t)⟩
  | succ m ih =>
    obtain ⟨a, l, rfl⟩ := List.exists_cons_of_length_pos (Nat.lt_of_lt_of_le (Nat.succ_pos m) hl)
    obtain ⟨b, r, rfl⟩ := List.exists_cons_of_length_pos (Nat.lt_of_lt_of_le (Nat.succ_pos m) hr)
    rw [List.forall_mem_cons] at hl' hr'
    rw [wmemcmp]
    by_cases hab : a = b
    · obtain ⟨v, hv, hiff⟩ := ih (Nat.le_of_succ_le_succ hl) (Nat.le_of_succ_le_succ hr) hl'.2 hr'.2
      rw [if_pos hab]
      refine ⟨v, hv, hiff.trans ⟨fun heq t ht => ?_, fun heq t ht => heq (t + 1) (by omega)⟩⟩
      cases t with
      | zero => exact hab
      | succ t => exact heq t (by omega)
    · rw [if_neg hab]
      exact ⟨_, rfl, iff_of_false (wcompare_ne_zero hl'.1 hr'.1 hab) fun heq => hab (heq 0 (Nat.succ_pos m))⟩

/-- The test whether the needle is periodic. -/
theorem wmemcmp_needle {c p : ℕ} (hfits : c + p ≤ n.chars.length) :
    ∃ v, wmemcmp c (n.chars ++ [0]) ((n.chars ++ [0]).drop p) = some v ∧
      (v = 0 ↔ ∀ t < c, letter n.chars t = letter n.chars (p + t)) := by
  have hlt : ∀ c ∈ n.chars ++ [0], c < 2 ^ 32 := by
    intro c hc
    rcases List.mem_append.mp hc with hc | hc
    · exact n.lt_two_pow c hc
    · rw [List.mem_singleton.mp hc]
      exact Nat.two_pow_pos 32
  have hlen : (n.chars ++ [0]).length = n.chars.length + 1 := by rw [List.length_append, List.length_singleton]
  obtain ⟨v, hv, hiff⟩ := wmemcmp_eq (m := c) (l := n.chars ++ [0]) (r := (n.chars ++ [0]).drop p) (by omega)
    (by rw [List.length_drop]; omega) hlt fun c hc => hlt c (List.mem_of_mem_drop hc)
  refine ⟨v, hv, hiff.trans (forall₂_congr fun t _ => ?_)⟩
  have hdrop : ((n.chars ++ [0]).drop p).getD t 0 = (n.chars ++ [0]).getD (p + t) 0 := by
    rw [List.getD_eq_getElem?_getD, List.getD_eq_getElem?_getD, List.getElem?_drop]
  rw [letter_inj, hdrop, getD_terminated, getD_terminated]

/-- The shift for a needle that is not periodic. -/
theorem shift_eq {l c : ℕ} (hl : l < 2 ^ 62) (hc : 0 < c) (hcl : c ≤ l) :
    Word64.add (max (Word64.sub c 1) (Word64.sub (Word64.sub l (Word64.sub c 1)) 1)) 1 = max (c - 1) (l - c) + 1 := by
  have h₁ : Word64.sub c 1 = c - 1 := Word64.sub_of_le hc (by omega)
  have h₂ : Word64.sub (Word64.sub l (Word64.sub c 1)) 1 = l - c := by
    rw [sub_sub_one hcl (by omega), Word64.sub_of_le (by omega) (by omega), Nat.add_sub_cancel]
  rw [h₂, h₁, Word64.add_of_lt (by omega)]

theorem Tables.periodic {c p : ℕ} (F : Factorization (letter n.chars) n.chars.length c p)
    (heq : ∀ t < c, letter n.chars t = letter n.chars (p + t)) : Tables n c p p (n.chars.length - p) := by
  obtain ⟨hcp, hper⟩ := F.periodic heq
  have hpos := F.pos
  have hfits := F.fits
  exact
    { cut := F
      pos := hpos
      le := by omega
      shift := fun r hr hrx => F.le_of_periodic hr hrx
      mem_lt := by omega
      compared := fun t ht => ⟨by omega, by omega, by rw [hper t (Nat.zero_le t) (by omega), Nat.add_comm]⟩ }

theorem Tables.aperiodic {c p : ℕ} (F : Factorization (letter n.chars) n.chars.length c p)
    (hne : ∃ t < c, letter n.chars t ≠ letter n.chars (p + t)) :
    Tables n c p (max (c - 1) (n.chars.length - c) + 1) 0 := by
  have hpos := F.pos
  have hfits := F.fits
  obtain ⟨t, htc, -⟩ := id hne
  exact
    { cut := F
      pos := Nat.succ_pos _
      le := by omega
      shift := fun r hr hrx => by
        have := F.lt_of_not_periodic hne hr hrx
        omega
      mem_lt := by omega
      compared := fun t ht => absurd ht (Nat.not_lt_zero t) }

/-! ### `twoway_wcsstr` -/

/-- What the loop for the length of the needle counts. -/
theorem scan_bothGoOn (h n : WideString) :
    scan (bothGoOn h.chars n.chars) (n.chars.length + 1) 0 = some (min n.chars.length h.chars.length) := by
  refine scan_eq (fun j _ hj => ?_) ?_ (Nat.zero_le _) (by omega)
  · unfold bothGoOn
    rw [deref_eq _ (by omega), Option.bind_eq_bind, Option.bind_some, if_neg (mt getD_eq_zero.mp (by omega)),
      deref_eq _ (by omega), Option.bind_some, decide_eq_true (mt getD_eq_zero.mp (by omega))]
  · unfold bothGoOn
    rw [deref_eq _ (by omega), Option.bind_eq_bind, Option.bind_some]
    by_cases hn : n.chars.length ≤ h.chars.length
    · rw [min_eq_left hn, if_pos (getD_eq_zero.mpr le_rfl)]
    · rw [min_eq_right (by omega), if_neg (mt getD_eq_zero.mp hn), deref_eq _ le_rfl, Option.bind_some,
        decide_eq_false (not_not.mpr (getD_eq_zero.mpr le_rfl))]

theorem twowayWcsstr_first (h n : WideString) (hpos : 0 < n.chars.length) :
    ∃ r, twowayWcsstr h.chars n.chars = some r ∧ IsFirst (OccursAt (letter n.chars) n.chars.length (letter h.chars)) r := by
  have hnl := n.length_lt
  unfold twowayWcsstr
  rw [scan_bothGoOn, Option.bind_eq_bind, Option.bind_some, deref_eq _ (by omega), Option.bind_some]
  by_cases hle : n.chars.length ≤ h.chars.length
  · rw [min_eq_left hle, if_neg (not_not.mpr (getD_eq_zero.mpr le_rfl))]
    obtain ⟨c, p, hcut, F⟩ := factorize_eq hpos
    have hfits := F.fits
    obtain ⟨v, hv, hiff⟩ := wmemcmp_needle hfits
    rw [hcut, Option.bind_eq_bind, Option.bind_some]
    dsimp only
    rw [add_sub_one (by omega) 0 (by omega), Nat.add_zero, hv, Option.bind_eq_bind, Option.bind_some]
    have hnil : ∀ t < 0, letter h.chars (0 + t) = letter n.chars t := fun t ht => absurd ht (Nat.not_lt_zero t)
    have hnone : ∀ a < 0, ¬ OccursAt (letter n.chars) n.chars.length (letter h.chars) a :=
      fun a ha => absurd ha (Nat.not_lt_zero a)
    split_ifs with hv0
    · have hne : ∃ t < c, letter n.chars t ≠ letter n.chars (p + t) := by
        have := mt hiff.mpr hv0
        push Not at this
        exact this
      have hc : 0 < c := by
        obtain ⟨t, htc, -⟩ := hne
        omega
      rw [shift_eq hnl hc (by omega)]
      exact searchLoop_first (Tables.aperiodic F hne) le_rfl (Nat.zero_le _) hpos hnil hnone (by omega)
    · have hper := hiff.mp (not_not.mp hv0)
      exact searchLoop_first (Tables.periodic F hper) le_rfl (Nat.zero_le _) hpos hnil hnone (by omega)
  · rw [min_eq_right (by omega), if_pos (mt getD_eq_zero.mp hle)]
    refine ⟨none, rfl, fun a hocc => ?_⟩
    have := OccursAt.le hpos hocc
    omega

/-! ### `wcsstr` -/

/-- The loop of `wcschr` stops at the first place of the character. -/
theorem wcschrLoop_first (c : ℕ) (s : List ℕ) : IsFirst (fun a => s[a]? = some c) (wcschrLoop c s) := by
  induction s with
  | nil => exact fun a ha => by cases ha
  | cons x s ih =>
    rw [wcschrLoop]
    split_ifs with hx
    · cases hloop : wcschrLoop c s with
      | none =>
        rw [hloop] at ih
        rintro (_ | a) ha
        · exact hx (Option.some.inj ha)
        · exact ih a ha
      | some a =>
        rw [hloop] at ih
        refine ⟨ih.1, ?_⟩
        rintro (_ | b) hb hc
        · exact hx (Option.some.inj hc)
        · exact ih.2 b (Nat.lt_of_succ_lt_succ hb) hc
    · exact ⟨congrArg some (not_not.mp hx), fun b hb => absurd hb (Nat.not_lt_zero b)⟩

/-- The string from an element on. -/
def WideString.drop (s : WideString) (i : ℕ) : WideString where
  chars := s.chars.drop i
  ne_zero c hc := s.ne_zero c (List.mem_of_mem_drop hc)
  lt_two_pow c hc := s.lt_two_pow c (List.mem_of_mem_drop hc)
  length_lt := by
    have := s.length_lt
    rw [List.length_drop]
    omega

theorem occursAt_iff (hpos : 0 < n.chars.length) {a : ℕ} :
    OccursAt (letter n.chars) n.chars.length (letter h.chars) a ↔ n.chars <+: h.chars.drop a := by
  rw [List.prefix_iff_getElem?]
  constructor
  · intro hocc i hi
    have hle := OccursAt.le hpos hocc
    have := (letter_inj h n _ _).mp (hocc i hi)
    rw [List.getD_eq_getElem _ _ (by omega), List.getD_eq_getElem _ _ hi] at this
    rw [List.getElem?_drop, List.getElem?_eq_getElem (by omega), this]
  · intro hpre t ht
    have := hpre t ht
    rw [List.getElem?_drop] at this
    rw [letter_inj, List.getD_eq_getElem?_getD, this, List.getD_eq_getElem _ _ ht]
    rfl

theorem wcsstr_first (h n : WideString) :
    ∃ r, wcsstr h.chars n.chars = some r ∧ IsFirst (fun a => n.chars <+: h.chars.drop a) r := by
  unfold wcsstr
  rw [deref_eq _ (Nat.zero_le _), Option.bind_eq_bind, Option.bind_some]
  by_cases hn0 : n.chars.getD 0 0 = 0
  · -- the empty needle
    rw [if_pos hn0]
    have hnil : n.chars = [] := List.length_eq_zero_iff.mp (Nat.le_zero.mp (getD_eq_zero.mp hn0))
    refine ⟨some 0, rfl, ?_, fun b hb => absurd hb (Nat.not_lt_zero b)⟩
    rw [hnil]
    exact List.nil_prefix
  have hpos : 0 < n.chars.length := Nat.not_le.mp (mt getD_eq_zero.mpr hn0)
  have hcongr : (fun a => n.chars <+: h.chars.drop a) = OccursAt (letter n.chars) n.chars.length (letter h.chars) :=
    funext fun a => propext (occursAt_iff hpos).symm
  rw [if_neg hn0, deref_eq _ (Nat.zero_le _), Option.bind_some, hcongr]
  by_cases hh0 : h.chars.getD 0 0 = 0
  · -- the empty haystack
    rw [if_pos hh0]
    refine ⟨none, rfl, fun a hocc => ?_⟩
    have := OccursAt.le hpos hocc
    have := getD_eq_zero.mp hh0
    omega
  rw [if_neg hh0]
  have hhead : n.chars.headD 0 = n.chars.getD 0 0 := by
    cases n.chars <;> rfl
  have hchr : wcschr h.chars (n.chars.headD 0) = wcschrLoop (n.chars.getD 0 0) h.chars := by
    rw [hhead, wcschr, if_neg hn0]
  -- an occurrence starts with the first element of the needle
  have hstart : ∀ a, OccursAt (letter n.chars) n.chars.length (letter h.chars) a →
      h.chars[a]? = some (n.chars.getD 0 0) := by
    intro a hocc
    have hle := OccursAt.le hpos hocc
    have := (letter_inj h n _ _).mp (hocc 0 hpos)
    rw [Nat.add_zero, List.getD_eq_getElem _ _ (by omega)] at this
    rw [List.getElem?_eq_getElem (by omega), this]
  have hfirst := wcschrLoop_first (n.chars.getD 0 0) h.chars
  rw [hchr]
  cases hloop : wcschrLoop (n.chars.getD 0 0) h.chars with
  | none =>
    rw [hloop] at hfirst
    exact ⟨none, rfl, fun a hocc => hfirst a (hstart a hocc)⟩
  | some hh =>
    rw [hloop] at hfirst
    dsimp only
    obtain ⟨hat, hmin⟩ := hfirst
    have hlt : hh < h.chars.length := (List.getElem?_eq_some_iff.mp hat).1
    have hbefore : ∀ b < hh, ¬ OccursAt (letter n.chars) n.chars.length (letter h.chars) b :=
      fun b hb hocc => hmin b hb (hstart b hocc)
    rw [deref_eq _ hpos, Option.bind_some]
    by_cases hn1 : n.chars.getD 1 0 = 0
    · -- a needle of one element
      rw [if_pos hn1]
      have hone : n.chars.length = 1 := le_antisymm (getD_eq_zero.mp hn1) hpos
      refine ⟨some hh, rfl, fun t ht => ?_, hbefore⟩
      rw [show t = 0 by omega, Nat.add_zero, letter_inj, List.getD_eq_getElem?_getD, hat]
      rfl
    rw [if_neg hn1, deref_eq _ hlt, Option.bind_some]
    have htwo : 1 < n.chars.length := Nat.not_le.mp (mt getD_eq_zero.mpr hn1)
    by_cases hh1 : h.chars.getD (hh + 1) 0 = 0
    · -- one element is left of the haystack
      rw [if_pos hh1]
      refine ⟨none, rfl, fun a hocc => ?_⟩
      have := OccursAt.le hpos hocc
      have := getD_eq_zero.mp hh1
      exact hbefore a (by omega) hocc
    rw [if_neg hh1]
    obtain ⟨r, hr, hfst⟩ := twowayWcsstr_first (h.drop hh) n hpos
    have hshift : ∀ a, OccursAt (letter n.chars) n.chars.length (letter (h.drop hh).chars) a ↔
        OccursAt (letter n.chars) n.chars.length (letter h.chars) (hh + a) := by
      intro a
      rw [occursAt_iff hpos, occursAt_iff hpos, WideString.drop, List.drop_drop]
    rw [show h.chars.drop hh = (h.drop hh).chars from rfl, hr]
    refine ⟨r.map (hh + ·), rfl, ?_⟩
    cases r with
    | none =>
      intro a hocc
      rcases Nat.lt_or_ge a hh with ha | ha
      · exact hbefore a ha hocc
      · refine hfst (a - hh) ((hshift _).mpr ?_)
        rwa [Nat.add_sub_cancel' ha]
    | some r =>
      refine ⟨(hshift r).mp hfst.1, fun b (hb : b < hh + r) hocc => ?_⟩
      rcases Nat.lt_or_ge b hh with hbh | hbh
      · exact hbefore b hbh hocc
      · refine hfst.2 (b - hh) (by omega) ((hshift _).mpr ?_)
        rwa [Nat.add_sub_cancel' hbh]

/-- **`wcsstr` finds the first occurrence**: it reads behind neither terminator, returns the first place where the needle
stands in the haystack, and `NULL` just when there is none. -/
theorem wcsstr_spec (h n : WideString) :
    ∃ r, wcsstr h.chars n.chars = some r ∧
      (∀ a, r = some a ↔ n.chars <+: h.chars.drop a ∧ ∀ b < a, ¬ n.chars <+: h.chars.drop b) ∧
      (r = none ↔ ¬ n.chars <:+: h.chars) := by
  obtain ⟨r, hr, hfirst⟩ := wcsstr_first h n
  have hsub : n.chars <:+: h.chars ↔ ∃ a, n.chars <+: h.chars.drop a := by
    constructor
    · rintro ⟨u, v, huv⟩
      refine ⟨u.length, v, ?_⟩
      rw [← huv, List.append_assoc, List.drop_left]
    · rintro ⟨a, ha⟩
      exact ha.isInfix.trans (List.drop_suffix a _).isInfix
  refine ⟨r, hr, ?_⟩
  cases r with
  | none =>
    refine ⟨fun a => iff_of_false (by simp) fun ha => hfirst a ha.1, iff_of_true rfl ?_⟩
    rw [hsub]
    exact fun ⟨a, ha⟩ => hfirst a ha
  | some r =>
    refine ⟨fun a => ⟨?_, fun ⟨ha, hmin⟩ => ?_⟩, iff_of_false (by simp) ?_⟩
    · rintro ⟨rfl⟩
      exact hfirst
    · rcases Nat.lt_trichotomy a r with hlt | rfl | hlt
      · exact absurd ha (hfirst.2 a hlt)
      · rfl
      · exact absurd hfirst.1 (hmin r hlt)
    · rw [not_not, hsub]
      exact ⟨r, hfirst.1⟩

end OrbisCompat.Wchar
