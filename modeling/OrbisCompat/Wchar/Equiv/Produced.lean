import OrbisCompat.Lib.Fallible
import OrbisCompat.Wchar.Produced

/-!
# `vswprintf` stores what its format produces

An output that has taken `cs` is `W32Out.after s cap cs`, whatever there was room for, and a writer `Appends` to that.
So a conversion appends its text (`convert_after`), a round an item (`round_after`), and the loop the whole sequence
(`loop_produces`).
-/

namespace OrbisCompat.Wchar

open Fallible Sink

variable {Dbl LDbl : Type} {libc : Libc Dbl LDbl} {s : ℕ → ℕ} {cap : ℕ} {cs ds es : List ℕ}

/-! ### The writers -/

/-- The output that has taken `cs`. -/
def W32Out.after (s : ℕ → ℕ) (cap : ℕ) (cs : List ℕ) : W32Out := ⟨image s cap cs, cap, cs.length⟩

/-- A writer puts out `ds`. -/
def Appends (write : W32Out → W32Out) (ds : List ℕ) : Prop :=
  ∀ s cap cs, write (.after s cap cs) = .after s cap (cs ++ ds)

theorem appends_id : Appends id [] := fun s cap cs => by simp

theorem Appends.comp {f g : W32Out → W32Out} (hf : Appends f ds) (hg : Appends g es) :
    Appends (fun o => g (f o)) (ds ++ es) := by
  intro s cap cs
  dsimp only
  rw [hf, hg, List.append_assoc]

theorem w32Put_appends (c : ℕ) : Appends (w32Put · c) [c] := by
  intro s cap cs
  have hlen : (cs ++ [c]).length = cs.length + 1 := List.length_append
  unfold w32Put W32Out.after
  rw [hlen]
  dsimp only
  split_ifs with h
  · rw [image_concat_of_lt h]
  · rw [image_concat_of_ge (by simpa using h)]

theorem w32Put_after (c : ℕ) : w32Put (.after s cap cs) c = .after s cap (cs ++ [c]) := w32Put_appends c s cap cs

theorem w32Pad_appends (k : ℕ) : Appends (w32Pad · k) (List.replicate k ' '.toNat) := by
  induction k with
  | zero => exact appends_id
  | succ k ih => exact (w32Put_appends _).comp ih

theorem foldl_w32Put_appends (ds : List ℕ) : Appends (ds.foldl w32Put) ds := by
  induction ds with
  | nil => exact appends_id
  | cons d ds ih => exact (w32Put_appends d).comp ih

theorem putWide_appends {l : ℕ} {a : List ℕ} (h : l ≤ a.length) : Appends (putWide · l a) (a.take l) := by
  induction l generalizing a with
  | zero => exact appends_id
  | succ l ih =>
    cases a with
    | nil => simp at h
    | cons c a => exact (w32Put_appends c).comp (ih (by simpa using h))

/-- The second loop of `%s` reads what decodes. -/
theorem putMultibyte_appends {k : ℕ} {a bs : List ℕ} (h : decode k a = some (ds, bs)) :
    Appends (putMultibyte · ds.length a) ds := by
  induction k generalizing a ds with
  | zero =>
    simp only [decode, Option.some.injEq, Prod.mk.injEq] at h
    rw [← h.1]
    exact appends_id
  | succ k ih =>
    unfold decode at h
    cases hmb : mbtowc a W32_MB_LEN_MAX with
    | none =>
      rw [hmb] at h
      cases h
    | some r =>
      rw [hmb] at h
      dsimp only at h
      split_ifs at h with hi
      · obtain ⟨⟨ds', bs'⟩, hrest, heq⟩ := Option.map_eq_some_iff.mp h
        simp only [Prod.mk.injEq] at heq
        obtain ⟨rfl, rfl⟩ := heq
        intro s cap cs
        dsimp only
        rw [List.length_cons, putMultibyte, hmb]
        exact (w32Put_appends r.2).comp (ih hrest) s cap cs
      · simp only [Option.some.injEq, Prod.mk.injEq] at h
        rw [← h.1]
        exact appends_id

/-- The first loop of `%s` counts what decodes. -/
theorem countMultibyte_eq (l k : ℕ) (a : List ℕ) :
    (decode k a = none → (countMultibyte l k a).2.1 = true) ∧
      ∀ ds bs, decode k a = some (ds, bs) → countMultibyte l k a = (l + ds.length, false, bs) := by
  induction k generalizing l a with
  | zero => simp [decode, countMultibyte]
  | succ k ih =>
    unfold decode countMultibyte
    cases hmb : mbtowc a W32_MB_LEN_MAX with
    | none => simp
    | some r =>
      dsimp only
      split_ifs with hi
      · obtain ⟨ihnone, ihsome⟩ := ih (l + 1) (a.drop r.1)
        constructor
        · intro h
          exact ihnone (by simpa using h)
        · intro ds bs h
          obtain ⟨⟨ds', bs'⟩, hrest, heq⟩ := Option.map_eq_some_iff.mp h
          simp only [Prod.mk.injEq] at heq
          obtain ⟨rfl, rfl⟩ := heq
          rw [ihsome ds' bs' hrest, List.length_cons]
          simp only [Prod.mk.injEq, and_true]
          omega
      · simp

/-! ### The padding -/

/-- A text with the padding that `%s` puts around it. -/
def padded (left : Bool) (w l : ℕ) (write : W32Out → W32Out) (o : W32Out) : W32Out :=
  let o := if w > l ∧ ¬left then w32Pad o (w - l) else o
  let o := write o
  if w > l ∧ left then w32Pad o (w - l) else o

theorem padded_appends {write : W32Out → W32Out} (h : Appends write ds) (left : Bool) (w : ℕ) :
    Appends (padded left w ds.length write) (justify ' '.toNat left w ds) := by
  intro s cap cs
  have hpad := w32Pad_appends (w - ds.length)
  unfold padded
  by_cases hw : w > ds.length
  · cases left
    · simpa [hw, justify] using hpad.comp h s cap cs
    · simpa [hw, justify] using h.comp hpad s cap cs
  · have hzero : w - ds.length = 0 := by omega
    cases left <;> simpa [hw, justify, hzero] using h s cap cs

/-- A character with the padding that `%c` puts around it. -/
def paddedChar (left : Bool) (w c : ℕ) (o : W32Out) : W32Out :=
  let w := if w < 1 then 1 else w
  let o := if left then o else w32Pad o (w - 1)
  let o := w32Put o c
  if left then w32Pad o (w - 1) else o

theorem paddedChar_appends (left : Bool) (w c : ℕ) :
    Appends (paddedChar left w c) (justify ' '.toNat left w [c]) := by
  have hw : (if w < 1 then 1 else w) - 1 = w - [c].length := by
    rw [List.length_singleton]
    split_ifs <;> omega
  have hput := w32Put_appends c
  have hpad := w32Pad_appends (w - [c].length)
  intro s cap cs
  unfold paddedChar
  dsimp only
  rw [hw]
  cases left
  · exact hpad.comp hput s cap cs
  · exact hput.comp hpad s cap cs

/-! ### The lengths of strings -/

theorem wmemchr_zero (n : ℕ) (a : List ℕ) :
    wmemchr 0 n a = if (wideText a).length < n then some (wideText a).length else none := by
  induction n generalizing a with
  | zero => simp [wmemchr]
  | succ n ih =>
    cases a with
    | nil => simp [wmemchr, wideText]
    | cons c a =>
      by_cases hc : c = 0
      · simp [wmemchr, wideText, hc]
      · have hcons : wideText (c :: a) = c :: wideText a := by simp [wideText, hc]
        rw [wmemchr, List.headD_cons, if_neg hc, List.tail_cons, ih, hcons]
        by_cases hlen : (wideText a).length < n
        · simp [hlen]
        · simp [hlen]

theorem wcsnlen_eq (a : List ℕ) (n : ℕ) : wcsnlen a n = ((wideText a).take n).length := by
  unfold wcsnlen
  rw [wmemchr_zero, List.length_take]
  split_ifs with h
  · rw [Option.getD_some]
    omega
  · rw [Option.getD_none]
    omega

theorem putWide_wideText (a : List ℕ) (n : ℕ) :
    Appends (putWide · (wcsnlen a n) a) ((wideText a).take n) := by
  have hpre : (wideText a).take n <+: a := (List.take_prefix _ _).trans (List.takeWhile_prefix _)
  have h := putWide_appends hpre.length_le
  rwa [← List.prefix_iff_eq_take.mp hpre, ← wcsnlen_eq] at h

/-- The element behind the first `n` of a string is its terminator when there are no more. -/
theorem headD_drop_wcsnlen (a : List ℕ) (n : ℕ) :
    (a.drop (wcsnlen a n)).headD 0 ≠ 0 ↔ n < (wideText a).length := by
  rw [wcsnlen_eq, List.length_take]
  induction a generalizing n with
  | nil => simp [wideText]
  | cons c a ih =>
    by_cases hc : c = 0
    · simp [wideText, hc]
    · have hcons : wideText (c :: a) = c :: wideText a := by simp [wideText, hc]
      rw [hcons]
      cases n with
      | zero => simp [hc]
      | succ n =>
        have := ih n
        rw [List.length_cons, Nat.succ_min_succ, List.drop_succ_cons]
        omega

/-! ### The conversions -/

variable {st : Printf Dbl LDbl} {x : Locals Dbl LDbl}

/-- The loop after a conversion that has produced a text. -/
def Printf.next (st : Printf Dbl LDbl) (s : ℕ → ℕ) (cap : ℕ) (cs f : List ℕ) (stores : List Store)
    (r : List ℕ × List (Arg Dbl LDbl) × ℕ) : Printf Dbl LDbl :=
  { st with o := .after s cap (cs ++ r.1), f, aq := r.2.1, mallocs := r.2.2, stores }

theorem putNumber_after (h : st.o = .after s cap cs) (aq : List (Arg Dbl LDbl)) (mid : List Char)
    (args : List (Arg Dbl LDbl)) :
    putNumber libc st x aq mid args =
      (numberText libc x st.mallocs aq mid args).map (st.next s cap cs x.f st.stores) := by
  unfold putNumber numberText
  cases formatNumber libc (cfText x mid) args st.mallocs with
  | error e => rfl
  | ok r =>
    simp only [bind, Except.bind, Except.map, h, foldl_w32Put_appends r.1 s cap cs]
    rfl

/-- **A conversion** appends its text to the output. -/
theorem convert_after (libc : Libc Dbl LDbl) (x : Locals Dbl LDbl) (h : st.o = .after s cap cs) :
    ∃ stores, convert libc st x = (text libc x st.mallocs).map (st.next s cap cs x.f stores) := by
  unfold convert text
  cases Label.of x.conv with
  | count =>
    cases vaArg Arg.asPtr x.aq with
    | error e => exact ⟨st.stores, rfl⟩
    | ok r =>
      cases hlen : x.len <;>
        simp [bind, Except.bind, Except.map, countSize, Printf.next, h]
  | char =>
    cases vaArg Arg.asInt x.aq with
    | error e => exact ⟨st.stores, rfl⟩
    | ok r =>
      refine ⟨st.stores, ?_⟩
      have hput := paddedChar_appends x.left x.w (if x.conv = 'C'.toNat then r.1.toNat else btowc r.1) s cap cs
      simp only [bind, Except.bind, Except.map, h, Printf.next, ← hput]
      rfl
  | wideString =>
    cases vaArg Arg.asWstr x.aq with
    | error e => exact ⟨st.stores, rfl⟩
    | ok r =>
      refine ⟨st.stores, ?_⟩
      -- without a precision the terminator decides, and what is in front of it is the text
      have hlong : (x.p = none ∧
            ((r.1.getD nullText).drop (wcsnlen (r.1.getD nullText) (x.p.getD INT_MAX))).headD 0 ≠ 0) ↔
          x.p = none ∧ (wideText (r.1.getD nullText)).length > INT_MAX := by
        refine and_congr_right fun hp => ?_
        rw [headD_drop_wcsnlen, hp, Option.getD_none]
      have hput := padded_appends (putWide_wideText (r.1.getD nullText) (x.p.getD INT_MAX)) x.left x.w s cap cs
      simp only [bind, Except.bind, h, hlong]
      by_cases hover : x.p = none ∧ (wideText (r.1.getD nullText)).length > INT_MAX
      · rw [if_pos hover, if_pos hover]
        rfl
      · rw [if_neg hover, if_neg hover]
        simp only [Except.map, Printf.next, ← hput, ← wcsnlen_eq]
        rfl
  | string =>
    cases vaArg Arg.asStr x.aq with
    | error e => exact ⟨st.stores, rfl⟩
    | ok r =>
      refine ⟨st.stores, ?_⟩
      -- the bytes are decoded twice, and the first time only counts
      obtain ⟨hnone, hsome⟩ := countMultibyte_eq 0 (x.p.getD INT_MAX) (r.1.getD nullText)
      cases hdec : decode (x.p.getD INT_MAX) (r.1.getD nullText) with
      | none =>
        simp only [bind, Except.bind, hdec, hnone hdec, if_true]
        rfl
      | some d =>
        have hput := padded_appends (putMultibyte_appends hdec) x.left x.w s cap cs
        simp only [bind, Except.bind, h, hdec, hsome _ _ hdec, Nat.zero_add, Bool.false_eq_true, if_false]
        by_cases hover : x.p = none ∧ d.2.headD 0 ≠ 0
        · rw [if_pos hover, if_pos hover]
          rfl
        · rw [if_neg hover, if_neg hover]
          simp only [Except.map, Printf.next, ← hput]
          rfl
  | signed =>
    cases signedArg x.len x.aq with
    | error e => exact ⟨st.stores, rfl⟩
    | ok r => exact ⟨st.stores, putNumber_after h _ _ _⟩
  | unsigned =>
    cases unsignedArg x.len x.aq with
    | error e => exact ⟨st.stores, rfl⟩
    | ok r => exact ⟨st.stores, putNumber_after h _ _ _⟩
  | pointer =>
    cases vaArg Arg.asPtr x.aq with
    | error e => exact ⟨st.stores, rfl⟩
    | ok r => exact ⟨st.stores, putNumber_after h _ _ _⟩
  | floating =>
    refine ⟨st.stores, ?_⟩
    dsimp only
    split_ifs
    · cases vaArg Arg.asLongDouble x.aq with
      | error e => rfl
      | ok r => exact putNumber_after h _ _ _
    · cases vaArg Arg.asDouble x.aq with
      | error e => rfl
      | ok r => exact putNumber_after h _ _ _
    · rfl
  | default => exact ⟨st.stores, rfl⟩

/-! ### What is read -/

theorem one_le_INT_MAX : 1 ≤ INT_MAX := by decide

theorem length_tail_le (f : List ℕ) : f.tail.length ≤ f.length := by simp

/-- `w32_getint` goes forward, and reads an `int`. -/
theorem w32Getint_spec {i : Option ℕ} (hi : ∀ n ∈ i, n ≤ INT_MAX) (f : List ℕ) :
    (w32Getint i f).2.length ≤ f.length ∧ ∀ n ∈ (w32Getint i f).1, n ≤ INT_MAX := by
  induction f generalizing i with
  | nil => exact ⟨le_rfl, hi⟩
  | cons c f ih =>
    unfold w32Getint
    by_cases hc : isDigit c = true
    · rw [if_pos hc]
      dsimp only
      refine (ih ?_).imp_left fun h => h.trans (by simp)
      intro n hn
      obtain ⟨m, -, hm⟩ := Option.bind_eq_some_iff.mp hn
      split_ifs at hm with hover
      cases hm
      omega
    · rw [if_neg hc]
      exact ⟨le_rfl, hi⟩

theorem w32Getint_zero_spec (f : List ℕ) :
    (w32Getint (some 0) f).2.length ≤ f.length ∧ ∀ n ∈ (w32Getint (some 0) f).1, n ≤ INT_MAX := by
  refine w32Getint_spec ?_ f
  rintro n ⟨⟩
  exact Nat.zero_le _

theorem flagsLoop_length_le (flags : List ℕ) (left : Bool) (f : List ℕ) :
    (flagsLoop flags left f).2.2.length ≤ f.length := by
  induction f generalizing flags left with
  | nil => simp [flagsLoop]
  | cons c f ih =>
    unfold flagsLoop
    by_cases hc : c ∈ flagChars
    · rw [if_pos hc]
      exact (ih _ _).trans (by simp)
    · rw [if_neg hc]

theorem readWidth_spec (x : Locals Dbl LDbl) :
    Post (fun _ => True) (fun x' => x'.f.length ≤ x.f.length ∧ x'.w ≤ INT_MAX) (readWidth x) := by
  unfold readWidth
  by_cases hstar : x.f.headD 0 = '*'.toNat
  · rw [if_pos hstar]
    refine (post_true _).bind ?_
    rintro ⟨v, aq⟩ -
    dsimp only
    have hlt := BitVec.toInt_lt (x := v)
    have hge := BitVec.le_toInt v
    have hmax : INT_MAX = 2 ^ 31 - 1 := rfl
    by_cases hneg : v.toInt < 0
    · rw [if_pos hneg]
      by_cases hmin : v.toInt = -2 ^ 31
      · rw [if_pos hmin]
        trivial
      · have hw : (-v.toInt).toNat ≤ INT_MAX := by omega
        rw [if_neg hmin]
        split_ifs <;> exact ⟨length_tail_le _, hw⟩
    · have hw : v.toInt.toNat ≤ INT_MAX := by omega
      rw [if_neg hneg]
      exact ⟨length_tail_le _, hw⟩
  · rw [if_neg hstar]
    obtain ⟨hlen, hint⟩ := w32Getint_zero_spec x.f
    revert hlen hint
    rcases w32Getint (some 0) x.f with ⟨_ | w, f⟩
    · exact fun _ _ => trivial
    · exact fun hlen hint => ⟨hlen, hint w rfl⟩

theorem readPrecision_spec (x : Locals Dbl LDbl) :
    Post (fun _ => True) (fun x' => x'.f.length ≤ x.f.length ∧ x'.w = x.w ∧ ∀ n ∈ x'.p, n ≤ INT_MAX)
      (readPrecision x) := by
  unfold readPrecision
  by_cases hstar : x.f.headD 0 = '.'.toNat ∧ x.f.tail.headD 0 = '*'.toNat
  · rw [if_pos hstar]
    refine (post_true _).bind ?_
    rintro ⟨v, aq⟩ -
    refine ⟨(length_tail_le _).trans (length_tail_le _), rfl, ?_⟩
    intro n hn
    have hlt := BitVec.toInt_lt (x := v)
    have hmax : INT_MAX = 2 ^ 31 - 1 := rfl
    dsimp only at hn
    split_ifs at hn
    · cases hn
    · cases hn
      omega
  rw [if_neg hstar]
  by_cases hdot : x.f.headD 0 = '.'.toNat
  · rw [if_pos hdot]
    obtain ⟨hlen, hint⟩ := w32Getint_zero_spec x.f.tail
    revert hlen hint
    rcases w32Getint (some 0) x.f.tail with ⟨_ | p, f⟩
    · exact fun _ _ => trivial
    · exact fun hlen hint => ⟨hlen.trans (length_tail_le _), rfl, hint⟩
  · rw [if_neg hdot]
    exact ⟨le_rfl, rfl, fun n hn => by cases hn⟩

theorem readConv_length_le (x : Locals Dbl LDbl) : (readConv x).f.length ≤ x.f.length := by
  have hlength : (readLength x.f).2.length ≤ x.f.length := by
    unfold readLength
    split_ifs <;> simp only [List.length_tail] <;> omega
  exact (length_tail_le _).trans hlength

/-- A width or a precision that was read is an `int`. -/
structure Locals.Fits (x : Locals Dbl LDbl) : Prop where
  w : x.w ≤ INT_MAX
  p : ∀ n ∈ x.p, n ≤ INT_MAX

theorem readSpec_spec (x : Locals Dbl LDbl) :
    Post (fun _ => True) (fun x' => x'.f.length ≤ x.f.length ∧ x'.Fits) (readSpec x) := by
  unfold readSpec
  split_ifs
  · trivial
  · refine (readWidth_spec _).bind ?_
    rintro y ⟨hy, hw⟩
    refine (readPrecision_spec y).bind ?_
    rintro z ⟨hz, hzw, hp⟩
    refine ⟨?_, ⟨hzw.trans_le hw, hp⟩⟩
    calc (readConv z).f.length ≤ z.f.length := readConv_length_le z
      _ ≤ y.f.length := hz
      _ ≤ (readFlags x).f.length := hy
      _ ≤ x.f.length := flagsLoop_length_le _ _ _

/-! ### The length of an item -/

theorem length_decode_le {k : ℕ} {a bs : List ℕ} (h : decode k a = some (ds, bs)) : ds.length ≤ k := by
  induction k generalizing a ds with
  | zero =>
    cases h
    exact le_rfl
  | succ k ih =>
    unfold decode at h
    cases hmb : mbtowc a W32_MB_LEN_MAX with
    | none =>
      rw [hmb] at h
      cases h
    | some r =>
      rw [hmb] at h
      dsimp only at h
      split_ifs at h
      · obtain ⟨⟨ds', bs'⟩, hrest, heq⟩ := Option.map_eq_some_iff.mp h
        cases heq
        exact Nat.succ_le_succ (ih hrest)
      · cases h
        exact Nat.zero_le _

theorem numberText_spec (x : Locals Dbl LDbl) (i : ℕ) (aq : List (Arg Dbl LDbl)) (mid : List Char)
    (args : List (Arg Dbl LDbl)) :
    Post (fun _ => True) (fun r => r.1.length ≤ INT_MAX) (numberText libc x i aq mid args) := by
  unfold numberText formatNumber
  cases hout : libc.snprintf (cfText x mid) args with
  | none => trivial
  | some out =>
    have hlen := libc.snprintf_le _ _ _ hout
    dsimp only
    split_ifs <;> first | exact hlen | trivial

/-- No conversion produces more than `INT_MAX` characters. -/
theorem text_spec {x : Locals Dbl LDbl} (hx : x.Fits) (i : ℕ) :
    Post (fun _ => True) (fun r => r.1.length ≤ INT_MAX) (text libc x i) := by
  have hjustify {left : Bool} {ds : List ℕ} (hds : ds.length ≤ INT_MAX) :
      (justify ' '.toNat left x.w ds).length ≤ INT_MAX := by
    rw [length_justify]
    exact max_le hx.w hds
  have hp : x.p.getD INT_MAX ≤ INT_MAX := by
    cases h : x.p with
    | none => exact le_rfl
    | some n => exact hx.p n h
  unfold text
  cases Label.of x.conv with
  | count =>
    refine (post_true _).bind fun r _ => ?_
    dsimp only
    split_ifs
    · trivial
    · exact Nat.zero_le _
  | char => exact (post_true _).bind fun r _ => hjustify one_le_INT_MAX
  | wideString =>
    refine (post_true _).bind fun r _ => ?_
    dsimp only
    split_ifs
    · trivial
    · exact hjustify ((List.length_take_le _ _).trans hp)
  | string =>
    refine (post_true _).bind fun r _ => ?_
    dsimp only
    cases hdec : decode (x.p.getD INT_MAX) (r.1.getD nullText) with
    | none => trivial
    | some d =>
      dsimp only
      split_ifs
      · trivial
      · exact hjustify ((length_decode_le hdec).trans hp)
  | signed => exact (post_true _).bind fun r _ => numberText_spec _ _ _ _ _
  | unsigned => exact (post_true _).bind fun r _ => numberText_spec _ _ _ _ _
  | pointer => exact (post_true _).bind fun r _ => numberText_spec _ _ _ _ _
  | floating =>
    dsimp only
    split_ifs
    · exact (post_true _).bind fun r _ => numberText_spec _ _ _ _ _
    · exact (post_true _).bind fun r _ => numberText_spec _ _ _ _ _
    · trivial
  | default => trivial

/-- **An item** takes at least a character of the format, and produces no more than `INT_MAX`. -/
theorem item_spec (libc : Libc Dbl LDbl) {p : Place Dbl LDbl} (hf : p.f.headD 0 ≠ 0) :
    Post (fun _ => True) (fun r => r.2.f.length < p.f.length ∧ r.1.length ≤ INT_MAX) (item libc p) := by
  have hpos : 0 < p.f.length := by
    by_contra hzero
    rw [List.length_eq_zero_iff.mp (Nat.eq_zero_of_not_pos hzero)] at hf
    exact hf rfl
  have htail : p.f.tail.length < p.f.length := by
    rw [List.length_tail]
    omega
  unfold item
  split_ifs
  · exact ⟨htail, one_le_INT_MAX⟩
  · exact ⟨(length_tail_le _).trans_lt htail, one_le_INT_MAX⟩
  · refine (readSpec_spec _).bind ?_
    rintro x ⟨hlen, hfits⟩
    refine (text_spec hfits _).bind fun r hr => ?_
    exact ⟨hlen.trans_lt htail, hr⟩

/-! ### The rounds -/

/-- Where the loop is in its format and its arguments. -/
def Printf.place (st : Printf Dbl LDbl) : Place Dbl LDbl := ⟨st.f, st.aq, st.mallocs⟩

/-- **A round** appends an item. -/
theorem round_after (libc : Libc Dbl LDbl) (h : st.o = .after s cap cs) (hlen : cs.length ≤ INT_MAX) :
    ∃ stores, round libc st = (item libc st.place).map fun r =>
      { o := .after s cap (cs ++ r.1), f := r.2.f, aq := r.2.aq, mallocs := r.2.mallocs, stores } := by
  have hstop : ¬st.o.len > INT_MAX := by
    rw [h]
    exact Nat.not_lt.mpr hlen
  unfold round item Printf.place
  rw [if_neg hstop]
  dsimp only
  by_cases hlit : st.f.headD 0 ≠ '%'.toNat
  · refine ⟨st.stores, ?_⟩
    rw [if_pos hlit, if_pos hlit, h, w32Put_after]
    rfl
  rw [if_neg hlit, if_neg hlit]
  by_cases hpct : st.f.tail.headD 0 = '%'.toNat
  · refine ⟨st.stores, ?_⟩
    rw [if_pos hpct, if_pos hpct, h, w32Put_after]
    rfl
  rw [if_neg hpct, if_neg hpct]
  cases readSpec { f := st.f.tail, aq := st.aq } with
  | error e => exact ⟨st.stores, rfl⟩
  | ok x =>
    obtain ⟨stores, hconv⟩ := convert_after libc x h
    refine ⟨stores, ?_⟩
    simp only [bind, Except.bind, hconv]
    cases text libc x st.mallocs <;> rfl

/-- **The loop** stores what the format produces, and is left as the sequence is. -/
theorem loop_produces (libc : Libc Dbl LDbl) {fuel : ℕ} (st : Printf Dbl LDbl) (cs : List ℕ)
    (h : st.o = .after s cap cs) (hfuel : st.f.length ≤ fuel) :
    ∃ ds e, Produces libc (INT_MAX < ·) cs.length st.place ds e ∧
      (loop libc fuel st).1.o = .after s cap (cs ++ ds) ∧ (loop libc fuel st).2 = e := by
  induction fuel generalizing st cs with
  | zero =>
    have hnil : st.f = [] := List.length_eq_zero_iff.mp (by omega)
    exact ⟨[], none, .ends (by simp [Printf.place, hnil]), by simp [loop, h], rfl⟩
  | succ fuel ih =>
    unfold loop
    split_ifs with hend
    · exact ⟨[], none, .ends hend, by simp [h], rfl⟩
    by_cases hlen : cs.length ≤ INT_MAX
    · obtain ⟨stores, hround⟩ := round_after libc h hlen
      rw [hround]
      cases hitem : item libc st.place with
      | error e => exact ⟨[], some e, .leaves hend (Nat.not_lt.mpr hlen) hitem, by simp [Except.map, h], rfl⟩
      | ok r =>
        have hshort : r.2.f.length < st.f.length := ((item_spec libc hend).of_ok hitem).1
        obtain ⟨ds, e, hds, ho, he⟩ := ih
          { o := .after s cap (cs ++ r.1), f := r.2.f, aq := r.2.aq, mallocs := r.2.mallocs, stores }
          (cs ++ r.1) rfl (by dsimp only; omega)
        rw [List.length_append] at hds
        refine ⟨r.1 ++ ds, e, .item hend (Nat.not_lt.mpr hlen) hitem hds, ?_, he⟩
        rw [← List.append_assoc]
        exact ho
    · have hstop : st.o.len > INT_MAX := by
        rw [h]
        exact Nat.lt_of_not_le hlen
      have hround : round libc st = .error .overflow := by
        unfold round
        rw [if_pos hstop]
      rw [hround]
      exact ⟨[], some .overflow, .stops hend (Nat.lt_of_not_le hlen), by simp [h], rfl⟩

/-- A format has one sequence. -/
theorem Produces.unique {stop : ℕ → Prop} {k : ℕ} {p : Place Dbl LDbl} {e e' : Option Exit}
    (h : Produces libc stop k p ds e) (h' : Produces libc stop k p es e') : es = ds ∧ e' = e := by
  induction h generalizing es e' with
  | ends hf =>
    cases h' with
    | ends => exact ⟨rfl, rfl⟩
    | stops hf' => exact absurd hf hf'
    | leaves hf' => exact absurd hf hf'
    | item hf' => exact absurd hf hf'
  | stops hf hstop =>
    cases h' with
    | ends hf' => exact absurd hf' hf
    | stops => exact ⟨rfl, rfl⟩
    | leaves _ hstop' => exact absurd hstop hstop'
    | item _ hstop' => exact absurd hstop hstop'
  | leaves hf hstop hitem =>
    cases h' with
    | ends hf' => exact absurd hf' hf
    | stops _ hstop' => exact absurd hstop' hstop
    | leaves _ _ hitem' =>
      rw [hitem] at hitem'
      cases hitem'
      exact ⟨rfl, rfl⟩
    | item _ _ hitem' =>
      rw [hitem] at hitem'
      cases hitem'
  | item hf hstop hitem hnext ih =>
    cases h' with
    | ends hf' => exact absurd hf' hf
    | stops _ hstop' => exact absurd hstop' hstop
    | leaves _ _ hitem' =>
      rw [hitem] at hitem'
      cases hitem'
    | item _ _ hitem' hnext' =>
      rw [hitem] at hitem'
      cases hitem'
      obtain ⟨rfl, rfl⟩ := ih hnext'
      exact ⟨rfl, rfl⟩

/-- **The cursor does not wrap**: a sequence is given up, or ends, before it has twice `INT_MAX` characters. -/
theorem Produces.length_le {k : ℕ} {p : Place Dbl LDbl} {e : Option Exit} (h : Produces libc (INT_MAX < ·) k p ds e) :
    k + ds.length ≤ max k (2 * INT_MAX) := by
  induction h with
  | ends | stops | leaves => exact le_max_left _ _
  | @item k p cs next ds e hf hstop hitem _ ih =>
    have hlen : cs.length ≤ INT_MAX := ((item_spec libc hf).of_ok hitem).2
    rw [List.length_append]
    omega

end OrbisCompat.Wchar
