import OrbisCompat.Wchar.Equiv.Contract
import OrbisCompat.Wchar.Equiv.Grammar

/-!
# `vswprintf` agrees with the narrow `printf` on ASCII

A number goes to `snprintf` as `%<flags>*.*j<conv>`, after its argument was converted as its length modifier says.
That has the text of the specification that was written, because the text depends on the value only
(`text_int`).  Characters and strings are padded as the narrow `printf` pads them (`text_char`, `text_string`).
-/

namespace OrbisCompat.Wchar.Narrow

open Sink

variable {Dbl LDbl : Type} {libc : Libc Dbl LDbl} {N : Printer Dbl LDbl} {aq : List (Arg Dbl LDbl)}
  {a : Arg Dbl LDbl} {w i : ℕ} {p : Option ℕ} {fl : List Flag} {len : Modifier} {cs : List ℕ}

/-! ### Widths and precisions as arguments -/

theorem toInt_ofNat {n : ℕ} (h : n ≤ INT_MAX) : (BitVec.ofNat 32 n).toInt = n := by
  unfold INT_MAX at h
  rw [BitVec.toInt_ofNat', Int.bmod_eq_of_le] <;> omega

theorem read_widthArg (h : w ≤ INT_MAX) (aq : List (Arg Dbl LDbl)) :
    Width.star.read (widthArg w :: aq) = some ((w, false), aq) := by
  simp [Width.read, widthArg, toInt_ofNat h]

theorem read_precisionArg (h : ∀ n ∈ p, n ≤ INT_MAX) (aq : List (Arg Dbl LDbl)) :
    Precision.star.read (precisionArg p :: aq) = some (p, aq) := by
  cases p with
  | none => rfl
  | some n => simp [Precision.read, precisionArg, toInt_ofNat (h n rfl)]

theorem read_precision_le {precision : Precision} {aq' : List (Arg Dbl LDbl)}
    (h : precision.read aq = some (p, aq')) : ∀ n ∈ p, n ≤ INT_MAX := by
  intro n hn
  cases precision with
  | absent =>
    cases h
    cases hn
  | literal ds hmax =>
    cases h
    cases hn
    exact hmax
  | star =>
    cases aq with
    | nil => cases h
    | cons a aq =>
      cases a with
      | int v =>
        simp only [Precision.read, Option.some.injEq, Prod.mk.injEq] at h
        rw [← h.1] at hn
        split_ifs at hn
        · cases hn
        · have hlt := BitVec.toInt_lt (x := v)
          cases hn
          unfold INT_MAX
          omega
      | _ => cases h

/-- The text is at least as long as its width. -/
theorem le_length_convert {flags : Finset Flag} {conv : Conv} (h : N.convert flags w p len conv a = some cs) :
    w ≤ cs.length := by
  cases conv with
  | c =>
    obtain ⟨c, -, rfl⟩ := Option.map_eq_some_iff.mp h
    simp
  | s =>
    obtain ⟨s, -, rfl⟩ := Option.map_eq_some_iff.mp h
    simp
  | int k =>
    obtain ⟨v, -, rfl⟩ := Option.map_eq_some_iff.mp h
    exact N.le_integer _ _ _ _ _
  | float k =>
    unfold Printer.convert at h
    dsimp only at h
    split at h <;> cases h
    · exact N.le_longDouble _ _ _ _ _
    · exact N.le_double _ _ _ _ _
    · exact N.le_double _ _ _ _ _

/-! ### Numbers -/

/-- What `snprintf` is asked for. -/
theorem directive_star {conv : Conv} (hallowed : len.Allowed conv) (hw : w ≤ INT_MAX) (hp : ∀ n ∈ p, n ≤ INT_MAX) :
    N.directive ⟨fl, .star, .star, len, conv, hallowed⟩ [widthArg w, precisionArg p, a] =
      (N.convert fl.toFinset w p len conv a).map fun cs => (cs, []) := by
  unfold Printer.directive
  simp only [read_widthArg hw, read_precisionArg hp, Option.bind_eq_bind, Option.bind_some, List.head?_cons,
    Directive.allFlags, Bool.false_eq_true, if_false]
  cases N.convert fl.toFinset w p len conv a <;> rfl

/-- A number is formatted as the specification with `*` for its width and its precision. -/
theorem formatNumber_star (hN : Formats libc N) (hmalloc : ∀ i k, libc.malloc i k = true) {conv : Conv}
    (hallowed : len.Allowed conv) (hw : w ≤ INT_MAX) (hp : ∀ n ∈ p, n ≤ INT_MAX)
    (h : N.convert fl.toFinset w p len conv a = some cs) (hmax : cs.length ≤ INT_MAX) {cf : List ℕ}
    (hcf : cf = Piece.chars (.directive ⟨fl, .star, .star, len, conv, hallowed⟩)) (i : ℕ) :
    ∃ i', formatNumber libc cf [widthArg w, precisionArg p, a] i = .ok (cs, i') := by
  have hdir : N.directive ⟨fl, .star, .star, len, conv, hallowed⟩ [widthArg w, precisionArg p, a] = some (cs, []) := by
    rw [directive_star hallowed hw hp, h]
    rfl
  unfold formatNumber
  rw [hcf, hN _ _ _ _ hdir hmax]
  dsimp only
  by_cases hlen : cs.length ≥ nbSize
  · rw [if_pos hlen, if_pos (hmalloc _ _)]
    exact ⟨_, rfl⟩
  · rw [if_neg hlen]
    exact ⟨_, rfl⟩

/-- A signed value of fewer bits. -/
theorem toInt_narrowed {bits : ℕ} (hbits : bits ≤ 32) (v : BitVec 32) :
    ((v.setWidth bits).signExtend 64).toInt = narrowed true bits v := by
  have hdvd : 2 ^ bits ∣ 2 ^ 32 := Nat.pow_dvd_pow 2 hbits
  rw [BitVec.toInt_signExtend_of_le (by omega), BitVec.toInt_setWidth, narrowed, if_pos rfl,
    BitVec.toInt_eq_toNat_bmod, Int.bmod_bmod_of_dvd hdvd]

/-- An unsigned value of fewer bits. -/
theorem toNat_narrowed {bits : ℕ} (hbits : bits ≤ 32) (v : BitVec 32) :
    (((v.setWidth bits).setWidth 64).toNat : ℤ) = narrowed false bits v := by
  have hlt : v.toNat % 2 ^ bits < 2 ^ 64 :=
    (Nat.mod_lt _ (Nat.two_pow_pos bits)).trans_le (Nat.pow_le_pow_right (by omega) (by omega))
  rw [BitVec.toNat_setWidth, BitVec.toNat_setWidth, Nat.mod_eq_of_lt hlt, narrowed, if_neg Bool.false_ne_true]
  norm_cast

theorem signedArg_value {v : ℤ} (aq : List (Arg Dbl LDbl)) (h : intValue true len a = some v) :
    ∃ b, signedArg len.length (a :: aq) = .ok (b, aq) ∧ b.toInt = v := by
  cases len with
  | hh | h =>
    cases a with
    | int u =>
      cases h
      exact ⟨_, rfl, toInt_narrowed (by omega) u⟩
    | _ => cases h
  | none =>
    cases a with
    | int u =>
      cases h
      exact ⟨_, rfl, BitVec.toInt_signExtend_of_le (by omega)⟩
    | _ => cases h
  | bigL => cases a <;> cases h
  | l | ll | q | j | z | t =>
    cases a with
    | long u =>
      cases h
      exact ⟨_, rfl, rfl⟩
    | _ => cases h

theorem unsignedArg_value {v : ℤ} (aq : List (Arg Dbl LDbl)) (h : intValue false len a = some v) :
    ∃ b, unsignedArg len.length (a :: aq) = .ok (b, aq) ∧ (b.toNat : ℤ) = v := by
  cases len with
  | hh | h =>
    cases a with
    | int u =>
      cases h
      exact ⟨_, rfl, toNat_narrowed (by omega) u⟩
    | _ => cases h
  | none =>
    cases a with
    | int u =>
      cases h
      refine ⟨_, rfl, ?_⟩
      have hlt : u.toNat < 2 ^ 64 := u.isLt.trans (by decide)
      rw [BitVec.toNat_setWidth, Nat.mod_eq_of_lt hlt]
      rfl
    | _ => cases h
  | bigL => cases a <;> cases h
  | l | ll | q | j | z | t =>
    cases a with
    | long u =>
      cases h
      exact ⟨_, rfl, rfl⟩
    | _ => cases h

/-! ### Strings -/

/-- An ASCII string decodes to itself. -/
theorem decode_ascii {s : List ℕ} (h : ∀ c ∈ s, 0 < c ∧ c < 128) (k : ℕ) :
    decode k s = some (s.take k, s.drop k) := by
  induction k generalizing s with
  | zero => rfl
  | succ k ih =>
    unfold decode
    cases s with
    | nil => rfl
    | cons c s =>
      obtain ⟨hpos, hlt⟩ := h c (by simp)
      have hmb : mbtowc (c :: s) W32_MB_LEN_MAX = some (1, c) := by
        unfold mbtowc W32_MB_LEN_MAX
        rw [List.headD_cons, if_neg (by omega), if_pos (by omega), if_pos (by omega)]
      rw [hmb]
      dsimp only
      rw [if_pos (by omega), List.drop_one, List.tail_cons, ih fun c' hc' => h c' (List.mem_cons_of_mem _ hc')]
      rfl

theorem wideText_ascii {s : List ℕ} (h : ∀ c ∈ s, 0 < c ∧ c < 128) : wideText s = s := by
  unfold wideText
  rw [List.takeWhile_eq_self_iff]
  intro c hc
  have hpos := (h c hc).1
  simpa using by omega

/-! ### The conversions -/

/-- What `readSpec` leaves of a specification. -/
def reading (fl : List Flag) (w : ℕ) (p : Option ℕ) (len : Modifier) (conv : Conv) (rest : List ℕ)
    (aq : List (Arg Dbl LDbl)) : Locals Dbl LDbl where
  f := rest
  aq := aq
  flags := fl.map Flag.char
  left := decide (Flag.minus ∈ fl)
  w := w
  p := p
  len := len.length
  conv := conv.wide len

variable {rest : List ℕ}

@[simp] theorem reading_aq {conv : Conv} : (reading fl w p len conv rest aq).aq = aq := rfl

@[simp] theorem reading_w {conv : Conv} : (reading fl w p len conv rest aq).w = w := rfl

@[simp] theorem reading_p {conv : Conv} : (reading fl w p len conv rest aq).p = p := rfl

@[simp] theorem reading_len {conv : Conv} : (reading fl w p len conv rest aq).len = len.length := rfl

@[simp] theorem reading_conv {conv : Conv} : (reading fl w p len conv rest aq).conv = conv.wide len := rfl

theorem text_char (h : N.convert fl.toFinset w p len .c a = some cs) :
    text libc (reading fl w p len .c rest (a :: aq)) i = .ok (cs, aq, i) := by
  obtain ⟨c, hc, rfl⟩ := Option.map_eq_some_iff.mp h
  cases a with
  | int v =>
    simp only [charValue, Option.ite_none_right_eq_some, Option.some.injEq] at hc
    obtain ⟨hlt, rfl⟩ := hc
    have hbtowc : btowc v = v.toNat := by
      have hmod : v.toNat % 256 = v.toNat := Nat.mod_eq_of_lt (by omega)
      unfold btowc
      rw [hmod, if_pos hlt]
    have hc : (if (Conv.c.wide len) = 'C'.toNat then v.toNat else btowc v) = v.toNat := by
      rw [hbtowc, ite_self]
    have hlabel : Label.of (Conv.c.wide len) = .char := by
      unfold Conv.wide
      split_ifs <;> rfl
    unfold text reading
    simp only [hlabel, vaArg, Arg.asInt, bind, Except.bind, hc, List.mem_toFinset]
  | _ => cases hc

theorem text_string (h : N.convert fl.toFinset w p len .s a = some cs) (hmax : cs.length ≤ INT_MAX) :
    text libc (reading fl w p len .s rest (a :: aq)) i = .ok (cs, aq, i) := by
  obtain ⟨s, hs, rfl⟩ := Option.map_eq_some_iff.mp h
  -- without a precision the whole string counts, so it is no longer than `INT_MAX`
  have hlen : p = none → s.length ≤ INT_MAX := by
    rintro rfl
    rw [length_justify, Option.getD_none, List.take_length] at hmax
    omega
  have htake : s.take (p.getD INT_MAX) = s.take (p.getD s.length) := by
    cases p with
    | none => rw [Option.getD_none, Option.getD_none, List.take_length, List.take_of_length_le (hlen rfl)]
    | some n => rfl
  cases len with
  | none =>
    cases a with
    | str so =>
      cases so with
      | none => cases hs
      | some s' =>
        simp only [stringValue, Option.ite_none_right_eq_some, Option.some.injEq] at hs
        obtain ⟨hascii, rfl⟩ := hs
        have hover : ¬(p = none ∧ (s'.drop (p.getD INT_MAX)).headD 0 ≠ 0) := by
          rintro ⟨rfl, hhead⟩
          rw [Option.getD_none, List.drop_eq_nil_of_le (hlen rfl)] at hhead
          exact hhead rfl
        have hlabel : Label.of (Conv.s.wide .none) = .string := rfl
        unfold text reading
        simp only [hlabel, vaArg, Arg.asStr, bind, Except.bind, Option.getD_some, decode_ascii hascii, htake,
          List.mem_toFinset]
        rw [if_neg hover]
    | _ => cases hs
  | l =>
    cases a with
    | wstr so =>
      cases so with
      | none => cases hs
      | some s' =>
        simp only [stringValue, Option.ite_none_right_eq_some, Option.some.injEq] at hs
        obtain ⟨hascii, rfl⟩ := hs
        have hover : ¬(p = none ∧ s'.length > INT_MAX) := fun h => absurd (hlen h.1) (Nat.not_le.mpr h.2)
        have hlabel : Label.of (Conv.s.wide .l) = .wideString := rfl
        unfold text reading
        simp only [hlabel, vaArg, Arg.asWstr, bind, Except.bind, Option.getD_some, wideText_ascii hascii, htake,
          List.mem_toFinset]
        rw [if_neg hover]
    | _ => cases hs
  | _ => cases a <;> cases hs

/-- The format that `snprintf` is given has the width and the precision as arguments. -/
theorem cfText_star {conv : Conv} {len' : Modifier} {mid : List Char} {aq : List (Arg Dbl LDbl)}
    (hlen : len'.Allowed conv) (hconv : conv.wide len = conv.char)
    (hmid : mid.map Char.toNat = ['*'.toNat, '.'.toNat, '*'.toNat] ++ len'.chars) :
    cfText (reading fl w p len conv rest aq) mid =
      Piece.chars (.directive ⟨fl, .star, .star, len', conv, hlen⟩) := by
  unfold cfText
  rw [hmid]
  simp [Piece.chars, Directive.chars, Width.chars, Precision.chars, reading, hconv]

theorem text_int (hN : Formats libc N) (hmalloc : ∀ i k, libc.malloc i k = true) {k : IntConv} (hw : w ≤ INT_MAX)
    (hp : ∀ n ∈ p, n ≤ INT_MAX) (h : N.convert fl.toFinset w p len (.int k) a = some cs)
    (hmax : cs.length ≤ INT_MAX) :
    ∃ i', text libc (reading fl w p len (.int k) rest (a :: aq)) i = .ok (cs, aq, i') := by
  obtain ⟨v, hv, rfl⟩ := Option.map_eq_some_iff.mp h
  have hj : Modifier.j.Allowed (.int k) := trivial
  have hcf : cfText (reading fl w p len (.int k) rest (a :: aq)) ['*', '.', '*', 'j'] =
      Piece.chars (.directive ⟨fl, .star, .star, .j, .int k, hj⟩) :=
    cfText_star hj (by cases len <;> rfl) rfl
  -- the converted argument has the value of the one that was passed
  have hlong {b : BitVec 64} (hb : (if k.isSigned then b.toInt else (b.toNat : ℤ)) = v) :
      N.convert fl.toFinset w p .j (.int k) (.long b) = some (N.integer fl.toFinset w p k v) := by
    simp [Printer.convert, intValue, hb]
  cases hsigned : k.isSigned with
  | true =>
    rw [hsigned] at hv hlong
    obtain ⟨b, hb, hvalue⟩ := signedArg_value aq hv
    obtain ⟨i', hnumber⟩ := formatNumber_star hN hmalloc hj hw hp (hlong hvalue) hmax hcf i
    have hlabel : Label.of (Conv.wide len (.int k)) = .signed := by
      cases k <;> first | rfl | cases hsigned
    refine ⟨i', ?_⟩
    unfold text numberText
    simp only [reading_aq, reading_w, reading_p, reading_len, reading_conv, hlabel, hb, hnumber, bind, Except.bind]
  | false =>
    rw [hsigned] at hv hlong
    obtain ⟨b, hb, hvalue⟩ := unsignedArg_value aq hv
    obtain ⟨i', hnumber⟩ := formatNumber_star hN hmalloc hj hw hp (hlong hvalue) hmax hcf i
    have hlabel : Label.of (Conv.wide len (.int k)) = .unsigned := by
      cases k <;> first | rfl | cases hsigned
    refine ⟨i', ?_⟩
    unfold text numberText
    simp only [reading_aq, reading_w, reading_p, reading_len, reading_conv, hlabel, hb, hnumber, bind, Except.bind]

theorem text_float (hN : Formats libc N) (hmalloc : ∀ i k, libc.malloc i k = true) {k : FloatConv} (hw : w ≤ INT_MAX)
    (hp : ∀ n ∈ p, n ≤ INT_MAX) (h : N.convert fl.toFinset w p len (.float k) a = some cs)
    (hmax : cs.length ≤ INT_MAX) :
    ∃ i', text libc (reading fl w p len (.float k) rest (a :: aq)) i = .ok (cs, aq, i') := by
  have hlabel : Label.of (Conv.wide len (.float k)) = .floating := by
    cases k <;> rfl
  have hdouble (v : Dbl) (hlen : len.length ≠ .bigL) (hlen' : len.length = .none ∨ len.length = .l)
      (h : N.convert fl.toFinset w p .none (.float k) (.double v) = some cs) :
      ∃ i', text libc (reading fl w p len (.float k) rest (.double v :: aq)) i = .ok (cs, aq, i') := by
    have hnone : Modifier.none.Allowed (.float k) := trivial
    have hcf : cfText (reading fl w p len (.float k) rest (.double v :: aq)) ['*', '.', '*'] =
        Piece.chars (.directive ⟨fl, .star, .star, .none, .float k, hnone⟩) :=
      cfText_star hnone (by cases len <;> rfl) rfl
    obtain ⟨i', hnumber⟩ := formatNumber_star hN hmalloc hnone hw hp h hmax hcf i
    refine ⟨i', ?_⟩
    unfold text numberText
    simp only [reading_aq, reading_w, reading_p, reading_len, reading_conv, hlabel, hlen, hlen', if_false, if_true,
      vaArg, Arg.asDouble, hnumber, bind, Except.bind]
  unfold Printer.convert at h
  dsimp only at h
  split at h
  · next v =>
    have hbig : Modifier.bigL.Allowed (.float k) := trivial
    have hcf : cfText (reading fl w p .bigL (.float k) rest (.longDouble v :: aq)) ['*', '.', '*', 'L'] =
        Piece.chars (.directive ⟨fl, .star, .star, .bigL, .float k, hbig⟩) :=
      cfText_star hbig rfl rfl
    have hconv : N.convert fl.toFinset w p .bigL (.float k) (.longDouble v) = some cs := h
    obtain ⟨i', hnumber⟩ := formatNumber_star hN hmalloc hbig hw hp hconv hmax hcf i
    refine ⟨i', ?_⟩
    unfold text numberText
    simp only [reading_aq, reading_w, reading_p, reading_len, reading_conv, hlabel, Modifier.length, if_true,
      vaArg, Arg.asLongDouble, hnumber, bind, Except.bind]
  · next v => exact hdouble v (by decide) (.inl rfl) h
  · next v => exact hdouble v (by decide) (.inr rfl) h
  · cases h

/-- **A conversion** of the narrow grammar produces its narrow text. -/
theorem text_convert (hN : Formats libc N) (hmalloc : ∀ i k, libc.malloc i k = true) {conv : Conv} (hw : w ≤ INT_MAX)
    (hp : ∀ n ∈ p, n ≤ INT_MAX) (h : N.convert fl.toFinset w p len conv a = some cs) (hmax : cs.length ≤ INT_MAX)
    (rest : List ℕ) (aq : List (Arg Dbl LDbl)) (i : ℕ) :
    ∃ i', text libc (reading fl w p len conv rest (a :: aq)) i = .ok (cs, aq, i') := by
  cases conv with
  | c => exact ⟨i, text_char h⟩
  | s => exact ⟨i, text_string h hmax⟩
  | int k => exact text_int hN hmalloc hw hp h hmax
  | float k => exact text_float hN hmalloc hw hp h hmax

/-! ### The format -/

variable {d : Directive} {aq' : List (Arg Dbl LDbl)}

theorem directive_eq_some (h : N.directive d aq = some (cs, aq')) :
    ∃ w negative p aq₁ a, d.width.read aq = some ((w, negative), aq₁) ∧
      d.precision.read aq₁ = some (p, a :: aq') ∧
      N.convert (d.allFlags negative) w p d.len d.conv a = some cs := by
  obtain ⟨⟨⟨w, negative⟩, aq₁⟩, hw, h⟩ := Option.bind_eq_some_iff.mp h
  obtain ⟨⟨p, aq₂⟩, hp, h⟩ := Option.bind_eq_some_iff.mp h
  obtain ⟨a, ha, h⟩ := Option.bind_eq_some_iff.mp h
  obtain ⟨text, htext, h⟩ := Option.bind_eq_some_iff.mp h
  cases h
  cases aq₂ with
  | nil => cases ha
  | cons a' aq₂ =>
    cases ha
    exact ⟨w, negative, p, aq₁, _, hw, hp, htext⟩

/-- A specification is an item, and produces its narrow text. -/
theorem item_directive (hN : Formats libc N) (hmalloc : ∀ i k, libc.malloc i k = true)
    (h : N.directive d aq = some (cs, aq')) (hmax : cs.length ≤ INT_MAX) (rest : List ℕ) (i : ℕ) :
    ∃ i', item libc { f := Piece.chars (.directive d) ++ rest, aq, mallocs := i } =
      .ok (cs, { f := rest, aq := aq', mallocs := i' }) := by
  obtain ⟨w, negative, p, aq₁, a, hwidth, hprecision, hconvert⟩ := directive_eq_some h
  have hw : w ≤ INT_MAX := (le_length_convert hconvert).trans hmax
  obtain ⟨fl, hset, hspec⟩ := readSpec_chars hwidth hprecision hw rest
  rw [← hset] at hconvert
  obtain ⟨i', htext⟩ := text_convert hN hmalloc hw (read_precision_le hprecision) hconvert hmax rest aq' i
  refine ⟨i', ?_⟩
  have hpercent : (d.chars ++ rest).headD 0 ≠ '%'.toNat := by
    cases hd : d.chars with
    | nil =>
      have hlen := congrArg List.length hd
      simp [Directive.chars] at hlen
    | cons c cs' =>
      have hc : c ∈ d.chars := by simp [hd]
      exact fun hpct => notMem_chars (.inr hpct) d hc
  unfold item
  rw [if_neg (by simp [Piece.chars])]
  have htail : (Piece.chars (.directive d) ++ rest).tail = d.chars ++ rest := rfl
  rw [htail, if_neg hpercent, hspec]
  have hreading : text libc (reading fl w p d.len d.conv rest (a :: aq')) i = .ok (cs, aq', i') := htext
  unfold reading at hreading
  simp only [bind, Except.bind, hreading]

/-- The pieces of a format produce their narrow texts, one after the other. -/
theorem format_produces (hN : Formats libc N) (hmalloc : ∀ i k, libc.malloc i k = true) (fmt : Format) {k : ℕ}
    (h : N.format fmt aq = some cs) (hmax : k + cs.length ≤ INT_MAX) (i : ℕ) :
    Produces libc (INT_MAX < ·) k { f := fmt.chars, aq, mallocs := i } cs none := by
  have hstop : ¬INT_MAX < k := by omega
  induction fmt generalizing aq cs k i with
  | nil =>
    cases h
    exact .ends rfl
  | cons piece fmt ih =>
    have hchars : Format.chars (piece :: fmt) = piece.chars ++ Format.chars fmt := List.flatMap_cons
    rw [hchars]
    cases piece with
    | literal c hascii hc =>
      obtain ⟨ds, hds, rfl⟩ := Option.map_eq_some_iff.mp h
      rw [List.length_cons] at hmax
      have hitem : item libc { f := Piece.chars (.literal c hascii hc) ++ Format.chars fmt, aq, mallocs := i } =
          .ok ([c], { f := Format.chars fmt, aq, mallocs := i }) := by
        unfold item
        exact if_pos hc
      have hnext := ih hds (k := k + 1) (by omega) i (by omega)
      have hhead : (Piece.chars (.literal c hascii hc) ++ Format.chars fmt).headD 0 ≠ 0 := hascii.1.ne'
      exact .item hhead hstop hitem hnext
    | percent =>
      obtain ⟨ds, hds, rfl⟩ := Option.map_eq_some_iff.mp h
      rw [List.length_cons] at hmax
      have hitem : item libc { f := Piece.percent.chars ++ Format.chars fmt, aq, mallocs := i } =
          .ok (['%'.toNat], { f := Format.chars fmt, aq, mallocs := i }) := rfl
      have hnext := ih hds (k := k + 1) (by omega) i (by omega)
      exact .item (by simp [Piece.chars]) hstop hitem hnext
    | directive d =>
      obtain ⟨⟨text, aq'⟩, htext, h⟩ := Option.bind_eq_some_iff.mp h
      obtain ⟨ds, hds, h⟩ := Option.bind_eq_some_iff.mp h
      cases h
      rw [List.length_append] at hmax
      obtain ⟨i', hitem⟩ := item_directive hN hmalloc htext (by omega) (Format.chars fmt) i
      exact .item (by simp [Piece.chars]) hstop hitem (ih hds (by omega) i' (by omega))

/-! ### A libc that formats as a printer does -/

def Flag.ofChar (c : ℕ) : Option Flag :=
  [minus, plus, space, alternative, zero, apostrophe].find? fun f => f.char = c

theorem Flag.ofChar_char (f : Flag) : ofChar f.char = some f := by
  cases f <;> rfl

/-- The conversion behind a conversion character, wide or not. -/
def Conv.ofWide (n : ℕ) : Option Conv :=
  if n = 'C'.toNat then some .c
  else if n = 'S'.toNat then some .s
  else
    [c, s, int .d, int .i, int .o, int .u, int .x, int .X, float .a, float .A, float .e, float .E, float .f, float .F,
      float .g, float .G].find? fun k => k.char = n

theorem Conv.ofWide_wide (len : Modifier) (conv : Conv) : ofWide (conv.wide len) = some conv := by
  cases conv with
  | c | s => cases len <;> rfl
  | int k => cases k <;> rfl
  | float k => cases k <;> rfl

/-- A modifier that the file has as `len`. -/
def Modifier.ofLength : Length → Modifier
  | .none => none
  | .hh => hh
  | .h => h
  | .l => l
  | .ll => ll
  | .bigL => bigL
  | .j => j
  | .z => z
  | .t => t

/-- `q` is another name of `ll`. -/
theorem convert_ofLength (flags : Finset Flag) (conv : Conv) (a : Arg Dbl LDbl) :
    N.convert flags w p (Modifier.ofLength len.length) conv a = N.convert flags w p len conv a := by
  cases len with
  | q =>
    cases conv with
    | c => rfl
    | s => cases a <;> rfl
    | int k => cases a <;> rfl
    | float k => cases a <;> rfl
  | _ => rfl

/-- A libc without a want of memory that formats single specifications, which it reads as `vswprintf` does. -/
def Printer.toLibc (N : Printer Dbl LDbl) : Libc Dbl LDbl where
  snprintf cf aq :=
    match readSpec { f := cf.tail, aq } with
    | .error _ => none
    | .ok x => do
      let conv ← Conv.ofWide x.conv
      let a ← x.aq.head?
      let text ← N.convert (x.flags.filterMap Flag.ofChar).toFinset x.w x.p (Modifier.ofLength x.len) conv a
      if text.length ≤ INT_MAX then some text else none
  snprintf_le := by
    intro cf aq out h
    split at h
    · cases h
    · obtain ⟨conv, -, h⟩ := Option.bind_eq_some_iff.mp h
      obtain ⟨a, -, h⟩ := Option.bind_eq_some_iff.mp h
      obtain ⟨text, -, h⟩ := Option.bind_eq_some_iff.mp h
      split_ifs at h with hmax
      cases h
      exact hmax
  malloc _ _ := true

theorem formats_toLibc (N : Printer Dbl LDbl) : Formats N.toLibc N := by
  intro d aq text aq' h hmax
  obtain ⟨w, negative, p, aq₁, a, hwidth, hprecision, hconvert⟩ := directive_eq_some h
  have hw : w ≤ INT_MAX := (le_length_convert hconvert).trans hmax
  obtain ⟨fl, hset, hspec⟩ := readSpec_chars hwidth hprecision hw []
  rw [List.append_nil] at hspec
  have hflags : (fl.map Flag.char).filterMap Flag.ofChar = fl := by
    rw [List.filterMap_map]
    have hsome : Flag.ofChar ∘ Flag.char = some := funext Flag.ofChar_char
    rw [hsome, List.filterMap_some]
  have htail : (Piece.chars (.directive d)).tail = d.chars := rfl
  unfold Printer.toLibc
  dsimp only
  rw [htail, hspec]
  simp only [Option.bind_eq_bind, Conv.ofWide_wide, Option.bind_some, List.head?_cons, hflags, hset, convert_ofLength,
    hconvert]
  rw [if_pos hmax]

/-- **Wide formatting agrees with narrow formatting**: where the narrow text of an ASCII format and ASCII arguments
fits, `vswprintf` stores its characters, ends them with a terminator, and returns their number. -/
theorem vswprintf_narrow (hN : Formats libc N) (hmalloc : ∀ i k, libc.malloc i k = true) (fmt : Format)
    (ap : List (Arg Dbl LDbl)) (h : N.format fmt ap = some cs) (s : ℕ → ℕ) {n : ℕ} (hn : cs.length < n)
    (hmax : cs.length < INT_MAX) :
    ∃ out, vswprintf libc s n fmt.chars ap = some out ∧ out.ret = cs.length ∧
      (∀ i (hi : i < cs.length), out.s i = cs[i]) ∧ out.s cs.length = 0 ∧ ∀ i, cs.length < i → out.s i = s i := by
  have hseq : Sequence libc fmt.chars ap cs none := format_produces hN hmalloc fmt h (by omega) 0
  have hpos : 0 < n := by omega
  obtain ⟨out, hout, hs, hret⟩ := vswprintf_eq hseq (by simp) s hpos
  have hmin : min cs.length (n - 1) = cs.length := by omega
  rw [terminate, hmin] at hs
  refine ⟨out, hout, ?_, ?_, ?_, ?_⟩
  · rw [hret, if_pos ⟨rfl, hmax.le, hn⟩]
  · intro i hi
    have hroom : i < n - 1 := by omega
    rw [hs, Function.update_of_ne hi.ne, image_getElem hi hroom]
  · rw [hs, Function.update_self]
  · intro i hi
    rw [hs, Function.update_of_ne hi.ne', image_frame (.inr hi.le)]

/-! ### An example -/

/-- Numbers in decimal or hexadecimal, without a precision and without other flags than `-`. -/
def plainPrinter : Printer Unit Unit where
  integer flags w _ k v :=
    let digits := (Nat.toDigits (if k = .x then 16 else 10) v.natAbs).map Char.toNat
    justify ' '.toNat (decide (Flag.minus ∈ flags)) w (if v < 0 then '-'.toNat :: digits else digits)
  double flags w _ _ _ := justify ' '.toNat (decide (Flag.minus ∈ flags)) w []
  longDouble flags w _ _ _ := justify ' '.toNat (decide (Flag.minus ∈ flags)) w []
  le_integer _ _ _ _ _ := by simp
  le_double _ _ _ _ _ := by simp
  le_longDouble _ _ _ _ _ := by simp

/-- `"%-*hhd|%lc%%"`. -/
def plainFormat : Format :=
  [.directive ⟨[.minus], .star, .absent, .hh, .int .d, trivial⟩, .literal '|'.toNat (by decide) (by decide),
    .directive ⟨[], .absent, .absent, .l, .c, trivial⟩, .percent]

/-- A negative width, a number of more than eight bits, and a character. -/
def plainArgs : List (Arg Unit Unit) := [.int (-5), .int 300, .int 120]

def plainText : List ℕ := ['4', '4', ' ', ' ', ' ', '|', 'x', '%'].map Char.toNat

theorem vswprintf_narrow_plain :
    ∃ out, vswprintf plainPrinter.toLibc (fun _ => 0) 16 plainFormat.chars plainArgs = some out ∧
      out.ret = plainText.length ∧ (∀ i (hi : i < plainText.length), out.s i = plainText[i]) ∧
      out.s plainText.length = 0 ∧ ∀ i, plainText.length < i → out.s i = 0 :=
  vswprintf_narrow (formats_toLibc plainPrinter) (fun _ _ => rfl) plainFormat plainArgs (by decide +kernel)
    (fun _ => 0) (by decide) (by decide)

end OrbisCompat.Wchar.Narrow
