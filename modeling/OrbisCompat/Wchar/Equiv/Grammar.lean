import Mathlib.Data.Fintype.Card
import Mathlib.Data.List.TakeWhile
import OrbisCompat.Wchar.Narrow

/-!
# `vswprintf` reads the narrow grammar

What `readSpec` makes of a conversion specification of the narrow grammar, whatever stands behind it
(`readSpec_chars`): the flags without repetitions, with a `-` for a negative width, and the width, the precision, the
length modifier and the conversion that were written.
-/

namespace OrbisCompat.Wchar.Narrow

variable {Dbl LDbl : Type}

/-! ### Digits -/

theorem isDigit_iff {c : ℕ} (h : c < 2 ^ 32) : isDigit c = true ↔ 48 ≤ c ∧ c < 58 := by
  have hzero : '0'.toNat = 48 := rfl
  unfold isDigit Word32.sub
  rw [hzero, decide_eq_true_iff]
  omega

theorem isDigit_digit (d : Fin 10) : isDigit ('0'.toNat + d) = true := by
  have hd := d.isLt
  have hzero : '0'.toNat = 48 := rfl
  rw [isDigit_iff (by omega)]
  omega

theorem le_decimalFrom (i : ℕ) (ds : List (Fin 10)) : i ≤ decimalFrom i ds := by
  induction ds generalizing i with
  | nil => exact le_rfl
  | cons d ds ih => exact le_trans (by omega) (ih (10 * i + d))

/-- `w32_getint` reads a number that is an `int`, up to what is not a digit. -/
theorem w32Getint_digits {i : ℕ} {ds : List (Fin 10)} (hmax : decimalFrom i ds ≤ INT_MAX) {rest : List ℕ}
    (hrest : isDigit (rest.headD 0) = false) :
    w32Getint (some i) (digitChars ds ++ rest) = (some (decimalFrom i ds), rest) := by
  induction ds generalizing i with
  | nil =>
    cases rest with
    | nil => rfl
    | cons c rest =>
      rw [List.headD_cons] at hrest
      simp [digitChars, w32Getint, decimalFrom, hrest]
  | cons d ds ih =>
    have hle : 10 * i + d ≤ INT_MAX := (le_decimalFrom _ ds).trans hmax
    have hd : '0'.toNat + (d : ℕ) - '0'.toNat = d := by omega
    have hfits : ¬(i > INT_MAX / 10 ∨ (d : ℕ) > INT_MAX - 10 * i) := by
      unfold INT_MAX at hle ⊢
      omega
    rw [digitChars, List.map_cons, List.cons_append, w32Getint, if_pos (isDigit_digit d)]
    dsimp only
    rw [hd, Option.bind_some, if_neg hfits]
    exact ih hmax

/-! ### Flags -/

instance : Fintype Flag where
  elems := {.minus, .plus, .space, .alternative, .zero, .apostrophe}
  complete f := by cases f <;> decide

theorem Flag.char_mem (f : Flag) : f.char ∈ flagChars := by
  cases f <;> decide

theorem Flag.char_injective : Function.Injective Flag.char := by
  intro f g
  cases f <;> cases g <;> decide

/-- There are six flags, so the array has room for one that is not in it. -/
theorem flags_room {fl : List Flag} (h : fl.Nodup) {f : Flag} (hf : f ∉ fl) :
    (fl.map Flag.char).length < maxFlags := by
  have hcons : (f :: fl).Nodup := List.nodup_cons.mpr ⟨hf, h⟩
  have hcard := hcons.length_le_card
  have hsix : Fintype.card Flag = 6 := rfl
  rw [List.length_cons, hsix] at hcard
  rw [List.length_map]
  unfold maxFlags
  omega

/-- The loop over the flags keeps each of them once. -/
theorem flagsLoop_chars {acc : List Flag} (hacc : acc.Nodup) (left : Bool) (fl : List Flag) {rest : List ℕ}
    (hrest : rest.headD 0 ∉ flagChars) :
    ∃ acc' : List Flag, acc'.Nodup ∧ acc'.toFinset = acc.toFinset ∪ fl.toFinset ∧
      flagsLoop (acc.map Flag.char) left (fl.map Flag.char ++ rest) =
        (acc'.map Flag.char, left || decide (Flag.minus ∈ fl), rest) := by
  induction fl generalizing acc left with
  | nil =>
    refine ⟨acc, hacc, by simp, ?_⟩
    cases rest with
    | nil => simp [flagsLoop]
    | cons c rest =>
      rw [List.headD_cons] at hrest
      simp [flagsLoop, hrest]
  | cons f fl ih =>
    have hmem : f.char ∈ acc.map Flag.char ↔ f ∈ acc := List.mem_map_of_injective Flag.char_injective
    have hminus : f.char = '-'.toNat ↔ f = .minus := Flag.char_injective.eq_iff (b := Flag.minus)
    have hleft : (if f.char = '-'.toNat then true else left) = (left || decide (f = .minus)) := by
      by_cases hf : f = .minus
      · rw [if_pos (hminus.mpr hf)]
        simp [hf]
      · rw [if_neg (mt hminus.mp hf)]
        simp [hf]
    rw [List.map_cons, List.cons_append, flagsLoop, if_pos f.char_mem, hleft]
    have hor : ((left || decide (f = .minus)) || decide (Flag.minus ∈ fl)) =
        (left || decide (Flag.minus ∈ f :: fl)) := by
      simp [Bool.or_assoc, eq_comm]
    rw [← hor]
    by_cases hf : f ∈ acc
    · obtain ⟨acc', hnodup, hset, hloop⟩ := ih hacc (left || decide (f = .minus))
      refine ⟨acc', hnodup, ?_, ?_⟩
      · rw [hset, List.toFinset_cons, Finset.union_insert,
          Finset.insert_eq_of_mem (Finset.mem_union_left _ (List.mem_toFinset.mpr hf))]
      · rw [if_neg (fun h => h.2 (hmem.mpr hf)), hloop]
    · have hcons : (f :: acc).Nodup := List.nodup_cons.mpr ⟨hf, hacc⟩
      have happ : (acc ++ [f]).Nodup := by
        rw [List.nodup_append_comm]
        exact hcons
      obtain ⟨acc', hnodup, hset, hloop⟩ := ih happ (left || decide (f = .minus))
      refine ⟨acc', hnodup, ?_, ?_⟩
      · rw [hset, List.toFinset_cons, List.toFinset_append]
        ext g
        simp
      · rw [if_pos ⟨flags_room hacc hf, fun h => hf (hmem.mp h)⟩]
        rw [List.map_append] at hloop
        exact hloop

/-! ### What stands behind -/

theorem Conv.char_letter (k : Conv) : 65 ≤ k.char ∧ k.char ≤ 122 := by
  cases k with
  | c | s => decide
  | int k => cases k <;> decide
  | float k => cases k <;> decide

/-- Behind a precision there is a letter. -/
theorem headD_modifier (len : Modifier) (conv : Conv) (rest : List ℕ) :
    65 ≤ (len.chars ++ conv.char :: rest).headD 0 ∧ (len.chars ++ conv.char :: rest).headD 0 ≤ 122 := by
  cases len with
  | none => exact conv.char_letter
  | _ => simp [Modifier.chars]

/-- Behind a width there is a letter or a precision. -/
theorem headD_precision (p : Precision) (len : Modifier) (conv : Conv) (rest : List ℕ) :
    (p.chars ++ (len.chars ++ conv.char :: rest)).headD 0 = '.'.toNat ∨
      65 ≤ (p.chars ++ (len.chars ++ conv.char :: rest)).headD 0 ∧
        (p.chars ++ (len.chars ++ conv.char :: rest)).headD 0 ≤ 122 := by
  cases p with
  | absent => exact .inr (headD_modifier len conv rest)
  | literal | star => exact .inl rfl

theorem notMem_flagChars {c : ℕ} (h : c = 42 ∨ c = 46 ∨ 49 ≤ c) : c ∉ flagChars := by
  have hchars : flagChars = [45, 43, 32, 35, 48, 39] := rfl
  rw [hchars]
  simp only [List.mem_cons, List.not_mem_nil, or_false]
  omega

/-- Behind the flags there is none. -/
theorem headD_width (w : Width) (p : Precision) (len : Modifier) (conv : Conv) (rest : List ℕ) :
    (w.chars ++ (p.chars ++ (len.chars ++ conv.char :: rest))).headD 0 ∉ flagChars := by
  cases w with
  | absent =>
    have h := headD_precision p len conv rest
    have hdot : '.'.toNat = 46 := rfl
    rw [Width.chars, List.nil_append]
    exact notMem_flagChars (by omega)
  | star => exact notMem_flagChars (.inl rfl)
  | literal d ds hd hmax =>
    have hne : (d : ℕ) ≠ 0 := fun h => hd (Fin.ext h)
    have hhead : (Width.chars (.literal d ds hd hmax) ++ (p.chars ++ (len.chars ++ conv.char :: rest))).headD 0 =
        48 + d := rfl
    rw [hhead]
    exact notMem_flagChars (.inr (.inr (by omega)))

/-! ### The parts of a specification -/

variable {x : Locals Dbl LDbl} {aq : List (Arg Dbl LDbl)} {w : ℕ} {p : Option ℕ} {rest : List ℕ} {fl : List Flag}

theorem w32Getint_none (hdigit : isDigit (rest.headD 0) = false) : w32Getint (some 0) rest = (some 0, rest) :=
  @w32Getint_digits 0 [] (Nat.zero_le _) rest hdigit

theorem readWidth_chars {width : Width} {negative : Bool} (hf : x.f = width.chars ++ rest)
    (hdigit : isDigit (rest.headD 0) = false) (hstar : rest.headD 0 ≠ '*'.toNat)
    (hread : width.read x.aq = some ((w, negative), aq)) (hw : w ≤ INT_MAX) (hnodup : fl.Nodup)
    (hflags : x.flags = fl.map Flag.char) (hleft : x.left = decide (Flag.minus ∈ fl)) :
    ∃ fl' : List Flag, fl'.toFinset = (if negative then insert .minus fl.toFinset else fl.toFinset) ∧
      readWidth x = .ok { x with
        f := rest, aq, w, flags := fl'.map Flag.char, left := decide (Flag.minus ∈ fl') } := by
  unfold readWidth
  cases width with
  | absent =>
    cases hread
    refine ⟨fl, rfl, ?_⟩
    rw [hf, Width.chars, List.nil_append, if_neg hstar, w32Getint_none hdigit, ← hflags, ← hleft]
  | literal d ds hd hmax =>
    cases hread
    have hne : (digitChars (d :: ds) ++ rest).headD 0 ≠ '*'.toNat := by
      have hhead : (digitChars (d :: ds) ++ rest).headD 0 = 48 + d := rfl
      have hchar : '*'.toNat = 42 := rfl
      omega
    have hfrom : decimalFrom 0 (d :: ds) = decimalFrom d ds := by simp [decimalFrom]
    have hint := w32Getint_digits (hfrom ▸ hmax) hdigit
    refine ⟨fl, rfl, ?_⟩
    rw [hf, Width.chars, if_neg hne, hint, hfrom, ← hflags, ← hleft]
  | star =>
    have hhead : (Width.star.chars ++ rest).headD 0 = '*'.toNat := rfl
    have htail : (Width.star.chars ++ rest).tail = rest := rfl
    rw [hf, if_pos hhead, htail]
    cases haq : x.aq with
    | nil =>
      rw [haq] at hread
      cases hread
    | cons a as =>
      rw [haq] at hread
      cases a with
      | int v =>
        simp only [Width.read, Option.some.injEq, Prod.mk.injEq] at hread
        obtain ⟨⟨rfl, rfl⟩, rfl⟩ := hread
        simp only [vaArg, Arg.asInt, bind, Except.bind]
        by_cases hneg : v.toInt < 0
        · have hmin : ¬v.toInt = -2 ^ 31 := by
            unfold INT_MAX at hw
            omega
          have habs : (-v.toInt).toNat = v.toInt.natAbs := by omega
          rw [if_pos hneg, if_neg hmin, habs]
          by_cases hminus : Flag.minus ∈ fl
          · refine ⟨fl, by simp [hneg, hminus], ?_⟩
            rw [if_pos (by simp [hleft, hminus]), ← hflags, ← hleft]
          · have hroom : x.flags.length < maxFlags := hflags ▸ flags_room hnodup hminus
            refine ⟨fl ++ [.minus], by simp [hneg], ?_⟩
            rw [if_neg (by simp [hleft, hminus]), if_pos hroom, hflags]
            simp [Flag.char]
        · have habs : v.toInt.toNat = v.toInt.natAbs := by omega
          refine ⟨fl, by simp [hneg], ?_⟩
          rw [if_neg hneg, habs, ← hflags, ← hleft]
      | _ => cases hread

theorem readPrecision_chars {precision : Precision} (hf : x.f = precision.chars ++ rest)
    (hletter : 65 ≤ rest.headD 0 ∧ rest.headD 0 ≤ 122) (hread : precision.read x.aq = some (p, aq)) :
    readPrecision x = .ok { x with f := rest, aq, p } := by
  have hdigit : isDigit (rest.headD 0) = false := by
    rw [← Bool.not_eq_true, isDigit_iff (by omega)]
    omega
  have hdot : '.'.toNat = 46 := rfl
  have hstar : '*'.toNat = 42 := rfl
  unfold readPrecision
  rw [hf]
  cases precision with
  | absent =>
    cases hread
    rw [Precision.chars, List.nil_append, if_neg (by omega), if_neg (by omega)]
  | literal ds hmax =>
    cases hread
    have hhead : (Precision.chars (.literal ds hmax) ++ rest).headD 0 = '.'.toNat := rfl
    have htail : (Precision.chars (.literal ds hmax) ++ rest).tail = digitChars ds ++ rest := rfl
    have hne : (digitChars ds ++ rest).headD 0 ≠ '*'.toNat := by
      cases ds with
      | nil =>
        rw [digitChars, List.map_nil, List.nil_append]
        omega
      | cons d ds =>
        have hdigit : (digitChars (d :: ds) ++ rest).headD 0 = 48 + d := rfl
        omega
    rw [htail, if_neg (fun h => hne h.2), if_pos hhead, w32Getint_digits hmax hdigit]
  | star =>
    have hhead : (Precision.star.chars ++ rest).headD 0 = '.'.toNat ∧
        (Precision.star.chars ++ rest).tail.headD 0 = '*'.toNat := ⟨rfl, rfl⟩
    have htail : (Precision.star.chars ++ rest).tail.tail = rest := rfl
    rw [if_pos hhead, htail]
    cases haq : x.aq with
    | nil =>
      rw [haq] at hread
      cases hread
    | cons a as =>
      rw [haq] at hread
      cases a with
      | int v =>
        simp only [Precision.read, Option.some.injEq, Prod.mk.injEq] at hread
        obtain ⟨rfl, rfl⟩ := hread
        rfl
      | _ => cases hread

/-- The length modifier as the file has it. -/
def Modifier.length : Modifier → Length
  | none => .none
  | hh => .hh
  | h => .h
  | l => .l
  | ll => .ll
  | q => .ll
  | bigL => .bigL
  | j => .j
  | z => .z
  | t => .t

/-- The conversion as the file has it, which `l` turns into a wide one. -/
def Conv.wide (len : Modifier) : Conv → ℕ
  | c => if len = .l then 'C'.toNat else 'c'.toNat
  | s => if len = .l then 'S'.toNat else 's'.toNat
  | int k => k.char
  | float k => k.char

theorem readLength_chars (len : Modifier) (conv : Conv) (rest : List ℕ) :
    readLength (len.chars ++ conv.char :: rest) = (len.length, conv.char :: rest) := by
  cases conv with
  | c | s => cases len <;> rfl
  | int k => cases k <;> cases len <;> rfl
  | float k => cases k <;> cases len <;> rfl

theorem readConv_chars {len : Modifier} {conv : Conv} (hf : x.f = len.chars ++ conv.char :: rest) :
    readConv x = { x with f := rest, len := len.length, conv := conv.wide len } := by
  unfold readConv
  rw [hf, readLength_chars]
  cases conv with
  | c | s => cases len <;> rfl
  | int k => cases k <;> cases len <;> rfl
  | float k => cases k <;> cases len <;> rfl

/-! ### The specification -/

/-- Neither `$` nor `%` is in a specification. -/
theorem notMem_chars {c : ℕ} (hc : c = '$'.toNat ∨ c = '%'.toNat) (d : Directive) : c ∉ d.chars := by
  have hdollar : '$'.toNat = 36 := rfl
  have hpercent : '%'.toNat = 37 := rfl
  have hdigits (ds : List (Fin 10)) : c ∉ digitChars ds := by
    intro h
    obtain ⟨i, -, hi⟩ := List.mem_map.mp h
    have hzero : '0'.toNat = 48 := rfl
    omega
  have hflags : c ∉ d.flags.map Flag.char := by
    intro h
    obtain ⟨f, -, rfl⟩ := List.mem_map.mp h
    cases f <;> simp [Flag.char] at hc
  have hwidth : c ∉ d.width.chars := by
    cases d.width with
    | absent => simp [Width.chars]
    | literal i ds => exact hdigits (i :: ds)
    | star =>
      have hstar : '*'.toNat = 42 := rfl
      rw [Width.chars, List.mem_singleton]
      omega
  have hprecision : c ∉ d.precision.chars := by
    have hdot : '.'.toNat = 46 := rfl
    have hstar : '*'.toNat = 42 := rfl
    cases d.precision with
    | absent => simp [Precision.chars]
    | literal ds =>
      rw [Precision.chars, List.mem_cons, not_or]
      exact ⟨by omega, hdigits ds⟩
    | star =>
      rw [Precision.chars, List.mem_cons, List.mem_singleton]
      omega
  have hlen : c ∉ d.len.chars := by
    rcases hc with rfl | rfl
    · cases d.len <;> decide
    · cases d.len <;> decide
  have hconv : c ≠ d.conv.char := by
    have hletter := d.conv.char_letter
    omega
  simp only [Directive.chars, List.mem_append, List.mem_singleton, not_or]
  exact ⟨hflags, hwidth, hprecision, hlen, hconv⟩

/-- No argument of a conversion specification is positional. -/
theorem positional_chars (d : Directive) (rest : List ℕ) : positional (d.chars ++ rest) = false := by
  have hletter := d.conv.char_letter
  have hconv : isDigit d.conv.char = false := by
    rw [← Bool.not_eq_true, isDigit_iff (by omega)]
    omega
  -- the conversion is not a digit, so what is behind the digits begins inside the specification
  cases hq : d.chars.dropWhile isDigit with
  | nil =>
    have hall := List.dropWhile_eq_nil_iff.mp hq d.conv.char (by simp [Directive.chars])
    rw [hconv] at hall
    cases hall
  | cons c q =>
    have hmem : c ∈ d.chars := (List.dropWhile_suffix isDigit).subset (by rw [hq]; simp)
    have hne : c ≠ '$'.toNat := fun h => notMem_chars (.inl h) d hmem
    unfold positional
    rw [List.dropWhile_append, hq]
    simpa using fun _ => hne

/-- **`vswprintf` reads a specification** of the narrow grammar. -/
theorem readSpec_chars {d : Directive} {aq aq' aq'' : List (Arg Dbl LDbl)} {w : ℕ} {negative : Bool} {p : Option ℕ}
    (hwidth : d.width.read aq = some ((w, negative), aq')) (hprecision : d.precision.read aq' = some (p, aq''))
    (hw : w ≤ INT_MAX) (rest : List ℕ) :
    ∃ fl : List Flag, fl.toFinset = d.allFlags negative ∧
      readSpec { f := d.chars ++ rest, aq := aq } = .ok {
        f := rest, aq := aq'', flags := fl.map Flag.char, left := decide (Flag.minus ∈ fl), w, p,
        len := d.len.length, conv := d.conv.wide d.len } := by
  have hchars : d.chars ++ rest = d.flags.map Flag.char ++
      (d.width.chars ++ (d.precision.chars ++ (d.len.chars ++ d.conv.char :: rest))) := by
    simp [Directive.chars]
  obtain ⟨fl, hnodup, hset, hloop⟩ := flagsLoop_chars List.nodup_nil false d.flags
    (headD_width d.width d.precision d.len d.conv rest)
  have hletter := headD_modifier d.len d.conv rest
  have hbehind := headD_precision d.precision d.len d.conv rest
  have hdot : '.'.toNat = 46 := rfl
  have hstar : '*'.toNat = 42 := rfl
  have hdigit : isDigit ((d.precision.chars ++ (d.len.chars ++ d.conv.char :: rest)).headD 0) = false := by
    rw [← Bool.not_eq_true, isDigit_iff (by omega)]
    omega
  have hminus : (false || decide (Flag.minus ∈ d.flags)) = decide (Flag.minus ∈ fl) := by
    have hmem : Flag.minus ∈ fl ↔ Flag.minus ∈ d.flags := by
      rw [← List.mem_toFinset, hset]
      simp
    simp [hmem]
  have hflags : readFlags { f := d.chars ++ rest, aq := aq } = ({
      f := d.width.chars ++ (d.precision.chars ++ (d.len.chars ++ d.conv.char :: rest)), aq := aq,
      flags := fl.map Flag.char, left := decide (Flag.minus ∈ fl) } : Locals Dbl LDbl) := by
    rw [List.map_nil, hminus] at hloop
    unfold readFlags
    rw [hchars, hloop]
  obtain ⟨fl', hset', hreadWidth⟩ := readWidth_chars (x := readFlags { f := d.chars ++ rest, aq := aq })
    (by rw [hflags]) hdigit (by omega) (by rw [hflags]; exact hwidth) hw hnodup (by rw [hflags]) (by rw [hflags])
  refine ⟨fl', ?_, ?_⟩
  · rw [hset', hset]
    simp [Directive.allFlags]
  · unfold readSpec
    rw [if_neg (by rw [positional_chars]; exact Bool.false_ne_true)]
    simp only [bind, Except.bind, hreadWidth]
    rw [readPrecision_chars rfl hletter hprecision]
    dsimp only
    rw [readConv_chars rfl, hflags]

end OrbisCompat.Wchar.Narrow
