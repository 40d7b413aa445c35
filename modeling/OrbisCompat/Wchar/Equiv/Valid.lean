import OrbisCompat.Wchar.Equiv.Contract
import OrbisCompat.Wchar.Equiv.Decode
import OrbisCompat.Wchar.Valid

/-!
# Which calls of `vswprintf` put out valid characters

* `decode_scalar`: what `%s` decodes are scalar values.
* `item_valid`: so is everything that an item produces, when its literal or its `%c` is convertible.
* `Handled.sublist`: what an item produces is part of the sequence of the format.
* `validOutput_iff`: with valid arguments for `%lc` and `%ls` the output is valid exactly when the literals are and
  `%c` is only used for bytes below `0x80`.  Any other byte is stored as `W32_WEOF` (`not_validOutput_char`).
-/

namespace OrbisCompat.Wchar

open Fallible Sink Utf8

variable {Dbl LDbl : Type} {libc : Libc Dbl LDbl} {fmt : List ℕ} {ap : List (Arg Dbl LDbl)}
  {p q : Place Dbl LDbl} {x : Locals Dbl LDbl} {cs : List ℕ} {e : Option Exit} {c k : ℕ}

/-! ### The characters of an item -/

theorem scalar_of_lt (h : c < 256) : IsScalar c := Or.inl (by omega)

/-- What decodes are scalar values. -/
theorem decode_scalar {s bs : List ℕ} (hs : IsBytes s) (h : decode k s = some (cs, bs)) :
    ∀ c ∈ cs, IsScalar c := by
  induction k generalizing s cs bs with
  | zero =>
    simp only [decode, Option.some.injEq, Prod.mk.injEq] at h
    rw [← h.1]
    simp
  | succ k ih =>
    have hround := mbtowc_round hs
    unfold decode at h
    rcases round_cases hs with rfl | ⟨c, l, rest, hl, -, rfl, haccepts⟩ | hrejects
    · -- the terminator ends the string
      have hend : mbtowc [] W32_MB_LEN_MAX = some (0, 0) := rfl
      rw [hend] at h
      simp only [lt_irrefl, if_false, Option.some.injEq, Prod.mk.injEq] at h
      rw [← h.1]
      simp
    · obtain ⟨i, hi, hmb, hdrop⟩ := hround.char _ _ haccepts.store
      rw [hmb] at h
      dsimp only at h
      rw [if_pos hi, hdrop] at h
      obtain ⟨⟨cs', bs'⟩, hrest, heq⟩ := Option.map_eq_some_iff.mp h
      simp only [Prod.mk.injEq] at heq
      rw [← heq.1]
      obtain ⟨-, rfl⟩ := heq
      have hbytes : IsBytes rest := fun b hb => hs b (List.mem_append_right _ hb)
      exact List.forall_mem_cons.mpr ⟨hl.scalar.1, ih hbytes hrest⟩
    · obtain ⟨c, hstop, hne⟩ := hrejects.store
      rw [hround.stop _ _ hstop hne] at h
      cases h

/-- Padding is valid. -/
theorem justify_valid (left : Bool) (w : ℕ) (h : ∀ c ∈ cs, IsScalar c) :
    ∀ c ∈ justify ' '.toNat left w cs, IsScalar c := by
  have hblank : ∀ c ∈ List.replicate (w - cs.length) ' '.toNat, IsScalar c := by
    intro c hc
    rw [List.eq_of_mem_replicate hc]
    decide
  unfold justify
  split_ifs
  · exact List.forall_mem_append.mpr ⟨h, hblank⟩
  · exact List.forall_mem_append.mpr ⟨hblank, h⟩

theorem nullText_bytes : IsBytes nullText := by
  unfold IsBytes
  decide

/-- A number is valid. -/
theorem numberText_valid (h : ∀ cf args out, libc.snprintf cf args = some out → ∀ b ∈ out, b < 256) (i : ℕ)
    (aq : List (Arg Dbl LDbl)) (mid : List Char) (args : List (Arg Dbl LDbl)) :
    Post (fun _ => True) (fun r => ∀ c ∈ r.1, IsScalar c) (numberText libc x i aq mid args) := by
  unfold numberText formatNumber
  cases hout : libc.snprintf (cfText x mid) args with
  | none => trivial
  | some out =>
    dsimp only
    have hvalid : ∀ c ∈ out, IsScalar c := fun c hc => scalar_of_lt (h _ _ _ hout c hc)
    split_ifs
    · exact hvalid
    · trivial
    · exact hvalid

/-- What the arguments of a conversion have to satisfy for its text to be valid. -/
structure ValidArgs (x : Locals Dbl LDbl) : Prop where
  char : ∀ v aq, x.conv = 'c'.toNat → vaArg Arg.asInt x.aq = .ok (v, aq) → v.toNat % 256 < 0x80
  wideChar : ∀ v aq, x.conv = 'C'.toNat → vaArg Arg.asInt x.aq = .ok (v, aq) → IsScalar v.toNat
  string : ∀ s aq, x.conv = 's'.toNat → vaArg Arg.asStr x.aq = .ok (some s, aq) → IsBytes s
  wideString : ∀ s aq, x.conv = 'S'.toNat → vaArg Arg.asWstr x.aq = .ok (some s, aq) → ∀ c ∈ s, IsScalar c

theorem Label.of_eq_char (h : Label.of x.conv = .char) : x.conv = 'c'.toNat ∨ x.conv = 'C'.toNat := by
  unfold Label.of at h
  split_ifs at h with _ hchar
  exact hchar

theorem Label.of_eq_wideString (h : Label.of x.conv = .wideString) : x.conv = 'S'.toNat := by
  unfold Label.of at h
  split_ifs at h with _ _ hwide
  exact hwide

theorem Label.of_eq_string (h : Label.of x.conv = .string) : x.conv = 's'.toNat := by
  unfold Label.of at h
  split_ifs at h with _ _ _ hstring
  exact hstring

theorem btowc_of_lt {v : BitVec 32} (h : v.toNat % 256 < 0x80) : btowc v = v.toNat % 256 := if_pos h

theorem btowc_of_ge {v : BitVec 32} (h : ¬v.toNat % 256 < 0x80) : btowc v = W32_WEOF := if_neg h

/-- **The text of a conversion** is valid when its arguments are. -/
theorem text_valid (hx : ValidArgs x)
    (hnumber : ∀ cf args out, libc.snprintf cf args = some out → ∀ b ∈ out, b < 256) (i : ℕ) :
    Post (fun _ => True) (fun r => ∀ c ∈ r.1, IsScalar c) (text libc x i) := by
  have hnum := fun i aq mid args => numberText_valid (x := x) hnumber i aq mid args
  unfold text
  cases hlabel : Label.of x.conv with
  | count =>
    refine (post_true _).bind fun r _ => ?_
    dsimp only
    split_ifs
    · trivial
    · simp [Post]
  | char =>
    refine (post_eq _).bind fun r hr => ?_
    refine justify_valid x.left x.w (List.forall_mem_singleton.mpr ?_)
    -- only `%c` goes through `btowc`
    rcases Label.of_eq_char hlabel with hc | hC
    · have hlt := hx.char _ _ hc hr
      rw [if_neg (by rw [hc]; decide), btowc_of_lt hlt]
      exact scalar_of_lt (hlt.trans (by norm_num))
    · rw [if_pos hC]
      exact hx.wideChar _ _ hC hr
  | wideString =>
    refine (post_eq _).bind fun r hr => ?_
    dsimp only
    split_ifs
    · trivial
    · refine justify_valid x.left x.w fun c hc => ?_
      have hmem := (List.takeWhile_prefix _).subset (List.mem_of_mem_take hc)
      cases hs : r.1 with
      | none =>
        rw [hs] at hmem
        exact scalar_of_lt (nullText_bytes c hmem).2
      | some s =>
        rw [hs] at hmem
        exact hx.wideString s r.2 (Label.of_eq_wideString hlabel) (by rw [hr, ← hs]) c hmem
  | string =>
    refine (post_eq _).bind fun r hr => ?_
    have hbytes : IsBytes (r.1.getD nullText) := by
      cases hs : r.1 with
      | none => exact nullText_bytes
      | some s => exact hx.string s r.2 (Label.of_eq_string hlabel) (by rw [hr, ← hs])
    dsimp only
    cases hdecode : decode (x.p.getD INT_MAX) (r.1.getD nullText) with
    | none => trivial
    | some d =>
      dsimp only
      split_ifs
      · trivial
      · exact justify_valid x.left x.w (decode_scalar hbytes hdecode)
  | signed => exact (post_true _).bind fun r _ => hnum _ _ _ _
  | unsigned => exact (post_true _).bind fun r _ => hnum _ _ _ _
  | pointer => exact (post_true _).bind fun r _ => hnum _ _ _ _
  | floating =>
    dsimp only
    split_ifs
    · exact (post_true _).bind fun r _ => hnum _ _ _ _
    · exact (post_true _).bind fun r _ => hnum _ _ _ _
    · trivial
  | default => trivial

/-! ### Items -/

theorem Place.spec_eq (hf : p.f.headD 0 = '%'.toNat) (hf' : p.f.tail.headD 0 ≠ '%'.toNat)
    (hx : readSpec { f := p.f.tail, aq := p.aq } = .ok x) : p.spec = some x := by
  unfold Place.spec
  rw [if_pos ⟨hf, hf'⟩, hx]
  rfl

/-- **An item** that is handled produces valid characters. -/
theorem item_valid (hnarrow : NarrowBytes libc fmt ap) (hwide : ValidWide libc fmt ap)
    (hconv : Convertible libc fmt ap) (hp : Handled libc fmt ap p) :
    Post (fun _ => True) (fun r => ∀ c ∈ r.1, IsScalar c) (item libc p) := by
  unfold item
  by_cases hliteral : p.f.headD 0 ≠ '%'.toNat
  · rw [if_pos hliteral]
    exact List.forall_mem_singleton.mpr (hconv.literal p hp hliteral)
  rw [if_neg hliteral]
  by_cases hpercent : p.f.tail.headD 0 = '%'.toNat
  · rw [if_pos hpercent]
    exact List.forall_mem_singleton.mpr (by decide)
  rw [if_neg hpercent]
  refine (post_eq _).bind fun x hx => ?_
  have hspec := Place.spec_eq (not_not.mp hliteral) hpercent hx
  have hargs : ValidArgs x := by
    constructor
    · exact fun v aq hc hv => hconv.char p v hp ⟨x, aq, hspec, hc, hv⟩
    · exact fun v aq hc hv => hwide.char p v hp ⟨x, aq, hspec, hc, hv⟩
    · exact fun s aq hc hs => hnarrow.string p s hp ⟨x, aq, hspec, hc, hs⟩
    · exact fun s aq hc hs => hwide.string p s hp ⟨x, aq, hspec, hc, hs⟩
  exact (text_valid hargs hnarrow.number p.mallocs).bind fun r hr => hr

/-- **A sequence** that starts at a place the loop gets to is valid. -/
theorem Produces.valid (hnarrow : NarrowBytes libc fmt ap) (hwide : ValidWide libc fmt ap)
    (hconv : Convertible libc fmt ap) (h : Produces libc (INT_MAX < ·) k p cs e)
    (hp : Reached libc fmt ap k p) : ∀ c ∈ cs, IsScalar c := by
  induction h with
  | ends | stops | leaves => simp
  | item hf hstop hitem _ ih =>
    have hle := Nat.not_lt.mp hstop
    have hvalid := (item_valid hnarrow hwide hconv ⟨_, hp, hf, hle⟩).of_ok hitem
    exact List.forall_mem_append.mpr ⟨hvalid, ih (hp.next hf hle hitem)⟩

/-- From a place that the loop gets to, the rest of the sequence is produced. -/
theorem Reached.split (h : Reached libc fmt ap k p) (hseq : Sequence libc fmt ap cs e) :
    ∃ pre ds, cs = pre ++ ds ∧ Produces libc (INT_MAX < ·) k p ds e := by
  induction h with
  | start => exact ⟨[], cs, rfl, hseq⟩
  | @next k p ds q _ hf hstop hitem ih =>
    obtain ⟨pre, es, rfl, hes⟩ := ih
    cases hes with
    | ends hf' => exact absurd hf' hf
    | stops _ hstop' => exact absurd hstop (Nat.not_le.mpr hstop')
    | leaves _ _ hitem' =>
      rw [hitem] at hitem'
      cases hitem'
    | item _ _ hitem' hnext =>
      rw [hitem] at hitem'
      cases hitem'
      exact ⟨pre ++ ds, _, (List.append_assoc _ _ _).symm, hnext⟩

/-- **What an item produces** is part of the sequence. -/
theorem Handled.subset (hp : Handled libc fmt ap p) (hseq : Sequence libc fmt ap cs e) {ds : List ℕ}
    (hitem : item libc p = .ok (ds, q)) : ds ⊆ cs := by
  obtain ⟨k, hreached, hf, hstop⟩ := hp
  obtain ⟨pre, es, rfl, hes⟩ := hreached.split hseq
  cases hes with
  | ends hf' => exact absurd hf' hf
  | stops _ hstop' => exact absurd hstop (Nat.not_le.mpr hstop')
  | leaves _ _ hitem' =>
    rw [hitem] at hitem'
    cases hitem'
  | item _ _ hitem' _ =>
    rw [hitem] at hitem'
    cases hitem'
    exact fun c hc => List.mem_append_right _ (List.mem_append_left _ hc)

theorem Place.readSpec_eq (h : p.spec = some x) : p.f.headD 0 = '%'.toNat ∧ p.f.tail.headD 0 ≠ '%'.toNat ∧
    readSpec { f := p.f.tail, aq := p.aq } = .ok x := by
  unfold Place.spec at h
  split_ifs at h with hf
  cases hread : readSpec { f := p.f.tail, aq := p.aq } with
  | error e =>
    rw [hread] at h
    cases h
  | ok y =>
    rw [hread] at h
    exact ⟨hf.1, hf.2, congrArg _ (Option.some.inj h)⟩

/-- `%c` produces what `btowc` says, whatever that is. -/
theorem item_char {v : BitVec 32} {aq : List (Arg Dbl LDbl)} (libc : Libc Dbl LDbl) (hspec : p.spec = some x)
    (hc : x.conv = 'c'.toNat) (hv : vaArg Arg.asInt x.aq = .ok (v, aq)) :
    item libc p =
      .ok (justify ' '.toNat x.left x.w [btowc v], { f := x.f, aq, mallocs := p.mallocs }) := by
  obtain ⟨hf, hf', hx⟩ := Place.readSpec_eq hspec
  unfold item text
  rw [if_neg (not_not.mpr hf), if_neg hf', hx]
  simp only [bind, Except.bind, hv, hc]
  rfl

theorem mem_justify (left : Bool) (w : ℕ) : c ∈ justify ' '.toNat left w [c] := by
  unfold justify
  split_ifs <;> simp

/-! ### The output -/

/-- A buffer with room for everything shows the whole sequence. -/
theorem ValidOutput.sequence (h : ValidOutput libc fmt ap) (hseq : Sequence libc fmt ap cs e)
    (hdef : e ≠ some .undefined) : ∀ c ∈ cs, IsScalar c := by
  intro c hc
  obtain ⟨i, hi, rfl⟩ := List.mem_iff_getElem.mp hc
  obtain ⟨out, hout, hs, -⟩ := vswprintf_eq hseq hdef (fun _ => 0) (Nat.succ_pos cs.length)
  have hvalid := h.buffer _ _ out (fun _ => by decide) hout i
  rw [hs, terminate, Function.update_of_ne (by omega), image_getElem hi (by omega)] at hvalid
  exact hvalid

theorem terminate_valid {s : ℕ → ℕ} (hs : ∀ i, IsScalar (s i)) (h : ∀ c ∈ cs, IsScalar c) (n i : ℕ) :
    IsScalar (terminate cs s n i) := by
  unfold terminate
  by_cases hi : i = min cs.length (n - 1)
  · rw [hi, Function.update_self]
    decide
  · rw [Function.update_of_ne hi]
    by_cases hroom : i < n - 1 ∧ i < cs.length
    · rw [image_getElem hroom.2 hroom.1]
      exact h _ (List.getElem_mem _)
    · rw [image_frame (by omega)]
      exact hs i

/-- **Valid output.** It takes literals that are characters, and bytes for `%c` that `btowc` converts. -/
theorem validOutput_iff (hmatch : Matches libc fmt ap) (hnarrow : NarrowBytes libc fmt ap)
    (hwide : ValidWide libc fmt ap) : ValidOutput libc fmt ap ↔ Convertible libc fmt ap := by
  obtain ⟨cs, e, hseq⟩ := exists_sequence libc fmt ap
  have hdef : e ≠ some .undefined := by
    rintro rfl
    exact hmatch cs hseq
  constructor
  · intro h
    -- what an item produces is seen in a buffer that has room for it
    have hvalid := h.sequence hseq hdef
    constructor
    · intro p hp hliteral
      have hitem : item libc p = .ok ([p.f.headD 0], { p with f := p.f.tail }) := if_pos hliteral
      exact hvalid _ (hp.subset hseq hitem List.mem_cons_self)
    · rintro p v hp ⟨x, aq, hspec, hc, hv⟩
      have hbtowc := hvalid _ (hp.subset hseq (item_char libc hspec hc hv) (mem_justify _ _))
      by_contra hge
      rw [btowc_of_ge hge] at hbtowc
      exact absurd hbtowc (by decide)
  · intro hconv
    -- what is in a buffer is from the sequence, or was there before
    have hvalid := hseq.valid hnarrow hwide hconv .start
    constructor
    · intro s n out hs hout i
      rcases Nat.eq_zero_or_pos n with rfl | hn
      · obtain rfl : ({ s, ret := -1 } : Formatted) = out := Option.some.inj hout
        exact hs i
      · obtain ⟨out', hout', hs', -⟩ := vswprintf_eq hseq hdef s hn
        obtain rfl : out' = out := Option.some.inj (hout'.symm.trans hout)
        rw [hs']
        exact terminate_valid hs hvalid n i
    · -- there is no such byte
      intro p v hp hv hweof
      have hlt := hconv.char p v hp hv
      rw [btowc_of_lt hlt] at hweof
      unfold W32_WEOF at hweof
      omega

/-- `"%c"` -/
def charFormat : List ℕ := ['%', 'c'].map Char.toNat

/-- Where it starts. -/
def charPlace (v : BitVec 32) : Place Unit Unit := { f := charFormat, aq := [.int v] }

theorem charPlace_spec (v : BitVec 32) :
    (charPlace v).spec = some { f := [], aq := [.int v], conv := 'c'.toNat } := by
  have hnext : (charPlace v).f.tail.headD 0 ≠ '%'.toNat := by
    change 'c'.toNat ≠ '%'.toNat
    decide
  refine Place.spec_eq rfl hnext ?_
  simp [charPlace, charFormat, readSpec, positional, readFlags, flagsLoop, readWidth, readPrecision, readConv,
    readLength, w32Getint, isDigit, flagChars, bind, Except.bind, Word32.sub]

/-- Nothing follows its one item. -/
theorem reached_charFormat {v : BitVec 32} {p : Place Unit Unit} (h : Reached bareLibc charFormat [.int v] k p) :
    p = charPlace v ∨ p.f = [] := by
  induction h with
  | start => exact Or.inl rfl
  | next _ hf _ hitem ih =>
    rcases ih with rfl | hnil
    · rw [item_char bareLibc (charPlace_spec v) rfl rfl] at hitem
      cases hitem
      exact Or.inr rfl
    · rw [hnil] at hf
      exact absurd rfl hf

/-- So its argument is that of a `%c`. -/
theorem fetches_charFormat {v : BitVec 32} {p : Place Unit Unit} (h : Handled bareLibc charFormat [.int v] p)
    {α : Type} {as : Arg Unit Unit → Option α} {conv : Char} {a : α} (ha : p.Fetches conv as a) :
    conv.toNat = 'c'.toNat ∧ as (.int v) = some a := by
  obtain ⟨k, hreached, hf, -⟩ := h
  rcases reached_charFormat hreached with rfl | hnil
  · obtain ⟨x, aq, hspec, hconv, hx⟩ := ha
    rw [charPlace_spec] at hspec
    cases hspec
    refine ⟨hconv.symm, ?_⟩
    cases hread : as (.int v) with
    | none => simp [vaArg, hread] at hx
    | some b =>
      simp only [vaArg, hread, Except.ok.injEq, Prod.mk.injEq] at hx
      rw [hx.1]
  · rw [hnil] at hf
    exact absurd rfl hf

/-- It is called as it should be. -/
theorem charFormat_call (v : BitVec 32) : Matches bareLibc charFormat [.int v] ∧
    NarrowBytes bareLibc charFormat [.int v] ∧ ValidWide bareLibc charFormat [.int v] := by
  have htakes : Takes charFormat [.int] := .spec rfl (by decide) (.ends rfl)
  refine ⟨matches_of_takes htakes List.prefix_rfl, ?_, ?_⟩
  · constructor
    · exact fun p s hp hs => absurd (fetches_charFormat hp hs).1 (by decide)
    · rintro cf args out h
      cases h
      simp
  · constructor
    · exact fun p v hp hv => absurd (fetches_charFormat hp hv).1 (by decide)
    · exact fun p s hp hs => absurd (fetches_charFormat hp hs).1 (by decide)

/-- A letter is a character. -/
theorem validOutput_iff_letter :
    ValidOutput bareLibc charFormat [.int 0x41] ↔ Convertible bareLibc charFormat [.int 0x41] :=
  validOutput_iff (charFormat_call 0x41).1 (charFormat_call 0x41).2.1 (charFormat_call 0x41).2.2

/-- A byte of a character of two bytes is stored as `W32_WEOF`, and the call succeeds. -/
theorem not_validOutput_char : Matches bareLibc charFormat [.int 0xC3] ∧
    NarrowBytes bareLibc charFormat [.int 0xC3] ∧ ValidWide bareLibc charFormat [.int 0xC3] ∧
    (∃ out, vswprintf bareLibc (fun _ => 0) 2 charFormat [.int 0xC3] = some out ∧ out.s 0 = W32_WEOF ∧
      out.ret = 1) ∧
    ¬ ValidOutput bareLibc charFormat [.int 0xC3] := by
  obtain ⟨hmatch, hnarrow, hwide⟩ := charFormat_call 0xC3
  have hcall : ∃ out, vswprintf bareLibc (fun _ => 0) 2 charFormat [.int 0xC3] = some out ∧
      out.s 0 = W32_WEOF ∧ out.ret = 1 := by
    refine ⟨_, rfl, ?_, ?_⟩ <;> decide +kernel
  refine ⟨hmatch, hnarrow, hwide, hcall, fun h => ?_⟩
  obtain ⟨out, hout, hweof, -⟩ := hcall
  have hvalid := h.buffer _ _ out (fun _ => by decide) hout 0
  rw [hweof] at hvalid
  exact absurd hvalid (by decide)

end OrbisCompat.Wchar
