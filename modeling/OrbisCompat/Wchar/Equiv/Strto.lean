import OrbisCompat.Wchar.Strto
import Mathlib.Data.List.TakeWhile

/-!
# `wcsto*` parse the wide string as a narrow one

The buffer holds the ASCII prefix of what follows the white space (`prefix_text`), and the narrow function takes the same
subject sequence from it as from the whole string with `@` in the place of every other character (`longest_prefix`).
-/

namespace OrbisCompat.Wchar

open LongestMatch

variable {V : Type} {M : Storage} {N : Narrow V} {s t stack u : List ℕ} {c k : ℕ}

/-- The elements of a wide string. -/
def IsWide (s : List ℕ) : Prop := ∀ c ∈ s, 0 < c ∧ c < 2 ^ 32

/-! ### White space -/

theorem w32SkipSpace_eq (s : List ℕ) : w32SkipSpace s = (s.takeWhile iswspace).length := by
  induction s with
  | nil => rfl
  | cons c s ih =>
    rw [w32SkipSpace]
    split_ifs with hc
    · rw [List.takeWhile_cons_of_pos hc, List.length_cons, ih]
    · rw [List.takeWhile_cons_of_neg hc, List.length_nil]

theorem drop_skipSpace (s : List ℕ) : s.drop (w32SkipSpace s) = s.dropWhile iswspace := by
  have hsplit := List.takeWhile_append_dropWhile (p := iswspace) (l := s)
  calc s.drop (w32SkipSpace s)
    _ = (s.takeWhile iswspace ++ s.dropWhile iswspace).drop (s.takeWhile iswspace).length := by
      rw [hsplit, w32SkipSpace_eq]
    _ = s.dropWhile iswspace := List.drop_left

/-- White space of the C locale is wide white space too. -/
theorem isspace_ascii : ∀ c < 0x80, isspace c = true → iswspace c = true := by decide

/-- The character that stands for a wide one. -/
def narrowChar (c : ℕ) : ℕ := if c < 0x80 then c else '@'.toNat

theorem isspace_narrowChar (h : iswspace c = false) : isspace (narrowChar c) = false := by
  unfold narrowChar
  split_ifs with hc
  · rw [Bool.eq_false_iff] at h ⊢
    exact fun hspace => h (isspace_ascii c hc hspace)
  · decide

/-- Nothing is skipped where no white space is. -/
theorem dropWhile_isspace (h : ∀ c, t.head? = some c → iswspace c = false) :
    (t.map narrowChar).dropWhile isspace = t.map narrowChar := by
  cases t with
  | nil => rfl
  | cons c t =>
    have hc := isspace_narrowChar (h c rfl)
    rw [List.map_cons, List.dropWhile_cons_of_neg (by rw [hc]; exact Bool.false_ne_true)]

theorem head_dropWhile (h : (s.dropWhile iswspace).head? = some c) : iswspace c = false := by
  have hhead := List.head?_dropWhile_not iswspace s
  rwa [h] at hhead

/-! ### The ASCII prefix -/

/-- The characters that go into the buffer. -/
def ascii (c : ℕ) : Bool := 0 < c ∧ c < 0x80

theorem asciiRun_eq (h : IsWide t) : asciiRun t = (t.takeWhile ascii).length := by
  induction t with
  | nil => rfl
  | cons c t ih =>
    obtain ⟨hc, ht⟩ := List.forall_mem_cons.mp h
    have htest : (Word32.toInt c > 0 ∧ Word32.toInt c < 0x80) ↔ ascii c = true := by
      unfold ascii Word32.toInt
      rw [decide_eq_true_eq]
      split_ifs <;> omega
    rw [asciiRun, ih ht]
    split_ifs with hascii
    · rw [List.takeWhile_cons_of_pos (htest.mp hascii), List.length_cons]
    · rw [List.takeWhile_cons_of_neg (mt htest.mpr hascii), List.length_nil]

theorem ascii_of_mem (h : c ∈ t.takeWhile ascii) : 0 < c ∧ c < 0x80 := by
  have hc := List.mem_takeWhile_imp h
  rwa [ascii, decide_eq_true_eq] at hc

theorem take_asciiRun (h : IsWide t) : (t.take (asciiRun t)).map toChar = t.takeWhile ascii := by
  have htake : t.take (asciiRun t) = t.takeWhile ascii := by
    rw [asciiRun_eq h]
    exact (List.prefix_iff_eq_take.mp (List.takeWhile_prefix ascii)).symm
  have hchar : ∀ c ∈ t.takeWhile ascii, toChar c = id c := by
    intro c hc
    have hlt := (ascii_of_mem hc).2
    exact Nat.mod_eq_of_lt (by omega)
  rw [htake, List.map_congr_left hchar, List.map_id]

/-- The stores into a buffer that is large enough. -/
theorem copy_text (h : IsWide t) {b : List ℕ} (hb : asciiRun t < b.length) :
    ∃ b₁ b₂, Buffer.storeFrom b 0 ((t.take (asciiRun t)).map toChar) = some b₁ ∧
      Buffer.store b₁ (asciiRun t) 0 = some b₂ ∧ Buffer.cstr 0 b₂ = some (t.takeWhile ascii) := by
  rw [take_asciiRun h, asciiRun_eq h] at *
  generalize hw : t.takeWhile ascii = w at hb ⊢
  have hnul : 0 ∉ w := by
    intro hmem
    rw [← hw] at hmem
    exact absurd (ascii_of_mem hmem).1 (Nat.lt_irrefl 0)
  have hlen : w.length < (w ++ b.drop w.length).length := by
    rw [List.length_append, List.length_drop]
    omega
  refine ⟨_, _, Buffer.storeFrom_zero hb.le, Buffer.store_eq hlen, ?_⟩
  rw [List.take_left' rfl]
  exact Buffer.cstr_append hnul

/-- **The buffer** holds the ASCII prefix, on the stack or on the heap, and nothing is stored behind its end. -/
theorem prefix_text (h : IsWide t) (stack : List ℕ) (hmalloc : M.malloc (asciiRun t + 1) = true) :
    ∃ b heap, w32AsciiPrefix M t stack = some (b, heap) ∧ Buffer.cstr 0 b = some (t.takeWhile ascii) := by
  unfold w32AsciiPrefix
  dsimp only
  by_cases hfit : asciiRun t ≥ stack.length
  · -- on the heap, with one element more than the prefix has
    obtain ⟨b₁, b₂, hcopy, hnul, htext⟩ := copy_text h (b := M.uninit (asciiRun t + 1)) (by rw [M.length_uninit]; omega)
    rw [if_pos hfit, if_pos hmalloc]
    refine ⟨b₂, true, ?_, htext⟩
    dsimp only
    rw [hcopy, Option.bind_eq_bind, Option.bind_some, hnul, Option.bind_some]
  · obtain ⟨b₁, b₂, hcopy, hnul, htext⟩ := copy_text h (b := stack) (by omega)
    rw [if_neg hfit]
    refine ⟨b₂, false, ?_, htext⟩
    dsimp only
    rw [hcopy, Option.bind_eq_bind, Option.bind_some, hnul, Option.bind_some]

/-! ### The narrow functions -/

/-- What a narrow function does, by the longest subject sequence. -/
theorem Narrow.call_eq (N : Narrow V) (h : 0 ∉ s) (errno : ℤ) :
    N.call s errno =
      match longest N.subject (s.dropWhile isspace) with
      | some w => ⟨N.value (some w), N.errno (some w) errno, s.length - (s.dropWhile isspace).length + w.length⟩
      | none => ⟨N.value none, N.errno none errno, 0⟩ := by
  cases hl : longest N.subject (s.dropWhile isspace) with
  | none => exact N.fails s errno h (longest_eq_none_iff.mp hl)
  | some w => exact N.converts s errno w h (longest_eq_some_iff.mp hl)

/-- **The ASCII prefix** is enough: an `@` ends what can be converted. -/
theorem longest_prefix (h : IsWide t) : longest N.subject (t.map narrowChar) = longest N.subject (t.takeWhile ascii) := by
  have hsame : (t.takeWhile ascii).map narrowChar = t.takeWhile ascii := by
    have hchar : ∀ c ∈ t.takeWhile ascii, narrowChar c = id c := fun c hc => if_pos (ascii_of_mem hc).2
    rw [List.map_congr_left hchar, List.map_id]
  have hsplit := List.takeWhile_append_dropWhile (p := ascii) (l := t)
  cases hrest : t.dropWhile ascii with
  | nil =>
    rw [hrest, List.append_nil] at hsplit
    rw [← hsame, hsplit]
  | cons c rest =>
    -- the first character that does not go into the buffer is `@` for the narrow function
    have hc : ascii c = false := by
      have hhead := List.head?_dropWhile_not ascii t
      rwa [hrest] at hhead
    have hpos : 0 < c := (h c (hsplit ▸ hrest ▸ by simp)).1
    have hat : narrowChar c = '@'.toNat := if_neg fun hlt => by simp [ascii, hpos, hlt] at hc
    conv_lhs => rw [← hsplit, hrest, List.map_append, List.map_cons, hsame, hat]
    exact longest_append_cons N.at_not_mem

/-! ### The wide functions -/

/-- What `w32_release` leaves in `errno` is what was there. -/
theorem w32Release_eq (M : Storage) (heap : Bool) (errno : ℤ) : w32Release M heap errno = errno := by
  cases heap <;> rfl

/-- The narrow string, by what the white space at its front is. -/
theorem asNarrow_eq (s : List ℕ) :
    asNarrow s = List.replicate (w32SkipSpace s) ' '.toNat ++ (s.dropWhile iswspace).map narrowChar := by
  rw [w32SkipSpace_eq]
  rfl

/-- What is left when white space of the narrow string is skipped. -/
theorem dropWhile_asNarrow (s : List ℕ) :
    (asNarrow s).dropWhile isspace = (s.dropWhile iswspace).map narrowChar := by
  have hspaces : ∀ c ∈ List.replicate (w32SkipSpace s) ' '.toNat, isspace c = true := by
    intro c hc
    rw [List.eq_of_mem_replicate hc]
    decide
  rw [asNarrow_eq, List.dropWhile_append_of_pos hspaces]
  exact dropWhile_isspace fun c => head_dropWhile

/-- The narrow string ends where its terminator is. -/
theorem nul_not_mem_asNarrow (hs : IsWide s) : 0 ∉ asNarrow s := by
  rw [asNarrow_eq, List.mem_append]
  rintro (hspace | hchar)
  · exact absurd (List.eq_of_mem_replicate hspace) (by decide)
  · obtain ⟨c, hc, heq⟩ := List.mem_map.mp hchar
    have hpos := (hs c ((List.dropWhile_suffix iswspace).subset hc)).1
    unfold narrowChar at heq
    split_ifs at heq with hlt
    · omega
    · exact absurd heq (by decide)

/-- In the buffer there is no white space to skip. -/
theorem dropWhile_text (h : ∀ c, t.head? = some c → iswspace c = false) :
    (t.takeWhile ascii).dropWhile isspace = t.takeWhile ascii := by
  cases t with
  | nil => rfl
  | cons c t =>
    by_cases hascii : ascii c = true
    · have hchar : narrowChar c = c := by
        rw [ascii, decide_eq_true_eq] at hascii
        exact if_pos hascii.2
      have hspace := isspace_narrowChar (h c rfl)
      rw [hchar] at hspace
      rw [List.takeWhile_cons_of_pos hascii, List.dropWhile_cons_of_neg (by rw [hspace]; exact Bool.false_ne_true)]
    · rw [List.takeWhile_cons_of_neg hascii]
      rfl

/-- **A wide function** answers what the narrow one does. -/
theorem wcsto_eq (hs : IsWide s) (hmalloc : ∀ n ≤ s.length + 1, M.malloc n = true) (null : Bool) (errno : ℤ) :
    wcsto N.call M null s errno =
      some
        { value := (N.call (asNarrow s) errno).value, errno := (N.call (asNarrow s) errno).errno
          p := if null then none else some (N.call (asNarrow s) errno).stop } := by
  have hsuffix : s.dropWhile iswspace <:+ s := List.dropWhile_suffix iswspace
  have hwide : IsWide (s.dropWhile iswspace) := fun c hc => hs c (hsuffix.subset hc)
  have hle : asciiRun (s.dropWhile iswspace) ≤ s.length := by
    rw [asciiRun_eq hwide]
    exact (List.takeWhile_prefix ascii).length_le.trans hsuffix.length_le
  have hnul : 0 ∉ (s.dropWhile iswspace).takeWhile ascii := fun hmem =>
    absurd (ascii_of_mem hmem).1 (Nat.lt_irrefl 0)
  -- the narrow function sees the same subject sequence in the buffer and in the whole string
  have hbuffer := N.call_eq hnul errno
  have hwhole := N.call_eq (nul_not_mem_asNarrow hs) errno
  simp only [dropWhile_text fun c => head_dropWhile, Nat.sub_self, Nat.zero_add] at hbuffer
  rw [dropWhile_asNarrow, longest_prefix hwide, asNarrow_eq, List.length_append, List.length_replicate,
    Nat.add_sub_cancel] at hwhole
  obtain ⟨b, heap, hb, htext⟩ := prefix_text hwide (M.uninit 128) (hmalloc _ (Nat.add_le_add_right hle 1))
  unfold wcsto
  dsimp only
  rw [drop_skipSpace, hb, Option.bind_eq_bind, Option.bind_some]
  dsimp only
  rw [htext, Option.bind_eq_bind, Option.bind_some, w32Release_eq, asNarrow_eq, hbuffer, hwhole]
  cases hl : longest N.subject ((s.dropWhile iswspace).takeWhile ascii) with
  | none => rfl
  | some w =>
    -- a number has a digit, so `end` has moved
    have hne : w.length ≠ 0 := by
      rw [Ne, List.length_eq_zero_iff]
      rintro rfl
      have hmem := (longest_eq_some_iff.mp hl).mem
      rw [N.not_nil] at hmem
      cases hmem
    dsimp only
    rw [if_pos hne]

/-- The wide function answers what the narrow one does to the string in narrow characters: the value, `errno`, and how much
of it was converted. -/
def LikeNarrow (M : Storage) (narrow : List ℕ → ℤ → Strto V)
    (wide : Storage → Bool → List ℕ → ℤ → Option (Wcsto V)) : Prop :=
  ∀ null s errno, IsWide s → (∀ n ≤ s.length + 1, M.malloc n = true) →
    wide M null s errno =
      some
        { value := (narrow (asNarrow s) errno).value, errno := (narrow (asNarrow s) errno).errno
          p := if null then none else some (narrow (asNarrow s) errno).stop }

variable {Flt Dbl LDbl : Type}

/-- **`wcsto*`** parse the wide string as if it were narrow. -/
theorem wcsto_like_narrow (lib : Stdlib Flt Dbl LDbl) (M : Storage) :
    (∀ base, LikeNarrow M (lib.strtol base).call (wcstol lib base)) ∧
      (∀ base, LikeNarrow M (lib.strtoll base).call (wcstoll lib base)) ∧
      (∀ base, LikeNarrow M (lib.strtoul base).call (wcstoul lib base)) ∧
      (∀ base, LikeNarrow M (lib.strtoull base).call (wcstoull lib base)) ∧
      LikeNarrow M lib.strtof.call (wcstof lib) ∧ LikeNarrow M lib.strtod.call (wcstod lib) ∧
      LikeNarrow M lib.strtold.call (wcstold lib) := by
  have hlike : ∀ {V : Type} (N : Narrow V), LikeNarrow M N.call (wcsto N.call) := fun N null s errno hs hmalloc =>
    wcsto_eq hs hmalloc null errno
  exact ⟨fun _ => hlike _, fun _ => hlike _, fun _ => hlike _, fun _ => hlike _, hlike _, hlike _, hlike _⟩

/-! ### Numbers of decimal digits -/

def isDigits (w : List ℕ) : Bool := w ≠ [] ∧ ∀ c ∈ w, '0'.toNat ≤ c ∧ c ≤ '9'.toNat

/-- A narrow function that knows nothing but decimal digits. -/
def decimal {V : Type} (value : ℕ → V) : Narrow V where
  call s errno :=
    match longest isDigits (s.dropWhile isspace) with
    | some w => ⟨value (w.foldl (fun n c => 10 * n + (c - '0'.toNat)) 0), errno,
        s.length - (s.dropWhile isspace).length + w.length⟩
    | none => ⟨value 0, errno, 0⟩
  subject := isDigits
  not_nil := by decide
  at_not_mem := by
    intro w hw hat
    rw [isDigits, decide_eq_true_eq] at hw
    exact absurd (hw.2 _ hat) (by decide)
  value w := value (w.elim 0 fun w => w.foldl (fun n c => 10 * n + (c - '0'.toNat)) 0)
  errno _ e := e
  converts s e w _ h := by rw [longest_eq_some_iff.mpr h]; rfl
  fails s e _ h := by rw [longest_eq_none_iff.mpr h]; rfl

/-- The functions of that kind, with floating point numbers that are whole. -/
def decimalLib : Stdlib ℕ ℕ ℕ where
  strtol _ := decimal (BitVec.ofNat 64)
  strtoll _ := decimal (BitVec.ofNat 64)
  strtoul _ := decimal (BitVec.ofNat 64)
  strtoull _ := decimal (BitVec.ofNat 64)
  strtof := decimal id
  strtod := decimal id
  strtold := decimal id

/-- A `malloc` that always gets the memory, and a `free` that spoils `errno`. -/
def storage : Storage := ⟨fun n => List.replicate n 0xAA, fun _ => List.length_replicate, fun _ => true, fun _ => 22⟩

/-- An ideographic space, `42`, and the sign of the euro. -/
def price : List ℕ := [0x3000, '4'.toNat, '2'.toNat, 0x20AC]

theorem wcsto_like_narrow_price :
    wcstol decimalLib 10 storage false price 0 = some ⟨42, 0, some 3⟩ ∧
      wcstold decimalLib storage false price 0 = some ⟨42, 0, some 3⟩ := by
  have hwide : IsWide price := by
    unfold IsWide
    decide
  obtain ⟨hstrtol, -, -, -, -, -, hstrtold⟩ := wcsto_like_narrow decimalLib storage
  constructor
  · rw [hstrtol 10 false price 0 hwide fun _ _ => rfl]
    decide +kernel
  · rw [hstrtold false price 0 hwide fun _ _ => rfl]
    decide +kernel

end OrbisCompat.Wchar
