import OrbisCompat.Backtrace.Basic
import OrbisCompat.Lib.Extent
import OrbisCompat.Lib.Numeral

/-!
# A backtrace, its texts, and the block they are in

`orbis_write_hex` writes the digits of `Numeral.suppressed` (`orbisWriteHex_eq`), so the texts are shortest ones.  The loop that
stores them keeps what it has stored (`Written.append`), for no text is longer than the distance of one from the next
(`length_text_le`).
-/

namespace OrbisCompat.Backtrace

open Numeral

variable {v : UInt64} {k : ℕ}

/-! ### The frames -/

theorem unwindBacktrace_buffer (frames : List UInt64) : ∀ st : UnwindState, (unwindBacktrace frames st).buffer =
    st.buffer ++ ((frames.drop st.skip.toNat).takeWhile (· ≠ 0)).take (st.size.toNat - st.buffer.length) := by
  induction frames with
  | nil => intro st; simp [unwindBacktrace]
  | cons ip frames ih =>
    intro st
    rw [unwindBacktrace, orbisUnwindStep]
    -- a frame that is skipped is not looked at, so the zero that ends the run is one behind these
    by_cases hskip : st.skip > 0
    · obtain ⟨k, hk⟩ := Int.eq_succ_of_zero_lt hskip
      have hrest : st.skip.toNat = (st.skip - 1).toNat + 1 := by omega
      rw [if_pos hskip, hrest, List.drop_succ_cons]
      exact ih _
    rw [if_neg hskip, Int.toNat_of_nonpos (not_lt.mp hskip), List.drop_zero]
    by_cases hfull : (st.buffer.length : ℤ) ≥ st.size
    · have hroom : st.size.toNat - st.buffer.length = 0 := by omega
      rw [if_pos hfull, hroom, List.take_zero, List.append_nil]
    by_cases hip : ip = 0
    · rw [if_neg hfull, if_pos hip, List.takeWhile_cons_of_neg (by simp [hip]), List.take_nil, List.append_nil]
    · have hroom : st.size.toNat - st.buffer.length = st.size.toNat - (st.buffer ++ [ip]).length + 1 := by
        rw [List.length_append, List.length_singleton]
        omega
      rw [if_neg hfull, if_neg hip, List.takeWhile_cons_of_pos (by simp [hip]), hroom, List.take_succ_cons]
      have hrest := ih { st with buffer := st.buffer ++ [ip] }
      rw [Int.toNat_of_nonpos (not_lt.mp hskip), List.drop_zero, List.append_assoc] at hrest
      exact hrest

/-- **`backtrace`** collects the frames behind the first, in order, up to the first that is zero, and no more than there is room
for. -/
theorem backtrace_eq (frames : List UInt64) (size : ℤ) :
    backtrace frames false size = ((frames.drop 1).takeWhile (· ≠ 0)).take size.toNat := by
  unfold backtrace orbisUnwindCollect
  by_cases h : size ≤ 0
  · rw [if_pos (Or.inr h), Int.toNat_of_nonpos h, List.take_zero]
  · rw [if_neg (not_or.mpr ⟨Bool.false_ne_true, h⟩)]
    exact unwindBacktrace_buffer frames { size, skip := 1 }

/-! ### The texts -/

/-- The value of a lower-case hexadecimal digit. -/
def hexValue (c : UInt8) : Option ℕ :=
  if '0'.toUInt8 ≤ c ∧ c ≤ '9'.toUInt8 then some (c.toNat - '0'.toNat)
  else if 'a'.toUInt8 ≤ c ∧ c ≤ 'f'.toUInt8 then some (c.toNat - 'a'.toNat + 10)
  else none

theorem hexValue_lt {c : UInt8} {d : ℕ} (h : hexValue c = some d) : d < 16 := by
  unfold hexValue at h
  split_ifs at h with hdigit hletter
  · have hle := UInt8.le_iff_toNat_le.mp hdigit.2
    have hnine : '9'.toUInt8.toNat = 57 := rfl
    have hzero : '0'.toNat = 48 := rfl
    obtain rfl := Option.some.inj h
    omega
  · have hle := UInt8.le_iff_toNat_le.mp hletter.2
    have hf : 'f'.toUInt8.toNat = 102 := rfl
    have ha : 'a'.toNat = 97 := rfl
    obtain rfl := Option.some.inj h
    omega

/-- The character of a digit. -/
def digit (d : ℕ) : UInt8 := digits.getD d 0

theorem hexValue_digit : ∀ d < 16, hexValue (digit d) = some d := by decide

theorem toNat_nibble (v : UInt64) (hk : k < 16) :
    (v >>> UInt64.ofNat (4 * k) &&& 0xF).toNat = v.toNat / 16 ^ k % 16 := by
  have hshift : (UInt64.ofNat (4 * k)).toNat % 64 = 4 * k := by
    rw [UInt64.toNat_ofNat']
    omega
  have hpow : 2 ^ (4 * k) = 16 ^ k := by rw [pow_mul]; norm_num
  have hmask : (0xF : UInt64).toNat = 2 ^ 4 - 1 := rfl
  rw [UInt64.toNat_and, UInt64.toNat_shiftRight, hshift, Nat.shiftRight_eq_div_pow, hpow, hmask, Nat.and_two_pow_sub_one_eq_mod]

theorem writeDigits_true (v : UInt64) (hk : k ≤ 16) : writeDigits v k true = (places 16 k v.toNat).map digit := by
  induction k with
  | zero => rfl
  | succ k ih =>
    rw [writeDigits, places, List.map_cons, ← ih (Nat.le_of_succ_le hk), ← toNat_nibble v hk]
    exact if_pos (Or.inr (Or.inl rfl))

/-- The loop is the one of `suppressed`. -/
theorem writeDigits_false (v : UInt64) (hk : k ≤ 16) : writeDigits v k false = (suppressed 16 k v.toNat).map digit := by
  induction k with
  | zero => rfl
  | succ k ih =>
    have htest : (v.toNat / 16 ^ k % 16 ≠ 0 ∨ false = true ∨ 4 * k = 0) ↔ v.toNat / 16 ^ k % 16 ≠ 0 ∨ k = 0 := by simp
    rw [writeDigits, suppressed, places, toNat_nibble v hk, writeDigits_true v (Nat.le_of_succ_le hk),
      ih (Nat.le_of_succ_le hk)]
    by_cases hd : v.toNat / 16 ^ k % 16 ≠ 0 ∨ k = 0
    · rw [if_pos (htest.mpr hd), if_pos hd]
      rfl
    · rw [if_neg (mt htest.mp hd), if_neg hd]

/-- The text of an address. -/
def text (v : UInt64) : List UInt8 := ['0'.toUInt8, 'x'.toUInt8] ++ (suppressed 16 16 v.toNat).map digit

theorem orbisWriteHex_eq (v : UInt64) : orbisWriteHex v = text v ++ ['\n'.toUInt8] := by
  unfold orbisWriteHex text
  rw [show wordSize * 2 = 16 from rfl, writeDigits_false v le_rfl]

/-- A text of an address: `0x`, and a shortest hexadecimal number in lower case that is the address. -/
def IsText (v : UInt64) (t : List UInt8) : Prop :=
  ∃ w, t = ['0'.toUInt8, 'x'.toUInt8] ++ w ∧ IsShortest hexValue 16 w v.toNat

theorem isText_text (v : UInt64) : IsText v (text v) := by
  have hv : v.toNat < 16 ^ (15 + 1) := v.toNat_lt.trans_eq (by norm_num)
  exact ⟨_, rfl, isShortest_suppressed (by norm_num) (fun _ _ => hexValue_lt) hexValue_digit hv⟩

example : text 0x249303801 = "0x249303801".toList.map Char.toUInt8 := by decide +kernel

theorem length_text_le (v : UInt64) : (text v).length + 1 ≤ stride := by
  have hlen := length_suppressed_le 16 16 v.toNat
  have hstride : stride = 19 := rfl
  simp only [text, List.length_append, List.length_cons, List.length_nil, List.length_map]
  omega

/-- A text has no terminator in it. -/
theorem nul_not_mem_text (v : UInt64) : 0 ∉ text v := by
  unfold text
  rw [List.mem_append, not_or]
  refine ⟨by decide, fun hmem => ?_⟩
  obtain ⟨d, hd, hzero⟩ := List.mem_map.mp hmem
  have hread := hexValue_digit d (suppressed_lt (by norm_num) 16 v.toNat d hd)
  rw [hzero] at hread
  cases hread

/-! ### To a file -/

/-- The lines of the addresses from `i` on. -/
theorem fdLoop_eq (line : Vector UInt8 lineSize) (buffer : List UInt64) (k : ℕ) : ∀ {i : ℕ}, i + k ≤ buffer.length →
    fdLoop line buffer k i = some (((buffer.drop i).take k).map fun v => text v ++ ['\n'.toUInt8]) := by
  induction k with
  | zero => exact fun _ => by rw [List.take_zero]; rfl
  | succ k ih =>
    intro i hi
    have hlt : i < buffer.length := by omega
    have hfit : (orbisWriteHex buffer[i]).length ≤ line.toList.length := by
      have hlen := length_text_le buffer[i]
      have hstride : stride = 19 := rfl
      rw [orbisWriteHex_eq, List.length_append, List.length_singleton, Vector.length_toList]
      exact hlen.trans (by decide)
    rw [fdLoop, List.getElem?_eq_getElem hlt, Option.bind_eq_bind, Option.bind_some]
    dsimp only
    rw [Buffer.storeFrom_zero hfit, Option.bind_eq_bind, Option.bind_some, ih (by omega), Option.bind_eq_bind,
      Option.bind_some, List.take_left,
      orbisWriteHex_eq, List.drop_eq_getElem_cons hlt, List.take_succ_cons, List.map_cons]

/-! ### In a block -/

variable {buffer : List UInt64} {out base i : ℕ} {m m' : FlatMem}

/-- What `k` rounds from `i` on do to the memory, with the strings from `base` on. -/
structure Written (buffer : List UInt64) (out base i k : ℕ) (m m' : FlatMem) : Prop where
  entry : ∀ j, i ≤ j → j < i + k → FlatMem.load64 m' (out + wordSize * j) = base + stride * j
  string : ∀ j (hj : j < buffer.length), i ≤ j → j < i + k → FlatMem.IsString m' (base + stride * j) (text buffer[j])
  frame : ∀ x, x < out + wordSize * i ∨ out + wordSize * (i + k) ≤ x → x < base + stride * i ∨ base + stride * (i + k) ≤ x →
    m' x = m x

/-- One round. -/
theorem written_one (m : FlatMem) (hi : i < buffer.length) (hbase : out + wordSize * (i + 1) ≤ base) (hfits : base + stride * i < 2 ^ 64) :
    Written buffer out base i 1 m (FlatMem.store64 (FlatMem.store m (base + stride * i) (text buffer[i] ++ [0]))
      (out + wordSize * i) (base + stride * i)) := by
  have hlen := length_text_le buffer[i]
  have hlen' : (text buffer[i] ++ [0]).length = (text buffer[i]).length + 1 := List.length_append
  constructor
  · intro j hj hj'
    obtain rfl : j = i := by omega
    rw [FlatMem.load64_store64, Nat.mod_eq_of_lt hfits]
  · intro j _ hj hj'
    obtain rfl : j = i := by omega
    -- the table ends in front of the strings, so the entry leaves the string as it is
    refine (FlatMem.isString_store m _ (nul_not_mem_text _)).congr fun x hx _ => ?_
    refine (FlatMem.store64_of_not_mem (Or.inr ?_)).symm
    unfold stride wordSize at *
    omega
  · intro x hentry hstring
    unfold stride wordSize at *
    rw [FlatMem.store64_of_not_mem (by omega), FlatMem.store_of_not_mem (by omega)]

/-- The rounds after it leave its string and its entry. -/
theorem Written.append {m₁ : FlatMem} (h : Written buffer out base i 1 m m₁) (h' : Written buffer out base (i + 1) k m₁ m')
    (hbase : out + wordSize * (i + (k + 1)) ≤ base) : Written buffer out base i (k + 1) m m' := by
  obtain ⟨hentry, hstring, hframe⟩ := h
  obtain ⟨hentry', hstring', hframe'⟩ := h'
  have hlen := fun j (hj : j < buffer.length) => length_text_le buffer[j]
  -- the first round is `hentry` and `hstring`, seen through the frame of the others
  constructor
  · intro j hj hj'
    rcases hj.eq_or_lt with rfl | hlt
    · rw [← hentry i le_rfl (by omega)]
      refine FlatMem.load64_congr fun x hx hx' => hframe' x (Or.inl ?_) (Or.inl ?_) <;> unfold stride wordSize at * <;> omega
    · exact hentry' j hlt (by omega)
  · intro j hjlt hj hj'
    rcases hj.eq_or_lt with rfl | hlt
    · have htext := hlen i hjlt
      refine (hstring i hjlt le_rfl (by omega)).congr fun x hx hx' => (hframe' x (Or.inr ?_) (Or.inl ?_)).symm <;>
        unfold stride wordSize at * <;> omega
    · exact hstring' j hjlt hlt (by omega)
  · intro x hx hx'
    rw [hframe' x, hframe x] <;> unfold stride wordSize at * <;> omega

theorem symbolsLoop_spec (buffer : List UInt64) (out base k : ℕ) : ∀ {i : ℕ} {m : FlatMem}, i + k ≤ buffer.length →
    out + wordSize * (i + k) ≤ base → base + stride * (i + k) ≤ 2 ^ 64 →
      ∃ m', symbolsLoop buffer out k i (base + stride * i) m = some m' ∧ Written buffer out base i k m m' := by
  induction k with
  | zero => exact fun _ _ _ => ⟨_, rfl, fun j hj hj' => absurd hj (by omega), fun j _ hj hj' => absurd hj (by omega), fun _ _ _ => rfl⟩
  | succ k ih =>
    intro i m hi hbase hfits
    have hlt : i < buffer.length := by omega
    have hentry : out + wordSize * (i + 1) ≤ base := by
      unfold wordSize at *
      omega
    have htext : base + stride * i < 2 ^ 64 := by
      unfold stride wordSize at *
      omega
    have hone := written_one m hlt hentry htext
    have hnext : base + stride * i + stride = base + stride * (i + 1) := by rw [Nat.mul_succ, Nat.add_assoc]
    -- the terminator of a string goes over the newline
    have hover : FlatMem.store (FlatMem.store m (base + stride * i) (orbisWriteHex buffer[i]))
        (base + stride * i + ((orbisWriteHex buffer[i]).length - 1)) [0] =
          FlatMem.store m (base + stride * i) (text buffer[i] ++ [0]) := by
      rw [orbisWriteHex_eq, List.length_append, List.length_singleton, Nat.add_sub_cancel, FlatMem.store_store_last]
    obtain ⟨m', hm', hrest⟩ := ih (i := i + 1) (m := FlatMem.store64 (FlatMem.store m (base + stride * i) (text buffer[i] ++ [0]))
      (out + wordSize * i) (base + stride * i)) (by omega) (by rwa [Nat.add_right_comm]) (by rwa [Nat.add_right_comm])
    refine ⟨m', ?_, hone.append hrest hbase⟩
    rw [symbolsLoop, List.getElem?_eq_getElem hlt, Option.bind_eq_bind, Option.bind_some]
    dsimp only
    rw [hover, hnext, hm']

/-- The strings that the entries of a table at `out` point to. -/
def strings (m : FlatMem) (out : ℕ) (texts : List (List UInt8)) : List Extent :=
  texts.mapIdx fun i t => ⟨FlatMem.load64 m (out + wordSize * i), t.length + 1⟩

/-- A block at `out` with a table, and the strings that its entries point to; `m` is the memory without it. -/
structure Block (m : FlatMem) (out size : ℕ) (texts : List (List UInt8)) (m' : FlatMem) : Prop where
  string : ∀ i (hi : i < texts.length), FlatMem.IsString m' (FlatMem.load64 m' (out + wordSize * i)) texts[i]
  apart : (⟨out, wordSize * texts.length⟩ :: strings m' out texts).Pairwise Extent.Apart
  within : ∀ e ∈ ⟨out, wordSize * texts.length⟩ :: strings m' out texts, e.Within ⟨out, size⟩
  frame : ∀ x, x ∉ (⟨out, size⟩ : Extent) → m' x = m x

variable {size : Int32}

/-- `(size_t)size`. -/
theorem toNat_size (hsize : 0 < size) : size.toInt64.toUInt64.toNat = size.toInt.toNat := by
  have hpos : 0 ≤ size.toInt64 := by
    rw [Int64.le_iff_toInt_le, Int32.toInt_toInt64]
    exact (Int32.lt_iff_toInt_lt.mp hsize).le
  rw [Int64.toNat_toUInt64_of_le hpos, Int64.toNatClampNeg, Int32.toInt_toInt64]

/-- The size does not wrap. -/
theorem toNat_blockSize (hsize : 0 < size) : (blockSize size).toNat = (wordSize + stride) * size.toInt.toNat := by
  have hlt := size.toInt_lt
  have hword : (UInt64.ofNat wordSize).toNat = 8 := rfl
  have hstride : (UInt64.ofNat stride).toNat = 19 := rfl
  unfold blockSize
  rw [UInt64.toNat_add, UInt64.toNat_mul, UInt64.toNat_mul, toNat_size hsize, hword, hstride]
  unfold stride wordSize
  omega

/-- What the loop leaves is a block. -/
theorem block_of_written {n : ℕ} (hn : n ≤ buffer.length) (h : Written buffer out (out + wordSize * n) 0 n m m') :
    Block m out ((wordSize + stride) * n) ((buffer.take n).map text) m' := by
  obtain ⟨hentry, hstring, hframe⟩ := h
  rw [Nat.zero_add] at hentry hstring hframe
  have hlen : ((buffer.take n).map text).length = n := by rw [List.length_map, List.length_take, Nat.min_eq_left hn]
  have htext : ∀ i (hi : i < ((buffer.take n).map text).length), ((buffer.take n).map text)[i] = text buffer[i] := by
    intro i hi
    rw [List.getElem_map, List.getElem_take]
  -- the string at index `i` is in the slot at index `i`
  have hslot : ∀ i (hi : i < (strings m' out ((buffer.take n).map text)).length), i < n ∧
      ((strings m' out ((buffer.take n).map text))[i]).start = out + wordSize * n + stride * i ∧
      ((strings m' out ((buffer.take n).map text))[i]).len ≤ stride := by
    intro i hi
    have hin : i < n := by rwa [strings, List.length_mapIdx, hlen] at hi
    simp only [strings, List.getElem_mapIdx]
    rw [htext i (hlen.symm ▸ hin)]
    exact ⟨hin, hentry i (Nat.zero_le _) hin, length_text_le _⟩
  constructor
  · intro i hi
    have hin : i < n := hlen ▸ hi
    rw [hentry i (Nat.zero_le _) hin, htext i hi]
    exact hstring i (by omega) (Nat.zero_le _) hin
  · refine List.pairwise_cons.mpr ⟨fun e he => ?_, List.pairwise_iff_getElem.mpr fun i j hi hj hij => ?_⟩
    · obtain ⟨i, hi, rfl⟩ := List.getElem_of_mem he
      obtain ⟨-, hstart, -⟩ := hslot i hi
      refine Or.inl ?_
      rw [hstart, hlen]
      exact Nat.le_add_right _ _
    · obtain ⟨-, hstart, hle⟩ := hslot i hi
      obtain ⟨-, hstart', -⟩ := hslot j hj
      have hmul : stride * i + stride ≤ stride * j := Nat.mul_le_mul_left stride (Nat.succ_le_of_lt hij)
      refine Or.inl ?_
      rw [Extent.stop, hstart, hstart']
      omega
  · refine List.forall_mem_cons.mpr ⟨⟨le_rfl, ?_⟩, fun e he => ?_⟩
    · rw [Extent.stop, Extent.stop, hlen, Nat.add_mul]
      exact Nat.add_le_add_left (Nat.le_add_right _ _) out
    · obtain ⟨i, hi, rfl⟩ := List.getElem_of_mem he
      obtain ⟨hin, hstart, hle⟩ := hslot i hi
      have hmul : stride * i + stride ≤ stride * n := Nat.mul_le_mul_left stride (Nat.succ_le_of_lt hin)
      constructor
      · rw [hstart, Nat.add_assoc]
        exact Nat.le_add_right _ _
      · rw [Extent.stop, Extent.stop, hstart, Nat.add_mul]
        dsimp only
        omega
  · intro x hx
    rw [Extent.mem_iff, Nat.add_mul] at hx
    dsimp only at hx
    exact hframe x (by omega) (by omega)

/-- **`backtrace_symbols`** writes every address as a text into its one block, with a table of pointers to the texts, and
`backtrace_symbols_fd` the same texts as lines. -/
theorem backtrace_symbols_faithful (malloc : Malloc) (line : Vector UInt8 lineSize) (m : FlatMem) (buffer : List UInt64)
    (size : Int32) (hsize : 0 < size) (hlen : size.toInt.toNat ≤ buffer.length) (out : ℕ)
    (hout : malloc.call (blockSize size) = some out) :
    ∃ texts m', List.Forall₂ IsText (buffer.take size.toInt.toNat) texts ∧
      backtraceSymbols malloc m (some buffer) size = some (some out, m') ∧
      Block m out (blockSize size).toNat texts m' ∧
      backtraceSymbolsFd line (some buffer) size = some (texts.map (· ++ ['\n'.toUInt8])) := by
  have hfits := malloc.fits _ _ hout
  rw [toNat_blockSize hsize, Nat.add_mul] at hfits
  obtain ⟨m', hm', hwritten⟩ := symbolsLoop_spec buffer out (out + wordSize * size.toInt.toNat) size.toInt.toNat
    (i := 0) (m := m) (by omega) (by rw [Nat.zero_add]) (by rw [Nat.zero_add]; omega)
  have hnot : ¬size ≤ 0 := Int32.not_le.mpr hsize
  refine ⟨(buffer.take size.toInt.toNat).map text, m', ?_, ?_, ?_, ?_⟩
  · rw [List.forall₂_map_right_iff]
    exact List.forall₂_same.mpr fun v _ => isText_text v
  · rw [backtraceSymbols, if_neg hnot, hout]
    dsimp only
    rw [Nat.mul_zero, Nat.add_zero] at hm'
    rw [hm']
    rfl
  · rw [toNat_blockSize hsize]
    exact block_of_written hlen hwritten
  · rw [backtraceSymbolsFd, fdLoop_eq line buffer _ (by omega), List.drop_zero, List.map_map]
    rfl

/-- A `malloc` with one block to give. -/
def oneBlock : Malloc where
  call n := if n.toNat ≤ 0x1000 then some 0x10000 else none
  fits n p h := by
    split_ifs at h
    obtain rfl := Option.some.inj h
    omega

theorem backtrace_symbols_faithful_two :
    ∃ texts m', List.Forall₂ IsText [0, 0x249303801] texts ∧
      backtraceSymbols oneBlock (fun _ => 0xAA) (some [0, 0x249303801]) 2 = some (some 0x10000, m') ∧
      Block (fun _ => 0xAA) 0x10000 54 texts m' ∧
      backtraceSymbolsFd (Vector.replicate lineSize 0xAA) (some [0, 0x249303801]) 2 =
        some (texts.map (· ++ ['\n'.toUInt8])) :=
  backtrace_symbols_faithful oneBlock (Vector.replicate lineSize 0xAA) (fun _ => 0xAA) [0, 0x249303801] 2 (by decide)
    (by decide) 0x10000 (by decide)

end OrbisCompat.Backtrace
