import OrbisCompat.App.RunConfig
import OrbisCompat.Lib.KeyTable
import Mathlib.Data.List.DropRight

/-!
# What the run config says

The file as a text, with no array and no terminators in it: a line is an option or none (`parse`), and a switch is what the last option
with its key says (`RunConfig.after`).

The array is taken apart line by line.  `Cut pre t rest buf` says that `buf` has the string `t` behind `pre`, and from the end of the line
on the bytes `rest` that it had: all that happens to a line stays in front of that (`applyOption_eq`).
-/

namespace OrbisCompat.App

/-- What a line says: its key and whether the value is `1`. -/
def parse (line : List UInt8) : Option (List UInt8 × Bool) :=
  let s := ((line.dropWhile isBlank).takeWhile (· ≠ '#'.toUInt8)).rdropWhile isTrailing
  if '='.toUInt8 ∈ s then
    some (s.takeWhile (· ≠ '='.toUInt8), (s.dropWhile (· ≠ '='.toUInt8)).tail == ['1'.toUInt8])
  else none

/-- What a text says, in the order of its lines. -/
def options (text : List UInt8) : List (List UInt8 × Bool) := (text.splitOn newline).filterMap parse

/-- The switches after some options. -/
def RunConfig.after (cfg : RunConfig) (es : List (List UInt8 × Bool)) : RunConfig where
  autoexit := (KeyTable.lastValue es autoexitKey).getD cfg.autoexit
  frameKlog := (KeyTable.lastValue es frameKlogKey).getD cfg.frameKlog

/-- A comment and a carriage return are no part of an option; a blank in front of the `=` is. -/
example : options ("autoexit=1 # now\r\n\tframe-klog =1".toList.map Char.toUInt8) =
    [(autoexitKey, true), ("frame-klog ".toList.map Char.toUInt8, true)] := by decide

/-! ### Setting switches -/

theorem RunConfig.set_eq (cfg : RunConfig) (key : List UInt8) (on : Bool) :
    cfg.set key on =
      ⟨if key = autoexitKey then on else cfg.autoexit, if key = frameKlogKey then on else cfg.frameKlog⟩ := by
  have hne : autoexitKey ≠ frameKlogKey := by decide
  unfold RunConfig.set
  split_ifs with ha hf hf
  · exact absurd (ha.symm.trans hf) hne
  · rfl
  · rfl
  · rfl

theorem RunConfig.after_cons (cfg : RunConfig) (e : List UInt8 × Bool) (es : List (List UInt8 × Bool)) :
    cfg.after (e :: es) = (cfg.set e.1 e.2).after es := by
  rw [RunConfig.set_eq]
  unfold RunConfig.after
  rw [KeyTable.lastValue_cons, KeyTable.lastValue_cons]

/-! ### The array -/

/-- Behind `pre` there is the string `t`, and the array ends with a terminator and `rest`. -/
structure Cut (pre t rest buf : List UInt8) : Prop where
  exists_tail : ∃ tail, buf = pre ++ (t ++ 0 :: tail) ∧ 0 :: rest <:+ 0 :: tail
  nul : 0 ∉ t

variable {pre t rest buf u w : List UInt8} {c : UInt8} {k : ℕ}

theorem Cut.start (pre rest : List UInt8) (h : 0 ∉ t) : Cut pre t rest (pre ++ (t ++ 0 :: rest)) :=
  ⟨⟨rest, rfl, List.suffix_rfl⟩, h⟩

theorem Cut.cstrAt (h : Cut pre t rest buf) : cstrAt buf pre.length = some t := by
  obtain ⟨tail, rfl, -⟩ := h.exists_tail
  rw [App.cstrAt, List.drop_left, Buffer.cstr_append h.nul]

/-- What is in front of the string may be counted to what is in front of the array. -/
theorem Cut.forward (h : Cut pre (u ++ w) rest buf) : Cut (pre ++ u) w rest buf := by
  obtain ⟨tail, rfl, hrest⟩ := h.exists_tail
  exact ⟨⟨tail, by simp only [List.append_assoc], hrest⟩, fun hmem => h.nul (List.mem_append_right u hmem)⟩

/-- A terminator in the string makes two strings of it. -/
theorem Cut.split (h : Cut pre (u ++ c :: w) rest buf) :
    ∃ buf', Buffer.store buf (pre.length + u.length) 0 = some buf' ∧ buf'.length = buf.length ∧
      Cut pre u rest buf' ∧ Cut (pre ++ u ++ [0]) w rest buf' := by
  obtain ⟨tail, rfl, hrest⟩ := h.exists_tail
  have hu : 0 ∉ u := fun hmem => h.nul (List.mem_append_left _ hmem)
  have hw : 0 ∉ w := fun hmem => h.nul (List.mem_append_right _ (List.mem_cons_of_mem _ hmem))
  have hbuf : pre ++ (u ++ c :: w ++ 0 :: tail) = pre ++ u ++ c :: (w ++ 0 :: tail) := by
    simp only [List.append_assoc, List.cons_append]
  rw [hbuf, ← List.length_append, Buffer.store_append]
  refine ⟨_, rfl, by simp only [List.length_append, List.length_cons], ⟨⟨w ++ 0 :: tail, List.append_assoc _ _ _, ?_⟩, hu⟩,
    ⟨⟨tail, List.append_cons _ _ _, hrest⟩, hw⟩⟩
  exact hrest.trans ((List.suffix_append w _).trans (List.suffix_cons _ _))

/-- A terminator in the string, or over its own. -/
theorem Cut.store (h : Cut pre t rest buf) (hk : k ≤ t.length) :
    ∃ buf', Buffer.store buf (pre.length + k) 0 = some buf' ∧ buf'.length = buf.length ∧ Cut pre (t.take k) rest buf' := by
  have hlen : (t.take k).length = k := List.length_take_of_le hk
  rcases Nat.lt_or_eq_of_le hk with hlt | rfl
  · have hsplit : Cut pre (t.take k ++ t[k] :: t.drop (k + 1)) rest buf := by
      rwa [← List.drop_eq_getElem_cons hlt, List.take_append_drop]
    obtain ⟨buf', hstore, hbuf', hcut, -⟩ := hsplit.split
    exact ⟨buf', hlen ▸ hstore, hbuf', hcut⟩
  · obtain ⟨tail, rfl, -⟩ := h.exists_tail
    rw [List.take_length, ← List.append_assoc, ← List.length_append, Buffer.store_append]
    exact ⟨_, rfl, rfl, List.append_assoc pre t _ ▸ h⟩

/-- What is behind the line. -/
theorem Cut.drop {n : ℕ} (h : Cut pre t rest buf) (hn : buf.length = n + 1 + rest.length) : buf.drop (n + 1) = rest := by
  obtain ⟨tail, rfl, hrest⟩ := h.exists_tail
  have hsuffix : 0 :: rest <:+ pre ++ (t ++ 0 :: tail) :=
    hrest.trans ((List.suffix_append t _).trans (List.suffix_append pre _))
  obtain ⟨front, hfront⟩ := hsuffix
  have hlen : (front ++ [0]).length = n + 1 := by
    have := congrArg List.length hfront
    rw [List.length_append, List.length_cons] at this
    rw [List.length_append, List.length_singleton]
    omega
  rw [← hfront, List.append_cons, ← hlen, List.drop_left]

/-! ### A line -/

/-- The second loop of `trim` stops at the end of what it leaves. -/
theorem trimEnd_eq (pre t tail : List UInt8) :
    trimEnd (pre ++ (t ++ tail)) pre.length t.length = (t.rdropWhile isTrailing).length := by
  induction t using List.reverseRecOn generalizing tail with
  | nil => rfl
  | append_singleton t c ih =>
    have hget : (pre ++ (t ++ [c] ++ tail))[pre.length + t.length]? = some c := by
      rw [List.getElem?_append_right (Nat.le_add_right _ _), Nat.add_sub_cancel_left, List.append_assoc,
        List.getElem?_append_right le_rfl, Nat.sub_self]
      rfl
    rw [List.length_append, List.length_singleton, trimEnd, hget, Option.any_some, List.rdropWhile_concat]
    split_ifs with hc
    · rw [List.append_assoc]
      exact ih _
    · rw [List.length_append, List.length_singleton]

theorem rdropWhile_eq_take (p : UInt8 → Bool) (t : List UInt8) : t.take (t.rdropWhile p).length = t.rdropWhile p :=
  List.prefix_iff_eq_take.mp (List.rdropWhile_prefix p t) |>.symm

theorem takeWhile_eq_take (p : UInt8 → Bool) (t : List UInt8) : t.take (t.takeWhile p).length = t.takeWhile p :=
  List.prefix_iff_eq_take.mp (List.takeWhile_prefix p) |>.symm

/-- `trim`. -/
theorem trim_eq (h : Cut pre t rest buf) :
    ∃ buf', trim buf pre.length = some buf' ∧ buf'.length = buf.length ∧
      Cut pre ((t.takeWhile (· ≠ '#'.toUInt8)).rdropWhile isTrailing) rest buf' := by
  obtain ⟨buf₁, hstore₁, hlen₁, hcut₁⟩ := h.store (List.takeWhile_prefix (· ≠ '#'.toUInt8)).length_le
  rw [takeWhile_eq_take] at hcut₁
  obtain ⟨tail, hbuf₁, -⟩ := hcut₁.exists_tail
  have htrim : trimEnd buf₁ pre.length (t.takeWhile (· ≠ '#'.toUInt8)).length =
      ((t.takeWhile (· ≠ '#'.toUInt8)).rdropWhile isTrailing).length := hbuf₁ ▸ trimEnd_eq pre _ _
  obtain ⟨buf₂, hstore₂, hlen₂, hcut₂⟩ := hcut₁.store (List.rdropWhile_prefix isTrailing _).length_le
  rw [rdropWhile_eq_take] at hcut₂
  refine ⟨buf₂, ?_, hlen₂.trans hlen₁, hcut₂⟩
  rw [trim, h.cstrAt, Option.bind_eq_bind, Option.bind_some, hstore₁, Option.bind_some, hcut₁.cstrAt, Option.bind_some, htrim, hstore₂]

/-- The switches after a line. -/
def RunConfig.line (cfg : RunConfig) (line : List UInt8) : RunConfig := (parse line).elim cfg fun e => cfg.set e.1 e.2

/-- What `trim` leaves of a line, with a key and a value. -/
theorem parse_split {line a b : List UInt8} (ha : '='.toUInt8 ∉ a)
    (h : ((line.dropWhile isBlank).takeWhile (· ≠ '#'.toUInt8)).rdropWhile isTrailing = a ++ '='.toUInt8 :: b) :
    parse line = some (a, b == ['1'.toUInt8]) := by
  have hmem : '='.toUInt8 ∈ a ++ '='.toUInt8 :: b := List.mem_append_right a List.mem_cons_self
  unfold parse
  dsimp only
  rw [h, if_pos hmem, Buffer.takeWhile_terminated, Buffer.takeWhile_eq_self ha, List.dropWhile_append_of_pos (Buffer.forall_ne ha),
    List.dropWhile_cons_of_neg (by simp), List.tail_cons]

theorem parse_of_not_mem {line : List UInt8}
    (h : '='.toUInt8 ∉ ((line.dropWhile isBlank).takeWhile (· ≠ '#'.toUInt8)).rdropWhile isTrailing) : parse line = none :=
  if_neg h

/-- **A line of the array.** -/
theorem applyOption_eq (cfg : RunConfig) (h : Cut pre t rest buf) :
    ∃ buf', applyOption cfg buf pre.length = some (cfg.line t, buf') ∧ buf'.length = buf.length ∧
      ∃ pre' t', Cut pre' t' rest buf' := by
  have hblank : Cut pre (t.takeWhile isBlank ++ t.dropWhile isBlank) rest buf := by rwa [List.takeWhile_append_dropWhile]
  have hlen : pre.length + (t.takeWhile isBlank).length = (pre ++ t.takeWhile isBlank).length := List.length_append.symm
  obtain ⟨buf₁, htrim, hlen₁, hcut₁⟩ := trim_eq hblank.forward
  unfold applyOption
  rw [h.cstrAt, Option.bind_eq_bind, Option.bind_some]
  dsimp only
  rw [hlen, htrim, Option.bind_some, hcut₁.cstrAt, Option.bind_some]
  by_cases heq : '='.toUInt8 ∈ ((t.dropWhile isBlank).takeWhile (· ≠ '#'.toUInt8)).rdropWhile isTrailing
  · -- the key and the value are the two strings that the terminator makes
    obtain ⟨a, b, hs, ha⟩ := List.eq_append_cons_of_mem heq
    rw [hs] at hcut₁
    obtain ⟨buf₂, hstore, hlen₂, hkey, hval⟩ := hcut₁.split
    have hpos : (pre ++ t.takeWhile isBlank).length + a.length + 1 = (pre ++ t.takeWhile isBlank ++ a ++ [0]).length := by
      simp only [List.length_append, List.length_singleton]
    rw [if_pos heq, hs, Buffer.takeWhile_terminated, Buffer.takeWhile_eq_self ha, hstore, Option.bind_some, hkey.cstrAt,
      Option.bind_some, hpos, hval.cstrAt, Option.bind_some, RunConfig.line, parse_split ha hs]
    exact ⟨buf₂, rfl, hlen₂.trans hlen₁, _, _, hval⟩
  · rw [if_neg heq, RunConfig.line, parse_of_not_mem heq]
    exact ⟨buf₁, rfl, hlen₁, _, _, hcut₁⟩

theorem RunConfig.after_line (cfg : RunConfig) (line : List UInt8) (ls : List (List UInt8)) :
    cfg.after ((line :: ls).filterMap parse) = (cfg.line line).after (ls.filterMap parse) := by
  rw [List.filterMap_cons, RunConfig.line]
  cases parse line with
  | none => rfl
  | some e => exact RunConfig.after_cons cfg e _

/-! ### The lines -/

theorem options_last {text : List UInt8} (h : newline ∉ text) : options text = [text].filterMap parse := by
  rw [options, List.splitOn_eq_singleton h]

theorem options_line {line : List UInt8} (h : newline ∉ line) (more : List UInt8) :
    options (line ++ newline :: more) = (line :: more.splitOn newline).filterMap parse := by
  rw [options, List.splitOn_append_cons_self_of_not_mem h]

/-- The turn of the loop for a line, and what is in front of the next. -/
theorem readLines_line {line more : List UInt8} (cfg : RunConfig) (fuel : ℕ) (pre rest : List UInt8) (hline : newline ∉ line)
    (hnul : 0 ∉ line ++ newline :: more) :
    ∃ pre', readLines (fuel + 1) cfg (pre ++ (line ++ newline :: more ++ 0 :: rest)) pre.length =
      readLines fuel (cfg.line line) (pre' ++ (more ++ 0 :: rest)) pre'.length := by
  have hnul' : 0 ∉ line := fun hmem => hnul (List.mem_append_left _ hmem)
  have hmem : newline ∈ line ++ newline :: more := List.mem_append_right line List.mem_cons_self
  have hempty : line ++ newline :: more ≠ [] := List.ne_nil_of_mem hmem
  have hbuf : pre ++ (line ++ newline :: more ++ 0 :: rest) = pre ++ line ++ newline :: (more ++ 0 :: rest) := by
    simp only [List.append_assoc, List.cons_append]
  have hstore : Buffer.store (pre ++ line ++ newline :: (more ++ 0 :: rest)) (pre.length + line.length) 0 =
      some (pre ++ (line ++ 0 :: (more ++ 0 :: rest))) := by
    rw [← List.length_append, Buffer.store_append, List.append_assoc]
  obtain ⟨buf, happly, hlen, _, _, hcut⟩ := applyOption_eq cfg (Cut.start pre (more ++ 0 :: rest) hnul')
  -- the line has been taken apart, and behind its terminator there is what there was
  have hlen' : buf.length = pre.length + line.length + 1 + (more ++ 0 :: rest).length := by
    rw [hlen, List.length_append, List.length_append, List.length_cons]
    omega
  have htake : (buf.take (pre.length + line.length + 1)).length = pre.length + line.length + 1 :=
    List.length_take_of_le (hlen' ▸ Nat.le_add_right _ _)
  refine ⟨buf.take (pre.length + line.length + 1), ?_⟩
  rw [readLines, (Cut.start pre rest hnul).cstrAt, Option.bind_eq_bind, Option.bind_some, if_neg hempty, if_pos hmem,
    Buffer.takeWhile_terminated, Buffer.takeWhile_eq_self hline, hbuf]
  dsimp only
  rw [hstore, Option.bind_some, happly, Option.bind_eq_bind, Option.bind_some, htake, ← hcut.drop hlen', List.take_append_drop]

/-- The last turn. -/
theorem readLines_last (cfg : RunConfig) (fuel : ℕ) (pre rest : List UInt8) (hline : newline ∉ t) (hnul : 0 ∉ t) :
    readLines (fuel + 1) cfg (pre ++ (t ++ 0 :: rest)) pre.length = some (cfg.line t) := by
  have hcut : Cut pre t rest (pre ++ (t ++ 0 :: rest)) := Cut.start pre rest hnul
  obtain ⟨_, happly, -⟩ := applyOption_eq cfg hcut
  rw [readLines, hcut.cstrAt, Option.bind_eq_bind, Option.bind_some, if_neg hline, happly, Option.bind_eq_bind,
    Option.bind_some]
  split_ifs with hempty
  · rw [hempty]
    rfl
  · rfl

/-- **The loop of `readRunConfig`** takes every line of the text that it has in front of it. -/
theorem readLines_eq : ∀ {fuel : ℕ} (pre text rest : List UInt8) (cfg : RunConfig), text.length < fuel → 0 ∉ text →
    readLines fuel cfg (pre ++ (text ++ 0 :: rest)) pre.length = some (cfg.after (options text)) := by
  intro fuel
  induction fuel with
  | zero => exact fun _ _ _ _ h => absurd h (Nat.not_lt_zero _)
  | succ fuel ih =>
    intro pre text rest cfg hfuel hnul
    by_cases hmem : newline ∈ text
    · obtain ⟨line, more, rfl, hline⟩ := List.eq_append_cons_of_mem hmem
      have hmore : 0 ∉ more := fun h => hnul (List.mem_append_right _ (List.mem_cons_of_mem _ h))
      have hfuel' : more.length < fuel := by
        rw [List.length_append, List.length_cons] at hfuel
        omega
      obtain ⟨pre', hturn⟩ := readLines_line cfg fuel pre rest hline hnul
      rw [hturn, ih pre' more rest _ hfuel' hmore, options_line hline, RunConfig.after_line]
      rfl
    · rw [readLines_last cfg fuel pre rest hmem hnul, options_last hmem, RunConfig.after_line]
      rfl

/-! ### The file -/

/-- What it takes for the text of the file. -/
def ReadAnswer.text (a : ReadAnswer) : List UInt8 := (a.bytes.take a.len).takeWhile (· ≠ 0)

theorem ReadAnswer.len_lt (a : ReadAnswer) : a.len < 512 := by
  unfold ReadAnswer.len
  split_ifs with h
  · exact h
  · exact Nat.succ_pos 511

/-- The zeros of the array end a string as its terminator does. -/
theorem takeWhile_replicate (bs : List UInt8) (n k : ℕ) :
    ((bs ++ List.replicate n 0).take k).takeWhile (· ≠ 0) = (bs.take k).takeWhile (· ≠ 0) := by
  rw [List.take_append, List.take_replicate]
  cases min (k - bs.length) n with
  | zero => rw [List.replicate_zero, List.append_nil]
  | succ m => rw [List.replicate_succ, Buffer.takeWhile_terminated]

/-- The string in front of a terminator, and what there is behind its own. -/
theorem exists_rest_of_terminated (l r : List UInt8) :
    ∃ rest, l ++ 0 :: r = l.takeWhile (· ≠ 0) ++ 0 :: rest ∧ 0 ∉ l.takeWhile (· ≠ 0) := by
  obtain ⟨s, rest, hs, hnul⟩ := List.eq_append_cons_of_mem (List.mem_append_right l (List.mem_cons_self (a := 0) (l := r)))
  have hstring : l.takeWhile (· ≠ 0) = s := by
    rw [← Buffer.takeWhile_terminated l 0 r, hs, Buffer.takeWhile_terminated, Buffer.takeWhile_eq_self hnul]
  rw [hstring]
  exact ⟨rest, hs, hnul⟩

/-- **The run config.**  Without the file the switches stay.  With it they are what its last option for each says; nothing outside the
array is read or written, whatever `sceKernelRead` answers. -/
theorem readRunConfig_eq (cfg : RunConfig) (fd : ℤ) (a : ReadAnswer) :
    readRunConfig cfg fd a =
      some (if fd < 0 then (cfg, .missing fd)
        else (cfg.after (options a.text), .found a.len (cfg.after (options a.text)))) := by
  unfold readRunConfig
  split_ifs with hfd
  · rfl
  have hlen : (a.bytes ++ List.replicate (512 - a.bytes.length) 0).length = 512 := by
    rw [List.length_append, List.length_replicate]
    exact Nat.add_sub_of_le (a.length_le.trans (Nat.le_succ 511))
  obtain ⟨rest, hrest, hnul⟩ := exists_rest_of_terminated ((a.bytes ++ List.replicate (512 - a.bytes.length) 0).take a.len)
    ((a.bytes ++ List.replicate (512 - a.bytes.length) 0).drop (a.len + 1))
  rw [takeWhile_replicate] at hrest hnul
  have hstore : Buffer.store (a.bytes ++ List.replicate (512 - a.bytes.length) 0) a.len 0 = some (a.text ++ 0 :: rest) := by
    rw [Buffer.store_eq (a.len_lt.trans_eq hlen.symm), hrest]
    rfl
  have hfuel : a.text.length < 512 :=
    ((List.takeWhile_prefix _).length_le.trans (List.length_take_le _ _)).trans_lt a.len_lt
  have hlines : readLines 512 cfg (a.text ++ 0 :: rest) 0 = some (cfg.after (options a.text)) :=
    readLines_eq [] a.text rest cfg hfuel hnul
  dsimp only
  rw [hstore, Option.bind_eq_bind, Option.bind_some, hlines]
  rfl

end OrbisCompat.App
