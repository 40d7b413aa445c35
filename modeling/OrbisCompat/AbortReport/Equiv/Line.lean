import OrbisCompat.AbortReport.Basic
import OrbisCompat.App.Equiv.Lines

/-!
# `src/orbis_abort_report.c`: a report is one line

`orbis_report` looks for the end of the text before it puts the newline there, so that a message that is too long is cut and still
ends with a newline (`orbisReport_eq`).  What the three entry points format is never cut twice (`reportString_eq`).
-/

namespace OrbisCompat.AbortReport

open App

variable {tag m msg line : List UInt8}

/-- A string put into the front of an array. -/
theorem vsnprintf_eq (lib : Stdio) (front rest m : List UInt8) {size : ℕ} (hm : m.length < 2 ^ 31) (hsize : 0 < size)
    (hfit : size ≤ rest.length) :
    vsnprintf lib (front ++ rest) front.length size (some m) =
      some ((m.length : ℤ), front ++ (m.take (size - 1) ++ 0 :: rest.drop ((m.take (size - 1)).length + 1))) := by
  have hprinted : printed (some m) = some m := by
    rw [printed, Option.filter_some, if_pos (decide_eq_true hm)]
  have hlen : (m.take (size - 1) ++ [0]).length ≤ rest.length := by
    rw [List.length_append, List.length_take, List.length_singleton]
    omega
  unfold vsnprintf
  rw [hprinted]
  dsimp only
  rw [if_neg hsize.ne', Buffer.storeFrom_append front hlen, List.length_append, List.length_singleton, List.append_assoc]
  rfl

/-- The string of an array that is terminated somewhere. -/
theorem exists_string (u rest : List UInt8) :
    ∃ rest', u ++ 0 :: rest = u.takeWhile (· ≠ 0) ++ 0 :: rest' ∧ rest.length ≤ rest'.length := by
  induction u with
  | nil => exact ⟨rest, rfl, le_rfl⟩
  | cons c u ih =>
    obtain ⟨rest', heq, hlen⟩ := ih
    by_cases hc : c = 0
    · refine ⟨u ++ 0 :: rest, ?_, ?_⟩
      · rw [List.takeWhile_cons_of_neg (by simpa using hc), hc]
        rfl
      · simp
        omega
    · refine ⟨rest', ?_, hlen⟩
      rw [List.takeWhile_cons_of_pos (by simpa using hc), List.cons_append, heq]
      rfl

/-- The end of a line behind the string of an array. -/
theorem newline_eq (w : List UInt8) {rest : List UInt8} (hrest : 1 ≤ rest.length) :
    ∃ rest', Buffer.store (w ++ 0 :: rest) w.length newline = some (w ++ newline :: rest) ∧
      Buffer.store (w ++ newline :: rest) (w.length + 1) 0 = some ((w ++ [newline]) ++ 0 :: rest') := by
  obtain ⟨r, rest, rfl⟩ := List.exists_cons_of_length_pos hrest
  refine ⟨rest, Buffer.store_append w 0 newline _, ?_⟩
  have hlen : w.length + 1 = (w ++ [newline]).length := by rw [List.length_append, List.length_singleton]
  rw [List.append_cons, hlen, Buffer.store_append]

theorem nul_not_mem_head (h : 0 ∉ tag) : 0 ∉ head tag := by
  unfold head
  exact List.not_mem_append (by decide) (List.not_mem_append h (by decide))

theorem nul_not_mem_string (u : List UInt8) : 0 ∉ u.takeWhile (· ≠ 0) := by
  intro hmem
  have := List.mem_takeWhile_imp hmem
  simp at this

theorem sizeOfInt_natCast {n : ℕ} (h : n < 2 ^ 64) : sizeOfInt n = n := by
  unfold sizeOfInt
  omega

/-- The text of a report in front of its newline. -/
def reportText (tag m : List UInt8) : List UInt8 := head tag ++ (m.take (1021 - (head tag).length)).takeWhile (· ≠ 0)

/-- **A report is one line**, for every tag that leaves room for its end, whatever the array held. -/
theorem orbisReport_eq (lib : Stdio) (hline : line.length = 1024) (htag : 0 ∉ tag) (hlen : (head tag).length ≤ 1021)
    (hm : m.length < 2 ^ 31) : orbisReport lib line tag (some m) = some (reportText tag m ++ [newline]) := by
  -- the head stands in front
  have hhead := vsnprintf_eq lib [] line (head tag) (by omega) (by norm_num : 0 < 1024) hline.ge
  rw [List.nil_append, List.take_of_length_le (by omega), List.nil_append, List.length_nil] at hhead
  generalize hrest : line.drop ((head tag).length + 1) = rest at hhead
  have hrestlen : rest.length = 1023 - (head tag).length := by
    rw [← hrest, List.length_drop, hline]
    omega
  -- the message goes over the terminator of the head, with a terminator of its own
  have hsub : Word64.sub (Word64.sub 1024 (head tag).length) 2 = 1022 - (head tag).length := by
    have hfirst : Word64.sub 1024 (head tag).length = 1024 - (head tag).length := Word64.sub_of_le (by omega) (by norm_num)
    rw [hfirst, Word64.sub_of_le (by omega) (by omega)]
    omega
  have hbody := vsnprintf_eq lib (head tag) (0 :: rest) m hm (by omega : 0 < 1022 - (head tag).length)
    (by rw [List.length_cons]; omega)
  rw [show 1022 - (head tag).length - 1 = 1021 - (head tag).length by omega] at hbody
  generalize hrest' : (0 :: rest).drop ((m.take (1021 - (head tag).length)).length + 1) = rest' at hbody
  have hroom : 1 ≤ rest'.length := by
    rw [← hrest', List.length_drop, List.length_cons, List.length_take, hrestlen]
    omega
  -- the newline goes over what terminates the string
  have hnul := nul_not_mem_head htag
  obtain ⟨rest₂, hstring, hle⟩ := exists_string (m.take (1021 - (head tag).length)) rest'
  have hnone : 0 ∉ reportText tag m := List.not_mem_append hnul (nul_not_mem_string _)
  have hbuf : head tag ++ (m.take (1021 - (head tag).length) ++ 0 :: rest') = reportText tag m ++ 0 :: rest₂ := by
    rw [hstring, reportText, List.append_assoc]
  obtain ⟨rest₃, hnewline, hend⟩ := newline_eq (reportText tag m) (hroom.trans hle)
  have hclosed : 0 ∉ reportText tag m ++ [newline] := List.not_mem_append hnone (by decide)
  unfold orbisReport
  rw [hhead, Option.bind_eq_bind, Option.bind_some]
  dsimp only
  rw [sizeOfInt_natCast (by omega), hsub, hbody, Option.bind_eq_bind, Option.bind_some]
  dsimp only
  rw [hbuf, Buffer.cstr_append hnone, Option.bind_some, hnewline, Option.bind_some, hend, Option.bind_some,
    Buffer.cstr_append hclosed]

/-! ### The entry points -/

/-- What is left of a message in an array of `k` bytes. -/
def cut (k : ℕ) (m : List UInt8) : List UInt8 := (m.take (k - 1)).takeWhile (· ≠ 0)

/-- **A message is cut once at most**: what fits the array of an entry point fits the line. -/
theorem reportString_eq (lib : Stdio) (hmsg : 0 < msg.length) (hle : msg.length ≤ 960) (hline : line.length = 1024)
    (htag : 0 ∉ tag) (hlen : tag.length ≤ 9) (hm : m.length < 2 ^ 31) :
    reportString lib msg line tag (some m) = some (head tag ++ cut msg.length m ++ [newline]) := by
  have hheadlen : (head tag).length = tag.length + 10 := by
    unfold head
    rw [List.length_append, List.length_append, show (ascii "[orbis] ").length = 8 from rfl,
      show (ascii ": ").length = 2 from rfl]
    omega
  have hcut : (cut msg.length m).length ≤ 959 :=
    (List.takeWhile_prefix _).length_le.trans ((List.length_take_le _ _).trans (by omega))
  have hnul : 0 ∉ cut msg.length m := nul_not_mem_string _
  have hfront := vsnprintf_eq lib [] msg m hm hmsg le_rfl
  rw [List.nil_append, List.nil_append, List.length_nil] at hfront
  unfold reportString
  rw [hfront, Option.bind_eq_bind, Option.bind_some]
  dsimp only
  rw [Buffer.cstr_terminated, Option.bind_eq_bind, Option.bind_some]
  change orbisReport lib line tag (some (cut msg.length m)) = _
  rw [orbisReport_eq lib hline htag (by omega) (by omega), reportText, List.take_of_length_le (by omega),
    Buffer.takeWhile_eq_self hnul]

/-- **The three ways to abort.**  What goes to `sceKernelDebugOutText` is the tag, the message up to the size of the array it was
formatted into, and a newline; nothing is stored behind an array. -/
theorem entries_eq (lib : Stdio) (line msg msg₅₁₂ : List UInt8) (hline : line.length = 1024) (hmsg : msg.length = 960)
    (hshort : msg₅₁₂.length = 512) (m caller report : List UInt8) (expr file func : Option (List UInt8)) (n : ℤ)
    (hm : m.length < 2 ^ 31) (hassert : (assertText expr file n func).length < 2 ^ 31)
    (habort : (abortText caller report).length < 2 ^ 31) :
    abortMessage lib msg line (some m) = some (head (ascii "libc++abi") ++ cut 960 m ++ [newline]) ∧
      assertFail lib msg line expr file n func =
        some (head (ascii "assert") ++ cut 960 (assertText expr file n func) ++ [newline]) ∧
      AbortReport.abort lib msg₅₁₂ line caller report =
        some (head (ascii "abort") ++ cut 512 (abortText caller report) ++ [newline]) := by
  refine ⟨?_, ?_, ?_⟩
  · rw [abortMessage, reportString_eq lib (by omega) (by omega) hline (by decide) (by decide) hm, hmsg]
  · rw [assertFail, reportString_eq lib (by omega) (by omega) hline (by decide) (by decide) hassert, hmsg]
  · rw [AbortReport.abort, reportString_eq lib (by omega) (by omega) hline (by decide) (by decide) habort, hshort]

/-- A failed assertion. -/
theorem entries_eq_assert :
    assertFail Stdio.silent (List.replicate 960 0) (List.replicate 1024 0) (some (ascii "p != 0")) none (-3) (some (ascii "f")) =
      some (ascii "[orbis] assert: ?:-3: f: assertion failed: p != 0\n") := by
  have h := (entries_eq Stdio.silent (List.replicate 1024 0) (List.replicate 960 0) (List.replicate 512 0)
    List.length_replicate List.length_replicate List.length_replicate [] [] [] (some (ascii "p != 0")) none (some (ascii "f"))
    (-3) (by decide) (by decide) (by decide)).2.1
  rw [h]
  decide +kernel

end OrbisCompat.AbortReport
