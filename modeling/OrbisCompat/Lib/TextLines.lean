import Mathlib.Data.List.DropRight
import Mathlib.Tactic.Common

/-!
# Lines of a text

`lines text` are the pieces between newlines.  `readLine room text` is what `fgets` reads into a buffer
with `room` characters besides the terminator, with the rest of the text: a line with its newline when
it fits (`readLine_line`), and the last piece when nothing ends it (`readLine_last`).

A whole text is read in pieces (`reads`), each with what stands before it in its line.  These are the
blocks of `room` characters of the lines with their newlines (`wholeLines`), wherever a line starts in the
text (`mem_reads`).

`lineInduction` is induction over the lines of a text.  A text is trimmed with `List.dropWhile` at the
front and `List.rdropWhile` at the back; neither minds a character at the end that the back trims
(`trim_concat`).
-/

namespace TextLines

/-- The pieces between newlines. -/
def lines (text : List Char) : List (List Char) := text.splitOn '\n'

/-- Up to `room` characters, and none after a newline; and what is left. -/
def readLine : ℕ → List Char → List Char × List Char
  | 0, text => ([], text)
  | _ + 1, [] => ([], [])
  | room + 1, c :: text =>
    if c = '\n' then ([c], text) else (c :: (readLine room text).1, (readLine room text).2)

theorem lines_line {line : List Char} (h : '\n' ∉ line) (rest : List Char) :
    lines (line ++ '\n' :: rest) = line :: lines rest :=
  List.splitOn_append_cons_self_of_not_mem h rest

theorem lines_last {text : List Char} (h : '\n' ∉ text) : lines text = [text] :=
  List.splitOn_eq_singleton h

/-- A line that fits is read whole, with its newline. -/
theorem readLine_line {line : List Char} (h : '\n' ∉ line) (rest : List Char) : ∀ {room : ℕ},
    line.length < room → readLine room (line ++ '\n' :: rest) = (line ++ ['\n'], rest) := by
  induction line with
  | nil =>
    intro room hroom
    obtain ⟨room, rfl⟩ := Nat.exists_eq_add_one_of_ne_zero hroom.ne'
    rfl
  | cons c line ih =>
    intro room hroom
    obtain ⟨room, rfl⟩ := Nat.exists_eq_add_one_of_ne_zero (Nat.ne_zero_of_lt hroom)
    have hc : c ≠ '\n' := fun heq => h (heq ▸ List.mem_cons_self)
    have hline := ih (fun hmem => h (List.mem_cons_of_mem c hmem)) (Nat.lt_of_succ_lt_succ hroom)
    rw [List.cons_append, readLine, if_neg hc, hline, List.cons_append]

/-- The last piece is read whole. -/
theorem readLine_last {text : List Char} (h : '\n' ∉ text) : ∀ {room : ℕ},
    text.length ≤ room → readLine room text = (text, []) := by
  induction text with
  | nil =>
    intro room hroom
    cases room <;> rfl
  | cons c text ih =>
    intro room hroom
    obtain ⟨room, rfl⟩ := Nat.exists_eq_add_one_of_ne_zero (Nat.ne_zero_of_lt hroom)
    have hc : c ≠ '\n' := fun heq => h (heq ▸ List.mem_cons_self)
    have htext := ih (fun hmem => h (List.mem_cons_of_mem c hmem)) (Nat.le_of_succ_le_succ hroom)
    rw [readLine, if_neg hc, htext]

/-- The first newline. -/
theorem exists_line {text : List Char} (h : '\n' ∈ text) :
    ∃ line rest, '\n' ∉ line ∧ text = line ++ '\n' :: rest := by
  obtain ⟨line, rest, heq, hline⟩ := List.eq_append_cons_of_mem h
  exact ⟨line, rest, hline, heq⟩

/-- **Induction over lines.** -/
theorem lineInduction {P : List Char → Prop} (hlast : ∀ text, '\n' ∉ text → P text)
    (hline : ∀ line rest, '\n' ∉ line → P rest → P (line ++ '\n' :: rest)) (text : List Char) :
    P text := by
  induction hn : text.length using Nat.strong_induction_on generalizing text with
  | _ n ih =>
    by_cases h : '\n' ∈ text
    · obtain ⟨line, rest, hnot, rfl⟩ := exists_line h
      refine hline line rest hnot (ih rest.length ?_ rest rfl)
      rw [← hn, List.length_append, List.length_cons]
      omega
    · exact hlast text h

/-! ### Pieces of a text -/

/-- The pieces of a text, one `readLine` after another with fuel for as many; with each, what stands
`before` it in its line. -/
def reads (room : ℕ) : ℕ → List Char → List Char → List (List Char × List Char)
  | 0, _, _ => []
  | fuel + 1, before, text =>
    if text = [] then []
    else
      let piece := (readLine room text).1
      (before, piece) ::
        reads room fuel (if '\n' ∈ piece then [] else before ++ piece) (readLine room text).2

/-- Every piece but the last with the newline behind it. -/
def ended : List (List Char) → List (List Char)
  | [] => []
  | [l] => [l]
  | l :: l' :: ls => (l ++ ['\n']) :: ended (l' :: ls)

/-- The lines with their newlines; nothing ends the last one. -/
def wholeLines (text : List Char) : List (List Char) := ended (lines text)

theorem wholeLines_line {line : List Char} (h : '\n' ∉ line) (rest : List Char) :
    wholeLines (line ++ '\n' :: rest) = (line ++ ['\n']) :: wholeLines rest := by
  unfold wholeLines
  rw [lines_line h]
  cases hrest : lines rest with
  | nil => exact absurd hrest (List.splitOn_ne_nil _ _)
  | cons l ls => rfl

theorem wholeLines_last {text : List Char} (h : '\n' ∉ text) : wholeLines text = [text] := by
  unfold wholeLines
  rw [lines_last h]
  rfl

/-- A line that does not fit is cut. -/
theorem readLine_cut {line : List Char} (h : '\n' ∉ line) (rest : List Char) : ∀ {room : ℕ},
    room ≤ line.length → readLine room (line ++ rest) = (line.take room, line.drop room ++ rest) := by
  induction line with
  | nil =>
    intro room hroom
    obtain rfl : room = 0 := Nat.le_zero.mp hroom
    rfl
  | cons c line ih =>
    intro room hroom
    cases room with
    | zero => rfl
    | succ room =>
      have hc : c ≠ '\n' := fun heq => h (heq ▸ List.mem_cons_self)
      have hline := ih (fun hmem => h (List.mem_cons_of_mem c hmem)) (Nat.le_of_succ_le_succ hroom)
      rw [List.cons_append, readLine, if_neg hc, hline, List.take_succ_cons, List.drop_succ_cons]

variable {room fuel : ℕ} {before line : List Char} {x : List Char × List Char}

@[simp] theorem reads_nil (fuel : ℕ) (before : List Char) : reads room fuel before [] = [] := by
  cases fuel <;> rfl

/-- The end of a line is read with what ends it. -/
theorem readLine_end (hline : '\n' ∉ line) {e rest : List Char} (he : e = ['\n'] ∨ e = [] ∧ rest = [])
    (hlen : line.length < room) : readLine room (line ++ (e ++ rest)) = (line ++ e, rest) := by
  rcases he with rfl | ⟨rfl, rfl⟩
  · exact readLine_line hline rest hlen
  · simpa using readLine_last hline hlen.le

/-- The end of a line is the last piece of it. -/
theorem reads_end (before : List Char) (hline : '\n' ∉ line) {e rest : List Char}
    (he : e = ['\n'] ∨ e = [] ∧ rest = []) (hne : line ++ e ≠ []) (hlen : line.length < room) :
    reads room (fuel + 1) before (line ++ (e ++ rest)) = (before, line ++ e) :: reads room fuel [] rest := by
  have htext : line ++ (e ++ rest) ≠ [] := by
    rw [← List.append_assoc]
    exact List.append_ne_nil_of_left_ne_nil hne _
  rw [reads, if_neg htext, readLine_end hline he hlen]
  dsimp only
  congr 1
  rcases he with rfl | ⟨-, rfl⟩
  · rw [if_pos (by simp)]
  · rw [reads_nil, reads_nil]

/-- A line that does not fit goes on behind its first piece. -/
theorem reads_cut (before : List Char) (hline : '\n' ∉ line) (hroom : 0 < room) (hle : room ≤ line.length)
    (rest : List Char) : reads room (fuel + 1) before (line ++ rest) =
      (before, line.take room) :: reads room fuel (before ++ line.take room) (line.drop room ++ rest) := by
  have hne : line ≠ [] := List.ne_nil_of_length_pos (hroom.trans_le hle)
  have hnot : '\n' ∉ line.take room := fun h => hline ((List.take_subset _ _) h)
  rw [reads, if_neg (List.append_ne_nil_of_left_ne_nil hne _), readLine_cut hline _ hle]
  dsimp only
  rw [if_neg hnot]

/-- The blocks of a list, with what stands before each: the first one, and those of what is left. -/
theorem exists_block_iff {w : List Char} (hw : w ≠ []) :
    (∃ k, room * k < w.length ∧ x = (before ++ w.take (room * k), (w.drop (room * k)).take room)) ↔
      x = (before, w.take room) ∨ ∃ k, room * k < (w.drop room).length ∧
        x = (before ++ w.take room ++ (w.drop room).take (room * k),
          ((w.drop room).drop (room * k)).take room) := by
  have hnext : ∀ k, before ++ w.take room ++ (w.drop room).take (room * k) =
      before ++ w.take (room * (k + 1)) := by
    intro k
    rw [List.append_assoc, Nat.mul_succ, Nat.add_comm, List.take_add]
  have hblock : ∀ k, (w.drop room).drop (room * k) = w.drop (room * (k + 1)) := by
    intro k
    rw [List.drop_drop, Nat.mul_succ, Nat.add_comm]
  have hpos : 0 < w.length := List.length_pos_of_ne_nil hw
  constructor
  · rintro ⟨k, hk, rfl⟩
    cases k with
    | zero => exact Or.inl (by simp)
    | succ k =>
      refine Or.inr ⟨k, ?_, by rw [hnext, hblock]⟩
      rw [List.length_drop]
      rw [Nat.mul_succ] at hk
      omega
  · rintro (rfl | ⟨k, hk, rfl⟩)
    · exact ⟨0, by simpa using hpos, by simp⟩
    · refine ⟨k + 1, ?_, by rw [hnext, hblock]⟩
      rw [List.length_drop] at hk
      rw [Nat.mul_succ]
      omega

/-- **The pieces of one line.** They are its blocks; then come those of the rest. -/
theorem mem_reads_line (before rest : List Char) (hroom : 0 < room) (hline : '\n' ∉ line)
    {e : List Char} (he : e = ['\n'] ∨ e = [] ∧ rest = []) (hfuel : (line ++ (e ++ rest)).length ≤ fuel) :
    ∃ fuel', rest.length ≤ fuel' ∧ (x ∈ reads room fuel before (line ++ (e ++ rest)) ↔
      (∃ k, room * k < (line ++ e).length ∧
          x = (before ++ (line ++ e).take (room * k), ((line ++ e).drop (room * k)).take room)) ∨
        x ∈ reads room fuel' [] rest) := by
  -- the induction is on the length of the line that is left
  induction hn : line.length using Nat.strong_induction_on generalizing line fuel before with
  | _ n ih =>
    by_cases hempty : line ++ e = []
    · obtain ⟨rfl, rfl⟩ := List.append_eq_nil_iff.mp hempty
      obtain rfl : rest = [] := by simpa using he
      exact ⟨0, le_rfl, by simp⟩
    have hpos : 0 < (line ++ e).length := List.length_pos_of_ne_nil hempty
    rw [← List.append_assoc, List.length_append] at hfuel
    obtain ⟨fuel, rfl⟩ : ∃ fuel', fuel = fuel' + 1 := Nat.exists_eq_add_one_of_ne_zero (by omega)
    rw [exists_block_iff hempty]
    by_cases hlen : line.length < room
    · -- what is left is one piece
      have hshort : (line ++ e).length ≤ room := by
        rcases he with rfl | ⟨rfl, -⟩
        · simpa using Nat.succ_le_of_lt hlen
        · simpa using hlen.le
      refine ⟨fuel, by omega, ?_⟩
      rw [reads_end before hline he hempty hlen, List.take_of_length_le hshort, List.drop_eq_nil_of_le hshort]
      simp
    · -- a full piece, and the line goes on with its characters in front
      have hle : room ≤ line.length := not_lt.mp hlen
      have hcut : line.drop room ++ e = (line ++ e).drop room :=
        (List.drop_append_of_le_length hle).symm
      have hleft : (line.drop room ++ (e ++ rest)).length ≤ fuel := by
        simp only [List.length_append, List.length_drop] at hfuel ⊢
        omega
      obtain ⟨fuel', hfuel', hrest⟩ := ih (line.drop room).length
        (by rw [List.length_drop]; omega) (before ++ line.take room)
        (fun h => hline ((List.drop_subset _ _) h)) hleft rfl
      refine ⟨fuel', hfuel', ?_⟩
      rw [reads_cut before hline hroom hle, List.mem_cons, hrest, hcut, List.take_append_of_le_length hle, or_assoc]

/-- **The pieces of a text.** They are the blocks of its lines. -/
theorem mem_reads (hroom : 0 < room) (text : List Char) : ∀ {fuel : ℕ}, text.length ≤ fuel →
    (x ∈ reads room fuel [] text ↔ ∃ l ∈ wholeLines text, ∃ k, room * k < l.length ∧
      x = (l.take (room * k), (l.drop (room * k)).take room)) := by
  induction text using lineInduction with
  | hlast text hnot =>
    intro fuel hfuel
    obtain ⟨fuel', -, hreads⟩ := mem_reads_line (x := x) [] [] hroom hnot
      (Or.inr ⟨rfl, rfl⟩) (by simpa using hfuel)
    rw [List.append_nil, List.append_nil] at hreads
    rw [hreads, wholeLines_last hnot]
    simp
  | hline line rest hnot ih =>
    intro fuel hfuel
    obtain ⟨fuel', hfuel', hreads⟩ := mem_reads_line (x := x) [] rest hroom hnot (Or.inl rfl)
      hfuel
    rw [List.singleton_append] at hreads
    rw [hreads, ih hfuel', wholeLines_line hnot, List.exists_mem_cons_iff]
    simp

/-! ### Trimming -/

variable {p q : Char → Bool} {c : Char}

/-- Trimming at the front, next to a character that stays. -/
theorem dropWhile_concat (hq : q c = false) (s : List Char) :
    (s ++ [c]).dropWhile q = s.dropWhile q ++ [c] := by
  induction s with
  | nil => simp [hq]
  | cons x s ih =>
    rw [List.cons_append, List.dropWhile_cons, List.dropWhile_cons, ih]
    split_ifs <;> rfl

/-- Trimming on both sides does not mind a character at the end that the back trims. -/
theorem trim_concat (hq : q c = false) (hp : p c = true) (s : List Char) :
    ((s ++ [c]).dropWhile q).rdropWhile p = (s.dropWhile q).rdropWhile p := by
  rw [dropWhile_concat hq, List.rdropWhile_concat_pos _ _ _ hp]

/-! ### The text around a separator -/

variable {x : Char} {a : List Char}

theorem takeWhile_split (ha : x ∉ a) (b : List Char) :
    (a ++ x :: b).takeWhile (fun c => c != x) = a := by
  rw [List.takeWhile_append_of_pos, List.takeWhile_cons_of_neg, List.append_nil]
  · simp
  · intro c hc
    simpa using ne_of_mem_of_not_mem hc ha

theorem dropWhile_split (ha : x ∉ a) (b : List Char) :
    (a ++ x :: b).dropWhile (fun c => c != x) = x :: b := by
  rw [List.dropWhile_append_of_pos, List.dropWhile_cons_of_neg]
  · simp
  · intro c hc
    simpa using ne_of_mem_of_not_mem hc ha

end TextLines
