import OrbisCompat.Env.Origin

/-!
# Reading the files is assigning what they say

* `loadLine_eq`, `loadLine_concat`: a line stores what it assigns, with or without its newline.
* `loadLines_eq`: the loop over `fgets` goes over the lines of the text.
* `loadOnce_eq`: the table is that of all assignments in order.
-/

namespace OrbisCompat.Env

open TextLines

variable {g : CTable Entry} {l key val : List Char}

/-- A line, stored. -/
def storeLine (g : CTable Entry) (l : List Char) : CTable Entry :=
  (assignment commentMarks l).elim g fun e => store g e.1 e.2

/-! ### One line -/

theorem cString_of_not_mem (h : '\x00' ∉ l) : cString l = l := by
  unfold cString
  rw [List.takeWhile_eq_self_iff]
  intro c hc
  simpa using ne_of_mem_of_not_mem hc h

theorem loadLine_of_skips {line : List Char} (h : skips (trimFront (cString line)) = true) :
    loadLine g line = g :=
  if_pos h

theorem loadLine_of_not_mem {line : List Char} (h : '=' ∉ trimFront (cString line)) :
    loadLine g line = g := by
  unfold loadLine
  dsimp only
  rw [if_pos h, ite_self]

/-- A line with `'='` that is not skipped. -/
theorem loadLine_of_split {line a b : List Char} (hskip : skips (trimFront (cString line)) = false)
    (hsplit : trimFront (cString line) = a ++ '=' :: b) (ha : '=' ∉ a) :
    loadLine g line =
      if trimBack a ≠ [] then store g (trimBack a) (trimBack (trimFront b)) else g := by
  unfold loadLine
  dsimp only
  rw [if_neg (by rw [hskip]; decide), if_neg (by rw [hsplit]; simp), hsplit, takeWhile_split ha,
    dropWhile_split ha, List.tail_cons]

/-- A piece is stored, or nothing happens. -/
theorem loadLine_eq_elim (g : CTable Entry) (line : List Char) :
    loadLine g line = (stored line).elim g fun e => store g e.1 e.2 := by
  unfold loadLine stored
  dsimp only
  split_ifs <;> rfl

/-- The code and the grammar agree on every piece. -/
theorem stored_eq (line : List Char) : stored line = assignment skipMarks (cString line) := by
  unfold stored assignment trimFront trimBack
  dsimp only
  cases (cString line).dropWhile isBlank with
  | nil => simp [skips]
  | cons c s =>
    have hskip : skips (c :: s) = skipMarks.contains c := by
      rw [Bool.eq_iff_iff]
      simp [skips, skipMarks, or_assoc]
    by_cases hmark : skipMarks.contains c = true
    · rw [if_pos (hskip.trans hmark), if_pos (Or.inl (by simpa using hmark))]
    · rw [if_neg (by rwa [hskip])]
      by_cases heq : '=' ∈ c :: s
      · rw [if_neg (not_not.mpr heq)]
        by_cases hkey : ((c :: s).takeWhile fun c => c != '=').rdropWhile isSpace = []
        · rw [if_neg (not_not.mpr hkey), if_pos (Or.inr (Or.inr hkey))]
        · rw [if_pos hkey, if_neg (by simp_all)]
      · rw [if_pos heq, if_pos (Or.inr (Or.inl heq))]

/-- A line that does not start with a newline is skipped for the marks of the grammar alone. -/
theorem assignment_skipMarks (hnl : '\n' ∉ l) : assignment skipMarks l = assignment commentMarks l := by
  unfold assignment
  dsimp only
  cases hs : l.dropWhile isBlank with
  | nil => simp
  | cons c s =>
    have hmem : c ∈ l := (List.dropWhile_sublist _).subset (by rw [hs]; exact List.mem_cons_self)
    have hc : c ≠ '\n' := ne_of_mem_of_not_mem hmem hnl
    have hmark : skipMarks.contains c = true ↔ commentMarks.contains c = true := by
      simp [skipMarks, commentMarks, hc]
    exact if_congr (or_congr_left hmark) rfl rfl

/-- What a line says is what `load_file` does with it. -/
theorem loadLine_eq (hnul : '\x00' ∉ l) (hnl : '\n' ∉ l) : loadLine g l = storeLine g l := by
  rw [loadLine_eq_elim, stored_eq, cString_of_not_mem hnul, assignment_skipMarks hnl]
  rfl

/-- The newline at the end of a line makes no difference. -/
theorem loadLine_concat (hnul : '\x00' ∉ l) : loadLine g (l ++ ['\n']) = loadLine g l := by
  have hc := cString_of_not_mem hnul
  have hc' : cString (l ++ ['\n']) = l ++ ['\n'] := cString_of_not_mem (by simp [hnul])
  have hfront : trimFront (cString (l ++ ['\n'])) = trimFront (cString l) ++ ['\n'] := by
    rw [hc, hc']
    exact dropWhile_concat rfl l
  cases hs : trimFront (cString l) with
  | nil =>
    rw [loadLine_of_skips (by rw [hfront, hs]; rfl), loadLine_of_skips (by rw [hs]; rfl)]
  | cons c s =>
    by_cases hskip : skips (c :: s) = true
    · rw [loadLine_of_skips (by rw [hfront, hs]; exact hskip), loadLine_of_skips (by rw [hs]; exact hskip)]
    · rw [Bool.not_eq_true] at hskip
      by_cases heq : '=' ∈ c :: s
      · obtain ⟨a, b, hab, ha⟩ := List.eq_append_cons_of_mem heq
        have hval : trimBack (trimFront (b ++ ['\n'])) = trimBack (trimFront b) :=
          trim_concat rfl rfl b
        rw [loadLine_of_split (by rw [hfront, hs]; exact hskip)
            (by rw [hfront, hs, hab, List.append_assoc, List.cons_append]) ha,
          loadLine_of_split (by rw [hs]; exact hskip) (by rw [hs, hab]) ha, hval]
      · rw [loadLine_of_not_mem (by rw [hfront, hs]; simpa using heq),
          loadLine_of_not_mem (by rw [hs]; exact heq)]

/-! ### The loop -/

theorem store_eq_put (hkey : key.length ≤ 63) (hval : val.length ≤ 255) :
    store g key val = KeyTable.put kMaxEntries g key val := by
  have hkey' : snprintf keySize key = key := List.take_of_length_le hkey
  have hval' : snprintf valSize val = val := List.take_of_length_le hval
  unfold store KeyTable.put
  cases KeyTable.indexOf g key with
  | none =>
    dsimp only
    rw [hkey', hval']
  | some i =>
    dsimp only
    rw [hval']

/-- **The loop.** It goes over the lines of the text. -/
theorem loadLines_eq (text : List Char) : (∀ l ∈ lines text, l.length ≤ 510 ∧ '\x00' ∉ l) →
    ∀ {fuel : ℕ} {g : CTable Entry}, text.length ≤ fuel →
      loadLines fuel g text = (lines text).foldl storeLine g := by
  induction text using lineInduction with
  | hlast text hnot =>
    intro hlines fuel g hfuel
    rw [lines_last hnot] at hlines ⊢
    obtain ⟨hlen, hnul⟩ := hlines text List.mem_cons_self
    cases fuel with
    | zero =>
      obtain rfl : text = [] := List.eq_nil_of_length_eq_zero (Nat.le_zero.mp hfuel)
      rfl
    | succ fuel =>
      unfold loadLines
      split_ifs with hempty
      · rw [hempty]
        rfl
      · have hread : readLine (kMaxLine - 1) text = (text, []) :=
          readLine_last hnot (Nat.le_succ_of_le hlen)
        rw [hread, loadLine_eq hnul hnot]
        cases fuel with
        | zero => rfl
        | succ fuel => rfl
  | hline line rest hnot ih =>
    intro hlines fuel g hfuel
    rw [lines_line hnot] at hlines ⊢
    obtain ⟨hlen, hnul⟩ := hlines line List.mem_cons_self
    cases fuel with
    | zero => simp at hfuel
    | succ fuel =>
      have hread : readLine (kMaxLine - 1) (line ++ '\n' :: rest) = (line ++ ['\n'], rest) :=
        readLine_line hnot rest (Nat.lt_succ_of_le hlen)
      unfold loadLines
      rw [if_neg (by simp), hread, loadLine_concat hnul,
        loadLine_eq hnul hnot, List.foldl_cons]
      refine ih (fun l hl => hlines l (List.mem_cons_of_mem _ hl)) ?_
      rw [List.length_append, List.length_cons] at hfuel
      omega

theorem loadFile_eq {file : EnvFile} {fs : Files}
    (hlines : ∀ l ∈ ((fs file).map lines).getD [], l.length ≤ 510 ∧ '\x00' ∉ l) (g : CTable Entry) :
    loadFile g (fs file) = (((fs file).map lines).getD []).foldl storeLine g := by
  cases hfile : fs file with
  | none => rfl
  | some text =>
    rw [hfile] at hlines
    exact loadLines_eq text hlines le_rfl

/-! ### All files -/

/-- Storing what lines assign. -/
theorem foldl_storeLine (ls : List (List Char)) : ∀ (g : CTable Entry),
    (∀ e ∈ ls.filterMap (assignment commentMarks), e.1.length ≤ 63 ∧ e.2.length ≤ 255) →
    ls.foldl storeLine g =
      KeyTable.putAll kMaxEntries g (ls.filterMap (assignment commentMarks)) := by
  induction ls with
  | nil => exact fun g _ => rfl
  | cons l ls ih =>
    intro g hsize
    rw [List.foldl_cons]
    cases hl : assignment commentMarks l with
    | none =>
      rw [List.filterMap_cons_none hl] at hsize ⊢
      have hstore : storeLine g l = g := by
        unfold storeLine
        rw [hl]
        rfl
      rw [hstore]
      exact ih g hsize
    | some e =>
      rw [List.filterMap_cons_some hl] at hsize ⊢
      obtain ⟨hkey, hval⟩ := hsize e List.mem_cons_self
      have hstore : storeLine g l = KeyTable.put kMaxEntries g e.1 e.2 := by
        unfold storeLine
        rw [hl]
        exact store_eq_put hkey hval
      rw [hstore]
      exact ih _ fun e he => hsize e (List.mem_cons_of_mem _ he)

/-- The files in order are their lines in order. -/
theorem foldl_loadFile {fs : Files} (files : List EnvFile)
    (hlines : ∀ l ∈ files.flatMap fun file => ((fs file).map lines).getD [],
      l.length ≤ 510 ∧ '\x00' ∉ l) (g : CTable Entry) :
    files.foldl (fun g file => loadFile g (fs file)) g =
      (files.flatMap fun file => ((fs file).map lines).getD []).foldl storeLine g := by
  induction files generalizing g with
  | nil => rfl
  | cons file files ih =>
    rw [List.flatMap_cons] at hlines ⊢
    rw [List.foldl_cons, List.foldl_append,
      loadFile_eq (fun l hl => hlines l (List.mem_append_left _ hl)),
      ih fun l hl => hlines l (List.mem_append_right _ hl)]

/-- **Loading.** On admissible files the table is that of all assignments in order. -/
theorem loadOnce_eq {fs : Files} (h : Admissible commentMarks fs) :
    (loadOnce fs State.init).entry =
      KeyTable.putAll kMaxEntries State.init.entry (assignments commentMarks fs) :=
  (foldl_loadFile EnvFile.order h.line _).trans (foldl_storeLine _ _ h.entry)

end OrbisCompat.Env
