import OrbisCompat.Env.Equiv.Load

/-!
# Which texts are read line by line

* `loadFile_eq_foldl`: `load_file` stores what its pieces say, one after another; for a piece, that is what the
  grammar of the files makes of it as a line (`stored_eq`).
* `fromBeginnings_iff`: only beginnings of lines are stored exactly when the tails of the over-long ones
  assign nothing (`TailsIdle`).  A comment of `kMaxLine - 1` characters that goes on with an assignment
  is one of the others (`not_fromBeginnings_comment`).
-/

namespace OrbisCompat.Env

open TextLines

variable {g : CTable Entry} {text line b p : List Char} {e : Entry} {key val : List Char}

/-! ### One piece -/

@[simp] theorem stored_nil : stored [] = none := rfl

/-- Blanks are part of the string. -/
theorem cString_blanks (hb : ∀ c ∈ b, isBlank c = true) (p : List Char) :
    cString (b ++ p) = b ++ cString p := by
  refine List.takeWhile_append_of_pos fun c hc => ?_
  have hblank := hb c hc
  have hne : c ≠ '\x00' := by
    rintro rfl
    exact absurd hblank (by decide)
  simpa using hne

/-- Blanks in front make no difference to an assignment. -/
theorem assignment_blanks (marks : List Char) (hb : ∀ c ∈ b, isBlank c = true) (p : List Char) :
    assignment marks (cString (b ++ p)) = assignment marks (cString p) := by
  unfold assignment
  rw [cString_blanks hb, List.dropWhile_append_of_pos hb]

/-- A line whose beginning assigns something is no comment. -/
theorem isComment_eq_false (h : assignment skipMarks (cString b) = some e) (hl : b <+: line) :
    isComment line = false := by
  obtain ⟨rest, rfl⟩ := hl
  have hstring : cString b ++ b.dropWhile (fun c => c != '\x00') = b := List.takeWhile_append_dropWhile
  unfold assignment at h
  unfold isComment
  rw [← hstring, List.append_assoc, List.dropWhile_append]
  -- what is assigned stands in the string, so its first character decides
  cases hs : (cString b).dropWhile isBlank with
  | nil => simp [hs] at h
  | cons c s =>
    rw [hs] at h
    have hmark : ¬ skipMarks.contains c = true := by
      intro hmark
      simp_all
    have hc : c ≠ '#' := by
      rintro rfl
      exact hmark (by decide)
    simpa using hc

/-! ### The loop -/

theorem loadLines_eq_foldl (fuel : ℕ) : ∀ (g : CTable Entry) (before text : List Char),
    loadLines fuel g text =
      (reads (kMaxLine - 1) fuel before text).foldl (fun g x => loadLine g x.2) g := by
  induction fuel with
  | zero => exact fun g before text => rfl
  | succ fuel ih =>
    intro g before text
    rw [loadLines, reads]
    split_ifs with hempty
    · rfl
    · exact ih _ _ _

/-- **Loading a text.** Its pieces are loaded one after another. -/
theorem loadFile_eq_foldl (g : CTable Entry) (text : List Char) :
    loadFile g (some text) = (pieces text).foldl (fun g x => loadLine g x.2) g :=
  loadLines_eq_foldl text.length g [] text

theorem keys_store (h : p ∈ KeyTable.keys (store g key val)) :
    p ∈ KeyTable.keys g ∨ p = snprintf keySize key := by
  unfold store at h
  split at h
  · rw [KeyTable.keys_set] at h
    exact Or.inl h
  · split_ifs at h
    · exact Or.inl h
    · rw [KeyTable.keys_push] at h
      simpa using h

/-- The keys that pieces add. -/
theorem keys_foldl_loadLine (xs : List (List Char × List Char)) : ∀ (g : CTable Entry),
    p ∈ KeyTable.keys (xs.foldl (fun g x => loadLine g x.2) g) →
      p ∈ KeyTable.keys g ∨ ∃ x ∈ xs, ∃ e, stored x.2 = some e ∧ p = snprintf keySize e.1 := by
  induction xs with
  | nil => exact fun g h => Or.inl h
  | cons x xs ih =>
    intro g h
    rcases ih _ h with hg | ⟨y, hy, hstored⟩
    · dsimp only at hg
      rw [loadLine_eq_elim] at hg
      cases hx : stored x.2 with
      | none =>
        rw [hx] at hg
        exact Or.inl hg
      | some e =>
        rw [hx] at hg
        rcases keys_store hg with hg | hkey
        · exact Or.inl hg
        · exact Or.inr ⟨x, List.mem_cons_self, e, hx, hkey⟩
    · exact Or.inr ⟨y, List.mem_cons_of_mem _ hy, hstored⟩

/-! ### Beginnings of lines -/

theorem mem_pieces {x : List Char × List Char} : x ∈ pieces text ↔
    ∃ l ∈ wholeLines text, ∃ k, (kMaxLine - 1) * k < l.length ∧
      x = (l.take ((kMaxLine - 1) * k), (l.drop ((kMaxLine - 1) * k)).take (kMaxLine - 1)) :=
  mem_reads (by decide) text le_rfl

/-- A piece behind blanks begins its line. -/
theorem beginning_of_blank {x : List Char × List Char} (hx : x ∈ pieces text)
    (hb : ∀ c ∈ x.1, isBlank c = true) (he : stored x.2 = some e) : Beginning text (x.1 ++ x.2) e := by
  obtain ⟨l, hl, k, -, rfl⟩ := mem_pieces.mp hx
  have hassign := (assignment_blanks skipMarks hb _).trans ((stored_eq _).symm.trans he)
  have hbegin : l.take ((kMaxLine - 1) * k) ++ (l.drop ((kMaxLine - 1) * k)).take (kMaxLine - 1) <+:
      l := by
    rw [← List.take_add]
    exact List.take_prefix _ l
  exact ⟨⟨l, hl, isComment_eq_false hassign hbegin, hbegin⟩, hassign⟩

/-- The keys come from what is parsed. -/
theorem FromBeginnings.of_parsed (h : ∀ x ∈ pieces text, ∀ e, stored x.2 = some e →
    (∀ c ∈ x.1, isBlank c = true) ∧ Beginning text (x.1 ++ x.2) e) : FromBeginnings text := by
  refine ⟨h, fun g key hkey => ?_⟩
  rw [loadFile_eq_foldl] at hkey
  rcases keys_foldl_loadLine _ g hkey with hg | ⟨x, hx, e, he, rfl⟩
  · exact Or.inl hg
  · exact Or.inr ⟨_, e, (h x hx e he).2, rfl⟩

/-- In such a text, blanks stand before a piece that assigns something. -/
theorem FromBeginnings.blank (h : FromBeginnings text) (hl : line ∈ wholeLines text) {k : ℕ}
    (he : stored ((line.drop ((kMaxLine - 1) * k)).take (kMaxLine - 1)) = some e) {c : Char}
    (hc : c ∈ line.take ((kMaxLine - 1) * k)) : isBlank c = true := by
  have hk : (kMaxLine - 1) * k < line.length := by
    by_contra hk
    rw [List.drop_eq_nil_of_le (not_lt.mp hk)] at he
    simp at he
  exact (h.parsed _ (mem_pieces.mpr ⟨line, hl, k, hk, rfl⟩) e he).1 c hc

/-- **Which texts.** Those in which no tail of an over-long line is an assignment. -/
theorem fromBeginnings_iff (text : List Char) : FromBeginnings text ↔ TailsIdle text := by
  constructor
  · -- a tail that is an assignment would be stored, behind something else
    intro h l hl k hc
    obtain ⟨c, hc, hblank⟩ := hc
    rw [← stored_eq]
    by_contra hne
    obtain ⟨e, he⟩ := Option.ne_none_iff_exists'.mp hne
    rw [h.blank hl he hc] at hblank
    exact Bool.false_ne_true hblank.symm
  · intro hidle
    refine FromBeginnings.of_parsed fun x hx e he => ?_
    -- a piece that is stored is no tail
    have hb : ∀ c ∈ x.1, isBlank c = true := by
      obtain ⟨l, hl, k, -, rfl⟩ := mem_pieces.mp hx
      intro c hc
      by_contra hblank
      have hnone := hidle l hl k ⟨c, hc, Bool.not_eq_true _ ▸ hblank⟩
      rw [← stored_eq, he] at hnone
      exact absurd hnone (Option.some_ne_none e)
    exact ⟨hb, beginning_of_blank hx hb he⟩

/-- A comment of `kMaxLine - 1` characters, and an assignment behind them. -/
def overlongComment : List Char := '#' :: (List.replicate 510 'x' ++ "A=1\n".toList)

/-- Its tail is stored. -/
theorem not_fromBeginnings_comment : ¬ FromBeginnings overlongComment := by
  intro h
  have hline : overlongComment ∈ wholeLines overlongComment := by decide +kernel
  have hstored : stored ((overlongComment.drop ((kMaxLine - 1) * 1)).take (kMaxLine - 1)) =
      some (['A'], ['1']) := by
    decide +kernel
  have hmark : '#' ∈ overlongComment.take ((kMaxLine - 1) * 1) := by
    decide +kernel
  exact absurd (h.blank hline hstored hmark) (by decide)

end OrbisCompat.Env
