import OrbisCompat.Env.Equiv.Load

/-!
# `orbis_env_get` answers the last assignment

`orbisEnvGet_eq_lastValue`: on admissible files, and for a name that the environment of the process
does not set, the answer is the value assigned to it last, whatever was asked before.  A line that starts
with CR is no assignment (`carriageReturn_skipped`).
-/

namespace OrbisCompat.Env

variable {fs : Files}

/-- The files are read as they would be by the first call. -/
theorem loadOnce_after (fs : Files) (earlier : List (Environ × Option (List Char))) :
    loadOnce fs (after fs earlier) = loadOnce fs State.init := by
  induction earlier using List.reverseRecOn with
  | nil => rfl
  | append_singleton earlier c ih =>
    have hafter : after fs (earlier ++ [c]) = (orbisEnvGet fs c.1 (after fs earlier) c.2).1 :=
      List.foldl_append
    have hidem : ∀ st, loadOnce fs (loadOnce fs st) = loadOnce fs st := by
      intro st
      have hloaded : (loadOnce fs st).loaded = true := by
        unfold loadOnce
        split_ifs with h
        · exact h
        · rfl
      rw [loadOnce, if_pos hloaded]
    rw [hafter, ← ih]
    -- a call loads the files, or leaves everything as it was
    unfold orbisEnvGet
    split
    · rfl
    · split_ifs
      · rfl
      · split
        · rfl
        · exact hidem _

/-- **Answers.** The value of the last assignment, and a null pointer when there is none. -/
theorem orbisEnvGet_eq_lastValue (h : Admissible commentMarks fs)
    (earlier : List (Environ × Option (List Char))) {environ : Environ} {name : List Char}
    (hname : name ≠ []) (henv : environ name = none ∨ environ name = some []) :
    (orbisEnvGet fs environ (after fs earlier) (some name)).2 =
        KeyTable.lastValue (assignments commentMarks fs) name ∧
      ((orbisEnvGet fs environ (after fs earlier) (some name)).2 = none ↔
        ∀ e ∈ assignments commentMarks fs, e.1 ≠ name) := by
  have hfiles : (orbisEnvGet fs environ (after fs earlier) (some name)).2 =
      KeyTable.find (loadOnce fs (after fs earlier)).entry name := by
    unfold orbisEnvGet
    dsimp only
    rw [if_neg hname]
    rcases henv with henv | henv <;> rw [henv]
  have hlast : KeyTable.find (KeyTable.putAll kMaxEntries State.init.entry
      (assignments commentMarks fs)) name = KeyTable.lastValue (assignments commentMarks fs) name :=
    KeyTable.find_putAll _ h.keys name
  rw [hfiles, loadOnce_after, loadOnce_eq h, hlast]
  exact ⟨rfl, KeyTable.lastValue_eq_none⟩

/-- Comments, blanks, CRLF, an empty value, a second `'='`, an empty key, no newline at the end. -/
def sampleFiles : Files
  | .orbis => some "# A=0\r\n\t A = 1 \r\n\r\nB= x = y\n=2\n".toList
  | .retroarch => some "B=\nA=3".toList
  | _ => none

theorem sampleFiles_admissible : Admissible commentMarks sampleFiles :=
  ⟨by decide +kernel, by decide +kernel, by decide +kernel⟩

theorem orbisEnvGet_sampleFiles :
    (orbisEnvGet sampleFiles (fun _ => none) (after sampleFiles []) (some ['A'])).2 = some ['3'] :=
  (orbisEnvGet_eq_lastValue sampleFiles_admissible [] (by decide) (Or.inl rfl)).1.trans
    (by decide +kernel)

/-- A line that starts with CR. -/
def carriageReturn : Files
  | .orbis => some "\rA=1\n".toList
  | _ => none

/-- The guard for blank lines takes it for one. -/
theorem carriageReturn_skipped : Admissible ['#'] carriageReturn ∧
    (orbisEnvGet carriageReturn (fun _ => none) State.init (some ['\r', 'A'])).2 = none ∧
    KeyTable.lastValue (assignments ['#'] carriageReturn) ['\r', 'A'] = some ['1'] :=
  ⟨⟨by decide +kernel, by decide +kernel, by decide +kernel⟩, by decide +kernel, by decide +kernel⟩

end OrbisCompat.Env
