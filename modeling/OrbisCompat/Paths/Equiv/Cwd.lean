import OrbisCompat.Paths.Cwd
import OrbisCompat.Stat.Equiv.Readers

/-!
# The process has a working directory

Where all paths of a call are resolved against one root, the call does what it does in a process with that working directory
(`call_eq`).  Before the first relative path any root will do; that path decides it, once and for the rest of the run.
-/

namespace OrbisCompat.Paths

variable {K : Type} {lib : Libkernel K} {hdr : Headers} {root : List Char} {s : Proc K} {c : Call} {path : Path}

/-! ### One path -/

/-- A string without the terminator in it. -/
def IsString (s : List Char) : Prop := '\x00' ∉ s

theorem length_pathBuffer : pathBuffer.length = 512 := List.length_replicate

/-- With the root decided. -/
theorem anchorPath_eq (hs : s.root = some root) (hroot : IsString root) (hpath : ∀ p, path = some p → IsString p) :
    anchorPath lib path pathBuffer s = some (absolutize root path, s) := by
  cases path with
  | none => rfl
  | some p =>
    rw [anchorPath, absolutize]
    by_cases habs : p.head? = some '/' ∨ p = []
    · rw [if_pos habs, if_pos habs]
    · rw [if_neg habs, if_neg habs, anchorRoot, hs]
      dsimp only
      rw [length_pathBuffer]
      by_cases hlong : root.length + p.length + 1 > 512
      · rw [if_pos hlong, if_pos hlong]
      · -- the root and then the path with its terminator fit into the array
        have hfit : (p ++ ['\x00']).length ≤ (pathBuffer.drop root.length).length := by
          rw [List.length_append, List.length_singleton, List.length_drop, length_pathBuffer]
          omega
        have hnul : '\x00' ∉ root ++ p := fun hmem => (List.mem_append.mp hmem).elim hroot (hpath p rfl)
        rw [if_neg hlong, if_neg hlong, Buffer.storeFrom_zero (by rw [length_pathBuffer]; omega), Option.bind_eq_bind,
          Option.bind_some, Buffer.storeFrom_append _ hfit, Option.bind_some, List.append_assoc, ← List.append_assoc,
          List.singleton_append, Buffer.cstr_append hnul]
        rfl

/-- Without a relative path the root does not matter. -/
theorem anchorPath_of_not_relative (h : isRelative path = false) (root : List Char) (s : Proc K) :
    anchorPath lib path pathBuffer s = some (absolutize root path, s) := by
  cases path with
  | none => rfl
  | some p =>
    have habs := not_not.mp (of_decide_eq_false h)
    rw [anchorPath, absolutize, if_pos habs, if_pos habs]

/-- With a relative path the root is decided first. -/
theorem anchorPath_of_relative (h : isRelative path = true) (s : Proc K) :
    anchorPath lib path pathBuffer s = anchorPath lib path pathBuffer (anchorRoot lib s).2 := by
  cases path with
  | none => cases h
  | some p =>
    have hrel := of_decide_eq_true h
    have hagain : anchorRoot lib (anchorRoot lib s).2 = anchorRoot lib s := by
      rcases hs : s.root with _ | r
      · rw [anchorRoot.eq_def lib s, hs]
        rfl
      · rw [anchorRoot.eq_def lib s, hs]
        dsimp only
        rw [anchorRoot, hs]
    rw [anchorPath, anchorPath, if_neg hrel, if_neg hrel, hagain]

/-! ### One call -/

/-- The path is resolved against `root`, whatever the kernel does in between. -/
def Resolves (lib : Libkernel K) (root : List Char) (s : Proc K) (path : Path) : Prop :=
  ∀ t : Proc K, t.root = s.root → anchorPath lib path pathBuffer t = some (absolutize root path, t)

/-- What a call leaves as it is. -/
structure Keeps (s t : Proc K) : Prop where
  root : t.root = s.root
  rootDecided : t.rootDecided = s.rootDecided
  rootOverride : t.rootOverride = s.rootOverride

/-- A call that ends with an SCE code. -/
theorem answer_sce (rc : ℕ) (s : Proc K) :
    ∃ t, answer (if rc ≠ 0 then sceFailure rc s else (0, s)) = (posixAnswer rc, t) ∧ t.kernel = s.kernel ∧ Keeps s t := by
  unfold posixAnswer
  split_ifs with hrc
  · exact ⟨_, rfl, rfl, rfl, rfl, rfl⟩
  · exact ⟨s, rfl, rfl, rfl, rfl, rfl⟩

theorem unlink_eq (h : Resolves lib root s path) :
    ∃ t, (unlink lib path s).map answer = some (posixAnswer (lib.unlink (absolutize root path) s.kernel).1, t) ∧
      t.kernel = (lib.unlink (absolutize root path) s.kernel).2 ∧ Keeps s t := by
  unfold unlink
  rw [h s rfl, Option.bind_eq_bind, Option.bind_some]
  obtain ⟨t, ha, hk, hr, hd, ho⟩ := answer_sce (lib.unlink (absolutize root path) s.kernel).1
    { s with kernel := (lib.unlink (absolutize root path) s.kernel).2 }
  exact ⟨t, congrArg some ha, hk, hr, hd, ho⟩

theorem stat_eq {out : Option FlatMem} (h : out.isSome → Resolves lib root s path) :
    ∃ t, (stat lib hdr path out s).map answerStat = some ((cwdStat lib hdr root path out s.kernel).1, t) ∧
      t.kernel = (cwdStat lib hdr root path out s.kernel).2 ∧ Keeps s t := by
  cases path with
  | none => cases out <;> exact ⟨_, rfl, rfl, rfl, rfl, rfl⟩
  | some p =>
    cases out with
    | none => exact ⟨_, rfl, rfl, rfl, rfl, rfl⟩
    | some st =>
      unfold stat cwdStat
      dsimp only
      rw [h rfl s rfl, Option.bind_eq_bind, Option.bind_some]
      dsimp only
      split_ifs with hrc
      · exact ⟨_, rfl, rfl, rfl, rfl, rfl⟩
      · exact ⟨_, rfl, rfl, rfl, rfl, rfl⟩

/-- The mode that `remove` reads is the kernel's. -/
theorem remove_eq (hhdr : Stat.Measured hdr.stat) (h : Resolves lib root s path) (st : FlatMem) :
    ∃ t, (remove lib hdr path st s).map answer = some ((cwdRemove lib root path s.kernel).1, t) ∧
      t.kernel = (cwdRemove lib root path s.kernel).2 ∧ Keeps s t := by
  cases path with
  | none => exact ⟨_, rfl, rfl, rfl, rfl, rfl⟩
  | some p =>
    unfold remove stat cwdRemove
    dsimp only
    rw [h s rfl]
    simp only [Option.bind_eq_bind, Option.bind_some]
    set raw := (lib.stat (absolutize root (some p)) s.kernel).2.1 with hraw
    have hmode : hdr.stat.get (Stat.translate hdr.stat raw st) .mode = Stat.kernel.get raw .mode :=
      Stat.sdk_reads hhdr (by decide)
    by_cases hrc : (lib.stat (absolutize root (some p)) s.kernel).1 ≠ 0
    · rw [if_pos hrc, if_pos hrc]
      exact ⟨_, rfl, rfl, rfl, rfl, rfl⟩
    · rw [if_neg hrc, if_neg hrc, Option.bind_some]
      dsimp only
      rw [Option.any_some, hmode, if_neg (not_not.mpr rfl)]
      have hres : ∀ t : Proc K, t.root = s.root → Resolves lib root t (some p) := fun t ht u hu => h u (hu.trans ht)
      by_cases hdir : S_ISDIR (Stat.kernel.get raw .mode) = true
      · rw [if_neg (not_not.mpr hdir), if_pos hdir,
          h { s with kernel := (lib.stat (absolutize root (some p)) s.kernel).2.2 } rfl, Option.bind_some]
        dsimp only
        obtain ⟨t, ha, hk, hr, hd, ho⟩ := answer_sce
          (lib.rmdir (absolutize root (some p)) (lib.stat (absolutize root (some p)) s.kernel).2.2).1
          { s with kernel := (lib.rmdir (absolutize root (some p)) (lib.stat (absolutize root (some p)) s.kernel).2.2).2 }
        exact ⟨t, congrArg some ha, hk, hr, hd, ho⟩
      · rw [if_pos hdir, if_neg hdir]
        obtain ⟨t, ha, hk, hr, hd, ho⟩ := unlink_eq (hres
          { s with kernel := (lib.stat (absolutize root (some p)) s.kernel).2.2 } rfl)
        exact ⟨t, ha, hk, hr, hd, ho⟩

theorem open_eq (h : Resolves lib root s path) (flags mode : ℕ) :
    ∃ t, (open_ lib hdr path flags mode s).map answer = some ((cwdOpen lib hdr root path flags mode s.kernel).1, t) ∧
      t.kernel = (cwdOpen lib hdr root path flags mode s.kernel).2 ∧ Keeps s t := by
  unfold open_ cwdOpen
  rcases hr : lib.open_ (absolutize root path) flags (if wantsMode hdr flags = true then mode else 0) s.kernel with ⟨e | fd, k⟩
  · simp only [h s rfl, Option.bind_eq_bind, Option.bind_some, hr, Except.map, returns]
    rw [if_neg fun hand => absurd hand.1 (by decide)]
    exact ⟨{ s with kernel := k, errno := e }, rfl, rfl, rfl, rfl, rfl⟩
  · have hfd : ∀ t : Proc K, answer ((fd : ℤ), t) = (.done fd, t) := by
      intro t
      unfold answer
      rw [if_neg (by omega)]
    simp only [h s rfl, Option.bind_eq_bind, Option.bind_some, hr, Except.map, returns]
    by_cases hclo : (hdr.O_CLOEXEC.any fun m => flags &&& m ≠ 0) = true
    · rw [if_pos ⟨Int.natCast_nonneg fd, hclo⟩, if_pos hclo, Option.map_some, hfd]
      exact ⟨_, rfl, rfl, rfl, rfl, rfl⟩
    · rw [if_neg fun hand => hclo hand.2, if_neg hclo, Option.map_some, hfd]
      exact ⟨_, rfl, rfl, rfl, rfl, rfl⟩

theorem rename_eq {src dst : Path} (hsrc : Resolves lib root s src) (hdst : Resolves lib root s dst) :
    ∃ t, (rename lib src dst s).map answer =
        some (posixAnswer (lib.rename (absolutize root src) (absolutize root dst) s.kernel).1, t) ∧
      t.kernel = (lib.rename (absolutize root src) (absolutize root dst) s.kernel).2 ∧ Keeps s t := by
  unfold rename
  rw [hsrc s rfl, Option.bind_eq_bind, Option.bind_some]
  dsimp only
  rw [hdst s rfl, Option.bind_some]
  obtain ⟨t, ha, hk, hr, hd, ho⟩ := answer_sce (lib.rename (absolutize root src) (absolutize root dst) s.kernel).1
    { s with kernel := (lib.rename (absolutize root src) (absolutize root dst) s.kernel).2 }
  exact ⟨t, congrArg some ha, hk, hr, hd, ho⟩

/-- What a call makes of the statics, apart from a decision. -/
structure After (c : Call) (s t : Proc K) : Prop where
  root : t.root = s.root
  rootDecided : t.rootDecided = s.rootDecided
  rootOverride : t.rootOverride = if s.rootDecided then s.rootOverride else c.override s.rootOverride

theorem Keeps.after {t : Proc K} (h : Keeps s t) (hc : c.override s.rootOverride = s.rootOverride) : After c s t where
  root := h.root
  rootDecided := h.rootDecided
  rootOverride := by rw [h.rootOverride, hc, ite_self]

/-- **One call** whose paths are resolved against `root` is the call of a process with that working directory. -/
theorem call_eq (hhdr : Stat.Measured hdr.stat) (h : ∀ p ∈ c.paths hdr, Resolves lib root s p) :
    ∃ t, call lib hdr c s = some ((cwdCall lib hdr root c s.kernel).1, t) ∧
      t.kernel = (cwdCall lib hdr root c s.kernel).2 ∧ After c s t := by
  cases c with
  | setAnchorRoot path =>
    cases path with
    | none => exact ⟨s, rfl, rfl, rfl, rfl, by rw [Call.override, ite_self]; simp⟩
    | some p =>
      rw [call, setAnchorRoot, cwdCall]
      by_cases habs : p.head? ≠ some '/'
      · rw [if_pos habs]
        exact ⟨s, rfl, rfl, rfl, rfl, by rw [Call.override, if_pos habs, ite_self]⟩
      · rw [if_neg habs]
        by_cases hdec : s.rootDecided = true
        · rw [if_pos hdec]
          exact ⟨s, rfl, rfl, rfl, rfl, by rw [if_pos hdec]⟩
        · rw [if_neg hdec]
          exact ⟨_, rfl, rfl, rfl, rfl, by rw [if_neg hdec, Call.override, if_neg habs]⟩
  | open_ path flags mode =>
    obtain ⟨t, ha, hk, ht⟩ := @open_eq K lib hdr root s path (h path (List.mem_singleton_self _)) flags mode
    exact ⟨t, ha, hk, ht.after rfl⟩
  | unlink path =>
    obtain ⟨t, ha, hk, ht⟩ := unlink_eq (h path (List.mem_singleton_self _))
    exact ⟨t, ha, hk, ht.after rfl⟩
  | rename src dst =>
    obtain ⟨t, ha, hk, ht⟩ := rename_eq (h src List.mem_cons_self) (h dst (List.mem_cons_of_mem _ List.mem_cons_self))
    exact ⟨t, ha, hk, ht.after rfl⟩
  | remove path st =>
    obtain ⟨t, ha, hk, ht⟩ := remove_eq hhdr (h path (List.mem_singleton_self _)) st
    exact ⟨t, ha, hk, ht.after rfl⟩
  | stat path out =>
    obtain ⟨t, ha, hk, ht⟩ := @stat_eq K lib hdr root s path out fun hout =>
      h path (by rw [Call.paths, if_pos hout]; exact List.mem_singleton_self _)
    exact ⟨t, ha, hk, ht.after rfl⟩
  | lstat path out =>
    obtain ⟨t, ha, hk, ht⟩ := @stat_eq K lib hdr root s path out fun hout =>
      h path (by rw [Call.paths, if_pos hout]; exact List.mem_singleton_self _)
    exact ⟨t, ha, hk, ht.after rfl⟩
  | fstatat fd path out =>
    cases path with
    | none => cases out <;> exact ⟨_, rfl, rfl, Keeps.after ⟨rfl, rfl, rfl⟩ rfl⟩
    | some p =>
      cases out with
      | none => exact ⟨_, rfl, rfl, Keeps.after ⟨rfl, rfl, rfl⟩ rfl⟩
      | some st =>
        rw [call, fstatat, cwdCall]
        by_cases hat : p.head? = some '/' ∨ fd = hdr.AT_FDCWD
        · rw [if_pos hat, if_pos hat]
          have hres : Resolves lib root s (some p) := by
            by_cases hfd : fd = hdr.AT_FDCWD
            · exact h _ (by rw [Call.paths, if_pos ⟨rfl, .inl hfd⟩]; exact List.mem_singleton_self _)
            · -- an absolute path
              have habs : isRelative (some p) = false := decide_eq_false (not_not.mpr (.inl (hat.resolve_right hfd)))
              exact fun t _ => anchorPath_of_not_relative habs root t
          obtain ⟨t, ha, hk, ht⟩ := @stat_eq K lib hdr root s _ (some st) fun _ => hres
          exact ⟨t, ha, hk, ht.after rfl⟩
        · rw [if_neg hat, if_neg hat]
          exact ⟨_, rfl, rfl, Keeps.after ⟨rfl, rfl, rfl⟩ rfl⟩
  | fstat fd out =>
    cases out with
    | none => exact ⟨_, rfl, rfl, Keeps.after ⟨rfl, rfl, rfl⟩ rfl⟩
    | some st =>
      rw [call, fstat, cwdCall]
      rcases lib.fstat fd s.kernel with ⟨e | raw, k⟩
      · exact ⟨_, rfl, rfl, Keeps.after ⟨rfl, rfl, rfl⟩ rfl⟩
      · exact ⟨_, rfl, rfl, Keeps.after ⟨rfl, rfl, rfl⟩ rfl⟩

/-! ### A run -/

/-- What the program passes are strings. -/
structure Call.Strings (hdr : Headers) (c : Call) : Prop where
  paths : ∀ path ∈ c.paths hdr, ∀ p, path = some p → IsString p
  override : ∀ p, c = .setAnchorRoot (some p) → IsString p

/-- With the root decided, a run is that of a process with a working directory. -/
theorem calls_decided (hhdr : Stat.Measured hdr.stat) {cs : List Call} (hs : s.root = some root) (hroot : IsString root)
    (hcs : ∀ c ∈ cs, c.Strings hdr) :
    ∃ t, calls lib hdr cs s = some ((cwdCalls lib hdr root cs s.kernel).1, t) ∧
      t.kernel = (cwdCalls lib hdr root cs s.kernel).2 := by
  induction cs generalizing s with
  | nil => exact ⟨s, rfl, rfl⟩
  | cons c cs ih =>
    have hres : ∀ p ∈ c.paths hdr, Resolves lib root s p := by
      intro p hp t ht
      exact anchorPath_eq (ht.trans hs) hroot ((hcs c List.mem_cons_self).paths p hp)
    obtain ⟨t, hcall, hk, hafter⟩ := call_eq hhdr hres
    obtain ⟨u, hrest, hk'⟩ := ih (hafter.root.trans hs) fun c hc => hcs c (List.mem_cons_of_mem _ hc)
    refine ⟨u, ?_, ?_⟩
    · rw [calls, hcall, Option.bind_eq_bind, Option.bind_some]
      dsimp only
      rw [hrest, Option.bind_eq_bind, Option.bind_some, hk]
      rfl
    · rw [hk', hk]
      rfl

/-- Before the first relative path, any working directory will do. -/
theorem calls_undecided (hhdr : Stat.Measured hdr.stat) {cs : List Call} (hs : s.rootDecided = false)
    (hcs : ∀ c ∈ cs, c.isRelative hdr = false) (root : List Char) :
    ∃ t, calls lib hdr cs s = some ((cwdCalls lib hdr root cs s.kernel).1, t) ∧
      t.kernel = (cwdCalls lib hdr root cs s.kernel).2 ∧ t.root = s.root ∧ t.rootDecided = false ∧
      t.rootOverride = cs.foldl Call.override s.rootOverride := by
  induction cs generalizing s with
  | nil => exact ⟨s, rfl, rfl, rfl, hs, rfl⟩
  | cons c cs ih =>
    have hres : ∀ p ∈ c.paths hdr, Resolves lib root s p := by
      intro p hp t _
      have hrel := List.any_eq_false.mp (hcs c List.mem_cons_self) p hp
      exact anchorPath_of_not_relative (Bool.eq_false_iff.mpr hrel) root t
    obtain ⟨t, hcall, hk, hafter⟩ := call_eq hhdr hres
    obtain ⟨u, hrest, hk', hr, hd, ho⟩ := ih (hafter.rootDecided.trans hs) fun c hc => hcs c (List.mem_cons_of_mem _ hc)
    refine ⟨u, ?_, ?_, hr.trans hafter.root, hd, ?_⟩
    · rw [calls, hcall, Option.bind_eq_bind, Option.bind_some]
      dsimp only
      rw [hrest, Option.bind_eq_bind, Option.bind_some, hk]
      rfl
    · rw [hk', hk]
      rfl
    · rw [ho, hafter.rootOverride, hs]
      rfl

/-! ### The first relative path -/

theorem open_of_relative (h : isRelative path = true) (flags mode : ℕ) (s : Proc K) :
    open_ lib hdr path flags mode s = open_ lib hdr path flags mode (anchorRoot lib s).2 := by
  unfold open_
  rw [anchorPath_of_relative h s]

theorem unlink_of_relative (h : isRelative path = true) (s : Proc K) :
    unlink lib path s = unlink lib path (anchorRoot lib s).2 := by
  unfold unlink
  rw [anchorPath_of_relative h s]

theorem rename_of_relative {src dst : Path} (h : isRelative src = true ∨ isRelative dst = true) (s : Proc K) :
    rename lib src dst s = rename lib src dst (anchorRoot lib s).2 := by
  unfold rename
  by_cases hsrc : isRelative src = true
  · rw [anchorPath_of_relative hsrc s]
  · have hsrc' := Bool.eq_false_iff.mpr hsrc
    rw [anchorPath_of_not_relative hsrc' [] s, anchorPath_of_not_relative hsrc' [] (anchorRoot lib s).2,
      Option.bind_eq_bind, Option.bind_some, Option.bind_some]
    dsimp only
    rw [anchorPath_of_relative (h.resolve_left hsrc) s]

theorem stat_of_relative (h : isRelative path = true) (st : FlatMem) (s : Proc K) :
    stat lib hdr path (some st) s = stat lib hdr path (some st) (anchorRoot lib s).2 := by
  cases path with
  | none => cases h
  | some p =>
    unfold stat
    dsimp only
    rw [anchorPath_of_relative h s]

theorem call_of_relative (h : c.isRelative hdr = true) (s : Proc K) :
    call lib hdr c s = call lib hdr c (anchorRoot lib s).2 := by
  obtain ⟨path, hpath, hrel⟩ := List.any_eq_true.mp h
  cases c with
  | setAnchorRoot path => cases hpath
  | open_ path flags mode =>
    obtain rfl := List.mem_singleton.mp hpath
    rw [call, open_of_relative hrel, ← call]
  | unlink path =>
    obtain rfl := List.mem_singleton.mp hpath
    rw [call, unlink_of_relative hrel, ← call]
  | rename src dst =>
    have hor : isRelative src = true ∨ isRelative dst = true := by
      rcases List.mem_cons.mp hpath with rfl | hdst
      · exact .inl hrel
      · obtain rfl := List.mem_singleton.mp hdst
        exact .inr hrel
    rw [call, rename_of_relative hor, ← call]
  | remove path st =>
    obtain rfl := List.mem_singleton.mp hpath
    rw [call, remove, stat_of_relative hrel, ← remove, ← call]
  | stat path out =>
    cases out with
    | none => cases hpath
    | some st =>
      obtain rfl := List.mem_singleton.mp hpath
      rw [call, stat_of_relative hrel, ← call]
  | lstat path out =>
    cases out with
    | none => cases hpath
    | some st =>
      obtain rfl := List.mem_singleton.mp hpath
      rw [call, lstat, stat_of_relative hrel, ← lstat, ← call]
  | fstatat fd path out =>
    rw [Call.paths] at hpath
    split_ifs at hpath with hand
    · obtain rfl := List.mem_singleton.mp hpath
      obtain ⟨hout, hat⟩ := hand
      obtain ⟨st, rfl⟩ := Option.isSome_iff_exists.mp hout
      have hfd : fd = hdr.AT_FDCWD := hat.resolve_right (not_not.mpr hrel)
      cases path with
      | none => cases hrel
      | some p =>
        rw [call, fstatat, if_pos (.inr hfd), call, fstatat, if_pos (.inr hfd), stat_of_relative hrel]
    · cases hpath
  | fstat fd out => cases hpath

/-! ### The root -/

/-- The name of a directory: absolute, and with a slash at its end. -/
structure IsDirectory (r : List Char) : Prop where
  absolute : r.head? = some '/'
  slash : r.getLast? = some '/'
  string : IsString r

theorem isDirectory_override {cs : List Call} (hcs : ∀ c ∈ cs, c.Strings hdr) {r : List Char} (hr : r ≠ [] → IsDirectory r) :
    cs.foldl Call.override r ≠ [] → IsDirectory (cs.foldl Call.override r) := by
  induction cs generalizing r with
  | nil => exact hr
  | cons c cs ih =>
    refine ih (fun c hc => hcs c (List.mem_cons_of_mem _ hc)) ?_
    have hstr := (hcs c List.mem_cons_self).override
    cases c with
    | setAnchorRoot path =>
      cases path with
      | none => exact hr
      | some p =>
        rw [Call.override]
        split_ifs with habs hend
        · exact hr
        · intro _
          have hp : p ≠ [] := by
            rintro rfl
            exact habs (by simp)
          refine ⟨?_, List.getLast?_concat, fun hmem => ?_⟩
          · rw [List.head?_append_of_ne_nil _ hp]
            exact not_not.mp habs
          · rcases List.mem_append.mp hmem with hmem | hmem
            · exact hstr p rfl hmem
            · exact absurd (List.mem_singleton.mp hmem) (by decide)
        · exact fun _ => ⟨not_not.mp habs, not_not.mp hend, hstr p rfl⟩
    | _ => exact hr

theorem isDirectory_titleId (k : K) (h : titleIdRoot lib k ≠ []) : IsDirectory (titleIdRoot lib k) := by
  unfold titleIdRoot at h ⊢
  dsimp only at h ⊢
  split_ifs at h ⊢ with hrc hid
  · exact absurd rfl h
  · refine ⟨rfl, List.getLast?_concat, fun hmem => ?_⟩
    rcases List.mem_append.mp hmem with hmem | hmem
    · rcases List.mem_append.mp hmem with hmem | hmem
      · exact absurd hmem (by decide)
      · have := List.mem_takeWhile_imp hmem
        exact absurd this (by decide)
    · exact absurd (List.mem_singleton.mp hmem) (by decide)
  · exact absurd rfl h

theorem isDirectory_chosenRoot {cs : List Call} (hcs : ∀ c ∈ cs, c.Strings hdr) (k : K) : IsDirectory (chosenRoot lib cs k) := by
  unfold chosenRoot
  dsimp only
  split_ifs with hnamed htitle
  · exact isDirectory_override hcs (fun h => absurd rfl h) hnamed
  · exact isDirectory_titleId k htitle
  · exact ⟨by decide, by decide, by unfold IsString; decide⟩

/-- The decision. -/
theorem anchorRoot_eq {cs : List Call} (hs : s.root = none) (ho : s.rootOverride = cs.foldl Call.override []) :
    (anchorRoot lib s).2.root = some (chosenRoot lib cs s.kernel) ∧
      (anchorRoot lib s).2.kernel = (lib.mkdir (chosenRoot lib cs s.kernel).dropLast 0o777 s.kernel).2 := by
  have hroot : (let r := s.rootOverride
      let r := if r = [] then titleIdRoot lib s.kernel else r
      if r = [] then "/data/orbis-compat/".toList else r) = chosenRoot lib cs s.kernel := by
    unfold chosenRoot
    rw [ho]
    dsimp only
    split_ifs with h₁ h₂ h₃ <;> simp_all
  rw [anchorRoot, hs]
  dsimp only at hroot ⊢
  rw [hroot]
  exact ⟨rfl, rfl⟩

/-! ### The whole run -/

theorem calls_append (cs₁ cs₂ : List Call) {t : Proc K} {as : List Answer} (h : calls lib hdr cs₁ s = some (as, t)) :
    calls lib hdr (cs₁ ++ cs₂) s = (calls lib hdr cs₂ t).map fun r => (as ++ r.1, r.2) := by
  induction cs₁ generalizing s as with
  | nil =>
    cases h
    rw [List.nil_append]
    cases calls lib hdr cs₂ t <;> rfl
  | cons c cs ih =>
    rw [calls] at h
    obtain ⟨⟨a, u⟩, hc, h⟩ := Option.bind_eq_some_iff.mp h
    obtain ⟨⟨as', v⟩, hcs, h⟩ := Option.bind_eq_some_iff.mp h
    obtain ⟨rfl, rfl⟩ := Prod.mk.inj (Option.some.inj h)
    rw [List.cons_append, calls, hc, Option.bind_eq_bind, Option.bind_some]
    dsimp only
    rw [ih hcs]
    cases calls lib hdr cs₂ v <;> rfl

/-- **The process has a working directory**: in every run there is one root, an absolute directory, and all calls do what they
do in a process whose working directory that is.  It is chosen, and made, at the first call that needs it: as what the program
has named last by then, else as the directory of the title, else as the fallback. -/
theorem calls_eq_cwd (hhdr : Stat.Measured hdr.stat) {cs : List Call} (hcs : ∀ c ∈ cs, c.Strings hdr) (k : K) :
    ∃ pre post root k₁ k₂, cs = pre ++ post ∧ (∀ c ∈ pre, c.isRelative hdr = false) ∧
      (∀ c, post.head? = some c → c.isRelative hdr = true) ∧
      k₁ = (cwdCalls lib hdr root pre k).2 ∧ root = chosenRoot lib pre k₁ ∧ IsDirectory root ∧
      k₂ = (if post = [] then k₁ else (lib.mkdir root.dropLast 0o777 k₁).2) ∧
      ∃ s, calls lib hdr cs (start k) = some ((cwdCalls lib hdr root pre k).1 ++ (cwdCalls lib hdr root post k₂).1, s) ∧
        s.kernel = (cwdCalls lib hdr root post k₂).2 := by
  set pre := cs.takeWhile fun c => !c.isRelative hdr with hpre
  set post := cs.dropWhile fun c => !c.isRelative hdr with hpost
  have hsplit : cs = pre ++ post := List.takeWhile_append_dropWhile.symm
  have hnot : ∀ c ∈ pre, c.isRelative hdr = false := fun c hc => by simpa using List.mem_takeWhile_imp hc
  have hfirst : ∀ c, post.head? = some c → c.isRelative hdr = true := by
    intro c hc
    by_contra hne
    have := List.head?_dropWhile_not (fun c => !c.isRelative hdr) cs
    rw [← hpost, hc] at this
    simp [hne] at this
  have hcs₁ : ∀ c ∈ pre, c.Strings hdr := fun c hc => hcs c (hsplit ▸ List.mem_append_left _ hc)
  have hcs₂ : ∀ c ∈ post, c.Strings hdr := fun c hc => hcs c (hsplit ▸ List.mem_append_right _ hc)
  -- the kernel's state after the first part does not depend on the root
  obtain ⟨t, ht, hk, hr, hd, ho⟩ := @calls_undecided K lib hdr (start k) hhdr pre rfl hnot []
  set root := chosenRoot lib pre t.kernel with hroot
  obtain ⟨t', ht', hk', -⟩ := @calls_undecided K lib hdr (start k) hhdr pre rfl hnot root
  obtain ⟨hans, rfl⟩ := Prod.mk.inj (Option.some.inj (ht.symm.trans ht'))
  have hdir : IsDirectory root := isDirectory_chosenRoot hcs₁ _
  rw [hans] at ht
  refine ⟨pre, post, root, t.kernel, _, hsplit, hnot, hfirst, hk', rfl, hdir, rfl, ?_⟩
  rw [hsplit, calls_append _ _ ht]
  cases hcase : post with
  | nil => exact ⟨t, rfl, rfl⟩
  | cons c cs' =>
    rw [hcase] at hfirst hcs₂
    obtain ⟨hdec, hmade⟩ := @anchorRoot_eq K lib t pre (hr.trans rfl) ho
    have hsame : calls lib hdr (c :: cs') t = calls lib hdr (c :: cs') (anchorRoot lib t).2 := by
      rw [calls, call_of_relative (hfirst c rfl), ← calls]
    obtain ⟨u, hu, hku⟩ := @calls_decided K lib hdr root _ hhdr (c :: cs') hdec hdir.string hcs₂
    rw [if_neg (List.cons_ne_nil _ _), ← hmade]
    exact ⟨u, by rw [hsame, hu]; rfl, hku⟩

/-! ### A save file -/

def sdkHeaders : Headers where
  O_CREAT := 0x200
  O_TMPFILE := none
  O_CLOEXEC := some 0x100000
  AT_FDCWD := -100
  stat := Stat.sdkStat

/-- A kernel with files without contents, which takes absolute paths only. -/
def flatKernel : Libkernel (List (List Char)) where
  getAppInfo _ := (0, "CUSA00001\x00".toList)
  mkdir p _ k := if p ∈ k then (17, k) else (0, p :: k)
  open_ path flags _ k :=
    match path with
    | none => (.error EFAULT, k)
    | some p =>
      if p.head? ≠ some '/' then (.error 22, k)
      else if p ∈ k then (.ok 3, k)
      else if flags &&& 0x200 ≠ 0 then (.ok 3, p :: k)
      else (.error 2, k)
  setCloexec _ k := k
  unlink path k := if path.any (· ∈ k) then (0, k.filter (some · ≠ path)) else (0x80020002, k)
  rename src dst k := if src.any (· ∈ k) then (0, dst.toList ++ k.filter (some · ≠ src)) else (0x80020002, k)
  rmdir path k := if path.any (· ∈ k) then (0, k.filter (some · ≠ path)) else (0x80020002, k)
  stat path k := if path.any (· ∈ k) then (0, Stat.archive, k) else (0x80020002, fun _ => 0, k)
  fstat _ k := (.ok Stat.archive, k)

/-- A file is made, and removed again under the same name. -/
def saveCalls : List Call :=
  [.setAnchorRoot (some "/data/game".toList), .open_ (some "slot.sav".toList) 0x201 0o666, .remove (some "slot.sav".toList) fun _ => 0]

theorem saveCalls_strings : ∀ c ∈ saveCalls, c.Strings sdkHeaders := by
  have hsave : IsString "slot.sav".toList := by unfold IsString; decide
  have hroot : IsString "/data/game".toList := by unfold IsString; decide
  unfold saveCalls
  rw [List.forall_mem_cons, List.forall_mem_cons, List.forall_mem_singleton]
  refine ⟨⟨fun path hpath => (by cases hpath), ?_⟩, ⟨?_, fun p hp => (by cases hp)⟩, ⟨?_, fun p hp => (by cases hp)⟩⟩
  · rintro p ⟨rfl⟩
    exact hroot
  · rintro path hpath p rfl
    cases List.mem_singleton.mp hpath
    exact hsave
  · rintro path hpath p rfl
    cases List.mem_singleton.mp hpath
    exact hsave

theorem calls_eq_cwd_saveCalls :
    ∃ pre post root k₁ k₂, saveCalls = pre ++ post ∧ (∀ c ∈ pre, c.isRelative sdkHeaders = false) ∧
      (∀ c, post.head? = some c → c.isRelative sdkHeaders = true) ∧
      k₁ = (cwdCalls flatKernel sdkHeaders root pre []).2 ∧ root = chosenRoot flatKernel pre k₁ ∧ IsDirectory root ∧
      k₂ = (if post = [] then k₁ else (flatKernel.mkdir root.dropLast 0o777 k₁).2) ∧
      ∃ s, calls flatKernel sdkHeaders saveCalls (start []) =
          some ((cwdCalls flatKernel sdkHeaders root pre []).1 ++ (cwdCalls flatKernel sdkHeaders root post k₂).1, s) ∧
        s.kernel = (cwdCalls flatKernel sdkHeaders root post k₂).2 :=
  calls_eq_cwd Stat.measured_sdkStat saveCalls_strings []

end OrbisCompat.Paths
