import OrbisCompat.ThreadStack.Equiv.Create
import OrbisCompat.ThreadStack.System

/-!
# The floor and who asks first

The first call of `resolveFloor` in a module measures the stack of the thread it is made on and keeps what came
out, a failure included.  So all that a process is told are floors after the main thread's stack exactly when the
first asker of each module comes to the same one (`floors_iff`).
-/

namespace OrbisCompat.ThreadStack

variable {fresh : Attr} {main : ℕ} {readable : Bool}

theorem mainThreadStack_eq (stack : ℕ) (a : SelfAnswers) :
    mainThreadStack stack a = if a.reads then stack else 0 := by
  unfold mainThreadStack stackOfSelf SelfAnswers.reads
  by_cases h1 : a.init = 0 <;> by_cases h2 : a.get = 0 <;> by_cases h3 : a.size = 0 <;> simp [h1, h2, h3]

/-- A module that has no floor yet measures. -/
theorem resolveFloor_unresolved (stack : ℕ) (a : SelfAnswers) :
    (resolveFloor unresolved stack a).value = floorAfter stack a.reads := by
  unfold resolveFloor
  rw [if_neg (not_not.mpr rfl)]
  dsimp only
  rw [mainThreadStack_eq]
  unfold floorAfter
  cases a.reads with
  | false => rfl
  | true =>
    rw [if_pos rfl, if_pos rfl]
    by_cases hlt : stack < pthreadStackMin
    · by_cases h0 : stack = 0 <;> simp [hlt, h0]
    · simp [hlt]

theorem resolveFloor_resolved {cache : ℕ} (h : cache ≠ unresolved) (stack : ℕ) (a : SelfAnswers) :
    (resolveFloor cache stack a).value = cache := by
  unfold resolveFloor
  rw [if_pos h]

/-- What it returns, it keeps. -/
theorem resolveFloor_cache (cache stack : ℕ) (a : SelfAnswers) :
    (resolveFloor cache stack a).cache = (resolveFloor cache stack a).value := by
  unfold resolveFloor
  split_ifs <;> rfl

theorem pthreadCreate_cache (fresh : Attr) (cache stack : ℕ) (attr : Option Attr) (start arg : ℕ)
    (a : Answers) : (pthreadCreate fresh cache stack attr start arg a).cache =
      (resolveFloor cache stack a.self).cache := by
  rcases pthreadCreate_cases fresh cache stack attr start arg a with ⟨_, -, heq⟩ | ⟨_, _, -, -, -, -, -, heq⟩ <;>
    rw [heq]

/-- With a floor above what the caller wants, a thread gets the floor. -/
theorem passed_stacksize {cache stack : ℕ} {attr : Option Attr} {a : Answers} (start arg : ℕ)
    (hwant : wanted attr a < (resolveFloor cache stack a.self).value) (hinit : a.init = 0)
    (hset : a.setstacksize = 0) :
    (((pthreadCreate fresh cache stack attr start arg a).passed.attr attr).getD fresh).stacksize =
      (resolveFloor cache stack a.self).value := by
  unfold pthreadCreate
  dsimp only
  rw [if_neg (Nat.ne_of_gt (Nat.zero_lt_of_lt hwant)), if_neg (Nat.not_le_of_lt hwant),
    if_neg (not_not.mpr hinit), if_pos hset]
  rfl

namespace Process

variable {s s' : Process} {l : Label}

/-- What a step does to the floors: it leaves them, or sets the one it asks for to what it is told. -/
theorem cache_of_step (hs : step fresh s l = some s') :
    s'.cache = s.cache ∨ ∃ m stack a, s.asks l = some (m, stack, a) ∧
      s'.cache = (s.setCache m (resolveFloor (s.cache m) stack a).value).cache := by
  cases l with
  | foreign stack =>
    obtain rfl := Option.some.inj hs
    exact Or.inl rfl
  | pthreadCreate m t attr start arg a =>
    obtain ⟨stack, hstack, rfl⟩ := Option.map_eq_some_iff.mp hs
    refine Or.inr ⟨m, stack, a.self, by simp [asks, hstack], ?_⟩
    rw [← resolveFloor_cache, ← pthreadCreate_cache fresh (s.cache m) stack attr start arg a]
    dsimp only
    split_ifs <;> rfl
  | threadStackFloor m t a =>
    obtain ⟨stack, hstack, rfl⟩ := Option.map_eq_some_iff.mp hs
    refine Or.inr ⟨m, stack, a, by simp [asks, hstack], ?_⟩
    rw [← resolveFloor_cache]

/-- The floors so far are the main thread's. -/
def LikeMain (main : ℕ) (readable : Bool) (s : Process) : Prop :=
  ∀ m, s.cache m = unresolved ∨ s.cache m = floorAfter main readable

/-- What a call returns then is the main thread's floor exactly when it asks like the main thread. -/
theorem LikeMain.value_iff (h : LikeMain main readable s) (m stack : ℕ) (a : SelfAnswers) :
    (resolveFloor (s.cache m) stack a).value = floorAfter main readable ↔
      (s.cache m = unresolved → floorAfter stack a.reads = floorAfter main readable) := by
  by_cases hm : s.cache m = unresolved
  · rw [hm, resolveFloor_unresolved]
    exact ⟨fun heq _ => heq, fun heq => heq rfl⟩
  · rw [resolveFloor_resolved hm]
    exact iff_of_true ((h m).resolve_left hm) fun hm' => absurd hm' hm

theorem LikeMain.forall_floors_iff (h : LikeMain main readable s) (l : Label) :
    (∀ v ∈ s.floors l, v = floorAfter main readable) ↔ AsksLikeMain main readable s l := by
  unfold floors AsksLikeMain
  cases hasks : s.asks l with
  | none => simp
  | some q =>
    obtain ⟨m, stack, a⟩ := q
    have hiff := h.value_iff m stack a
    constructor
    · intro hall m' stack' a' heq
      cases heq
      exact hiff.mp (hall _ (List.mem_singleton_self _))
    · intro hlike v hv
      rw [List.mem_singleton.mp hv]
      exact hiff.mpr (hlike m stack a rfl)

theorem LikeMain.step (h : LikeMain main readable s) (hok : AsksLikeMain main readable s l)
    (hs : Process.step fresh s l = some s') : LikeMain main readable s' := by
  intro k
  rcases cache_of_step hs with heq | ⟨m, stack, a, hasks, heq⟩
  · rw [heq]
    exact h k
  · rw [heq, setCache_cache]
    split_ifs
    · exact Or.inr ((h.value_iff m stack a).mpr (hok m stack a hasks))
    · exact h k

theorem likeMain_init (main : ℕ) (readable : Bool) (stack : ℕ) : LikeMain main readable (init stack) :=
  fun _ => Or.inl rfl

/-- **The floor is the main thread's.**  Of every run, every call of `resolveFloor` returns the main thread's
stack size, or `0` when that is no stack or cannot be read, exactly when every module asks first on a thread that
comes to the same.  Then a thread that wants less, and whose creation does not fail, gets that floor. -/
theorem floors_iff {ls : List Label} (h : Reaches fresh main ls s) (readable : Bool) :
    ((∀ v ∈ Lts.trace (step fresh) floors (init main) ls, v = floorAfter main readable) ↔
      Lts.Run (Lts.Guarded (AsksLikeMain main readable) (Lts.Next (step fresh))) (init main) ls s) ∧
    ((∀ v ∈ Lts.trace (step fresh) floors (init main) ls, v = floorAfter main readable) →
      ∀ m t attr start arg a s', AsksLikeMain main readable s (.pthreadCreate m t attr start arg a) →
        a.init = 0 → a.setstacksize = 0 → a.create = 0 → wanted attr a < floorAfter main readable →
        step fresh s (.pthreadCreate m t attr start arg a) = some s' →
        s'.stack = s.stack ++ [floorAfter main readable]) := by
  have hiff : (∀ v ∈ Lts.trace (step fresh) floors (init main) ls, v = floorAfter main readable) ↔
      Lts.Run (Lts.Guarded (AsksLikeMain main readable) (Lts.Next (step fresh))) (init main) ls s :=
    h.forall_trace_iff (Q := fun v => v = floorAfter main readable)
      (fun s l t hs _ => LikeMain.forall_floors_iff hs l) (fun s l t hs hok hst => hs.step hok hst)
      (likeMain_init main readable main)
  refine ⟨hiff, fun hall m t attr start arg a s' hlike hinit hset hcreate hwant hs => ?_⟩
  have hmain : LikeMain main readable s :=
    (hiff.mp hall).preserves (fun _ _ _ hs hst => hs.step hst.1 hst.2) (likeMain_init main readable main)
  obtain ⟨stack, hstack, rfl⟩ := Option.map_eq_some_iff.mp hs
  -- the floor is resolved to the main thread's now, or was before
  have hvalue : (resolveFloor (s.cache m) stack a.self).value = floorAfter main readable :=
    (hmain.value_iff m stack a.self).mpr (hlike m stack a.self (by simp [asks, hstack]))
  rw [← hvalue] at hwant ⊢
  have hret : (ThreadStack.pthreadCreate fresh (s.cache m) stack attr start arg a).ret = 0 := by
    rcases pthreadCreate_cases fresh (s.cache m) stack attr start arg a with
      ⟨_, -, heq⟩ | ⟨_, _, -, -, -, -, -, heq⟩ <;> rw [heq] <;> exact hcreate
  dsimp only
  rw [if_pos hret, passed_stacksize start arg hwant hinit hset]
  rfl

/-- The main thread asks first, and then a thread with a small stack. -/
def mainFirst : List Label :=
  [.threadStackFloor 0 0 {}, .foreign 65536, .pthreadCreate 0 1 none 0x1000 7 { malloc := some 0x2000 }]

theorem floors_iff_mainFirst : ∃ s, Reaches someFresh 2097152 mainFirst s ∧
    ∀ v ∈ Lts.trace (step someFresh) floors (init 2097152) mainFirst, v = 2097152 := by
  obtain ⟨s, hs, -⟩ := Lts.exists_run_of_exec (p := fun _ => true)
    (show (Lts.exec (Lts.guard (AsksLikeMain 2097152 true) (step someFresh)) (init 2097152) mainFirst).any _ =
      true by decide +kernel)
  have hreach : Reaches someFresh 2097152 mainFirst s := hs.of_guard.mono fun _ _ _ hst => hst.2
  exact ⟨s, hreach, (floors_iff hreach true).1.mpr hs.of_guard⟩

/-- A thread with a small stack asks first. -/
def foreignFirst : List Label :=
  [.foreign 65536, .threadStackFloor 0 1 {}, .threadStackFloor 0 0 {}]

/-- The main thread asks first, in another module, while there is no memory for its attributes. -/
def failedFirst : List Label := [.threadStackFloor 1 0 { init := 12 }, .threadStackFloor 1 0 {}]

/-- The floor is then the small stack, or none, for good. -/
theorem not_floors_foreignFirst : (∃ s, Reaches someFresh 2097152 (foreignFirst ++ failedFirst) s) ∧
    Lts.trace (step someFresh) floors (init 2097152) (foreignFirst ++ failedFirst) =
      [65536, 65536, 0, 0] ∧
    ¬ ∀ v ∈ Lts.trace (step someFresh) floors (init 2097152) (foreignFirst ++ failedFirst),
      v = floorAfter 2097152 true := by
  have htrace : Lts.trace (step someFresh) floors (init 2097152) (foreignFirst ++ failedFirst) =
      [65536, 65536, 0, 0] := by decide +kernel
  obtain ⟨s, hs, -⟩ := Lts.exists_run_of_exec (p := fun _ => true)
    (show (Lts.exec (step someFresh) (init 2097152) (foreignFirst ++ failedFirst)).any _ = true by
      decide +kernel)
  refine ⟨⟨s, hs⟩, htrace, fun hall => ?_⟩
  rw [htrace] at hall
  exact absurd (hall 65536 List.mem_cons_self) (by decide)

end Process

end OrbisCompat.ThreadStack
