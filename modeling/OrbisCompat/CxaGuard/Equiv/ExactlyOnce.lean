import OrbisCompat.CxaGuard.Equiv.Steps

/-!
# Exactly-once initialization

The guards refine the abstract history of `Lib/Once.lean`: a guard that is neither done nor pending is
untouched, a pending one is busy with the one thread that has acquired it, and a done one is done
(`Told`).  An acquire that returns `1` enters, one that returns `0` skips, a release finishes and an abort
gives up.  What `Story` says of histories is then what the three functions guarantee.
-/

namespace OrbisCompat.CxaGuard

open Once (Phase Story Inside)

/-- The bytes of a guard and the threads inside its initializer are those of the phase. -/
def Matches (b : GuardBytes) (inside : ℕ → Prop) : Phase ℕ → Prop
  | .untouched => b.done = false ∧ b.pending = false ∧ ∀ t, ¬ inside t
  | .busy t => b.done = false ∧ b.pending = true ∧ ∀ u, inside u ↔ u = t
  | .done => b.done = true ∧ b.pending = false ∧ ∀ t, ¬ inside t

namespace Matches

variable {b b' : GuardBytes} {inside inside' : ℕ → Prop} {p : Phase ℕ}

theorem congr (h : Matches b inside p) (hdone : b'.done = b.done) (hpending : b'.pending = b.pending)
    (hinside : ∀ t, inside' t ↔ inside t) : Matches b' inside' p := by
  cases p <;> simpa only [Matches, hdone, hpending, hinside] using h

theorem eq_done (h : Matches b inside p) (hdone : b.done = true) : p = .done := by
  cases p with
  | done => rfl
  | _ => rw [h.1] at hdone; cases hdone

theorem eq_untouched (h : Matches b inside p) (hdone : b.done = false) (hpending : b.pending = false) :
    p = .untouched := by
  cases p with
  | untouched => rfl
  | busy t => rw [h.2.1] at hpending; cases hpending
  | done => rw [h.1] at hdone; cases hdone

theorem eq_busy (h : Matches b inside p) {t : ℕ} (ht : inside t) : p = .busy t := by
  cases p with
  | busy u => rw [(h.2.2 t).mp ht]
  | _ => exact absurd ht (h.2.2 t)

end Matches

/-- **The invariant.** -/
structure Told (s : State) : Prop where
  story : ∀ g, ∃ p, Story g s.log p ∧ Matches (s.mem.guard g) (fun t => g ∈ s.holds t) p
  nodup : ∀ t, (s.holds t).Nodup

theorem told_init : Told State.init where
  story := fun _ => ⟨.untouched, .nil, rfl, rfl, fun _ => List.not_mem_nil⟩
  nodup := fun _ => List.nodup_nil

namespace Told

variable {s s' : State} {t : ℕ} {g : Guard}

/-- A thread gets on without touching a guard. -/
theorem setPc (h : Told s) (t : ℕ) (pc : Pc) : Told (s.setPc t pc) := ⟨h.story, h.nodup⟩

/-- Nothing that matters happens to the other guards. -/
theorem other (h : Told s) {h' : Guard} {e : Event} (hne : h' ≠ g)
    (hguard : s'.mem.guard h' = s.mem.guard h') (hlog : s'.log = e :: s.log) (hkey : e.key = g)
    (hholds : ∀ u, h' ∈ s'.holds u ↔ h' ∈ s.holds u) :
    ∃ p, Story h' s'.log p ∧ Matches (s'.mem.guard h') (fun u => h' ∈ s'.holds u) p := by
  obtain ⟨p, hstory, hmatch⟩ := h.story h'
  rw [hguard, hlog]
  exact ⟨p, hstory.other (hkey ▸ hne.symm), hmatch.congr rfl rfl hholds⟩

/-- **One turn of an acquire.** -/
theorem turnAt {anchor : ℕ → ℕ} {parks : Bool} (h : Told s) (hs : TurnAt anchor s t parks g s') :
    Told s' := by
  obtain ⟨p, hstory, hmatch⟩ := h.story g
  cases hs with
  | initialized hdone =>
    refine ⟨fun h' => ?_, h.nodup⟩
    by_cases hg : h' = g
    · subst hg
      obtain rfl := hmatch.eq_done hdone
      exact ⟨.done, hstory.skip t, hmatch⟩
    · apply h.other hg
      · rfl
      · rfl
      · rfl
      · exact fun _ => Iff.rfl
  | mine hdone hpending =>
    -- the guard passes from nobody to `t`, and the story of every other one goes on
    obtain rfl := hmatch.eq_untouched hdone hpending
    obtain ⟨-, -, hnone⟩ := hmatch
    constructor
    · intro h'
      by_cases hg : h' = g
      · subst hg
        refine ⟨.busy t, hstory.enter t, ?_, ?_, fun u => ?_⟩
        · show ((s.mem.claim h' (anchor t)).guard h').done = false
          rw [Memory.claim_guard, if_pos rfl]
          exact hdone
        · show ((s.mem.claim h' (anchor t)).guard h').pending = true
          rw [Memory.claim_guard, if_pos rfl]
        · show h' ∈ (if u = t then h' :: s.holds t else s.holds u) ↔ u = t
          split_ifs with hu
          · simp [hu]
          · simp [hu, hnone u]
      · apply h.other hg
        · exact (Memory.claim_guard _ _ _ _).trans (if_neg hg)
        · rfl
        · rfl
        · intro u
          show h' ∈ (if u = t then g :: s.holds t else s.holds u) ↔ _
          split_ifs with hu
          · simp [hu, hg]
          · rfl
    · intro u
      show (if u = t then g :: s.holds t else s.holds u).Nodup
      split_ifs
      · exact List.nodup_cons.mpr ⟨hnone t, h.nodup t⟩
      · exact h.nodup u
  | recursion => exact h.setPc _ _
  | wait hdone hpending =>
    refine ⟨fun h' => ?_, h.nodup⟩
    obtain ⟨p, hstory, hmatch⟩ := h.story h'
    -- the mark for those who wait is not a part of the story
    have hguard : ((s.mem.await g).guard h').done = (s.mem.guard h').done ∧
        ((s.mem.await g).guard h').pending = (s.mem.guard h').pending := by
      rw [Memory.await_guard]
      split_ifs with hg
      · rw [hg]
        exact ⟨rfl, rfl⟩
      · exact ⟨rfl, rfl⟩
    exact ⟨p, hstory, hmatch.congr hguard.1 hguard.2 fun _ => Iff.rfl⟩

/-- **A release or an abort.** -/
theorem leaveAt (h : Told s) (hheld : g ∈ s.holds t) (hs : LeaveAt s t g s') : Told s' := by
  obtain ⟨p, hstory, hmatch⟩ := h.story g
  obtain rfl := hmatch.eq_busy hheld
  -- nobody holds the guard behind the call
  have hinside : ∀ u, g ∉ (if u = t then (s.holds t).erase g else s.holds u) := by
    intro u
    split_ifs with hu
    · exact (h.nodup t).not_mem_erase
    · exact fun hmem => hu ((hmatch.2.2 u).mp hmem)
  have hothers : ∀ h', h' ≠ g → ∀ u,
      h' ∈ (if u = t then (s.holds t).erase g else s.holds u) ↔ h' ∈ s.holds u := by
    intro h' hg u
    split_ifs with hu
    · rw [List.mem_erase_of_ne hg, hu]
    · rfl
  have hnodup : ∀ u, (if u = t then (s.holds t).erase g else s.holds u).Nodup := by
    intro u
    split_ifs
    · exact (h.nodup t).erase g
    · exact h.nodup u
  cases hs with
  | release =>
    refine ⟨fun h' => ?_, hnodup⟩
    by_cases hg : h' = g
    · subst hg
      have hguard := (Memory.releaseLocked_guard s.mem h' h').trans (if_pos rfl)
      exact ⟨.done, hstory.finish, congrArg _ hguard, congrArg _ hguard, hinside⟩
    · apply h.other hg
      · exact (Memory.releaseLocked_guard _ _ _).trans (if_neg hg)
      · rfl
      · rfl
      · exact hothers h' hg
  | abort =>
    refine ⟨fun h' => ?_, hnodup⟩
    by_cases hg : h' = g
    · subst hg
      have hguard := (Memory.abortLocked_guard s.mem h' h').trans (if_pos rfl)
      exact ⟨.untouched, hstory.giveUp, (congrArg _ hguard).trans hmatch.1, congrArg _ hguard, hinside⟩
    · apply h.other hg
      · exact (Memory.abortLocked_guard _ _ _).trans (if_neg hg)
      · rfl
      · rfl
      · exact hothers h' hg

/-- **Every step keeps the invariant.** -/
theorem step {anchor : ℕ → ℕ} (h : Told s) {l : Label} (hs : CxaGuard.step anchor s l = some s') :
    Told s' := by
  cases l with
  | start t =>
    obtain ⟨-, rfl⟩ := start_cases hs
    exact ⟨h.story, h.nodup⟩
  | exit t =>
    obtain ⟨-, -, rfl⟩ := exit_cases hs
    exact ⟨h.story, h.nodup⟩
  | acquire t g =>
    obtain ⟨-, -, rfl⟩ := acquire_cases hs
    exact h.setPc _ _
  | turn t parks =>
    obtain ⟨g, -, hturn⟩ := turn_cases hs
    exact h.turnAt hturn
  | release t g =>
    obtain ⟨-, hheld, hleave⟩ := release_cases hs
    exact h.leaveAt hheld hleave
  | abort t g =>
    obtain ⟨-, hheld, hleave⟩ := abort_cases hs
    exact h.leaveAt hheld hleave
  | broadcast t =>
    obtain ⟨-, rfl⟩ := broadcast_cases hs
    exact ⟨h.story, h.nodup⟩
  | spurious t =>
    obtain ⟨g, -, rfl⟩ := spurious_cases hs
    exact h.setPc _ _

end Told

theorem Reaches.told {anchor : ℕ → ℕ} {ok : State → Label → Prop} {ls : List Label} {s : State}
    (h : Reaches anchor ok ls s) : Told s :=
  Lts.Run.preserves (P := Told) (fun _ _ _ hs hstep => hs.step hstep.2) h told_init

/-- A thread holds the guards that it is inside of. -/
theorem Told.mem_holds_iff {s : State} (h : Told s) {t : ℕ} {g : Guard} :
    g ∈ s.holds t ↔ Inside s.log t g := by
  obtain ⟨p, hstory, hmatch⟩ := h.story g
  constructor
  · intro hheld
    obtain rfl := hmatch.eq_busy hheld
    exact hstory.inside_of_busy
  · intro hin
    obtain rfl := hstory.eq_busy_of_inside hin
    exact (hmatch.2.2 t).mpr rfl

/-- What the three functions guarantee, of a history of events, newest first. -/
structure OnceEach (anchor : ℕ → ℕ) (s : State) : Prop where
  /-- One thread at a time is between an acquire that returned `1` and its release or abort. -/
  inside : ∀ t u g, Inside s.log t g → Inside s.log u g → t = u
  /-- An acquire returns `0` after a release. -/
  skip : ∀ later past t g, s.log = later ++ .skip t g :: past → ∃ u, .finish u g ∈ past
  /-- After a release no acquire returns `1`. -/
  finish : ∀ later past u g, s.log = later ++ .finish u g :: past → ∀ t, .enter t g ∉ later
  /-- After an abort one acquire at most returns `1` before the next abort. -/
  giveUp : ∀ later past u g, s.log = later ++ .giveUp u g :: past → (∀ v, .giveUp v g ∉ later) →
    (later.filter (Once.Event.enters g)).length ≤ 1
  /-- Until then whichever acquire takes the mutex next returns `1`. -/
  retry : ∀ later past u g, s.log = later ++ .giveUp u g :: past → (∀ v, .giveUp v g ∉ later) →
    (∀ v, .enter v g ∉ later) → ∀ t parks, s.pc t = .trying g →
    ∃ s', CxaGuard.step anchor s (.turn t parks) = some s' ∧ s'.log = .enter t g :: s.log ∧ g ∈ s'.holds t

theorem Told.toOnceEach {s : State} (h : Told s) (anchor : ℕ → ℕ) : OnceEach anchor s := by
  constructor
  · intro t u g ht hu
    obtain ⟨p, hstory, -⟩ := h.story g
    exact hstory.inside_unique ht hu
  · intro later past t g hlog
    obtain ⟨p, hstory, -⟩ := h.story g
    rw [hlog] at hstory
    exact hstory.exists_finish_of_skip
  · intro later past u g hlog
    obtain ⟨p, hstory, -⟩ := h.story g
    rw [hlog] at hstory
    exact hstory.not_mem_enter_of_finish
  · intro later past u g hlog hagain
    obtain ⟨p, hstory, -⟩ := h.story g
    rw [hlog] at hstory
    exact hstory.length_enters_of_giveUp hagain
  · intro later past u g hlog hagain henter t parks hpc
    obtain ⟨p, hstory, hmatch⟩ := h.story g
    rw [hlog] at hstory
    obtain rfl := hstory.untouched_of_giveUp hagain henter
    obtain ⟨hdone, hpending, -⟩ := hmatch
    refine ⟨turnStep anchor s t parks g, step_turn hpc, ?_⟩
    -- the guard is neither done nor pending
    have hturn := turnStep_spec anchor s t parks g
    generalize turnStep anchor s t parks g = s' at hturn ⊢
    cases hturn with
    | initialized h => rw [h] at hdone; cases hdone
    | mine => exact ⟨rfl, by simp⟩
    | recursion _ h => rw [h] at hpending; cases hpending
    | wait _ h => rw [h] at hpending; cases hpending

/-- **Exactly-once initialization**, for any threads, any guards and any order of their steps, whatever
the threads read at `%fs:0`. -/
theorem Reaches.onceEach {anchor : ℕ → ℕ} {ok : State → Label → Prop} {ls : List Label} {s : State}
    (h : Reaches anchor ok ls s) : OnceEach anchor s := h.told.toOnceEach anchor

/-- Two threads, one guard: the first one aborts while the second one waits, and the second one
initializes. -/
def retryLabels : List Label :=
  [.start 0, .start 1, .acquire 0 7, .turn 0 true, .acquire 1 7, .turn 1 true, .abort 0 7, .broadcast 0,
    .acquire 0 7, .turn 1 true, .turn 0 true, .release 1 7, .broadcast 1, .turn 0 true]

theorem onceEach_retry : ∃ s, Reaches (· + 1) (fun _ _ => True) retryLabels s ∧
    s.log = [.skip 0 7, .finish 1 7, .enter 1 7, .giveUp 0 7, .enter 0 7] ∧ OnceEach (· + 1) s := by
  obtain ⟨s, hs, hlog⟩ := Lts.exists_run_of_exec
    (p := fun s : State => s.log == [.skip 0 7, .finish 1 7, .enter 1 7, .giveUp 0 7, .enter 0 7])
    (show (Lts.exec (Lts.guard (fun _ _ => True) (step (· + 1))) State.init retryLabels).any _ = true by
      decide)
  exact ⟨s, hs.of_guard, eq_of_beq hlog, Reaches.onceEach hs.of_guard⟩

end OrbisCompat.CxaGuard
