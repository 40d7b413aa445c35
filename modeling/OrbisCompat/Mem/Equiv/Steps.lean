import OrbisCompat.Mem.System

/-!
# `src/orbis_mem.cpp`: what a step of a thread does

`Step s s'` lists the ways in which a step can change a state, with what it found there.
-/

namespace OrbisCompat.Mem

/-- The ways a step changes a state. -/
inductive Step (s : State) : State → Prop
  | new (t : ℕ) (r : Request) : s.pc t = .idle → Step s ({ s with sizes := r.size :: s.sizes }.setPc t (.noting r))
  | census (t : ℕ) (place : String) : s.pc t = .idle → Step s (s.setPc t (.querying (.census place)))
  | note (t : ℕ) (r : Request) (pc : Pc) :
      s.pc t = .noting r → pc = .storing r ∨ pc = .allocating r → Step s (s.setPc t pc)
  | store (t : ℕ) (r : Request) :
      s.pc t = .storing r → Step s ({ s with biggestRequest := r.size }.setPc t (.allocating r))
  | pointer (t : ℕ) (r : Request) (p : ℕ) :
      s.pc t = .allocating r → p ≠ 0 → Step s (s.finish t r (.pointer p))
  | refuse (t : ℕ) (r : Request) : s.pc t = .allocating r → Step s (s.setPc t (.refused r))
  | silent (t : ℕ) (r : Request) :
      s.pc t = .refused r → Word32.toInt s.oomAnnounced ≥ 8 →
      Step s ({ s with oomAnnounced := (s.oomAnnounced + 1) % 2 ^ 32, refusals := r :: s.refusals }.finish t r r.refused)
  | announce (t : ℕ) (r : Request) :
      s.pc t = .refused r → ¬ Word32.toInt s.oomAnnounced ≥ 8 →
      Step s ({ s with oomAnnounced := (s.oomAnnounced + 1) % 2 ^ 32, refusals := r :: s.refusals,
                       announced := r :: s.announced }.setPc t (.querying (.refusal r)))
  | query (t : ℕ) (w : Purpose) (rc v : ℕ) : s.pc t = .querying w → Step s (s.setPc t (.answered w rc v))
  | failed (t : ℕ) (w : Purpose) (rc v : ℕ) :
      s.pc t = .answered w rc v → Step s ({ s with flexQueryErr := rc }.answer t w 0)
  | enter (t : ℕ) (w : Purpose) (rc v : ℕ) :
      s.pc t = .answered w rc v →
      Step s { ({ s with flexQueryErr := rc } : State).setPc t (.loading w v) with queried := v :: s.queried }
  | load (t : ℕ) (w : Purpose) (v : ℕ) : s.pc t = .loading w v → Step s (s.setPc t (.trying w v s.flexLow))
  | again (t : ℕ) (w : Purpose) (v low : ℕ) :
      s.pc t = .trying w v low → v < low → Step s (s.setPc t (.trying w v s.flexLow))
  | swap (t : ℕ) (w : Purpose) (v low : ℕ) :
      s.pc t = .trying w v low → v < low → s.flexLow = low → Step s { s.settle t w v with flexLow := v }
  | settle (t : ℕ) (w : Purpose) (v low : ℕ) : s.pc t = .trying w v low → ¬ v < low → Step s (s.settle t w v)
  | read (t : ℕ) (w : Purpose) (d d' : Locals) (i : Item) (todo : List Item) :
      s.pc t = .reporting w d (i :: todo) → (∀ line, i ≠ .print line) → d'.flex = d.flex →
      (d'.low = s.flexLow ∨ (d'.low = d.low ∧ i ≠ .loadLow)) → Step s (s.setPc t (.reporting w d' todo))
  | print (t : ℕ) (w : Purpose) (d : Locals) (line : Locals → Line) (todo : List Item) :
      s.pc t = .reporting w d (.print line :: todo) →
      Step s ({ s with log := line d :: s.log }.setPc t (.reporting w d todo))
  | counted (t : ℕ) (place : String) (d : Locals) :
      s.pc t = .reporting (.census place) d [] → Step s (s.setPc t .idle)
  | told (t : ℕ) (r : Request) (d : Locals) :
      s.pc t = .reporting (.refusal r) d [] → Step s (s.finish t r r.refused)

theorem step_of_note {s s' : State} {t : ℕ} (h : noteStep s t (s.pc t) = some s') : Step s s' := by
  generalize hpc : s.pc t = pc at h
  cases pc with
  | noting r =>
    obtain rfl := Option.some.inj h
    refine .note t r _ hpc ?_
    split_ifs
    · exact Or.inl rfl
    · exact Or.inr rfl
  | storing r =>
    obtain rfl := Option.some.inj h
    exact .store t r hpc
  | _ => cases h

theorem step_alloc (s : State) {t : ℕ} {r : Request} (a : Answer) (hpc : s.pc t = .allocating r) :
    Step s (allocStep s t r a) := by
  unfold allocStep
  split_ifs with hp
  · exact .pointer t r _ hpc hp
  · exact .refuse t r hpc

theorem step_fetchAdd (s : State) {t : ℕ} {r : Request} (hpc : s.pc t = .refused r) : Step s (fetchAddStep s t r) := by
  unfold fetchAddStep
  split_ifs with hge
  · exact .silent t r hpc hge
  · exact .announce t r hpc hge

theorem step_storeErr (s : State) {t rc v : ℕ} {w : Purpose} (hpc : s.pc t = .answered w rc v) :
    Step s (storeErrStep s t w rc v) := by
  unfold storeErrStep
  split_ifs
  · exact .failed t w rc v hpc
  · exact .enter t w rc v hpc

theorem step_turn (s : State) {t v low : ℕ} {w : Purpose} (spurious : Bool) (hpc : s.pc t = .trying w v low) :
    Step s (turnStep s t w v low spurious) := by
  unfold turnStep
  split_ifs with hlt hswap
  · exact .swap t w v low hpc hlt hswap.1
  · exact .again t w v low hpc hlt
  · exact .settle t w v low hpc hlt

theorem step_item (s : State) {t : ℕ} {w : Purpose} {d : Locals} {i : Item} {todo : List Item} (rc sz total : ℕ)
    (hpc : s.pc t = .reporting w d (i :: todo)) : Step s (itemStep s t w d todo rc sz total i) := by
  cases i with
  | print line => exact .print t w d line todo hpc
  | loadLow => exact .read t w d _ _ todo hpc (fun _ h => by cases h) rfl (Or.inl rfl)
  | _ => exact .read t w d _ _ todo hpc (fun _ h => by cases h) rfl (Or.inr ⟨rfl, fun h => by cases h⟩)

/-- **Inversion.** -/
theorem step_cases {s s' : State} {l : Label} (h : step s l = some s') : Step s s' := by
  cases l with
  | note t => exact step_of_note h
  | new t r =>
    simp only [step] at h
    split at h
    · next hpc => exact Option.some.inj h ▸ .new t r hpc
    · cases h
  | memCensus t place =>
    simp only [step] at h
    split at h
    · next hpc => exact Option.some.inj h ▸ .census t place hpc
    · cases h
  | alloc t a =>
    simp only [step] at h
    split at h
    · next hpc => exact Option.some.inj h ▸ step_alloc s a hpc
    · cases h
  | fetchAdd t =>
    simp only [step] at h
    split at h
    · next hpc => exact Option.some.inj h ▸ step_fetchAdd s hpc
    · cases h
  | query t rc v =>
    simp only [step] at h
    split at h
    · next w hpc => exact Option.some.inj h ▸ .query t w rc v hpc
    · cases h
  | storeErr t =>
    simp only [step] at h
    split at h
    · next hpc => exact Option.some.inj h ▸ step_storeErr s hpc
    · cases h
  | loadLow t =>
    simp only [step] at h
    split at h
    · next w v hpc => exact Option.some.inj h ▸ .load t w v hpc
    · cases h
  | turn t spurious =>
    simp only [step] at h
    split at h
    · next hpc => exact Option.some.inj h ▸ step_turn s spurious hpc
    · cases h
  | item t rc sz total =>
    simp only [step] at h
    split at h
    · next hpc => exact Option.some.inj h ▸ step_item s rc sz total hpc
    · cases h
  | done t =>
    simp only [step] at h
    split at h
    · next w d hpc =>
      obtain rfl := Option.some.inj h
      cases w with
      | census place => exact .counted t place d hpc
      | refusal r => exact .told t r d hpc
    · cases h

end OrbisCompat.Mem
