import OrbisCompat.Mmap.Equiv.Interposer
import OrbisCompat.Mmap.Equiv.Serve

/-!
# What `orbis_mmap_counts` counts

`__mmap` counts an owned request as carved before `mapOwned` has looked for a block, and the fallback inside
`mapOwned` counts nothing.  So a request that finds no room is counted on the wrong side, and nothing else
is: `TrafficWorld.counts_iff`.
-/

namespace OrbisCompat.Mmap

variable {direct : Bool} {pf : Platform} {s s' : State} {w w' : TrafficWorld} {l : PlatformCall}

/-! ### One call -/

/-- A counter that goes up with its tally. -/
theorem bump_mod (n : ℕ) : bump (n % 2 ^ 64) 1 = (n + 1) % 2 ^ 64 := Nat.mod_add_mod _ _ _

/-- One more is another number, also on 64 bits. -/
theorem succ_mod_ne (n : ℕ) : (n + 1) % 2 ^ 64 ≠ n % 2 ^ 64 := by omega

/-- **`__mmap`** is counted right exactly when an owned request has room. -/
theorem TrafficWorld.Counts.mmap {r : MapRequest} (C : w.Counts) (P : w.st.Placed)
    (hpf : pf.Documented w.st.carveList) :
    TrafficWorld.Counts ⟨(mmap direct pf w.st r).1, w.traffic.mapped (mmap direct pf w.st r).2⟩ ↔
      PlatformCall.HasRoom direct w ⟨pf, .mmap r⟩ := by
  obtain ⟨hmaps, hcarved, hfell, hucarved, hufell⟩ := C
  have hmaps : w.st.mmapCalls = (w.traffic.mapsCarved + w.traffic.mapsFell) % 2 ^ 64 := hmaps
  have hcarved : w.st.mmapCarved = w.traffic.mapsCarved % 2 ^ 64 := hcarved
  have hfell : w.st.mmapFell = w.traffic.mapsFell % 2 ^ 64 := hfell
  have hone : ∀ m n : ℕ, m + 1 + n = m + n + 1 := by omega
  cases howned : isOwnedRequest r && direct with
  | false =>
    rw [mmap_foreign direct pf w.st howned]
    refine ⟨fun _ ho hd => ?_, fun _ => ⟨?_, hcarved, ?_, hucarved, hufell⟩⟩
    · rw [ho, hd] at howned
      cases howned
    · show bump w.st.mmapCalls 1 = (w.traffic.mapsCarved + (w.traffic.mapsFell + 1)) % 2 ^ 64
      rw [hmaps, bump_mod, Nat.add_assoc]
    · show bump w.st.mmapFell 1 = (w.traffic.mapsFell + 1) % 2 ^ 64
      rw [hfell, bump_mod]
  | true =>
    obtain ⟨ho, rfl⟩ := Bool.and_eq_true _ _ |>.mp howned
    rcases hm : Mmap.mmap true pf w.st r with ⟨s', a⟩
    obtain ⟨-, ⟨hroom, -⟩, hcounts⟩ := mmap_owned_exact P hpf ho hm
    have hhas : PlatformCall.HasRoom true w ⟨pf, .mmap r⟩ ↔ a.carved = true :=
      ⟨fun h => hroom.mpr (h ho rfl), fun h _ _ => hroom.mp h⟩
    refine Iff.trans ?_ hhas.symm
    cases ha : a.carved with
    | true =>
      -- counted as carved, and it was
      refine ⟨fun _ => rfl, fun _ => ?_⟩
      unfold Traffic.mapped
      rw [if_pos ha]
      refine ⟨?_, ?_, ?_, ?_, ?_⟩ <;> dsimp only <;> rw [hcounts]
      · rw [hmaps, bump_mod, hone]
      · rw [hcarved, bump_mod]
      · exact hfell
      · exact hucarved
      · exact hufell
    | false =>
      -- counted as carved, and the platform's
      refine ⟨fun C' => ?_, nofun⟩
      have hbad := C'.mapsCarved
      unfold Traffic.mapped at hbad
      rw [if_neg (by rw [ha]; exact Bool.false_ne_true)] at hbad
      dsimp only at hbad
      rw [hcounts] at hbad
      dsimp only at hbad
      rw [hcarved, bump_mod] at hbad
      exact absurd hbad (succ_mod_ne _)

/-- **`__munmap`** is always counted right. -/
theorem TrafficWorld.Counts.munmap (C : w.Counts) (addr len : ℕ) :
    TrafficWorld.Counts ⟨(munmap pf w.st addr len).1,
      w.traffic.unmapped (munmap pf w.st addr len).2⟩ := by
  obtain ⟨hmaps, hcarved, hfell, hucarved, hufell⟩ := C
  have hucarved' : w.st.munmapCarved = w.traffic.unmapsCarved % 2 ^ 64 := hucarved
  have hufell' : w.st.munmapFell = w.traffic.unmapsFell % 2 ^ 64 := hufell
  rcases munmap_inversion pf w.st addr len with
    ⟨-, hres⟩ | ⟨i, -, ⟨-, hres⟩ | ⟨c', -, hres⟩⟩ <;> rw [hres]
  · refine ⟨hmaps, hcarved, hfell, hucarved, ?_⟩
    show bump w.st.munmapFell 1 = (w.traffic.unmapsFell + 1) % 2 ^ 64
    rw [hufell', bump_mod]
  · exact ⟨hmaps, hcarved, hfell, hucarved, hufell⟩
  · refine ⟨hmaps, hcarved, hfell, ?_, hufell⟩
    show bump w.st.munmapCarved 1 = (w.traffic.unmapsCarved + 1) % 2 ^ 64
    rw [hucarved', bump_mod]

/-! ### Runs -/

/-- A call leads to one world. -/
theorem trafficStep_det (w : TrafficWorld) (l : PlatformCall) (u u' : TrafficWorld)
    (h : TrafficStep direct w l u) (h' : TrafficStep direct w l u') : u = u' := by
  cases h <;> cases h' <;> rfl

/-- The blocks stay in place. -/
theorem TrafficStep.placed (P : w.st.Placed) (h : TrafficStep direct w l w') : w'.st.Placed := by
  cases h with
  | mmap hpf _ => exact (mmap_keeps P hpf _).placed
  | munmap => exact (munmap_keeps P 0 _ _).placed
  | madvise => exact P

/-- A call is counted right exactly when it is no owned request without room. -/
theorem TrafficStep.counts_step (P : w.st.Placed) (C : w.Counts) (h : TrafficStep direct w l w') :
    w'.Counts ↔ l.HasRoom direct w := by
  cases h with
  | mmap hpf _ => exact C.mmap P hpf
  | munmap => exact ⟨fun _ => trivial, fun _ => C.munmap _ _⟩
  | madvise => exact ⟨fun _ => trivial, fun _ => C⟩

/-- **When the counters tell the traffic.**  In every run of calls, with any requests and any documented
answers of the platform: the counters agree with the answers in all states on the way exactly when every
owned request had room. -/
theorem TrafficWorld.counts_iff {mem : FlatMem} {ls : List PlatformCall}
    (h : Lts.Run (TrafficStep direct) (.init mem) ls w) :
    (∀ u, Lts.Visits (TrafficStep direct) (.init mem) ls w u → u.Counts) ↔
      Lts.Run (Lts.Guarded (fun w l => PlatformCall.HasRoom direct w l) (TrafficStep direct))
        (.init mem) ls w := by
  refine Lts.Run.visits_iff_guarded (I := fun w => w.st.Placed) trafficStep_det
    (fun _ _ _ P hs => hs.placed P) (fun _ _ _ P C hs => hs.counts_step P C) h ?_ ?_
  · intro c hc
    cases hc
  · exact ⟨rfl, rfl, rfl, rfl, rfl⟩

/-- A mapping, its unmapping, a foreign mapping and an unmapping elsewhere: one of each, and the counters
say so. -/
theorem counts_one_of_each : ∃ w, Lts.Run (TrafficStep true) (.init fun _ => 0)
      [⟨.idle, .mmap (ownedRequest 20000)⟩, ⟨.idle, .munmap 0x200000000 20000⟩,
        ⟨.refusing, .mmap ⟨0, 20000, 1, 2, 3, 0⟩⟩, ⟨.refusing, .munmap 0x1000 20000⟩] w ∧
    w.traffic = ⟨1, 1, 1, 1⟩ ∧ w.Counts := by
  have hroom : PlatformCall.HasRoom true (.init fun _ => 0) ⟨.idle, .mmap (ownedRequest 20000)⟩ :=
    fun _ _ => Or.inr ⟨by decide, by decide, 0, 0x200000000, by decide, by decide, by decide⟩
  have hforeign : ∀ w, PlatformCall.HasRoom true w ⟨.refusing, .mmap ⟨0, 20000, 1, 2, 3, 0⟩⟩ :=
    fun _ howned => absurd howned (by decide)
  have hgood : Lts.Run (Lts.Guarded (fun w l => PlatformCall.HasRoom true w l) (TrafficStep true))
      (.init fun _ => 0)
      [⟨.idle, .mmap (ownedRequest 20000)⟩, ⟨.idle, .munmap 0x200000000 20000⟩,
        ⟨.refusing, .mmap ⟨0, 20000, 1, 2, 3, 0⟩⟩, ⟨.refusing, .munmap 0x1000 20000⟩] _ :=
    .cons ⟨hroom, .mmap Platform.idle_documented (by decide)⟩
      (.cons ⟨trivial, .munmap (by decide) (by decide)⟩
        (.cons ⟨hforeign _, .mmap (Platform.refusing_documented _) (by decide)⟩
          (.cons ⟨trivial, .munmap (by decide) (by decide)⟩ (.nil _))))
  have hrun := hgood.mono fun _ _ _ hs => hs.2
  exact ⟨_, hrun, by decide +kernel,
    (TrafficWorld.counts_iff hrun).mpr hgood _ ⟨_, [], (List.append_nil _).symm, hrun, .nil _⟩⟩

/-- An owned request that the platform's `mmap` answers is counted as carved. -/
theorem not_counts_refused : ∃ w, Lts.Run (TrafficStep true) (.init fun _ => 0)
      [⟨.refusing, .mmap (ownedRequest 20000)⟩] w ∧
    w.traffic = ⟨0, 1, 0, 0⟩ ∧ (orbisMmapCounts w.st).mapsCarved = 1 ∧
    (orbisMmapCounts w.st).mapsFell = 0 ∧ ¬w.Counts := by
  have hmap : TrafficStep true (.init fun _ => 0) ⟨.refusing, .mmap (ownedRequest 20000)⟩ _ :=
    .mmap (Platform.refusing_documented _) (by decide)
  refine ⟨_, .cons hmap (.nil _), by decide +kernel, by decide +kernel, by decide +kernel,
    fun C => ?_⟩
  have hbad := C.mapsCarved
  revert hbad
  decide +kernel

end OrbisCompat.Mmap
