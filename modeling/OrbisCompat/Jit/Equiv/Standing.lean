import OrbisCompat.Jit.Equiv.FreeList
import OrbisCompat.Jit.Equiv.Placing
import OrbisCompat.Jit.Equiv.Suballocator
import OrbisCompat.Jit.Loose

/-!
# What the kernel holds for the arenas

`Standing sites k returned` is what no client can break: the sites are apart from each other, in the
address space and in direct memory, the kernel holds one mapping and one allocation for each of them
and nothing else, and the base of every dedicated one has been returned.

Taking and giving back blocks moves no site (`takeAt_sites`, `orbisJitFree_cases`).  A new arena adds
one (`Standing.push`), and a dedicated one that is freed takes its own away (`Standing.remove`).
-/

namespace OrbisCompat.Jit

open Extent

/-- **The invariant.** -/
structure Standing (sites : List Site) (k : Holdings) (returned : List ℕ) : Prop where
  count : sites.length ≤ orbisJitMaxArenas
  granules : ∀ t ∈ sites, 0 < t.extent.len ∧ 16384 ∣ t.extent.start ∧ 16384 ∣ t.extent.len
  user : ∀ t ∈ sites, 0 < t.extent.start ∧ t.extent.stop ≤ userEnd
  same_len : ∀ t ∈ sites, t.direct.len = t.extent.len
  apart : sites.Pairwise fun t u => Apart t.extent u.extent
  direct_apart : sites.Pairwise fun t u => Apart t.direct u.direct
  mapped : k.mapped.Perm (sites.map Site.extent)
  direct : k.direct.Perm (sites.map Site.direct)
  owned : ∀ t ∈ sites, t.dedicated = true → t.extent.start ∈ returned

/-- The invariant of a world. -/
def LooseWorld.Ok (w : LooseWorld) : Prop := Standing w.st.sites w.st.kernel w.returned

variable {anchor : ℕ} {pf : Platform} {s s' : State} {returned : List ℕ}

namespace Standing

variable {sites : List Site} {k : Holdings}

theorem empty (returned : List ℕ) : Standing [] {} returned :=
  ⟨Nat.zero_le _, by simp, by simp, by simp, .nil, .nil, .nil, .nil, by simp⟩

theorem nodup_mapped (S : Standing sites k returned) : k.mapped.Nodup := by
  refine S.mapped.nodup_iff.mpr (nodup_of_apart (List.pairwise_map.mpr S.apart) fun e he => ?_)
  obtain ⟨t, ht, rfl⟩ := List.mem_map.mp he
  exact (S.granules t ht).1

theorem nodup_direct (S : Standing sites k returned) : k.direct.Nodup := by
  refine S.direct.nodup_iff.mpr
    (nodup_of_apart (List.pairwise_map.mpr S.direct_apart) fun e he => ?_)
  obtain ⟨t, ht, rfl⟩ := List.mem_map.mp he
  rw [S.same_len t ht]
  exact (S.granules t ht).1

/-- More pointers may have been returned. -/
theorem mono {returned' : List ℕ} (S : Standing sites k returned)
    (hsub : ∀ p ∈ returned, p ∈ returned') : Standing sites k returned' :=
  { S with owned := fun t ht hd => hsub _ (S.owned t ht hd) }

/-- **Adding an arena** that was allocated and mapped. -/
theorem push (S : Standing sites k returned) {t : Site} (hroom : sites.length < orbisJitMaxArenas)
    (hgran : 0 < t.extent.len ∧ 16384 ∣ t.extent.start ∧ 16384 ∣ t.extent.len)
    (huser : 0 < t.extent.start ∧ t.extent.stop ≤ userEnd) (hlen : t.direct.len = t.extent.len)
    (hap : ∀ u ∈ sites, Apart t.extent u.extent) (hdir : ∀ u ∈ sites, Apart t.direct u.direct)
    (howned : t.dedicated = true → t.extent.start ∈ returned) :
    Standing (sites ++ [t]) ((k.allocateDirectMemory t.direct.start t.direct.len).mapDirectMemory
      t.extent.start t.extent.len) returned := by
  have hall : ∀ {P : Site → Prop}, (∀ u ∈ sites, P u) → P t → ∀ u ∈ sites ++ [t], P u :=
    fun h1 h2 u hu => by
      rcases List.mem_append.mp hu with hu | hu
      · exact h1 u hu
      · exact List.mem_singleton.mp hu ▸ h2
  have hlast : ∀ {R : Site → Site → Prop}, sites.Pairwise R → (∀ u ∈ sites, R u t) →
      (sites ++ [t]).Pairwise R := fun h1 h2 =>
    List.pairwise_append.mpr ⟨h1, List.pairwise_singleton _ _, fun u hu v hv =>
      List.mem_singleton.mp hv ▸ h2 u hu⟩
  refine ⟨?_, hall S.granules hgran, hall S.user huser, hall S.same_len hlen,
    hlast S.apart fun u hu => (hap u hu).symm, hlast S.direct_apart fun u hu => (hdir u hu).symm,
    ?_, ?_, hall S.owned howned⟩
  · rw [List.length_append]
    exact hroom
  · rw [List.map_append]
    exact (S.mapped.cons _).trans (List.perm_append_singleton _ _).symm
  · rw [List.map_append]
    exact (S.direct.cons _).trans (List.perm_append_singleton _ _).symm

/-- **Removing an arena** together with its mapping and its allocation. -/
theorem remove {l₁ l₂ : List Site} {t : Site} (S : Standing (l₁ ++ t :: l₂) k returned) :
    Standing (l₁ ++ l₂) ((k.munmap t.extent.start t.extent.len).releaseDirectMemory t.direct.start
      t.direct.len) returned := by
  have hsub : (l₁ ++ l₂).Sublist (l₁ ++ t :: l₂) := by simp
  have herase : ∀ {f : Site → Extent} {l : List Extent}, l.Perm ((l₁ ++ t :: l₂).map f) →
      (l.erase (f t)).Perm ((l₁ ++ l₂).map f) := by
    intro f l hl
    have hmid : ((l₁ ++ t :: l₂).map f).Perm (f t :: (l₁ ++ l₂).map f) :=
      List.perm_middle.map f
    exact ((hl.trans hmid).erase _).trans (by rw [List.erase_cons_head])
  exact ⟨hsub.length_le.trans S.count, fun u hu => S.granules u (hsub.subset hu),
    fun u hu => S.user u (hsub.subset hu), fun u hu => S.same_len u (hsub.subset hu),
    S.apart.sublist hsub, S.direct_apart.sublist hsub, herase S.mapped, herase S.direct,
    fun u hu => S.owned u (hsub.subset hu)⟩

end Standing

/-! ### Calls that move no site -/

theorem sites_set {i : ℕ} {a : OrbisJitArena} (ha : a.site = (s.sArena.slot i).site) :
    ({ s with sArena := s.sArena.set i a } : State).sites = s.sites :=
  CTable.map_toList_set ha

theorem takeAt_sites {i len p : ℕ} (h : s.takeAt i len = some (s', p)) :
    s'.sites = s.sites ∧ s'.kernel = s.kernel := by
  obtain ⟨t, rfl⟩ := takeAt_fields h
  exact ⟨sites_set rfl, rfl⟩

/-! ### Calls that map -/

theorem Standing.inGranules {k : Holdings} (S : Standing s.sites k returned) :
    ∀ a ∈ s.arenas, a.InGranules := fun _ ha => S.granules _ (List.mem_map_of_mem ha)

theorem Standing.arenas_apart {k : Holdings} (S : Standing s.sites k returned) :
    s.arenas.Pairwise fun a b => Apart a.extent b.extent := by
  have h := List.pairwise_map.mp S.apart
  exact h

theorem Standing.arenas_user {k : Holdings} (S : Standing s.sites k returned) :
    ∀ a ∈ s.arenas, 0 < a.base ∧ a.base + a.size ≤ userEnd := fun _ ha =>
  S.user _ (List.mem_map_of_mem ha)

/-- A granted mapping stands as soon as it is entered in the table. -/
theorem Standing.enter {at' len base phys : ℕ} {s₁ : State} {a : OrbisJitArena}
    (S : Standing s.sites s.kernel returned) (hpf : pf.Documented s.arenas)
    (hnew : pf.FreshDirect s.kernel) (hroom : s.sArenas < orbisJitMaxArenas) (hlen : 16384 ∣ len)
    (hg : Granted pf at' len base phys) (hap : ∀ b ∈ s.arenas, Apart ⟨base, len⟩ b.extent)
    (hsame : s₁.sArena = s.sArena)
    (hk : s₁.kernel = (s.kernel.allocateDirectMemory phys len).mapDirectMemory base len)
    (ha : a.extent = ⟨base, len⟩ ∧ a.direct = ⟨phys, len⟩)
    (howned : a.dedicated = true → base ∈ returned) :
    Standing ({ s₁ with sArena := (s₁.sArena.set s₁.sArenas a).setLen (s₁.sArenas + 1) } :
      State).sites s₁.kernel returned := by
  obtain ⟨hpos, hbase, hdvd, huser⟩ := hg.spec hpf
  have hsites : ({ s₁ with sArena := (s₁.sArena.set s₁.sArenas a).setLen (s₁.sArenas + 1) } :
      State).sites = s.sites ++ [⟨⟨base, len⟩, ⟨phys, len⟩, a.dedicated⟩] := by
    show ((s₁.sArena.set s₁.sArena.n a).setLen (s₁.sArena.n + 1)).toList.map _ = _
    rw [CTable.toList_push, hsame, List.map_append, List.map_singleton, OrbisJitArena.site, ha.1,
      ha.2]
    rfl
  rw [hsites, hk]
  refine S.push (t := ⟨⟨base, len⟩, ⟨phys, len⟩, a.dedicated⟩) ?_ ⟨hpos, hdvd, hlen⟩
    ⟨hbase, huser⟩ rfl (fun u hu => ?_) (fun u hu => ?_) howned
  · rw [State.sites, List.length_map, State.arenas, CTable.length_toList]
    exact hroom
  · obtain ⟨b, hb, rfl⟩ := List.mem_map.mp hu
    exact hap b hb
  · -- the kernel knows what it has allocated already
    have hmem : u.direct ∈ s.kernel.direct :=
      S.direct.symm.subset (List.mem_map_of_mem hu)
    exact hnew len phys hg.allocated _ hmem

/-- **`orbis_jit_grow`**, whatever the length it is asked for. -/
theorem orbisJitGrow_standing {atleast flags : ℕ} {grown : Bool}
    (S : Standing s.sites s.kernel returned) (hpf : pf.Documented s.arenas)
    (hnew : pf.FreshDirect s.kernel) (hlen : atleast < 2 ^ 64)
    (h : orbisJitGrow anchor pf s atleast flags = some (s', grown)) :
    Standing s'.sites s'.kernel returned := by
  obtain ⟨hdvd, hlt, -⟩ := orbisJitArenaSize_spec pf.arenaMb hlen
  rcases orbisJitGrow_cases h with ⟨-, rfl⟩ | ⟨hroom, at', s₁, r, hplace, hmap, hres⟩
  · exact S
  obtain ⟨hsame, -, hgot⟩ := orbisJitMap_cases hpf hmap
  rcases hgot with ⟨rfl, hk⟩ | ⟨base, phys, rfl, hg, hk⟩
  · rcases hres with ⟨-, -, rfl⟩ | ⟨-, base, size, phys, hr, -⟩
    · rw [State.sites, State.arenas, hsame, hk]
      exact S
    · cases hr
  · rcases hres with ⟨-, hr, -⟩ | ⟨-, base', size, phys', hr, rfl⟩
    · cases hr
    · obtain ⟨rfl, rfl, rfl⟩ : base = base' ∧ _ = size ∧ phys = phys' := by simpa using hr
      exact S.enter hpf hnew hroom hdvd hg (hg.apart_place hpf S.inGranules hdvd hlt hplace) hsame hk
        ⟨rfl, rfl⟩ (by simp [orbisJitFresh])

/-- **`orbis_jit_alloc`**. -/
theorem orbisJitAlloc_standing {size flags p : ℕ} (S : Standing s.sites s.kernel returned)
    (hpf : pf.Documented s.arenas) (hnew : pf.FreshDirect s.kernel)
    (h : orbisJitAlloc anchor pf s size flags = some (s', p)) :
    Standing s'.sites s'.kernel returned := by
  have hlen : orbisJitBlockLen size < 2 ^ 64 := Nat.mod_lt _ (by norm_num)
  -- the header goes to memory, which no site is made of
  have htaken : ∀ {t : State} {i : ℕ} {r : State × ℕ}, Standing t.sites t.kernel returned →
      t.takeAt i (orbisJitBlockLen size) = some r →
      orbisJitHeader r.1 r.2 (orbisJitBlockLen size) = (s', p) →
      Standing s'.sites s'.kernel returned := by
    intro t i r St htake hr
    obtain ⟨hsites, hk⟩ := takeAt_sites htake
    obtain ⟨rfl, -⟩ := Prod.mk.inj hr
    show Standing r.1.sites r.1.kernel returned
    rw [hsites, hk]
    exact St
  rcases orbisJitAlloc_inversion h with ⟨i, -, -, r, htake, hr⟩ | ⟨s₁, grown, hgrow, hres⟩
  · exact htaken S htake hr
  · have S₁ := orbisJitGrow_standing S hpf hnew hlen hgrow
    rcases hres with ⟨-, rfl⟩ | ⟨-, r, htake, hr⟩
    · exact S₁
    · exact htaken S₁ htake hr

/-- **`orbis_jit_alloc_at`**: the base of the arena that it adds is what it returns. -/
theorem orbisJitAllocAt_standing {addr size p : ℕ} (S : Standing s.sites s.kernel returned)
    (hpf : pf.Documented s.arenas) (hnew : pf.FreshDirect s.kernel)
    (h : orbisJitAllocAt pf s addr size = some (s', p)) :
    Standing s'.sites s'.kernel (if p = 0 then returned else p :: returned) := by
  obtain ⟨hdvd, hlt⟩ := orbisJitMapLen_spec size
  rcases orbisJitAllocAt_inversion h with
    ⟨rfl, rfl⟩ | ⟨-, haligned, hroom, ⟨found, h0, hfound⟩, s₁, r, hmap, hres⟩
  · exact S
  obtain ⟨hsame, -, hgot⟩ := orbisJitMap_cases hpf hmap
  rcases hgot with ⟨rfl, hk⟩ | ⟨base, phys, rfl, hg, hk⟩
  · rcases hres with ⟨-, rfl, rfl⟩ | ⟨base, size', phys, hr, -⟩
    · rw [State.sites, State.arenas, hsame, hk]
      exact S
    · cases hr
  · rcases hres with ⟨hr, -⟩ | ⟨base', size', phys', hr, rfl, rfl⟩
    · cases hr
    · obtain ⟨rfl, rfl, rfl⟩ : base = p ∧ _ = size' ∧ phys = phys' := by simpa using hr
      have hap := hg.apart_search hpf S.inGranules haligned hdvd hlt hfound h0
      rw [if_neg (Nat.ne_of_gt (hg.spec hpf).2.1)]
      exact (S.mono fun q hq => List.mem_cons_of_mem _ hq).enter hpf hnew hroom hdvd hg hap hsame hk
        ⟨rfl, rfl⟩ fun _ => List.mem_cons_self

/-! ### Calls that give back -/

/-- **`orbis_jit_free`** of any address. -/
theorem orbisJitFree_standing (S : Standing s.sites s.kernel returned) (addr : ℕ) :
    Standing (orbisJitFree s addr).sites (orbisJitFree s addr).kernel returned := by
  rcases orbisJitFree_inversion s addr with h | ⟨i, -, hi, ⟨-, -, h⟩ | ⟨-, -, h⟩⟩
  · rw [h]
    exact S
  · have hsplit : s.sites = (s.arenas.take i).map OrbisJitArena.site
        ++ (s.sArena.slot i).site :: (s.arenas.drop (i + 1)).map OrbisJitArena.site := by
      have harenas : s.arenas = s.arenas.take i ++ s.sArena.slot i :: s.arenas.drop (i + 1) :=
        CTable.toList_split _ hi
      rw [State.sites, ← List.map_cons, ← List.map_append, ← harenas]
    have hdrop : (s.dropArena i).sites = (s.arenas.take i).map OrbisJitArena.site
        ++ (s.arenas.drop (i + 1)).map OrbisJitArena.site := by
      rw [State.sites, dropArena_arenas hi, List.map_append]
    rw [hsplit] at S
    rw [h, hdrop]
    exact S.remove
  · rw [h]
    show Standing (State.sites _) s.kernel returned
    rw [sites_set]
    · exact S
    · rw [orbisJitGive_fields]
      rfl

/-- **`orbis_jit_release_all`** gives back one site after the other, until nothing is left. -/
theorem releaseAll_kernel {as : List OrbisJitArena} {k : Holdings}
    (hmapped : k.mapped.Perm (as.map OrbisJitArena.extent))
    (hdirect : k.direct.Perm (as.map OrbisJitArena.direct)) :
    as.foldl (fun k a => (k.munmap a.base a.size).releaseDirectMemory a.phys a.size) k = {} := by
  induction as generalizing k with
  | nil =>
    obtain ⟨direct, mapped⟩ := k
    obtain rfl := hmapped.eq_nil
    obtain rfl := hdirect.eq_nil
    rfl
  | cons a as ih =>
    have hm : (k.mapped.erase a.extent).Perm (as.map OrbisJitArena.extent) := by
      simpa using hmapped.erase a.extent
    have hd : (k.direct.erase a.direct).Perm (as.map OrbisJitArena.direct) := by
      simpa using hdirect.erase a.direct
    exact ih hm hd

theorem Standing.releaseAll (S : Standing s.sites s.kernel returned) :
    (orbisJitReleaseAll s).kernel = {} := by
  have hmapped := S.mapped
  have hdirect := S.direct
  rw [State.sites, List.map_map] at hmapped hdirect
  exact releaseAll_kernel hmapped hdirect

/-! ### Runs -/

theorem LooseWorld.Ok.step {w w' : LooseWorld} {c : Call} (S : w.Ok)
    (h : LooseStep anchor w c w') : w'.Ok := by
  cases h with
  | alloc pf hpf hnew _ h =>
    refine (orbisJitAlloc_standing S hpf hnew h).mono fun q hq => ?_
    unfold LooseWorld.record
    dsimp only
    split_ifs
    · exact hq
    · exact List.mem_cons_of_mem _ hq
  | allocAt pf hpf hnew _ h => exact orbisJitAllocAt_standing S hpf hnew h
  | free addr => exact orbisJitFree_standing S addr
  | releaseAll =>
    show Standing [] (orbisJitReleaseAll w.st).kernel w.returned
    rw [Standing.releaseAll S]
    exact Standing.empty _
  | write mem => exact S

theorem LooseReaches.ok {mem : FlatMem} {cs : List Call} {w : LooseWorld}
    (h : LooseReaches anchor mem cs w) : w.Ok :=
  Lts.Run.preserves (P := LooseWorld.Ok) (fun _ _ _ S hs => S.step hs) h (Standing.empty _)

/-- **No leak and no double release.**  Whatever the clients do and whatever fails, the kernel holds
the mapping and the allocation of every arena in the table, each once, and nothing else; and
`orbis_jit_release_all` leaves it nothing. -/
theorem LooseReaches.holdings {mem : FlatMem} {cs : List Call} {w : LooseWorld}
    (h : LooseReaches anchor mem cs w) :
    w.st.kernel.mapped.Perm (w.st.arenas.map OrbisJitArena.extent) ∧ w.st.kernel.mapped.Nodup ∧
    w.st.kernel.direct.Perm (w.st.arenas.map OrbisJitArena.direct) ∧ w.st.kernel.direct.Nodup ∧
    (orbisJitReleaseAll w.st).kernel = {} := by
  have S : Standing w.st.sites w.st.kernel w.returned := h.ok
  have hmapped := S.mapped
  have hdirect := S.direct
  rw [State.sites, List.map_map] at hmapped hdirect
  exact ⟨hmapped, S.nodup_mapped, hdirect, S.nodup_direct, S.releaseAll⟩

/-- The console of `Platform.idle`, where the stub does not run. -/
def Platform.deaf : Platform := { Platform.idle with callStub := fun _ => 0 }

/-- A first arena fails at the stub, a second is taken, and the pointer freed is not one of its
blocks: the kernel holds the second arena until everything is released. -/
theorem holdings_after_refusal : ∃ w, LooseReaches 0 (fun _ => 0)
      [.alloc 100 0, .alloc 100 0, .free 0x200000041] w ∧
    w.st.kernel.mapped.Perm (w.st.arenas.map OrbisJitArena.extent) ∧
    w.st.arenas.map OrbisJitArena.extent = [⟨0x200000000, 0x1000000⟩] ∧
    (orbisJitReleaseAll w.st).kernel = {} := by
  have hrun : ((orbisJitAlloc 0 .deaf (State.init fun _ => 0) 100 0).bind fun r =>
      (orbisJitAlloc 0 .idle r.1 100 0).map fun q => (r.1.sArenas, r.1.kernel, r.2,
        (orbisJitFree q.1 0x200000041).arenas.map OrbisJitArena.extent))
      = some (0, {}, 0, [⟨0x200000000, 0x1000000⟩]) := by decide
  obtain ⟨⟨s₁, p₁⟩, h₁, hrest⟩ := Option.bind_eq_some_iff.mp hrun
  obtain ⟨⟨s₂, p₂⟩, h₂, hout⟩ := Option.map_eq_some_iff.mp hrest
  obtain ⟨hnone, hkernel, rfl, hextents⟩ : s₁.sArenas = 0 ∧ s₁.kernel = {} ∧ p₁ = 0 ∧
      (orbisJitFree s₂ 0x200000041).arenas.map OrbisJitArena.extent
        = [⟨0x200000000, 0x1000000⟩] := by simpa using hout
  have harenas : s₁.arenas = [] := List.eq_nil_of_length_eq_zero
    (by rw [State.arenas, CTable.length_toList]; exact hnone)
  have hdeaf : Platform.deaf.Documented [] := { Platform.idle_documented with }
  have hfresh : ∀ pf : Platform, pf.FreshDirect {} := fun _ _ _ _ e he => by cases he
  have hstep₁ : LooseStep 0 (LooseWorld.init fun _ => 0) (.alloc 100 0) ⟨s₁, []⟩ :=
    .alloc (w := LooseWorld.init fun _ => 0) .deaf hdeaf (hfresh _) (by norm_num) h₁
  have hstep₂ : LooseStep 0 ⟨s₁, []⟩ (.alloc 100 0) _ :=
    .alloc .idle (by rw [harenas]; exact Platform.idle_documented)
      (by rw [hkernel]; exact hfresh _) (by norm_num) h₂
  have hall : LooseReaches 0 (fun _ => 0) [.alloc 100 0, .alloc 100 0, .free 0x200000041] _ :=
    .cons hstep₁ (.cons hstep₂ (.cons (.free 0x200000041) (.nil _)))
  obtain ⟨hmapped, -, -, -, hnothing⟩ := hall.holdings
  exact ⟨_, hall, hmapped, hextents, hnothing⟩

end OrbisCompat.Jit
