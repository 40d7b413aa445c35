import OrbisCompat.Boot.Basic

/-!
# What `ps4SignalAction` prints under the names of the registers

The words around a pair of selectors are named when the fault address is where it should be (`Anchored`).  The handler takes the first
pair there is: a register that holds a selector, three words in front of one that holds the other, hides the pair behind it
(`decoy_rawLines`).
-/

namespace OrbisCompat.Boot

variable {k : Machine} {w : Context} {mc : Fin 72} {l : Line} {info : UInt64} {si : Siginfo} {vq : VirtualQuery} {rip : UInt64}

/-! ### Which lines are about registers -/

/-- The formats of the named lines and of the raw dump. -/
def registerFormats : List String := [ripFormat, trapFormat, rawFormat]

theorem signalLine_format (k : Machine) (sig : ℤ) (info : UInt64) (si : Siginfo) :
    (signalLine k sig info si).format ∉ registerFormats := by
  unfold signalLine
  split_ifs
  · dsimp only
    decide
  · dsimp only
    decide

theorem frameLines_format {frames : List UInt64} (hl : l ∈ frameLines frames) : l.format ∉ registerFormats := by
  unfold frameLines at hl
  split_ifs at hl
  · obtain ⟨j, -, rfl⟩ := List.mem_map.mp hl
    exact (by decide : "fatal: frame[%02d..%02d] %016llx %016llx %016llx %016llx" ∉ registerFormats)
  · obtain rfl := List.mem_singleton.mp hl
    dsimp only
    decide

theorem spanLine_format (what : String) (span : Mmap.MmapDirectSpan) : (spanLine what span).format ∉ registerFormats := by
  unfold spanLine
  by_cases hblock : span.blockFound = true
  · rw [if_pos hblock]
    dsimp only
    decide
  · rw [if_neg hblock]
    dsimp only
    decide

theorem describeAddress_format {what : String} {p : UInt64} (hl : l ∈ describeAddress k what p) : l.format ∉ registerFormats := by
  unfold describeAddress at hl
  cases hvq : k.virtualQuery p with
  | none =>
    rw [hvq] at hl
    obtain rfl := List.mem_singleton.mp hl
    dsimp only
    decide
  | some vq =>
    rw [hvq] at hl
    rcases List.mem_cons.mp hl with rfl | hspan
    · exact (by decide : "fatal: %s %p is in %p-%p prot 0x%x (%s) %s%s%s%s" ∉ registerFormats)
    · obtain ⟨span, -, rfl⟩ := Option.map_eq_some_iff.mp (Option.mem_toList.mp hspan)
      exact spanLine_format what span

theorem dumpCodeAt_format (hl : l ∈ dumpCodeAt k rip) : l.format ∉ registerFormats := by
  unfold dumpCodeAt at hl
  cases hwindow : (k.virtualQuery rip).bind (codeWindow · rip) with
  | none =>
    rw [hwindow] at hl
    cases hl
  | some window =>
    rw [hwindow] at hl
    obtain ⟨i, -, rfl⟩ := List.mem_map.mp hl
    exact (by decide : "fatal: code %p%s: %s" ∉ registerFormats)

theorem rawLines_format (hl : l ∈ rawLines w) : l.format = rawFormat := by
  obtain ⟨i, -, rfl⟩ := List.mem_map.mp hl
  rfl

/-- Of the lines about a context only two are named, and none is of the raw dump. -/
theorem namedLines_format (hl : l ∈ namedLines w mc k) : l = ripLine w mc ∨ l = trapLine w mc ∨ l.format ∉ registerFormats := by
  unfold namedLines at hl
  rcases List.mem_cons.mp hl with rfl | hl
  · exact Or.inl rfl
  rcases List.mem_cons.mp hl with rfl | hl
  · exact Or.inr (Or.inl rfl)
  refine Or.inr (Or.inr ?_)
  rcases List.mem_append.mp hl with hl | hl
  · rcases List.mem_append.mp hl with hl | hl
    · exact describeAddress_format hl
    · split_ifs at hl
      · exact describeAddress_format hl
      · cases hl
  · exact dumpCodeAt_format hl

/-! ### The context -/

/-- The selectors of a user thread are three words apart, where a context from `mc` on has them. -/
def Selectors (w : Context) (mc : Fin 72) : Prop := w.field mc MC_CS = 0x43 ∧ w.field mc MC_SS = 0x3b

instance : Decidable (Selectors w mc) := inferInstanceAs (Decidable (_ ∧ _))

/-- The three checks of a position, for the fault address of a `siginfo_t`. -/
structure Anchored (w : Context) (addr : UInt64) (mc : Fin 72) : Prop where
  selectors : Selectors w mc
  addr_agrees : w.field mc MC_ADDR = addr

theorem isPair_iff : isPair w mc = true ↔ Selectors w mc := by
  unfold isPair Selectors
  rw [Bool.and_eq_true, beq_iff_eq, beq_iff_eq]

theorem isPair_eq_false_iff : isPair w mc = false ↔ ¬Selectors w mc := by
  rw [← isPair_iff, Bool.not_eq_true]

/-- The handler's position is the first pair. -/
theorem findMcontext_eq_some : findMcontext w = some mc ↔ Selectors w mc ∧ ∀ j < mc, ¬Selectors w j := by
  unfold findMcontext
  rw [Fin.find?_eq_some_iff, isPair_iff]
  simp only [isPair_eq_false_iff]

theorem findMcontext_eq_none : findMcontext w = none ↔ ∀ j, ¬Selectors w j := by
  unfold findMcontext
  rw [Fin.find?_eq_none_iff]
  simp only [isPair_eq_false_iff]

/-- The line in front of a raw dump says why there is one. -/
def Reason (w : Context) (addr : UInt64) (l : Line) : Prop :=
  (∀ mc, ¬Selectors w mc) ∧ l.args = [.int 96] ∨
    ∃ mc, findMcontext w = some mc ∧ w.field mc MC_ADDR ≠ addr ∧ l.args = [.int mc.val, .word (w.field mc MC_ADDR), .ptr addr]

theorem contextLines_of_agrees (hmc : findMcontext w = some mc) (haddr : infoIsPointer info = true → w.field mc MC_ADDR = si.si_addr) :
    contextLines w k info si = namedLines w mc k := by
  unfold contextLines
  rw [hmc]
  dsimp only
  refine if_pos ?_
  cases hinfo : infoIsPointer info with
  | false => rfl
  | true =>
    rw [haddr hinfo, beq_self_eq_true]
    rfl

theorem contextLines_of_not (hinfo : infoIsPointer info = true)
    (hnot : ∀ mc, findMcontext w = some mc → w.field mc MC_ADDR ≠ si.si_addr) :
    ∃ l, contextLines w k info si = l :: rawLines w ∧ l.format ∉ registerFormats ∧ Reason w si.si_addr l := by
  unfold contextLines
  cases hmc : findMcontext w with
  | none =>
    refine ⟨_, rfl, ?_, Or.inl ⟨findMcontext_eq_none.mp hmc, rfl⟩⟩
    dsimp only
    decide
  | some mc =>
    have hne := hnot mc hmc
    -- the check of the address fails, and there is a `siginfo_t` that it would have to agree with
    dsimp only
    rw [hinfo, beq_eq_false_iff_ne.mpr hne, if_neg (by decide), if_pos rfl]
    refine ⟨_, rfl, ?_, Or.inr ⟨mc, hmc, hne, rfl⟩⟩
    dsimp only
    decide

/-- The handler says a line, when it does not interrupt itself. -/
def Says (k : Machine) (sig : ℤ) (info : UInt64) (si : Siginfo) (uctx : Option Context) (l : Line) : Prop :=
  .log l ∈ (ps4SignalAction k false sig info si uctx).2

theorem says_iff {sig : ℤ} {uctx : Option Context} : Says k sig info si uctx l ↔ l ∈ actionLines k sig info si uctx := by
  unfold Says ps4SignalAction
  simp

/-- A line about the registers is one about the context. -/
theorem says_iff_of_register {sig : ℤ} (hl : l.format ∈ registerFormats) :
    Says k sig info si (some w) l ↔ l ∈ contextLines w k info si := by
  rw [says_iff]
  unfold actionLines
  rw [List.mem_cons, List.mem_append, Option.elim_some, or_iff_right, or_iff_right]
  · exact fun hframe => frameLines_format hframe hl
  · rintro rfl
    exact signalLine_format k sig info si hl

theorem ripFormat_mem : ripFormat ∈ registerFormats := List.mem_cons_self

theorem trapFormat_mem : trapFormat ∈ registerFormats := List.mem_cons_of_mem _ List.mem_cons_self

theorem rawFormat_mem : rawFormat ∈ registerFormats := List.mem_cons_of_mem _ (List.mem_cons_of_mem _ List.mem_cons_self)

/-- Where the first pair is taken, its lines are the only ones about registers. -/
theorem says_of_agrees (k : Machine) (sig : ℤ) (si : Siginfo) (hmc : findMcontext w = some mc)
    (haddr : infoIsPointer info = true → w.field mc MC_ADDR = si.si_addr) :
    Says k sig info si (some w) (ripLine w mc) ∧ Says k sig info si (some w) (trapLine w mc) ∧
      ∀ l, Says k sig info si (some w) l → l.format ∈ registerFormats → l = ripLine w mc ∨ l = trapLine w mc := by
  have hlines := contextLines_of_agrees (k := k) hmc haddr
  refine ⟨?_, ?_, ?_⟩
  · rw [says_iff_of_register ripFormat_mem, hlines]
    exact List.mem_cons_self
  · rw [says_iff_of_register trapFormat_mem, hlines]
    exact List.mem_cons_of_mem _ List.mem_cons_self
  · intro l hsays hformat
    rw [says_iff_of_register hformat, hlines] at hsays
    rcases namedLines_format hsays with hrip | htrap | hother
    · exact Or.inl hrip
    · exact Or.inr htrap
    · exact absurd hformat hother

/-- Where it is not, the lines about registers are the raw dump, behind a line that says why. -/
theorem says_of_not (k : Machine) (sig : ℤ) (si : Siginfo) (hinfo : infoIsPointer info = true)
    (hnot : ∀ mc, findMcontext w = some mc → w.field mc MC_ADDR ≠ si.si_addr) :
    (∃ l, Says k sig info si (some w) l ∧ Reason w si.si_addr l) ∧ (∀ i, Says k sig info si (some w) (rawLine w i)) ∧
      ∀ l, Says k sig info si (some w) l → l.format ∈ registerFormats → l.format = rawFormat := by
  obtain ⟨why, hlines, hwhy, hreason⟩ := contextLines_of_not (k := k) hinfo hnot
  refine ⟨⟨why, ?_, hreason⟩, ?_, ?_⟩
  · rw [says_iff]
    refine List.mem_cons_of_mem _ (List.mem_append_right _ ?_)
    rw [Option.elim_some, hlines]
    exact List.mem_cons_self
  · intro i
    rw [says_iff_of_register rawFormat_mem, hlines]
    exact List.mem_cons_of_mem _ (List.mem_map_of_mem (List.mem_finRange i))
  · intro l hsays hformat
    rw [says_iff_of_register hformat, hlines] at hsays
    rcases List.mem_cons.mp hsays with rfl | hraw
    · exact absurd hformat hwhy
    · exact rawLines_format hraw

/-- With a `siginfo_t` the registers are named from the first pair of selectors when the fault address agrees there, and a line under a
name is of a position that passes all three checks. -/
theorem named_registers (k : Machine) (sig : ℤ) (si : Siginfo) (w : Context) (hinfo : infoIsPointer info = true) :
    (∀ mc, Anchored w si.si_addr mc → (∀ j < mc, ¬Selectors w j) →
      Says k sig info si (some w) (ripLine w mc) ∧ Says k sig info si (some w) (trapLine w mc) ∧
        ∀ l, Says k sig info si (some w) l → l.format ≠ rawFormat) ∧
    ∀ l, Says k sig info si (some w) l → l.format = ripFormat ∨ l.format = trapFormat →
      ∃ mc, Anchored w si.si_addr mc ∧ (l = ripLine w mc ∨ l = trapLine w mc) := by
  constructor
  · rintro mc ⟨hsel, haddr⟩ hfirst
    obtain ⟨hrip, htrap, honly⟩ := says_of_agrees k sig si (findMcontext_eq_some.mpr ⟨hsel, hfirst⟩) fun _ => haddr
    refine ⟨hrip, htrap, ?_⟩
    intro l hsays hraw
    rcases honly l hsays (hraw ▸ rawFormat_mem) with rfl | rfl
    · exact absurd hraw (by decide : ripFormat ≠ rawFormat)
    · exact absurd hraw (by decide : trapFormat ≠ rawFormat)
  · -- a named line comes from the first pair, or there is no such line
    intro l hsays hname
    have hformat : l.format ∈ registerFormats := by
      rcases hname with hname | hname
      · exact hname ▸ ripFormat_mem
      · exact hname ▸ trapFormat_mem
    by_cases hagrees : ∃ mc, findMcontext w = some mc ∧ w.field mc MC_ADDR = si.si_addr
    · obtain ⟨mc, hmc, haddr⟩ := hagrees
      exact ⟨mc, ⟨(findMcontext_eq_some.mp hmc).1, haddr⟩, (says_of_agrees k sig si hmc fun _ => haddr).2.2 l hsays hformat⟩
    · have hraw := (says_of_not k sig si hinfo fun mc hmc haddr => hagrees ⟨mc, hmc, haddr⟩).2.2 l hsays hformat
      rw [hraw] at hname
      exact absurd hname (by decide)

/-- A machine without frames and mappings. -/
def Machine.bare : Machine := ⟨⟨11, 10, 8, 4, 6⟩, [], fun _ => none, false, Mmap.State.init fun _ => 0⟩

/-- A context that stands eight words behind the front, as it does on the console. -/
def measured : Context := Vector.ofFn fun i => match i.val with
  | 25 => 0x10
  | 29 => 0x43
  | 32 => 0x3b
  | _ => 0

theorem named_registers_measured :
    Says .bare 11 0x4000 ⟨1, 0x10⟩ (some measured) (ripLine measured 8) ∧
      Says .bare 11 0x4000 ⟨1, 0x10⟩ (some measured) (trapLine measured 8) ∧
      (∀ l, Says .bare 11 0x4000 ⟨1, 0x10⟩ (some measured) l → l.format ≠ rawFormat) ∧
      ∃ mc, Anchored measured 0x10 mc := by
  have hinfo : infoIsPointer 0x4000 = true := by decide
  have hnamed := named_registers .bare 11 ⟨1, 0x10⟩ measured hinfo
  have hanchored : Anchored measured 0x10 8 := ⟨by decide +kernel, by decide +kernel⟩
  obtain ⟨hrip, htrap, hraw⟩ := hnamed.1 8 hanchored (by decide +kernel)
  obtain ⟨mc, hmc, -⟩ := hnamed.2 _ hrip (Or.inl rfl)
  exact ⟨hrip, htrap, hraw, mc, hmc⟩

/-- A fault at `0x3b`, with `0x43` in a register that stands three words in front of the fault address. -/
def decoy : Context := Vector.ofFn fun i => match i.val with
  | 22 => 0x43
  | 25 => 0x3b
  | 29 => 0x43
  | 32 => 0x3b
  | _ => 0

/-- The context is there, and the handler dumps the words. -/
theorem decoy_rawLines :
    Anchored decoy 0x3b 8 ∧ (∀ mc, ¬Says .bare 11 0x4000 ⟨1, 0x3b⟩ (some decoy) (ripLine decoy mc)) ∧
      ∀ i, Says .bare 11 0x4000 ⟨1, 0x3b⟩ (some decoy) (rawLine decoy i) := by
  have hfind : findMcontext decoy = some 1 := by decide +kernel
  have hnot : ∀ mc, findMcontext decoy = some mc → decoy.field mc MC_ADDR ≠ 0x3b := by
    intro mc hmc
    obtain rfl := Option.some.inj (hfind.symm.trans hmc)
    decide +kernel
  obtain ⟨-, hraw, honly⟩ := says_of_not .bare 11 ⟨1, 0x3b⟩ (by decide : infoIsPointer 0x4000 = true) hnot
  refine ⟨⟨by decide +kernel, by decide +kernel⟩, ?_, hraw⟩
  intro mc hsays
  exact absurd (honly _ hsays ripFormat_mem) (by decide : ripFormat ≠ rawFormat)

end OrbisCompat.Boot
