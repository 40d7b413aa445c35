import OrbisCompat.Boot.Basic

/-!
# What `dumpCodeAt` reads

A fault within the handler ends the process in silence, so it reads only what the kernel has said is readable: the memory counts only
within the mapping of the address, and only where that is committed and can be read (`dumpCodeAt_congr`).
-/

namespace OrbisCompat.Boot

variable {k : Machine} {vq : VirtualQuery} {rip lo hi : UInt64} {row stop a : ℕ}

/-- The mapping of an address can be read at `a`. -/
structure Readable (k : Machine) (rip : UInt64) (a : ℕ) : Prop where
  mapped : ∃ vq, k.virtualQuery rip = some vq ∧ vq.isCommitted = true ∧ vq.unk04 &&& 1 ≠ 0 ∧ vq.unk01.toNat ≤ a ∧ a < vq.unk02.toNat

/-- The window is a part of the mapping, with `rip` in it, and of 16 bytes at most on each side. -/
structure Window (vq : VirtualQuery) (rip lo hi : UInt64) : Prop where
  committed : vq.isCommitted = true
  read : vq.unk04 &&& 1 ≠ 0
  start : vq.unk01.toNat ≤ lo.toNat
  lo_le : lo.toNat ≤ rip.toNat
  lt_hi : rip.toNat < hi.toNat
  stop : hi.toNat ≤ vq.unk02.toNat
  before : rip.toNat ≤ lo.toNat + 16
  behind : hi.toNat ≤ rip.toNat + 16

theorem window_lo (h : vq.unk01 ≤ rip) (hlo : lo = if rip - vq.unk01 ≥ 16 then rip - 16 else vq.unk01) :
    vq.unk01.toNat ≤ lo.toNat ∧ lo.toNat ≤ rip.toNat ∧ rip.toNat ≤ lo.toNat + 16 := by
  have hle := UInt64.le_iff_toNat_le.mp h
  have hsub := UInt64.toNat_sub_of_le _ _ h
  have h16 : (16 : UInt64).toNat = 16 := rfl
  split_ifs at hlo with hfar
  · have hnat := UInt64.le_iff_toNat_le.mp hfar
    -- sixteen bytes in front of `rip` are still in the mapping
    have hback : (rip - 16).toNat = rip.toNat - 16 :=
      UInt64.toNat_sub_of_le _ _ (UInt64.le_iff_toNat_le.mpr (by omega))
    rw [hlo, hback]
    omega
  · have hnat := mt UInt64.le_iff_toNat_le.mpr hfar
    rw [hlo]
    omega

theorem window_hi (h : rip < vq.unk02) (hhi : hi = if vq.unk02 - rip > 16 then rip + 16 else vq.unk02) :
    rip.toNat < hi.toNat ∧ hi.toNat ≤ vq.unk02.toNat ∧ hi.toNat ≤ rip.toNat + 16 := by
  have hlt := UInt64.lt_iff_toNat_lt.mp h
  have hsub := UInt64.toNat_sub_of_le _ _ (UInt64.le_of_lt h)
  have hbound := vq.unk02.toNat_lt
  have h16 : (16 : UInt64).toNat = 16 := rfl
  split_ifs at hhi with hfar
  · have hnat := UInt64.lt_iff_toNat_lt.mp hfar
    -- the end of the mapping is further on, so the sum does not wrap
    have hadd : (rip + 16).toNat = rip.toNat + 16 := by
      rw [UInt64.toNat_add, h16, Nat.mod_eq_of_lt (by omega)]
    rw [hhi, hadd]
    omega
  · have hnat := mt UInt64.lt_iff_toNat_lt.mpr hfar
    rw [hhi]
    omega

theorem window_of_codeWindow (h : codeWindow vq rip = some (lo, hi)) : Window vq rip lo hi := by
  unfold codeWindow at h
  dsimp only at h
  by_cases hread : (!vq.isCommitted || vq.unk04 &&& 1 == 0) = true
  · rw [if_pos hread] at h
    cases h
  by_cases hin : rip < vq.unk01 ∨ rip ≥ vq.unk02
  · rw [if_neg hread, if_pos hin] at h
    cases h
  rw [if_neg hread, if_neg hin] at h
  rw [Bool.or_eq_true, Bool.not_eq_true', beq_iff_eq, not_or, Bool.not_eq_false] at hread
  rw [not_or, UInt64.not_lt, UInt64.not_le] at hin
  obtain ⟨hlo, hhi⟩ := Prod.mk.inj (Option.some.inj h)
  obtain ⟨hstart, hle, hbefore⟩ := window_lo hin.1 hlo.symm
  obtain ⟨hlt, hstop, hbehind⟩ := window_hi hin.2 hhi.symm
  exact ⟨hread.1, hread.2, hstart, hle, hlt, hstop, hbefore, hbehind⟩

theorem mem_rowAddrs : a ∈ rowAddrs row stop ↔ row ≤ a ∧ a < stop ∧ a < row + 16 := by
  unfold rowAddrs
  rw [List.mem_range'_1]
  omega

theorem rowLine_congr {mem mem' : FlatMem} (p : ℕ) (h : ∀ a ∈ rowAddrs row stop, mem a = mem' a) :
    rowLine mem p row stop = rowLine mem' p row stop := by
  have hbytes : (rowAddrs row stop).map (fun b => hexByte (mem b)) = (rowAddrs row stop).map fun b => hexByte (mem' b) :=
    List.map_congr_left fun a ha => by rw [h a ha]
  unfold rowLine
  rw [hbytes]

/-- The handler's memory. -/
def Machine.setMem (k : Machine) (mem : FlatMem) : Machine := { k with mmap := { k.mmap with mem } }

@[simp] theorem Machine.setMem_virtualQuery (k : Machine) (mem : FlatMem) : (k.setMem mem).virtualQuery = k.virtualQuery := rfl

/-- What `dumpCodeAt` prints depends on the memory only where the kernel has said that it is readable. -/
theorem dumpCodeAt_congr (mem : FlatMem) (h : ∀ a, Readable k rip a → mem a = k.mmap.mem a) :
    dumpCodeAt (k.setMem mem) rip = dumpCodeAt k rip := by
  unfold dumpCodeAt
  rw [Machine.setMem_virtualQuery]
  cases hquery : k.virtualQuery rip with
  | none => rfl
  | some vq =>
    cases hcode : codeWindow vq rip with
    | none =>
      rw [Option.bind_some, hcode]
    | some window =>
      obtain ⟨lo, hi⟩ := window
      have hwindow := window_of_codeWindow hcode
      rw [Option.bind_some, hcode]
      refine List.map_congr_left fun i _ => rowLine_congr _ fun a ha => ?_
      obtain ⟨hrow, hstop, -⟩ := mem_rowAddrs.mp ha
      have hstart := hwindow.start
      have hend := hwindow.stop
      exact h a ⟨vq, hquery, hwindow.committed, hwindow.read, by omega, by omega⟩

end OrbisCompat.Boot
