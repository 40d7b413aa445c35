import OrbisCompat.Stat.Basic

/-!
# The two readers of a translated `struct stat`

A reader that was compiled against the SDK's header finds every field with the kernel's value, but the size in the place of
`st_ctim.tv_nsec` (`sdk_reads`).  One that was compiled against the kernel's layout reads parts of the SDK's fields, so what
it finds follows from that (`FlatMem.load_within`).
-/

namespace OrbisCompat.Stat

variable {sdk : Layout Field} {raw out : FlatMem} {f : Field} {v x : ℕ}

/-! ### The assignments -/

/-- Every field is assigned once, and that with the kernel's value. -/
theorem nodup_assignments (raw : FlatMem) : ((assignments raw).map Prod.fst).Nodup := by
  show [Field.dev, .ino, .mode, .nlink, .uid, .gid, .rdev, .size, .blocks, .blksize, .flags, .gen, .atimSec, .atimNsec,
    .mtimSec, .mtimNsec, .ctimSec, .ctimNsec, .birthSec, .birthNsec].Nodup
  decide

theorem mem_assignments (raw : FlatMem) (f : Field) : (f, kernel.get raw f) ∈ assignments raw := by
  cases f <;> simp [assignments, readTimespec, fieldAt, Layout.get, kernel, kernelOffset, kernelWidth]

/-- A value of the kernel's fits into the SDK's field. -/
theorem kernel_get_lt (hsdk : Measured sdk) (raw : FlatMem) (f : Field) : kernel.get raw f < 256 ^ sdk.width f :=
  (FlatMem.load_lt raw _ _).trans_le (Nat.pow_le_pow_right (by decide) (hsdk.holds f))

/-! ### The SDK's reader -/

/-- **The SDK's reader** finds the kernel's value, but for one field. -/
theorem sdk_reads (hsdk : Measured sdk) (hf : f ≠ .ctimNsec) : sdk.get (translate sdk raw out) f = kernel.get raw f := by
  unfold translate
  dsimp only
  rw [Layout.get_store_of_disjoint]
  · -- the assignments do not overlap, and `memset` is before them all
    rw [Layout.get_setAll (nodup_assignments raw) (mem_assignments raw f), Nat.mod_eq_of_lt (kernel_get_lt hsdk raw f)]
  · -- the second writer stays within `st_ctim.tv_nsec`
    have hdisjoint := sdk.disjoint f .ctimNsec hf
    rw [hsdk.ctim.2, hsdk.words .ctimNsec rfl] at hdisjoint
    rw [FlatMem.length_bytesLE]
    exact hdisjoint

/-- There it finds the size. -/
theorem sdk_reads_ctimNsec (hsdk : Measured sdk) :
    sdk.get (translate sdk raw out) .ctimNsec = kernel.get raw .size := by
  unfold translate Layout.get
  dsimp only
  rw [hsdk.ctim.2, hsdk.words .ctimNsec rfl]
  have h := FlatMem.load_store (sdk.setAll (FlatMem.memset out 0 0 sdk.size) (assignments raw)) kSize
    (FlatMem.bytesLE 8 (fieldAt 8 raw kSize))
  rw [FlatMem.length_bytesLE, FlatMem.valueLE_bytesLE] at h
  exact h.trans (Nat.mod_eq_of_lt (FlatMem.load_lt raw kSize 8))

/-- Nothing behind the `struct stat` is written. -/
theorem translate_frame (hsdk : Measured sdk) (h : sdk.size ≤ x) : translate sdk raw out x = out x := by
  have hx : 128 ≤ x := hsdk.sizeof ▸ h
  unfold translate
  rw [FlatMem.store_of_not_mem, Layout.setAll_frame h]
  · unfold FlatMem.memset
    exact if_neg fun hin => by omega
  · right
    rw [FlatMem.length_bytesLE]
    exact (show kSize + 8 ≤ 128 by decide).trans hx

/-! ### The reader of the kernel's layout -/

theorem kernel_get (st : FlatMem) (f : Field) :
    kernel.get st f = FlatMem.load st (kernelOffset f) (kernelWidth f) := rfl

/-- What lies within a field of the SDK's. -/
theorem kernel_get_within (st : FlatMem) {g : Field} {i : ℕ} (hoffset : kernelOffset f = sdk.offset g + i)
    (hwidth : i + kernelWidth f ≤ sdk.width g) :
    kernel.get st f = sdk.get st g / 256 ^ i % 256 ^ kernelWidth f := by
  rw [kernel_get, hoffset]
  exact FlatMem.load_within st hwidth

/-- A field that covers one of the SDK's. -/
theorem kernel_get_exact (hsdk : Measured sdk) (st : FlatMem) {g : Field} (hoffset : kernelOffset f = sdk.offset g)
    (hf : kernelWidth f = 8) (hg : kernelWidth g = 8) : kernel.get st f = sdk.get st g := by
  rw [kernel_get, hoffset, hf, Layout.get, hsdk.words g hg]

/-- The mode is in the lower half of the SDK's, -/
theorem kernel_reads_mode (hsdk : Measured sdk) :
    kernel.get (translate sdk raw out) .mode = kernel.get raw .mode := by
  have hmode : sdk.get (translate sdk raw out) .mode = kernel.get raw .mode := sdk_reads hsdk (by decide)
  have hoffset : kernelOffset .mode = sdk.offset .mode + 0 := by rw [hsdk.mode.1]; rfl
  rw [kernel_get_within _ hoffset (by rw [hsdk.mode.2]; decide), hmode, pow_zero, Nat.div_one]
  exact Nat.mod_eq_of_lt (FlatMem.load_lt raw _ _)

/-- and the link count is the upper half. -/
theorem kernel_reads_nlink (hsdk : Measured sdk) : kernel.get (translate sdk raw out) .nlink = 0 := by
  have hmode : sdk.get (translate sdk raw out) .mode = kernel.get raw .mode := sdk_reads hsdk (by decide)
  have hlt : kernel.get raw .mode < 256 ^ 2 := FlatMem.load_lt raw _ _
  have hoffset : kernelOffset .nlink = sdk.offset .mode + 2 := by rw [hsdk.mode.1]; rfl
  rw [kernel_get_within _ hoffset (by rw [hsdk.mode.2]; decide), hmode, Nat.div_eq_of_lt hlt, Nat.zero_mod]

/-- The size is where the second writer puts it. -/
theorem kernel_reads_size (hsdk : Measured sdk) :
    kernel.get (translate sdk raw out) .size = kernel.get raw .size := by
  have hoffset : kernelOffset .size = sdk.offset .ctimNsec := hsdk.ctim.2.symm
  rw [kernel_get_exact hsdk _ hoffset rfl rfl, sdk_reads_ctimNsec hsdk]

/-- The time of the last modification is made of the fields that the SDK's layout has there. -/
theorem kernel_reads_mtim (hsdk : Measured sdk) :
    kernel.get (translate sdk raw out) .mtimSec = kernel.get raw .atimNsec ∧
      kernel.get (translate sdk raw out) .mtimNsec = kernel.get raw .mtimSec := by
  have hsec : kernelOffset .mtimSec = sdk.offset .atimNsec := hsdk.atim.2.symm
  have hnsec : kernelOffset .mtimNsec = sdk.offset .mtimSec := hsdk.mtim.1.symm
  rw [kernel_get_exact hsdk _ hsec rfl rfl, kernel_get_exact hsdk _ hnsec rfl rfl]
  exact ⟨sdk_reads hsdk (by decide), sdk_reads hsdk (by decide)⟩

/-- **Both readers** of a translated buffer: the SDK's finds all but one field, and the kernel's the size and the mode. -/
theorem translate_readers (hsdk : Measured sdk) (raw out : FlatMem) :
    (∀ f, f ≠ .ctimNsec → sdk.get (translate sdk raw out) f = kernel.get raw f) ∧
      sdk.get (translate sdk raw out) .ctimNsec = kernel.get raw .size ∧
      kernel.get (translate sdk raw out) .size = kernel.get raw .size ∧
      kernel.get (translate sdk raw out) .mode = kernel.get raw .mode ∧
      kernel.get (translate sdk raw out) .nlink = 0 ∧
      kernel.get (translate sdk raw out) .mtimSec = kernel.get raw .atimNsec ∧
      kernel.get (translate sdk raw out) .mtimNsec = kernel.get raw .mtimSec :=
  ⟨fun _ hf => sdk_reads hsdk hf, sdk_reads_ctimNsec hsdk, kernel_reads_size hsdk, kernel_reads_mode hsdk,
    kernel_reads_nlink hsdk, kernel_reads_mtim hsdk⟩

/-! ### A file of 64857 bytes -/

def sdkOffset : Field → ℕ
  | .dev => 0
  | .ino => 4
  | .mode => 8
  | .nlink => 12
  | .uid => 16
  | .gid => 20
  | .rdev => 24
  | .atimSec => 32
  | .atimNsec => 40
  | .mtimSec => 48
  | .mtimNsec => 56
  | .ctimSec => 64
  | .ctimNsec => 72
  | .size => 80
  | .blocks => 88
  | .blksize => 96
  | .flags => 100
  | .gen => 104
  | .birthSec => 112
  | .birthNsec => 120

def sdkWidth : Field → ℕ
  | .nlink => 2
  | .dev | .ino | .mode | .uid | .gid | .rdev | .blksize | .flags | .gen => 4
  | _ => 8

/-- A layout with the measured offsets. -/
def sdkStat : Layout Field where
  offset := sdkOffset
  width := sdkWidth
  size := 128
  within f := by cases f <;> decide
  disjoint f g := by cases f <;> cases g <;> decide

theorem measured_sdkStat : Measured sdkStat where
  dev := rfl
  ino := rfl
  mode := ⟨rfl, rfl⟩
  nlink := ⟨rfl, rfl⟩
  uid := rfl
  atim := ⟨rfl, rfl⟩
  mtim := ⟨rfl, rfl⟩
  ctim := ⟨rfl, rfl⟩
  size := rfl
  blocks := rfl
  blksize := rfl
  sizeof := rfl
  words f hf := by cases f <;> first | rfl | cases hf
  holds f := by cases f <;> decide

/-- What the kernel fills in for it. -/
def archive : FlatMem :=
  kernel.setAll (fun _ => 0) [(.mode, 0o100755), (.nlink, 1), (.mtimSec, 1785628800), (.size, 64857), (.blocks, 128)]

theorem translate_readers_archive :
    sdkStat.get (translate sdkStat archive fun _ => 0xFF) .size = 64857 ∧
      kernel.get (translate sdkStat archive fun _ => 0xFF) .size = 64857 := by
  obtain ⟨hsdk, -, hkernel, -⟩ := translate_readers measured_sdkStat archive fun _ => 0xFF
  have hsize : kernel.get archive .size = 64857 := by decide +kernel
  exact ⟨(hsdk .size (by decide)).trans hsize, hkernel.trans hsize⟩

/-- The reader of the kernel's layout finds neither its link nor when it was modified. -/
theorem kernel_misreads :
    kernel.get archive .nlink = 1 ∧ kernel.get (translate sdkStat archive fun _ => 0xFF) .nlink = 0 ∧
      kernel.get archive .mtimSec = 1785628800 ∧
      kernel.get (translate sdkStat archive fun _ => 0xFF) .mtimSec = 0 := by
  decide +kernel

end OrbisCompat.Stat
