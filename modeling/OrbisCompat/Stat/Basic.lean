import OrbisCompat.Lib.Layout

/-!
# `src/orbis_stat.cpp`: `translate`

The kernel fills a `struct stat` of another layout than the SDK's header declares.  `translate` copies it field by field, and then
writes the size once more, where code that was compiled against the kernel's layout reads it.
-/

namespace OrbisCompat.Stat

/-- The fields of a `struct stat`. -/
inductive Field
  | dev | ino | mode | nlink | uid | gid | rdev
  | atimSec | atimNsec | mtimSec | mtimNsec | ctimSec | ctimNsec
  | size | blocks | blksize | flags | gen
  | birthSec | birthNsec
  deriving DecidableEq, Repr

/-! ### The kernel's layout -/

def kDev : ℕ := 0x00
def kIno : ℕ := 0x04
def kMode : ℕ := 0x08
def kNlink : ℕ := 0x0a
def kUid : ℕ := 0x0c
def kGid : ℕ := 0x10
def kRdev : ℕ := 0x14
def kAtim : ℕ := 0x18
def kMtim : ℕ := 0x28
def kCtim : ℕ := 0x38
def kSize : ℕ := 0x48
def kBlocks : ℕ := 0x50
def kBlksize : ℕ := 0x58
def kFlags : ℕ := 0x5c
def kGen : ℕ := 0x60
def kBirth : ℕ := 0x68

def kernelOffset : Field → ℕ
  | .dev => kDev
  | .ino => kIno
  | .mode => kMode
  | .nlink => kNlink
  | .uid => kUid
  | .gid => kGid
  | .rdev => kRdev
  | .atimSec => kAtim
  | .atimNsec => kAtim + 8
  | .mtimSec => kMtim
  | .mtimNsec => kMtim + 8
  | .ctimSec => kCtim
  | .ctimNsec => kCtim + 8
  | .size => kSize
  | .blocks => kBlocks
  | .blksize => kBlksize
  | .flags => kFlags
  | .gen => kGen
  | .birthSec => kBirth
  | .birthNsec => kBirth + 8

def kernelWidth : Field → ℕ
  | .mode | .nlink => 2
  | .dev | .ino | .uid | .gid | .rdev | .blksize | .flags | .gen => 4
  | _ => 8

/-- `kSonyStatSize`. -/
def kSonyStatSize : ℕ := 120

/-- The layout that the kernel fills. -/
def kernel : Layout Field where
  offset := kernelOffset
  width := kernelWidth
  size := kSonyStatSize
  within f := by cases f <;> decide
  disjoint f g := by cases f <;> cases g <;> decide

/-! ### The translation -/

/-- `fieldAt<T>(raw, off)`, for a `T` of `k` bytes. -/
def fieldAt (k : ℕ) (raw : FlatMem) (off : ℕ) : ℕ := FlatMem.load raw off k

/-- `readTimespec`, as what is assigned to the fields `sec` and `nsec`. -/
def readTimespec (raw : FlatMem) (off : ℕ) (sec nsec : Field) : List (Field × ℕ) :=
  [(sec, fieldAt 8 raw off), (nsec, fieldAt 8 raw (off + 8))]

/-- The assignments of `translate`. -/
def assignments (raw : FlatMem) : List (Field × ℕ) :=
  [(.dev, fieldAt 4 raw kDev), (.ino, fieldAt 4 raw kIno), (.mode, fieldAt 2 raw kMode), (.nlink, fieldAt 2 raw kNlink),
    (.uid, fieldAt 4 raw kUid), (.gid, fieldAt 4 raw kGid), (.rdev, fieldAt 4 raw kRdev), (.size, fieldAt 8 raw kSize),
    (.blocks, fieldAt 8 raw kBlocks), (.blksize, fieldAt 4 raw kBlksize), (.flags, fieldAt 4 raw kFlags),
    (.gen, fieldAt 4 raw kGen)] ++
  readTimespec raw kAtim .atimSec .atimNsec ++ readTimespec raw kMtim .mtimSec .mtimNsec ++
  readTimespec raw kCtim .ctimSec .ctimNsec ++ readTimespec raw kBirth .birthSec .birthNsec

/-- `translate`, to the `struct stat` of the layout `sdk`. -/
def translate (sdk : Layout Field) (raw out : FlatMem) : FlatMem :=
  let out := FlatMem.memset out 0 0 sdk.size
  let out := sdk.setAll out (assignments raw)
  -- the size again, for a reader of the kernel's layout
  let trueSize := fieldAt 8 raw kSize
  FlatMem.store out kSize (FlatMem.bytesLE 8 trueSize)

/-- What is known of the SDK's header: the offsets that were measured, and types that hold what the kernel's do. -/
structure Measured (sdk : Layout Field) : Prop where
  dev : sdk.offset .dev = 0
  ino : sdk.offset .ino = 4
  mode : sdk.offset .mode = 8 ∧ sdk.width .mode = 4
  nlink : sdk.offset .nlink = 12 ∧ sdk.width .nlink = 2
  uid : sdk.offset .uid = 16
  atim : sdk.offset .atimSec = 32 ∧ sdk.offset .atimNsec = 40
  mtim : sdk.offset .mtimSec = 48 ∧ sdk.offset .mtimNsec = 56
  ctim : sdk.offset .ctimSec = 64 ∧ sdk.offset .ctimNsec = 72
  size : sdk.offset .size = 80
  blocks : sdk.offset .blocks = 88
  blksize : sdk.offset .blksize = 96
  sizeof : sdk.size = 128
  words : ∀ f, kernelWidth f = 8 → sdk.width f = 8
  holds : ∀ f, kernelWidth f ≤ sdk.width f

end OrbisCompat.Stat
