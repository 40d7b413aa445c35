import OrbisCompat.Lib.Buffer
import OrbisCompat.Stat.Basic

/-!
# `src/orbis_paths.cpp` and the calls of `src/orbis_stat.cpp`: paths in a process without a working directory

A relative path is anchored: the root is put in front of it, in an array of 512 bytes of the caller's.  A C string is the list of
its characters, a null pointer `none`.  A result is `none` when the run stores behind an array's end.

What libkernel does is a parameter (`Libkernel`), and so are the names of the SDK's headers (`Headers`).
-/

namespace OrbisCompat.Paths

/-- A path, or a null pointer. -/
abbrev Path := Option (List Char)

/-- The calls of libkernel, on the state `K` of all that is behind them.  Those with an SCE name return a code, which is 0 when
they succeed; the others return an `errno` when they fail. -/
structure Libkernel (K : Type) where
  /-- `sceKernelGetAppInfo(getpid(), &info)`: the code, and `info.TitleId`. -/
  getAppInfo : K → ℕ × List Char
  /-- `mkdir`, as the `errno`, or 0. -/
  mkdir : List Char → ℕ → K → ℤ × K
  /-- `_open`. -/
  open_ : Path → ℕ → ℕ → K → Except ℤ ℕ × K
  /-- `fcntl(fd, F_SETFD, FD_CLOEXEC)`. -/
  setCloexec : ℕ → K → K
  /-- `sceKernelUnlink`. -/
  unlink : Path → K → ℕ × K
  /-- `sceKernelRename`. -/
  rename : Path → Path → K → ℕ × K
  /-- `sceKernelRmdir`. -/
  rmdir : Path → K → ℕ × K
  /-- `sceKernelStat`, with what it leaves in the buffer. -/
  stat : Path → K → ℕ × FlatMem × K
  /-- `_fstat`. -/
  fstat : ℤ → K → Except ℤ FlatMem × K

/-- What the SDK's headers name. -/
structure Headers where
  O_CREAT : ℕ
  O_TMPFILE : Option ℕ
  O_CLOEXEC : Option ℕ
  AT_FDCWD : ℤ
  stat : Layout Stat.Field

def EIO : ℤ := 5
def EFAULT : ℤ := 14
def ENOSYS : ℤ := 78

/-- The process: the state of the kernel, the statics of `orbis_paths.cpp`, and `errno`. -/
structure Proc (K : Type) where
  kernel : K
  rootDecided : Bool
  rootOverride : List Char
  /-- The static in `anchorRoot`, once it is initialised. -/
  root : Option (List Char)
  errno : ℤ

variable {K : Type} (lib : Libkernel K) (hdr : Headers)

/-! ### The root -/

/-- The loop of `titleIdLooksReal`, from `id[n]` on. -/
def titleIdFrom (n : ℕ) : List Char → Bool
  | [] => false
  | c :: id =>
    if c = '\x00' then n > 0
    else if n ≥ 9 then false
    else if (c ≥ 'A' ∧ c ≤ 'Z') ∨ (c ≥ 'a' ∧ c ≤ 'z') ∨ (c ≥ '0' ∧ c ≤ '9') then titleIdFrom (n + 1) id
    else false

/-- `titleIdLooksReal`. -/
def titleIdLooksReal (id : List Char) : Bool := titleIdFrom 0 id

/-- `titleIdRoot`. -/
def titleIdRoot (k : K) : List Char :=
  let (rc, titleId) := lib.getAppInfo k
  let id := titleId.take 9 ++ ['\x00']
  if rc ≠ 0 then []
  else if titleIdLooksReal id then "/data/".toList ++ id.takeWhile (· ≠ '\x00') ++ ['/']
  else []

/-- `orbis_set_anchor_root`. -/
def setAnchorRoot (path : Path) (s : Proc K) : Proc K :=
  match path with
  | none => s
  | some p =>
    if p.head? ≠ some '/' then s
    else if s.rootDecided then s
    else { s with rootOverride := if p.getLast? ≠ some '/' then p ++ ['/'] else p }

/-- `anchorRoot`. -/
def anchorRoot (s : Proc K) : List Char × Proc K :=
  match s.root with
  | some root => (root, s)
  | none =>
    let r := s.rootOverride
    let r := if r = [] then titleIdRoot lib s.kernel else r
    let r := if r = [] then "/data/orbis-compat/".toList else r
    let (e, k) := lib.mkdir r.dropLast 0o777 s.kernel
    (r, { s with kernel := k, rootDecided := true, root := some r, errno := if e = 0 then s.errno else e })

/-- `anchorPath`, with the array for the result. -/
def anchorPath (path : Path) (buf : List Char) (s : Proc K) : Option (Path × Proc K) :=
  match path with
  | none => some (none, s)
  | some p =>
    if p.head? = some '/' ∨ p = [] then some (some p, s)
    else
      let (root, s) := anchorRoot lib s
      -- too long for the array
      if root.length + p.length + 1 > buf.length then some (some p, s)
      else do
        let buf ← Buffer.storeFrom buf 0 root
        let buf ← Buffer.storeFrom buf root.length (p ++ ['\x00'])
        let text ← Buffer.cstr '\x00' buf
        some (some text, s)

/-- `char buf[512] = {}`. -/
def pathBuffer : List Char := List.replicate 512 '\x00'

/-! ### The calls -/

/-- The value of a C function that reports in `errno`. -/
def returns (r : Except ℤ ℤ) (s : Proc K) : ℤ × Proc K :=
  match r with
  | .ok v => (v, s)
  | .error e => (-1, { s with errno := e })

/-- `(uint32_t)rc >> 16 == 0x8002 ? (rc & 0xFFFF) : EIO`. -/
def errnoOf (rc : ℕ) : ℤ := if rc >>> 16 = 0x8002 then (rc &&& 0xFFFF : ℕ) else EIO

/-- `sceFailure`. -/
def sceFailure (rc : ℕ) (s : Proc K) : ℤ × Proc K := (-1, { s with errno := errnoOf rc })

/-- Whether `open` reads its argument `mode`. -/
def wantsMode (flags : ℕ) : Bool := flags &&& hdr.O_CREAT ≠ 0 ∨ hdr.O_TMPFILE.any fun m => flags &&& m = m

/-- `open`. -/
def open_ (path : Path) (flags mode : ℕ) (s : Proc K) : Option (ℤ × Proc K) := do
  let mode := if wantsMode hdr flags then mode else 0
  let (path, s) ← anchorPath lib path pathBuffer s
  let (r, k) := lib.open_ path flags mode s.kernel
  let (fd, s) := returns (r.map (↑)) { s with kernel := k }
  if fd ≥ 0 ∧ (hdr.O_CLOEXEC.any fun m => flags &&& m ≠ 0) then some (fd, { s with kernel := lib.setCloexec fd.toNat s.kernel })
  else some (fd, s)

/-- `unlink`. -/
def unlink (path : Path) (s : Proc K) : Option (ℤ × Proc K) := do
  let (path, s) ← anchorPath lib path pathBuffer s
  let (rc, k) := lib.unlink path s.kernel
  let s := { s with kernel := k }
  some (if rc ≠ 0 then sceFailure rc s else (0, s))

/-- `rename`. -/
def rename (src dst : Path) (s : Proc K) : Option (ℤ × Proc K) := do
  let (f, s) ← anchorPath lib src pathBuffer s
  let (t, s) ← anchorPath lib dst pathBuffer s
  let (rc, k) := lib.rename f t s.kernel
  let s := { s with kernel := k }
  some (if rc ≠ 0 then sceFailure rc s else (0, s))

/-- `stat`, with what it leaves in `*out`. -/
def stat (path : Path) (out : Option FlatMem) (s : Proc K) : Option (ℤ × Option FlatMem × Proc K) :=
  match path, out with
  | some p, some st => do
    let (path, s) ← anchorPath lib (some p) pathBuffer s
    let (rc, raw, k) := lib.stat path s.kernel
    let s := { s with kernel := k }
    if rc ≠ 0 then
      let (r, s) := sceFailure rc s
      some (r, some st, s)
    else some (0, some (Stat.translate hdr.stat raw st), s)
  | _, _ => some (-1, out, { s with errno := EFAULT })

/-- `lstat`. -/
def lstat (path : Path) (out : Option FlatMem) (s : Proc K) : Option (ℤ × Option FlatMem × Proc K) := stat lib hdr path out s

/-- `fstatat`. -/
def fstatat (fd : ℤ) (path : Path) (out : Option FlatMem) (s : Proc K) : Option (ℤ × Option FlatMem × Proc K) :=
  match path, out with
  | some p, some st =>
    if p.head? = some '/' ∨ fd = hdr.AT_FDCWD then stat lib hdr (some p) (some st) s
    else some (-1, some st, { s with errno := ENOSYS })
  | _, _ => some (-1, out, { s with errno := EFAULT })

/-- `fstat`. -/
def fstat (fd : ℤ) (out : Option FlatMem) (s : Proc K) : ℤ × Option FlatMem × Proc K :=
  match out with
  | none => (-1, none, { s with errno := EFAULT })
  | some st =>
    match lib.fstat fd s.kernel with
    | (.ok raw, k) => (0, some (Stat.translate hdr.stat raw st), { s with kernel := k })
    | (.error e, k) => (-1, some st, { s with kernel := k, errno := e })

/-- `S_ISDIR`. -/
def S_ISDIR (mode : ℕ) : Bool := mode &&& 0o170000 = 0o040000

/-- `remove`; `st` is what is in its uninitialised variable. -/
def remove (path : Path) (st : FlatMem) (s : Proc K) : Option (ℤ × Proc K) := do
  let (r, st, s) ← stat lib hdr path (some st) s
  if r ≠ 0 then some (-1, s)
  else if ¬ st.any fun st => S_ISDIR (hdr.stat.get st .mode) then unlink lib path s
  else do
    let (path, s) ← anchorPath lib path pathBuffer s
    let (rc, k) := lib.rmdir path s.kernel
    let s := { s with kernel := k }
    some (if rc ≠ 0 then sceFailure rc s else (0, s))

/-! ### A process that makes them -/

/-- A call of the program's. -/
inductive Call
  | setAnchorRoot (path : Path)
  | open_ (path : Path) (flags mode : ℕ)
  | unlink (path : Path)
  | rename (src dst : Path)
  | remove (path : Path) (st : FlatMem)
  | stat (path : Path) (out : Option FlatMem)
  | lstat (path : Path) (out : Option FlatMem)
  | fstatat (fd : ℤ) (path : Path) (out : Option FlatMem)
  | fstat (fd : ℤ) (out : Option FlatMem)

/-- What the program learns from a call. -/
inductive Answer
  | done (value : ℤ)
  | status (st : Option FlatMem)
  | failed (errno : ℤ)

/-- The answer of a call that returns −1 when it fails. -/
def answer (r : ℤ × Proc K) : Answer × Proc K := (if r.1 = -1 then .failed r.2.errno else .done r.1, r.2)

/-- The answer of a call that fills a `struct stat`. -/
def answerStat (r : ℤ × Option FlatMem × Proc K) : Answer × Proc K :=
  (if r.1 = -1 then .failed r.2.2.errno else .status r.2.1, r.2.2)

def call : Call → Proc K → Option (Answer × Proc K)
  | .setAnchorRoot path, s => some (.done 0, setAnchorRoot path s)
  | .open_ path flags mode, s => (open_ lib hdr path flags mode s).map answer
  | .unlink path, s => (unlink lib path s).map answer
  | .rename src dst, s => (rename lib src dst s).map answer
  | .remove path st, s => (remove lib hdr path st s).map answer
  | .stat path out, s => (stat lib hdr path out s).map answerStat
  | .lstat path out, s => (lstat lib hdr path out s).map answerStat
  | .fstatat fd path out, s => (fstatat lib hdr fd path out s).map answerStat
  | .fstat fd out, s => some (answerStat (fstat lib hdr fd out s))

def calls : List Call → Proc K → Option (List Answer × Proc K)
  | [], s => some ([], s)
  | c :: cs, s => do
    let (a, s) ← call lib hdr c s
    let (as, s) ← calls cs s
    some (a :: as, s)

/-- The process at its start. -/
def start (k : K) : Proc K := { kernel := k, rootDecided := false, rootOverride := [], root := none, errno := 0 }

end OrbisCompat.Paths
