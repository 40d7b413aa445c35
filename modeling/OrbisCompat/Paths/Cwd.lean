import OrbisCompat.Paths.Basic

/-!
# A process with a working directory

What the calls of `orbis_paths.cpp` are for: the kernel of this process takes absolute paths only, and the process is to behave
like one whose working directory is the root.  Here the root is fixed, and there is no other state than the kernel's.
-/

namespace OrbisCompat.Paths

variable {K : Type} (lib : Libkernel K) (hdr : Headers) (root : List Char)

/-- A path that the working directory matters for. -/
def isRelative : Path → Bool
  | none => false
  | some p => ¬(p.head? = some '/' ∨ p = [])

/-- A path, seen from the working directory; one that does not fit into 512 bytes with it is left as it is. -/
def absolutize : Path → Path
  | none => none
  | some p => some (if p.head? = some '/' ∨ p = [] then p else if root.length + p.length + 1 > 512 then p else root ++ p)

/-- The answer that an SCE code stands for. -/
def posixAnswer (rc : ℕ) : Answer := if rc ≠ 0 then .failed (errnoOf rc) else .done 0

/-- `stat`: the kernel's fields, in the layout of the SDK. -/
def cwdStat (path : Path) (out : Option FlatMem) (k : K) : Answer × K :=
  match path, out with
  | some p, some st =>
    let (rc, raw, k) := lib.stat (absolutize root (some p)) k
    (if rc ≠ 0 then .failed (errnoOf rc) else .status (some (Stat.translate hdr.stat raw st)), k)
  | _, _ => (.failed EFAULT, k)

/-- `remove`: a directory by `rmdir`, anything else by `unlink`. -/
def cwdRemove (path : Path) (k : K) : Answer × K :=
  match path with
  | none => (.failed EFAULT, k)
  | some p =>
    let (rc, raw, k) := lib.stat (absolutize root (some p)) k
    if rc ≠ 0 then (.failed (errnoOf rc), k)
    else if S_ISDIR (Stat.kernel.get raw .mode) then
      let (rc, k) := lib.rmdir (absolutize root (some p)) k
      (posixAnswer rc, k)
    else
      let (rc, k) := lib.unlink (absolutize root (some p)) k
      (posixAnswer rc, k)

/-- `open`. -/
def cwdOpen (path : Path) (flags mode : ℕ) (k : K) : Answer × K :=
  match lib.open_ (absolutize root path) flags (if wantsMode hdr flags then mode else 0) k with
  | (.error e, k) => (.failed e, k)
  | (.ok fd, k) => (.done fd, if hdr.O_CLOEXEC.any fun m => flags &&& m ≠ 0 then lib.setCloexec fd k else k)

/-- A call of a process with the working directory `root`. -/
def cwdCall : Call → K → Answer × K
  | .setAnchorRoot _, k => (.done 0, k)
  | .open_ path flags mode, k => cwdOpen lib hdr root path flags mode k
  | .unlink path, k =>
    let (rc, k) := lib.unlink (absolutize root path) k
    (posixAnswer rc, k)
  | .rename src dst, k =>
    let (rc, k) := lib.rename (absolutize root src) (absolutize root dst) k
    (posixAnswer rc, k)
  | .remove path _, k => cwdRemove lib root path k
  | .stat path out, k => cwdStat lib hdr root path out k
  | .lstat path out, k => cwdStat lib hdr root path out k
  | .fstatat fd path out, k =>
    match path, out with
    | some p, some st =>
      if p.head? = some '/' ∨ fd = hdr.AT_FDCWD then cwdStat lib hdr root (some p) (some st) k else (.failed ENOSYS, k)
    | _, _ => (.failed EFAULT, k)
  | .fstat fd out, k =>
    match out with
    | none => (.failed EFAULT, k)
    | some st =>
      match lib.fstat fd k with
      | (.ok raw, k) => (.status (some (Stat.translate hdr.stat raw st)), k)
      | (.error e, k) => (.failed e, k)

def cwdCalls : List Call → K → List Answer × K
  | [], k => ([], k)
  | c :: cs, k =>
    let (a, k) := cwdCall lib hdr root c k
    let (as, k) := cwdCalls cs k
    (a :: as, k)

/-! ### Which root it is -/

/-- The paths that a call hands on. -/
def Call.paths : Call → List Path
  | .setAnchorRoot _ => []
  | .open_ path _ _ => [path]
  | .unlink path => [path]
  | .rename src dst => [src, dst]
  | .remove path _ => [path]
  | .stat path out => if out.isSome then [path] else []
  | .lstat path out => if out.isSome then [path] else []
  | .fstatat fd path out => if out.isSome ∧ (fd = hdr.AT_FDCWD ∨ ¬ isRelative path) then [path] else []
  | .fstat _ _ => []

/-- Whether a call needs the working directory. -/
def Call.isRelative (c : Call) : Bool := (c.paths hdr).any Paths.isRelative

/-- The root that the program names by a call. -/
def Call.override (r : List Char) : Call → List Char
  | .setAnchorRoot (some p) => if p.head? ≠ some '/' then r else if p.getLast? ≠ some '/' then p ++ ['/'] else p
  | _ => r

/-- The root of a process that has made the calls `cs`: the last one that the program has named, else that of its title, else
the fallback. -/
def chosenRoot (cs : List Call) (k : K) : List Char :=
  let named := cs.foldl Call.override []
  if named ≠ [] then named
  else if titleIdRoot lib k ≠ [] then titleIdRoot lib k
  else "/data/orbis-compat/".toList

end OrbisCompat.Paths
