import OrbisCompat.Lib.Word64
import OrbisCompat.Wchar.Mbrtowc

/-!
# `src/orbis_wchar32.c`: the conversions that are restarted

`mbsrtowcs` with a state object, and `mbsnrtowcs`, with the `mbrtowc` that it calls.  A string is the list of the bytes that
the caller lets them read, and a pointer into it is its distance from the first, which `s--` may make negative.  A read
outside of these bytes makes the whole run `none`, and so does a store through a null pointer.

`calls` says what `mbrtowc` makes of a string when it is called over and over.
-/

namespace OrbisCompat.Wchar.Restart

/-- `*s`. -/
def get (mem : List ℕ) (s : ℤ) : Option ℕ := if s < 0 then none else mem[s.toNat]?

/-! ### `mbsrtowcs` -/

/-- One time round a loop: a character, or `break` with the state, and where `s` is left. -/
inductive Turn
  | char (c : ℕ) (s : ℤ)
  | stop (c : ℕ) (s : ℤ)
  deriving DecidableEq, Repr

/-- The inner block behind `resume:`. -/
def resumeInner (mem : List ℕ) (c : ℕ) (s : ℤ) : Option Turn :=
  if c &&& 2 ^ 31 ≠ 0 then do
    let b ← get mem s
    if Word32.sub b 0x80 ≥ 0x40 then some (.stop c (s - 3))
    else some (.char (Word32.shl c 6 ||| Word32.sub b 0x80) (s + 1))
  else some (.char c s)

/-- The outer block. -/
def resumeOuter (mem : List ℕ) (c : ℕ) (s : ℤ) : Option Turn :=
  if c &&& 2 ^ 31 ≠ 0 then do
    let b ← get mem s
    if Word32.sub b 0x80 ≥ 0x40 then some (.stop c (s - 2))
    else resumeInner mem (Word32.shl c 6 ||| Word32.sub b 0x80) (s + 1)
  else some (.char c s)

/-- From `resume:` on. -/
def resume (mem : List ℕ) (c : ℕ) (s : ℤ) : Option Turn := do
  let b ← get mem s
  if OOB c b ≠ 0 then some (.stop c (s - 1))
  else resumeOuter mem (Word32.shl c 6 ||| Word32.sub b 0x80) (s + 1)

/-- The inner block behind `resume0:`, where the state stays what it is. -/
def resume0Inner (mem : List ℕ) (c : ℕ) (s : ℤ) : Option Turn :=
  if c &&& 2 ^ 19 ≠ 0 then do
    let b ← get mem s
    if Word32.sub b 0x80 ≥ 0x40 then some (.stop c (s - 3)) else some (.char 0 (s + 1))
  else some (.char 0 s)

/-- The outer block. -/
def resume0Outer (mem : List ℕ) (c : ℕ) (s : ℤ) : Option Turn :=
  if c &&& 2 ^ 25 ≠ 0 then do
    let b ← get mem s
    if Word32.sub b 0x80 ≥ 0x40 then some (.stop c (s - 2)) else resume0Inner mem c (s + 1)
  else some (.char 0 s)

/-- From `resume0:` on. -/
def resume0 (mem : List ℕ) (c : ℕ) (s : ℤ) : Option Turn := do
  let b ← get mem s
  if OOB c b ≠ 0 then some (.stop c (s - 1)) else resume0Outer mem c (s + 1)

/-- The body of a loop, which goes on at the label `tail` behind a lead byte. -/
def turn (tail : List ℕ → ℕ → ℤ → Option Turn) (mem : List ℕ) (s : ℤ) : Option Turn := do
  let b ← get mem s
  if Word32.sub b 1 < 0x7f then some (.char b (s + 1))
  else if Word32.sub b SA > SB - SA then some (.stop 0 s)
  else tail mem (bittab.getD (b - SA) 0) (s + 1)

/-- What `mbsrtowcs` does. -/
structure Srtowcs where
  /-- `none` for `(size_t)-1`. -/
  ret : Option ℕ
  errno : Option Errno := none
  /-- What is stored from `ws[0]` on. -/
  ws : List ℕ := []
  /-- Where `*src` is left; `none` for `NULL`. -/
  src : Option ℤ
  /-- The state object, if there is one. -/
  st : Option ℕ
  deriving DecidableEq, Repr

section

variable (null : Bool) (mem : List ℕ) (src : ℤ) (st : Option ℕ) (wn0 : ℕ)

/-- What follows the loops; `null` when `ws` is. -/
def finish (wn : ℕ) (ws : List ℕ) (c : ℕ) (s : ℤ) : Option Srtowcs :=
  (if c ≠ 0 then some false else (get mem s).map (· == 0)).bind fun terminated =>
    if terminated then
      some { ret := some (Word64.sub wn0 wn), ws := if null then ws else ws ++ [0],
             src := if null then some src else none, st }
    else some { ret := none, errno := some .EILSEQ, ws, src := some (if null then src else s), st }

/-- The loop that stores. -/
def storeLoop : ℕ → ℤ → List ℕ → Option Srtowcs
  | 0, s, ws => some { ret := some wn0, ws, src := some s, st }
  | wn + 1, s, ws => do
    match ← turn resume mem s with
    | .char c s => storeLoop wn s (ws ++ [c])
    | .stop c s => finish false mem src st wn0 (wn + 1) ws c s

/-- The loop that counts.  It consumes at least a byte each time round, so the length of the string is fuel enough. -/
def countLoop : ℕ → ℕ → ℤ → Option Srtowcs
  | 0, _, _ => none
  | fuel + 1, wn, s => do
    match ← turn resume0 mem s with
    | .char _ s => countLoop fuel (Word64.sub wn 1) s
    | .stop c s => finish true mem src st wn0 wn [] c s

end

/-- `mbsrtowcs(ws, &src, wn, st)`; `null` when `ws` is. -/
def mbsrtowcs (null : Bool) (mem : List ℕ) (src : ℤ) (wn : ℕ) (st : Option ℕ) : Option Srtowcs :=
  let c := st.getD 0
  if c ≠ 0 then
    if ¬null then do
      let st := some 0
      -- the check of `wn` at the top of the loop is not made here
      match ← resume mem c src with
      | .char c s => storeLoop mem src st wn (Word64.sub wn 1) s [c]
      | .stop c s => finish false mem src st wn wn [] c s
    else do
      match ← resume0 mem c src with
      | .char _ s => countLoop mem src st wn (mem.length + 1) (Word64.sub wn 1) s
      | .stop c s => finish true mem src st wn wn [] c s
  else if null then countLoop mem src st wn (mem.length + 1) wn src
  else storeLoop mem src st wn wn src []

/-! ### `mbrtowc`, with its reads -/

/-- From `loop:` on, and past it when `n` is `0`. -/
def mbrLoop (mem : List ℕ) (N : ℕ) : ℕ → ℕ → ℤ → Option Mbrtowc
  | 0, c, _ => some { ret := -2, st := c }
  | n + 1, c, s => do
    let b ← get mem s
    let c := Word32.shl c 6 ||| Word32.sub b 0x80
    let s := s + 1
    if c &&& 2 ^ 31 = 0 then some { ret := N - n, wc := some c, st := 0 }
    else if n ≠ 0 then do
      let b ← get mem s
      if Word32.sub b 0x80 ≥ 0x40 then some mbrIlseq else mbrLoop mem N n c s
    else mbrLoop mem N n c s

/-- From the first `if (n)` on. -/
def mbrRest (mem : List ℕ) (N n c : ℕ) (s : ℤ) : Option Mbrtowc :=
  if n ≠ 0 then do
    let b ← get mem s
    if OOB c b ≠ 0 then some mbrIlseq else mbrLoop mem N n c s
  else mbrLoop mem N n c s

/-- `mbrtowc(wc, s, n, &st)` for an `s` that is not null. -/
def mbrtowc (mem : List ℕ) (s : ℤ) (n st : ℕ) : Option Mbrtowc :=
  if n = 0 then some { ret := -2, st }
  else if st = 0 then do
    let b ← get mem s
    if b < 0x80 then some { ret := if b ≠ 0 then 1 else 0, wc := some b, st }
    else if Word32.sub b SA > SB - SA then some mbrIlseq
    else mbrRest mem n (n - 1) (bittab.getD (b - SA) 0) (s + 1)
  else mbrRest mem n n st s

/-! ### `mbsnrtowcs` -/

/-- The variables of `mbsnrtowcs`, with the memory that it writes. -/
structure Vars where
  /-- `none` for `(size_t)-1`. -/
  cnt : Option ℕ := some 0
  errno : Option Errno := none
  s : Option ℤ
  n : ℕ
  wn : ℕ
  /-- What is stored from `wcs[0]` on. -/
  wcs : List ℕ := []
  /-- `ws - wbuf`, when `wcs` is null. -/
  off : ℕ := 0
  /-- How many elements of `wbuf` are written. -/
  wbuf : ℕ := 0
  /-- The state object, if there is one. -/
  st : Option ℕ
  /-- The `internal_state` of `mbrtowc`. -/
  internal : ℕ
  deriving DecidableEq, Repr

/-- `sizeof wbuf / sizeof *wbuf`. -/
def wbufSize : ℕ := 256

/-- Stores at `ws`. -/
def Vars.put (null : Bool) (v : Vars) (cs : List ℕ) : Vars :=
  if null then { v with wbuf := max v.wbuf (v.off + cs.length) } else { v with wcs := v.wcs ++ cs }

/-- The state that `mbrtowc` starts with: without a state object it is its own. -/
def Vars.state (v : Vars) : ℕ := v.st.getD v.internal

/-- The state that `mbrtowc` leaves. -/
def Vars.leave (v : Vars) (x : ℕ) : Vars :=
  match v.st with
  | none => { v with internal := x }
  | some _ => { v with st := some x }

/-- Whether `mbsrtowcs` is practical. -/
def Practical (n wn : ℕ) : Prop := wn ≠ 0 ∧ (n / 4 ≥ wn ∨ n / 4 > 32)

instance (n wn : ℕ) : Decidable (Practical n wn) := inferInstanceAs (Decidable (_ ∧ _))

/-- The loop that calls `mbsrtowcs`.  A call that converts anything consumes bytes, so `n` is fuel enough. -/
def bulkLoop (null : Bool) (mem : List ℕ) : ℕ → Vars → Option Vars
  | 0, v => some v
  | fuel + 1, v =>
    match v.s with
    | none => some v
    | some s =>
      if Practical v.n v.wn then do
        let n2 := if v.n / 4 ≥ v.wn then v.wn else v.n / 4
        let r ← mbsrtowcs false mem s n2 v.st
        let v := { v.put null r.ws with s := r.src, st := r.st }
        match r.ret with
        | none => some { v with cnt := none, errno := r.errno, wn := 0 }
        | some l =>
          let v := if null then v else { v with wn := v.wn - l }
          let n := match r.src with
            | none => 0
            | some s' => ((v.n - (s' - s) : ℤ) % 2 ^ 64).toNat
          bulkLoop null mem fuel { v with n, cnt := v.cnt.map (· + l) }
      else some v

/-- The loop that calls `mbrtowc`, with `wn` left, from `s` on. -/
def byteLoop (null : Bool) (mem : List ℕ) : ℕ → ℤ → Vars → Option Vars
  | 0, _, v => some v
  | wn + 1, s, v =>
    if v.n = 0 then some v
    else do
      let r ← mbrtowc mem s v.n v.state
      let v := (v.put null r.wc.toList).leave r.st
      if r.ret = -1 then some { v with cnt := none, errno := r.errno }
      else if r.ret = 0 then some { v with s := none }
      else if r.ret = -2 then
        -- `*(unsigned *)st = 0`
        if v.st = none then none else some { v with st := some 0 }
      else byteLoop null mem wn (s + r.ret) { v with
        s := some (s + r.ret), n := v.n - r.ret.toNat, off := v.off + 1, wn, cnt := v.cnt.map (· + 1) }

/-- `mbsnrtowcs(wcs, &src, n, wn, st)`, up to the last store into `*src`; `null` when `wcs` is. -/
def mbsnrtowcs (null : Bool) (mem : List ℕ) (src : ℤ) (n wn : ℕ) (st : Option ℕ) (internal : ℕ) : Option Vars := do
  let wn := if null then wbufSize else wn
  let v ← bulkLoop null mem (n + 1) { s := some src, n, wn, st, internal }
  match v.s with
  | none => some v
  | some s => byteLoop null mem v.wn s v

/-! ### Calls of `mbrtowc` -/

/-- What calls of `mbrtowc` come to an end with: enough characters, the terminator, `EILSEQ`, or the end of the bytes. -/
inductive Ended
  | full
  | nul
  | bad
  | short
  deriving DecidableEq, Repr

/-- What calls of `mbrtowc` come to. -/
structure Calls where
  /-- The characters, without the terminator. -/
  wcs : List ℕ
  /-- How many bytes they took. -/
  used : ℕ
  ended : Ended
  /-- What is left in the state object. -/
  st : ℕ
  deriving DecidableEq, Repr

/-- One character more in front. -/
def Calls.cons (c k : ℕ) (r : Calls) : Calls := { r with wcs := c :: r.wcs, used := k + r.used }

/-- `mbrtowc` called over and over, until `wn` characters, the terminator, an error, or the end of the bytes. -/
def calls : ℕ → ℕ → List ℕ → Calls
  | 0, st, _ => ⟨[], 0, .full, st⟩
  | wn + 1, st, s =>
    let r := Wchar.mbrtowc (some s) s.length st
    if r.ret = -2 then ⟨[], 0, .short, r.st⟩
    else if r.ret = -1 then ⟨[], 0, .bad, r.st⟩
    else if r.ret = 0 then ⟨[], 0, .nul, r.st⟩
    else (calls wn r.st (s.drop r.ret.toNat)).cons (r.wc.getD 0) r.ret.toNat

/-- What a conversion function should return. -/
def Calls.ret (r : Calls) : Option ℕ := if r.ended = .bad then none else some r.wcs.length

/-- What it should store. -/
def Calls.stored (r : Calls) : List ℕ := if r.ended = .nul then r.wcs ++ [0] else r.wcs

/-- Where it should leave `*src`. -/
def Calls.src (r : Calls) : Option ℤ := if r.ended = .nul then none else some r.used

/-! ### A buffer in one call, and in two -/

/-- What a conversion of `n` bytes may read of `buf`: these bytes, up to the first terminator. -/
def visible : ℕ → List ℕ → List ℕ
  | 0, _ => []
  | _ + 1, [] => []
  | n + 1, b :: buf => if b = 0 then [0] else b :: visible n buf

/-- What two calls store one behind the other: the first for `m` bytes and `w` characters; the second, if the first came to
neither an error nor the terminator, from where that left `*src`, with the same state object, for what is left of `n` bytes
and `wn` characters. -/
def twoCalls (buf : List ℕ) (n m wn w : ℕ) (st : Option ℕ) (internal : ℕ) : Option (List ℕ) := do
  let v ← mbsnrtowcs false (visible m buf) 0 m w st internal
  match v.cnt, v.s with
  | some l, some s => do
    let v' ← mbsnrtowcs false (visible n buf) s (n - s.toNat) (wn - l) v.st v.internal
    some (v.wcs ++ v'.wcs)
  | _, _ => some v.wcs

end OrbisCompat.Wchar.Restart
