import Mathlib.Algebra.Order.Ring.Nat
import Mathlib.Data.List.GetD
import Mathlib.Tactic.Ring

/-!
# Byte-addressed memory

`FlatMem` maps addresses to bytes.  `store m a bs` is `memcpy(a, bs, sizeof bs)`, and `load64` and
`store64` move an 8-byte little-endian word.  What a caller needs is the read-back
(`load64_store64`), the frame of a store (`store_of_not_mem`) and that a load depends on its eight
bytes only (`load64_congr`).  A string (`IsString`) is read back in the same way.
-/

/-- A byte at every address. -/
abbrev FlatMem := ℕ → UInt8

namespace FlatMem

/-- `memcpy(a, bs, sizeof bs)`. -/
def store (m : FlatMem) (a : ℕ) (bs : List UInt8) : FlatMem := fun x =>
  if a ≤ x ∧ x < a + bs.length then bs.getD (x - a) 0 else m x

/-- `memset(a, b, n)`. -/
def memset (m : FlatMem) (a : ℕ) (b : UInt8) (n : ℕ) : FlatMem := fun x =>
  if a ≤ x ∧ x < a + n then b else m x

/-- The `k` low bytes of `v`, least significant first. -/
def bytesLE : ℕ → ℕ → List UInt8
  | 0, _ => []
  | k + 1, v => UInt8.ofNat v :: bytesLE k (v / 256)

/-- The number a little-endian byte list spells. -/
def valueLE : List UInt8 → ℕ
  | [] => 0
  | b :: bs => b.toNat + 256 * valueLE bs

/-- The value of the `k` bytes from `a` on. -/
def load (m : FlatMem) (a k : ℕ) : ℕ := valueLE ((List.range k).map fun i => m (a + i))

/-- The `k` bytes from `a` on. -/
def bytes (m : FlatMem) (a k : ℕ) : List UInt8 := (List.range k).map fun i => m (a + i)

/-- `memcpy(a, &v, sizeof v)` for a 64-bit `v`. -/
def store64 (m : FlatMem) (a v : ℕ) : FlatMem := store m a (bytesLE 8 v)

/-- `memcpy(&v, a, sizeof v)` for a 64-bit `v`. -/
def load64 (m : FlatMem) (a : ℕ) : ℕ := valueLE ((List.range 8).map fun i => m (a + i))

@[simp] theorem length_bytesLE : ∀ k v : ℕ, (bytesLE k v).length = k
  | 0, _ => rfl
  | k + 1, v => by rw [bytesLE, List.length_cons, length_bytesLE k]

theorem valueLE_bytesLE : ∀ k v : ℕ, valueLE (bytesLE k v) = v % 256 ^ k
  | 0, v => by simp [bytesLE, valueLE, Nat.mod_one]
  | k + 1, v => by
    rw [bytesLE, valueLE, valueLE_bytesLE k, UInt8.toNat_ofNat', pow_succ' 256 k, Nat.mod_mul]

theorem valueLE_lt : ∀ bs : List UInt8, valueLE bs < 256 ^ bs.length
  | [] => by simp [valueLE]
  | b :: bs => by
    have hb := b.toNat_lt
    have := valueLE_lt bs
    rw [valueLE, List.length_cons, pow_succ']
    omega

theorem load_lt (m : FlatMem) (a k : ℕ) : load m a k < 256 ^ k := by
  have h := valueLE_lt ((List.range k).map fun i => m (a + i))
  rwa [List.length_map, List.length_range] at h

theorem load64_lt (m : FlatMem) (a : ℕ) : load64 m a < 2 ^ 64 :=
  (load_lt m a 8).trans_eq (by norm_num)

theorem store_of_not_mem {m : FlatMem} {a x : ℕ} {bs : List UInt8}
    (h : x < a ∨ a + bs.length ≤ x) : store m a bs x = m x := by
  unfold store
  rw [if_neg (by omega)]

theorem store64_of_not_mem {m : FlatMem} {a v x : ℕ} (h : x < a ∨ a + 8 ≤ x) :
    store64 m a v x = m x :=
  store_of_not_mem (by rwa [length_bytesLE])

theorem bytes_congr {m m' : FlatMem} {a k : ℕ} (h : ∀ x, a ≤ x → x < a + k → m x = m' x) : bytes m a k = bytes m' a k := by
  refine List.map_congr_left fun i hi => h _ (Nat.le_add_right _ _) ?_
  have := List.mem_range.mp hi
  omega

theorem load_congr {m m' : FlatMem} {a k : ℕ} (h : ∀ x, a ≤ x → x < a + k → m x = m' x) :
    load m a k = load m' a k :=
  congrArg valueLE (bytes_congr h)

theorem load64_congr {m m' : FlatMem} {a : ℕ} (h : ∀ x, a ≤ x → x < a + 8 → m x = m' x) :
    load64 m a = load64 m' a :=
  load_congr h

/-- What is stored is what is there. -/
theorem bytes_store (m : FlatMem) (a : ℕ) (bs : List UInt8) : bytes (store m a bs) a bs.length = bs := by
  apply List.ext_getElem
  · simp [bytes]
  · intro i h1 h2
    simp only [bytes, List.getElem_map, List.getElem_range, store]
    rw [if_pos (by omega), Nat.add_sub_cancel_left, List.getD_eq_getElem _ _ h2]

/-- What is stored is what is loaded. -/
theorem load_store (m : FlatMem) (a : ℕ) (bs : List UInt8) : load (store m a bs) a bs.length = valueLE bs :=
  congrArg valueLE (bytes_store m a bs)

/-- A store that overwrites the last byte of another one. -/
theorem store_store_last (m : FlatMem) (a : ℕ) (bs : List UInt8) (b c : UInt8) :
    store (store m a (bs ++ [b])) (a + bs.length) [c] = store m a (bs ++ [c]) := by
  funext x
  simp only [store, List.length_append, List.length_singleton]
  by_cases hlast : x = a + bs.length
  · subst hlast
    rw [if_pos (by omega), if_pos (by omega), Nat.sub_self, Nat.add_sub_cancel_left,
      List.getD_append_right _ _ _ _ le_rfl, Nat.sub_self]
  · rw [if_neg (by omega)]
    split_ifs with hx
    · have hlt : x - a < bs.length := by omega
      rw [List.getD_append _ _ _ _ hlt, List.getD_append _ _ _ _ hlt]
    · rfl

/-- The string at `a`, with its terminator behind it. -/
def IsString (m : FlatMem) (a : ℕ) (s : List UInt8) : Prop := 0 ∉ s ∧ bytes m a (s.length + 1) = s ++ [0]

theorem isString_store (m : FlatMem) (a : ℕ) {s : List UInt8} (h : 0 ∉ s) : IsString (store m a (s ++ [0])) a s := by
  refine ⟨h, ?_⟩
  have hbytes := bytes_store m a (s ++ [0])
  rwa [List.length_append] at hbytes

theorem IsString.congr {m m' : FlatMem} {a : ℕ} {s : List UInt8} (h : IsString m a s)
    (hm : ∀ x, a ≤ x → x < a + (s.length + 1) → m x = m' x) : IsString m' a s :=
  ⟨h.1, bytes_congr hm ▸ h.2⟩

/-- Storing a word and loading it back. -/
theorem load64_store64 (m : FlatMem) (a v : ℕ) : load64 (store64 m a v) a = v % 2 ^ 64 := by
  have h := load_store m a (bytesLE 8 v)
  rw [length_bytesLE, valueLE_bytesLE] at h
  exact h.trans (by norm_num)

/-! ### Parts of a number -/

theorem valueLE_take : ∀ (bs : List UInt8) (k : ℕ), valueLE (bs.take k) = valueLE bs % 256 ^ k
  | [], k => by simp [valueLE]
  | b :: bs, 0 => by simp [valueLE, Nat.mod_one]
  | b :: bs, k + 1 => by
    have hb := b.toNat_lt
    have hdiv : (b.toNat + 256 * valueLE bs) / 256 = valueLE bs := by omega
    have hmod : (b.toNat + 256 * valueLE bs) % 256 = b.toNat := by omega
    rw [List.take_succ_cons, valueLE, valueLE, valueLE_take bs k, pow_succ' 256 k, Nat.mod_mul, hdiv, hmod]

theorem valueLE_drop : ∀ (bs : List UInt8) (k : ℕ), valueLE (bs.drop k) = valueLE bs / 256 ^ k
  | [], k => by simp [valueLE]
  | b :: bs, 0 => by simp
  | b :: bs, k + 1 => by
    have hb := b.toNat_lt
    rw [List.drop_succ_cons, valueLE, valueLE_drop bs k, pow_succ' 256 k, ← Nat.div_div_eq_div_mul]
    congr 1
    omega

/-- A load from within the bytes of another one. -/
theorem load_within (m : FlatMem) {a i k n : ℕ} (h : i + k ≤ n) :
    load m (a + i) k = load m a n / 256 ^ i % 256 ^ k := by
  have hbytes : (((List.range n).map fun j => m (a + j)).drop i).take k = (List.range k).map fun j => m (a + i + j) := by
    apply List.ext_getElem
    · simp only [List.length_take, List.length_drop, List.length_map, List.length_range]
      omega
    · intro j h1 h2
      simp [Nat.add_assoc]
  rw [load, load, ← hbytes, valueLE_take, valueLE_drop]

end FlatMem
