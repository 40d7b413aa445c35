import Mathlib.Data.List.Basic
import Mathlib.Data.List.InsertIdx

/-!
# A C array with a count, edited by `memmove`

`CTable α` is a C array `slot` together with the count `n` of entries in use.  Its contents are the
list `toList` of the first `n` slots; what lies past them is whatever earlier edits left there.

The two edits a sorted or compacted C table performs are written with `memmove`, and each is the
list operation it is meant to be:

* opening a gap at `i` and storing `v` there is `List.insertIdx i v` (`toList_insertAt`);
* closing the gap at `i` is `List.eraseIdx i` (`toList_removeAt`).

`firstIdx p` is the search loop `for (i = 0; i < n; i++) if (p(slot[i])) break`, and `lowerBound p` is
the binary search for the end of the entries that satisfy `p`.
-/

/-- An array of which the first `n` entries are in use. -/
structure CTable (α : Type*) where
  n : ℕ
  slot : ℕ → α

namespace CTable

variable {α : Type*}

/-- The entries in use. -/
def toList (t : CTable α) : List α := (List.range t.n).map t.slot

/-- `slot[i] = v`. -/
def set (t : CTable α) (i : ℕ) (v : α) : CTable α :=
  { t with slot := fun j => if j = i then v else t.slot j }

/-- `memmove(&slot[dst], &slot[src], k * sizeof(slot[0]))`. -/
def memmove (t : CTable α) (dst src k : ℕ) : CTable α :=
  { t with slot := fun j => if dst ≤ j ∧ j < dst + k then t.slot (src + (j - dst)) else t.slot j }

/-- `n = m`. -/
def setLen (t : CTable α) (m : ℕ) : CTable α := { t with n := m }

/-- `memmove` the tail up by one, store `v` in the gap, `n++`. -/
def insertAt (t : CTable α) (i : ℕ) (v : α) : CTable α :=
  ((t.memmove (i + 1) i (t.n - i)).set i v).setLen (t.n + 1)

/-- `memmove` the tail down by one, `n--`. -/
def removeAt (t : CTable α) (i : ℕ) : CTable α :=
  (t.memmove i (i + 1) (t.n - i - 1)).setLen (t.n - 1)

/-- The first index in use whose entry satisfies `p`. -/
def firstIdx (t : CTable α) (p : α → Bool) : Option ℕ :=
  (List.range t.n).find? fun i => p (t.slot i)

/-- `while (lo < hi) { m = (lo + hi) / 2; if (p(slot[m])) lo = m + 1; else hi = m; }` -/
def lowerBoundLoop (t : CTable α) (p : α → Bool) : ℕ → ℕ → ℕ → ℕ
  | 0, lo, _ => lo
  | fuel + 1, lo, hi =>
    if lo < hi then
      let m := (lo + hi) / 2
      if p (t.slot m) then lowerBoundLoop t p fuel (m + 1) hi else lowerBoundLoop t p fuel lo m
    else lo

/-- The binary search over all entries in use; the interval shrinks every time round, so `n` rounds
end it. -/
def lowerBound (t : CTable α) (p : α → Bool) : ℕ := lowerBoundLoop t p t.n 0 t.n

@[simp] theorem length_toList (t : CTable α) : t.toList.length = t.n := by simp [toList]

@[simp] theorem getElem_toList (t : CTable α) (i : ℕ) (h : i < t.toList.length) :
    t.toList[i] = t.slot i := by simp [toList]

@[simp] theorem set_n (t : CTable α) (i : ℕ) (v : α) : (t.set i v).n = t.n := rfl

@[simp] theorem insertAt_n (t : CTable α) (i : ℕ) (v : α) : (t.insertAt i v).n = t.n + 1 := rfl

@[simp] theorem removeAt_n (t : CTable α) (i : ℕ) : (t.removeAt i).n = t.n - 1 := rfl

theorem mem_toList {t : CTable α} {v : α} : v ∈ t.toList ↔ ∃ i < t.n, t.slot i = v := by
  simp [toList]

theorem set_slot (t : CTable α) (i : ℕ) (v : α) (j : ℕ) :
    (t.set i v).slot j = if j = i then v else t.slot j := rfl

@[simp] theorem set_slot_self (t : CTable α) (i : ℕ) (v : α) : (t.set i v).slot i = v := by
  simp [set]

@[simp] theorem set_slot_eq (t : CTable α) (i : ℕ) : t.set i (t.slot i) = t := by
  have hslot : (t.set i (t.slot i)).slot = t.slot := by
    funext j
    rw [set_slot]
    split_ifs with h
    · rw [h]
    · rfl
  cases t
  exact congrArg (CTable.mk _) hslot

theorem removeAt_slot (t : CTable α) {i j : ℕ} (hj : j < t.n - 1) :
    (t.removeAt i).slot j = if j < i then t.slot j else t.slot (j + 1) := by
  unfold removeAt memmove setLen
  dsimp only
  by_cases hji : j < i
  · rw [if_neg (by omega), if_pos hji]
  · rw [if_pos (by omega), if_neg hji]
    congr 1
    omega

theorem insertAt_slot (t : CTable α) {i j : ℕ} (v : α) (hj : j < t.n + 1) :
    (t.insertAt i v).slot j = if j < i then t.slot j else if j = i then v else t.slot (j - 1) := by
  unfold insertAt memmove setLen set
  dsimp only
  by_cases hji : j < i
  · rw [if_neg (by omega), if_neg (by omega), if_pos hji]
  · rw [if_neg hji]
    by_cases he : j = i
    · rw [if_pos he, if_pos he]
    · rw [if_neg he, if_neg he, if_pos (by omega)]
      congr 1
      omega

@[simp] theorem toList_set (t : CTable α) (i : ℕ) (v : α) : (t.set i v).toList = t.toList.set i v := by
  apply List.ext_getElem
  · simp
  · intro j h1 h2
    rw [getElem_toList, List.getElem_set, set_slot]
    simp [eq_comm]

theorem toList_removeAt (t : CTable α) (i : ℕ) (hi : i < t.n) :
    (t.removeAt i).toList = t.toList.eraseIdx i := by
  apply List.ext_getElem
  · rw [length_toList, removeAt_n, List.length_eraseIdx_of_lt (by simpa using hi), length_toList]
  · intro j h1 h2
    have hj : j < t.n - 1 := by simpa using h1
    rw [getElem_toList, List.getElem_eraseIdx, removeAt_slot t hj]
    simp

theorem toList_insertAt (t : CTable α) (i : ℕ) (v : α) (hi : i ≤ t.n) :
    (t.insertAt i v).toList = t.toList.insertIdx i v := by
  apply List.ext_getElem
  · rw [length_toList, insertAt_n, List.length_insertIdx_of_le_length (by simpa using hi),
      length_toList]
  · intro j h1 h2
    have hj : j < t.n + 1 := by simpa using h1
    rw [getElem_toList, List.getElem_insertIdx, insertAt_slot t v hj]
    simp

/-! ### Splitting at an index -/

/-- The contents around an entry in use. -/
theorem toList_split (t : CTable α) {i : ℕ} (hi : i < t.n) :
    t.toList = t.toList.take i ++ t.slot i :: t.toList.drop (i + 1) := by
  have hlen : i < t.toList.length := by simpa using hi
  conv_lhs => rw [← List.take_append_drop i t.toList, List.drop_eq_getElem_cons hlen]
  rw [getElem_toList]

/-- Two neighbours and the entries around them. -/
theorem toList_split_two (t : CTable α) {i : ℕ} (hi : i + 1 < t.n) :
    t.toList = t.toList.take i ++ t.slot i :: t.slot (i + 1) :: t.toList.drop (i + 1 + 1) := by
  have hdrop : t.toList.drop (i + 1) = t.slot (i + 1) :: t.toList.drop (i + 1 + 1) := by
    rw [List.drop_eq_getElem_cons (by simpa using hi), getElem_toList]
  rw [← hdrop]
  exact toList_split t (Nat.lt_of_succ_lt hi)

/-- A list splits at the first entry with a property in one way. -/
theorem first_split_unique {p : α → Prop} {x x' : α} {post post' : List α} (hx : p x) (hx' : p x') :
    ∀ {pre pre' : List α}, (∀ y ∈ pre, ¬p y) → (∀ y ∈ pre', ¬p y) →
      pre ++ x :: post = pre' ++ x' :: post' → pre = pre' ∧ x = x' ∧ post = post'
  | [], [], _, _, h => ⟨rfl, List.cons.inj h⟩
  | [], y :: pre', _, hpre', h => by
    obtain ⟨rfl, -⟩ := List.cons.inj h
    exact absurd hx (hpre' x List.mem_cons_self)
  | y :: pre, [], hpre, _, h => by
    obtain ⟨rfl, -⟩ := List.cons.inj h
    exact absurd hx' (hpre y List.mem_cons_self)
  | y :: pre, y' :: pre', hpre, hpre', h => by
    obtain ⟨rfl, htail⟩ := List.cons.inj h
    obtain ⟨rfl, hrest⟩ := first_split_unique hx hx' (fun z hz => hpre z (List.mem_cons_of_mem _ hz))
      (fun z hz => hpre' z (List.mem_cons_of_mem _ hz)) htail
    exact ⟨rfl, hrest⟩

theorem toList_removeAt_split (t : CTable α) {i : ℕ} (hi : i < t.n) :
    (t.removeAt i).toList = t.toList.take i ++ t.toList.drop (i + 1) := by
  rw [toList_removeAt t i hi, List.eraseIdx_eq_take_drop_succ]

/-- `insertIdx` as a split, for an index inside the list. -/
theorem insertIdx_eq_take_cons_drop (v : α) : ∀ (l : List α) (i : ℕ), i ≤ l.length →
    l.insertIdx i v = l.take i ++ v :: l.drop i
  | l, 0, _ => by simp
  | [], i + 1, h => by simp at h
  | x :: l, i + 1, h => by
    rw [List.insertIdx_succ_cons, insertIdx_eq_take_cons_drop v l i (by simpa using h),
      List.take_succ_cons, List.drop_succ_cons, List.cons_append]

theorem toList_insertAt_split (t : CTable α) {i : ℕ} (v : α) (hi : i ≤ t.n) :
    (t.insertAt i v).toList = t.toList.take i ++ v :: t.toList.drop i := by
  rw [toList_insertAt t i v hi, insertIdx_eq_take_cons_drop v _ _ (by simpa using hi)]

theorem toList_set_split (t : CTable α) {i : ℕ} (v : α) (hi : i < t.n) :
    (t.set i v).toList = t.toList.take i ++ v :: t.toList.drop (i + 1) := by
  rw [toList_set, List.set_eq_take_append_cons_drop, if_pos (by simpa using hi)]

/-- A store that keeps `f` of the entry keeps `f` of the table. -/
theorem map_toList_set {β : Type*} {f : α → β} {t : CTable α} {i : ℕ} {v : α}
    (hv : f v = f (t.slot i)) : (t.set i v).toList.map f = t.toList.map f := by
  rw [toList_set, List.map_set, hv]
  by_cases hi : i < t.toList.length
  · rw [← getElem_toList t i hi, ← List.map_set, List.set_getElem_self]
  · rw [List.set_eq_of_length_le (by simpa using hi)]

/-- Reading at a split. -/
theorem slot_of_split {t : CTable α} {pre post : List α} {x : α} (ht : t.toList = pre ++ x :: post) :
    t.slot pre.length = x := by
  have hlt : pre.length < t.toList.length := by rw [ht]; simp
  rw [← getElem_toList t _ hlt]
  simp [ht]

theorem n_of_split {t : CTable α} {pre post : List α} {x : α} (ht : t.toList = pre ++ x :: post) :
    t.n = pre.length + 1 + post.length := by
  rw [← length_toList, ht]
  simp only [List.length_append, List.length_cons]
  omega

/-- Two neighbours replaced by one entry. -/
theorem toList_merge {t : CTable α} {pre post : List α} {x y v : α}
    (ht : t.toList = pre ++ x :: y :: post) :
    ((t.set pre.length v).removeAt (pre.length + 1)).toList = pre ++ v :: post := by
  have hn := n_of_split ht
  rw [toList_removeAt _ _ (by rw [set_n, hn, List.length_cons]; omega), toList_set, ht,
    List.set_append_right _ _ (Nat.le_refl _), Nat.sub_self, List.set_cons_zero,
    List.eraseIdx_append_of_length_le (by omega), Nat.add_sub_cancel_left]
  rfl

/-- One entry replaced by two neighbours. -/
theorem toList_splitAt {t : CTable α} {pre post : List α} {x u v : α}
    (ht : t.toList = pre ++ x :: post) :
    ((t.insertAt (pre.length + 1) v).set pre.length u).toList = pre ++ u :: v :: post := by
  have hn := n_of_split ht
  have hsplit : t.toList = (pre ++ [x]) ++ post := by simpa using ht
  rw [toList_set, toList_insertAt_split _ _ (by omega), hsplit, List.take_left' (by simp),
    List.drop_left' (by simp), List.append_assoc, List.set_append_right _ _ (Nat.le_refl _),
    Nat.sub_self]
  rfl

/-- Filling in the entry past the last one and counting it. -/
theorem toList_push (t : CTable α) (v : α) : ((t.set t.n v).setLen (t.n + 1)).toList = t.toList ++ [v] := by
  show (List.range (t.n + 1)).map (t.set t.n v).slot = _
  rw [List.range_succ, List.map_append, List.map_singleton, set_slot_self]
  congr 1
  refine List.map_congr_left fun i hi => ?_
  rw [set_slot, if_neg (by have := List.mem_range.mp hi; omega)]

/-- Entries past the last one do not show. -/
@[simp] theorem toList_set_n (t : CTable α) (v : α) : (t.set t.n v).toList = t.toList := by
  rw [toList_set, List.set_eq_of_length_le (by simp)]

/-! ### The search loop -/

theorem firstIdx_eq_some {t : CTable α} {p : α → Bool} {i : ℕ} :
    t.firstIdx p = some i ↔ i < t.n ∧ p (t.slot i) = true ∧ ∀ j < i, p (t.slot j) = false := by
  unfold firstIdx
  rw [List.find?_range_eq_some]
  simp [and_left_comm]

theorem firstIdx_eq_none {t : CTable α} {p : α → Bool} :
    t.firstIdx p = none ↔ ∀ i < t.n, p (t.slot i) = false := by
  simp [firstIdx]

theorem isSome_firstIdx {t : CTable α} {p : α → Bool} :
    (t.firstIdx p).isSome = true ↔ ∃ v ∈ t.toList, p v = true := by
  cases h : t.firstIdx p with
  | none =>
    refine ⟨fun hsome => (by cases hsome), ?_⟩
    rintro ⟨v, hv, hp⟩
    obtain ⟨i, hi, rfl⟩ := mem_toList.mp hv
    rw [firstIdx_eq_none.mp h i hi] at hp
    cases hp
  | some i =>
    obtain ⟨hi, hp, -⟩ := firstIdx_eq_some.mp h
    exact ⟨fun _ => ⟨_, mem_toList.mpr ⟨i, hi, rfl⟩, hp⟩, fun _ => rfl⟩

theorem lowerBoundLoop_spec {t : CTable α} {p : α → Bool}
    (hmono : ∀ i j, i ≤ j → j < t.n → p (t.slot j) = true → p (t.slot i) = true) :
    ∀ (fuel lo hi : ℕ), lo ≤ hi → hi ≤ t.n → hi - lo ≤ fuel →
      (∀ i < lo, p (t.slot i) = true) → (∀ i, hi ≤ i → i < t.n → p (t.slot i) = false) →
      lowerBoundLoop t p fuel lo hi ≤ t.n ∧
        (∀ i < lowerBoundLoop t p fuel lo hi, p (t.slot i) = true) ∧
        ∀ i, lowerBoundLoop t p fuel lo hi ≤ i → i < t.n → p (t.slot i) = false := by
  intro fuel
  induction fuel with
  | zero =>
    intro lo hi hle hhi hfuel hbelow habove
    obtain rfl : lo = hi := by omega
    exact ⟨hhi, hbelow, habove⟩
  | succ fuel ih =>
    intro lo hi hle hhi hfuel hbelow habove
    unfold lowerBoundLoop
    split_ifs with hlt
    · dsimp only
      have hmid : lo ≤ (lo + hi) / 2 ∧ (lo + hi) / 2 < hi := by omega
      by_cases hp : p (t.slot ((lo + hi) / 2)) = true
      · rw [if_pos hp]
        refine ih _ _ (by omega) hhi (by omega) (fun i hi' => ?_) habove
        exact hmono i _ (Nat.lt_succ_iff.mp hi') (by omega) hp
      · rw [if_neg hp]
        refine ih _ _ hmid.1 (by omega) (by omega) hbelow fun i hi' hin => ?_
        by_contra hcon
        exact hp (hmono _ i hi' hin (by simpa using hcon))
    · obtain rfl : lo = hi := by omega
      exact ⟨hhi, hbelow, habove⟩

/-- On a table in which the entries that satisfy `p` come first, the binary search finds where they
end. -/
theorem lowerBound_spec {t : CTable α} {p : α → Bool}
    (hmono : ∀ i j, i ≤ j → j < t.n → p (t.slot j) = true → p (t.slot i) = true) :
    t.lowerBound p ≤ t.n ∧ (∀ i < t.lowerBound p, p (t.slot i) = true) ∧
      ∀ i, t.lowerBound p ≤ i → i < t.n → p (t.slot i) = false :=
  lowerBoundLoop_spec hmono _ _ _ (Nat.zero_le _) (Nat.le_refl _) (Nat.le_refl _) (by simp)
    fun _ h h' => absurd h' (Nat.not_lt.mpr h)

end CTable
