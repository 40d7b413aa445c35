import Mathlib.Data.List.Dedup
import Mathlib.Data.List.Induction
import Mathlib.Data.List.Perm.Subperm
import OrbisCompat.Lib.CTable

/-!
# A table of keys and values in a C array

The entries of a `CTable (κ × ν)` are found by a search for the key (`find`).  `put cap` overwrites the
value of a key that is there and appends one that is not, as long as there is room for `cap` entries.

After any assignments, of at most `cap` different keys, every key has the value assigned to it last
(`find_putAll`).
-/

namespace KeyTable

variable {κ ν : Type*}

/-- The keys in the table. -/
def keys (t : CTable (κ × ν)) : List κ := t.toList.map Prod.fst

/-- Overwriting keeps the keys. -/
theorem keys_set (t : CTable (κ × ν)) (i : ℕ) (v : ν) : keys (t.set i ((t.slot i).1, v)) = keys t :=
  CTable.map_toList_set rfl

theorem keys_push (t : CTable (κ × ν)) (k : κ) (v : ν) :
    keys ((t.set t.n (k, v)).setLen (t.n + 1)) = keys t ++ [k] := by
  unfold keys
  rw [CTable.toList_push, List.map_append, List.map_singleton]

variable [DecidableEq κ]

/-- The first entry of a key. -/
def indexOf (t : CTable (κ × ν)) (k : κ) : Option ℕ := t.firstIdx fun e => decide (e.1 = k)

/-- The value of a key. -/
def find (t : CTable (κ × ν)) (k : κ) : Option ν := (indexOf t k).map fun i => (t.slot i).2

/-- Overwrite the value of a key, or append it if there is room. -/
def put (cap : ℕ) (t : CTable (κ × ν)) (k : κ) (v : ν) : CTable (κ × ν) :=
  match indexOf t k with
  | some i => t.set i ((t.slot i).1, v)
  | none => if cap ≤ t.n then t else (t.set t.n (k, v)).setLen (t.n + 1)

/-- Assignments one after another. -/
def putAll (cap : ℕ) (t : CTable (κ × ν)) (es : List (κ × ν)) : CTable (κ × ν) :=
  es.foldl (fun t e => put cap t e.1 e.2) t

/-- The value assigned to a key last. -/
def lastValue (es : List (κ × ν)) (k : κ) : Option ν :=
  (es.filter fun e => decide (e.1 = k)).getLast?.map Prod.snd

variable {t : CTable (κ × ν)} {k k' : κ} {v : ν} {cap i : ℕ}

@[simp] theorem lastValue_nil (k : κ) : lastValue ([] : List (κ × ν)) k = none := rfl

theorem lastValue_concat (es : List (κ × ν)) (e : κ × ν) (k : κ) :
    lastValue (es ++ [e]) k = if e.1 = k then some e.2 else lastValue es k := by
  unfold lastValue
  rw [List.filter_append]
  split_ifs with h
  · simp [h]
  · simp [h]

/-- What is assigned last, from an old value on. -/
theorem lastValue_cons (e : κ × ν) (es : List (κ × ν)) (k : κ) (old : ν) :
    (lastValue (e :: es) k).getD old = (lastValue es k).getD (if e.1 = k then e.2 else old) := by
  unfold lastValue
  rw [List.filter_cons]
  by_cases he : e.1 = k
  · rw [if_pos (decide_eq_true he), if_pos he, List.getLast?_cons]
    cases (es.filter fun e => decide (e.1 = k)).getLast? <;> rfl
  · rw [if_neg (by simpa using he), if_neg he]

theorem lastValue_eq_none {es : List (κ × ν)} {k : κ} :
    lastValue es k = none ↔ ∀ e ∈ es, e.1 ≠ k := by
  simp [lastValue]

theorem indexOf_eq_some :
    indexOf t k = some i ↔ i < t.n ∧ (t.slot i).1 = k ∧ ∀ j < i, (t.slot j).1 ≠ k := by
  unfold indexOf
  rw [CTable.firstIdx_eq_some]
  simp

theorem indexOf_eq_none : indexOf t k = none ↔ k ∉ keys t := by
  unfold indexOf keys
  rw [CTable.firstIdx_eq_none]
  simp [CTable.toList]

theorem find_eq_find? (t : CTable (κ × ν)) (k : κ) :
    find t k = (t.toList.find? fun e => decide (e.1 = k)).map Prod.snd := by
  unfold find indexOf CTable.firstIdx CTable.toList
  rw [List.find?_map, Option.map_map]
  rfl

/-- What overwriting an entry does to the values. -/
theorem find_set (hi : indexOf t k = some i) :
    find (t.set i ((t.slot i).1, v)) k' = if k = k' then some v else find t k' := by
  have hslot : ∀ j, ((t.set i ((t.slot i).1, v)).slot j).1 = (t.slot j).1 := by
    intro j
    rw [CTable.set_slot]
    split_ifs with hj
    · rw [hj]
    · rfl
  have hindex : indexOf (t.set i ((t.slot i).1, v)) k' = indexOf t k' := by
    unfold indexOf CTable.firstIdx
    rw [CTable.set_n]
    simp only [hslot]
  obtain ⟨-, hkey, -⟩ := indexOf_eq_some.mp hi
  unfold find
  rw [hindex]
  split_ifs with h
  · rw [← h, hi, Option.map_some, CTable.set_slot_self]
  · refine Option.map_congr fun j hj => ?_
    obtain ⟨-, hj', -⟩ := indexOf_eq_some.mp hj
    rw [CTable.set_slot, if_neg fun heq => h (by rw [← hkey, ← heq, hj'])]

/-- What appending an entry does to the values. -/
theorem find_push (hk : indexOf t k = none) :
    find ((t.set t.n (k, v)).setLen (t.n + 1)) k' = if k = k' then some v else find t k' := by
  rw [find_eq_find?, CTable.toList_push, List.find?_append, find_eq_find?]
  split_ifs with h
  · have hnone : (t.toList.find? fun e => decide (e.1 = k')) = none := by
      rw [List.find?_eq_none]
      intro e he heq
      refine indexOf_eq_none.mp hk (List.mem_map.mpr ⟨e, he, ?_⟩)
      rw [of_decide_eq_true heq, h]
    rw [hnone]
    simp [h]
  · simp [h]

/-- After any assignments of at most `cap` different keys, the table has exactly the assigned keys, each
once, and each with the value assigned to it last. -/
theorem putAll_spec {cap : ℕ} {x : ℕ → κ × ν} (es : List (κ × ν))
    (hcap : (es.map Prod.fst).dedup.length ≤ cap) :
    (∀ k, find (putAll cap ⟨0, x⟩ es) k = lastValue es k) ∧
      (keys (putAll cap ⟨0, x⟩ es)).Nodup ∧
      ∀ k, k ∈ keys (putAll cap ⟨0, x⟩ es) ↔ k ∈ es.map Prod.fst := by
  induction es using List.reverseRecOn with
  | nil => exact ⟨fun k => rfl, List.nodup_nil, fun k => Iff.rfl⟩
  | append_singleton es e ih =>
    rw [List.map_append, List.map_singleton] at hcap
    have hsub : (es.map Prod.fst).dedup.length ≤ cap := by
      refine Nat.le_trans (List.subperm_of_subset (List.nodup_dedup _) fun k hk => ?_).length_le hcap
      exact List.mem_dedup.mpr (List.mem_append_left _ (List.mem_dedup.mp hk))
    obtain ⟨hfind, hnd, hmem⟩ := ih hsub
    have hput : putAll cap ⟨0, x⟩ (es ++ [e]) = put cap (putAll cap ⟨0, x⟩ es) e.1 e.2 :=
      List.foldl_append
    rw [hput, List.map_append, List.map_singleton]
    generalize putAll cap ⟨0, x⟩ es = t at hfind hnd hmem
    unfold put
    cases hi : indexOf t e.1 with
    | some i =>
      have hold : e.1 ∈ es.map Prod.fst := by
        rw [← hmem]
        by_contra hnot
        rw [indexOf_eq_none.mpr hnot] at hi
        cases hi
      dsimp only
      refine ⟨fun k => ?_, by rwa [keys_set], fun k => ?_⟩
      · rw [find_set hi, lastValue_concat, hfind]
      · rw [keys_set, hmem, List.mem_append, List.mem_singleton]
        refine ⟨Or.inl, fun h => h.elim id ?_⟩
        rintro rfl
        exact hold
    | none =>
      have hnew : (keys t ++ [e.1]).Nodup := by
        rw [List.nodup_append]
        refine ⟨hnd, List.nodup_singleton _, fun k hk k' hk' heq => indexOf_eq_none.mp hi ?_⟩
        rwa [← List.mem_singleton.mp hk', ← heq]
      -- the keys there are and the new one are among those assigned, so one entry is free
      have hroom : t.n < cap := by
        have hle : (keys t ++ [e.1]).length ≤ cap := by
          refine Nat.le_trans (List.subperm_of_subset hnew fun k hk => ?_).length_le hcap
          rw [List.mem_append, hmem, ← List.mem_append] at hk
          exact List.mem_dedup.mpr hk
        simpa [keys, Nat.succ_le_iff] using hle
      rw [if_neg (Nat.not_le.mpr hroom)]
      refine ⟨fun k => ?_, by rwa [keys_push], fun k => ?_⟩
      · rw [find_push hi, lastValue_concat, hfind]
      · rw [keys_push, List.mem_append, hmem, List.mem_append]

/-- **Last assignment.** -/
theorem find_putAll {x : ℕ → κ × ν} (es : List (κ × ν))
    (hcap : (es.map Prod.fst).dedup.length ≤ cap) (k : κ) :
    find (putAll cap ⟨0, x⟩ es) k = lastValue es k :=
  (putAll_spec es hcap).1 k

end KeyTable
