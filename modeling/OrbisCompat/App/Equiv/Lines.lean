import OrbisCompat.App.Basic

/-!
# When a line of the log is one line

`formatLine` hands `vsnprintf` two bytes less than there are, and ends the line behind as many: a message of that length or more
leaves `vsnprintf`'s terminator in front of the newline (`kept`).
-/

namespace OrbisCompat.App

variable {lib : Stdio} {app buf p w m rest : List UInt8} {message : Option (List UInt8)} {off sz size k : ℕ}

/-! ### `formatLine` -/

/-- A line that ends with a newline. -/
def closed (w : List UInt8) : List UInt8 := if w.getLast? = some newline then w else w ++ [newline]

theorem unended_eq (p w rest : List UInt8) :
    unended (p ++ (w ++ rest)) p.length w.length = some (w.getLast? != some newline) := by
  unfold unended
  by_cases hw : w = []
  · subst hw
    rfl
  · have hlt : w.length - 1 < w.length := Nat.sub_one_lt (mt List.length_eq_zero_iff.mp hw)
    rw [if_neg (mt List.length_eq_zero_iff.mp hw), List.getElem?_append_right (Nat.le_add_right _ _), Nat.add_sub_cancel_left,
      List.getElem?_append_left hlt, ← List.getLast?_eq_getElem?, List.getLast?_eq_some_getLast hw]
    rfl

/-- The end of a line, behind the bytes `w` of it. -/
theorem endLine_eq (p w rest : List UInt8) (hrest : 2 ≤ rest.length) :
    ∃ rest', endLine (p ++ (w ++ rest)) p.length w.length = some (p ++ (closed w ++ 0 :: rest')) ∧
      (p ++ (closed w ++ 0 :: rest')).length = (p ++ (w ++ rest)).length := by
  obtain ⟨r, r', rest, rfl⟩ : ∃ r r' rest', rest = r :: r' :: rest' := by
    match rest, hrest with
    | r :: r' :: rest', _ => exact ⟨r, r', rest', rfl⟩
  unfold endLine closed
  rw [unended_eq, Option.bind_eq_bind, Option.bind_some, ← List.append_assoc, ← List.length_append]
  by_cases hlast : w.getLast? = some newline
  · refine ⟨r' :: rest, ?_, ?_⟩
    · rw [hlast, bne_self_eq_false, if_neg Bool.false_ne_true, Buffer.store_append, if_pos rfl, List.append_assoc]
    · simp [hlast]
  · refine ⟨rest, ?_, ?_⟩
    · -- the newline goes where the terminator was to go, and that behind it
      have hmore : (w.getLast? != some newline) = true := bne_iff_ne.mpr hlast
      have hnext : p.length + (w.length + 1) = (p ++ w ++ [newline]).length := by
        rw [List.length_append, List.length_append, List.length_singleton, Nat.add_assoc]
      rw [if_pos hmore, if_neg hlast, Buffer.store_append, Option.bind_eq_bind, Option.bind_some, hnext, List.append_cons,
        Buffer.store_append, List.append_assoc, List.append_assoc, List.append_assoc]
    · simp [hlast]

/-- What `formatLine` keeps of a message in front of the end of the line, with room for `k` bytes: all of it, or what `vsnprintf`
stores, its terminator included. -/
def kept (k : ℕ) (message : Option (List UInt8)) : List UInt8 :=
  match printed message with
  | none => []
  | some m => if m.length < k then m else m.take (k - 1) ++ [0]

theorem formatLine_eq (lib : Stdio) (p rest : List UInt8) (message : Option (List UInt8)) (hsz : 3 ≤ rest.length)
    (hlt : rest.length < 2 ^ 64) :
    ∃ rest', formatLine lib (p ++ rest) p.length rest.length message =
        some (p ++ (closed (kept (rest.length - 2) message) ++ 0 :: rest')) ∧
      (p ++ (closed (kept (rest.length - 2) message) ++ 0 :: rest')).length = (p ++ rest).length := by
  obtain ⟨k, hk⟩ : ∃ k, rest.length = k + 3 := Nat.exists_eq_add_of_le' hsz
  have hsub : Word64.sub rest.length 2 = k + 1 := by
    rw [Word64.sub_of_le (by omega) hlt]
    omega
  have hroom : rest.length - 2 = k + 1 := by omega
  unfold formatLine kept vsnprintf
  rw [hsub, hroom]
  cases printed message with
  | none =>
    -- whatever a failed call has stored is behind the newline and the terminator, or under them
    have hleft := lib.length_leftover message (k + 1)
    generalize lib.leftover message (k + 1) = g at hleft ⊢
    have hfit : g.length ≤ rest.length := by omega
    have hrest : 2 ≤ (g ++ rest.drop g.length).length := by
      rw [List.length_append, List.length_drop]
      omega
    obtain ⟨rest', hline, hlen⟩ := endLine_eq p [] (g ++ rest.drop g.length) hrest
    refine ⟨rest', ?_, ?_⟩
    · rw [Buffer.storeFrom_append p hfit]
      exact hline
    · rw [hlen]
      simp only [List.nil_append, List.length_append, List.length_drop]
      omega
  | some m =>
    have hfit : (m.take k ++ [0]).length ≤ rest.length := by
      rw [List.length_append, List.length_take, List.length_singleton]
      omega
    have hnat : ¬(m.length : ℤ) < 0 := not_lt.mpr (Int.natCast_nonneg _)
    dsimp only
    rw [if_neg (Nat.succ_ne_zero k), Nat.add_sub_cancel, Buffer.storeFrom_append p hfit]
    simp only [Option.bind_eq_bind, Option.bind_some, if_neg hnat, Int.toNat_natCast]
    by_cases hm : m.length < k + 1
    · -- all of the message is there
      have htake : m.take k = m := List.take_of_length_le (Nat.le_of_lt_succ hm)
      have hrest : 2 ≤ (0 :: rest.drop (m.length + 1)).length := by
        rw [List.length_cons, List.length_drop]
        omega
      obtain ⟨rest', hline, hlen⟩ := endLine_eq p m (0 :: rest.drop (m.length + 1)) hrest
      rw [if_neg (Nat.not_lt.mpr hm.le), if_pos hm, htake, List.length_append, List.length_singleton, List.append_assoc]
      refine ⟨rest', hline, ?_⟩
      rw [hlen]
      simp only [List.length_append, List.length_cons, List.length_drop]
      omega
    · -- the terminator is the last of the bytes that count
      have hkept : (m.take k ++ [0]).length = k + 1 := by
        rw [List.length_append, List.length_take, List.length_singleton]
        omega
      have hlen : (if m.length > k + 1 then k + 1 else m.length) = (m.take k ++ [0]).length := by
        rw [hkept]
        split_ifs <;> omega
      have hrest : 2 ≤ (rest.drop (m.take k ++ [0]).length).length := by
        rw [List.length_drop]
        omega
      obtain ⟨rest', hline, hsame⟩ := endLine_eq p (m.take k ++ [0]) (rest.drop (m.take k ++ [0]).length) hrest
      rw [if_neg hm, hlen]
      refine ⟨rest', hline, ?_⟩
      rw [hsame]
      simp only [List.length_append, List.length_drop] at hfit ⊢
      omega

/-! ### `tagLine` -/

/-- What `tagLine` leaves of the tag, in `sz` bytes. -/
def keptTag (app : List UInt8) (sz : ℕ) : List UInt8 := if (tagText app).length < sz - 2 then tagText app else []

/-- The room for the message behind it, as `formatLine` counts it. -/
def room (app : List UInt8) (sz : ℕ) : ℕ := sz - (keptTag app sz).length - 2

/-- A call of `vsnprintf` writes something over the front of the array. -/
theorem vsnprintf_front (lib : Stdio) (buf : List UInt8) (hsz : 0 < buf.length) (message : Option (List UInt8)) :
    ∃ buf', vsnprintf lib buf 0 buf.length message = some (((printed message).elim (-1) fun m => (m.length : ℤ)), buf') ∧
      buf'.length = buf.length ∧ ∀ m, printed message = some m → m.length < buf.length → m <+: buf' := by
  unfold vsnprintf
  cases printed message with
  | none =>
    have hfit := lib.length_leftover message buf.length
    generalize lib.leftover message buf.length = g at hfit ⊢
    rw [Buffer.storeFrom_zero hfit]
    refine ⟨_, rfl, ?_, nofun⟩
    rw [List.length_append, List.length_drop]
    omega
  | some m =>
    have hfit : (m.take (buf.length - 1) ++ [0]).length ≤ buf.length := by
      rw [List.length_append, List.length_take, List.length_singleton]
      omega
    dsimp only
    rw [if_neg hsz.ne', Buffer.storeFrom_zero hfit]
    refine ⟨_, rfl, ?_, ?_⟩
    · rw [List.length_append, List.length_drop]
      omega
    · rintro m' hm' hlt
      obtain rfl := Option.some.inj hm'
      rw [List.take_of_length_le (Nat.le_sub_one_of_lt hlt), List.append_assoc]
      exact List.prefix_append m _

theorem tagLine_eq (lib : Stdio) (app : List UInt8) (message : Option (List UInt8)) (hsz : 3 ≤ buf.length)
    (hle : buf.length ≤ 2 ^ 31) :
    ∃ rest, tagLine lib app buf buf.length message =
        some (keptTag app buf.length ++ (closed (kept (room app buf.length) message) ++ 0 :: rest)) ∧
      (keptTag app buf.length ++ (closed (kept (room app buf.length) message) ++ 0 :: rest)).length = buf.length := by
  obtain ⟨buf', hbuf, hlen, hpre⟩ := vsnprintf_front lib buf (by omega) (some (tagText app))
  have hsub : Word64.sub buf.length 2 = buf.length - 2 := Word64.sub_of_le (by omega) (by omega)
  unfold tagLine room keptTag
  rw [hbuf, Option.bind_eq_bind, Option.bind_some, hsub]
  dsimp only
  by_cases hfit : (tagText app).length < buf.length - 2
  · -- the message goes behind the tag
    have hprinted : printed (some (tagText app)) = some (tagText app) := by
      have hlt : (tagText app).length < 2 ^ 31 := by omega
      rw [printed, Option.filter_some, if_pos (decide_eq_true hlt)]
    obtain ⟨rest, hrest⟩ := hpre _ hprinted (by omega)
    have hnot : ¬((tagText app).length : ℤ) < 0 := not_lt.mpr (Int.natCast_nonneg _)
    have hroom : rest.length = buf.length - (tagText app).length := by
      rw [← hlen, ← hrest, List.length_append]
      omega
    obtain ⟨rest', hline, hsame⟩ := formatLine_eq lib (tagText app) rest message (by omega) (by omega)
    rw [hprinted, Option.elim_some, Int.toNat_natCast, if_neg (not_or.mpr ⟨hnot, Nat.not_le.mpr hfit⟩), if_pos hfit,
      Word64.sub_of_le (by omega) (by omega), ← hroom, ← hrest]
    refine ⟨rest', hline, ?_⟩
    rw [hsame, hrest, hlen]
  · -- the message goes over what there is of the tag
    have hoff : (printed (some (tagText app))).elim (-1) (fun m => (m.length : ℤ)) < 0 ∨
        ((printed (some (tagText app))).elim (-1) fun m => (m.length : ℤ)).toNat ≥ buf.length - 2 := by
      unfold printed
      rw [Option.filter_some]
      split_ifs
      · exact Or.inr (by rw [Option.elim_some, Int.toNat_natCast]; exact Nat.not_lt.mp hfit)
      · exact Or.inl (by rw [Option.elim_none]; norm_num)
    obtain ⟨rest', hline, hsame⟩ := formatLine_eq lib [] buf' message (by omega) (by omega)
    rw [if_pos hoff, if_neg hfit, Word64.sub_of_le (Nat.zero_le _) (by omega), Nat.sub_zero, ← hlen]
    exact ⟨rest', hline, hsame⟩

/-! ### One line -/

/-- A line out of `sz` bytes: the tag, where there is room for it with a newline and a terminator behind it, a part of the message
from its front, and a newline. -/
def IsLine (app : List UInt8) (message : Option (List UInt8)) (sz : ℕ) (line : List UInt8) : Prop :=
  ∃ t, t <+: message.getD [] ∧ line = (if (tagText app).length + 2 ≤ sz then tagText app else []) ++ t ++ [newline]

/-- The string in an array is a line. -/
def OneLine (app : List UInt8) (message : Option (List UInt8)) (buf : List UInt8) : Prop :=
  ∃ line, Buffer.cstr 0 buf = some line ∧ IsLine app message buf.length line

/-- `tagLine` stays within the array, and leaves one line in it. -/
def LeavesLine (lib : Stdio) (app : List UInt8) (message : Option (List UInt8)) (buf : List UInt8) : Prop :=
  ∃ buf', tagLine lib app buf buf.length message = some buf' ∧ buf'.length = buf.length ∧ OneLine app message buf'

/-- With room for `k` bytes the message ends, or what is visible of it does with a newline of its own. -/
def Ends (k : ℕ) (message : Option (List UInt8)) : Prop :=
  ∀ m, printed message = some m →
    m.length < k ∧ 0 ∉ m ∨ ((m.take (k - 1)).takeWhile (· ≠ 0)).getLast? = some newline

/-- What the reader of the line sees behind the tag. -/
def visible (k : ℕ) (message : Option (List UInt8)) : List UInt8 := (closed (kept k message)).takeWhile (· ≠ 0)

theorem nul_not_mem_tagText (h : 0 ∉ app) : 0 ∉ tagText app := by
  unfold tagText
  rw [List.mem_append, List.mem_cons, not_or, not_or]
  exact ⟨⟨by decide, h⟩, by decide⟩

theorem getLast?_eq_some_iff_of_front {u : List UInt8} {c : UInt8} (h : u <+: m) :
    (∃ t, t <+: m ∧ u = t ++ [c]) ↔ u.getLast? = some c := by
  rw [List.getLast?_eq_some_iff]
  constructor
  · rintro ⟨t, -, ht⟩
    exact ⟨t, ht⟩
  · rintro ⟨t, rfl⟩
    exact ⟨t, (List.prefix_append t [c]).trans h, rfl⟩

theorem visible_short (hm : printed message = some m) (hlen : m.length < k) :
    visible k message = (closed m).takeWhile (· ≠ 0) := by
  have hkept : kept k message = m := by
    rw [kept, hm]
    exact if_pos hlen
  rw [visible, hkept]

/-- Of a message that is too long the reader sees what is in front of `vsnprintf`'s terminator. -/
theorem visible_long (hm : printed message = some m) (hlen : ¬m.length < k) :
    visible k message = (m.take (k - 1)).takeWhile (· ≠ 0) := by
  have hkept : kept k message = m.take (k - 1) ++ [0] := by
    rw [kept, hm]
    exact if_neg hlen
  have hlast : ¬(m.take (k - 1) ++ [0]).getLast? = some newline := by
    rw [List.getLast?_concat]
    decide
  rw [visible, hkept, closed, if_neg hlast, List.append_assoc]
  exact Buffer.takeWhile_terminated _ 0 [newline]

theorem length_visible_le (hk : 0 < k) (message : Option (List UInt8)) : (visible k message).length ≤ k := by
  cases hm : printed message with
  | none =>
    unfold visible kept
    rw [hm]
    exact (List.takeWhile_prefix _).length_le.trans hk
  | some m =>
    by_cases hlen : m.length < k
    · have hclosed : (closed m).length ≤ m.length + 1 := by
        unfold closed
        split_ifs
        · exact Nat.le_succ _
        · exact List.length_append.le
      rw [visible_short hm hlen]
      exact (List.takeWhile_prefix _).length_le.trans (hclosed.trans hlen)
    · rw [visible_long hm hlen]
      exact (List.takeWhile_prefix _).length_le.trans ((List.length_take_le _ _).trans (Nat.sub_le k 1))

theorem ends_iff (k : ℕ) (message : Option (List UInt8)) :
    (∃ t, t <+: message.getD [] ∧ visible k message = t ++ [newline]) ↔ Ends k message := by
  cases hm : printed message with
  | none =>
    have hvisible : visible k message = [newline] := by
      rw [visible, kept, hm]
      rfl
    refine iff_of_true ⟨[], List.nil_prefix, hvisible⟩ fun m h => ?_
    rw [hm] at h
    cases h
  | some m =>
    have hmessage : message.getD [] = m := by
      rw [(Option.filter_eq_some_iff.mp hm).1, Option.getD_some]
    have hiff : Ends k message ↔ m.length < k ∧ 0 ∉ m ∨ ((m.take (k - 1)).takeWhile (· ≠ 0)).getLast? = some newline := by
      unfold Ends
      rw [hm]
      simp only [Option.some_inj, forall_eq']
    rw [hmessage, hiff]
    by_cases hlen : m.length < k
    swap
    · rw [visible_long hm hlen, or_iff_right fun h => hlen h.1]
      exact getLast?_eq_some_iff_of_front ((List.takeWhile_prefix _).trans (List.take_prefix _ _))
    rw [visible_short hm hlen, List.take_of_length_le (Nat.le_sub_one_of_lt hlen)]
    by_cases hnul : 0 ∈ m
    · -- the message has a terminator in it, so the end of the line does not count
      have hclosed : (closed m).takeWhile (· ≠ 0) = m.takeWhile (· ≠ 0) := by
        unfold closed
        split_ifs
        · rfl
        · exact Buffer.takeWhile_append_of_mem hnul _
      rw [hclosed, or_iff_right fun h => h.2 hnul]
      exact getLast?_eq_some_iff_of_front (List.takeWhile_prefix _)
    · refine iff_of_true ?_ (Or.inl ⟨hlen, hnul⟩)
      have hclosed : 0 ∉ closed m := by
        unfold closed
        split_ifs
        · exact hnul
        · exact List.not_mem_append hnul (by decide)
      rw [Buffer.takeWhile_eq_self hclosed]
      unfold closed
      split_ifs with hlast
      · obtain ⟨t, ht⟩ := List.getLast?_eq_some_iff.mp hlast
        exact ⟨t, ht ▸ List.prefix_append t [newline], ht⟩
      · exact ⟨m, List.prefix_rfl, rfl⟩

/-- The lengths and the bytes for which a line is one line.  A tag that fits to the byte is left out, as `tagLine` wants room for
three bytes behind it. -/
def Fits (app : List UInt8) (message : Option (List UInt8)) (sz : ℕ) : Prop :=
  (tagText app).length + 2 ≠ sz ∧ Ends (room app sz) message

theorem oneLine_iff (happ : 0 ∉ app) (hsz : 3 ≤ sz)
    (hlen : (keptTag app sz ++ (closed (kept (room app sz) message) ++ 0 :: rest)).length = sz) :
    OneLine app message (keptTag app sz ++ (closed (kept (room app sz) message) ++ 0 :: rest)) ↔ Fits app message sz := by
  have hnul : 0 ∉ keptTag app sz := by
    unfold keptTag
    split_ifs
    · exact nul_not_mem_tagText happ
    · exact List.not_mem_nil
  have hroom : 0 < room app sz := by
    unfold room keptTag
    split_ifs
    · omega
    · rw [List.length_nil]
      omega
  have hcstr : Buffer.cstr 0 (keptTag app sz ++ (closed (kept (room app sz) message) ++ 0 :: rest)) =
      some (keptTag app sz ++ visible (room app sz) message) := by
    rw [Buffer.cstr_append_left hnul, Buffer.cstr_terminated]
    rfl
  unfold OneLine IsLine Fits
  rw [hlen, hcstr, ← ends_iff (room app sz) message]
  simp only [Option.some_inj, exists_eq_left']
  by_cases hexact : (tagText app).length + 2 = sz
  · -- the tag is left out, and without it the line is too short to have it in front
    refine iff_of_false ?_ fun h => h.1 hexact
    rintro ⟨t, -, ht⟩
    have hkept : keptTag app sz = [] := if_neg (by omega)
    have hall : room app sz = sz - 2 := by
      rw [room, hkept]
      rfl
    have hfew := length_visible_le hroom message
    have hlens := congrArg List.length ht
    rw [if_pos hexact.le, hkept, List.nil_append, List.append_assoc, List.length_append, List.length_append] at hlens
    rw [List.length_singleton] at hlens
    omega
  · have htag : (if (tagText app).length + 2 ≤ sz then tagText app else []) = keptTag app sz :=
      if_congr (by omega) rfl rfl
    rw [htag, and_iff_right hexact]
    simp only [List.append_assoc, List.append_cancel_left_eq]

theorem leavesLine_iff_fits (lib : Stdio) (message : Option (List UInt8)) (happ : 0 ∉ app) (hsz : 3 ≤ buf.length)
    (hle : buf.length ≤ 2 ^ 31) : LeavesLine lib app message buf ↔ Fits app message buf.length := by
  obtain ⟨rest, hline, hlen⟩ := tagLine_eq lib app message hsz hle
  rw [← oneLine_iff happ hsz hlen]
  unfold LeavesLine
  rw [hline]
  constructor
  · rintro ⟨buf', hbuf', -, hone⟩
    rwa [← Option.some.inj hbuf'] at hone
  · intro hone
    exact ⟨_, rfl, hlen, hone⟩

/-- A line is one line exactly when its lengths fit: a message that is as long as the room or longer is cut in front of the byte that
the newline goes behind. -/
theorem leavesLine_iff (lib : Stdio) (message : Option (List UInt8)) (happ : 0 ∉ app) (hbuf : buf.length = 512) :
    LeavesLine lib app message buf ↔ Fits app message 512 := by
  have hiff := leavesLine_iff_fits lib message happ (by omega : 3 ≤ buf.length) (by omega)
  rwa [hbuf] at hiff

/-- A `vsnprintf` that stores nothing when it fails. -/
def Stdio.silent : Stdio := ⟨fun _ _ => [], fun _ _ => Nat.zero_le _⟩

/-- The longest message that is one line behind the tag `app`. -/
theorem leavesLine_iff_full : LeavesLine Stdio.silent [97, 112, 112] (some (List.replicate 503 120)) (List.replicate 512 0) := by
  refine (leavesLine_iff Stdio.silent _ (by decide) List.length_replicate).mpr ⟨by decide, ?_⟩
  rintro m hm
  obtain rfl := Option.some.inj (Option.filter_eq_some_iff.mp hm).1
  refine Or.inl ⟨?_, ?_⟩
  · rw [List.length_replicate]
    decide
  · rw [List.mem_replicate]
    decide

/-- A longer one is cut, and its line does not end. -/
theorem not_leavesLine_long :
    ¬LeavesLine Stdio.silent [97, 112, 112] (some (List.replicate 600 120)) (List.replicate 512 0) := by
  have hsz : (List.replicate 512 (0 : UInt8)).length = 512 := List.length_replicate
  rw [leavesLine_iff_fits Stdio.silent _ (by decide) (by omega) (by omega), hsz]
  rintro ⟨-, hends⟩
  have hprinted : printed (some (List.replicate 600 120)) = some (List.replicate 600 120) := by
    rw [printed, Option.filter_some, List.length_replicate]
    rfl
  have hroom : room [97, 112, 112] 512 = 504 := by decide
  rcases hends _ hprinted with ⟨hlen, -⟩ | hlast
  · rw [List.length_replicate, hroom] at hlen
    omega
  · have hseen : (0 : UInt8) ∉ List.replicate 503 (120 : UInt8) := by
      rw [List.mem_replicate]
      decide
    have hcut : (List.replicate 600 (120 : UInt8)).take (504 - 1) = List.replicate 503 120 := List.take_replicate
    rw [hroom, hcut, Buffer.takeWhile_eq_self hseen, List.getLast?_replicate] at hlast
    exact absurd hlast (by decide)

/-! ### The channels -/

theorem tagged_of_fits (lib : Stdio) (happ : 0 ∉ app) (hfits : Fits app message 512) :
    ∃ line, tagged lib app message = some line ∧ IsLine app message 512 line := by
  have hsz : (List.replicate 512 (0 : UInt8)).length = 512 := List.length_replicate
  have hiff := leavesLine_iff_fits lib message happ (by omega : 3 ≤ (List.replicate 512 (0 : UInt8)).length) (by omega)
  rw [hsz] at hiff
  obtain ⟨buf, hline, hlen, line, hcstr, hone⟩ := hiff.mpr hfits
  rw [hsz] at hline
  rw [hlen, hsz] at hone
  refine ⟨line, ?_, hone⟩
  unfold tagged
  rw [hline, Option.bind_eq_bind, Option.bind_some]
  exact hcstr

/-- What goes out on the channels is one line, and the same one on both. -/
theorem channels_of_fits (lib : Stdio) (s : Settings) (happ : 0 ∉ app) (hfits : Fits app message 512) :
    ∃ line, IsLine app message 512 line ∧
      ps4Vlog lib s app message = some ((.netlog, line) :: if klogWanted s then [(.klog, line)] else []) ∧
      ps4LogFrame lib s app message = ps4Vlog lib s app message ∧
      ps4VlogFatal lib app message = some [(.klog, line), (.netlog, line)] := by
  obtain ⟨line, htagged, hline⟩ := tagged_of_fits lib happ hfits
  refine ⟨line, hline, ?_, rfl, ?_⟩
  · rw [ps4Vlog, htagged]
    rfl
  · rw [ps4VlogFatal, htagged]
    rfl

end OrbisCompat.App
