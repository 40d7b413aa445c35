import Mathlib.Algebra.Order.Ring.Nat
import Mathlib.Algebra.Ring.Divisibility.Basic
import Mathlib.Data.List.Count
import Mathlib.Data.List.Pairwise
import Mathlib.Data.List.Perm.Basic

/-!
# Extents, exact covers and coalescing free lists

An `Extent` is the half-open range `[start, start + len)` of addresses.  `cover l x` counts the
members of `l` that contain the address `x`, so "the pieces partition the region" is the statement
that `cover` is `1` inside the region, and moving, splitting or joining pieces is arithmetic on
counts (`cover_append`, `cover_dropFront`, `cover_joinFwd`).

`FreeList region unit l` says that `l` is a sorted list of non-empty, unit-aligned pieces of
`region` that are pairwise separated: no two overlap, and no two touch.  The two list edits of a
first-fit allocator keep it:

* cutting a block off the front of one member (`dropFront`), `FreeList.take`;
* putting a block back between two halves of the list and joining it with the neighbours it touches
  (`joinAround`), `FreeList.give`.
-/

/-- The addresses `[start, start + len)`. -/
@[ext] structure Extent where
  start : ℕ
  len : ℕ
  deriving DecidableEq, Repr

namespace Extent

/-- One past the last address. -/
def stop (e : Extent) : ℕ := e.start + e.len

instance : Membership ℕ Extent := ⟨fun e x => e.start ≤ x ∧ x < e.stop⟩

theorem mem_iff {e : Extent} {x : ℕ} : x ∈ e ↔ e.start ≤ x ∧ x < e.start + e.len := Iff.rfl

instance (x : ℕ) (e : Extent) : Decidable (x ∈ e) :=
  inferInstanceAs (Decidable (e.start ≤ x ∧ x < e.stop))

/-- No address of one lies past the start and before the end of the other. -/
def Apart (e f : Extent) : Prop := e.stop ≤ f.start ∨ f.stop ≤ e.start

instance (e f : Extent) : Decidable (Apart e f) :=
  inferInstanceAs (Decidable (e.stop ≤ f.start ∨ f.stop ≤ e.start))

/-- `e` lies inside `f`. -/
def Within (e f : Extent) : Prop := f.start ≤ e.start ∧ e.stop ≤ f.stop

instance (e f : Extent) : Decidable (Within e f) :=
  inferInstanceAs (Decidable (f.start ≤ e.start ∧ e.stop ≤ f.stop))

theorem Within.mem {e f : Extent} (h : Within e f) {x : ℕ} (hx : x ∈ e) : x ∈ f :=
  ⟨h.1.trans hx.1, lt_of_lt_of_le hx.2 h.2⟩

theorem Apart.symm {e f : Extent} (h : Apart e f) : Apart f e := Or.symm h

theorem Apart.not_mem {e f : Extent} (h : Apart e f) {x : ℕ} (he : x ∈ e) : x ∉ f := by
  rintro ⟨h1, h2⟩
  obtain ⟨h3, h4⟩ := he
  rcases h with h | h <;> omega

/-- Parts of ranges that are apart are apart. -/
theorem Apart.mono {e f e' f' : Extent} (h : Apart e f) (he : Within e' e) (hf : Within f' f) :
    Apart e' f' := by
  obtain ⟨he1, he2⟩ := he
  obtain ⟨hf1, hf2⟩ := hf
  rcases h with h | h
  · exact Or.inl (by omega)
  · exact Or.inr (by omega)

/-- Non-empty ranges without a common address are apart. -/
theorem apart_of_forall_not_mem {e f : Extent} (he : 0 < e.len) (hf : 0 < f.len)
    (h : ∀ x ∈ e, x ∉ f) : Apart e f := by
  unfold Apart stop
  by_contra hc
  -- the later of the two starts lies in both
  have hx : max e.start f.start ∈ e := by rw [mem_iff]; omega
  exact h _ hx (by rw [mem_iff]; omega)

/-- Of ranges that are pairwise apart, an address lies in at most one. -/
theorem eq_of_mem_of_apart {α : Type*} {f : α → Extent} {l : List α}
    (hap : l.Pairwise fun a b => Apart (f a) (f b)) {a b : α} (ha : a ∈ l) (hb : b ∈ l) {x : ℕ}
    (hxa : x ∈ f a) (hxb : x ∈ f b) : a = b := by
  by_contra hne
  have : Std.Symm fun a b : α => Apart (f a) (f b) := ⟨fun _ _ h => h.symm⟩
  exact (hap.forall ha hb hne).not_mem hxa hxb

/-- Ranges that are apart and not empty are different. -/
theorem nodup_of_apart {l : List Extent} (hap : l.Pairwise Apart) (hpos : ∀ e ∈ l, 0 < e.len) :
    l.Nodup := by
  refine hap.imp_of_mem fun {e f} he _ h => ?_
  rintro rfl
  have := hpos e he
  unfold Apart stop at h
  omega

/-! ### Counting covers -/

/-- How many members of `l` contain the address `x`. -/
def cover (l : List Extent) (x : ℕ) : ℕ := l.countP fun e => decide (x ∈ e)

@[simp] theorem cover_nil (x : ℕ) : cover [] x = 0 := rfl

theorem cover_cons (e : Extent) (l : List Extent) (x : ℕ) :
    cover (e :: l) x = cover l x + if x ∈ e then 1 else 0 := by
  simp [cover, List.countP_cons]

@[simp] theorem cover_append (l m : List Extent) (x : ℕ) :
    cover (l ++ m) x = cover l x + cover m x := List.countP_append

theorem cover_perm {l m : List Extent} (h : l.Perm m) (x : ℕ) : cover l x = cover m x :=
  h.countP_eq _

theorem cover_eq_zero {l : List Extent} {x : ℕ} : cover l x = 0 ↔ ∀ e ∈ l, x ∉ e := by
  simp [cover]

theorem cover_pos {l : List Extent} {x : ℕ} : 0 < cover l x ↔ ∃ e ∈ l, x ∈ e := by
  simp [cover, List.countP_pos_iff]

/-- A piece that is covered together with `l` at most once everywhere is apart from every member. -/
theorem apart_of_cover_le_one {l : List Extent} {e f : Extent} (he : 0 < e.len) (hf : 0 < f.len)
    (h : ∀ x, cover l x + cover [e] x ≤ 1) (hfl : f ∈ l) : Apart e f := by
  refine apart_of_forall_not_mem he hf fun x hxe hxf => ?_
  have h1 : 0 < cover l x := cover_pos.mpr ⟨f, hfl, hxf⟩
  have h2 : 0 < cover [e] x := cover_pos.mpr ⟨e, by simp, hxe⟩
  have := h x
  omega

/-! ### Cutting a block off the front of a piece -/

/-- What is left of `e` after its first `k` addresses are taken. -/
def dropFront (e : Extent) (k : ℕ) : List Extent :=
  if e.len = k then [] else [⟨e.start + k, e.len - k⟩]

theorem cover_dropFront {e : Extent} {k : ℕ} (hk : k ≤ e.len) (x : ℕ) :
    cover (dropFront e k) x + cover [⟨e.start, k⟩] x = cover [e] x := by
  unfold dropFront
  split_ifs with h
  · subst h; simp
  · simp only [cover_cons, cover_nil, mem_iff, zero_add]
    split_ifs <;> omega

theorem mem_dropFront {e f : Extent} {k : ℕ} (hk : k ≤ e.len) (hf : f ∈ dropFront e k) :
    f.start = e.start + k ∧ f.stop = e.stop ∧ 0 < f.len := by
  unfold dropFront at hf
  split_ifs at hf with h
  · cases hf
  · obtain rfl := List.mem_singleton.mp hf
    unfold stop
    dsimp only
    omega

/-! ### Joining neighbours that touch -/

/-- Put `e` in front of `l`, joined with the first member when they touch. -/
def joinFwd (e : Extent) : List Extent → List Extent
  | [] => [e]
  | f :: l => if e.stop = f.start then ⟨e.start, e.len + f.len⟩ :: l else e :: f :: l

/-- Put `e` between `pre` and `post`, joined first with the start of `post` and then with the end
of `pre`. -/
def joinAround (pre : List Extent) (e : Extent) (post : List Extent) : List Extent :=
  match pre.getLast? with
  | none => joinFwd e post
  | some d => pre.dropLast ++ joinFwd d (joinFwd e post)

theorem joinFwd_cons (e f : Extent) (l : List Extent) :
    joinFwd e (f :: l)
      = if e.stop = f.start then ⟨e.start, e.len + f.len⟩ :: l else e :: f :: l := rfl

@[simp] theorem joinAround_nil (e : Extent) (post : List Extent) :
    joinAround [] e post = joinFwd e post := rfl

@[simp] theorem joinAround_concat (pre : List Extent) (d e : Extent) (post : List Extent) :
    joinAround (pre ++ [d]) e post = pre ++ joinFwd d (joinFwd e post) := by
  simp [joinAround]

@[simp] theorem cover_joinFwd (e : Extent) (l : List Extent) (x : ℕ) :
    cover (joinFwd e l) x = cover (e :: l) x := by
  cases l with
  | nil => rfl
  | cons f l =>
    rw [joinFwd_cons]
    split_ifs with h
    · unfold stop at h
      simp only [cover_cons, mem_iff]
      split_ifs <;> omega
    · rfl

theorem cover_joinAround (pre : List Extent) (e : Extent) (post : List Extent) (x : ℕ) :
    cover (joinAround pre e post) x = cover (pre ++ post) x + cover [e] x := by
  rcases List.eq_nil_or_concat' pre with rfl | ⟨pre', d, rfl⟩
  · simp [cover_cons]
  · simp only [joinAround_concat, cover_append, cover_joinFwd, cover_cons, cover_nil]
    omega

theorem length_joinFwd_le (e : Extent) (l : List Extent) : (joinFwd e l).length ≤ l.length + 1 := by
  cases l with
  | nil => simp [joinFwd]
  | cons f l => rw [joinFwd_cons]; split_ifs <;> simp

theorem length_joinAround_le (pre : List Extent) (e : Extent) (post : List Extent) :
    (joinAround pre e post).length ≤ pre.length + post.length + 1 := by
  rcases List.eq_nil_or_concat' pre with rfl | ⟨pre', d, rfl⟩
  · simpa using length_joinFwd_le e post
  · have h1 := length_joinFwd_le e post
    have h2 := length_joinFwd_le d (joinFwd e post)
    simp only [joinAround_concat, List.length_append, List.length_cons, List.length_nil]
    omega

/-- A property of pieces that joining keeps holds of every member of the joined list. -/
theorem forall_joinFwd {P : Extent → Prop}
    (hjoin : ∀ e f : Extent, P e → P f → e.stop = f.start → P ⟨e.start, e.len + f.len⟩)
    {e : Extent} {l : List Extent} (he : P e) (hl : ∀ f ∈ l, P f) : ∀ g ∈ joinFwd e l, P g := by
  cases l with
  | nil => simpa [joinFwd] using he
  | cons f l =>
    have hf : P f := hl f List.mem_cons_self
    have hl' : ∀ g ∈ l, P g := fun g hg => hl g (List.mem_cons_of_mem _ hg)
    rw [joinFwd_cons]
    split_ifs with h
    · exact List.forall_mem_cons.mpr ⟨hjoin e f he hf h, hl'⟩
    · exact List.forall_mem_cons.mpr ⟨he, List.forall_mem_cons.mpr ⟨hf, hl'⟩⟩

theorem forall_joinAround {P : Extent → Prop}
    (hjoin : ∀ e f : Extent, P e → P f → e.stop = f.start → P ⟨e.start, e.len + f.len⟩)
    {pre post : List Extent} {e : Extent} (hpre : ∀ f ∈ pre, P f) (he : P e)
    (hpost : ∀ f ∈ post, P f) : ∀ g ∈ joinAround pre e post, P g := by
  rcases List.eq_nil_or_concat' pre with rfl | ⟨pre', d, rfl⟩
  · exact forall_joinFwd hjoin he hpost
  · rw [joinAround_concat]
    intro g hg
    rcases List.mem_append.mp hg with hg | hg
    · exact hpre g (List.mem_append_left _ hg)
    · exact forall_joinFwd hjoin (hpre d (by simp)) (forall_joinFwd hjoin he hpost) g hg

/-! ### Free lists -/

/-- Every member ends strictly before the next one starts. -/
def Separated (l : List Extent) : Prop := l.Pairwise fun e f => e.stop < f.start

theorem separated_joinFwd {e : Extent} {l : List Extent} (hl : Separated l)
    (hpos : ∀ f ∈ l, 0 < f.len) (hle : ∀ f ∈ l, e.stop ≤ f.start) : Separated (joinFwd e l) := by
  cases l with
  | nil => simp [joinFwd, Separated]
  | cons f l =>
    obtain ⟨hf, hl'⟩ := List.pairwise_cons.mp hl
    have hef := hle f List.mem_cons_self
    rw [joinFwd_cons]
    split_ifs with h
    · refine List.pairwise_cons.mpr ⟨fun g hg => ?_, hl'⟩
      have := hf g hg
      simp only [stop] at *
      omega
    · refine List.pairwise_cons.mpr ⟨fun g hg => ?_, hl⟩
      rcases List.mem_cons.mp hg with rfl | hg
      · omega
      · have := hf g hg
        have := hpos f List.mem_cons_self
        simp only [stop] at *
        omega

/-- A piece that does not touch the first member stays on its own. -/
theorem joinFwd_of_lt {e : Extent} {l : List Extent} (h : ∀ f ∈ l.head?, e.stop < f.start) :
    joinFwd e l = e :: l := by
  cases l with
  | nil => rfl
  | cons f l => rw [joinFwd_cons, if_neg (h f rfl).ne]

/-- A piece that touches neither neighbour stays on its own. -/
theorem joinAround_of_lt {pre post : List Extent} {e : Extent} (hpre : ∀ d ∈ pre, d.stop < e.start)
    (hpost : ∀ f ∈ post.head?, e.stop < f.start) : joinAround pre e post = pre ++ e :: post := by
  have hnext := joinFwd_of_lt hpost
  rcases List.eq_nil_or_concat' pre with rfl | ⟨pre', d, rfl⟩
  · rw [joinAround_nil, hnext, List.nil_append]
  · have hd : d.stop < e.start := hpre d (by simp)
    rw [joinAround_concat, hnext, joinFwd_of_lt (by simpa using hd), List.append_assoc,
      List.singleton_append]

/-- **Cutting and putting back.** A block that was cut off the front of a member of a separated list
joins what is left of that member, and nothing else. -/
theorem joinAround_dropFront {pre post : List Extent} {e : Extent} {k : ℕ}
    (hsep : Separated (pre ++ e :: post)) (hk : k ≤ e.len) :
    joinAround pre ⟨e.start, k⟩ (dropFront e k ++ post) = pre ++ e :: post := by
  obtain ⟨-, hmid, hcross⟩ := List.pairwise_append.mp hsep
  obtain ⟨hepost, -⟩ := List.pairwise_cons.mp hmid
  have hpre : ∀ d ∈ pre, d.stop < e.start := fun d hd => hcross d hd e List.mem_cons_self
  unfold dropFront
  split_ifs with hwhole
  · -- the whole member was taken
    rw [← hwhole, List.nil_append]
    refine joinAround_of_lt hpre fun f hf => hepost f (List.mem_of_mem_head? hf)
  · -- the block joins the rest of the member, which then touches nothing
    have hjoin : joinFwd ⟨e.start, k⟩ (⟨e.start + k, e.len - k⟩ :: post) = e :: post := by
      have htouch : (⟨e.start, k⟩ : Extent).stop = e.start + k := rfl
      rw [joinFwd_cons, if_pos htouch]
      dsimp only
      rw [Nat.add_sub_cancel' hk]
    rcases List.eq_nil_or_concat' pre with rfl | ⟨pre', d, rfl⟩
    · exact hjoin
    · have hd : d.stop < e.start := hpre d (by simp)
      rw [joinAround_concat, List.singleton_append, hjoin, joinFwd_of_lt (by simpa using hd),
        List.append_assoc, List.singleton_append]

/-- `l` is a free list of `region`: sorted, separated, non-empty pieces on unit boundaries. -/
structure FreeList (region : Extent) (unit : ℕ) (l : List Extent) : Prop where
  separated : Separated l
  pos : ∀ e ∈ l, 0 < e.len
  within : ∀ e ∈ l, Within e region
  aligned : ∀ e ∈ l, unit ∣ e.start ∧ unit ∣ e.len

namespace FreeList

variable {region : Extent} {unit : ℕ}

theorem nil : FreeList region unit [] := ⟨List.Pairwise.nil, by simp, by simp, by simp⟩

theorem singleton {e : Extent} (hpos : 0 < e.len) (hw : Within e region) (hs : unit ∣ e.start)
    (hl : unit ∣ e.len) : FreeList region unit [e] :=
  ⟨List.pairwise_singleton _ _, by simpa using hpos, by simpa using hw, by simpa using ⟨hs, hl⟩⟩

/-- **Taking.** Cutting a block of `k` addresses off the front of a member leaves a free list. -/
theorem take {pre post : List Extent} {e : Extent} {k : ℕ}
    (h : FreeList region unit (pre ++ e :: post)) (hk : k ≤ e.len) (hu : unit ∣ k) :
    FreeList region unit (pre ++ dropFront e k ++ post) := by
  obtain ⟨hsep, hpos, hwith, hal⟩ := h
  obtain ⟨hpre, hmid, hcross⟩ := List.pairwise_append.mp hsep
  obtain ⟨hepost, hpost⟩ := List.pairwise_cons.mp hmid
  have hmem : ∀ f ∈ pre ++ dropFront e k ++ post, f ∈ pre ++ e :: post ∨ f ∈ dropFront e k := by
    intro f hf
    simp only [List.mem_append, List.mem_cons] at hf ⊢
    tauto
  have hlist : ∀ {P : Extent → Prop}, (∀ f ∈ pre ++ e :: post, P f) → (∀ f ∈ dropFront e k, P f) →
      ∀ f ∈ pre ++ dropFront e k ++ post, P f := fun h1 h2 f hf =>
    (hmem f hf).elim (h1 f) (h2 f)
  have he : e ∈ pre ++ e :: post := by simp
  refine ⟨?_, hlist hpos fun f hf => (mem_dropFront hk hf).2.2, hlist hwith fun f hf => ?_,
    hlist hal fun f hf => ?_⟩
  · rw [Separated, List.append_assoc, List.pairwise_append]
    refine ⟨hpre, ?_, fun a ha b hb => ?_⟩
    · rw [List.pairwise_append]
      refine ⟨?_, hpost, fun a ha b hb => ?_⟩
      · unfold dropFront; split_ifs <;> simp
      · rw [(mem_dropFront hk ha).2.1]; exact hepost b hb
    · rcases List.mem_append.mp hb with hb | hb
      · have := hcross a ha e List.mem_cons_self
        have := (mem_dropFront hk hb).1
        omega
      · exact hcross a ha b (List.mem_cons_of_mem _ hb)
  · obtain ⟨h1, h2, -⟩ := mem_dropFront hk hf
    have := hwith e he
    unfold Within at *
    omega
  · obtain ⟨h1, h2, -⟩ := mem_dropFront hk hf
    obtain ⟨hs, hl⟩ := hal e he
    have hflen : f.len = e.len - k := by unfold stop at h2; omega
    rw [h1, hflen]
    exact ⟨dvd_add hs hu, Nat.dvd_sub hl hu⟩

/-- **Giving.** Putting back a block that lies between the two halves of the list, and apart from
every member, leaves a free list: what touches is joined. -/
theorem give {pre post : List Extent} {e : Extent} (h : FreeList region unit (pre ++ post))
    (hpos : 0 < e.len) (hw : Within e region) (hs : unit ∣ e.start) (hl : unit ∣ e.len)
    (hpre : ∀ f ∈ pre, f.stop ≤ e.start) (hpost : ∀ f ∈ post, e.stop ≤ f.start) :
    FreeList region unit (joinAround pre e post) := by
  obtain ⟨hsep, hp, hwith, hal⟩ := h
  have hmem : ∀ {P : Extent → Prop}, (∀ f ∈ pre ++ post, P f) →
      (∀ f ∈ pre, P f) ∧ ∀ f ∈ post, P f := fun h =>
    ⟨fun f hf => h f (List.mem_append_left _ hf), fun f hf => h f (List.mem_append_right _ hf)⟩
  obtain ⟨hsPre, hsPost, hcross⟩ := List.pairwise_append.mp hsep
  refine ⟨?_, ?_, ?_, ?_⟩
  · have hjoin : Separated (joinFwd e post) := separated_joinFwd hsPost (hmem hp).2 hpost
    rcases List.eq_nil_or_concat' pre with rfl | ⟨pre', d, rfl⟩
    · exact hjoin
    obtain ⟨hpre', -, hd⟩ := List.pairwise_append.mp hsPre
    -- everything at or after `e` starts no earlier than `e` does
    have hge : ∀ g ∈ joinFwd e post, e.start ≤ g.start :=
      forall_joinFwd (P := fun g => e.start ≤ g.start) (fun _ _ he _ _ => he) le_rfl
        fun f hf => (Nat.le_add_right _ _).trans (hpost f hf)
    have hposJ : ∀ g ∈ joinFwd e post, 0 < g.len :=
      forall_joinFwd (P := fun g => 0 < g.len) (fun _ _ h _ _ => Nat.add_pos_left h _) hpos (hmem hp).2
    have hdJ := separated_joinFwd (e := d) hjoin hposJ
      fun f hf => (hpre d (by simp)).trans (hge f hf)
    have hdge : ∀ g ∈ joinFwd d (joinFwd e post), d.start ≤ g.start :=
      forall_joinFwd (P := fun g => d.start ≤ g.start) (fun _ _ he _ _ => he) le_rfl
        fun f hf => (Nat.le_add_right _ _).trans ((hpre d (by simp)).trans (hge f hf))
    rw [joinAround_concat, Separated, List.pairwise_append]
    exact ⟨hpre', hdJ, fun a ha b hb =>
      lt_of_lt_of_le (hd a ha d (List.mem_singleton_self _)) (hdge b hb)⟩
  · exact forall_joinAround (P := fun g => 0 < g.len) (fun _ _ h _ _ => Nat.add_pos_left h _)
      (hmem hp).1 hpos (hmem hp).2
  · refine forall_joinAround (P := fun g => Within g region) (fun a b ha hb hab => ?_)
      (hmem hwith).1 hw (hmem hwith).2
    unfold Within stop at *
    dsimp only at *
    omega
  · exact forall_joinAround (P := fun g => unit ∣ g.start ∧ unit ∣ g.len)
      (fun a b ha hb _ => ⟨ha.1, dvd_add ha.2 hb.2⟩) (hmem hal).1 ⟨hs, hl⟩ (hmem hal).2

end FreeList

end Extent
