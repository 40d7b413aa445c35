import Mathlib.Algebra.Ring.Divisibility.Basic
import Mathlib.Data.List.Chain
import OrbisCompat.Lib.Extent

/-!
# Tilings of a region by used and free tiles

A `Tile` is a piece of a region, by its offset, its size and whether it is in use.  `Tiles a l b`
says that the members of `l` follow one another from `a` to `b` without gap or overlap, and
`Tiling unit a b l` adds what a coalescing first-fit allocator keeps true of them: sizes are positive
multiples of the unit, and no two neighbours are both free.

The two edits keep a tiling, and each changes the used tiles by one:

* `cut` takes the front of a free tile into use, `Tiling.take`;
* `releaseAround` frees a used tile and joins it with its free neighbours, `Tiling.release`.

A tiling without used tiles is a single free tile (`Tiling.eq_singleton`).
-/

/-- A piece of a region. -/
structure Tile where
  off : ℕ
  size : ℕ
  used : Bool
  deriving DecidableEq, Repr

namespace Tile

/-- Where the tile lies, in a region that starts at `base`. -/
def extent (base : ℕ) (t : Tile) : Extent := ⟨base + t.off, t.size⟩

/-- The members of `l` follow one another from `a` to `b`. -/
def Tiles : ℕ → List Tile → ℕ → Prop
  | a, [], b => a = b
  | a, t :: l, b => t.off = a ∧ Tiles (a + t.size) l b

/-- Every two neighbours include one that is in use. -/
def Coalesced (l : List Tile) : Prop := l.IsChain fun s t => s.used = true ∨ t.used = true

/-- The tiles in use. -/
def usedOf (l : List Tile) : List Tile := l.filter Tile.used

@[simp] theorem usedOf_append (l m : List Tile) : usedOf (l ++ m) = usedOf l ++ usedOf m :=
  List.filter_append _ _

theorem usedOf_cons_used {t : Tile} (h : t.used = true) (l : List Tile) :
    usedOf (t :: l) = t :: usedOf l := List.filter_cons_of_pos h

theorem usedOf_cons_free {t : Tile} (h : t.used = false) (l : List Tile) :
    usedOf (t :: l) = usedOf l := List.filter_cons_of_neg (by simp [h])

/-! ### Contiguity -/

theorem tiles_cons {a b : ℕ} {t : Tile} {l : List Tile} :
    Tiles a (t :: l) b ↔ t.off = a ∧ Tiles (a + t.size) l b := Iff.rfl

theorem tiles_append {b : ℕ} {l m : List Tile} :
    ∀ {a : ℕ}, Tiles a (l ++ m) b ↔ ∃ c, Tiles a l c ∧ Tiles c m b := by
  induction l with
  | nil =>
    intro a
    constructor
    · intro h
      exact ⟨a, rfl, h⟩
    · rintro ⟨c, rfl, h⟩
      exact h
  | cons t l ih =>
    intro a
    rw [List.cons_append, tiles_cons, ih]
    constructor
    · rintro ⟨h, c, h1, h2⟩
      exact ⟨c, ⟨h, h1⟩, h2⟩
    · rintro ⟨c, ⟨h, h1⟩, h2⟩
      exact ⟨h, c, h1, h2⟩

theorem Tiles.le {l : List Tile} : ∀ {a b : ℕ}, Tiles a l b → a ≤ b := by
  induction l with
  | nil => intro a b h; exact le_of_eq h
  | cons t l ih =>
    intro a b h
    exact (Nat.le_add_right _ _).trans (ih h.2)

/-- Where the pieces of a split tiling lie. -/
theorem Tiles.split {a b : ℕ} {pre post : List Tile} {t : Tile} (h : Tiles a (pre ++ t :: post) b) :
    Tiles a pre t.off ∧ Tiles (t.off + t.size) post b := by
  obtain ⟨c, h1, h2, h3⟩ := tiles_append.mp h
  subst h2
  exact ⟨h1, h3⟩

/-- Members lie inside the region. -/
theorem Tiles.within {a b : ℕ} {l : List Tile} (h : Tiles a l b) {t : Tile} (ht : t ∈ l) :
    a ≤ t.off ∧ t.off + t.size ≤ b := by
  obtain ⟨pre, post, rfl⟩ := List.mem_iff_append.mp ht
  exact ⟨h.split.1.le, h.split.2.le⟩

/-- Earlier members end where later ones start, or before. -/
theorem Tiles.ordered {l : List Tile} : ∀ {a b : ℕ}, Tiles a l b →
    l.Pairwise fun s t => s.off + s.size ≤ t.off := by
  induction l with
  | nil => intro a b _; exact List.Pairwise.nil
  | cons s l ih =>
    intro a b h
    obtain ⟨rfl, h⟩ := h
    exact List.pairwise_cons.mpr ⟨fun t ht => (h.within ht).1, ih h⟩

/-- Every place of the region is in a member. -/
theorem Tiles.exists_mem {x : ℕ} {l : List Tile} : ∀ {a b : ℕ}, Tiles a l b → a ≤ x → x < b →
    ∃ t ∈ l, t.off ≤ x ∧ x < t.off + t.size := by
  induction l with
  | nil =>
    intro a b h hlo hhi
    obtain rfl : a = b := h
    omega
  | cons t l ih =>
    intro a b h hlo hhi
    obtain ⟨rfl, hrest⟩ := h
    by_cases hx : x < t.off + t.size
    · exact ⟨t, List.mem_cons_self, hlo, hx⟩
    · obtain ⟨u, hu, hxu⟩ := ih hrest (Nat.le_of_not_lt hx) hhi
      exact ⟨u, List.mem_cons_of_mem _ hu, hxu⟩

/-- What is in use fits in the region. -/
theorem Tiles.sum_usedOf_le {l : List Tile} : ∀ {a b : ℕ}, Tiles a l b →
    a + ((usedOf l).map Tile.size).sum ≤ b := by
  induction l with
  | nil =>
    intro a b h
    exact le_of_eq h
  | cons t l ih =>
    intro a b h
    have hrest := ih h.2
    cases ht : t.used with
    | true =>
      rw [usedOf_cons_used ht, List.map_cons, List.sum_cons]
      omega
    | false =>
      rw [usedOf_cons_free ht]
      omega

/-- Lower bounds on the members add up to one on the region. -/
theorem Tiles.sum_le {f : Tile → ℕ} {l : List Tile} : ∀ {a b : ℕ}, Tiles a l b →
    (∀ t ∈ l, f t ≤ t.size) → a + (l.map f).sum ≤ b := by
  induction l with
  | nil =>
    intro a b h _
    exact le_of_eq h
  | cons t l ih =>
    intro a b h hf
    have ht := hf t List.mem_cons_self
    have hrest := ih h.2 fun u hu => hf u (List.mem_cons_of_mem _ hu)
    rw [List.map_cons, List.sum_cons]
    omega

/-- Free tiles are kept apart by tiles in use, so there is at most one more of them. -/
theorem Coalesced.length_le : ∀ {l : List Tile}, Coalesced l → l.length ≤ 2 * (usedOf l).length + 1
  | [], _ => Nat.zero_le _
  | [_], _ => Nat.le_add_left _ _
  | t :: u :: l, h => by
    obtain ⟨htu, hchain⟩ := List.isChain_cons_cons.mp h
    have hl := Coalesced.length_le (List.IsChain.tail hchain)
    have hul := Coalesced.length_le hchain
    rw [List.length_cons, List.length_cons]
    cases ht : t.used with
    | true =>
      rw [usedOf_cons_used ht, List.length_cons]
      rw [List.length_cons] at hul
      omega
    | false =>
      -- the next one is in use, and the rest starts anew
      have hu : u.used = true := htu.resolve_left (by simp [ht])
      rw [usedOf_cons_free ht, usedOf_cons_used hu, List.length_cons]
      rw [List.tail_cons] at hl
      omega

/-- Tiles that count `x` each, and `y` more when in use. -/
theorem sum_weight (x y : ℕ) (l : List Tile) :
    (l.map fun t => if t.used = true then x + y else x).sum
      = x * l.length + y * (usedOf l).length := by
  induction l with
  | nil => simp [usedOf]
  | cons t l ih =>
    rw [List.map_cons, List.sum_cons, ih, List.length_cons, Nat.mul_succ]
    cases ht : t.used with
    | true =>
      rw [if_pos rfl, usedOf_cons_used ht, List.length_cons, Nat.mul_succ]
      omega
    | false =>
      rw [if_neg Bool.false_ne_true, usedOf_cons_free ht]
      omega

/-! ### Joining free neighbours -/

/-- Put `t` in front of `l`, joined with the first member when both are free. -/
def joinFree (t : Tile) : List Tile → List Tile
  | [] => [t]
  | u :: l =>
    if t.used = false ∧ u.used = false then ⟨t.off, t.size + u.size, false⟩ :: l else t :: u :: l

/-- Free the tile between `pre` and `post`, and join it with the start of `post` and then with the
end of `pre`. -/
def releaseAround (pre : List Tile) (t : Tile) (post : List Tile) : List Tile :=
  match pre.getLast? with
  | none => joinFree { t with used := false } post
  | some d => pre.dropLast ++ joinFree d (joinFree { t with used := false } post)

theorem joinFree_cons (t u : Tile) (l : List Tile) : joinFree t (u :: l)
    = if t.used = false ∧ u.used = false then ⟨t.off, t.size + u.size, false⟩ :: l
      else t :: u :: l := rfl

@[simp] theorem releaseAround_nil (t : Tile) (post : List Tile) :
    releaseAround [] t post = joinFree { t with used := false } post := rfl

@[simp] theorem releaseAround_concat (pre : List Tile) (d t : Tile) (post : List Tile) :
    releaseAround (pre ++ [d]) t post
      = pre ++ joinFree d (joinFree { t with used := false } post) := by
  simp [releaseAround]

theorem joinFree_of_used {t : Tile} {l : List Tile}
    (h : t.used = true ∨ ∀ u ∈ l.head?, u.used = true) : joinFree t l = t :: l := by
  cases l with
  | nil => rfl
  | cons u l =>
    rw [joinFree_cons, if_neg]
    rintro ⟨ht, hu⟩
    rcases h with h | h
    · rw [ht] at h
      cases h
    · rw [h u rfl] at hu
      cases hu

/-- Between tiles in use nothing is joined. -/
theorem releaseAround_of_used {pre post : List Tile} {t : Tile}
    (hpre : ∀ d ∈ pre, d.used = true) (hpost : ∀ u ∈ post.head?, u.used = true) :
    releaseAround pre t post = pre ++ { t with used := false } :: post := by
  rcases List.eq_nil_or_concat' pre with rfl | ⟨pre', d, rfl⟩
  · rw [releaseAround_nil, joinFree_of_used (Or.inr hpost)]
    rfl
  · rw [releaseAround_concat, joinFree_of_used (Or.inr hpost),
      joinFree_of_used (Or.inl (hpre d (by simp))), List.append_assoc]
    rfl

theorem tiles_joinFree {a b : ℕ} {t : Tile} {l : List Tile} (h : Tiles a (t :: l) b) :
    Tiles a (joinFree t l) b := by
  cases l with
  | nil => exact h
  | cons u l =>
    rw [joinFree_cons]
    split_ifs
    · obtain ⟨rfl, -, h⟩ := h
      exact ⟨rfl, by rwa [← Nat.add_assoc]⟩
    · exact h

@[simp] theorem usedOf_joinFree (t : Tile) (l : List Tile) :
    usedOf (joinFree t l) = usedOf (t :: l) := by
  cases l with
  | nil => rfl
  | cons u l =>
    rw [joinFree_cons]
    split_ifs with h
    · rw [usedOf_cons_free rfl, usedOf_cons_free h.1, usedOf_cons_free h.2]
    · rfl

/-- The joined list starts with a tile that is in use exactly when `t` is. -/
theorem joinFree_head (t : Tile) (l : List Tile) :
    ∃ u m, joinFree t l = u :: m ∧ u.used = t.used := by
  cases l with
  | nil => exact ⟨t, [], rfl, rfl⟩
  | cons u l =>
    rw [joinFree_cons]
    split_ifs with h
    · exact ⟨_, l, rfl, h.1.symm⟩
    · exact ⟨t, u :: l, rfl, rfl⟩

theorem length_joinFree_le (t : Tile) (l : List Tile) : (joinFree t l).length ≤ l.length + 1 := by
  cases l with
  | nil => simp [joinFree]
  | cons u l => rw [joinFree_cons]; split_ifs <;> simp

theorem coalesced_joinFree {t : Tile} {l : List Tile} (h : Coalesced l) :
    Coalesced (joinFree t l) := by
  cases l with
  | nil => exact List.isChain_singleton _
  | cons u l =>
    rw [joinFree_cons]
    obtain ⟨hu, hl⟩ := List.isChain_cons.mp h
    split_ifs with hfree
    · refine List.isChain_cons.mpr ⟨fun v hv => Or.inr ?_, hl⟩
      rcases hu v hv with h | h
      · rw [hfree.2] at h; cases h
      · exact h
    · refine List.isChain_cons_cons.mpr ⟨?_, h⟩
      cases ht : t.used
      · cases hu : u.used
        · exact absurd ⟨ht, hu⟩ hfree
        · exact Or.inr rfl
      · exact Or.inl rfl

/-- A property of tiles that joining keeps holds of every member of the joined list. -/
theorem forall_joinFree {P : Tile → Prop}
    (hjoin : ∀ s t : Tile, P s → P t → P ⟨s.off, s.size + t.size, false⟩) {t : Tile}
    {l : List Tile} (ht : P t) (hl : ∀ u ∈ l, P u) : ∀ u ∈ joinFree t l, P u := by
  cases l with
  | nil => simpa [joinFree] using ht
  | cons u l =>
    have hu : P u := hl u List.mem_cons_self
    have hl' : ∀ v ∈ l, P v := fun v hv => hl v (List.mem_cons_of_mem _ hv)
    rw [joinFree_cons]
    split_ifs
    · exact List.forall_mem_cons.mpr ⟨hjoin t u ht hu, hl'⟩
    · exact List.forall_mem_cons.mpr ⟨ht, List.forall_mem_cons.mpr ⟨hu, hl'⟩⟩

/-! ### The invariant -/

/-- What a coalescing allocator keeps true of the tiles of `[a, b)`. -/
structure Tiling (unit a b : ℕ) (l : List Tile) : Prop where
  tiles : Tiles a l b
  sizes : ∀ t ∈ l, 0 < t.size ∧ unit ∣ t.size
  coalesced : Coalesced l

/-- The front `k` of a free tile taken into use. -/
def cut (t : Tile) (k : ℕ) : List Tile :=
  if t.size = k then [⟨t.off, k, true⟩] else [⟨t.off, k, true⟩, ⟨t.off + k, t.size - k, false⟩]

theorem cut_head (t : Tile) (k : ℕ) : ∃ m, cut t k = ⟨t.off, k, true⟩ :: m := by
  unfold cut
  split_ifs
  · exact ⟨[], rfl⟩
  · exact ⟨_, rfl⟩

theorem usedOf_cut (t : Tile) (k : ℕ) : usedOf (cut t k) = [⟨t.off, k, true⟩] := by
  unfold cut
  split_ifs <;> rfl

/-- Both halves of the cut lie where the tile lay. -/
theorem tiles_cut {a b k : ℕ} {pre post : List Tile} {t : Tile} (h : Tiles a (pre ++ t :: post) b)
    (hk : k ≤ t.size) : Tiles a (pre ++ cut t k ++ post) b := by
  obtain ⟨hpre, hpost⟩ := h.split
  rw [List.append_assoc]
  refine tiles_append.mpr ⟨t.off, hpre, ?_⟩
  unfold cut
  split_ifs with heq
  · subst heq
    exact ⟨rfl, hpost⟩
  · refine ⟨rfl, rfl, ?_⟩
    show Tiles (t.off + k + (t.size - k)) post b
    rwa [Nat.add_assoc, Nat.add_sub_cancel' hk]

/-- What is joined lies where its parts lay. -/
theorem tiles_releaseAround {a b : ℕ} {pre post : List Tile} {t : Tile}
    (h : Tiles a (pre ++ t :: post) b) : Tiles a (releaseAround pre t post) b := by
  obtain ⟨hpre, hpost⟩ := h.split
  have htile : Tiles t.off (joinFree { t with used := false } post) b := tiles_joinFree ⟨rfl, hpost⟩
  rcases List.eq_nil_or_concat' pre with rfl | ⟨pre', d, rfl⟩
  · obtain rfl : a = t.off := hpre
    exact htile
  · obtain ⟨hpre', hd⟩ := hpre.split
    have hd : d.off + d.size = t.off := hd
    rw [releaseAround_concat]
    refine tiles_append.mpr ⟨d.off, hpre', tiles_joinFree ⟨rfl, ?_⟩⟩
    rw [hd]
    exact htile

namespace Tiling

variable {unit a b : ℕ}

theorem singleton (h : 0 < b) (hu : unit ∣ b) : Tiling unit 0 b [⟨0, b, false⟩] :=
  ⟨⟨rfl, Nat.zero_add b⟩, by simpa using ⟨h, hu⟩, List.isChain_singleton _⟩

/-- **Taking** the front of a free tile into use leaves a tiling. -/
theorem take {pre post : List Tile} {t : Tile} {k : ℕ} (h : Tiling unit a b (pre ++ t :: post))
    (hfree : t.used = false) (hpos : 0 < k) (hk : k ≤ t.size) (hu : unit ∣ k) :
    Tiling unit a b (pre ++ cut t k ++ post) := by
  obtain ⟨htiles, hsizes, hcoal⟩ := h
  obtain ⟨cpre, cmid, ccross⟩ := List.isChain_append.mp hcoal
  obtain ⟨cpost, ctail⟩ := List.isChain_cons.mp cmid
  refine ⟨tiles_cut htiles hk, fun u hu' => ?_, ?_⟩
  · have ht := hsizes t (by simp)
    simp only [List.mem_append] at hu'
    rcases hu' with (hu' | hu') | hu'
    · exact hsizes u (by simp [hu'])
    · unfold cut at hu'
      split_ifs at hu' with heq
      · obtain rfl := List.mem_singleton.mp hu'
        exact ⟨hpos, hu⟩
      · rcases List.mem_cons.mp hu' with rfl | hu'
        · exact ⟨hpos, hu⟩
        · obtain rfl := List.mem_singleton.mp hu'
          refine ⟨?_, Nat.dvd_sub ht.2 hu⟩
          dsimp only
          omega
    · exact hsizes u (by simp [hu'])
  · rw [List.append_assoc]
    refine List.isChain_append.mpr ⟨cpre, List.isChain_append.mpr ⟨?_, ctail, ?_⟩, ?_⟩
    · unfold cut
      split_ifs
      · exact List.isChain_singleton _
      · exact List.isChain_cons_cons.mpr ⟨Or.inl rfl, List.isChain_singleton _⟩
    · -- what follows was next to a free tile, so it is in use
      intro u _ v hv
      refine Or.inr ?_
      rcases cpost v hv with hc | hc
      · rw [hfree] at hc; cases hc
      · exact hc
    · obtain ⟨m, hm⟩ := cut_head t k
      rw [hm]
      intro u _ v hv
      obtain rfl : (⟨t.off, k, true⟩ : Tile) = v := by simpa using hv
      exact Or.inr rfl

theorem usedOf_take {pre post : List Tile} {t : Tile} {k : ℕ} (hfree : t.used = false) :
    (usedOf (pre ++ cut t k ++ post)).Perm (⟨t.off, k, true⟩ :: usedOf (pre ++ t :: post)) := by
  rw [usedOf_append, usedOf_append, usedOf_append, usedOf_cut, usedOf_cons_free hfree,
    List.append_assoc]
  exact List.perm_middle

/-- **Releasing** a tile leaves a tiling: it joins the free neighbours it has. -/
theorem release {pre post : List Tile} {t : Tile} (h : Tiling unit a b (pre ++ t :: post)) :
    Tiling unit a b (releaseAround pre t post) := by
  obtain ⟨htiles, hsizes, hcoal⟩ := h
  obtain ⟨cpre, cmid, -⟩ := List.isChain_append.mp hcoal
  have ctail := (List.isChain_cons.mp cmid).2
  set f : Tile := { t with used := false } with hf
  have hjoin : ∀ s u : Tile, 0 < s.size ∧ unit ∣ s.size → 0 < u.size ∧ unit ∣ u.size →
      0 < s.size + u.size ∧ unit ∣ s.size + u.size := fun s u hs hu =>
    ⟨Nat.add_pos_left hs.1 _, dvd_add hs.2 hu.2⟩
  have hlist : ∀ u ∈ joinFree f post, 0 < u.size ∧ unit ∣ u.size :=
    forall_joinFree (P := fun u => 0 < u.size ∧ unit ∣ u.size) hjoin (hsizes t (by simp))
      fun u hu => hsizes u (by simp [hu])
  have hcoalF : Coalesced (joinFree f post) := coalesced_joinFree ctail
  suffices h : (∀ u ∈ releaseAround pre t post, 0 < u.size ∧ unit ∣ u.size) ∧
      Coalesced (releaseAround pre t post) from ⟨tiles_releaseAround htiles, h.1, h.2⟩
  rcases List.eq_nil_or_concat' pre with rfl | ⟨pre', d, rfl⟩
  · exact ⟨hlist, hcoalF⟩
  · rw [releaseAround_concat]
    obtain ⟨cpre', -, cd⟩ := List.isChain_append.mp cpre
    refine ⟨fun u hu => ?_, ?_⟩
    · rcases List.mem_append.mp hu with hu | hu
      · exact hsizes u (by simp [hu])
      · exact forall_joinFree (P := fun u => 0 < u.size ∧ unit ∣ u.size) hjoin
          (hsizes d (by simp)) hlist u hu
    · refine List.isChain_append.mpr ⟨cpre', coalesced_joinFree hcoalF, ?_⟩
      obtain ⟨v, m, hv, hvd⟩ := joinFree_head d (joinFree f post)
      rw [hv]
      intro u hu w hw
      obtain rfl : v = w := by simpa using hw
      rw [hvd]
      exact cd u hu d rfl

theorem usedOf_release {pre post : List Tile} {t : Tile} (hused : t.used = true) :
    (usedOf (pre ++ t :: post)).Perm (t :: usedOf (releaseAround pre t post)) := by
  have hfree : usedOf ({ t with used := false } :: post) = usedOf post := usedOf_cons_free rfl _
  have hrel : usedOf (releaseAround pre t post) = usedOf pre ++ usedOf post := by
    rcases List.eq_nil_or_concat' pre with rfl | ⟨pre', d, rfl⟩
    · rw [releaseAround_nil, usedOf_joinFree, hfree]
      rfl
    · rw [releaseAround_concat, usedOf_append, usedOf_joinFree, usedOf_append, List.append_assoc]
      congr 1
      cases hd : d.used
      · rw [usedOf_cons_free hd, usedOf_cons_free hd, usedOf_joinFree, hfree]
        rfl
      · rw [usedOf_cons_used hd, usedOf_cons_used hd, usedOf_joinFree, hfree]
        rfl
  rw [hrel, usedOf_append, usedOf_cons_used hused]
  exact List.perm_middle

theorem length_release_le (pre post : List Tile) (t : Tile) :
    (releaseAround pre t post).length ≤ pre.length + post.length + 1 := by
  rcases List.eq_nil_or_concat' pre with rfl | ⟨pre', d, rfl⟩
  · simpa using length_joinFree_le { t with used := false } post
  · have h1 := length_joinFree_le { t with used := false } post
    have h2 := length_joinFree_le d (joinFree { t with used := false } post)
    simp only [releaseAround_concat, List.length_append, List.length_cons, List.length_nil]
    omega

theorem length_release_pos (pre post : List Tile) (t : Tile) :
    1 ≤ (releaseAround pre t post).length := by
  rcases List.eq_nil_or_concat' pre with rfl | ⟨pre', d, rfl⟩
  · obtain ⟨u, m, h, -⟩ := joinFree_head { t with used := false } post
    rw [releaseAround_nil, h]
    simp
  · obtain ⟨u, m, h, -⟩ := joinFree_head d (joinFree { t with used := false } post)
    rw [releaseAround_concat, h, List.length_append, List.length_cons]
    omega

theorem tiles_off_dvd {l : List Tile} : ∀ {a : ℕ}, Tiles a l b → (∀ t ∈ l, unit ∣ t.size) →
    unit ∣ a → ∀ t ∈ l, unit ∣ t.off := by
  induction l with
  | nil => intro a _ _ _ t ht; cases ht
  | cons s l ih =>
    intro a htiles hsizes ha t ht
    obtain ⟨rfl, htiles⟩ := htiles
    rcases List.mem_cons.mp ht with rfl | ht
    · exact ha
    · exact ih htiles (fun u hu => hsizes u (List.mem_cons_of_mem _ hu))
        (dvd_add ha (hsizes s List.mem_cons_self)) t ht

/-- Tiles of a region that starts on a unit boundary start on unit boundaries. -/
theorem off_dvd {l : List Tile} (h : Tiling unit a b l) (ha : unit ∣ a) {t : Tile} (ht : t ∈ l) :
    unit ∣ t.off :=
  tiles_off_dvd h.tiles (fun u hu => (h.sizes u hu).2) ha t ht

/-- No tile comes twice. -/
theorem notMem_split {pre post : List Tile} {t : Tile} (h : Tiling unit a b (pre ++ t :: post)) :
    t ∉ pre ∧ t ∉ post := by
  obtain ⟨-, hpost, hcross⟩ := List.pairwise_append.mp h.tiles.ordered
  have hpos := (h.sizes t (by simp)).1
  refine ⟨fun hmem => ?_, fun hmem => ?_⟩
  · have := hcross t hmem t List.mem_cons_self
    omega
  · have := (List.pairwise_cons.mp hpost).1 t hmem
    omega

/-- **What a region with many tiles must hold**, when every tile in use is `y` over the unit and some free
one `k` over it. -/
theorem weight_le {y k : ℕ} {l : List Tile} (h : Tiling unit a b l)
    (hused : ∀ u ∈ l, u.used = true → unit + y ≤ u.size) {t : Tile} (ht : t ∈ l)
    (hfree : t.used = false) (hk : unit + k ≤ t.size) :
    a + (unit * l.length + y * (usedOf l).length) + k ≤ b := by
  have hunit : ∀ u ∈ l, (if u.used = true then unit + y else unit) ≤ u.size := by
    intro u hu
    obtain ⟨hpos, hdvd⟩ := h.sizes u hu
    split_ifs with huse
    · exact hused u hu huse
    · exact Nat.le_of_dvd hpos hdvd
  obtain ⟨pre, post, rfl⟩ := List.mem_iff_append.mp ht
  obtain ⟨hpre, hpost⟩ := h.tiles.split
  have h1 := hpre.sum_le fun u hu => hunit u (by simp [hu])
  have h2 := hpost.sum_le fun u hu => hunit u (by simp [hu])
  rw [sum_weight] at h1 h2
  simp only [usedOf_append, usedOf_cons_free hfree, List.length_append, List.length_cons, Nat.mul_add,
    Nat.mul_one]
  omega

/-- Of a tiling with nothing in use there is only one tile. -/
theorem eq_singleton {l : List Tile} (h : Tiling unit a b l) (hne : l ≠ [])
    (hfree : ∀ t ∈ l, t.used = false) : l = [⟨a, b - a, false⟩] := by
  obtain ⟨htiles, -, hcoal⟩ := h
  cases l with
  | nil => exact absurd rfl hne
  | cons t l =>
    cases l with
    | nil =>
      obtain ⟨rfl, hend⟩ := htiles
      have hend : t.off + t.size = b := hend
      have hsize : t.size = b - t.off := by omega
      have hused := hfree t (by simp)
      rw [← hsize, ← hused]
    | cons u l =>
      rcases (List.isChain_cons_cons.mp hcoal).1 with h | h
      · rw [hfree t (by simp)] at h; cases h
      · rw [hfree u (by simp)] at h; cases h

end Tiling

end Tile
