import Mathlib.Data.List.Basic
import Mathlib.Tactic.Common

/-!
# Reading a stream in chunks

A machine `push` reads a stream element by element: an element completes an item, or leaves it unfinished in a state,
or fits nothing.  A converter that is called with a chunk reads what belongs to one item (`call`), and a caller goes on
with what the converter has left of the chunk, and then with the next chunk (`feed`).

Whatever the chunks are, the caller ends up as if the machine had read the stream (`feed_eq`), so where the stream is
cut does not matter (`feed_flatten`).
-/

namespace Chunked

variable {σ β γ : Type*}

/-- What an element does to the machine. -/
inductive Pushed (σ γ : Type*)
  | item (c : γ)
  | more (st : σ)
  | bad

/-- What a call over a chunk does: it completes an item with the first `k` elements, or it has read all of them, or it
fails.  Each time it leaves a state. -/
inductive Called (σ γ : Type*)
  | item (c : γ) (k : ℕ) (st : σ)
  | more (st : σ)
  | bad (st : σ)

/-- What a caller knows after some elements. -/
structure Fed (σ γ : Type*) where
  st : σ
  items : List γ
  /-- How many elements the items took. -/
  done : ℕ
  /-- How many elements are behind them, of an item that is not complete. -/
  held : ℕ
  /-- Whether what comes next is no item. -/
  stopped : Bool
  deriving DecidableEq, Repr

namespace Fed

def init (st : σ) : Fed σ γ := ⟨st, [], 0, 0, false⟩

def item (f : Fed σ γ) (c : γ) (k : ℕ) (st : σ) : Fed σ γ :=
  { f with st, items := f.items ++ [c], done := f.done + f.held + k, held := 0 }

def more (f : Fed σ γ) (k : ℕ) (st : σ) : Fed σ γ := { f with st, held := f.held + k }

def bad (f : Fed σ γ) (st : σ) : Fed σ γ := { f with st, held := 0, stopped := true }

end Fed

/-! ### By chunks -/

/-- The caller's loop over a chunk. -/
def feedChunk (conv : List β → σ → Called σ γ) : ℕ → List β → Fed σ γ → Fed σ γ
  | 0, _, f => f
  | fuel + 1, chunk, f =>
    match conv chunk f.st with
    | .item c k st => feedChunk conv fuel (chunk.drop k) (f.item c k st)
    | .more st => f.more chunk.length st
    | .bad st => f.bad st

/-- The caller's loop over the chunks.  Every item takes an element, so there are no more calls than elements. -/
def feed (conv : List β → σ → Called σ γ) (st : σ) (chunks : List (List β)) : Fed σ γ :=
  chunks.foldl (fun f chunk => if f.stopped then f else feedChunk conv (chunk.length + 1) chunk f) (.init st)

/-! ### By elements -/

/-- The caller, element by element. -/
def feedOne (push : σ → β → Pushed σ γ) (st₀ : σ) (f : Fed σ γ) (b : β) : Fed σ γ :=
  if f.stopped then f
  else
    match push f.st b with
    | .item c => f.item c 1 st₀
    | .more st => f.more 1 st
    | .bad => f.bad st₀

/-- One element more in front of a call. -/
def Called.shift (d : ℕ) : Called σ γ → Called σ γ
  | .item c k st => .item c (k + d) st
  | .more st => .more st
  | .bad st => .bad st

/-- What a call over a chunk should do. -/
def call (push : σ → β → Pushed σ γ) (st₀ : σ) : σ → List β → Called σ γ
  | st, [] => .more st
  | st, b :: chunk =>
    match push st b with
    | .item c => .item c 1 st₀
    | .more st => (call push st₀ st chunk).shift 1
    | .bad => .bad st₀

@[simp] theorem Called.shift_zero (r : Called σ γ) : r.shift 0 = r := by
  cases r <;> rfl

@[simp] theorem Called.shift_item (c : γ) (k d : ℕ) (st : σ) : (Called.item c k st).shift d = .item c (k + d) st := rfl

@[simp] theorem Called.shift_more (d : ℕ) (st : σ) : (Called.more st : Called σ γ).shift d = .more st := rfl

@[simp] theorem Called.shift_bad (d : ℕ) (st : σ) : (Called.bad st : Called σ γ).shift d = .bad st := rfl

@[simp] theorem Called.shift_shift (r : Called σ γ) (d e : ℕ) : (r.shift d).shift e = r.shift (d + e) := by
  cases r with
  | item c k st => simp [shift, Nat.add_assoc]
  | more | bad => rfl

@[simp] theorem Called.shift_eq_item {r : Called σ γ} {c : γ} {k d : ℕ} {st : σ} :
    r.shift d = .item c k st ↔ ∃ j, r = .item c j st ∧ j + d = k := by
  cases r with
  | item c' j st' =>
    constructor
    · intro h
      injection h with hc hk hst
      exact ⟨j, by rw [hc, hst], hk⟩
    · rintro ⟨_, h, rfl⟩
      injection h with hc hj hst
      rw [hc, hj, hst, shift]
  | more | bad => simp [shift]

@[simp] theorem Called.shift_eq_more {r : Called σ γ} {d : ℕ} {st : σ} : r.shift d = .more st ↔ r = .more st := by
  cases r <;> simp [shift]

@[simp] theorem Called.shift_eq_bad {r : Called σ γ} {d : ℕ} {st : σ} : r.shift d = .bad st ↔ r = .bad st := by
  cases r <;> simp [shift]

variable {push : σ → β → Pushed σ γ} {st₀ : σ} {f : Fed σ γ}

theorem call_cons_item {st : σ} {b : β} {c : γ} (h : push st b = .item c) (s : List β) :
    call push st₀ st (b :: s) = .item c 1 st₀ := by
  rw [call, h]

theorem call_cons_more {st st' : σ} {b : β} (h : push st b = .more st') (s : List β) :
    call push st₀ st (b :: s) = (call push st₀ st' s).shift 1 := by
  rw [call, h]

theorem call_cons_bad {st : σ} {b : β} (h : push st b = .bad) (s : List β) :
    call push st₀ st (b :: s) = .bad st₀ := by
  rw [call, h]

/-- A call over two chunks at once: the second matters when the first does not complete an item. -/
theorem call_append (s t : List β) (st : σ) : call push st₀ st (s ++ t) =
    match call push st₀ st s with
    | .more st' => (call push st₀ st' t).shift s.length
    | r => r := by
  induction s generalizing st with
  | nil => simp [call]
  | cons b s ih =>
    rw [List.cons_append, call, call]
    cases push st b with
    | item c => rfl
    | bad => rfl
    | more st' =>
      dsimp only
      rw [ih]
      cases call push st₀ st' s with
      | item c k st => rfl
      | more st => simp
      | bad st => rfl

/-- A call completes an item with elements that it is given. -/
theorem call_item {s : List β} {st st' : σ} {c : γ} {k : ℕ} (h : call push st₀ st s = .item c k st') :
    0 < k ∧ k ≤ s.length ∧ st' = st₀ := by
  induction s generalizing st k with
  | nil => cases h
  | cons b s ih =>
    rw [call] at h
    cases hpush : push st b with
    | item c =>
      rw [hpush] at h
      cases h
      simp
    | bad =>
      rw [hpush] at h
      cases h
    | more st₁ =>
      rw [hpush] at h
      dsimp only at h
      cases hcall : call push st₀ st₁ s with
      | item c₁ k₁ st₂ =>
        rw [hcall] at h
        cases h
        obtain ⟨hpos, hle, hst⟩ := ih hcall
        exact ⟨Nat.succ_pos _, Nat.succ_le_succ hle, hst⟩
      | more st₂ =>
        rw [hcall] at h
        cases h
      | bad st₂ =>
        rw [hcall] at h
        cases h

theorem foldl_stopped (h : f.stopped = true) (s : List β) : s.foldl (feedOne push st₀) f = f := by
  induction s with
  | nil => rfl
  | cons b s ih => rw [List.foldl_cons, feedOne, if_pos h, ih]

/-- What a call does is what the machine does with the elements that it reads. -/
theorem foldl_call (push : σ → β → Pushed σ γ) (st₀ : σ) (s : List β) : ∀ (f : Fed σ γ), f.stopped = false →
    match call push st₀ f.st s with
    | .item c k st => st = st₀ ∧ (s.drop k).length < s.length ∧
        s.foldl (feedOne push st₀) f = (s.drop k).foldl (feedOne push st₀) (f.item c k st)
    | .more st => s.foldl (feedOne push st₀) f = f.more s.length st
    | .bad st => s.foldl (feedOne push st₀) f = f.bad st := by
  induction s with
  | nil => exact fun f _ => rfl
  | cons b s ih =>
    intro f hf
    have hrun : ¬ f.stopped = true := by simp [hf]
    rw [call, List.foldl_cons, feedOne, if_neg hrun]
    cases push f.st b with
    | item c => exact ⟨rfl, Nat.lt_succ_self _, rfl⟩
    | bad => exact foldl_stopped rfl s
    | more st =>
      -- the element is held, and counted when the rest of the chunk completes an item
      have hnext := ih (f.more 1 st) hf
      dsimp only [Fed.more] at hnext ⊢
      revert hnext
      cases call push st₀ st s with
      | item c k st' =>
        rintro ⟨hst, hlen, heq⟩
        refine ⟨hst, Nat.lt_succ_of_lt hlen, heq.trans ?_⟩
        simp [Fed.item, Nat.add_assoc, Nat.add_comm 1]
      | more st' =>
        intro heq
        refine heq.trans ?_
        simp [Nat.add_assoc, Nat.add_comm 1]
      | bad st' => exact fun heq => heq

/-! ### Converters -/

/-- On the states `Inv`, which are closed under elements in `Ok`, the converter does what a call should do. -/
structure Refines (conv : List β → σ → Called σ γ) (push : σ → β → Pushed σ γ) (st₀ : σ) (Ok : β → Prop)
    (Inv : σ → Prop) : Prop where
  init : Inv st₀
  more : ∀ {st b st'}, Inv st → Ok b → push st b = .more st' → Inv st'
  conv : ∀ {st s}, Inv st → (∀ b ∈ s, Ok b) → conv s st = call push st₀ st s

variable {conv : List β → σ → Called σ γ} {Ok : β → Prop} {Inv : σ → Prop}

theorem Refines.feedOne (h : Refines conv push st₀ Ok Inv) {b : β} (hf : Inv f.st) (hb : Ok b) :
    Inv (feedOne push st₀ f b).st := by
  unfold Chunked.feedOne
  split_ifs
  · exact hf
  · cases hpush : push f.st b with
    | item c => exact h.init
    | more st => exact h.more hf hb hpush
    | bad => exact h.init

theorem Refines.foldl (h : Refines conv push st₀ Ok Inv) {s : List β} (hs : ∀ b ∈ s, Ok b) :
    ∀ {f : Fed σ γ}, Inv f.st → Inv (s.foldl (Chunked.feedOne push st₀) f).st := by
  induction s with
  | nil => exact fun hf => hf
  | cons b s ih =>
    intro f hf
    obtain ⟨hb, hs⟩ := List.forall_mem_cons.mp hs
    exact ih hs (h.feedOne hf hb)

/-- A chunk. -/
theorem Refines.feedChunk (h : Refines conv push st₀ Ok Inv) (fuel : ℕ) : ∀ {chunk : List β} {f : Fed σ γ},
    chunk.length < fuel → (∀ b ∈ chunk, Ok b) → Inv f.st → f.stopped = false →
      feedChunk conv fuel chunk f = chunk.foldl (Chunked.feedOne push st₀) f := by
  induction fuel with
  | zero => exact fun hlen => absurd hlen (Nat.not_lt_zero _)
  | succ fuel ih =>
    intro chunk f hlen hchunk hf hrun
    have hcall := foldl_call push st₀ chunk f hrun
    rw [Chunked.feedChunk, h.conv hf hchunk]
    revert hcall
    cases call push st₀ f.st chunk with
    | item c k st =>
      rintro ⟨rfl, hleft, heq⟩
      rw [heq]
      exact ih (by omega) (fun b hb => hchunk b (List.mem_of_mem_drop hb)) h.init hrun
    | more st => exact fun heq => heq.symm
    | bad st => exact fun heq => heq.symm

/-- **The caller.** It ends up where the machine does. -/
theorem Refines.feed_eq (h : Refines conv push st₀ Ok Inv) {chunks : List (List β)}
    (hchunks : ∀ chunk ∈ chunks, ∀ b ∈ chunk, Ok b) :
    feed conv st₀ chunks = chunks.flatten.foldl (Chunked.feedOne push st₀) (.init st₀) := by
  have hrun : ∀ f : Fed σ γ, Inv f.st →
      chunks.foldl (fun f chunk => if f.stopped then f else Chunked.feedChunk conv (chunk.length + 1) chunk f) f =
        chunks.flatten.foldl (Chunked.feedOne push st₀) f := by
    induction chunks with
    | nil => exact fun f _ => rfl
    | cons chunk chunks ih =>
      intro f hf
      obtain ⟨hchunk, hrest⟩ := List.forall_mem_cons.mp hchunks
      have hone : (if f.stopped then f else Chunked.feedChunk conv (chunk.length + 1) chunk f) =
          chunk.foldl (Chunked.feedOne push st₀) f := by
        split_ifs with hstop
        · exact (foldl_stopped hstop chunk).symm
        · exact h.feedChunk _ (Nat.lt_succ_self _) hchunk hf (Bool.eq_false_iff.mpr hstop)
      rw [List.foldl_cons, hone, List.flatten_cons, List.foldl_append]
      exact ih hrest _ (h.foldl hchunk hf)
  exact hrun (.init st₀) h.init

/-- **Cuts do not matter.** -/
theorem Refines.feed_flatten (h : Refines conv push st₀ Ok Inv) {chunks : List (List β)}
    (hchunks : ∀ chunk ∈ chunks, ∀ b ∈ chunk, Ok b) : feed conv st₀ chunks = feed conv st₀ [chunks.flatten] := by
  have hflat : ∀ chunk ∈ [chunks.flatten], ∀ b ∈ chunk, Ok b := by
    intro chunk hchunk b hb
    rw [List.mem_singleton.mp hchunk] at hb
    obtain ⟨chunk', hmem, hb'⟩ := List.mem_flatten.mp hb
    exact hchunks chunk' hmem b hb'
  rw [h.feed_eq hchunks, h.feed_eq hflat, List.flatten_singleton]

end Chunked
