import Mathlib.Tactic.Common
import OrbisCompat.ThreadAtexit.Basic

/-!
# What the list of a thread holds

`Stage t news busy todo` describes a thread between two steps: `news` is the list at the value of the
key, `todo` is what a walk still has ahead of it and `busy` the node it is at.  Every step of the source
takes one such description to another (`Stage.register`, `Stage.start`, `Stage.finish`), and the log
accounts for every registration on the way.

* `runCalls_stage`: calls push one node for each registration.
* `orbisThreadDtorRun_stage`: a walk starts every destructor it finds ahead of it, and leaves behind what
  they registered.
* `threadExit_stage`: each round runs one level of the nesting.
-/

namespace OrbisCompat.ThreadAtexit

open NodeHeap

variable {M : Malloc} {t : Thread} {news busy todo : List (ℕ × Node)}

/-! ### The log -/

/-- The registrations of a log. -/
def registrations (log : List Event) : List (ℕ × ℕ × ℕ) :=
  log.filterMap fun
    | .register n func obj => some (n, func, obj)
    | _ => none

/-- The starts of a log. -/
def starts (log : List Event) : List (ℕ × ℕ × ℕ) :=
  log.filterMap fun
    | .start n func obj => some (n, func, obj)
    | _ => none

/-- The nodes freed in a log. -/
def frees (log : List Event) : List ℕ :=
  log.filterMap fun
    | .free n => some n
    | _ => none

/-- What the log says of a node. -/
def entry (x : ℕ × Node) : ℕ × ℕ × ℕ := (x.2.serial, x.2.dtor.func, x.2.dtor.obj)

theorem lastInFirstOut_nil : LastInFirstOut [] := by
  intro later n func obj earlier h
  exact absurd h.symm (List.append_ne_nil_of_right_ne_nil later (List.cons_ne_nil _ _))

theorem lastInFirstOut_cons {e : Event} {log : List Event} :
    LastInFirstOut (e :: log) ↔ (∀ n func obj, e = .start n func obj → (pending log).head? = some n) ∧
      LastInFirstOut log := by
  constructor
  · intro h
    constructor
    · rintro n func obj rfl
      exact h [] n func obj log rfl
    · intro later n func obj earlier heq
      exact h (e :: later) n func obj earlier (by rw [heq]; rfl)
  · rintro ⟨hhead, htail⟩ later n func obj earlier heq
    cases later with
    | nil =>
      obtain ⟨rfl, rfl⟩ := List.cons.inj heq
      exact hhead n func obj rfl
    | cons e' later =>
      obtain ⟨-, rfl⟩ := List.cons.inj heq
      exact htail later n func obj earlier rfl

/-- Only a start has to meet the order. -/
theorem lastInFirstOut_cons_of_ne {e : Event} {log : List Event}
    (he : ∀ n func obj, e ≠ .start n func obj) : LastInFirstOut (e :: log) ↔ LastInFirstOut log := by
  rw [lastInFirstOut_cons]
  exact and_iff_right fun n func obj h => absurd h (he n func obj)

theorem lastInFirstOut_start {n func obj : ℕ} {log : List Event} :
    LastInFirstOut (.start n func obj :: log) ↔
      (pending log).head? = some n ∧ LastInFirstOut log := by
  rw [lastInFirstOut_cons]
  refine and_congr_left' ⟨fun h => h n func obj rfl, ?_⟩
  rintro h n' func' obj' heq
  obtain ⟨rfl, -, -⟩ := Event.start.inj heq
  exact h

/-! ### One step -/

/-- A thread between two steps. -/
structure Stage (t : Thread) (news busy todo : List (ℕ × Node)) : Prop where
  holds : t.heap.Holds (news ++ (busy ++ todo))
  linked : Linked Node.next t.value news
  pending : pending t.log = (news ++ todo).map fun x => x.2.serial
  /-- Every registration started or is still on a list. -/
  registrations : (registrations t.log).Perm (starts t.log ++ (news ++ todo).map entry)
  /-- Every start was followed by the free, but for the last. -/
  frees : ((starts t.log).map Prod.fst).Perm (frees t.log ++ busy.map fun x => x.2.serial)
  serials : (ThreadAtexit.registrations t.log).map Prod.fst = (List.range t.registered).reverse

theorem Stage.init : Stage Thread.init [] [] [] :=
  ⟨Holds.nil, rfl, rfl, .nil, .nil, rfl⟩

theorem map_fst_entry (xs : List (ℕ × Node)) :
    (xs.map entry).map Prod.fst = xs.map fun x => x.2.serial := by
  rw [List.map_map]
  rfl

namespace Stage

theorem nodup_registrations (h : Stage t news busy todo) :
    ((ThreadAtexit.registrations t.log).map Prod.fst).Nodup := by
  rw [h.serials, List.nodup_reverse]
  exact List.nodup_range

/-- No two registrations on the lists have one number. -/
theorem nodup_pending (h : Stage t news busy todo) :
    ((news ++ todo).map fun x => x.2.serial).Nodup := by
  have hperm := h.registrations.map Prod.fst
  rw [List.map_append, map_fst_entry] at hperm
  exact ((hperm.nodup_iff.mp h.nodup_registrations).of_append_right)

end Stage

/-- A call that does not register changes nothing. -/
theorem cxaThreadAtexitImpl_of_not_ok {c : Call} (hc : c.1.ok = false) (M : Malloc) (t : Thread) :
    cxaThreadAtexitImpl M t c = (t, -1) := by
  unfold cxaThreadAtexitImpl
  split_ifs with honce hmem hset
  · rfl
  · rfl
  · dsimp only
    rw [free_cons]
  · simp_all [Answers.ok]

theorem cxaThreadAtexitImpl_of_ok {c : Call} (hc : c.1.ok = true) (M : Malloc) (t : Thread) :
    cxaThreadAtexitImpl M t c =
      ({ t with
        heap := (M.addr t, ⟨c.2, t.value, t.registered⟩) :: t.heap
        value := M.addr t
        registered := t.registered + 1
        log := .register t.registered c.2.func c.2.obj :: t.log }, 0) := by
  simp only [Answers.ok, Bool.and_eq_true, beq_iff_eq] at hc
  obtain ⟨⟨honce, hmem⟩, hset⟩ := hc
  unfold cxaThreadAtexitImpl
  rw [if_neg (not_not.mpr honce), if_neg (by rw [hmem]; decide)]
  exact if_neg (not_not.mpr hset)

theorem registers_cons_of_ok {c : Call} (hc : c.1.ok = true) (calls : List Call) :
    registers (c :: calls) = c.2 :: registers calls := by
  simp [registers, hc]

theorem registers_cons_of_not_ok {c : Call} (hc : c.1.ok = false) (calls : List Call) :
    registers (c :: calls) = registers calls := by
  simp [registers, hc]

/-- A registration pushes a node. -/
theorem Stage.register (h : Stage t news busy todo) {c : Call} (hc : c.1.ok = true) :
    ∃ x, Stage (cxaThreadAtexitImpl M t c).1 (x :: news) busy todo ∧ x.2.dtor = c.2 ∧
      (LastInFirstOut (cxaThreadAtexitImpl M t c).1.log ↔ LastInFirstOut t.log) := by
  rw [cxaThreadAtexitImpl_of_ok hc]
  refine ⟨(M.addr t, ⟨c.2, t.value, t.registered⟩), ⟨?_, ?_, ?_, ?_, ?_, ?_⟩, rfl, ?_⟩
  · exact h.holds.alloc (M.addr_fresh t)
  · exact ⟨rfl, M.addr_ne_zero t, h.linked⟩
  · exact congrArg (t.registered :: ·) h.pending
  · exact (h.registrations.cons _).trans List.perm_middle.symm
  · exact h.frees
  · rw [List.range_succ, List.reverse_append]
    exact congrArg (t.registered :: ·) h.serials
  · exact lastInFirstOut_cons_of_ne fun n func obj => Event.noConfusion

/-- **Calls.** One node for each registration, the last one first. -/
theorem runCalls_stage (calls : List Call) : ∀ {t : Thread} {news : List (ℕ × Node)},
    Stage t news busy todo → ∃ pushed, Stage (runCalls M t calls) (pushed ++ news) busy todo ∧
      (pushed.map fun x => x.2.dtor) = (registers calls).reverse ∧
      (LastInFirstOut (runCalls M t calls).log ↔ LastInFirstOut t.log) := by
  induction calls with
  | nil => exact fun h => ⟨[], h, rfl, Iff.rfl⟩
  | cons c calls ih =>
    intro t news h
    by_cases hc : c.1.ok = true
    · obtain ⟨x, hx, hd, horder⟩ := h.register (M := M) hc
      obtain ⟨pushed, hstage, hmap, horder'⟩ := ih hx
      refine ⟨pushed ++ [x], by rwa [List.append_assoc], ?_, horder'.trans horder⟩
      rw [registers_cons_of_ok hc, List.map_append, hmap, List.reverse_cons, List.map_singleton, hd]
    · rw [Bool.not_eq_true] at hc
      obtain ⟨pushed, hstage, hmap, horder⟩ := ih h
      refine ⟨pushed, ?_, by rw [registers_cons_of_not_ok hc]; exact hmap, ?_⟩
      · show Stage (runCalls M (cxaThreadAtexitImpl M t c).1 calls) _ _ _
        rw [cxaThreadAtexitImpl_of_not_ok hc]
        exact hstage
      · show LastInFirstOut (runCalls M (cxaThreadAtexitImpl M t c).1 calls).log ↔ _
        rw [cxaThreadAtexitImpl_of_not_ok hc]
        exact horder

/-- The destructor of the node at the head of the walk starts. -/
theorem Stage.start {x : ℕ × Node} (h : Stage t news [] (x :: todo)) :
    Stage { t with log := .start x.2.serial x.2.dtor.func x.2.dtor.obj :: t.log } news [x] todo where
  holds := h.holds
  linked := h.linked
  pending := by
    have hnd := h.nodup_pending
    show (ThreadAtexit.pending t.log).erase x.2.serial = _
    rw [h.pending]
    rw [List.map_append, List.map_cons] at hnd ⊢
    have hnot : x.2.serial ∉ news.map fun x => x.2.serial := fun hmem =>
      (List.disjoint_of_nodup_append hnd) hmem List.mem_cons_self
    rw [List.erase_append_right _ hnot, List.erase_cons_head, List.map_append]
  registrations := by
    refine h.registrations.trans ?_
    rw [List.map_append, List.map_append, List.map_cons]
    exact ((List.perm_middle.append_left _).trans List.perm_middle)
  frees := by
    have hfrees := h.frees
    rw [List.map_nil, List.append_nil] at hfrees
    exact (hfrees.cons _).trans (List.perm_append_singleton _ _).symm
  serials := h.serials

/-- Its node is freed. -/
theorem Stage.finish {x : ℕ × Node} (h : Stage t news [x] todo) :
    Stage { t with heap := t.heap.free x.1, log := .free x.2.serial :: t.log } news [] todo where
  holds := h.holds.free
  linked := h.linked
  pending := h.pending
  registrations := h.registrations
  frees := by
    rw [List.map_nil, List.append_nil]
    exact h.frees.trans (List.perm_append_singleton _ _)
  serials := h.serials

/-- The walk may go on only as long as no destructor but the last registers. -/
theorem lastInFirstOut_stage_start {x : ℕ × Node} (h : Stage t news [] (x :: todo)) :
    LastInFirstOut (.start x.2.serial x.2.dtor.func x.2.dtor.obj :: t.log) ↔
      news = [] ∧ LastInFirstOut t.log := by
  rw [lastInFirstOut_start, h.pending]
  refine and_congr_left' ?_
  cases news with
  | nil => simp
  | cons y news =>
    have hnd := h.nodup_pending
    simp only [List.cons_append, List.map_cons, List.map_append, List.nodup_cons, List.mem_append,
      List.mem_cons] at hnd
    constructor
    · intro hhead
      exact absurd (Or.inr (Or.inl (Option.some.inj hhead))) hnd.1
    · intro hnil
      cases hnil

/-! ### Walks and rounds -/

/-- **A walk.** It starts and frees every node ahead of it, and leaves what their destructors register.
It keeps to the order when nothing was registered since it began, and only the last destructor
registers. -/
theorem orbisThreadDtorRun_stage : ∀ {todo : List (ℕ × Node)} {fuel : ℕ} {t : Thread}
    {news : List (ℕ × Node)} {d : ℕ}, todo.length < fuel → Stage t news [] todo →
    Linked Node.next d todo →
    ∃ t' pushed, orbisThreadDtorRun M fuel t d = some t' ∧ Stage t' (pushed ++ news) [] [] ∧
      (pushed.map fun x => x.2.dtor) = offspring (todo.map fun x => x.2.dtor) ∧
      (LastInFirstOut t'.log ↔ LastInFirstOut t.log ∧ (todo = [] ∨
        news = [] ∧ ∀ x ∈ (todo.map fun x => x.2.dtor).dropLast, registers x.calls = [])) := by
  intro todo
  induction todo with
  | nil =>
    rintro (_ | fuel) t news d hfuel h hd
    · exact absurd hfuel (Nat.not_lt_zero _)
    · refine ⟨t, [], if_pos hd, h, rfl, ?_⟩
      simp
  | cons x todo ih =>
    rintro (_ | fuel) t news d hfuel h ⟨rfl, hne, hnext⟩
    · exact absurd hfuel (Nat.not_lt_zero _)
    · have hread : t.heap.read x.1 = some x.2 := h.holds.read (List.mem_append_right _ List.mem_cons_self)
      obtain ⟨pushed, hcalled, hpushed, horder⟩ := runCalls_stage (M := M) x.2.dtor.calls h.start
      obtain ⟨t', pushed', hrun, hstage, hpushed', horder'⟩ :=
        ih (Nat.lt_of_succ_lt_succ hfuel) hcalled.finish hnext
      refine ⟨t', pushed' ++ pushed, ?_, by rwa [List.append_assoc], ?_, ?_⟩
      · unfold orbisThreadDtorRun
        rw [if_neg hne, hread]
        exact hrun
      · rw [List.map_append, hpushed', hpushed]
        unfold offspring
        rw [List.map_cons, List.flatMap_cons, List.reverse_append]
      · rw [horder', lastInFirstOut_cons_of_ne fun n func obj => Event.noConfusion, horder,
          lastInFirstOut_stage_start h]
        have hnone : pushed = [] ↔ registers x.2.dtor.calls = [] := by
          rw [← List.map_eq_nil_iff (f := fun x : ℕ × Node => x.2.dtor), hpushed,
            List.reverse_eq_nil_iff]
        cases todo with
        | nil => simp [and_comm]
        | cons y todo =>
          simp only [List.append_eq_nil_iff, hnone, List.map_cons, List.dropLast_cons_cons,
            List.forall_mem_cons, reduceCtorEq, false_or]
          tauto

/-- A round begins: the value of the key becomes `NULL`, and its old one is walked. -/
theorem Stage.take (h : Stage t news [] []) : Stage { t with value := 0 } [] [] news where
  holds := by simpa using h.holds
  linked := rfl
  pending := by simpa using h.pending
  registrations := by simpa using h.registrations
  frees := h.frees
  serials := h.serials

/-- **Rounds.** Each round runs the destructors that the one before registered. -/
theorem threadExit_stage : ∀ (rounds : ℕ) {t : Thread} {news : List (ℕ × Node)}, Stage t news [] [] →
    ∃ t' left, threadExit M rounds t = some t' ∧ Stage t' left [] [] ∧
      (left.map fun x => x.2.dtor) = offspring^[rounds] (news.map fun x => x.2.dtor) ∧
      (LastInFirstOut t'.log ↔ LastInFirstOut t.log ∧ ∀ k < rounds,
        ∀ x ∈ (offspring^[k] (news.map fun x => x.2.dtor)).dropLast, registers x.calls = []) := by
  intro rounds
  induction rounds with
  | zero =>
    intro t news h
    refine ⟨t, news, rfl, h, rfl, ?_⟩
    simp
  | succ rounds ih =>
    intro t news h
    rw [Nat.forall_lt_succ_left]
    by_cases hv : t.value = 0
    · obtain rfl : news = [] := Linked.eq_nil (hv ▸ h.linked)
      have hnil : ∀ k, offspring^[k] [] = [] := Function.iterate_fixed rfl
      refine ⟨t, [], if_pos hv, h, (hnil _).symm, ?_⟩
      simp [hnil]
    · have hfuel : news.length < t.heap.length + 1 := by
        rw [h.holds.length_eq]
        simp
      obtain ⟨t₁, pushed, hrun, hstage, hpushed, horder⟩ := orbisThreadDtorRun_stage (M := M)
        hfuel h.take h.linked
      rw [List.append_nil] at hstage
      obtain ⟨t', left, hexit, hleft, hmap, horder'⟩ := ih hstage
      refine ⟨t', left, ?_, hleft, ?_, ?_⟩
      · unfold threadExit
        rw [if_neg hv, hrun]
        exact hexit
      · rw [hmap, hpushed]
        rfl
      · have hround : (news = [] ∨ ([] : List (ℕ × Node)) = [] ∧
            ∀ x ∈ (news.map fun x => x.2.dtor).dropLast, registers x.calls = []) ↔
            ∀ x ∈ (news.map fun x => x.2.dtor).dropLast, registers x.calls = [] := by
          constructor
          · rintro (rfl | ⟨-, hlast⟩)
            · simp
            · exact hlast
          · exact fun hlast => Or.inr ⟨rfl, hlast⟩
        rw [horder', horder, hpushed, hround, and_assoc]
        rfl

end OrbisCompat.ThreadAtexit
