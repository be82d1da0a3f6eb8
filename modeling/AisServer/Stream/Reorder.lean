import AisServer.Lib.Calendar
import AisServer.Lib.Heap
import AisServer.Lib.Run
import Mathlib.Data.Prod.Lex

/-!
# The reorder buffer

`ReorderBuffer` is the jitter buffer: `push` puts an item in a heap ordered by `(ts, seq)` and drops
the smallest one first when the heap is full, `popReady now` releases every item whose timestamp is
not later than the cutoff `now - holdS`.

* `popReady_spec` — one call releases exactly the items up to the cutoff, sorted, and keeps the rest;
* `Feed` — a buffer under any sequence of calls, with all it has released;
* `jitter_order` — when every pushed timestamp is later than the cutoffs before it, everything ever
  released is sorted.
-/

namespace AisServer.Stream

open AisServer.Lib

variable {α : Type}

/-- `_HeapItem`: ordered by `ts`, then by `seq`; the payload is not compared. -/
structure HeapItem (α : Type) where
  ts : Time
  seq : ℕ
  payload : α

/-- The fields that are compared. -/
def HeapItem.key (i : HeapItem α) : Time ×ₗ ℕ := toLex (i.ts, i.seq)

theorem HeapItem.ts_le_of_key_le {i j : HeapItem α} (h : i.key ≤ j.key) : i.ts ≤ j.ts := by
  rcases Prod.Lex.toLex_le_toLex.1 h with h | ⟨h, -⟩
  · exact h.le
  · exact h.le

theorem HeapItem.key_le_of_ts_lt {i j : HeapItem α} (h : i.ts < j.ts) : i.key ≤ j.key :=
  Prod.Lex.toLex_le_toLex.2 (Or.inl h)

structure ReorderBuffer (α : Type) where
  holdS : Time
  maxQueue : ℕ
  heap : Heap (HeapItem.key (α := α)) := Heap.empty
  /-- The next value of `itertools.count()`. -/
  seq : ℕ := 0
  pushed : ℕ := 0
  popped : ℕ := 0
  dropped : ℕ := 0

namespace ReorderBuffer

/-- `ReorderBuffer(hold_ms, max_queue)` -/
def new (holdMs maxQueue : ℕ) : ReorderBuffer α := { holdS := holdMs / 1000, maxQueue }

/-- The item that the safety valve of `push` takes out of a full heap. -/
def oldest (b : ReorderBuffer α) : Option (HeapItem α) :=
  if b.maxQueue ≤ b.heap.size then b.heap.peek else none

/-- `push`, with the timestamp resolved; `none` is the `IndexError` of popping an empty heap, which
only a `max_queue` of zero can raise. -/
def push (b : ReorderBuffer α) (payload : α) (ts : Time) : Option (ReorderBuffer α) :=
  let item : HeapItem α := ⟨ts, b.seq, payload⟩
  if b.maxQueue ≤ b.heap.size then
    b.heap.pop.map fun r =>
      { b with
        heap := r.2.push item, seq := b.seq + 1, pushed := b.pushed + 1, dropped := b.dropped + 1 }
  else
    some { b with heap := b.heap.push item, seq := b.seq + 1, pushed := b.pushed + 1 }

/-- The items that `popReady` takes out, in the order in which it takes them. -/
def ready (b : ReorderBuffer α) (now : Time) : List (HeapItem α) :=
  (b.heap.popWhile fun i => i.ts ≤ now - b.holdS).1

/-- `pop_ready`, with the clock reading resolved. -/
def popReady (b : ReorderBuffer α) (now : Time) : List α × ReorderBuffer α :=
  let cutoff := now - b.holdS
  let r := b.heap.popWhile fun i => i.ts ≤ cutoff
  (r.1.map (·.payload), { b with heap := r.2, popped := b.popped + r.1.length })

variable {b c : ReorderBuffer α} {payload : α} {ts now : Time}

/-! ### What one call does -/

/-- **`push`.**  The new item joins what is left of the heap once the safety valve has taken the
oldest item out of a full one. -/
theorem push_spec (h : b.push payload ts = some c) :
    (∃ kept : Heap (HeapItem.key (α := α)),
      b.heap.items = b.oldest.toList ++ kept.items ∧ c.heap = kept.push ⟨ts, b.seq, payload⟩) ∧
    c.holdS = b.holdS ∧ c.maxQueue = b.maxQueue ∧ c.seq = b.seq + 1 ∧ c.pushed = b.pushed + 1 ∧
    c.popped = b.popped ∧ c.dropped = b.dropped + b.oldest.toList.length := by
  unfold push at h
  by_cases hfull : b.maxQueue ≤ b.heap.size
  · simp only [hfull, if_true, Option.map_eq_some_iff] at h
    obtain ⟨⟨a, rest⟩, hpop, rfl⟩ := h
    have hold : b.oldest = some a := by
      simp [oldest, hfull, Heap.peek, Heap.pop_items hpop]
    refine ⟨⟨rest, ?_, rfl⟩, rfl, rfl, rfl, rfl, rfl, by simp [hold]⟩
    simp [hold, Heap.pop_items hpop]
  · simp only [hfull, if_false, Option.some.injEq] at h
    subst h
    have hold : b.oldest = none := by simp [oldest, hfull]
    exact ⟨⟨b.heap, by simp [hold], rfl⟩, rfl, rfl, rfl, rfl, rfl, by simp [hold]⟩

theorem push_isSome (hq : 1 ≤ b.maxQueue) (payload : α) (ts : Time) :
    ∃ c, b.push payload ts = some c := by
  unfold push
  by_cases hfull : b.maxQueue ≤ b.heap.size
  · rcases hpop : b.heap.pop with _ | r
    · have : b.heap.size = 0 := by simp [Heap.size, Heap.pop_eq_none.1 hpop]
      omega
    · simp [hfull]
  · simp [hfull]

theorem length_oldest (hq : 1 ≤ b.maxQueue) :
    b.oldest.toList.length = if b.maxQueue ≤ b.heap.size then 1 else 0 := by
  unfold oldest
  by_cases hfull : b.maxQueue ≤ b.heap.size
  · rcases hi : b.heap.items with _ | ⟨a, l⟩
    · have : b.heap.size = 0 := by simp [Heap.size, hi]
      omega
    · simp [hfull, Heap.peek, hi]
  · simp [hfull]

theorem push_items_perm (h : b.push payload ts = some c) :
    (b.oldest.toList ++ c.heap.items).Perm (⟨ts, b.seq, payload⟩ :: b.heap.items) := by
  obtain ⟨⟨kept, hb, hc⟩, -⟩ := push_spec h
  rw [hb, hc]
  exact ((kept.push_perm _).append_left _).trans List.perm_middle

theorem size_push (h : b.push payload ts = some c) :
    b.oldest.toList.length + c.heap.size = b.heap.size + 1 := by
  simpa [Heap.size] using (push_items_perm h).length_eq

theorem size_push_le (h : b.push payload ts = some c) (hb : b.heap.size ≤ b.maxQueue) :
    c.heap.size ≤ b.maxQueue := by
  unfold push at h
  by_cases hfull : b.maxQueue ≤ b.heap.size
  · simp only [hfull, if_true, Option.map_eq_some_iff] at h
    obtain ⟨⟨a, rest⟩, hpop, rfl⟩ := h
    have hrest : b.heap.size = rest.size + 1 := by simp [Heap.size, Heap.pop_items hpop]
    show (rest.push ⟨ts, b.seq, payload⟩).size ≤ b.maxQueue
    rw [Heap.size_push]
    omega
  · simp only [hfull, if_false, Option.some.injEq] at h
    subst h
    show (b.heap.push ⟨ts, b.seq, payload⟩).size ≤ b.maxQueue
    rw [Heap.size_push]
    omega

theorem mem_push (h : b.push payload ts = some c) {i : HeapItem α} (hi : i ∈ c.heap.items) :
    i = ⟨ts, b.seq, payload⟩ ∨ i ∈ b.heap.items := by
  have := (push_items_perm h).mem_iff.1 (List.mem_append_right _ hi)
  simpa using this

theorem mem_push_self (h : b.push payload ts = some c) : ⟨ts, b.seq, payload⟩ ∈ c.heap.items := by
  obtain ⟨⟨kept, -, hc⟩, -⟩ := push_spec h
  rw [hc]
  exact Heap.mem_push.2 (Or.inl rfl)

theorem popReady_fst (b : ReorderBuffer α) (now : Time) :
    (b.popReady now).1 = (b.ready now).map (·.payload) := rfl

/-- A timestamp up to the cutoff stays so along the order of the heap. -/
theorem ready_down (cutoff : Time) (i j : HeapItem α) (h : i.key ≤ j.key)
    (hj : decide (j.ts ≤ cutoff) = true) : decide (i.ts ≤ cutoff) = true := by
  rw [decide_eq_true_eq] at hj ⊢
  exact (HeapItem.ts_le_of_key_le h).trans hj

theorem ready_eq_filter (b : ReorderBuffer α) (now : Time) :
    b.ready now = b.heap.items.filter fun i => i.ts ≤ now - b.holdS :=
  Heap.popWhile_fst_eq_filter (ready_down _) _

theorem popReady_items (b : ReorderBuffer α) (now : Time) :
    (b.popReady now).2.heap.items = b.heap.items.filter fun i => !decide (i.ts ≤ now - b.holdS) :=
  Heap.popWhile_snd_eq_filter (ready_down _) _

theorem ready_append (b : ReorderBuffer α) (now : Time) :
    b.ready now ++ (b.popReady now).2.heap.items = b.heap.items := Heap.popWhile_append _ _

theorem size_popReady (b : ReorderBuffer α) (now : Time) :
    (b.ready now).length + (b.popReady now).2.heap.size = b.heap.size := by
  simpa [Heap.size] using congrArg List.length (b.ready_append now)

/-- One turn of the loop of `pop_ready`. -/
theorem popReady_turn {i : HeapItem α} {rest : Heap (HeapItem.key (α := α))}
    (hpop : b.heap.pop = some (i, rest)) (hi : i.ts ≤ now - b.holdS) :
    b.popReady now = (i.payload :: (popReady { b with heap := rest, popped := b.popped + 1 } now).1,
      (popReady { b with heap := rest, popped := b.popped + 1 } now).2) := by
  unfold popReady
  dsimp only
  rw [Heap.popWhile_pop hpop (decide_eq_true hi), List.length_cons, List.map_cons, Nat.add_right_comm,
    Nat.add_assoc]

/-- The loop ends at the first item that is not due. -/
theorem popReady_done {i : HeapItem α} {rest : Heap (HeapItem.key (α := α))}
    (hpop : b.heap.pop = some (i, rest)) (hi : ¬ i.ts ≤ now - b.holdS) :
    b.popReady now = ([], b) := by
  unfold popReady
  dsimp only
  rw [Heap.popWhile_stop hpop (decide_eq_false hi)]
  rfl

/-- **`popReady`** returns exactly the items up to the cutoff, sorted by `(ts, seq)`, and leaves
exactly the others. -/
theorem popReady_spec (b : ReorderBuffer α) (now : Time) :
    (b.ready now).Pairwise (fun i j => i.key ≤ j.key) ∧
    b.ready now = b.heap.items.filter (fun i => i.ts ≤ now - b.holdS) ∧
    (b.popReady now).1 = (b.ready now).map (·.payload) ∧
    (b.popReady now).2.heap.items = b.heap.items.filter fun i => !decide (i.ts ≤ now - b.holdS) :=
  ⟨Heap.popWhile_fst_sorted _ _, ready_eq_filter b now, rfl, popReady_items b now⟩

end ReorderBuffer

/-! ### Any sequence of calls -/

/-- A call of the buffer. -/
inductive BufferCall (α : Type)
  | push (payload : α) (ts : Time)
  | popReady (now : Time)

/-- A buffer with what its calls have returned: the outputs as the code returns them, the items they
were made of, and the cutoffs used so far. -/
structure Feed (α : Type) where
  buf : ReorderBuffer α
  outputs : List (List α) := []
  released : List (HeapItem α) := []
  cutoffs : List Time := []

namespace Feed

def new (holdMs maxQueue : ℕ) : Feed α := { buf := ReorderBuffer.new holdMs maxQueue }

def step (s : Feed α) : BufferCall α → Option (Feed α)
  | .push payload ts => (s.buf.push payload ts).map fun b => { s with buf := b }
  | .popReady now =>
    some { buf := (s.buf.popReady now).2
           outputs := s.outputs ++ [(s.buf.popReady now).1]
           released := s.released ++ s.buf.ready now
           cutoffs := s.cutoffs ++ [now - s.buf.holdS] }

/-- The pushed timestamp is later than every cutoff used so far. -/
def Late (s : Feed α) : BufferCall α → Prop
  | .push _ ts => ∀ cutoff ∈ s.cutoffs, cutoff < ts
  | .popReady _ => True

instance (s : Feed α) : ∀ e, Decidable (Late s e)
  | .push _ ts => inferInstanceAs (Decidable (∀ cutoff ∈ s.cutoffs, cutoff < ts))
  | .popReady _ => inferInstanceAs (Decidable True)

/-- What the buffer has released is sorted, comes before what it holds, and is not later than some
cutoff. -/
structure Ordered (s : Feed α) : Prop where
  sorted : s.released.Pairwise fun i j => i.key ≤ j.key
  before : ∀ i ∈ s.released, ∀ j ∈ s.buf.heap.items, i.key ≤ j.key
  cut : ∀ i ∈ s.released, ∃ cutoff ∈ s.cutoffs, i.ts ≤ cutoff

theorem ordered_new (holdMs maxQueue : ℕ) : Ordered (new holdMs maxQueue : Feed α) where
  sorted := List.Pairwise.nil
  before := by simp [new]
  cut := by simp [new]

theorem Ordered.step {s t : Feed α} {e : BufferCall α} (hs : Ordered s) (hl : Late s e)
    (h : s.step e = some t) : Ordered t := by
  cases e with
  | push payload ts =>
    obtain ⟨c, hc, rfl⟩ := Option.map_eq_some_iff.1 h
    refine ⟨hs.sorted, fun i hi j hj => ?_, hs.cut⟩
    rcases ReorderBuffer.mem_push hc hj with rfl | hj
    · obtain ⟨cutoff, hcut, hle⟩ := hs.cut i hi
      exact HeapItem.key_le_of_ts_lt (hle.trans_lt (hl cutoff hcut))
    · exact hs.before i hi j hj
  | popReady now =>
    obtain rfl := Option.some.inj h
    have hready : ∀ i ∈ s.buf.ready now, i ∈ s.buf.heap.items ∧ i.ts ≤ now - s.buf.holdS := by
      intro i hi
      rw [ReorderBuffer.ready_eq_filter] at hi
      simpa using hi
    refine ⟨List.pairwise_append.2 ⟨hs.sorted, Heap.popWhile_fst_sorted _ _, ?_⟩, ?_, ?_⟩
    · intro i hi j hj
      exact hs.before i hi j (hready j hj).1
    · intro i hi j hj
      rcases List.mem_append.1 hi with hi | hi
      · refine hs.before i hi j ?_
        rw [ReorderBuffer.popReady_items] at hj
        exact (List.mem_filter.1 hj).1
      · exact Heap.popWhile_le hi hj
    · intro i hi
      rcases List.mem_append.1 hi with hi | hi
      · obtain ⟨cutoff, hcut, hle⟩ := hs.cut i hi
        exact ⟨cutoff, List.mem_append_left _ hcut, hle⟩
      · exact ⟨_, List.mem_append_right _ (List.mem_singleton_self _), (hready i hi).2⟩

theorem outputs_flatten {s t : Feed α} {e : BufferCall α}
    (hs : s.outputs.flatten = s.released.map (·.payload)) (h : s.step e = some t) :
    t.outputs.flatten = t.released.map (·.payload) := by
  cases e with
  | push payload ts =>
    obtain ⟨c, -, rfl⟩ := Option.map_eq_some_iff.1 h
    exact hs
  | popReady now =>
    obtain rfl := Option.some.inj h
    simp [hs, ReorderBuffer.popReady_fst]

theorem run_isSome {s : Feed α} (hq : 1 ≤ s.buf.maxQueue) (calls : List (BufferCall α)) :
    ∃ t, run step s calls = some t := by
  induction calls generalizing s with
  | nil => exact ⟨s, rfl⟩
  | cons e calls ih =>
    cases e with
    | push payload ts =>
      obtain ⟨c, hc⟩ := ReorderBuffer.push_isSome hq payload ts
      have hq' : 1 ≤ c.maxQueue := by
        rw [(ReorderBuffer.push_spec hc).2.2.1]
        exact hq
      simpa [step, hc] using ih (s := { s with buf := c }) hq'
    | popReady now => exact ih (s := ⟨_, _, _, _⟩) hq

end Feed

/-- **The jitter buffer orders.**  After any sequence of calls the next `popReady` releases exactly
the items up to its cutoff, sorted, and leaves the others; and when every pushed timestamp is later
than the cutoffs that were used before, everything the calls have returned is sorted. -/
theorem jitter_order (holdMs maxQueue : ℕ) (hq : 1 ≤ maxQueue) (calls : List (BufferCall α)) :
    ∃ s, run Feed.step (Feed.new holdMs maxQueue) calls = some s ∧
      (∀ now, (s.buf.ready now).Pairwise (fun i j => i.key ≤ j.key) ∧
        s.buf.ready now = s.buf.heap.items.filter (fun i => i.ts ≤ now - s.buf.holdS) ∧
        (s.buf.popReady now).1 = (s.buf.ready now).map (·.payload) ∧
        (s.buf.popReady now).2.heap.items =
          s.buf.heap.items.filter fun i => !decide (i.ts ≤ now - s.buf.holdS)) ∧
      (Guarded Feed.step Feed.Late (Feed.new holdMs maxQueue) calls →
        s.outputs.flatten = s.released.map (·.payload) ∧
        s.released.Pairwise fun i j => i.key ≤ j.key) := by
  obtain ⟨s, hs⟩ := Feed.run_isSome (s := (Feed.new holdMs maxQueue : Feed α)) hq calls
  refine ⟨s, hs, fun now => s.buf.popReady_spec now, fun hg => ⟨?_, ?_⟩⟩
  · exact run_inv_of_step (fun _ _ _ => Feed.outputs_flatten) rfl hs
  · have h := run_inv (I := Feed.Ordered) (fun _ _ _ h hl hst => h.step hl hst)
      (Feed.ordered_new holdMs maxQueue) hg hs
    exact h.sorted

/-- Two batches with a push between them. -/
theorem jitter_order_batches :
    ∃ s, run Feed.step (Feed.new 100 3)
        [.push 'b' 2, .push 'a' 1, .popReady (3 / 2), .push 'c' (17 / 10), .popReady 10] = some s ∧
      s.outputs.flatten = s.released.map (·.payload) ∧
      s.released.Pairwise fun i j => i.key ≤ j.key := by
  obtain ⟨s, hs, -, hsort⟩ := jitter_order 100 3 (by decide)
    [.push 'b' 2, .push 'a' 1, .popReady (3 / 2), .push 'c' (17 / 10), .popReady 10]
  exact ⟨s, hs, hsort (by decide +kernel)⟩

end AisServer.Stream
